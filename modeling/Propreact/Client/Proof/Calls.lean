import Propreact.Client.Calls
import Propreact.Client.Proof.Progress

/-!
# The client process is its atomic calls

Seen from the application, the processes with all their threads are `XrushCalls`: they have the
same traces (`traces_iff`). A launch takes effect where the predictor tells a marker from a request
(`step_seen`). Conversely the helpers of an open launch bring it, unseen, to where it takes effect,
and if it is answered from there to its return (`settles`); so every step of the calls is carried
out (`carries`).
-/

namespace Propreact.Process

open Propreact.System (Stage Hop)

/-- The data that the calls work on. -/
def view (s : Process) : Xrush := ⟨s.prof, s.sys.gwin, s.sys.pred, false⟩

/-- The stages at which a launch has not taken effect, has, and is known to return. -/
def launchOf : Stage → Launch
  | .home => .idle
  | .written g | .posted g | .woken g | .read g => .called g
  | .sending g => .done (g.x ≠ 0)
  | .serving g hop =>
    match hop with
    | .queued | .received | .asked => .done (g.x ≠ 0)
    | .lost => .done false
    | .held | .granted | .answering | .responded => .done true
  | .notifying _ _ | .notified _ _ => .done true

/-- What the application sees of a state. -/
def Seen (s : Process) (y : XrushCalls) : Prop := ∃ st, At s st ∧ y = ⟨view s, launchOf st⟩

section
variable {s s' : Process} {st st' : Stage} {e : Event}

/-- A step that the application does not see leaves its launch where it is. -/
theorem launchOf_unseen {e : System.Event} (hst : Stage.Step st e st')
    (he : (s.label e).call = none) : launchOf st' = launchOf st := by
  cases hst with
  | launch g => cases he
  | mark => cases he
  | encode => cases he
  | «return» => cases he
  | @take g hpos =>
    have hx : g.x ≠ 0 := fun h0 => by
      rw [h0] at hpos
      exact absurd hpos (by decide)
    simp [launchOf, hx]
  | drop h0 => simp [launchOf, h0]
  | _ => rfl

theorem view_unseen {sys : System} {a : System.Action} {e : System.Event}
    (hn : s.sys.next a = some (e, sys)) (he : (s.label e).call = none) :
    view { s with sys } = view s := by
  have hencoded : ∀ g, e ≠ .encoded g := by
    rintro g rfl
    cases he
  have hpred : sys.pred = s.sys.pred :=
    system_lib hn (by rintro g rfl; cases he) hencoded
  rcases system_gwin hn with ⟨g, r, rfl, -⟩ | ⟨-, hgwin⟩
  · exact absurd rfl (hencoded g)
  · rw [view, hpred, hgwin]
    rfl

/-! ## What a process does, the calls do -/

/-- A step of the threads that the application sees. -/
theorem thread_seen {sys : System} {a : System.Action} {e : System.Event}
    (hn : s.sys.next a = some (e, sys)) (hst : Stage.Step st e st') {c : XrushCalls.Event}
    (hc : (s.label e).call = some c) :
    XrushCalls.Step ⟨view s, launchOf st⟩ c ⟨view { s with sys }, launchOf st'⟩ := by
  cases System.next_step hn with
  | launch g happ =>
    cases hc
    cases hst
    exact .call g
  | notify happ hw => cases hc
  | «return» happ hw =>
    cases hc
    cases hst
    exact .return
  | backend ho hb => cases hc
  | predictor hs =>
    cases hs with
    | @mark g now pred hpc hd =>
      cases hc
      cases hst
      have hnext : (view s).next (.launch g now) = some (.marked g, { view s with pred }) := by
        simp [Xrush.next, Xrush.launch, view, hd]
      exact .launch hnext rfl
    | @encode g now pred r gwin pkt hpc hd hcons henc =>
      have htaken : s.taken = r := by rw [taken, hcons]
      cases hc
      cases hst
      have hnext : (view s).next (.launch g now) = some (.requested g r,
          { view s with gwin, pred := { pred with pkt } }) := by
        simp [Xrush.next, Xrush.launch, view, hd, hcons, henc]
      rw [htaken]
      exact .launch hnext rfl
    | _ => cases hc

/-- **One step** of a process is a step of the calls, or the application does not see it. -/
theorem step_seen {y : XrushCalls} (h : Seen s y) (hs : Step s e s') :
    match e.call with
    | some c => ∃ y', XrushCalls.Step y c y' ∧ Seen s' y'
    | none => Seen s' y := by
  obtain ⟨st, hat, rfl⟩ := h
  have hat' := step_at hat hs
  cases hs with
  | callback buffer hd => exact ⟨_, .callback rfl, st, hat', rfl⟩
  | @profile buffers prof out gwin hd hr hp =>
    have hnext : (view s).next (.profile buffers) =
        some (.profiled buffers out, { view s with prof, gwin }) := by
      simp [Xrush.next, Xrush.profile, view, hr, hp]
    exact ⟨_, .profile hnext, st, hat', rfl⟩
  | destroy hd happ => exact ⟨st, hat', rfl⟩
  | @thread a e sys hd hn =>
    rw [label_system] at hat'
    obtain ⟨st', hst, hat'⟩ := hat'
    cases hc : (s.label e).call with
    | some c => exact ⟨_, thread_seen hn hst hc, st', hat', rfl⟩
    | none => exact ⟨st', hat', by rw [view_unseen hn hc, launchOf_unseen hst hc]⟩

end

/-! ## What the calls do, a process does -/

/-- The launch takes effect or returns next. -/
def Settled : Stage → Prop
  | .read _ | .notified _ _ => True
  | _ => False

theorem helper_tenant {st : Stage} {t : TenantId} (h : helper st = .tenant t) : t = 0 := by
  cases st with
  | serving g hop =>
    cases hop with
    | queued | received | granted | answering => cases h; rfl
    | _ => cases h
  | _ => cases h

/-- A helper leaves the backend's window unlocked. -/
theorem helper_free {sys sys' : System} {a : System.Action} {e : System.Event} {st : Stage}
    (hn : sys.next a = some (e, sys')) (hth : systemThread e = some (helper st))
    (hm : sys.backend.gwin.mutex = false) : sys'.backend.gwin.mutex = false := by
  cases System.next_step hn with
  | predictor hs =>
    cases hs with
    | send hpc hq => exact Backend.next_free hq (by simp) hm
    | answer hpc ht => exact Backend.next_free ht (by simp) hm
    | _ => exact hm
  | @backend b be _ ho hb =>
    refine Backend.next_free hb (fun t ht => ?_) hm
    obtain ⟨-, henv | ⟨u, hu, hs⟩ | ⟨harb, -⟩⟩ := Backend.next_step hb
    · subst ht
      cases henv
    · rw [ht] at hu
      cases hu
      have hthread : backendThread be = some (helper st) := hth
      rw [tenant_thread hs] at hthread
      exact helper_tenant (Option.some.inj hthread).symm
    · rw [ht] at harb
      cases harb
  | _ => exact hm

section
variable {start : ULong} {pkt : Vector ULong pktWords} {tr : List Event} {s : Process}
  {st : Stage}

/-- A step of the helper before the launch is settled. -/
theorem helper_unseen (h : (lts start pkt).Run tr s) (hat : At s st)
    (hfree : s.sys.backend.gwin.mutex = false) (hhome : st ≠ .home) (hset : ¬ Settled st) :
    ∃ e sys st', (lts start pkt).Run (tr ++ [s.label e]) { s with sys } ∧
      (s.label e).call = none ∧ systemThread e = some (helper st) ∧
      Step s (s.label e) { s with sys } ∧ Stage.Step st e st' ∧ At { s with sys } st' ∧
      view { s with sys } = view s ∧ sys.backend.gwin.mutex = false := by
  have hclient := (GlobalWindow.buffer_refines (buffer_runs h)).1
  have hread : ∀ g, st ≠ .read g := by
    rintro g rfl
    exact hset trivial
  have henabled : (lts start pkt).Enabled Event.thread (helper st) s :=
    helper_enabled hat (backend_not_aborted h) hclient (fun g hg => absurd hg (hread g)) hfree hhome
  obtain ⟨e, s1, hth, hs1⟩ := henabled
  have hrun := h.snoc hs1
  have hs := step_of_lts hs1
  have hat' := step_at hat hs
  cases hs with
  | callback => cases hth
  | profile => cases hth
  | destroy => cases hth
  | @thread a e sys hd hn =>
    rw [Event.thread, label_system] at hth
    rw [label_system] at hat'
    obtain ⟨st', hst, hat'⟩ := hat'
    have hcall : (s.label e).call = none := by
      cases hst with
      | launch g => exact absurd rfl hhome
      | mark => exact absurd trivial hset
      | encode => exact absurd trivial hset
      | «return» => exact absurd trivial hset
      | _ => rfl
    exact ⟨e, sys, st', hrun, hcall, hth, .thread hd hn, hst, hat', view_unseen hn hcall,
      helper_free hn hth hfree⟩

/-- **The helpers settle an open launch** that is not lost, unseen by the application. -/
theorem settles (h : (lts start pkt).Run tr s) (hat : At s st) (hlive : s.destroyed = false)
    (hfree : s.sys.backend.gwin.mutex = false) (hopen : launchOf st ≠ .idle)
    (hlost : launchOf st ≠ .done false) :
    ∃ tr' s' st', (lts start pkt).Run (tr ++ tr') s' ∧ tr'.filterMap Event.call = [] ∧
      At s' st' ∧ view s' = view s ∧ launchOf st' = launchOf st ∧ Settled st' ∧
      s'.destroyed = false ∧ s'.sys.backend.gwin.mutex = false := by
  induction hr : (toLex (stagesLeft st, distance s.sys.backend st) : ℕ ×ₗ ℕ)
    using WellFoundedLT.induction generalizing tr s st with
  | ind r ih =>
    subst hr
    by_cases hset : Settled st
    · exact ⟨[], s, st, by simpa using h, rfl, hat, rfl, rfl, hset, hlive, hfree⟩
    · have hhome : st ≠ .home := by
        rintro rfl
        exact hopen rfl
      have hserving : ∀ g, st ≠ .serving g .lost := by
        rintro g rfl
        exact hlost rfl
      obtain ⟨e, sys, st1, hrun, hcall, hth, hs, hst, hat1, hview, hfree1⟩ :=
        helper_unseen h hat hfree hhome hset
      have hlaunch := launchOf_unseen hst hcall
      have hlt : (toLex (stagesLeft st1, distance sys.backend st1) : ℕ ×ₗ ℕ) <
          toLex (stagesLeft st, distance s.sys.backend st) := by
        rcases step_nearer hat hat1 hs (label_system s e) hst hhome hserving with
          rfl | hlt | ⟨rfl, hlt | ⟨-, hother⟩⟩
        · cases hcall
        · exact Prod.Lex.left _ _ hlt
        · exact Prod.Lex.right _ hlt
        · rw [Event.thread, label_system] at hother
          exact absurd hth hother
      obtain ⟨tr', s', st', hrun', hcalls, hat', hview', hlaunch', hrest⟩ :=
        ih _ hlt hrun hat1 hlive hfree1 (hlaunch ▸ hopen) (hlaunch ▸ hlost) rfl
      refine ⟨s.label e :: tr', s', st', ?_, ?_, hat', hview'.trans hview,
        hlaunch'.trans hlaunch, hrest⟩
      · rwa [List.append_cons]
      · rw [List.filterMap_cons_none hcall, hcalls]

/-- A state in which the calls can be carried on. -/
structure Carries (s : Process) (y : XrushCalls) : Prop where
  seen : Seen s y
  live : s.destroyed = false
  free : s.sys.backend.gwin.mutex = false

/-- A step of the application's thread or the predictor's from a settled launch. -/
theorem carry_thread (h : (lts start pkt).Run tr s) (hat : At s st) (hlive : s.destroyed = false)
    (hfree : s.sys.backend.gwin.mutex = false) {a : System.Action} {e : System.Event} {sys : System}
    (hn : s.sys.next a = some (e, sys)) (hback : sys.backend = s.sys.backend) :
    ∃ st', Stage.Step st e st' ∧ (lts start pkt).Run (tr ++ [s.label e]) { s with sys } ∧
      Carries { s with sys } ⟨view { s with sys }, launchOf st'⟩ := by
  have hs : s.next (.thread a) = some (s.label e, { s with sys }) := by simp [next, hlive, hn]
  have hat' := step_at hat (next_step hs)
  rw [label_system] at hat'
  obtain ⟨st', hst, hat'⟩ := hat'
  exact ⟨st', hst, h.snoc ⟨_, hs⟩, ⟨st', hat', rfl⟩, hlive, by rw [hback, hfree]⟩

/-- The predictor's turn with the grid of a launch is the effect of the call. -/
theorem turn_next {g : Grid} {now : Int} {e : Xrush.Event} {obj : Xrush}
    (hpc : s.sys.pc = .deciding g) (hnext : (view s).next (.launch g now) = some (e, obj))
    (ho : obj.overrun = false) :
    ∃ e' sys, s.sys.next (.predictor now fun _ => 0) = some (e', sys) ∧
      sys.backend = s.sys.backend ∧ view { s with sys } = obj ∧
      (e' = .marked g ∧ e = .marked g ∨ e' = .encoded g ∧ e = .requested g s.taken) := by
  have hlaunch : (view s).launch now g = some (e, obj) := by simpa [Xrush.next, view] using hnext
  unfold Xrush.launch at hlaunch
  split at hlaunch
  · rename_i pred hd
    have hd : s.sys.pred.decide now g = (.marker, pred) := hd
    cases hlaunch
    exact ⟨.marked g, { s.sys with pred, pc := .notifying },
      by simp [System.next, System.predictorNext, hpc, hd], rfl, rfl, .inl ⟨rfl, rfl⟩⟩
  · rename_i pred hd
    have hd : s.sys.pred.decide now g = (.request, pred) := hd
    split at hlaunch
    · rename_i r gwin hc
      have hc : s.sys.gwin.consume = .ret (r, gwin) := hc
      have htaken : s.taken = r := by rw [taken, hc]
      split at hlaunch
      · rename_i pkt' henc
        cases hlaunch
        exact ⟨.encoded g, { s.sys with
            gwin, pred := { pred with pkt := pkt' }, pc := .sending g (Predictor.pktSize r) },
          by simp [System.next, System.predictorNext, hpc, hd, hc, henc], rfl, rfl,
          .inr ⟨rfl, by rw [htaken]⟩⟩
      · cases hlaunch
        cases ho
    · cases hlaunch

/-- The effect of a call is carried out, after the steps that bring the predictor to its turn. -/
theorem carry_launch (h : (lts start pkt).Run tr s) (hat : At s st) (hlive : s.destroyed = false)
    (hfree : s.sys.backend.gwin.mutex = false) {g : Grid} {now : Int} {e : Xrush.Event}
    {obj : Xrush} (hl : launchOf st = .called g)
    (hnext : (view s).next (.launch g now) = some (e, obj)) (ho : obj.overrun = false) :
    ∃ tr' s', (lts start pkt).Run (tr ++ tr') s' ∧ tr'.filterMap Event.call = [.took e] ∧
      Carries s' ⟨obj, .done (XrushCalls.answered e)⟩ := by
  obtain ⟨tr1, s1, st1, hrun1, hcalls, hat1, hview, hlaunch, hset, hlive1, hfree1⟩ :=
    settles h hat hlive hfree (by simp [hl]) (by simp [hl])
  rw [hl] at hlaunch
  obtain rfl : st1 = .read g := by
    cases st1 with
    | read g1 => cases hlaunch; rfl
    | notified g1 asked => cases hlaunch
    | _ => cases hset
  rw [← hview] at hnext
  obtain ⟨e', sys, hn, hback, hobj, hturn⟩ := turn_next hat1.predictor hnext ho
  obtain ⟨st2, hst, hrun2, hc⟩ := carry_thread hrun1 hat1 hlive1 hfree1 hn hback
  rw [List.append_assoc] at hrun2
  rw [hobj] at hc
  rcases hturn with ⟨rfl, rfl⟩ | ⟨rfl, rfl⟩
  · cases hst
    exact ⟨_, _, hrun2, by rw [List.filterMap_append, hcalls]; rfl, hc⟩
  · cases hst
    exact ⟨_, _, hrun2, by rw [List.filterMap_append, hcalls]; rfl, hc⟩

/-- The return of a call is carried out, after the steps that answer it. -/
theorem carry_return (h : (lts start pkt).Run tr s) (hat : At s st) (hlive : s.destroyed = false)
    (hfree : s.sys.backend.gwin.mutex = false) (hl : launchOf st = .done true) :
    ∃ tr' s', (lts start pkt).Run (tr ++ tr') s' ∧ tr'.filterMap Event.call = [.returned] ∧
      Carries s' ⟨view s, .idle⟩ := by
  obtain ⟨tr1, s1, st1, hrun1, hcalls, hat1, hview, hlaunch, hset, hlive1, hfree1⟩ :=
    settles h hat hlive hfree (by simp [hl]) (by simp [hl])
  rw [hl] at hlaunch
  obtain ⟨g, asked, rfl⟩ : ∃ g asked, st1 = .notified g asked := by
    cases st1 with
    | read g1 => cases hlaunch
    | notified g1 asked => exact ⟨g1, asked, rfl⟩
    | _ => cases hset
  have hready : s1.sys.trig.ready2 = true := hat1.shows.sys.ready2
  have hn : s1.sys.next .app = some (.returned,
      { s1.sys with trig := { s1.sys.trig with ready2 := false }, app := .idle }) := by
    simp [System.next, System.appNext, hat1.shows.sys.app, Stage.app, Trigger.wait, hready]
  obtain ⟨st2, hst, hrun2, hc⟩ := carry_thread hrun1 hat1 hlive1 hfree1 hn rfl
  cases hst
  rw [List.append_assoc] at hrun2
  rw [← hview]
  exact ⟨_, _, hrun2, by rw [List.filterMap_append, hcalls]; rfl, hc⟩

/-- **One step of the calls** is carried out by steps of a process. -/
theorem carries {y y' : XrushCalls} {c : XrushCalls.Event} (h : (lts start pkt).Run tr s)
    (hy : Carries s y) (hs : XrushCalls.Step y c y') :
    ∃ tr' s', (lts start pkt).Run (tr ++ tr') s' ∧ tr'.filterMap Event.call = [c] ∧
      Carries s' y' := by
  obtain ⟨⟨st, hat, rfl⟩, hlive, hfree⟩ := hy
  generalize hl : launchOf st = l at hs
  cases hs with
  | @callback _ obj' _ buffer e hnext =>
    have hn : s.next (.callback buffer) =
        some (.callback buffer, { s with prof := s.prof.returnBuffer buffer }) := by
      simp [next, hlive]
    cases hnext
    exact ⟨_, _, h.snoc ⟨_, hn⟩, rfl, ⟨st, step_at hat (next_step hn), by rw [hl]; rfl⟩, hlive,
      hfree⟩
  | @profile _ obj' _ buffers e hnext =>
    have hprofile : (view s).profile buffers = some (e, obj') := by
      simpa [Xrush.next, view] using hnext
    unfold Xrush.profile at hprofile
    split at hprofile
    · rename_i prof out hr
      split at hprofile
      · rename_i gwin hp
        cases hprofile
        have hn : s.next (.profile buffers) = some (.profiled buffers out, { s with
            prof, win := out.window.foldl Window.exec s.win, sys := { s.sys with gwin } }) := by
          simp only [next, hlive, profile, show s.prof.read buffers = _ from hr,
            show s.sys.gwin.produce out.produced = _ from hp]
          rfl
        exact ⟨_, _, h.snoc ⟨_, hn⟩, rfl, ⟨st, step_at hat (next_step hn), by rw [hl]; rfl⟩, hlive,
          hfree⟩
      · cases hprofile
    · cases hprofile
  | call g =>
    obtain rfl : st = .home := by
      cases st with
      | home => rfl
      | serving g hop => cases hop <;> cases hl
      | _ => cases hl
    have hn : s.sys.next (.launch g) = some (.launched g,
        { s.sys with trig := s.sys.trig.writeData g, app := .notifying }) := by
      simp [System.next, hat.shows.sys.app, Stage.app]
    obtain ⟨st', hst, hrun, hc⟩ := carry_thread h hat hlive hfree hn rfl
    cases hst
    exact ⟨_, _, hrun, rfl, hc⟩
  | launch hnext ho => exact carry_launch h hat hlive hfree hl hnext ho
  | «return» => exact carry_return h hat hlive hfree hl

end

/-- **The process is its atomic calls.** With all threads of the client and the backend, from
lowered flags and in every interleaving, the application sees exactly the traces of callbacks,
reads and launches that each take effect in one step: whatever happens between the call of `launch`
and its return, it is one turn with the grid of that call, and every such sequence does happen. -/
theorem traces_iff (start : ULong) (pkt : Vector ULong pktWords) (calls : List XrushCalls.Event) :
    (∃ tr s, (lts start pkt).Run tr s ∧ tr.filterMap Event.call = calls) ↔
      ∃ y, (XrushCalls.lts start pkt).Run calls y := by
  constructor
  · rintro ⟨tr, s, h, rfl⟩
    have hrun : ∃ y, (XrushCalls.lts start pkt).Run (tr.filterMap Event.call) y ∧ Seen s y := by
      refine h.simulate ?_ ?_
      · intro s hinit
        exact ⟨_, rfl, .home, hinit ▸ create_at start pkt, hinit ▸ rfl⟩
      · intro s y e s' hseen hs
        have hstep := step_seen hseen (step_of_lts hs)
        split at hstep
        · rename_i heq
          rw [heq]
          exact hstep
        · rename_i heq
          rw [heq]
          exact hstep
    obtain ⟨y, hrun, -⟩ := hrun
    exact ⟨y, hrun⟩
  · rintro ⟨y, h⟩
    obtain ⟨tr, s, hrun, hcalls, -⟩ := h.realize (M := lts start pkt) (p := Event.call)
      (R := Carries)
      (fun y hy => ⟨create start pkt, rfl, ⟨.home, create_at .., hy⟩, rfl, rfl⟩)
      (fun tr s y c y' hrun hc hs => carries hrun hc hs)
    exact ⟨tr, s, hrun, hcalls⟩

end Propreact.Process
