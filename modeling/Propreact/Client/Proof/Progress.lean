import Mathlib.Data.Prod.Lex
import Mathlib.Dynamics.PeriodicPts.Defs
import Propreact.Client.Proof.Pipeline
import Propreact.Client.Proof.Stages
import Propreact.Lib.Fair

/-!
# Launches return

In a fair execution a launch returns exactly if it is due when it is called (`launch_returns_iff`):
at each stage of a launch that is due the helper can move (`helper_enabled`), and the steps of the
other threads do not take it further from ending the stage.
-/

namespace Propreact.Process

open Propreact.System (Stage Hop)

section
variable {start : ULong} {pkt : Vector ULong pktWords} {tr : List Event} {s : Process}
  {st : Stage}

theorem untaken_mem (tr : List Event) : untaken tr = [] ∨ untaken tr ∈ published tr := by
  induction tr using List.reverseRecOn with
  | nil => exact .inl rfl
  | append_singleton tr e ih =>
    rw [untaken, List.foldl_concat, ← untaken, published, Sequences.filterMap_concat, ← published]
    cases e with
    | profiled buffers out => exact .inr (by simp)
    | requested g active idle r => exact .inl rfl
    | _ => simpa using ih

/-- If every batch fits in a packet, the next request does. -/
theorem mail_fits (h : (lts start pkt).Run tr s)
    (hfit : ∀ r ∈ published tr, 2 + 3 * r.length ≤ pktWords) :
    s.sys.gwin.mutex = false ∧ 2 + 3 * s.sys.gwin.mail.length ≤ pktWords := by
  obtain ⟨hmutex, hslot⟩ := GlobalWindow.buffer_refines (buffer_runs h)
  have hmail : s.sys.gwin.mail = untaken tr := by
    rw [untaken_eq, ← Mailbox.slot_eq hslot, GlobalWindow.mail_eq_slot]
  refine ⟨hmutex, ?_⟩
  rw [hmail]
  rcases untaken_mem tr with hnil | hmem
  · rw [hnil]
    decide
  · exact hfit _ hmem

/-! ## The helper can move -/

theorem enabled_of_next {a : System.Action} {e : System.Event} {sys : System} {th : Thread}
    (hn : s.sys.next a = some (e, sys)) (ha : isLaunch a = false) (he : systemThread e = some th) :
    (lts start pkt).Enabled Event.thread th s := by
  refine ⟨s.label e, { s with sys }, ?_, .thread a, ?_⟩
  · rw [Event.thread, label_system]
    exact he
  · simp [next, ha, hn]

theorem predictor_enabled (hn : (s.sys.predictorNext 0 fun _ => 0).isSome = true) :
    (lts start pkt).Enabled Event.thread .predictor s := by
  obtain ⟨⟨e, sys⟩, hn⟩ := Option.isSome_iff_exists.1 hn
  refine enabled_of_next (a := .predictor 0 fun _ => 0) hn rfl ?_
  cases System.predictorNext_step hn <;> rfl

theorem backend_enabled {a : Backend.Action} {e : Backend.Event} {b : Backend} {th : Thread}
    (hn : s.sys.backend.next a = some (e, b)) (ha : System.ownAction a = true)
    (he : backendThread e = some th) : (lts start pkt).Enabled Event.thread th s := by
  have hsys : s.sys.next (.backend a) = some (.backend e, { s.sys with backend := b }) := by
    simp [System.next, ha, hn]
  exact enabled_of_next hsys rfl he

theorem app_enabled (hn : s.sys.appNext.isSome = true) :
    (lts start pkt).Enabled Event.thread .app s := by
  obtain ⟨⟨e, sys⟩, hn⟩ := Option.isSome_iff_exists.1 hn
  refine enabled_of_next (a := .app) hn rfl ?_
  cases System.next_step (a := .app) hn <;> rfl

theorem tenant_enabled (hab : s.sys.backend.aborted = false)
    (hrecv : (s.sys.backend.tenants 0).pc = .receiving → (s.sys.backend.tenants 0).requests ≠ [])
    (hwait : (s.sys.backend.tenants 0).pc = .waiting → s.sys.backend.pool.tenantReady 0 = true) :
    (lts start pkt).Enabled Event.thread (.tenant 0) s := by
  obtain ⟨e, b, hn⟩ := Backend.tenant_enabled hab (fun h0 => absurd rfl h0) hrecv hwait
  refine backend_enabled hn rfl ?_
  obtain ⟨-, henv | ⟨t, ht, hs⟩ | ⟨harb, -⟩⟩ := Backend.next_step hn
  · cases henv
  · cases ht
    exact tenant_thread hs
  · cases harb

theorem arbiter_enabled (hab : s.sys.backend.aborted = false)
    (hm : s.sys.backend.gwin.mutex = false) :
    (lts start pkt).Enabled Event.thread .arbiter s := by
  obtain ⟨e, b, hn⟩ := Backend.arbiter_enabled hab hm
  refine backend_enabled hn rfl ?_
  obtain ⟨-, henv | ⟨t, ht, -⟩ | ⟨-, hs⟩⟩ := Backend.next_step hn
  · cases henv
  · cases ht
  · exact arbiter_thread hs

theorem deciding_enabled {g : Grid} (hpc : s.sys.pc = .deciding g) (hm : s.sys.gwin.mutex = false)
    (hfit : 2 + 3 * s.sys.gwin.mail.length ≤ pktWords) :
    (lts start pkt).Enabled Event.thread .predictor s := by
  refine predictor_enabled ?_
  cases hd : s.sys.pred.decide 0 g with
  | mk d pred =>
    cases d with
    | marker => simp [System.predictorNext, hpc, hd]
    | request =>
      have hsome : ∃ pkt', Predictor.encode pred.pkt g s.sys.gwin.mail = some pkt' :=
        Predictor.encode_isSome_iff.2 hfit
      obtain ⟨pkt', henc⟩ := hsome
      simp [System.predictorNext, hpc, hd, GlobalWindow.consume_eq hm, henc]

/-- **The helper can move**, as long as the mutexes are free and the records fit in a request that
is about to be made. -/
theorem helper_enabled (hat : At s st) (hab : s.sys.backend.aborted = false)
    (hclient : s.sys.gwin.mutex = false)
    (hfit : ∀ g, st = .read g → 2 + 3 * s.sys.gwin.mail.length ≤ pktWords)
    (hbackend : s.sys.backend.gwin.mutex = false) (hhome : st ≠ .home) :
    (lts start pkt).Enabled Event.thread (helper st) s := by
  have happ := hat.shows.sys.app
  have hr1 := hat.shows.sys.ready1
  have hr2 := hat.shows.sys.ready2
  have hpc := hat.predictor
  cases st with
  | home => exact absurd rfl hhome
  | written g =>
    exact app_enabled (by simp [System.appNext, happ, Stage.app, Trigger.notify])
  | notified g asked =>
    exact app_enabled (by simp_all [System.appNext, Stage.app, Stage.ready2, Trigger.wait])
  | posted g =>
    refine predictor_enabled ?_
    simp_all [System.predictorNext, PredictorOf, Stage.ready1, Trigger.wait]
  | woken g =>
    refine predictor_enabled ?_
    simp_all [System.predictorNext, PredictorOf]
  | read g => exact deciding_enabled hpc hclient (hfit g rfl)
  | sending g =>
    obtain ⟨size, hpc⟩ := hpc
    refine predictor_enabled ?_
    simp [System.predictorNext, hpc, Backend.next, hab]
  | notifying g asked =>
    refine predictor_enabled ?_
    simp_all [System.predictorNext, PredictorOf, Trigger.notify]
  | serving g hop =>
    have hserves := hat.shows.sys.serves
    have hphase : (s.sys.backend.tenants 0).pc.phase = (Stage.serving g hop).token.view.phase :=
      congrArg Backend.View.phase hserves.view
    have hready : s.sys.backend.pool.tenantReady 0 = (Stage.serving g hop).token.view.ready :=
      congrArg Backend.View.ready hserves.view
    cases hop with
    | asked => exact arbiter_enabled hab hbackend
    | lost => exact arbiter_enabled hab hbackend
    | held => exact arbiter_enabled hab hbackend
    | queued =>
      refine tenant_enabled hab (fun _ hnil => ?_) fun hw => ?_
      · have hreq := hserves.requests
        rw [hnil] at hreq
        cases hreq
      · rw [hw] at hphase
        cases hphase
    | received =>
      obtain ⟨m, hm⟩ := hat.received g rfl
      exact tenant_enabled hab (by simp [hm]) (by simp [hm])
    | granted =>
      refine tenant_enabled hab (fun hr => ?_) fun _ => hready
      rw [hr] at hphase
      cases hphase
    | answering =>
      refine tenant_enabled hab (fun hr => ?_) fun hw => ?_
      · rw [hr] at hphase
        cases hphase
      · rw [hw] at hphase
        cases hphase
    | responded =>
      have hresp := hserves.responses
      obtain ⟨resp, hresp⟩ := List.length_eq_one_iff.1 hresp
      refine predictor_enabled ?_
      simp_all [System.predictorNext, PredictorOf, Backend.next]

end

/-! ## Along an execution -/

/-- A step that is none of the system's. -/
theorem step_quiet {s s' : Process} {e : Event} (hs : Step s e s') (he : e.system = none) :
    s'.sys.pred = s.sys.pred ∧ s'.sys.backend = s.sys.backend := by
  cases hs with
  | thread hd hn =>
    rw [label_system] at he
    cases he
  | _ => exact ⟨rfl, rfl⟩

section
variable {start : ULong} {pkt : Vector ULong pktWords}

/-- The stages of the launches along an execution. -/
structure Stages (x : (lts start pkt).Exec) (y : Nat → Stage) : Prop where
  shown : ∀ i, At (x.state i) (y i)
  step : ∀ i e, (x.label i).bind Event.system = some e → Stage.Step (y i) e (y (i + 1))
  quiet : ∀ i, (x.label i).bind Event.system = none → y (i + 1) = y i

theorem exists_stages (x : (lts start pkt).Exec) : ∃ y, Stages x y := by
  obtain ⟨y, -, hy⟩ := x.simulate (N := Stage.protocol) (p := Event.system) (R := At)
    (fun s hs => ⟨.home, rfl, by rw [show s = create start pkt from hs]; exact create_at start pkt⟩)
    (fun s st e s' hat hs => by
      have hstep := step_at hat (step_of_lts hs)
      split at hstep <;> rename_i heq <;> rw [heq] <;> exact hstep)
  refine ⟨y, fun i => (hy i).1, fun i e he => ?_, fun i he => ?_⟩
  · have hstep := (hy i).2
    rw [he] at hstep
    exact hstep
  · have hstep := (hy i).2
    rw [he] at hstep
    exact hstep

variable {x : (lts start pkt).Exec} {y : Nat → Stage} {i : Nat}

/-- A point of an execution at which the system does not move. -/
theorem Stages.rest (h : Stages x y) (hl : (x.label i).bind Event.system = none) :
    y (i + 1) = y i ∧ (x.state (i + 1)).sys.pred = (x.state i).sys.pred ∧
      (x.state (i + 1)).sys.backend = (x.state i).sys.backend ∧
      ∀ th, ¬ x.Moves Event.thread th i := by
  refine ⟨h.quiet i hl, ?_⟩
  cases hi : x.label i with
  | none =>
    rw [x.pause i hi]
    refine ⟨rfl, rfl, fun th hm => ?_⟩
    obtain ⟨e, he, -⟩ := hm
    rw [hi] at he
    cases he
  | some e =>
    rw [hi, Option.bind_some] at hl
    obtain ⟨hpred, hback⟩ := step_quiet (step_of_lts (x.step i e hi)) hl
    refine ⟨hpred, hback, fun th hm => ?_⟩
    obtain ⟨e', he', hth⟩ := hm
    rw [hi] at he'
    cases he'
    rw [Event.thread, hl] at hth
    cases hth

theorem Stages.moved (h : Stages x y) {e' : System.Event}
    (hl : (x.label i).bind Event.system = some e') :
    ∃ e, x.label i = some e ∧ e.system = some e' ∧ Step (x.state i) e (x.state (i + 1)) ∧
      Stage.Step (y i) e' (y (i + 1)) := by
  obtain ⟨e, he, hsys⟩ := Option.bind_eq_some_iff.1 hl
  exact ⟨e, he, hsys, step_of_lts (x.step i e he), h.step i e' hl⟩

theorem returned_iff : (x.label i).bind Event.system = some .returned ↔
    x.label i = some (.moved .returned) := by
  rw [Option.bind_eq_some_iff]
  refine ⟨fun h => ?_, fun h => ⟨_, h, rfl⟩⟩
  obtain ⟨e, he, hsys⟩ := h
  cases e <;> cases hsys
  exact he

/-- Until a launch returns it stays open, and as due as it was. -/
theorem Stages.due (h : Stages x y) (hhome : y i ≠ .home)
    (hret : x.label i ≠ some (.moved .returned)) :
    y (i + 1) ≠ .home ∧ (Due (x.state (i + 1)) (y (i + 1)) ↔ Due (x.state i) (y i)) := by
  cases hl : (x.label i).bind Event.system with
  | none =>
    obtain ⟨hy, hpred, -, -⟩ := h.rest hl
    rw [hy]
    refine ⟨hhome, ?_⟩
    cases y i <;> simp only [Due, hpred]
  | some e' =>
    have hret' : e' ≠ .returned := by
      rintro rfl
      exact hret (returned_iff.1 hl)
    obtain ⟨e, -, hsys, hs, hst⟩ := h.moved hl
    refine ⟨?_, due_step hs hsys hst hhome hret'⟩
    intro hnew
    rw [hnew] at hst
    generalize y i = st at hst hhome
    cases hst with
    | «return» => exact hret' rfl
    | other => exact hhome rfl

/-- How far an open launch is from its return. -/
def rank (x : (lts start pkt).Exec) (y : Nat → Stage) (i : Nat) : ℕ ×ₗ ℕ :=
  toLex (stagesLeft (y i), distance (x.state i).sys.backend (y i))

/-- No step takes an open launch that is due further from its return. -/
theorem Stages.nearer (h : Stages x y) (hhome : y i ≠ .home) (hdue : Due (x.state i) (y i))
    (hret : x.label i ≠ some (.moved .returned)) :
    rank x y (i + 1) < rank x y i ∨
      rank x y (i + 1) = rank x y i ∧ helper (y (i + 1)) = helper (y i) ∧
        ¬ x.Moves Event.thread (helper (y i)) i := by
  cases hl : (x.label i).bind Event.system with
  | none =>
    obtain ⟨hy, -, hback, hquiet⟩ := h.rest hl
    exact .inr ⟨by rw [rank, rank, hy, hback], by rw [hy], hquiet _⟩
  | some e' =>
    obtain ⟨e, he, hsys, hs, hst⟩ := h.moved hl
    have hlost : ∀ g, y i ≠ .serving g .lost := by
      intro g hg
      rw [hg] at hdue
      exact hdue
    rcases step_nearer (h.shown i) (h.shown (i + 1)) hs hsys hst hhome hlost with
      rfl | hlt | ⟨hsame, hlt | ⟨heq, hth⟩⟩
    · exact absurd (returned_iff.1 hl) hret
    · exact .inl (Prod.Lex.left _ _ hlt)
    · left
      rw [rank, rank, hsame]
      exact Prod.Lex.right _ hlt
    · refine .inr ⟨by rw [rank, rank, hsame, heq], by rw [hsame], fun hm => ?_⟩
      obtain ⟨e1, he1, hth1⟩ := hm
      rw [he] at he1
      cases he1
      exact hth hth1

/-- A launch that returns is due. -/
theorem Stages.due_of_returned (h : Stages x y) (hret : x.label i = some (.moved .returned)) :
    y i ≠ .home ∧ Due (x.state i) (y i) := by
  have hst := h.step i _ (returned_iff.2 hret)
  generalize y (i + 1) = st' at hst
  generalize y i = st at hst ⊢
  cases hst with
  | «return» => exact ⟨by simp, trivial⟩

/-- An open launch that is not due never returns. -/
theorem Stages.stuck (h : Stages x y) (hhome : y i ≠ .home) (hdue : ¬ Due (x.state i) (y i))
    (k : Nat) : y (i + k) ≠ .home ∧ ¬ Due (x.state (i + k)) (y (i + k)) := by
  induction k with
  | zero => exact ⟨hhome, hdue⟩
  | succ k ih =>
    have hret : x.label (i + k) ≠ some (.moved .returned) := fun hr =>
      ih.2 (h.due_of_returned hr).2
    obtain ⟨hhome', hiff⟩ := h.due ih.1 hret
    exact ⟨hhome', fun hd => ih.2 (hiff.1 hd)⟩

/-- A launch is open after its call, and due if its key is. -/
theorem Stages.launched (h : Stages x y) {g : Grid}
    (hl : x.label i = some (.moved (.launched g))) :
    y (i + 1) ≠ .home ∧ (Due (x.state (i + 1)) (y (i + 1)) ↔
      g.x ≠ 0 ∨ g.y = 0 ∧ (x.state i).sys.pred.lib = false) := by
  have hbind : (x.label i).bind Event.system = some (.launched g) := by rw [hl]; rfl
  obtain ⟨e, -, hsys, hs, hst⟩ := h.moved hbind
  have hpred : (x.state (i + 1)).sys.pred = (x.state i).sys.pred := by
    generalize x.state (i + 1) = s' at hs
    cases hs with
    | thread hd hn =>
      rw [label_system] at hsys
      cases hsys
      exact system_lib hn (by simp) (by simp)
    | _ => cases hsys
  have hwritten : y (i + 1) = .written g := by
    generalize y (i + 1) = st' at hst
    generalize y i = st at hst
    cases hst
    rfl
  rw [hwritten, Due, hpred]
  exact ⟨by simp, Iff.rfl⟩

/-- **Launches return.** In every execution from lowered flags that is fair to the threads of the
client and to the backend's threads for it, in which `update_active` leaves no mutex locked in the
backend and every batch published fits in a packet: a call of `launch` returns if and only if its
`grid.x` is not 0, or it is a start marker that comes while `m_lib` is not set. Otherwise it waits
forever. -/
theorem launch_returns_iff (hfair : ∀ th, th ≠ .tenant 1 → x.Fair Event.thread th)
    (hfree : ∀ i, (x.state i).sys.backend.gwin.mutex = false)
    (hfit : ∀ i buffers out, x.label i = some (.profiled buffers out) →
      2 + 3 * out.produced.length ≤ pktWords)
    {g : Grid} (hl : x.label i = some (.moved (.launched g))) :
    (∃ j, i < j ∧ x.label j = some (.moved .returned)) ↔
      g.x ≠ 0 ∨ g.y = 0 ∧ (x.state i).sys.pred.lib = false := by
  obtain ⟨y, h⟩ := exists_stages x
  obtain ⟨hopen, hiff⟩ := h.launched hl
  rw [← hiff]
  refine ⟨fun hret => ?_, fun hdue => ?_⟩
  · obtain ⟨j, hj, hret⟩ := hret
    obtain ⟨k, rfl⟩ := Nat.exists_eq_add_of_le (Nat.succ_le_of_lt hj)
    by_contra hdue
    exact (h.stuck hopen hdue k).2 (h.due_of_returned hret).2
  · have hfits (k : Nat) : ∀ r ∈ published (x.trace k), 2 + 3 * r.length ≤ pktWords := by
      intro r hr
      obtain ⟨e, he, hr⟩ := List.mem_filterMap.1 hr
      cases e <;> cases hr
      obtain ⟨j, hj⟩ := x.label_of_mem_trace he
      exact hfit j _ _ hj
    have hhelp (k : Nat) (_ : y k ≠ .home ∧ Due (x.state k) (y k)) :
        x.Fair Event.thread (helper (y k)) := by
      refine hfair _ fun hone => ?_
      generalize y k = st at hone
      cases st with
      | serving g hop => cases hop <;> cases hone
      | _ => cases hone
    have henabled (k : Nat) (hk : y k ≠ .home ∧ Due (x.state k) (y k)) :
        (lts start pkt).Enabled Event.thread (helper (y k)) (x.state k) := by
      obtain ⟨hclient, hmail⟩ := mail_fits (x.run k) (hfits k)
      exact helper_enabled (h.shown k) (backend_not_aborted (x.run k)) hclient (fun _ _ => hmail)
        (hfree k) hk.1
    obtain ⟨j, hj, k, rfl, hret⟩ := x.leadsTo
      (Q := fun j => ∃ k, j = k + 1 ∧ x.label k = some (.moved .returned))
      (rank x y) (fun k => helper (y k)) hhelp henabled
      (fun k hk => by
        by_cases hret : x.label k = some (.moved .returned)
        · exact .inl ⟨k, rfl, hret⟩
        · obtain ⟨hhome', hdue'⟩ := h.due hk.1 hret
          exact .inr ⟨⟨hhome', hdue'.2 hk.2⟩, h.nearer hk.1 hk.2 hret⟩)
      ⟨hopen, hdue⟩
    exact ⟨k, by omega, hret⟩

end

/-! ## A launch that returns -/

/-- Between launches, with no message for the client's thread, only the Arbiter can move. -/
theorem not_enabled {start : ULong} {pkt : Vector ULong pktWords} {s : Process} {th : Thread}
    (happ : s.sys.app = .idle) (hpc : s.sys.pc = .waiting) (htrig : s.sys.trig.ready1 = false)
    (htpc : (s.sys.backend.tenants 0).pc = .receiving)
    (hreq : (s.sys.backend.tenants 0).requests = []) (harb : th ≠ .arbiter)
    (hone : th ≠ .tenant 1) :
    ¬ (lts start pkt).Enabled Event.thread th s := by
  intro henabled
  obtain ⟨e, s', hth, hs⟩ := henabled
  cases step_of_lts hs with
  | callback buffer hd => cases hth
  | profile hd hr hp => cases hth
  | destroy hd happ => cases hth
  | @thread a e sys hd hn =>
    rw [Event.thread, label_system, Option.bind_some] at hth
    cases System.next_step hn with
    | launch g _ => cases hth
    | notify h _ => rw [happ] at h; cases h
    | «return» h _ => rw [happ] at h; cases h
    | predictor hs =>
      cases hs with
      | wake _ hw => rw [(System.wait_one hw).1] at htrig; cases htrig
      | read h => rw [hpc] at h; cases h
      | mark h => rw [hpc] at h; cases h
      | encode h => rw [hpc] at h; cases h
      | send h => rw [hpc] at h; cases h
      | answer h => rw [hpc] at h; cases h
      | notify h => rw [hpc] at h; cases h
    | @backend a be b ho hb =>
      have hthread : backendThread be = some th := hth
      obtain ⟨-, henv | ⟨t, rfl, ht⟩ | ⟨rfl, harb'⟩⟩ := Backend.next_step hb
      · cases henv <;> cases hthread
      · rw [tenant_thread ht] at hthread
        cases hthread
        have hzero : ∀ t : TenantId, t ≠ 1 → t = 0 := by decide
        obtain rfl := hzero t fun h1 => hone (congrArg _ h1)
        cases ht with
        | receive _ h => rw [hreq] at h; cases h
        | update h => rw [htpc] at h; cases h
        | fail h => rw [htpc] at h; cases h
        | record h => rw [htpc] at h; cases h
        | recordsDone h => rw [htpc] at h; cases h
        | wait h => rw [htpc] at h; cases h
        | respond h => rw [htpc] at h; cases h
      · rw [arbiter_thread harb'] at hthread
        exact harb (Option.some.inj hthread).symm

/-- A launch from its call to its return. -/
def oneLaunch : List System.Action :=
  [.launch ⟨7, 1, 1⟩, .app] ++ List.replicate 4 (.predictor 0 fun _ => 0) ++
  List.replicate 3 (.backend (.tenant 0)) ++ List.replicate 7 (.backend .arbiter) ++
  List.replicate 2 (.backend (.tenant 0)) ++ List.replicate 2 (.predictor 0 fun _ => 0) ++ [.app]

/-- The launch, and then passes of the Arbiter forever. -/
def servedForever : (lts 0 (Vector.replicate pktWords 0)).Exec :=
  .ofActions next (create 0 (Vector.replicate pktWords 0))
    fun i => .thread ((oneLaunch[i]?).getD (.backend .arbiter))

theorem servedForever_mod (k : Nat) :
    servedForever.state (21 + k) = servedForever.state (21 + k % 5) := by
  have hact (i : Nat) (hi : 21 ≤ i) :
      Action.thread ((oneLaunch[i]?).getD (.backend .arbiter)) = .thread (.backend .arbiter) := by
    rw [List.getElem?_eq_none (show oneLaunch.length ≤ i from hi)]
    rfl
  have hadd (k : Nat) : servedForever.state (21 + k) = _ := Lts.Exec.statesOf_add hact k
  have hpass : Function.IsPeriodicPt _ 5 (servedForever.state 21) :=
    (hadd 5).symm.trans (show servedForever.state 26 = servedForever.state 21 from rfl)
  calc servedForever.state (21 + k)
      = _ := hadd k
    _ = _ := (hpass.iterate_mod_apply k).symm
    _ = servedForever.state (21 + k % 5) := (hadd (k % 5)).symm

theorem servedForever_free (i : Nat) :
    (servedForever.state i).sys.backend.gwin.mutex = false := by
  have hfirst : ∀ i < 26, (servedForever.state i).sys.backend.gwin.mutex = false := by
    decide +kernel
  by_cases hi : i < 26
  · exact hfirst i hi
  · obtain ⟨k, rfl⟩ := Nat.exists_eq_add_of_le (show 21 ≤ i by omega)
    rw [servedForever_mod]
    exact hfirst _ (by omega)

/-- After the launch, at the start of a pass, only the Arbiter can move. -/
theorem servedForever_fair (th : Thread) (hth : th ≠ .tenant 1) :
    servedForever.Fair Event.thread th := by
  intro i
  refine ⟨21 + 5 * i, by omega, ?_⟩
  have hstate : servedForever.state (21 + 5 * i) = servedForever.state 21 := by
    rw [servedForever_mod, Nat.mul_mod_right]
  by_cases harb : th = .arbiter
  · have hact : oneLaunch[21 + 5 * i]? = none :=
      List.getElem?_eq_none (show 21 ≤ 21 + 5 * i by omega)
    have hlabel : servedForever.label (21 + 5 * i) =
        (next (servedForever.state (21 + 5 * i))
          (.thread ((oneLaunch[21 + 5 * i]?).getD (.backend .arbiter)))).map Prod.fst := rfl
    rw [hstate, hact] at hlabel
    exact .inl ⟨_, hlabel, by rw [harb]; rfl⟩
  · right
    rw [hstate]
    exact not_enabled rfl rfl rfl rfl rfl harb hth

/-- No read in it. -/
theorem servedForever_moved (i : Nat) (buffers : List (List Activity)) (out : Published) :
    servedForever.label i ≠ some (.profiled buffers out) := by
  intro hl
  obtain ⟨⟨e, s'⟩, hn, rfl⟩ := Option.map_eq_some_iff.1 hl
  simp only [next] at hn
  split at hn
  · cases hn
  · split at hn
    · rename_i e' sys _
      have hsys := label_system (servedForever.state i) e'
      rw [show (servedForever.state i).label e' = .profiled buffers out from
        congrArg Prod.fst (Option.some.inj hn)] at hsys
      cases hsys
    · cases hn

theorem served_launch_returns : ∃ j, 0 < j ∧ servedForever.label j = some (.moved .returned) :=
  (launch_returns_iff servedForever_fair servedForever_free
    (fun i buffers out hl => absurd hl (servedForever_moved i buffers out)) (g := ⟨7, 1, 1⟩) rfl).2
    (.inl (by decide))

end Propreact.Process
