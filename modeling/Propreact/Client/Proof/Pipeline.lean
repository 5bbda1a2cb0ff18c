import Propreact.Backend.Proof.Fifo
import Propreact.Backend.Proof.Progress
import Propreact.Client.Proof.Process
import Propreact.Client.Proof.RoundTrip
import Propreact.Window.Proof.Mailbox

/-!
# Records on their way to the backend

A run of the process is a run of the client's record buffer (`buffer_runs`) and a run of the
backend (`backend_runs`). A request's calls are asked for when it is encoded, stay in flight, and
are made by the backend's thread: `Conserved` is kept by every step (`next_conserved`), so along a
schedule it holds of the calls of `madeAlong` (`conserved`), and every record that a request takes
reaches the tenant's tables exactly once (`records_arrive`).
-/

namespace Propreact.Process

open GlobalWindow (dummy idleCalls)

/-- What a step does to the record buffer. -/
def Event.mail : Event → Option (Mailbox.Event RecordVec)
  | .profiled _ out => some (.put out.produced)
  | .requested _ _ _ r => some (.take r)
  | _ => none

/-- The calls of the requests made, oldest first. -/
def requestedCalls (tr : List Event) : List Backend.Call :=
  tr.flatMap fun
    | .requested g _ _ r => Predictor.requestCalls 0 g r
    | _ => []

section
variable {start : ULong} {pkt : Vector ULong pktWords} {tr : List Event} {s s' : Process}
  {e : Event}

/-! ## Parts of a run -/

/-- A step of the threads takes the records for a request, or leaves the record buffer. -/
theorem system_gwin {sys sys' : System} {a : System.Action} {e : System.Event}
    (h : sys.next a = some (e, sys')) :
    (∃ g r, e = .encoded g ∧ sys.gwin.consume = .ret (r, sys'.gwin)) ∨
      (∀ g, e ≠ .encoded g) ∧ sys'.gwin = sys.gwin := by
  cases System.next_step h with
  | @predictor now beyond e s' hs =>
    cases hs with
    | @encode g now pred r gwin pkt hpc hd hc he => exact .inl ⟨g, r, rfl, hc⟩
    | _ => exact .inr ⟨by simp, rfl⟩
  | _ => exact .inr ⟨by simp, rfl⟩

/-- **The record buffer's run.** -/
theorem buffer_runs (h : (lts start pkt).Run tr s) :
    GlobalWindow.buffer.Run (tr.filterMap Event.mail) s.sys.gwin := by
  obtain ⟨gw, hrun, hgw⟩ := h.simulate (N := GlobalWindow.buffer) (p := Event.mail)
    (R := fun s gw => s.sys.gwin = gw)
    (by
      intro s hs
      exact ⟨_, rfl, by rw [show s = create start pkt from hs]; rfl⟩)
    (by
      intro s gw e s' hgw hs
      subst hgw
      cases step_of_lts hs with
      | callback buffer hd => rfl
      | profile hd hr hp => exact ⟨_, hp, rfl⟩
      | destroy hd happ => rfl
      | @thread a e sys hd hn =>
        rcases system_gwin hn with ⟨g, r, rfl, hc⟩ | ⟨hne, hsame⟩
        · have htaken : s.taken = r := by rw [taken, hc]
          simp only [label, Event.mail, htaken]
          exact ⟨_, hc, rfl⟩
        · have hmail : (s.label e).mail = none := by
            unfold label
            split
            · exact absurd rfl (hne _)
            · rfl
          rw [hmail]
          exact hsame)
  rwa [hgw]

/-- What a step of the threads does to the backend. -/
theorem system_backend {sys sys' : System} {a : System.Action} {e : System.Event}
    (h : sys.next a = some (e, sys')) :
    sys'.backend = sys.backend ∨ ∃ b be, sys.backend.next b = some (be, sys'.backend) := by
  cases System.next_step h with
  | @predictor now beyond e s' hs =>
    cases hs with
    | send hpc hq => exact .inr ⟨_, _, hq⟩
    | answer hpc ht => exact .inr ⟨_, _, ht⟩
    | _ => exact .inl rfl
  | backend ho hb => exact .inr ⟨_, _, hb⟩
  | _ => exact .inl rfl

/-- **The backend's run.** -/
theorem backend_runs (h : (lts start pkt).Run tr s) :
    ∃ btr, (Backend.lts Backend.noneReady).Run btr s.sys.backend := by
  refine h.inv (I := fun s => ∃ btr, (Backend.lts Backend.noneReady).Run btr s.sys.backend) ?_ ?_
  · intro s hs
    rw [show s = create start pkt from hs]
    exact ⟨[], .nil rfl⟩
  · intro s e s' hrun hs
    obtain ⟨btr, hrun⟩ := hrun
    cases step_of_lts hs with
    | @thread a e sys hd hn =>
      rcases system_backend hn with hsame | ⟨b, be, hb⟩
      · exact ⟨btr, hsame ▸ hrun⟩
      · exact ⟨_, hrun.snoc ⟨b, hb⟩⟩
    | _ => exact ⟨btr, hrun⟩

theorem backend_not_aborted (h : (lts start pkt).Run tr s) : s.sys.backend.aborted = false := by
  obtain ⟨btr, hrun⟩ := backend_runs h
  exact Backend.not_aborted hrun

end

/-! ## Calls asked for and calls made -/

/-- The predictor's buffer holds the request it is about to send. -/
def Sends (s : System) : Prop :=
  ∀ g size, s.pc = .sending g size →
    ∃ pkt r, Predictor.encode pkt g r = some s.pred.pkt ∧ size = Predictor.pktSize r

/-- The calls asked for are those made, which the tables have taken in, and those in flight. -/
structure Conserved (asked made : List Backend.Call) (s : System) : Prop where
  sends : Sends s
  calls : asked = made ++ inFlight s
  tables : Backend.TakesIn 0 .new (Backend.windowOps made) s.backend.gwin

section
variable {asked made : List Backend.Call} {s s' : System}

theorem message_eq {g : Grid} {size : ULong} (h : Sends s) (hpc : s.pc = .sending g size)
    (beyond : Nat → ULong) :
    Backend.parsed 0 (Predictor.message s.pred.pkt size beyond) = toSend s.pred.pkt s.pc := by
  obtain ⟨pkt, r, henc, rfl⟩ := h g size hpc
  rw [hpc, toSend, Predictor.parsed_message henc, Predictor.parsed_message henc]

/-- A step that has nothing to do with requests. -/
theorem Conserved.keep (h : Conserved asked made s) (hb : s'.backend = s.backend)
    (hsend : toSend s'.pred.pkt s'.pc = toSend s.pred.pkt s.pc) (hs : Sends s') :
    Conserved asked made s' := by
  refine ⟨hs, ?_, hb ▸ h.tables⟩
  rw [h.calls, inFlight, inFlight, hb, hsend]

/-- A step of the backend makes calls, or takes in what was to be sent. -/
theorem Conserved.backend {a : Backend.Action} {e : Backend.Event} (h : Conserved asked made s)
    (hb : s.backend.next a = some (e, s'.backend)) (hab : s'.backend.aborted = false)
    (hsend : toSend s.pred.pkt s.pc = Backend.asked 0 a ++ toSend s'.pred.pkt s'.pc)
    (hs : Sends s') : Conserved asked (made ++ Backend.made 0 s.backend a) s' := by
  refine ⟨hs, ?_, ?_⟩
  · rw [h.calls, inFlight, inFlight, hsend, ← List.append_assoc (Backend.unmade _ _),
      Backend.next_unmade hb hab, List.append_assoc, List.append_assoc]
  · rw [Backend.windowOps_append]
    exact h.tables.trans (Backend.next_takesIn hb)

/-- A message or a response on a channel makes no calls. -/
theorem Conserved.channel {a : Backend.Action} {e : Backend.Event} (h : Conserved asked made s)
    (hb : s.backend.next a = some (e, s'.backend)) (hab : s'.backend.aborted = false)
    (hmade : Backend.made 0 s.backend a = [])
    (hsend : toSend s.pred.pkt s.pc = Backend.asked 0 a ++ toSend s'.pred.pkt s'.pc)
    (hs : Sends s') : Conserved asked made s' := by
  have hcons := h.backend hb hab hsend hs
  rwa [hmade, List.append_nil] at hcons

/-- A predictor that is not about to send. -/
theorem sends_of_ne (h : ∀ g size, s.pc ≠ .sending g size) : Sends s :=
  fun g size hpc => absurd hpc (h g size)

theorem Conserved.predictor {e : System.Event} (h : Conserved asked made s)
    (hs : System.PredictorStep s e s') (hne : ∀ g, e ≠ .encoded g)
    (hab : s'.backend.aborted = false) : Conserved asked made s' := by
  cases hs with
  | wake hpc hw => exact h.keep rfl (by rw [hpc]; rfl) (sends_of_ne (by simp))
  | read hpc => exact h.keep rfl (by rw [hpc]; rfl) (sends_of_ne (by simp))
  | mark hpc hd => exact h.keep rfl (by rw [hpc]; rfl) (sends_of_ne (by simp))
  | encode => exact absurd rfl (hne _)
  | @send g size beyond e backend hpc hq =>
    refine h.channel hq hab rfl ?_ (sends_of_ne (by simp))
    rw [← message_eq h.sends hpc beyond]
    exact (List.append_nil _).symm
  | answer hpc ht => exact h.channel ht hab rfl (by rw [hpc]; rfl) (sends_of_ne (by simp))
  | notify hpc hn => exact h.keep rfl (by rw [hpc]; rfl) (sends_of_ne (by simp))

/-- A request is encoded: its calls are in flight. -/
theorem Conserved.encode {g : Grid} {r : RecordVec} {pkt : Vector ULong pktWords}
    {pred : Predictor} {gwin : GlobalWindow} (h : Conserved asked made s)
    (hpc : s.pc = .deciding g) (henc : Predictor.encode pred.pkt g r = some pkt) :
    Conserved (asked ++ Predictor.requestCalls 0 g r) made
      { s with gwin, pred := { pred with pkt }, pc := .sending g (Predictor.pktSize r) } := by
  refine ⟨fun g' size hpc' => ?_, ?_, h.tables⟩
  · cases hpc'
    exact ⟨_, r, henc, rfl⟩
  · have hnone : toSend s.pred.pkt s.pc = [] := by rw [hpc]; rfl
    rw [h.calls, inFlight, inFlight, hnone, List.append_nil, toSend, Predictor.parsed_message henc,
      List.append_assoc]

end

section
variable {start : ULong} {pkt : Vector ULong pktWords} {tr : List Event} {s s' : Process}
  {e : Event} {as : List Action} {asked calls : List Backend.Call}

theorem requestedCalls_concat (tr : List Event) (e : Event) :
    requestedCalls (tr ++ [e]) = requestedCalls tr ++ requestedCalls [e] := List.flatMap_append

theorem requestedCalls_label {e : System.Event} (h : ∀ g, e ≠ .encoded g) (s : Process) :
    requestedCalls [s.label e] = [] := by
  unfold label
  split
  · exact absurd rfl (h _)
  · rfl

/-- Only the backend's steps make calls. -/
theorem made_of_ne {a : Action} (h : ∀ b, a ≠ .thread (.backend b)) (s : Process) :
    s.made a = [] := by
  unfold made
  split
  · exact absurd rfl (h _)
  · rfl

/-- One step of the threads. -/
theorem thread_conserved {a : System.Action} {e : System.Event} {sys : System}
    (h : Conserved asked calls s.sys) (hn : s.sys.next a = some (e, sys))
    (hab : sys.backend.aborted = false) :
    Conserved (asked ++ requestedCalls [s.label e]) (calls ++ s.made (.thread a)) sys := by
  by_cases henc : ∃ g, e = .encoded g
  · obtain ⟨g, rfl⟩ := henc
    cases System.next_step hn with
    | predictor hs =>
      cases hs with
      | @encode _ now pred r gwin pkt hpc hd hc he =>
        have htaken : s.taken = r := by rw [taken, hc]
        have hcalls : requestedCalls [s.label (.encoded g)] = Predictor.requestCalls 0 g r := by
          simp [requestedCalls, label, htaken]
        rw [hcalls, made_of_ne (by simp), List.append_nil]
        exact h.encode hpc he
  · have hne : ∀ g, e ≠ .encoded g := fun g hg => henc ⟨g, hg⟩
    rw [requestedCalls_label hne, List.append_nil]
    cases System.next_step hn with
    | launch | notify | «return» =>
      rw [made_of_ne (by simp), List.append_nil]
      exact h.keep rfl rfl h.sends
    | predictor hs =>
      rw [made_of_ne (by simp), List.append_nil]
      exact h.predictor hs hne hab
    | @backend a be backend ho hb =>
      have hasked : Backend.asked 0 a = [] := by
        cases a with
        | queue t pkt =>
          have ht : t ≠ 0 := by simpa [System.ownAction] using ho
          exact if_neg ht
        | _ => rfl
      refine h.backend hb hab ?_ h.sends
      rw [hasked]
      rfl

/-- A callback or a call of the application asks for nothing and makes nothing. -/
theorem call_conserved {a : Action} (h : Conserved asked calls s.sys)
    (ha : s.next a = some (e, s')) (hthread : ∀ b, a ≠ .thread b) :
    Conserved (asked ++ requestedCalls [e]) (calls ++ s.made a) s'.sys := by
  rw [made_of_ne (fun b => hthread _), List.append_nil]
  cases a with
  | callback buffer =>
    simp only [next] at ha
    split at ha <;> cases ha
    simpa [requestedCalls] using h
  | profile buffers =>
    simp only [next, profile] at ha
    split at ha
    · cases ha
    · split at ha
      · split at ha
        · rename_i gwin hp
          cases ha
          have hkeep : Conserved asked calls { s.sys with gwin } := h.keep rfl rfl h.sends
          simpa [requestedCalls] using hkeep
        · cases ha
      · cases ha
  | thread b => exact absurd rfl (hthread b)
  | destroy =>
    simp only [next] at ha
    split at ha <;> cases ha
    simpa [requestedCalls] using h

theorem next_conserved {a : Action} (h : Conserved asked calls s.sys)
    (ha : s.next a = some (e, s')) (hab : s'.sys.backend.aborted = false) :
    Conserved (asked ++ requestedCalls [e]) (calls ++ s.made a) s'.sys := by
  cases a with
  | thread b =>
    simp only [next] at ha
    split at ha
    · cases ha
    · split at ha
      · rename_i hn
        cases ha
        exact thread_conserved h hn hab
      · cases ha
  | _ => exact call_conserved h ha (by simp)

/-- The calls along a schedule. -/
theorem schedule_conserved {tr' : List Event} (hr : (lts start pkt).Run tr s)
    (h : Conserved (requestedCalls tr) calls s.sys)
    (has : Lts.schedule next s as = some (tr', s')) :
    Conserved (requestedCalls (tr ++ tr')) (calls ++ madeAlong s as) s'.sys := by
  induction as generalizing s tr tr' calls with
  | nil =>
    cases has
    simpa [madeAlong] using h
  | cons a as ih =>
    obtain ⟨e, s1, tr1, ha, hrest, rfl⟩ := Lts.schedule_cons.1 has
    have hr1 := hr.snoc ⟨a, ha⟩
    have h1 := next_conserved h ha (backend_not_aborted hr1)
    rw [← requestedCalls_concat] at h1
    rw [madeAlong, ha, List.append_cons, ← List.append_assoc calls]
    exact ih hr1 h1 hrest

theorem conserved (h : Lts.schedule next (create start pkt) as = some (tr, s)) :
    Conserved (requestedCalls tr) (madeAlong (create start pkt) as) s.sys := by
  have h0 : Conserved (requestedCalls []) [] (create start pkt).sys :=
    ⟨sends_of_ne (by simp [create, System.start]), rfl, .refl 0 _⟩
  exact schedule_conserved (.nil rfl) h0 h

/-! ## Between launches -/

/-- Between launches nothing is in flight. -/
theorem inFlight_nil (h : (lts start pkt).Run tr s) (happ : s.sys.app = .idle) :
    inFlight s.sys = [] := by
  obtain ⟨st, -, hshows⟩ := exists_stage h
  have hst := hshows.sys.app
  rw [happ] at hst
  obtain rfl : st = .home := by cases st <;> cases hst; rfl
  have hwait := System.predictor_waits hshows.sys.pc rfl
  obtain ⟨-, hview, hreq, -, hup⟩ := (System.serves_away rfl).1 hshows.sys.serves
  have hphase : (s.sys.backend.tenants 0).pc.phase = .between := congrArg Backend.View.phase hview
  have hpc : (s.sys.backend.tenants 0).pc = .receiving := by
    cases hpc : (s.sys.backend.tenants 0).pc with
    | receiving => rfl
    | updating m => exact absurd hpc (hup m)
    | _ => rw [hpc] at hphase; cases hphase
  rw [inFlight, Backend.unmade, hwait, hpc, hreq]
  rfl

/-- The pairs of a request's records. -/
theorem idleCalls_request (g : Grid) (r : RecordVec) (k : ULong) :
    idleCalls 0 k (Backend.windowOps (Predictor.requestCalls 0 g r)) = pairsOf k r := by
  have hops : Backend.windowOps (Predictor.requestCalls 0 g r) =
      r.map fun rec => .updateIdle rec.gX rec.active rec.idle 0 := by
    simp [Predictor.requestCalls, Backend.windowOps, List.filterMap_map]
  rw [hops, idleCalls, GlobalWindow.pairsFor, pairsOf]
  simp [List.filterMap_map, Function.comp_def, GlobalWindow.Op.idle, List.filter_map]

theorem idleCalls_append (k : ULong) (cs cs' : List Backend.Call) :
    idleCalls 0 k (Backend.windowOps (cs ++ cs')) =
      idleCalls 0 k (Backend.windowOps cs) ++ idleCalls 0 k (Backend.windowOps cs') := by
  rw [Backend.windowOps_append, idleCalls, List.filterMap_append, GlobalWindow.pairsFor,
    List.filter_append, List.map_append]
  rfl

theorem idleCalls_requested (tr : List Event) (k : ULong) :
    idleCalls 0 k (Backend.windowOps (requestedCalls tr)) = pairsOf k (requested tr).flatten := by
  induction tr with
  | nil => rfl
  | cons e tr ih =>
    have hcalls : requestedCalls ([e] ++ tr) = requestedCalls [e] ++ requestedCalls tr :=
      List.flatMap_append
    rw [List.singleton_append] at hcalls
    rw [hcalls, idleCalls_append, ih]
    cases e with
    | requested g active idle r =>
      have hone : requestedCalls [.requested g active idle r] = Predictor.requestCalls 0 g r :=
        List.append_nil _
      rw [hone, idleCalls_request]
      simp [requested, pairsOf]
    | _ => rfl

/-! ## The batches -/

/-- The untaken batch is the one in the record buffer. -/
theorem untaken_eq (tr : List Event) :
    untaken tr = (Mailbox.unread (tr.filterMap Event.mail)).getD [] := by
  induction tr using List.reverseRecOn with
  | nil => rfl
  | append_singleton tr e ih =>
    rw [untaken, List.foldl_concat, ← untaken, Sequences.filterMap_concat]
    cases e with
    | profiled buffers out => simp [Event.mail, Mailbox.unread]
    | requested g active idle r => simp [Event.mail, Mailbox.unread]
    | _ => simpa [Event.mail] using ih

theorem takes_eq (tr : List Event) : Mailbox.takes (tr.filterMap Event.mail) = requested tr := by
  rw [Mailbox.takes, List.filterMap_filterMap, requested]
  refine List.filterMap_congr fun e _ => ?_
  cases e <;> rfl

theorem puts_eq (tr : List Event) : Mailbox.puts (tr.filterMap Event.mail) = published tr := by
  rw [Mailbox.puts, List.filterMap_filterMap, published]
  refine List.filterMap_congr fun e _ => ?_
  cases e <;> rfl

/-- **Records arrive once.** In every run from lowered flags, however the threads of both processes
interleave with callbacks and profiling: by whatever actions the run came about, the calls that the
requests ask for are those that the client's thread in the backend has made along them, in order,
and then those in flight, and tenant 0's idle queues hold exactly what the calls made have brought.
Between launches nothing is in flight, so the queues hold exactly the pairs of the records that all
requests took. A request takes the batch published last, unless that is taken; so each batch
published goes into one request or, if the next one is there first, none. -/
theorem records_arrive (h : (lts start pkt).Run tr s) :
    (∃ as, Lts.schedule next (create start pkt) as = some (tr, s)) ∧
    (∀ as, Lts.schedule next (create start pkt) as = some (tr, s) →
      requestedCalls tr = madeAlong (create start pkt) as ++ inFlight s.sys ∧
      ∀ k, s.sys.backend.gwin.idleHeld 0 k =
        ↑(dummy k ++ idleCalls 0 k (Backend.windowOps (madeAlong (create start pkt) as)))) ∧
    (s.sys.app = .idle → ∀ k,
      s.sys.backend.gwin.idleHeld 0 k = ↑(dummy k ++ pairsOf k (requested tr).flatten)) ∧
    (∀ pre g active idle r post, tr = pre ++ .requested g active idle r :: post →
      r = untaken pre) ∧
    ((requested tr).filter (· ≠ [])).Sublist (published tr) := by
  obtain ⟨as, has⟩ := h.exists_schedule
  obtain ⟨-, hslot⟩ := GlobalWindow.buffer_refines (buffer_runs h)
  refine ⟨⟨as, has⟩, fun as has => ?_, fun happ k => ?_, ?_, ?_⟩
  · obtain ⟨-, hcalls, htables⟩ := conserved has
    exact ⟨hcalls, fun k => (htables.held k).1⟩
  · obtain ⟨-, hcalls, htables⟩ := conserved has
    rw [(htables.held k).1, ← idleCalls_requested, hcalls, inFlight_nil h happ, List.append_nil]
  · intro pre g active idle r post htr
    rw [untaken_eq]
    have hmail : tr.filterMap Event.mail =
        pre.filterMap Event.mail ++ .take r :: post.filterMap Event.mail := by
      rw [htr, List.filterMap_append]
      rfl
    exact Mailbox.take_eq hslot hmail
  · rw [← takes_eq, ← puts_eq]
    exact Mailbox.takes_sublist hslot

end

/-- A read of two kernels, and a launch from its call to its return. -/
def oneRequest : List Action :=
  [.profile [[.kernel ⟨10, 20, 7, 1, 1⟩, .kernel ⟨50, 60, 8, 1, 1⟩]], .thread (.launch ⟨7, 1, 1⟩),
    .thread .app] ++
  List.replicate 4 (.thread (.predictor 0 fun _ => 0)) ++
  List.replicate 4 (.thread (.backend (.tenant 0))) ++
  List.replicate 6 (.thread (.backend .arbiter)) ++
  List.replicate 2 (.thread (.backend (.tenant 0))) ++
  List.replicate 2 (.thread (.predictor 0 fun _ => 0)) ++ [.thread .app]

theorem request_arrived : ∃ tr s, (lts 0 (Vector.replicate pktWords 0)).Run tr s ∧
    requested tr = [[⟨7, 10, 30⟩]] ∧
    requestedCalls tr =
      madeAlong (create 0 (Vector.replicate pktWords 0)) oneRequest ++ inFlight s.sys ∧
    s.sys.backend.gwin.idleHeld 0 7 = {(10, 30)} := by
  have has : Lts.schedule next (create 0 (Vector.replicate pktWords 0)) oneRequest = some _ := rfl
  have hrun := Lts.run_schedule _ next _ has
  obtain ⟨-, hcalls, hheld, -⟩ := records_arrive hrun
  exact ⟨_, _, hrun, rfl, (hcalls _ has).1, hheld rfl 7⟩

end Propreact.Process
