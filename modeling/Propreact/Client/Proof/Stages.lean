import Propreact.Backend.Proof.Progress
import Propreact.Client.Proof.Process

/-!
# Where the threads are at a stage

`At` adds to `Shows` what the stage says about the predictor's thread and the backend's thread for
the client; every step of the process keeps it (`step_at`). A step that does not move the launch
to its next stage either brings the thread that will (`helper`) nearer to that step, or is of
another thread (`step_nearer`).
-/

namespace Propreact.Process

open Propreact.System (Stage Hop)

/-- Where the predictor's thread is at a stage. -/
def PredictorOf (pc : Predictor.Pc) : Stage → Prop
  | .woken _ => pc = .reading
  | .read g => pc = .deciding g
  | .sending g => ∃ size, pc = .sending g size
  | .serving _ _ => pc = .receiving
  | .notifying _ _ => pc = .notifying
  | .home | .written _ | .posted _ | .notified _ _ => pc = .waiting

structure At (s : Process) (st : Stage) : Prop where
  shows : Shows s st
  predictor : PredictorOf s.sys.pc st
  received : ∀ g, st = .serving g .received →
    ∃ pkt, (s.sys.backend.tenants 0).pc = .updating pkt

section
variable {s s' : Process} {st st' : Stage} {e : Event}

/-! ## Every step keeps it -/

theorem predictor_at {sys sys' : System} {a : System.Action} {e : System.Event}
    (h : PredictorOf sys.pc st) (hn : sys.next a = some (e, sys')) (hst : Stage.Step st e st') :
    PredictorOf sys'.pc st' := by
  cases System.next_step hn with
  | launch g happ => cases hst; exact h
  | notify happ hw => cases hst; exact h
  | «return» happ hw => cases hst; exact h
  | predictor hs =>
    cases hs with
    | wake hpc hw => cases hst; rfl
    | read hpc => cases hst; rfl
    | mark hpc hd => cases hst; rfl
    | encode hpc hd hc he => cases hst; exact ⟨_, rfl⟩
    | send hpc hq => cases hst; rfl
    | answer hpc ht => cases hst; rfl
    | notify hpc hw => cases hst; rfl
  | backend ho hb => cases hst <;> exact h

/-- A step of the backend keeps or brings about that the message is received. -/
theorem backend_received {b b' : Backend} {a : Backend.Action} {e : Backend.Event}
    (h : ∀ g, st = .serving g .received → ∃ pkt, (b.tenants 0).pc = .updating pkt)
    (hb : b.next a = some (e, b')) (hst : Stage.Step st (.backend e) st') (g : Grid)
    (hg : st' = .serving g .received) : ∃ pkt, (b'.tenants 0).pc = .updating pkt := by
  obtain ⟨-, henv | ⟨t, -, ht⟩ | ⟨-, harb⟩⟩ := Backend.next_step hb
  · have hkeep : (b'.tenants 0).pc = (b.tenants 0).pc := by
      cases henv with
      | queue t pkt => by_cases ht : 0 = t <;> simp [Backend.setTenant, ht]
      | @take t resp rest hresp => by_cases ht : 0 = t <;> simp [Backend.setTenant, ht]
    subst hg
    cases hst with
    | receive => cases henv
    | other ho =>
      rw [hkeep]
      exact h g rfl
  · by_cases h0 : 0 = t
    · subst h0
      subst hg
      cases hst with
      | receive =>
        cases ht with
        | @receive pkt rest hpc hreq => exact ⟨pkt, by simp [Backend.setTenant]⟩
      | other ho =>
        -- the thread's next call is `update`, which is no other step
        obtain ⟨pkt, hpc⟩ := h g rfl
        cases ht <;> simp_all [Backend.Event.own]
    · have hkeep : b'.tenants 0 = b.tenants 0 := by cases ht <;> simp [Backend.setTenant, h0]
      subst hg
      cases hst with
      | receive => cases ht; exact absurd rfl h0
      | other ho =>
        rw [hkeep]
        exact h g rfl
  · have hkeep : b'.tenants 0 = b.tenants 0 := by cases harb <;> rfl
    subst hg
    cases hst with
    | receive => cases harb
    | other ho =>
      rw [hkeep]
      exact h g rfl

/-- Every step of the process is a step of the launches' protocol, or none of it. -/
theorem step_at (h : At s st) (hs : Step s e s') :
    match e.system with
    | some e' => ∃ st', Stage.Step st e' st' ∧ At s' st'
    | none => At s' st := by
  have hf := step_follows h.shows hs
  cases hs with
  | callback buffer hd => exact ⟨hf, h.predictor, h.received⟩
  | profile hd hr hp => exact ⟨hf, h.predictor, h.received⟩
  | destroy hd happ => exact ⟨hf, h.predictor, h.received⟩
  | @thread a e sys hd hn =>
    rw [label_system] at hf ⊢
    obtain ⟨st', hst, hshows⟩ := hf
    refine ⟨st', hst, hshows, predictor_at h.predictor hn hst, fun g hg => ?_⟩
    cases System.next_step hn with
    | backend ho hb => exact backend_received h.received hb hst g hg
    | predictor hs => subst hg; cases hs <;> cases hst
    | _ => subst hg; cases hst

/-! ## Nearer to the next stage -/

/-- The thread whose step ends a stage. -/
def helper : Stage → Thread
  | .home | .written _ | .notified _ _ => .app
  | .posted _ | .woken _ | .read _ | .sending _ | .notifying _ _ => .predictor
  | .serving _ hop =>
    match hop with
    | .queued | .received | .granted | .answering => .tenant 0
    | .asked | .lost | .held => .arbiter
    | .responded => .predictor

/-- How many stages are left, at most. -/
def stagesLeft : Stage → Nat
  | .home => 0
  | .notified _ _ => 1
  | .notifying _ _ => 2
  | .serving _ hop =>
    match hop with
    | .responded | .lost => 3
    | .answering => 4
    | .granted => 5
    | .held => 6
    | .asked => 7
    | .received => 8
    | .queued => 9
  | .sending _ => 10
  | .read _ => 11
  | .woken _ => 12
  | .posted _ => 13
  | .written _ => 14

/-- How far the helper is from the step that ends the stage. -/
def distance (b : Backend) : Stage → Nat
  | .serving _ .asked => b.arbiter.untilPoll 0
  | .serving _ .held => b.arbiter.left
  | .serving _ .granted => (b.tenants 0).pc.left
  | _ => 0

/-- The helper is nearer, or it has not moved. -/
def Nearer (st : Stage) (th : Option Thread) (b b' : Backend) : Prop :=
  distance b' st < distance b st ∨ distance b' st = distance b st ∧ th ≠ some (helper st)

section
variable {b b' : Backend} {be : Backend.Event}

theorem tenant_thread {t : TenantId} (h : Backend.TenantStep b t be b') :
    backendThread be = some (.tenant t) := by cases h <;> rfl

theorem arbiter_thread (h : Backend.ArbiterStep b be b') : backendThread be = some .arbiter := by
  cases h <;> rfl

/-- Other threads do not change where the helper is. -/
theorem distance_eq (harb : helper st = .arbiter → b'.arbiter = b.arbiter)
    (hten : helper st = .tenant 0 → (b'.tenants 0).pc = (b.tenants 0).pc) :
    distance b' st = distance b st := by
  cases st with
  | serving g hop =>
    cases hop with
    | asked => rw [distance, distance, harb rfl]
    | held => rw [distance, distance, harb rfl]
    | granted => rw [distance, distance, hten rfl]
    | _ => rfl
  | _ => rfl

/-- The stages at which the client's thread in the backend is at work on the request. -/
theorem serving_of_busy (h : System.Serves b st) (hpc : (b.tenants 0).pc.phase = .busy) :
    ∃ g hop, st = .serving g hop ∧ (hop = .asked ∨ hop = .lost ∨ hop = .held ∨ hop = .granted) := by
  have hphase : (b.tenants 0).pc.phase = st.token.view.phase := congrArg Backend.View.phase h.view
  rw [hpc] at hphase
  cases st with
  | serving g hop => cases hop <;> cases hphase <;> exact ⟨g, _, rfl, by simp⟩
  | _ => cases hphase

theorem tenant_nearer (h : System.Serves b st) (h' : System.Serves b' st)
    (hs : Backend.TenantStep b 0 be b')
    (ho : be.own 0 = none ∨ be.own 0 = some (.retrieved none 0)) :
    Nearer st (some (.tenant 0)) b b' := by
  cases hs with
  | update hpc hnone => simp [Backend.Event.own] at ho
  | fail hpc hsome => simp [Backend.Event.own] at ho
  | wait hpc hr => simp [Backend.Event.own] at ho
  | respond hpc => simp [Backend.Event.own] at ho
  | @receive pkt rest hpc hq =>
    -- a request that is received leaves the channel
    obtain ⟨g, rfl, -, rfl⟩ := h.queued hq
    have hreq := h'.requests
    simp [Backend.setTenant, Stage.queued] at hreq
  | @record pkt i gwin hpc hi hrec =>
    have hbusy : (b.tenants 0).pc.phase = .busy := by rw [hpc]; rfl
    obtain ⟨g, hop, rfl, rfl | rfl | rfl | rfl⟩ := serving_of_busy h hbusy
    · exact .inr ⟨rfl, by simp [helper]⟩
    · exact .inr ⟨rfl, by simp [helper]⟩
    · exact .inr ⟨rfl, by simp [helper]⟩
    · left
      simp [distance, Backend.setTenant, hpc, InterposerBackend.Pc.left]
      omega
  | recordsDone hpc hi =>
    have hbusy : (b.tenants 0).pc.phase = .busy := by rw [hpc]; rfl
    obtain ⟨g, hop, rfl, rfl | rfl | rfl | rfl⟩ := serving_of_busy h hbusy
    · exact .inr ⟨rfl, by simp [helper]⟩
    · exact .inr ⟨rfl, by simp [helper]⟩
    · exact .inr ⟨rfl, by simp [helper]⟩
    · left
      simp [distance, Backend.setTenant, hpc, InterposerBackend.Pc.left]

theorem arbiter_nearer (h : System.Serves b st) (hs : Backend.ArbiterStep b be b')
    (ho : be.own 0 = none ∨ be.own 0 = some (.retrieved none 0))
    (hlost : ∀ g, st ≠ .serving g .lost) :
    Nearer st (some .arbiter) b b' := by
  have hten : b'.tenants 0 = b.tenants 0 := by cases hs <;> rfl
  by_cases hhelp : helper st = .arbiter
  case neg =>
    exact .inr ⟨distance_eq (fun harb => absurd harb hhelp) fun _ => by rw [hten],
      fun heq => hhelp (Option.some.inj heq).symm⟩
  left
  cases st with
  | serving g hop =>
    cases hop with
    | asked =>
      -- the entry is there, so a poll of the client would take it
      have hentry : b.pool.tenantRequests[(0 : TenantId)]? = some g.x :=
        congrArg Backend.View.entry h.view
      refine hs.untilPoll_lt fun found k hpoll => ?_
      subst hpoll
      cases hs with
      | retrieve harb =>
        rw [hentry] at ho
        simp [Backend.Event.own] at ho
    | held =>
      have hheld : b.arbiter.holds 0 = true := congrArg Backend.View.held h.view
      refine hs.left_lt fun hnew => ?_
      subst hnew
      cases hs with
      | newPass harb =>
        rw [harb] at hheld
        simp [Arbiter.holds] at hheld
    | lost => exact absurd rfl (hlost g)
    | _ => cases hhelp
  | _ => cases hhelp

theorem backend_nearer {a : Backend.Action} (h : System.Serves b st) (h' : System.Serves b' st)
    (hb : b.next a = some (be, b')) (ho : be.own 0 = none ∨ be.own 0 = some (.retrieved none 0))
    (hlost : ∀ g, st ≠ .serving g .lost) : Nearer st (backendThread be) b b' := by
  obtain ⟨-, henv | ⟨t, rfl, hs⟩ | ⟨rfl, hs⟩⟩ := Backend.next_step hb
  · have hnone : backendThread be = none := by cases henv <;> rfl
    refine .inr ⟨distance_eq (fun _ => by cases henv <;> rfl) fun _ => ?_, by simp [hnone]⟩
    cases henv with
    | queue t pkt => by_cases ht : 0 = t <;> simp [Backend.setTenant, ht]
    | @take t resp rest hresp => by_cases ht : 0 = t <;> simp [Backend.setTenant, ht]
  · by_cases h0 : 0 = t
    · subst h0
      rw [tenant_thread hs]
      exact tenant_nearer h h' hs ho
    · rw [tenant_thread hs]
      refine .inr ⟨distance_eq (fun _ => by cases hs <;> rfl) fun _ => ?_, fun heq => ?_⟩
      · cases hs <;> simp [Backend.setTenant, h0]
      · have hhelp := (Option.some.inj heq).symm
        have h1 : ∀ st, helper st = .tenant t → t = 0 := by
          intro st hst
          cases st with
          | serving g hop => cases hop <;> cases hst <;> rfl
          | _ => cases hst
        exact h0 (h1 _ hhelp).symm
  · rw [arbiter_thread hs]
    exact arbiter_nearer h hs ho hlost

end

/-- **A step of an open launch** returns, moves it to a later stage, or brings the helper nearer
or is of another thread. -/
theorem step_nearer {e' : System.Event} (h : At s st) (h' : At s' st') (hs : Step s e s')
    (he : e.system = some e') (hst : Stage.Step st e' st') (hhome : st ≠ .home)
    (hlost : ∀ g, st ≠ .serving g .lost) :
    e' = .returned ∨ stagesLeft st' < stagesLeft st ∨
      st' = st ∧ Nearer st e.thread s.sys.backend s'.sys.backend := by
  cases hst with
  | launch g => exact absurd rfl hhome
  | «return» => exact .inl rfl
  | @other _ be ho =>
    refine .inr (.inr ⟨rfl, ?_⟩)
    have hthread : e.thread = backendThread be := by rw [Event.thread, he]; rfl
    rw [hthread]
    cases hs with
    | @thread a e sys hd hn =>
      rw [label_system] at he
      cases he
      cases System.next_step hn with
      | backend hown hb =>
        exact backend_nearer h.shows.sys.serves h'.shows.sys.serves hb ho hlost
      | predictor hs => cases hs
    | _ => cases he
  | _ => exact .inr (.inl (by simp [stagesLeft]))

end

/-! ## The open launch will return -/

/-- The open launch is a marker, or its key is one that the Arbiter takes. -/
def Due (s : Process) : Stage → Prop
  | .home => False
  | .written g | .posted g | .woken g | .read g =>
    g.x ≠ 0 ∨ g.y = 0 ∧ s.sys.pred.lib = false
  | .sending g => g.x ≠ 0
  | .serving g hop =>
    match hop with
    | .queued | .received | .asked => g.x ≠ 0
    | .lost => False
    | _ => True
  | .notifying _ _ | .notified _ _ => True

section
variable {s s' : Process} {st st' : Stage} {e : Event}

theorem decide_eq_marker {p p' : Predictor} {now : Int} {g : Grid}
    (h : p.decide now g = (.marker, p')) : g.x ≠ 0 ∨ g.y = 0 ∧ p.lib = false := by
  unfold Predictor.decide at h
  split at h
  · rename_i h0
    exact .inr ⟨h0.2.1, by simpa using h0.2.2⟩
  · split at h
    · rename_i h1
      exact .inl (by simp [h1.1])
    · cases h

theorem decide_eq_request {p p' : Predictor} {now : Int} {g : Grid}
    (h : p.decide now g = (.request, p')) : ¬ (g.x = 0 ∧ g.y = 0 ∧ p.lib = false) := by
  intro h0
  unfold Predictor.decide at h
  rw [if_pos (by simpa using h0)] at h
  cases h

/-- A step of the predictor's thread, or of another, that leaves the predictor's data. -/
theorem system_lib {sys sys' : System} {a : System.Action} {e : System.Event}
    (h : sys.next a = some (e, sys')) (hm : ∀ g, e ≠ .marked g) (he : ∀ g, e ≠ .encoded g) :
    sys'.pred = sys.pred := by
  cases System.next_step h with
  | predictor hs =>
    cases hs with
    | mark => exact absurd rfl (hm _)
    | encode => exact absurd rfl (he _)
    | _ => rfl
  | _ => rfl

/-- Whether the open launch will return is settled when it is called. -/
theorem due_step {e' : System.Event} (hs : Step s e s') (he : e.system = some e')
    (hst : Stage.Step st e' st') (hhome : st ≠ .home) (hret : e' ≠ .returned) :
    Due s' st' ↔ Due s st := by
  cases hs with
  | @thread a e sys hd hn =>
    rw [label_system] at he
    cases he
    cases hst with
    | launch g => exact absurd rfl hhome
    | «return» => exact absurd rfl hret
    | notify1 => simp only [Due, system_lib hn (by simp) (by simp)]
    | wake => simp only [Due, system_lib hn (by simp) (by simp)]
    | readData => simp only [Due, system_lib hn (by simp) (by simp)]
    | mark =>
      cases System.next_step hn with
      | predictor hs =>
        cases hs with
        | mark hpc hd => exact ⟨fun _ => decide_eq_marker hd, fun _ => trivial⟩
    | @encode g =>
      cases System.next_step hn with
      | predictor hs =>
        cases hs with
        | encode hpc hd hc henc =>
          have hnot := decide_eq_request hd
          refine ⟨fun hx => .inl hx, fun hdue => ?_⟩
          rcases hdue with hx | ⟨hy, hlib⟩
          · exact hx
          · exact fun hx => hnot ⟨hx, hy, hlib⟩
    | @take g hpos =>
      have hx : g.x ≠ 0 := fun h0 => by
        rw [h0] at hpos
        exact absurd hpos (by decide)
      exact ⟨fun _ => hx, fun _ => trivial⟩
    | drop h0 => exact ⟨fun hf => hf.elim, fun hx => absurd h0 hx⟩
    | other ho =>
      have hpred := system_lib hn (by simp) (by simp)
      cases st <;> simp only [Due, hpred]
    | _ => exact Iff.rfl
  | _ => cases he

end

theorem create_at (start : ULong) (pkt : Vector ULong pktWords) : At (create start pkt) .home :=
  ⟨create_shows start pkt, rfl, by simp⟩

end Propreact.Process
