import Propreact.Backend.Proof.Starve
import Propreact.Client.Proof.Progress

/-!
# A held window strands the launch

What a held mutex of the backend's window means for the client: a launch whose request is made
while it is held never returns (`launch_stranded`), whatever anyone does. The request does not get
past the Arbiter (`Stranded`).
-/

namespace Propreact.Process

open Propreact.System (Stage Hop)

/-- The request is at most held by the Arbiter's pass. -/
def beforeRelease : Stage → Bool
  | .sending _ => true
  | .serving _ hop =>
    match hop with
    | .queued | .received | .asked | .lost | .held => true
    | _ => false
  | _ => false

/-- The request is before its release, and no answer is left that a lookup does not stand before. -/
structure Stranded (b : Backend) (st : Stage) : Prop where
  held : b.gwin.mutex = true
  answers : b.answersLeft 0 = 0
  stage : beforeRelease st = true

section
variable {s s' : Process} {st st' : Stage} {e : Event}

theorem answersLeft_eq_zero {b : Backend} (h : System.Serves b st)
    (hst : st.token.view = Backend.Token.idle.view) : b.answersLeft 0 = 0 := by
  have hview := h.view.trans hst
  have hphase : (b.tenants 0).pc.phase = .between := congrArg Backend.View.phase hview
  have hheld : b.arbiter.holds 0 = false := congrArg Backend.View.held hview
  have hready : b.pool.tenantReady 0 = false := congrArg Backend.View.ready hview
  have hle := Backend.releases_le (t := 0) h.wf
  rw [hheld] at hle
  rw [Backend.answersLeft, hphase, hready, Nat.le_zero.1 hle]
  rfl

theorem stranded_step {e' : System.Event} (h : Stranded s.sys.backend st) (h' : At s' st')
    (hs : Step s e s') (he : e.system = some e') (hst : Stage.Step st e' st') :
    Stranded s'.sys.backend st' := by
  obtain ⟨hheld, hans, hbefore⟩ := h
  have hback : s'.sys.backend.gwin.mutex = true ∧ s'.sys.backend.answersLeft 0 = 0 := by
    cases hs with
    | thread hd hn =>
      rcases system_backend hn with hsame | ⟨b, be, hb⟩
      · rw [hsame]
        exact ⟨hheld, hans⟩
      · obtain ⟨hm, -, hle⟩ := Backend.next_starves hheld hb 0
        exact ⟨hm, Nat.le_zero.1 ((Nat.le_add_right _ _).trans (hle.trans hans.le))⟩
    | _ => exact ⟨hheld, hans⟩
  refine ⟨hback.1, hback.2, ?_⟩
  cases hst with
  | send => rfl
  | receive => rfl
  | update => rfl
  | take => rfl
  | drop => rfl
  | other => exact hbefore
  | release =>
    -- a release would leave an answer
    have hready : s'.sys.backend.pool.tenantReady 0 = true :=
      congrArg Backend.View.ready h'.shows.sys.serves.view
    have hzero := hback.2
    rw [Backend.answersLeft, hready] at hzero
    simp at hzero
  | _ => cases hbefore

end

section
variable {start : ULong} {pkt : Vector ULong pktWords} {x : (lts start pkt).Exec} {i : Nat}

/-- **A held window strands the launch.** In every execution from lowered flags: a launch whose
request is made while the mutex of the backend's window is held never returns. -/
theorem launch_stranded {g : Grid} {active idle : Option ULong} {r : RecordVec}
    (hl : x.label i = some (.requested g active idle r))
    (hm : (x.state i).sys.backend.gwin.mutex = true) {j : Nat} (hj : i < j) :
    x.label j ≠ some (.moved .returned) := by
  obtain ⟨y, h⟩ := exists_stages x
  have hbind : (x.label i).bind Event.system = some (.encoded g) := by rw [hl]; rfl
  obtain ⟨e, -, hsys, hs, hst⟩ := h.moved hbind
  have hat := h.shown i
  have hfirst : Stranded (x.state (i + 1)).sys.backend (y (i + 1)) := by
    generalize x.state (i + 1) = s' at hs
    generalize y (i + 1) = st' at hst
    generalize y i = st at hst hat
    cases hst with
    | encode =>
      have hans := answersLeft_eq_zero hat.shows.sys.serves rfl
      cases hs with
      | thread hd hn =>
        rcases system_backend hn with hsame | ⟨b, be, hb⟩
        · rw [← hsame] at hm hans
          exact ⟨hm, hans, rfl⟩
        · obtain ⟨hm', -, hle⟩ := Backend.next_starves hm hb 0
          exact ⟨hm', Nat.le_zero.1 ((Nat.le_add_right _ _).trans (hle.trans hans.le)), rfl⟩
      | _ => cases hsys
  have hall (k : Nat) : Stranded (x.state (i + 1 + k)).sys.backend (y (i + 1 + k)) := by
    induction k with
    | zero => exact hfirst
    | succ k ih =>
      cases hk : (x.label (i + 1 + k)).bind Event.system with
      | none =>
        obtain ⟨hy, -, hback, -⟩ := h.rest hk
        rw [← Nat.add_assoc, hy, hback]
        exact ih
      | some e' =>
        obtain ⟨e1, -, hsys1, hs1, hst1⟩ := h.moved hk
        exact stranded_step ih (h.shown _) hs1 hsys1 hst1
  obtain ⟨k, rfl⟩ := Nat.exists_eq_add_of_le (Nat.succ_le_of_lt hj)
  intro hret
  have hret' := h.step _ _ (returned_iff.2 hret)
  have hbefore := (hall k).stage
  generalize y (i + 1 + k) = st at hret' hbefore
  generalize y (i + 1 + k + 1) = st' at hret'
  cases hret' with
  | «return» => cases hbefore

end

/-- Tenant 1 brings a record with a key of its own, and then the client launches. -/
def newKeyThenLaunch : List System.Action :=
  [.backend (.queue 1 ⟨40, fun i => [40, 5, 7, 10, 20].getD i 0⟩)] ++
  List.replicate 3 (.backend (.tenant 1)) ++ [.launch ⟨7, 1, 1⟩, .app] ++
  List.replicate 3 (.predictor 0 fun _ => 0)

/-- The launch, and then passes of the Arbiter as long as it can move. -/
def strandedLaunch : (lts 0 (Vector.replicate pktWords 0)).Exec :=
  .ofActions next (create 0 (Vector.replicate pktWords 0))
    fun i => .thread ((newKeyThenLaunch[i]?).getD (.backend .arbiter))

theorem strandedLaunch_stranded : (∃ active idle r,
    strandedLaunch.label 8 = some (.requested ⟨7, 1, 1⟩ active idle r)) ∧
    ∀ j, 8 < j → strandedLaunch.label j ≠ some (.moved .returned) :=
  ⟨⟨_, _, _, rfl⟩, fun _ hj => launch_stranded (x := strandedLaunch) (i := 8) rfl rfl hj⟩

end Propreact.Process
