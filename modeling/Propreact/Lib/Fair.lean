import Mathlib.Data.Nat.Init
import Mathlib.Order.WellFounded
import Propreact.Lib.Lts

/-!
# Fair executions

`M.Exec`: an infinite execution of a transition system; a `none` label is a pause. The labels are
divided among threads by `owner`. A thread is treated fairly (`Exec.Fair`) if it is not enabled
forever without moving. The rules proofs use:

* `Exec.run`: an execution is a run up to every point, so invariants hold along it;
* `Exec.simulate`: it is followed by the states of a system that simulates `M`;
* `Exec.leadsTo`: a rank that no step raises, and that the steps of a helpful thread lower, ends.
-/

namespace Lts

variable {σ ε τ ε' θ : Type*} {M : Lts σ ε}

structure Exec (M : Lts σ ε) where
  state : Nat → σ
  label : Nat → Option ε
  init : M.init (state 0)
  step : ∀ i e, label i = some e → M.step (state i) e (state (i + 1))
  pause : ∀ i, label i = none → state (i + 1) = state i

/-- Some step of the thread can be taken. -/
def Enabled (M : Lts σ ε) (owner : ε → Option θ) (thread : θ) (s : σ) : Prop :=
  ∃ e s', owner e = some thread ∧ M.step s e s'

namespace Exec

/-- The labels of the first `i` steps. -/
def trace (x : M.Exec) : Nat → List ε
  | 0 => []
  | i + 1 => x.trace i ++ (x.label i).toList

/-- Step `i` is the thread's. -/
def Moves (x : M.Exec) (owner : ε → Option θ) (thread : θ) (i : Nat) : Prop :=
  ∃ e, x.label i = some e ∧ owner e = some thread

/-- Weak fairness: again and again the thread moves or cannot. -/
def Fair (x : M.Exec) (owner : ε → Option θ) (thread : θ) : Prop :=
  ∀ i, ∃ j, i ≤ j ∧ (x.Moves owner thread j ∨ ¬ M.Enabled owner thread (x.state j))

theorem run (x : M.Exec) (i : Nat) : M.Run (x.trace i) (x.state i) := by
  induction i with
  | zero => exact .nil x.init
  | succ i ih =>
    rw [trace]
    cases h : x.label i with
    | none =>
      rw [x.pause i h]
      simpa using ih
    | some e => exact ih.snoc (x.step i e h)

theorem label_of_mem_trace (x : M.Exec) {i : Nat} {e : ε} (h : e ∈ x.trace i) :
    ∃ j, x.label j = some e := by
  induction i with
  | zero => cases h
  | succ i ih =>
    rw [trace, List.mem_append] at h
    rcases h with h | h
    · exact ih h
    · exact ⟨i, by simpa using h⟩

/-- The states of a system that follows every step of `M` whose label `p` picks. -/
theorem simulate {N : Lts τ ε'} {p : ε → Option ε'} {R : σ → τ → Prop}
    (h0 : ∀ s, M.init s → ∃ t, N.init t ∧ R s t)
    (hs : ∀ s t e s', R s t → M.step s e s' →
      match p e with
      | some e' => ∃ t', N.step t e' t' ∧ R s' t'
      | none => R s' t) (x : M.Exec) :
    ∃ y : Nat → τ, N.init (y 0) ∧ ∀ i, R (x.state i) (y i) ∧
      match (x.label i).bind p with
      | some e' => N.step (y i) e' (y (i + 1))
      | none => y (i + 1) = y i := by
  -- the states so far decide the next one
  have hnext (i : Nat) (t : τ) (hR : R (x.state i) t) : ∃ t', R (x.state (i + 1)) t' ∧
      match (x.label i).bind p with
      | some e' => N.step t e' t'
      | none => t' = t := by
    cases hl : x.label i with
    | none => exact ⟨t, by rwa [x.pause i hl], rfl⟩
    | some e =>
      have hstep := hs _ _ _ _ hR (x.step i e hl)
      rw [Option.bind_some]
      cases hp : p e with
      | none =>
        rw [hp] at hstep
        exact ⟨t, hstep, rfl⟩
      | some e' =>
        rw [hp] at hstep
        obtain ⟨t', hst, hR'⟩ := hstep
        exact ⟨t', hR', hst⟩
  choose next hR hlink using hnext
  obtain ⟨t0, hinit, hR0⟩ := h0 _ x.init
  let y : (i : Nat) → { t // R (x.state i) t } :=
    fun i => Nat.rec ⟨t0, hR0⟩ (fun i t => ⟨next i t.1 t.2, hR i t.1 t.2⟩) i
  exact ⟨fun i => (y i).1, hinit, fun i => ⟨(y i).2, hlink i _ _⟩⟩

section
variable {ρ : Type*} [Preorder ρ] [WellFoundedLT ρ] {owner : ε → Option θ}

/-- Progress: from where `P` holds `Q` is reached, if on the way there is always an enabled thread
whose step lowers the rank, and the steps of the others do not raise it or change that thread. -/
theorem leadsTo (x : M.Exec) {P Q : Nat → Prop} (rank : Nat → ρ) (helper : Nat → θ)
    (hfair : ∀ i, P i → x.Fair owner (helper i))
    (henabled : ∀ i, P i → M.Enabled owner (helper i) (x.state i))
    (hstep : ∀ i, P i → Q (i + 1) ∨ P (i + 1) ∧
      (rank (i + 1) < rank i ∨
        rank (i + 1) = rank i ∧ helper (i + 1) = helper i ∧ ¬ x.Moves owner (helper i) i))
    {i : Nat} (hP : P i) : ∃ j, i < j ∧ Q j := by
  induction hr : rank i using WellFoundedLT.induction generalizing i with
  | ind r ih =>
    subst hr
    by_contra hnone
    -- until the helper moves it stays the helper, and the rank stays
    have hkeep : ∀ k, P (i + k) ∧ rank (i + k) = rank i ∧ helper (i + k) = helper i ∧
        ∀ k' < k, ¬ x.Moves owner (helper i) (i + k') := by
      intro k
      induction k with
      | zero => exact ⟨hP, rfl, rfl, fun k' hk' => absurd hk' (Nat.not_lt_zero _)⟩
      | succ k ihk =>
        obtain ⟨hPk, hrank, hhelper, hquiet⟩ := ihk
        rcases hstep _ hPk with hQ | ⟨hPk', hlt | ⟨heq, hsame, hmoves⟩⟩
        · exact absurd ⟨_, by omega, hQ⟩ hnone
        · rw [hrank] at hlt
          obtain ⟨j, hj, hQ⟩ := ih _ hlt hPk' rfl
          exact absurd ⟨j, by omega, hQ⟩ hnone
        · refine ⟨hPk', heq.trans hrank, hsame.trans hhelper, fun k' hk' => ?_⟩
          rcases Nat.lt_succ_iff_lt_or_eq.1 hk' with hlt | rfl
          · exact hquiet k' hlt
          · rwa [hhelper] at hmoves
    obtain ⟨j, hj, hmoves⟩ := hfair i hP i
    obtain ⟨k, rfl⟩ := Nat.exists_eq_add_of_le hj
    obtain ⟨hPk, -, hhelper, -⟩ := hkeep k
    rcases hmoves with hmoves | hstuck
    · exact (hkeep (k + 1)).2.2.2 k (Nat.lt_succ_self k) hmoves
    · exact hstuck (hhelper ▸ henabled _ hPk)

end

/-! ## Executions of systems given by a function -/

section
variable {α : Type*} {s0 : σ} {next : σ → α → Option (ε × σ)}

/-- The states along a sequence of actions; an action that cannot be taken is a pause. -/
def statesOf (next : σ → α → Option (ε × σ)) (s0 : σ) (act : Nat → α) : Nat → σ
  | 0 => s0
  | i + 1 => ((next (statesOf next s0 act i) (act i)).map Prod.snd).getD (statesOf next s0 act i)

/-- From where the same action is tried again and again. -/
theorem statesOf_add {act : Nat → α} {n : Nat} {a : α} (h : ∀ i, n ≤ i → act i = a) (k : Nat) :
    statesOf next s0 act (n + k) =
      (fun s => ((next s a).map Prod.snd).getD s)^[k] (statesOf next s0 act n) := by
  induction k with
  | zero => rfl
  | succ k ih =>
    rw [Function.iterate_succ_apply', ← ih, ← h (n + k) (Nat.le_add_right n k)]
    rfl

def ofActions (next : σ → α → Option (ε × σ)) (s0 : σ) (act : Nat → α) :
    (ofNext s0 next).Exec where
  state := statesOf next s0 act
  label i := (next (statesOf next s0 act i) (act i)).map Prod.fst
  init := rfl
  step i e h := by
    obtain ⟨⟨e', s'⟩, hnext, rfl⟩ := Option.map_eq_some_iff.1 h
    exact ⟨act i, by rw [statesOf, hnext]; rfl⟩
  pause i h := by
    rw [statesOf, Option.map_eq_none_iff.1 h]
    rfl

end

end Exec

end Lts
