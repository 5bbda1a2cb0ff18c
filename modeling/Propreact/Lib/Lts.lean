import Mathlib.Data.List.DropRight

/-!
# Labelled transition systems

`Lts σ ε`: states `σ`, labels `ε`. `M.Run tr s`: some run from an initial state with labels `tr`
(oldest first) ends in `s`. The rules proofs use:

* `Run.inv`, `Run.trace_inv`: an invariant (of the state, or of the trace and the state) that
  holds initially and is kept by every step holds after every run;
* `Run.simulate`: a system that follows every step runs along every trace (an abstraction of the
  system, or one of its components);
* `Run.realize`: a system that carries out every step of another has a run for each of its traces;
* `run_schedule`, `Run.exists_schedule`: the runs of a system given by a function are those of its
  schedules, taken apart by `schedule_cons`.
-/

structure Lts (σ ε : Type*) where
  init : σ → Prop
  step : σ → ε → σ → Prop

namespace Lts

variable {σ ε τ ε' : Type*} {M : Lts σ ε}

inductive Run (M : Lts σ ε) : List ε → σ → Prop
  | nil {s : σ} : M.init s → Run M [] s
  | snoc {tr : List ε} {s s' : σ} {e : ε} : Run M tr s → M.step s e s' → Run M (tr ++ [e]) s'

/-- The last step of a run. -/
theorem run_concat {tr : List ε} {e : ε} {s' : σ} :
    M.Run (tr ++ [e]) s' ↔ ∃ s, M.Run tr s ∧ M.step s e s' := by
  refine ⟨fun h => ?_, fun ⟨s, h, hs⟩ => .snoc h hs⟩
  generalize ht : tr ++ [e] = tr' at h
  cases h with
  | nil => simp at ht
  | snoc h hs =>
    obtain ⟨rfl, he⟩ := List.append_inj' ht rfl
    cases he
    exact ⟨_, h, hs⟩

theorem Run.inv {I : σ → Prop} (h0 : ∀ s, M.init s → I s)
    (hs : ∀ s e s', I s → M.step s e s' → I s') {tr : List ε} {s : σ} (h : M.Run tr s) : I s := by
  induction h with
  | nil hi => exact h0 _ hi
  | snoc _ hst ih => exact hs _ _ _ ih hst

theorem Run.trace_inv {I : List ε → σ → Prop} (h0 : ∀ s, M.init s → I [] s)
    (hs : ∀ tr s e s', M.Run tr s → I tr s → M.step s e s' → I (tr ++ [e]) s') {tr : List ε} {s : σ}
    (h : M.Run tr s) : I tr s := by
  induction h with
  | nil hi => exact h0 _ hi
  | snoc hr hst ih => exact hs _ _ _ _ hr ih hst

/-- A prefix of a trace is a trace. -/
theorem Run.of_append {tr tr' : List ε} {s : σ} (h : M.Run (tr ++ tr') s) : ∃ s', M.Run tr s' := by
  induction tr' using List.reverseRecOn generalizing s with
  | nil => exact ⟨s, by simpa using h⟩
  | append_singleton tr' e ih =>
    rw [← List.append_assoc, run_concat] at h
    obtain ⟨s1, h1, -⟩ := h
    exact ih h1

/-- Forward simulation: if `N` follows, through the relation `R`, every step of `M` whose label `p`
picks, and stays where it is on the others, then it runs along the picked labels of every trace. -/
theorem Run.simulate {N : Lts τ ε'} {p : ε → Option ε'} {R : σ → τ → Prop}
    (h0 : ∀ s, M.init s → ∃ t, N.init t ∧ R s t)
    (hs : ∀ s t e s', R s t → M.step s e s' →
      match p e with
      | some e' => ∃ t', N.step t e' t' ∧ R s' t'
      | none => R s' t)
    {tr : List ε} {s : σ} (h : M.Run tr s) : ∃ t, N.Run (tr.filterMap p) t ∧ R s t := by
  induction h with
  | nil hi =>
    obtain ⟨t, ht, hR⟩ := h0 _ hi
    exact ⟨t, .nil ht, hR⟩
  | @snoc tr s s' e _ hst ih =>
    obtain ⟨t, ht, hR⟩ := ih
    have := hs _ _ _ _ hR hst
    cases hp : p e with
    | none =>
      rw [hp] at this
      exact ⟨t, by simpa [hp] using ht, this⟩
    | some e' =>
      rw [hp] at this
      obtain ⟨t', hst', hR'⟩ := this
      exact ⟨t', by simpa [hp] using Run.snoc ht hst', hR'⟩

/-- Realization: if `M`, wherever a run has brought it, carries out every step of `N` in steps of
its own of which `p` shows exactly that one, then it has a run that shows any trace of `N`. -/
theorem Run.realize {N : Lts τ ε'} {p : ε → Option ε'} {R : σ → τ → Prop}
    (h0 : ∀ t, N.init t → ∃ s, M.init s ∧ R s t)
    (hs : ∀ tr s t e t', M.Run tr s → R s t → N.step t e t' →
      ∃ tr' s', M.Run (tr ++ tr') s' ∧ tr'.filterMap p = [e] ∧ R s' t')
    {es : List ε'} {t : τ} (h : N.Run es t) : ∃ tr s, M.Run tr s ∧ tr.filterMap p = es ∧ R s t := by
  induction h with
  | nil hi =>
    obtain ⟨s, hs0, hR⟩ := h0 _ hi
    exact ⟨[], s, .nil hs0, rfl, hR⟩
  | @snoc es t t' e _ hst ih =>
    obtain ⟨tr, s, hrun, hes, hR⟩ := ih
    obtain ⟨tr', s', hrun', he, hR'⟩ := hs _ _ _ _ _ hrun hR hst
    exact ⟨tr ++ tr', s', hrun', by rw [List.filterMap_append, hes, he], hR'⟩

/-! ## Systems given by a function -/

section
variable {α : Type*} {s0 : σ} {next : σ → α → Option (ε × σ)}

/-- One initial state; a step is an action that `next` allows. -/
def ofNext (s0 : σ) (next : σ → α → Option (ε × σ)) : Lts σ ε where
  init s := s = s0
  step s e s' := ∃ a, next s a = some (e, s')

/-- The run of a schedule, if every action of it can be taken. -/
def schedule (next : σ → α → Option (ε × σ)) (s : σ) : List α → Option (List ε × σ)
  | [] => some ([], s)
  | a :: as => do
    let (e, s) ← next s a
    let (tr, s) ← schedule next s as
    return (e :: tr, s)

/-- The first action of a schedule, and the rest. -/
theorem schedule_cons {a : α} {as : List α} {tr : List ε} {s s' : σ} :
    schedule next s (a :: as) = some (tr, s') ↔
      ∃ e s1 tr1, next s a = some (e, s1) ∧ schedule next s1 as = some (tr1, s') ∧
        tr = e :: tr1 := by
  simp only [schedule, Option.bind_eq_bind, Option.bind_eq_some_iff, Prod.exists]
  constructor
  · rintro ⟨e, s1, ha, tr1, s2, has, heq⟩
    cases heq
    exact ⟨e, s1, tr1, ha, has, rfl⟩
  · rintro ⟨e, s1, tr1, ha, has, rfl⟩
    exact ⟨e, s1, ha, tr1, s', has, rfl⟩

theorem schedule_sound : ∀ {as : List α} {tr es : List ε} {s s' : σ}, (ofNext s0 next).Run tr s →
    schedule next s as = some (es, s') → (ofNext s0 next).Run (tr ++ es) s'
  | [], tr, es, s, s', h, hr => by
    cases hr
    simpa using h
  | a :: as, tr, es, s, s', h, hr => by
    obtain ⟨e, s1, tr1, ha, has, rfl⟩ := schedule_cons.1 hr
    simpa using schedule_sound (h.snoc ⟨a, ha⟩) has

/-- A schedule from the initial state is a run. -/
theorem run_schedule (s0 : σ) (next : σ → α → Option (ε × σ)) (as : List α) {tr : List ε} {s : σ}
    (h : schedule next s0 as = some (tr, s)) : (ofNext s0 next).Run tr s :=
  schedule_sound (.nil rfl) h

/-- One more action at the end of a schedule. -/
theorem schedule_snoc {a : α} {e : ε} {s' s2 : σ} (ha : next s' a = some (e, s2)) :
    ∀ {as : List α} {tr : List ε} {s : σ}, schedule next s as = some (tr, s') →
      schedule next s (as ++ [a]) = some (tr ++ [e], s2)
  | [], tr, s, h => by
    cases h
    simp [schedule, ha]
  | b :: as, tr, s, h => by
    obtain ⟨e1, s1, tr1, hb, has, rfl⟩ := schedule_cons.1 h
    exact schedule_cons.2 ⟨e1, s1, _, hb, schedule_snoc ha has, rfl⟩

/-- Every run takes the actions of some schedule. -/
theorem Run.exists_schedule {tr : List ε} {s : σ} (h : (ofNext s0 next).Run tr s) :
    ∃ as, schedule next s0 as = some (tr, s) := by
  induction h with
  | nil hinit =>
    cases hinit
    exact ⟨[], rfl⟩
  | snoc _ hs ih =>
    obtain ⟨as, has⟩ := ih
    obtain ⟨a, ha⟩ := hs
    exact ⟨as ++ [a], schedule_snoc ha has⟩

end

end Lts
