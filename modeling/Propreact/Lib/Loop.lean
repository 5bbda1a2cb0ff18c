import Mathlib.Order.Basic

/-!
# Bounded loops

`Loop.run stuck body fuel s`: a `while` loop whose body goes round again (`.inl`), leaves the loop
with a result (`.inr`), or fails. Running out of fuel is the failure `stuck`; the rule takes a
measure that every turn decreases, so that it does not happen when the fuel is above the measure.
By `run_eq` a loop computes an answer that each of its turns agrees with.
-/

namespace Loop

section
variable {ε α β : Type}

@[simp] theorem ok_bind (a : α) (f : α → Except ε β) : (Except.ok a >>= f) = f a := rfl

@[simp] theorem error_bind (e : ε) (f : α → Except ε β) : (Except.error e >>= f) = .error e := rfl

@[simp] theorem pure_eq_ok (a : α) : (pure a : Except ε α) = .ok a := rfl

theorem bind_eq_ok {x : Except ε α} {f : α → Except ε β} {b : β} :
    (x >>= f) = .ok b ↔ ∃ a, x = .ok a ∧ f a = .ok b := by
  cases x <;> simp

theorem map_eq_ok {x : Except ε α} {f : α → β} {b : β} :
    f <$> x = .ok b ↔ ∃ a, x = .ok a ∧ f a = b := by
  cases x <;> simp

end

variable {σ ε β : Type*} {stuck : ε} {body : σ → Except ε (σ ⊕ β)}

def run (stuck : ε) (body : σ → Except ε (σ ⊕ β)) : Nat → σ → Except ε β
  | 0, _ => .error stuck
  | fuel + 1, s =>
    match body s with
    | .error e => .error e
    | .ok (.inl s) => run stuck body fuel s
    | .ok (.inr b) => .ok b

/-- A turn from `s`, compared with the answer `spec` the loop is to give: the turn gives it, or
it ends in a smaller state with the same answer. -/
def Turn (body : σ → Except ε (σ ⊕ β)) (spec : σ → Except ε β) (inv : σ → Prop) (measure : σ → Nat)
    (s : σ) : Prop :=
  match body s with
  | .error e => spec s = .error e
  | .ok (.inr b) => spec s = .ok b
  | .ok (.inl s') => spec s = spec s' ∧ inv s' ∧ measure s' < measure s

section
variable {spec : σ → Except ε β} {inv : σ → Prop} {measure : σ → Nat} {s : σ}

theorem turn_fail (e : ε) (h : body s = .error e) (hs : spec s = .error e) :
    Turn body spec inv measure s := by
  rw [Turn, h]
  exact hs

theorem turn_leave (b : β) (h : body s = .ok (.inr b)) (hs : spec s = .ok b) :
    Turn body spec inv measure s := by
  rw [Turn, h]
  exact hs

theorem turn_next (s' : σ) (h : body s = .ok (.inl s')) (hs : spec s = spec s') (hi : inv s')
    (hm : measure s' < measure s) : Turn body spec inv measure s := by
  rw [Turn, h]
  exact ⟨hs, hi, hm⟩

end

/-- A loop computes `spec` if every turn agrees with it. -/
theorem run_eq (spec : σ → Except ε β) (inv : σ → Prop) (measure : σ → Nat)
    (h : ∀ s, inv s → Turn body spec inv measure s) :
    ∀ fuel s, inv s → measure s < fuel → run stuck body fuel s = spec s
  | 0, s, _, hm => absurd hm (Nat.not_lt_zero _)
  | fuel + 1, s, hs, hm => by
    have ht := h s hs
    unfold Turn at ht
    unfold run
    split at ht <;> rename_i heq <;> rw [heq]
    · exact ht.symm
    · exact ht.symm
    · obtain ⟨hspec, hinv, hlt⟩ := ht
      rw [hspec]
      exact run_eq spec inv measure h fuel _ hinv (by omega)

end Loop
