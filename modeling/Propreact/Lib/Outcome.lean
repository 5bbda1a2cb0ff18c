import Mathlib.Tactic.TypeStar

/-!
# Outcomes of a call

`Outcome α`: what a call into a shared component does to the thread that makes it. It returns a
value, or it blocks (a held mutex, a condition that is not raised), or it aborts the process (a
failed assertion). Calls are sequenced in the `Outcome` monad.
-/

/-- What a call does when its thread is scheduled. -/
inductive Outcome (α : Type*) where
  | ret (a : α)
  | blocks
  | aborts
  deriving Repr, DecidableEq

namespace Outcome

universe u
variable {α β : Type u}

/-- Sequencing: a call that does not return hides the calls after it. -/
def bind (x : Outcome α) (f : α → Outcome β) : Outcome β :=
  match x with
  | .ret a => f a
  | .blocks => .blocks
  | .aborts => .aborts

instance : Monad Outcome where
  pure := .ret
  bind := Outcome.bind

@[simp] theorem pure_eq_ret (a : α) : (pure a : Outcome α) = .ret a := rfl
@[simp] theorem ret_bind (a : α) (f : α → Outcome β) : (.ret a >>= f) = f a := rfl
@[simp] theorem blocks_bind (f : α → Outcome β) : (.blocks >>= f) = .blocks := rfl
@[simp] theorem aborts_bind (f : α → Outcome β) : (.aborts >>= f) = .aborts := rfl

end Outcome
