import Mathlib.Logic.Function.Basic
import Propreact.Lib.Lts
import Propreact.Lib.Outcome

/-!
# Calls of several threads on a shared object

Threads `θ` call operations `κ` of an object `α`. A call takes effect at one moment between its
invocation and its return: `exec c a` is what the call `c` does to the object `a` then. A call that
blocks waits for a later moment, one that aborts ends the process. `ext` are the changes that
others make to the object. This is what an implementation in smaller steps has to refine.
-/

namespace Calls

variable {κ ρ θ α : Type*}

/-- Where a thread is with its call. -/
inductive Status (κ ρ : Type*) where
  | outside
  | called (c : κ)
  /-- The call has taken effect. -/
  | done (c : κ) (r : ρ)

structure State (κ ρ θ α : Type*) where
  obj : α
  status : θ → Status κ ρ
  aborted : Bool

inductive Event (κ ρ θ : Type*) where
  | invoked (t : θ) (c : κ)
  /-- The call takes effect. -/
  | took (t : θ) (c : κ) (r : ρ)
  | returned (t : θ) (c : κ) (r : ρ)
  | aborted (t : θ) (c : κ)
  | other

/-- Not a step of a call that is under way. -/
def Event.IsNew : Event κ ρ θ → Prop
  | .invoked _ _ => True
  | .other => True
  | _ => False

section
variable [DecidableEq θ]

def State.setStatus (s : State κ ρ θ α) (t : θ) (st : Status κ ρ) : State κ ρ θ α :=
  { s with status := Function.update s.status t st }

inductive Step (exec : κ → α → Outcome (ρ × α)) (ext : α → α → Prop) :
    State κ ρ θ α → Event κ ρ θ → State κ ρ θ α → Prop
  | invoke {s : State κ ρ θ α} {t : θ} (c : κ) :
    s.status t = .outside → Step exec ext s (.invoked t c) (s.setStatus t (.called c))
  | take {s : State κ ρ θ α} {t : θ} {c : κ} {r : ρ} {obj : α} :
    s.status t = .called c → exec c s.obj = .ret (r, obj) →
    Step exec ext s (.took t c r) { s.setStatus t (.done c r) with obj }
  | abort {s : State κ ρ θ α} {t : θ} {c : κ} :
    s.status t = .called c → exec c s.obj = .aborts →
    Step exec ext s (.aborted t c) { s with aborted := true }
  | leave {s : State κ ρ θ α} {t : θ} {c : κ} {r : ρ} :
    s.status t = .done c r → Step exec ext s (.returned t c r) (s.setStatus t .outside)
  | other {s : State κ ρ θ α} {obj : α} :
    ext s.obj obj → Step exec ext s .other { s with obj }

/-- All interleavings of calls on the object `obj`. -/
def lts (exec : κ → α → Outcome (ρ × α)) (ext : α → α → Prop) (obj : α) :
    Lts (State κ ρ θ α) (Event κ ρ θ) where
  init s := s = ⟨obj, fun _ => .outside, false⟩
  step s e s' := s.aborted = false ∧ Step exec ext s e s'

end

end Calls
