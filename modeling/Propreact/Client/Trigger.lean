import Propreact.Lib.Outcome
import Propreact.Common.Types

/-!
# The trigger between the interposer and the predictor

`Trigger` (`Trigger.cpp`): two flags, each with its mutex and condition variable, and the grid of
the launch. A call of `Wait` or `Notify` runs under the flag's mutex and is one atomic step;
`WriteData` and `ReadData` take no lock.
-/

namespace Propreact

structure Trigger where
  ready1 : Bool
  ready2 : Bool
  grid : Grid
  deriving Repr, DecidableEq

namespace Trigger

/-- A trigger with both flags lowered (the constructor does not set them). -/
def new : Trigger := ⟨false, false, .unit⟩

/-- `Trigger::Wait`: blocks until the flag is raised, then lowers it. -/
def wait (idx : Nat) (tr : Trigger) : Outcome Trigger :=
  if idx = 1 then
    if tr.ready1 then .ret { tr with ready1 := false } else .blocks
  else if idx = 2 then
    if tr.ready2 then .ret { tr with ready2 := false } else .blocks
  else .aborts

/-- `Trigger::Notify`. -/
def notify (idx : Nat) (tr : Trigger) : Outcome Trigger :=
  if idx = 1 then .ret { tr with ready1 := true }
  else if idx = 2 then .ret { tr with ready2 := true }
  else .aborts

/-- `Trigger::ReadData`. -/
def readData (tr : Trigger) : Grid := tr.grid

/-- `Trigger::WriteData`. -/
def writeData (g : Grid) (tr : Trigger) : Trigger := { tr with grid := g }

end Trigger

end Propreact
