import Propreact.Client.Trigger
import Propreact.Lib.Monitor

/-!
# The trigger's mutexes

`Trigger::Wait` and `Trigger::Notify` (`Trigger.cpp`) in the steps their threads take: each flag
has its mutex and condition variable (`m_lock_1`, `m_notify_1`; `m_lock_2`, `m_notify_2`).
`WriteData` takes no lock.
-/

namespace Propreact.Trigger

/-- The two legal indices. -/
inductive Flag where
  | one
  | two
  deriving Repr, DecidableEq

def Flag.idx : Flag → Nat
  | .one => 1
  | .two => 2

inductive Call where
  | wait (f : Flag)
  | notify (f : Flag)
  deriving Repr, DecidableEq

/-- Each call as one step. -/
def exec (c : Call) (tr : Trigger) : Outcome (Unit × Trigger) :=
  match c with
  | .wait f => return ((), ← tr.wait f.idx)
  | .notify f => return ((), ← tr.notify f.idx)

/-- `m_ready_1` or `m_ready_2`. -/
def ready (tr : Trigger) : Flag → Bool
  | .one => tr.ready1
  | .two => tr.ready2

def setReady (tr : Trigger) (f : Flag) (b : Bool) : Trigger :=
  match f with
  | .one => { tr with ready1 := b }
  | .two => { tr with ready2 := b }

def Call.flag : Call → Flag
  | .wait f => f
  | .notify f => f

def Call.test (c : Call) (tr : Trigger) : Outcome Unit :=
  match c with
  | .wait f => if tr.ready f then .ret () else .blocks
  | .notify _ => .ret ()

def Call.write (c : Call) (tr : Trigger) : Trigger :=
  match c with
  | .wait f => tr.setReady f false
  | .notify f => tr.setReady f true

/-- `Notify` ends with `notify_one()`. -/
def Call.notifies : Call → Bool
  | .wait _ => false
  | .notify _ => true

/-- Each flag has its own mutex; a grid is written at any time. -/
def monitor : Monitor Call Unit Flag Trigger where
  mutex := Call.flag
  test := Call.test
  write := Call.write
  notifies := Call.notifies
  ext tr tr' := ∃ g, tr' = tr.writeData g

end Propreact.Trigger
