import Propreact.Backend.System

/-!
# What a thread makes of a message

The calls that an `InterposerBackend` thread makes on the request pool and the global window while
it works on a message, and the words of the message it reads for them.
-/

namespace Propreact.Backend

/-- A call of `InterposerBackend::process`. -/
inductive Call where
  | update (p : TenantId × ExperimentalKey)
  | window (op : GlobalWindow.Op)
  deriving Repr, DecidableEq

/-- The call of `record`. -/
def recordOp (t : TenantId) (pkt : Packet) (i : Nat) : GlobalWindow.Op :=
  if t = 0 then .updateIdle (pkt.word (2+3*i)) (pkt.word (3*i+3)) (pkt.word (3*i+4)) t
  else .updateActive (pkt.word (2+3*i)) (pkt.word (3*i+3)) (pkt.word (3*i+4)) t

/-- The call that the thread makes with its next step, if any. -/
def nextCall (t : TenantId) : InterposerBackend.Pc → Option Call
  | .updating pkt => some (.update (t, pkt.word 1))
  | .recording pkt i =>
    if i < pkt.numRecords.toNat then some (.window (recordOp t pkt i)) else none
  | _ => none

/-- The words of the message that the thread reads with its next step. -/
def wordsRead : InterposerBackend.Pc → List Nat
  | .updating _ => [1]
  | .recording pkt i =>
    if i < pkt.numRecords.toNat then [0, 2 + 3 * i, 3 * i + 3, 3 * i + 4] else [0]
  | _ => []

/-- What becomes of the pool and the window. -/
def Call.exec (s : Backend) : Call → Outcome (RequestPool × GlobalWindow)
  | .update p => do return (← s.pool.update p, s.gwin)
  | .window op => do return (s.pool, ← s.gwin.exec op)

/-- The calls that an action makes for tenant `t`'s thread. -/
def made (t : TenantId) (s : Backend) : Action → List Call
  | .tenant u => if u = t then (nextCall t (s.tenants t).pc).toList else []
  | _ => []

/-- The calls that tenant `t`'s thread makes along a schedule. -/
def madeAlong (t : TenantId) (s : Backend) : List Action → List Call
  | [] => []
  | a :: as =>
    match s.next a with
    | some (_, s') => made t s a ++ madeAlong t s' as
    | none => []

/-- The calls that a message asks for. -/
def parsed (t : TenantId) (pkt : Packet) : List Call :=
  .update (t, pkt.word 1) ::
    (List.range pkt.numRecords.toNat).map fun i => .window (recordOp t pkt i)

/-! ## Messages that have arrived -/

/-- The calls for the message a thread works on that it has not made. -/
def callsLeft (t : TenantId) : InterposerBackend.Pc → List Call
  | .updating pkt => parsed t pkt
  | .recording pkt i => (parsed t pkt).drop (i + 1)
  | _ => []

/-- The calls that a thread has still to make for the messages that have arrived. -/
def unmade (t : TenantId) (b : InterposerBackend) : List Call :=
  callsLeft t b.pc ++ b.requests.flatMap (parsed t)

/-- What an action asks tenant `t`'s thread for. -/
def asked (t : TenantId) : Action → List Call
  | .queue u pkt => if u = t then parsed t pkt else []
  | _ => []

/-- The calls on the window. -/
def windowOps (cs : List Call) : List GlobalWindow.Op :=
  cs.filterMap fun
    | .update _ => none
    | .window op => some op

end Propreact.Backend
