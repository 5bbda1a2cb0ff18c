import Propreact.Lib.Outcome
import Propreact.Lib.PriorityQueue
import Propreact.Common.Types
import Std.Data.TreeMap

/-!
# The global window

`GlobalWindow` (`GlobalWindow.cpp`): the record buffer between the profiler and the predictor, and
for each tenant the tables of observed (active, idle) pairs. `m_mutex` is part of the state:
`lock` blocks while it is held, and each operation returns with the mutex as the source leaves it
on the path taken. The `int` counters of `produce` are natural numbers: batches are far shorter
than `2 ^ 31` records.
-/

namespace Propreact

/-- `(active, idle)`. -/
abbrev ActiveIdlePair := ULong × ULong

/-- `CompareIdleMin::operator()`. -/
def compareIdleMin (n1 n2 : ActiveIdlePair) : Bool := n1.2 < n2.2

/-- `CompareActiveMax::operator()`: the source compares `n1` with itself. -/
def compareActiveMax (n1 _n2 : ActiveIdlePair) : Bool := n1.1 > n1.1

abbrev IdleMinQueue := PriorityQueue ActiveIdlePair compareIdleMin
abbrev ActiveMaxQueue := PriorityQueue ActiveIdlePair compareActiveMax
abbrev IdleMap := Std.TreeMap ULong IdleMinQueue
abbrev ActiveMap := Std.TreeMap ULong ActiveMaxQueue

structure GlobalWindow where
  recs : RecordVec
  /-- `m_mutex` is held. -/
  mutex : Bool
  stale : Bool
  tenantsIdleMapVector : TenantId → IdleMap
  tenantsActiveMapVector : TenantId → ActiveMap

namespace GlobalWindow

/-- `GlobalWindow::GlobalWindow()`: every tenant starts with a dummy pair under key 0. -/
def new : GlobalWindow where
  recs := []
  mutex := false
  stale := true
  tenantsIdleMapVector _ := (∅ : IdleMap).insertIfNew 0 (PriorityQueue.empty.push (0, 0))
  tenantsActiveMapVector _ := (∅ : ActiveMap).insertIfNew 0 (PriorityQueue.empty.push (0, 0))

/-- `m_mutex.lock()`. -/
def lock (gw : GlobalWindow) : Outcome GlobalWindow :=
  if gw.mutex then .blocks else .ret { gw with mutex := true }

/-- `m_mutex.unlock()`. -/
def unlock (gw : GlobalWindow) : GlobalWindow := { gw with mutex := false }

/-- `m_recs[idx] = r[idx]`. -/
def copyAt (r recs : RecordVec) (idx : Nat) : RecordVec :=
  match r[idx]? with
  | some x => recs.set idx x
  | none => recs

/-- `m_recs.push_back(r[idx])`. -/
def pushAt (r recs : RecordVec) (idx : Nat) : RecordVec := recs ++ r[idx]?.toList

/-- The body of `produce` under the lock: overwrite in place, then grow or shrink. -/
def overwrite (recs r : RecordVec) : RecordVec :=
  if r.length > recs.length then
    let copied := (List.range recs.length).foldl (copyAt r) recs
    (List.range' recs.length (r.length - recs.length)).foldl (pushAt r) copied
  else
    let copied := (List.range r.length).foldl (copyAt r) recs
    (List.range' r.length (recs.length - r.length)).foldl (fun recs _ => recs.dropLast) copied

/-- `GlobalWindow::produce`. -/
def produce (r : RecordVec) (gw : GlobalWindow) : Outcome GlobalWindow := do
  let gw ← gw.lock
  return { gw with recs := overwrite gw.recs r, stale := false }.unlock

/-- `GlobalWindow::consume`. -/
def consume (gw : GlobalWindow) : Outcome (RecordVec × GlobalWindow) := do
  let gw ← gw.lock
  if !gw.stale then
    return (gw.recs, { gw with stale := true }.unlock)
  else
    return ([], gw.unlock)

/-- `GlobalWindow::update_idle`: works without the mutex. -/
def updateIdle (k va vi : ULong) (t : TenantId) (gw : GlobalWindow) : Outcome GlobalWindow :=
  let searchm := gw.tenantsIdleMapVector t
  match searchm[k]? with
  | none =>
    let minq : IdleMinQueue := PriorityQueue.empty.push (va, vi)
    return { gw with
      tenantsIdleMapVector :=
        Function.update gw.tenantsIdleMapVector t
          ((gw.tenantsIdleMapVector t).insertIfNew k minq) }
  | some q =>
    let minq := q.push (va, vi)
    return { gw with
      tenantsIdleMapVector :=
        Function.update gw.tenantsIdleMapVector t
          (((gw.tenantsIdleMapVector t).erase k).insertIfNew k minq) }

/-- `GlobalWindow::update_active`. -/
def updateActive (k va vi : ULong) (t : TenantId) (gw : GlobalWindow) : Outcome GlobalWindow := do
  let gw ← gw.lock
  let searchm := gw.tenantsActiveMapVector t
  match searchm[k]? with
  | none =>
    -- the early return of the source: `m_mutex` is still held
    let maxq : ActiveMaxQueue := PriorityQueue.empty.push (va, vi)
    return { gw with
      tenantsActiveMapVector :=
        Function.update gw.tenantsActiveMapVector t
          ((gw.tenantsActiveMapVector t).insertIfNew k maxq) }
  | some q =>
    let maxq := q.push (va, vi)
    return { gw with
      tenantsActiveMapVector :=
        Function.update gw.tenantsActiveMapVector t
          (((gw.tenantsActiveMapVector t).erase k).insertIfNew k maxq) }.unlock

/-- `GlobalWindow::retrieve_idle`: the lookup's result is not used. -/
def retrieveIdle (t : TenantId) (k : ULong) (gw : GlobalWindow) :
    Outcome (ULong × GlobalWindow) := do
  let gw ← gw.lock
  let _searchmq := (gw.tenantsIdleMapVector t)[k]?
  return (0, gw.unlock)

/-- `GlobalWindow::retrieve_active`: the lookup's result is not used. -/
def retrieveActive (t : TenantId) (k : ULong) (gw : GlobalWindow) :
    Outcome (ULong × GlobalWindow) := do
  let gw ← gw.lock
  let _searchmq := (gw.tenantsActiveMapVector t)[k]?
  return (0, gw.unlock)

/-- A call of one of the six operations. -/
inductive Op where
  | produce (r : RecordVec)
  | consume
  | updateIdle (k va vi : ULong) (t : TenantId)
  | updateActive (k va vi : ULong) (t : TenantId)
  | retrieveIdle (t : TenantId) (k : ULong)
  | retrieveActive (t : TenantId) (k : ULong)
  deriving Repr, DecidableEq

/-- Run a call for its effect on the window. -/
def exec : Op → GlobalWindow → Outcome GlobalWindow
  | .produce r, gw => gw.produce r
  | .consume, gw => do return (← gw.consume).2
  | .updateIdle k va vi t, gw => gw.updateIdle k va vi t
  | .updateActive k va vi t, gw => gw.updateActive k va vi t
  | .retrieveIdle t k, gw => do return (← gw.retrieveIdle t k).2
  | .retrieveActive t k, gw => do return (← gw.retrieveActive t k).2

end GlobalWindow

end Propreact
