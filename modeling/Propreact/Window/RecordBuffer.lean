import Propreact.Lib.Critical
import Propreact.Window.GlobalWindow

/-!
# The record buffer's loops

`GlobalWindow::produce` and `GlobalWindow::consume` (`GlobalWindow.cpp`) in the turns their threads
take under `m_mutex`: one test, one record or one flag at a time.
-/

namespace Propreact.GlobalWindow

inductive BufferCall where
  | produce (r : RecordVec)
  | consume
  deriving Repr, DecidableEq

/-- Each call as one step, with what `consume` returns. -/
def execBuffer (c : BufferCall) (gw : GlobalWindow) :
    Outcome (Option RecordVec × GlobalWindow) :=
  match c with
  | .produce r => return (none, ← gw.produce r)
  | .consume => do
    let (r, gw) ← gw.consume
    return (some r, gw)

/-- Where a call is; `r` is the argument of `produce`, or what `consume` has copied. -/
inductive Turn where
  /-- `r.size() > m_recs.size()`. -/
  | comparing (r : RecordVec)
  /-- The first loop for a longer batch: `m_recs[idx] = r[idx]`. -/
  | growing (r : RecordVec) (idx : Nat)
  /-- `m_recs.push_back(r[idx])`. -/
  | pushing (r : RecordVec) (idx : Nat)
  /-- The first loop otherwise: `m_recs[idx] = r[idx]`. -/
  | shrinking (r : RecordVec) (idx lim : Nat)
  /-- `m_recs.pop_back()`. -/
  | popping (idx lim : Nat)
  /-- `m_stale = false`. -/
  | freshening
  /-- `!m_stale`. -/
  | testing
  /-- `std::copy`. -/
  | copying (r : RecordVec) (idx : Nat)
  /-- `m_stale = true`. -/
  | staling (r : RecordVec)
  deriving Repr, DecidableEq

def Turn.next (b : Turn) (gw : GlobalWindow) : (Turn ⊕ Option RecordVec) × GlobalWindow :=
  match b with
  | .comparing r =>
    if r.length > gw.recs.length then (.inl (.growing r 0), gw)
    else (.inl (.shrinking r 0 gw.recs.length), gw)
  | .growing r idx =>
    if idx < gw.recs.length then
      (.inl (.growing r (idx + 1)), { gw with recs := copyAt r gw.recs idx })
    else (.inl (.pushing r idx), gw)
  | .pushing r idx =>
    if idx < r.length then
      (.inl (.pushing r (idx + 1)), { gw with recs := pushAt r gw.recs idx })
    else (.inl .freshening, gw)
  | .shrinking r idx lim =>
    if idx < r.length then
      (.inl (.shrinking r (idx + 1) lim), { gw with recs := copyAt r gw.recs idx })
    else (.inl (.popping idx lim), gw)
  | .popping idx lim =>
    if idx < lim then (.inl (.popping (idx + 1) lim), { gw with recs := gw.recs.dropLast })
    else (.inl .freshening, gw)
  | .freshening => (.inr none, { gw with stale := false })
  | .testing => if !gw.stale then (.inl (.copying [] 0), gw) else (.inr (some []), gw)
  | .copying r idx =>
    match gw.recs[idx]? with
    | some x => (.inl (.copying (r ++ [x]) (idx + 1)), gw)
    | none => (.inl (.staling r), gw)
  | .staling r => (.inr (some r), { gw with stale := true })

def critical : Critical BufferCall (Option RecordVec) Turn GlobalWindow where
  enter
    | .produce r => .comparing r
    | .consume => .testing
  turn := Turn.next

end Propreact.GlobalWindow
