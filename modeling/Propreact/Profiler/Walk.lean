import Propreact.Profiler.CuptiProfiler
import Propreact.Lib.Sequences

/-!
# A batch in one pass

What the loops of `process` compute, as recursions over the batch. `walk` is the merge: `cur` is
the tuple at the back of `m_tup_vec`, and behind an overlap it carries the record passed last.
`Proof/Loops.lean` shows that the loops compute `walk`, `Sequences.pick` and the neighbours of
`m_keyval_vec`.
-/

namespace Propreact.CuptiProfiler

open Sequences

/-- The tuple of a group of overlapping kernels: the first one's, up to the end of the last one
if that is later. -/
def merged (cur prev : CuptiTuple) : CuptiTuple :=
  if toInt prev.second > cur.second then ⟨cur.first, toInt prev.second⟩ else cur

@[simp] theorem merged_first (cur prev : CuptiTuple) : (merged cur prev).first = cur.first := by
  unfold merged
  split <;> rfl

/-- A tuple that went through `lookahead_start` and `lookahead_end`. -/
def unsigned (t : CuptiTuple) : CuptiTuple := ⟨toUnsigned t.first, toUnsigned t.second⟩

/-- The merge of `batch` behind `cur`. A separated record pushes the next of `pushed`, which is
the batch itself as long as every record so far was kept. The search behind an overlap stops
before the last record if `offset` is 0, and runs off the vector if it is above 1. -/
def walk (offset : Nat) (cur : CuptiTuple) (prev : Option CuptiTuple)
    (batch pushed : List CuptiTuple) : Except Fault (List CuptiTuple) :=
  match prev, batch with
  | none, [] => .ok [cur]
  | some _, [] => if offset ≤ 1 then .ok [cur] else .error .outOfRange
  | none, next :: batch =>
    if next.first > cur.second then
      match pushed with
      | [] => .error .outOfRange
      | tup :: pushed => (cur :: ·) <$> walk offset tup none batch pushed
    else walk offset cur (some next) batch pushed.tail
  | some prev, next :: batch =>
    if offset = 0 ∧ batch = [] then .ok [cur]
    else if toUnsigned next.first > cur.second then
      (merged cur prev :: ·) <$> walk offset (unsigned next) none batch pushed.tail
    else walk offset cur (some next) batch pushed.tail

section
variable {offset : Nat} {cur prev next tup : CuptiTuple} {batch pushed : List CuptiTuple}

@[simp] theorem walk_nil : walk offset cur none [] pushed = .ok [cur] := by unfold walk; rfl

/-- Up to offset 1 the end of the batch ends the search as well. -/
theorem walk_end (ho : offset ≤ 1) (prev : Option CuptiTuple) :
    walk offset cur prev [] pushed = .ok [cur] := by
  cases prev with
  | none => exact walk_nil
  | some last =>
    unfold walk
    exact if_pos ho

theorem walk_separated (h : next.first > cur.second) :
    walk offset cur none (next :: batch) (tup :: pushed) =
      (cur :: ·) <$> walk offset tup none batch pushed := by
  rw [walk, if_pos h]

theorem walk_separated_nil (h : next.first > cur.second) :
    walk offset cur none (next :: batch) [] = .error .outOfRange := by
  rw [walk, if_pos h]

theorem walk_overlap (h : ¬ next.first > cur.second) :
    walk offset cur none (next :: batch) pushed =
      walk offset cur (some next) batch pushed.tail := by
  cases pushed <;> rw [walk, if_neg h]

theorem walk_last (h : offset = 0 ∧ batch = []) :
    walk offset cur (some prev) (next :: batch) pushed = .ok [cur] := by
  rw [walk, if_pos h]

theorem walk_found (ho : ¬ (offset = 0 ∧ batch = [])) (h : toUnsigned next.first > cur.second) :
    walk offset cur (some prev) (next :: batch) pushed =
      (merged cur prev :: ·) <$> walk offset (unsigned next) none batch pushed.tail := by
  rw [walk, if_neg ho, if_pos h]

theorem walk_skip (ho : ¬ (offset = 0 ∧ batch = [])) (h : ¬ toUnsigned next.first > cur.second) :
    walk offset cur (some prev) (next :: batch) pushed =
      walk offset cur (some next) batch pushed.tail := by
  rw [walk, if_neg ho, if_neg h]

end

/-- The search behind an overlap, from the record `prev` on. -/
def seek (offset : Nat) (lastEnd : ULong) (prev : CuptiTuple) (lookahead : Nat) :
    List CuptiTuple → Except Fault (Option Found)
  | [] => if offset ≤ 1 then .ok none else .error .outOfRange
  | next :: batch =>
    if offset = 0 ∧ batch = [] then .ok none
    else if toUnsigned next.first > lastEnd then
      .ok (some ⟨lookahead, toUnsigned next.first, toUnsigned next.second, toInt prev.second⟩)
    else seek offset lastEnd next (lookahead + 1) batch

/-- The busy and idle time of an entry and its neighbour. -/
def usageOf (e : ExpKeyCuptiTuple × ExpKeyCuptiTuple) : Usage :=
  ⟨e.1.1, e.1.2.second - e.1.2.first, e.2.2.first - e.1.2.second⟩

/-- What is published for the neighbours in `l`. -/
def publishedOf (l : List ExpKeyCuptiTuple) : Published :=
  let usages := (consecutive l).map usageOf
  ⟨usages.flatMap Usage.windowCalls, usages.map Usage.record⟩

end Propreact.CuptiProfiler
