import Mathlib.Data.List.Sort
import Propreact.Lib.Loop
import Propreact.Window.Window

/-!
# The kernel profiler

`CuptiProfiler` (`CuptiProfiler.cpp`): CUPTI hands over activity records (`insert`), and `read`
flushes what is left and processes the batch. `process` sorts the batch, merges overlapping
kernels (`merge`), looks up the kernels whose starts the merge kept (`rebuild`), and publishes the
busy and idle time of each consecutive pair of them (`publish`).

Subscripts out of range are undefined behaviour in the source and a `Fault` here. The `int`
counters of `process` and the record counters are natural numbers: batches are far shorter than
`2 ^ 31` records.
-/

namespace Propreact

/-- `CuptiTuple`: start and end of a kernel, or of an interval of the merge. -/
structure CuptiTuple where
  first : ULong
  second : ULong
  deriving Repr, DecidableEq

/-- `ExpKeyCuptiTuple`: the grid of a kernel with its times. -/
abbrev ExpKeyCuptiTuple := Grid × CuptiTuple

/-- The order of `std::pair`. -/
def CuptiTuple.le (a b : CuptiTuple) : Prop :=
  a.first < b.first ∨ a.first = b.first ∧ a.second ≤ b.second

instance : DecidableRel CuptiTuple.le := fun _ _ => inferInstanceAs (Decidable (_ ∨ _))

/-- The fields of a kernel record that are read. -/
structure Kernel where
  start : ULong
  «end» : ULong
  gridX : ULong
  gridY : ULong
  gridZ : ULong
  deriving Repr, DecidableEq

def Kernel.grid (k : Kernel) : Grid := ⟨k.gridX, k.gridY, k.gridZ⟩

/-- `CUpti_Activity`, by its `kind`. -/
inductive Activity where
  | kernel (k : Kernel)
  | runtime (start «end» : ULong)
  | other
  deriving Repr, DecidableEq

def Activity.isKernel : Activity → Bool
  | .kernel _ => true
  | _ => false

inductive Fault where
  | outOfRange
  | outOfFuel
  deriving Repr, DecidableEq

structure CuptiProfiler where
  tupVec : List CuptiTuple
  tupVecRaw : List CuptiTuple
  keyvalVecRaw : List ExpKeyCuptiTuple
  keyvalVec : List ExpKeyCuptiTuple
  start : ULong
  last : ULong
  lastApi : ULong
  totRecords : Nat
  currRecords : Nat
  totDisjointRecords : Nat
  deriving Repr, DecidableEq

/-- What `process` hands on: its calls on the window, and the argument of `produce`. -/
structure Published where
  window : List WindowCall
  produced : RecordVec
  deriving Repr, DecidableEq

namespace CuptiProfiler

/-- The constructor; `start` is the time it reads. -/
def new (start : ULong) : CuptiProfiler where
  tupVec := []
  tupVecRaw := []
  keyvalVecRaw := []
  keyvalVec := []
  start := start
  last := 0
  lastApi := 0
  totRecords := 0
  currRecords := 0
  totDisjointRecords := 0

/-- A kernel's times, relative to `m_start`. -/
def currTup (p : CuptiProfiler) (k : Kernel) : CuptiTuple := ⟨k.start - p.start, k.end - p.start⟩

/-- `CuptiProfiler::insert`. -/
def insert (p : CuptiProfiler) (record : Activity) : CuptiProfiler :=
  let p := { p with currRecords := p.currRecords + 1 }
  match record with
  | .kernel k =>
    { p with
      last := k.end - p.start
      tupVecRaw := p.tupVecRaw ++ [p.currTup k]
      keyvalVecRaw := p.keyvalVecRaw ++ [(k.grid, p.currTup k)] }
  | .runtime _ «end» => { p with lastApi := «end» - p.start }
  | .other => p

/-- `return_buffer`: a completed buffer with its records. -/
def returnBuffer (p : CuptiProfiler) (buffer : List Activity) : CuptiProfiler :=
  buffer.foldl insert p

/-! ## Merging -/

/-- `v[i]`. -/
def sub {α : Type} (v : List α) (i : Nat) : Except Fault α :=
  match v[i]? with
  | some a => .ok a
  | none => .error .outOfRange

/-- An `unsigned long` stored in an `unsigned` and read back. -/
def toUnsigned (x : ULong) : ULong := x.toUInt32.toUInt64

/-- An `unsigned long` stored in an `int` and converted back, with its sign. -/
def toInt (x : ULong) : ULong := x.toUInt32.toInt32.toInt64.toUInt64

/-- What the search behind an overlapping tuple finds. -/
structure Found where
  lookahead : Nat
  lookaheadStart : ULong
  lookaheadEnd : ULong
  prevEnd : ULong

/-- One turn of the search for a tuple that starts after `lastEnd`. -/
def lookaheadTurn (raw : List CuptiTuple) (offset count : Nat) (lastEnd : ULong) (lookahead : Nat) :
    Except Fault (Nat ⊕ Option Found) :=
  if lookahead < raw.length - count - 1 then do
    let next ← sub raw (offset + count + lookahead)
    if toUnsigned next.first > lastEnd then
      let prev ← sub raw (offset + count + lookahead - 1)
      return .inr (some ⟨lookahead, toUnsigned next.first, toUnsigned next.second,
        toInt prev.second⟩)
    else return .inl (lookahead + 1)
  else return .inr none

def lookaheadSearch (raw : List CuptiTuple) (offset count : Nat) (lastEnd : ULong) :
    Except Fault (Option Found) :=
  Loop.run .outOfFuel (lookaheadTurn raw offset count lastEnd) raw.length 1

/-- The state of the merge loop: `m_tup_vec`, `count` and `disjoint_records`. -/
structure Merge where
  tupVec : List CuptiTuple
  count : Nat
  disjointRecords : Nat

/-- One turn of the merge loop; `disjoint` is `m_tot_disjoint_records`. The loop is left with
`m_tup_vec` and `disjoint_records`. -/
def mergeTurn (raw : List CuptiTuple) (offset disjoint : Nat) (s : Merge) :
    Except Fault (Merge ⊕ List CuptiTuple × Nat) :=
  if offset + s.count < raw.length then do
    let last ← sub s.tupVec (s.tupVec.length - 1)
    let curr ← sub raw (offset + s.count)
    if curr.first > last.second then
      let tup ← sub raw (disjoint + s.count)
      return .inl ⟨s.tupVec ++ [tup], s.count + 1, s.disjointRecords + 1⟩
    else
      match ← lookaheadSearch raw offset s.count last.second with
      | some f =>
        let tupVec :=
          if f.prevEnd > last.second then s.tupVec.dropLast ++ [⟨last.first, f.prevEnd⟩]
          else s.tupVec
        return .inl ⟨tupVec ++ [⟨f.lookaheadStart, f.lookaheadEnd⟩], s.count + f.lookahead + 1,
          s.disjointRecords + 1⟩
      | none => return .inr (s.tupVec, s.disjointRecords)
  else return .inr (s.tupVec, s.disjointRecords)

/-- The merge of the batch behind `offset`: the new `m_tup_vec`, and how many tuples it got. -/
def merge (raw : List CuptiTuple) (offset disjoint : Nat) (tupVec : List CuptiTuple) :
    Except Fault (List CuptiTuple × Nat) := do
  let tup ← sub raw offset
  Loop.run .outOfFuel (mergeTurn raw offset disjoint) (raw.length + 1) ⟨tupVec ++ [tup], 1, 1⟩

/-! ## Looking up the kernels -/

/-- The state of the lookup loop: `m_keyval_vec`, `count1` and `count2`. -/
structure Rebuild where
  keyvalVec : List ExpKeyCuptiTuple
  count1 : Nat
  count2 : Nat

def rebuildTurn (keyvalRaw : List ExpKeyCuptiTuple) (tupVec : List CuptiTuple)
    (disjoint disjointRecords : Nat) (s : Rebuild) :
    Except Fault (Rebuild ⊕ List ExpKeyCuptiTuple) :=
  if s.count1 < disjointRecords then do
    let keyval ← sub keyvalRaw (disjoint + s.count2)
    let tup ← sub tupVec (disjoint + s.count1)
    if keyval.2.first = tup.first then
      return .inl ⟨s.keyvalVec ++ [keyval], s.count1 + 1, s.count2 + 1⟩
    else return .inl { s with count2 := s.count2 + 1 }
  else return .inr s.keyvalVec

def rebuild (keyvalRaw : List ExpKeyCuptiTuple) (tupVec : List CuptiTuple)
    (disjoint disjointRecords : Nat) (keyvalVec : List ExpKeyCuptiTuple) :
    Except Fault (List ExpKeyCuptiTuple) :=
  Loop.run .outOfFuel (rebuildTurn keyvalRaw tupVec disjoint disjointRecords)
    (keyvalRaw.length + 1) ⟨keyvalVec, 0, 0⟩

/-! ## Publishing -/

/-- A kernel's busy time, and its idle time until the start of the next. -/
structure Usage where
  key : Grid
  active : ULong
  idle : ULong
  deriving Repr, DecidableEq

def Usage.record (u : Usage) : Record := ⟨u.key.x, u.active, u.idle⟩

def Usage.windowCalls (u : Usage) : List WindowCall :=
  [.writeDataIdle u.key u.idle, .writeDataActive u.key u.active]

/-- The pair of entries `idx` and `idx + 1`. -/
def usage (keyvalVec : List ExpKeyCuptiTuple) (idx : Nat) : Except Fault Usage := do
  let curr ← sub keyvalVec idx
  let next ← sub keyvalVec (idx + 1)
  return ⟨curr.1, curr.2.second - curr.2.first, next.2.first - curr.2.second⟩

/-- The pair that straddles the last batch and this one, then the pairs of this batch. -/
def publish (keyvalVec : List ExpKeyCuptiTuple) (disjoint disjointRecords : Nat) :
    Except Fault Published := do
  let straddling ←
    if disjoint > 0 then List.singleton <$> usage keyvalVec (disjoint - 1) else pure []
  let inner ← (List.range (disjointRecords - 1)).mapM fun count =>
    usage keyvalVec (disjoint + count)
  let usages := straddling ++ inner
  return ⟨usages.flatMap Usage.windowCalls, usages.map Usage.record⟩

/-! ## A read -/

/-- `std::sort` of the batch behind `offset`. -/
def sortBatch (raw : List CuptiTuple) (offset : Nat) : List CuptiTuple :=
  raw.take offset ++ (raw.drop offset).insertionSort CuptiTuple.le

/-- `CuptiProfiler::process`. -/
def process (p : CuptiProfiler) : Except Fault (CuptiProfiler × Published) := do
  let offset := p.totRecords - p.currRecords
  let raw := sortBatch p.tupVecRaw offset
  let (tupVec, disjointRecords) ← merge raw offset p.totDisjointRecords p.tupVec
  let keyvalVec ← rebuild p.keyvalVecRaw tupVec p.totDisjointRecords disjointRecords p.keyvalVec
  let published ← publish keyvalVec p.totDisjointRecords disjointRecords
  return ({ p with
      tupVecRaw := raw
      tupVec
      keyvalVec
      totDisjointRecords := p.totDisjointRecords + disjointRecords }, published)

/-- What `read` does before `process`; the flush delivers `buffers`. -/
def flush (p : CuptiProfiler) (buffers : List (List Activity)) : CuptiProfiler :=
  let p := buffers.foldl returnBuffer { p with currRecords := 0 }
  { p with totRecords := p.totRecords + p.currRecords }

/-- `CuptiProfiler::read`. -/
def read (p : CuptiProfiler) (buffers : List (List Activity)) :
    Except Fault (CuptiProfiler × Published) :=
  (p.flush buffers).process

end CuptiProfiler

end Propreact
