import Propreact.Profiler.Walk

/-!
# Batches

What a batch of kernels can look like: the assumptions on what a flush delivers (`InOrder`,
`FitsUnsigned`, `Short`), and the patterns of overlap on which the behaviour of `process` turns.
A kernel is *kept* if it is the first of its batch or starts after the end of the kernel kept
before it. A *jump* is a kernel that the search behind an overlap finds.
-/

namespace Propreact.CuptiProfiler

/-- In order of start, none ending before it starts. -/
structure InOrder (l : List CuptiTuple) : Prop where
  starts : l.Pairwise fun a b => a.first ≤ b.first
  ends : ∀ t ∈ l, t.first ≤ t.second

theorem InOrder.sublist {l m : List CuptiTuple} (h : InOrder m) (hs : l.Sublist m) : InOrder l :=
  ⟨h.starts.sublist hs, fun t ht => h.ends t (hs.subset ht)⟩

theorem InOrder.first_le {t : CuptiTuple} {l : List CuptiTuple} (h : InOrder (t :: l)) :
    ∀ k ∈ t :: l, t.first ≤ k.first := by
  intro k hk
  rcases List.mem_cons.1 hk with rfl | hk
  · exact le_refl _
  · exact (List.pairwise_cons.1 h.starts).1 k hk

/-- All times fit in an `unsigned`. -/
def FitsUnsigned (l : List CuptiTuple) : Prop :=
  ∀ t ∈ l, t.first < 4294967296 ∧ t.second < 4294967296

theorem FitsUnsigned.sublist {l m : List CuptiTuple} (h : FitsUnsigned m) (hs : l.Sublist m) :
    FitsUnsigned l := fun t ht => h t (hs.subset ht)

/-- All times are below `2 ^ 31`. -/
def Short (l : List CuptiTuple) : Prop := ∀ t ∈ l, t.first < 2147483648 ∧ t.second < 2147483648

theorem Short.sublist {l m : List CuptiTuple} (h : Short m) (hs : l.Sublist m) : Short l :=
  fun t ht => h t (hs.subset ht)

theorem Short.fits {l : List CuptiTuple} (h : Short l) : FitsUnsigned l := fun t ht =>
  ⟨lt_trans (h t ht).1 (by decide), lt_trans (h t ht).2 (by decide)⟩

/-- The kept kernels of `cur :: batch`, where the search behind an overlap (`searching`) does not
look at the last record if `offset` is 0. -/
def kept (offset : Nat) (cur : CuptiTuple) (searching : Bool) : List CuptiTuple → List CuptiTuple
  | [] => [cur]
  | next :: batch =>
    if searching = true ∧ offset = 0 ∧ batch = [] then [cur]
    else if next.first > cur.second then cur :: kept offset next false batch
    else kept offset cur true batch

/-- The last record is kept; `last` tells this of the record passed last. -/
def keepsLast (cur : CuptiTuple) (last : Bool) : List CuptiTuple → Bool
  | [] => last
  | next :: batch =>
    if next.first > cur.second then keepsLast next true batch else keepsLast cur false batch

/-- Some kept kernel directly follows a kept one; `last` tells whether the record passed last was
kept. -/
def keepsNeighbours (cur : CuptiTuple) (last : Bool) : List CuptiTuple → Bool
  | [] => false
  | next :: batch =>
    if next.first > cur.second then last || keepsNeighbours next true batch
    else keepsNeighbours cur false batch

/-- The batches that `process` handles without a subscript out of range, behind the state `p`.
Behind more than one record the last record of the batch is kept, and unless all records so far
were kept, the batch keeps no two neighbours. -/
def InRange (p : CuptiProfiler) : List CuptiTuple → Prop
  | [] => False
  | first :: rest =>
    p.totRecords ≤ 1 ∨ keepsLast first true rest = true ∧
      (p.totDisjointRecords = p.totRecords ∨ keepsNeighbours first true rest = false)

/-- `b` starts no later than the end of one of `before` and ends after all of them. -/
def Outlasts (before : List CuptiTuple) (b : CuptiTuple) : Prop :=
  (∃ a ∈ before, b.first ≤ a.second) ∧ ∀ a ∈ before, a.second < b.second

/-- Some kernel overlaps and outlasts the ones before it, and the last kernel but one of the batch
starts after all of these have ended. -/
def OutlastsOverlap (batch : List CuptiTuple) : Prop :=
  ∃ before b, before ++ [b] <+: batch ∧ Outlasts before b ∧
    ∃ c ∈ batch.dropLast.getLast?, ∀ a ∈ before, a.second < c.first

instance (before : List CuptiTuple) (b : CuptiTuple) : Decidable (Outlasts before b) :=
  inferInstanceAs (Decidable (_ ∧ _))

instance (batch : List CuptiTuple) : Decidable (OutlastsOverlap batch) :=
  decidable_of_iff _ Sequences.exists_split_iff.symm

/-- The batch is a sequence of groups, each strictly after the ones before. In a group all kernels
start no later than the end of the first; they end no later than the first or the last of the group,
and in the final group no later than the first. A group of more than one kernel is not followed by a
single last kernel. -/
inductive Groups : List CuptiTuple → Prop
  | final {head : CuptiTuple} {group : List CuptiTuple} :
    (∀ b ∈ group, b.second ≤ head.second) → Groups (head :: group)
  | single {head next : CuptiTuple} {batch : List CuptiTuple} :
    head.second < next.first → Groups (next :: batch) → Groups (head :: next :: batch)
  | group {head last next : CuptiTuple} {group batch : List CuptiTuple} :
    (∀ b ∈ group ++ [last], b.first ≤ head.second) →
    (∀ b ∈ group ++ [last], b.second ≤ max head.second last.second) →
    max head.second last.second < next.first → batch ≠ [] → Groups (next :: batch) →
    Groups (head :: group ++ last :: next :: batch)

/-- A record that the search behind an overlap finds: `head` is the tuple of the group it leaves,
`last` the record in front of it. -/
structure Jump where
  head : CuptiTuple
  last : CuptiTuple
  next : CuptiTuple

/-- The jumps of the first batch's merge behind `cur`; `prev` is the record passed last in a
search. -/
def jumps (cur : CuptiTuple) (prev : Option CuptiTuple) : List CuptiTuple → List Jump
  | [] => []
  | next :: batch =>
    match prev with
    | none =>
      if next.first > cur.second then jumps next none batch else jumps cur (some next) batch
    | some last =>
      if batch = [] then []
      else if toUnsigned next.first > cur.second then
        ⟨cur, last, next⟩ :: jumps (unsigned next) none batch
      else jumps cur (some next) batch

/-- The jumps of a first batch. -/
def allJumps : List CuptiTuple → List Jump
  | [] => []
  | first :: rest => jumps first none rest

/-- The jump's times are read back from the narrow variables as they are, up to a multiple of
`2 ^ 32`, before and after a shift by `c`: the found record's times stay below `2 ^ 32`, and the
end of the record in front of it is later than the group's before the shift exactly if it is
after, and then moves by `c`. -/
structure Jump.Shifts (j : Jump) (c : ULong) : Prop where
  start : (toUnsigned j.next.first).toNat + c.toNat < 4294967296
  stop : (toUnsigned j.next.second).toNat + c.toNat < 4294967296
  later : toInt j.last.second > j.head.second ↔ toInt (j.last.second + c) > j.head.second + c
  moved : toInt j.last.second > j.head.second →
    toInt (j.last.second + c) = toInt j.last.second + c

end Propreact.CuptiProfiler
