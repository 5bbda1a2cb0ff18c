import Propreact.Profiler.Batch

/-!
# The merge keeps the kept kernels

For times below `2 ^ 32` the tuples of the merge start where the kept kernels of the batch start
(`walk_kept`). The merge returns if `offset` is at most 1 (`walk_of_le_one`), and otherwise
exactly if the last record of the batch is kept (`walk_iff_keepsLast`).
-/

namespace Propreact.CuptiProfiler

theorem toNat_toUnsigned (x : ULong) : (toUnsigned x).toNat = x.toNat % 4294967296 := by
  simp [toUnsigned]

theorem toUnsigned_of_lt {x : ULong} (h : x < 4294967296) : toUnsigned x = x := by
  rw [← UInt64.toNat_inj, toNat_toUnsigned]
  exact Nat.mod_eq_of_lt (UInt64.lt_iff_toNat_lt.1 h)

theorem toInt_of_lt {x : ULong} (h : x < 2147483648) : toInt x = x := by
  have hlt : x.toNat < 2147483648 := by simpa [UInt64.lt_iff_toNat_lt] using h
  have hmsb : (x.toBitVec.setWidth 32).msb = false := by
    rw [BitVec.msb_eq_false_iff_two_mul_lt, BitVec.toNat_setWidth]
    simp
    omega
  have hbits : (toInt x).toBitVec = (x.toBitVec.setWidth 32).signExtend 64 := rfl
  rw [← UInt64.toBitVec_inj, hbits, BitVec.signExtend_eq_setWidth_of_msb_false hmsb]
  apply BitVec.eq_of_toNat_eq
  simp
  omega

/-! ## The sorted batch -/

instance : Std.Total CuptiTuple.le where
  total a b := by
    unfold CuptiTuple.le
    grind

instance : IsTrans CuptiTuple CuptiTuple.le where
  trans a b c := by
    unfold CuptiTuple.le
    grind

theorem InOrder.of_perm {l m : List CuptiTuple} (h : InOrder l) (hp : m.Perm l)
    (hs : m.Pairwise CuptiTuple.le) : InOrder m := by
  refine ⟨hs.imp fun {a b} hab => ?_, fun t ht => h.ends t (hp.subset ht)⟩
  rcases hab with hlt | ⟨heq, -⟩
  · exact hlt.le
  · exact heq.le

theorem InOrder.sort {l : List CuptiTuple} (h : InOrder l) :
    InOrder (l.insertionSort CuptiTuple.le) :=
  h.of_perm (List.perm_insertionSort _ l) (List.pairwise_insertionSort _ l)

theorem FitsUnsigned.sort {l : List CuptiTuple} (h : FitsUnsigned l) :
    FitsUnsigned (l.insertionSort CuptiTuple.le) :=
  fun t ht => h t ((List.mem_insertionSort _).1 ht)

theorem Short.sort {l : List CuptiTuple} (h : Short l) : Short (l.insertionSort CuptiTuple.le) :=
  fun t ht => h t ((List.mem_insertionSort _).1 ht)

/-- Sorting kernels that come in order of start moves no start. -/
theorem InOrder.starts_sort {l : List CuptiTuple} (h : InOrder l) :
    (l.insertionSort CuptiTuple.le).map CuptiTuple.first = l.map CuptiTuple.first := by
  have hperm := (List.perm_insertionSort CuptiTuple.le l).map CuptiTuple.first
  refine hperm.eq_of_pairwise (fun a b _ _ => le_antisymm) ?_ ?_
  · exact List.pairwise_map.2 h.sort.starts
  · exact List.pairwise_map.2 h.starts

/-! ## The merge -/

variable {offset : Nat} {cur : CuptiTuple} {prev : Option CuptiTuple}
  {batch pushed es : List CuptiTuple}

theorem FitsUnsigned.head {t : CuptiTuple} (h : FitsUnsigned (t :: batch)) :
    toUnsigned t.first = t.first ∧ unsigned t = t := by
  obtain ⟨h1, h2⟩ := h t List.mem_cons_self
  refine ⟨toUnsigned_of_lt h1, ?_⟩
  rw [unsigned, toUnsigned_of_lt h1, toUnsigned_of_lt h2]

theorem FitsUnsigned.tail {t : CuptiTuple} (h : FitsUnsigned (t :: batch)) : FitsUnsigned batch :=
  h.sublist (List.sublist_cons_self t batch)

theorem Short.tail {t : CuptiTuple} (h : Short (t :: batch)) : Short batch :=
  h.sublist (List.sublist_cons_self t batch)

theorem kept_sublist (searching : Bool) :
    (kept offset cur searching batch).Sublist (cur :: batch) := by
  induction batch generalizing cur searching with
  | nil => exact .refl _
  | cons next batch ih =>
    unfold kept
    split
    · exact (List.nil_sublist _).cons_cons cur
    · split
      · exact (ih false).cons_cons cur
      · exact (ih true).trans ((List.sublist_cons_self next batch).cons_cons cur)

theorem kept_eq_cons (offset : Nat) (cur : CuptiTuple) (searching : Bool)
    (batch : List CuptiTuple) : ∃ ks, kept offset cur searching batch = cur :: ks := by
  induction batch generalizing cur searching with
  | nil => exact ⟨[], rfl⟩
  | cons next batch ih =>
    unfold kept
    split
    · exact ⟨[], rfl⟩
    · split
      · exact ⟨_, rfl⟩
      · exact ih cur true

/-- The tuple of `cur` when its group is closed. -/
def closed (cur : CuptiTuple) : Option CuptiTuple → CuptiTuple
  | none => cur
  | some prev => merged cur prev

@[simp] theorem closed_first (cur : CuptiTuple) (prev : Option CuptiTuple) :
    (closed cur prev).first = cur.first := by
  cases prev <;> simp [closed]

/-- A step of the search behind an overlap. -/
theorem walk_search {last next : CuptiTuple} (hs : FitsUnsigned (next :: batch)) :
    walk offset cur (some last) (next :: batch) pushed =
      if offset = 0 ∧ batch = [] then .ok [cur]
      else if next.first > cur.second then
        (merged cur last :: ·) <$> walk offset next none batch pushed.tail
      else walk offset cur (some next) batch pushed.tail := by
  obtain ⟨hfirst, hnext⟩ := hs.head
  rw [walk, hfirst, hnext]

/-- A step of the merge that pushes from the batch itself. -/
theorem walk_cons {next : CuptiTuple} (hs : FitsUnsigned (next :: batch)) :
    walk offset cur prev (next :: batch) (next :: batch) =
      if prev.isSome = true ∧ offset = 0 ∧ batch = [] then .ok [cur]
      else if next.first > cur.second then
        (closed cur prev :: ·) <$> walk offset next none batch batch
      else walk offset cur (some next) batch batch := by
  cases prev with
  | none =>
    rw [if_neg (by simp)]
    split
    · rename_i hgt
      exact walk_separated hgt
    · rename_i hgt
      exact walk_overlap hgt
  | some last =>
    rw [walk_search hs]
    simp [closed]

/-- The tuples of the merge start where the kept kernels start. -/
theorem walk_kept (hs : FitsUnsigned batch) (h : walk offset cur prev batch batch = .ok es) :
    es.map CuptiTuple.first = (kept offset cur prev.isSome batch).map CuptiTuple.first := by
  induction batch generalizing cur prev es with
  | nil =>
    unfold walk at h
    split at h
    · cases h; rfl
    · split at h <;> cases h
      rfl
    all_goals contradiction
  | cons next batch ih =>
    rw [walk_cons hs] at h
    unfold kept
    split
    · rename_i ho
      rw [if_pos ho] at h
      cases h
      rfl
    · rename_i ho
      rw [if_neg ho] at h
      split
      · rename_i hgt
        rw [if_pos hgt] at h
        obtain ⟨es', h', rfl⟩ := Loop.map_eq_ok.1 h
        simpa using ih hs.tail h'
      · rename_i hgt
        rw [if_neg hgt] at h
        exact ih hs.tail h

/-- Up to offset 1 the search stays inside the vector. -/
theorem walk_of_le_one (hs : FitsUnsigned batch) (ho : offset ≤ 1) (cur : CuptiTuple)
    (prev : Option CuptiTuple) : ∃ es, walk offset cur prev batch batch = .ok es := by
  induction batch generalizing cur prev with
  | nil => exact ⟨[cur], walk_end ho prev⟩
  | cons next batch ih =>
    rw [walk_cons hs]
    split
    · exact ⟨_, rfl⟩
    · split
      · obtain ⟨es, h⟩ := ih hs.tail next none
        exact ⟨_, Loop.map_eq_ok.2 ⟨es, h, rfl⟩⟩
      · exact ih hs.tail cur (some next)

/-- Above, the search behind the last kept kernel runs off the vector unless that is the last. -/
theorem walk_iff_keepsLast (hs : FitsUnsigned batch) (ho : 1 < offset) :
    (∃ es, walk offset cur prev batch batch = .ok es) ↔ keepsLast cur prev.isNone batch = true := by
  induction batch generalizing cur prev with
  | nil =>
    cases prev with
    | none => simp [keepsLast]
    | some q =>
      have hle : ¬ offset ≤ 1 := by omega
      unfold walk
      simp [keepsLast, hle]
  | cons next batch ih =>
    have hzero : offset ≠ 0 := by omega
    rw [walk_cons hs, if_neg fun h => hzero h.2.1]
    unfold keepsLast
    split
    · have ih : (∃ es, walk offset next none batch batch = .ok es) ↔
          keepsLast next true batch = true := ih hs.tail
      rw [← ih]
      simp only [Loop.map_eq_ok]
      refine ⟨fun hmap => ?_, fun hwalk => ?_⟩
      · obtain ⟨_, es, h, -⟩ := hmap
        exact ⟨es, h⟩
      · obtain ⟨es, h⟩ := hwalk
        exact ⟨_, es, h, rfl⟩
    · exact ih hs.tail

/-- Without a kept kernel directly behind a kept one the merge pushes nothing from `pushed`. -/
theorem walk_of_noNeighbours (hs : FitsUnsigned batch)
    (h : keepsNeighbours cur prev.isNone batch = false) :
    walk offset cur prev batch pushed = walk offset cur prev batch batch := by
  induction batch generalizing cur prev pushed with
  | nil => cases prev <;> unfold walk <;> rfl
  | cons next batch ih =>
    unfold keepsNeighbours at h
    cases prev with
    | none =>
      split at h
      · simp at h
      · rename_i hgt
        rw [walk_overlap hgt, walk_overlap hgt]
        exact ih hs.tail h
    | some last =>
      rw [walk_search hs, walk_search hs]
      split at h
      · rename_i hgt
        have h : keepsNeighbours next true batch = false := by simpa using h
        rw [if_pos hgt, if_pos hgt, ih hs.tail h]
        rfl
      · rename_i hgt
        rw [if_neg hgt, if_neg hgt, ih hs.tail h]
        rfl

end Propreact.CuptiProfiler
