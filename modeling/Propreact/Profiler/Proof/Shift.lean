import Propreact.Profiler.Proof.Read

/-!
# Batches at a later time

Shifting a first batch by a constant `c` shifts what the merge makes of it, and publishes the same,
exactly if every jump of the batch survives the narrow variables of the search behind an overlap
(`walk_shift_iff`, `shift_invariant_iff`). A jump whose found record is moved to `2 ^ 32` or beyond
is lost, or pushes a tuple that starts elsewhere.
-/

namespace Propreact

/-- The times of a tuple, `c` later. -/
def CuptiTuple.shift (c : ULong) (t : CuptiTuple) : CuptiTuple := ⟨t.first + c, t.second + c⟩

/-- A kernel, `c` later. -/
def Kernel.shift (c : ULong) (k : Kernel) : Kernel :=
  { k with start := k.start + c, «end» := k.end + c }

namespace CuptiProfiler

open Sequences

/-! ## Words -/

section
variable {x y c : ULong}

/-- The sum fits in 64 bits. -/
def Fits (c x : ULong) : Prop := x.toNat + c.toNat < 18446744073709551616

theorem Fits.toNat_add (h : Fits c x) : (x + c).toNat = x.toNat + c.toNat := by
  rw [UInt64.toNat_add]
  exact Nat.mod_eq_of_lt h

theorem Fits.lt_iff (hx : Fits c x) (hy : Fits c y) : x + c < y + c ↔ x < y := by
  rw [UInt64.lt_iff_toNat_lt, hx.toNat_add, hy.toNat_add, UInt64.lt_iff_toNat_lt]
  omega

theorem toUnsigned_add (h : (toUnsigned x).toNat + c.toNat < 4294967296) :
    toUnsigned (x + c) = toUnsigned x + c := by
  rw [← UInt64.toNat_inj, toNat_toUnsigned, UInt64.toNat_add, UInt64.toNat_add]
  rw [toNat_toUnsigned] at h ⊢
  omega

/-- Reading a moved time back from an `unsigned` gives no more than moving what is read back. -/
theorem toUnsigned_add_le (hx : toUnsigned x ≤ y) (hy : Fits c y) :
    toUnsigned (x + c) ≤ y + c := by
  rw [UInt64.le_iff_toNat_le, toNat_toUnsigned] at hx
  rw [UInt64.le_iff_toNat_le, hy.toNat_add, toNat_toUnsigned, UInt64.toNat_add]
  omega

end

/-! ## Tuples -/

section
variable {c : ULong} {t cur last next : CuptiTuple}

/-- Both times of the tuple fit in 64 bits when moved by `c`. -/
structure FitsTuple (c : ULong) (t : CuptiTuple) : Prop where
  first : Fits c t.first
  second : Fits c t.second

theorem unsigned_shift (hstart : (toUnsigned t.first).toNat + c.toNat < 4294967296)
    (hstop : (toUnsigned t.second).toNat + c.toNat < 4294967296) :
    unsigned (t.shift c) = (unsigned t).shift c := by
  show CuptiTuple.mk (toUnsigned (t.first + c)) (toUnsigned (t.second + c)) = _
  rw [toUnsigned_add hstart, toUnsigned_add hstop]
  rfl

theorem fitsTuple_unsigned (hstart : (toUnsigned t.first).toNat + c.toNat < 4294967296)
    (hstop : (toUnsigned t.second).toNat + c.toNat < 4294967296) : FitsTuple c (unsigned t) :=
  ⟨hstart.trans (by decide), hstop.trans (by decide)⟩

/-- The tuple of a group moves with the group exactly if the end of its last record compares and
moves as it should. -/
theorem merged_shift_iff :
    merged (cur.shift c) (last.shift c) = (merged cur last).shift c ↔
      (toInt last.second > cur.second ↔ toInt (last.second + c) > cur.second + c) ∧
        (toInt last.second > cur.second → toInt (last.second + c) = toInt last.second + c) := by
  have hcur : (cur.shift c).second = cur.second + c := rfl
  have hlast : (last.shift c).second = last.second + c := rfl
  rw [merged, merged, hcur, hlast]
  by_cases hgt : toInt last.second > cur.second
  · by_cases hgt' : toInt (last.second + c) > cur.second + c
    · rw [if_pos hgt, if_pos hgt']
      simp [CuptiTuple.shift, hgt, hgt']
    · rw [if_pos hgt, if_neg hgt']
      have hne : cur.second ≠ toInt last.second := ne_of_lt hgt
      simp [CuptiTuple.shift, hgt, hgt', hne]
  · by_cases hgt' : toInt (last.second + c) > cur.second + c
    · rw [if_neg hgt, if_pos hgt']
      have hne : toInt (last.second + c) ≠ cur.second + c := (ne_of_lt hgt').symm
      simp [CuptiTuple.shift, hgt, hgt', hne]
    · rw [if_neg hgt, if_neg hgt']
      simp [hgt, hgt']

end

/-! ## The merge -/

section
variable {c : ULong} {cur last next : CuptiTuple} {batch pushed es : List CuptiTuple}

/-- What follows the first tuple of a search: it starts after the group's first end, and below
`2 ^ 32`. -/
theorem walk_second {t t' : CuptiTuple} {ts : List CuptiTuple}
    (h : walk 0 cur (some last) batch pushed = .ok (t :: t' :: ts)) :
    cur.second < t'.first ∧ t'.first.toNat < 4294967296 := by
  induction batch generalizing last pushed with
  | nil =>
    rw [walk_end (Nat.zero_le 1)] at h
    cases h
  | cons next batch ih =>
    by_cases ho : batch = []
    · rw [walk_last ⟨rfl, ho⟩] at h
      cases h
    · have ho' : ¬ (0 = 0 ∧ batch = []) := fun h => ho h.2
      by_cases hgt : toUnsigned next.first > cur.second
      · rw [walk_found ho' hgt] at h
        obtain ⟨es, hwalk, heq⟩ := Loop.map_eq_ok.1 h
        obtain ⟨⟨t1, ts1, rfl, hfirst⟩, -⟩ := walk_head hwalk
        cases heq
        rw [hfirst]
        refine ⟨hgt, ?_⟩
        show (toUnsigned next.first).toNat < 4294967296
        rw [toNat_toUnsigned]
        omega
      · rw [walk_skip ho' hgt] at h
        exact ih h

theorem fits_toUnsigned {x : ULong} (h : Fits c x) : Fits c (toUnsigned x) := by
  show (toUnsigned x).toNat + c.toNat < 18446744073709551616
  have hx : x.toNat + c.toNat < 18446744073709551616 := h
  rw [toNat_toUnsigned]
  omega

/-- If the shifted merge pushes the jump's record, the start of that stays below `2 ^ 32`. -/
theorem jump_start (hnext : Fits c next.first)
    (hwalk : walk 0 (unsigned next) none batch batch = .ok es) {head : CuptiTuple}
    {batch' pushed' : List CuptiTuple}
    (h : walk 0 cur (some last) batch' pushed' = .ok (head :: es.map (.shift c))) :
    (toUnsigned next.first).toNat + c.toNat < 4294967296 := by
  obtain ⟨⟨t, ts, rfl, hfirst⟩, -⟩ := walk_head hwalk
  have hlt : (t.first + c).toNat < 4294967296 := (walk_second h).2
  rwa [hfirst, show (unsigned next).first = toUnsigned next.first by rfl,
    (fits_toUnsigned hnext).toNat_add] at hlt

/-- If the shifted merge goes on behind the jump as the merge does, the end of the record found
stays below `2 ^ 32`: otherwise the record behind it would count as separated. -/
theorem jump_stop (hb : batch ≠ []) (hfits : ∀ m ∈ batch, FitsTuple c m)
    (hstart : (toUnsigned next.first).toNat + c.toNat < 4294967296)
    (hwalk : walk 0 (unsigned next) none batch batch = .ok es)
    (h : walk 0 (unsigned (next.shift c)) none (batch.map (.shift c)) (batch.map (.shift c)) =
      .ok (es.map (.shift c))) :
    (toUnsigned next.second).toNat + c.toNat < 4294967296 := by
  by_contra hge
  obtain ⟨m, batch, rfl⟩ := List.exists_cons_of_ne_nil hb
  have hm := (hfits m List.mem_cons_self).first
  have hlow : (toUnsigned (next.second + c)).toNat + 4294967296 =
      (toUnsigned next.second).toNat + c.toNat := by
    rw [toNat_toUnsigned] at hge
    rw [toNat_toUnsigned, toNat_toUnsigned, UInt64.toNat_add]
    omega
  have hsmall : (toUnsigned next.second).toNat < 4294967296 := by
    rw [toNat_toUnsigned]
    omega
  -- the end read back is below `c`, so the record behind is separated from it
  have hgt : (m.shift c).first > (unsigned (next.shift c)).second := by
    show toUnsigned (next.second + c) < m.first + c
    rw [UInt64.lt_iff_toNat_lt, hm.toNat_add]
    omega
  rw [List.map_cons, walk_separated hgt] at h
  obtain ⟨es', hwalk', heq⟩ := Loop.map_eq_ok.1 h
  obtain ⟨⟨t', ts, rfl, hfirst⟩, -⟩ := walk_head hwalk'
  obtain ⟨t, l, rfl, ht, htail⟩ := List.map_eq_cons_iff.1 heq.symm
  obtain ⟨t1, l', rfl, ht1, -⟩ := List.map_eq_cons_iff.1 htail
  have ht1first : t1.first = m.first := by
    have : t1.first + c = m.first + c := by
      rw [← ht1] at hfirst
      exact hfirst
    simpa using this
  by_cases hsep : m.first > (unsigned next).second
  · rw [walk_separated hsep] at hwalk
    obtain ⟨es', -, heq'⟩ := Loop.map_eq_ok.1 hwalk
    cases heq'
    have hends : toUnsigned next.second + c = toUnsigned (next.second + c) :=
      congrArg CuptiTuple.second ht
    have hnat := congrArg UInt64.toNat hends
    rw [UInt64.toNat_add] at hnat
    omega
  · rw [walk_overlap hsep] at hwalk
    have hlt := (walk_second hwalk).1
    rw [ht1first] at hlt
    exact hsep hlt

/-- At a jump the merge moves with the batch exactly if the jump survives and the rest moves
(`shifts`). -/
theorem walk_found_shift_iff {shifts : Prop} (hcur : FitsTuple c cur) (hnext : FitsTuple c next)
    (hfits : ∀ m ∈ batch, FitsTuple c m) (hb : batch ≠ [])
    (hgt : toUnsigned next.first > cur.second)
    (hwalk : walk 0 (unsigned next) none batch batch = .ok es)
    (ih : FitsTuple c (unsigned next) →
      (walk 0 ((unsigned next).shift c) none (batch.map (.shift c)) (batch.map (.shift c)) =
        .ok (es.map (.shift c)) ↔ shifts)) :
    walk 0 (cur.shift c) (some (last.shift c)) (next.shift c :: batch.map (.shift c))
        (next.shift c :: batch.map (.shift c)) = .ok ((merged cur last :: es).map (.shift c)) ↔
      Jump.Shifts ⟨cur, last, next⟩ c ∧ shifts := by
  have ho : ¬ (0 = 0 ∧ batch.map (CuptiTuple.shift c) = []) := by simp [hb]
  -- the search finds the record at its new place
  have hfound (hstart : (toUnsigned next.first).toNat + c.toNat < 4294967296) :
      toUnsigned (next.shift c).first > (cur.shift c).second := by
    show cur.second + c < toUnsigned (next.first + c)
    rw [toUnsigned_add hstart, hcur.second.lt_iff (fits_toUnsigned hnext.first)]
    exact hgt
  refine ⟨fun hshift => ?_, fun ⟨hj, hshifts⟩ => ?_⟩
  · have hstart := jump_start hnext.first hwalk hshift
    rw [walk_found ho (hfound hstart)] at hshift
    obtain ⟨es', hwalk', heq⟩ := Loop.map_eq_ok.1 hshift
    obtain ⟨hhead, rfl⟩ := List.cons_eq_cons.1 heq
    have hstop := jump_stop hb hfits hstart hwalk hwalk'
    obtain ⟨hlater, hmoved⟩ := merged_shift_iff.1 hhead
    refine ⟨⟨hstart, hstop, hlater, hmoved⟩, ?_⟩
    rw [unsigned_shift hstart hstop] at hwalk'
    exact (ih (fitsTuple_unsigned hstart hstop)).1 hwalk'
  · have hwalk' := (ih (fitsTuple_unsigned hj.start hj.stop)).2 hshifts
    rw [walk_found ho (hfound hj.start), unsigned_shift hj.start hj.stop,
      merged_shift_iff.2 ⟨hj.later, hj.moved⟩]
    exact Loop.map_eq_ok.2 ⟨_, hwalk', rfl⟩

/-- **The merge moves with the batch** exactly if all its jumps survive. -/
theorem walk_shift_iff {prev : Option CuptiTuple} (hcur : FitsTuple c cur)
    (hfits : ∀ m ∈ batch, FitsTuple c m) (h : walk 0 cur prev batch batch = .ok es) :
    walk 0 (cur.shift c) (prev.map (.shift c)) (batch.map (.shift c)) (batch.map (.shift c)) =
        .ok (es.map (.shift c)) ↔
      ∀ j ∈ jumps cur prev batch, j.Shifts c := by
  induction batch generalizing cur prev es with
  | nil =>
    rw [walk_end (Nat.zero_le 1)] at h
    cases h
    rw [List.map_nil, walk_end (Nat.zero_le 1), jumps]
    simp
  | cons next batch ih =>
    obtain ⟨hnext, hbatch⟩ := List.forall_mem_cons.1 hfits
    rw [List.map_cons]
    cases prev with
    | none =>
      rw [jumps]
      have hiff : (next.shift c).first > (cur.shift c).second ↔ next.first > cur.second :=
        hcur.second.lt_iff hnext.first
      by_cases hgt : next.first > cur.second
      · rw [walk_separated hgt] at h
        obtain ⟨es, hwalk, rfl⟩ := Loop.map_eq_ok.1 h
        rw [if_pos hgt, Option.map_none, walk_separated (hiff.2 hgt), ← ih hnext hbatch hwalk,
          Loop.map_eq_ok]
        simp
      · rw [walk_overlap hgt] at h
        rw [if_neg hgt, Option.map_none, walk_overlap (fun h => hgt (hiff.1 h)),
          ← ih hcur hbatch h]
        rfl
    | some last =>
      rw [jumps]
      by_cases hb : batch = []
      · rw [walk_last ⟨rfl, hb⟩] at h
        cases h
        rw [if_pos hb, Option.map_some, walk_last ⟨rfl, by simp [hb]⟩]
        simp
      · have ho : ¬ (0 = 0 ∧ batch = []) := fun h => hb h.2
        have ho' : ¬ (0 = 0 ∧ batch.map (CuptiTuple.shift c) = []) := by simp [hb]
        rw [if_neg hb, Option.map_some]
        by_cases hgt : toUnsigned next.first > cur.second
        · rw [walk_found ho hgt] at h
          obtain ⟨es, hwalk, rfl⟩ := Loop.map_eq_ok.1 h
          rw [if_pos hgt, List.forall_mem_cons]
          exact walk_found_shift_iff hcur hnext hbatch hb hgt hwalk fun hfits =>
            ih hfits hbatch hwalk
        · have hle : ¬ toUnsigned (next.shift c).first > (cur.shift c).second :=
            not_lt.2 (toUnsigned_add_le (not_lt.1 hgt) hcur.second)
          rw [walk_skip ho hgt] at h
          rw [if_neg hgt, walk_skip ho' hle, ← ih hcur hbatch h]
          rfl

end

/-! ## A first read -/

section
variable {c start : ULong} {kernels : List Kernel} {buffers shifted : List (List Activity)}

/-- An entry, `c` later. -/
def shiftEntry (c : ULong) (e : ExpKeyCuptiTuple) : ExpKeyCuptiTuple := (e.1, e.2.shift c)

theorem entry_shift (k : Kernel) : entry start (k.shift c) = shiftEntry c (entry start k) := by
  have hcomm (x : ULong) : x + c - start = x - start + c := by grind
  show (k.grid, CuptiTuple.mk (k.start + c - start) (k.end + c - start)) = _
  rw [hcomm, hcomm]
  rfl

theorem entries_shift (h : shifted.flatten = (kernels.map (Kernel.shift c)).map .kernel) :
    entries start shifted.flatten = (kernels.map (entry start)).map (shiftEntry c) := by
  rw [h, entries_kernels, List.map_map, List.map_map]
  exact List.map_congr_left fun k _ => entry_shift k

/-- The busy and idle times do not move. -/
theorem usageOf_shift (e next : ExpKeyCuptiTuple) :
    usageOf (shiftEntry c e, shiftEntry c next) = usageOf (e, next) := by
  have hsub (x y : ULong) : x + c - (y + c) = x - y := by grind
  show Usage.mk e.1 (e.2.second + c - (e.2.first + c)) (next.2.first + c - (e.2.second + c)) = _
  rw [hsub, hsub]
  rfl

theorem publishedOf_shift (l : List ExpKeyCuptiTuple) :
    publishedOf (l.map (shiftEntry c)) = publishedOf l := by
  have husages : (consecutive (l.map (shiftEntry c))).map usageOf =
      (consecutive l).map usageOf := by
    rw [consecutive_map, List.map_map]
    exact List.map_congr_left fun e _ => usageOf_shift e.1 e.2
  rw [publishedOf, publishedOf, husages]

/-- All times fit in 64 bits when moved by `c`. -/
def FitsAll (c : ULong) (l : List CuptiTuple) : Prop := ∀ t ∈ l, FitsTuple c t

theorem sorted_of_starts {l : List CuptiTuple} (h : l.Pairwise fun a b => a.first < b.first) :
    l.insertionSort CuptiTuple.le = l :=
  List.Pairwise.insertionSort_eq (h.imp .inl)

/-- Moving the times keeps the starts in order. -/
theorem starts_shift {l : List CuptiTuple} (h : l.Pairwise fun a b => a.first < b.first)
    (hfits : FitsAll c l) : (l.map (CuptiTuple.shift c)).Pairwise fun a b => a.first < b.first := by
  rw [List.pairwise_map]
  apply h.imp_of_mem
  intro a b ha hb hlt
  exact ((hfits a ha).first.lt_iff (hfits b hb).first).2 hlt

/-- What the read of a batch looks up, it looks up in the shifted batch as well. -/
theorem pick_shift {tups : List CuptiTuple} {keyvals : List ExpKeyCuptiTuple}
    (hs : shifted.flatten = (kernels.map (Kernel.shift c)).map .kernel)
    (h : pick startOf (kernels.map (entry start)) (tups.map CuptiTuple.first) = some keyvals) :
    pick startOf (entries start shifted.flatten)
      ((tups.map (CuptiTuple.shift c)).map CuptiTuple.first) =
        some (keyvals.map (shiftEntry c)) := by
  have hkeys : (tups.map (CuptiTuple.shift c)).map CuptiTuple.first =
      (tups.map CuptiTuple.first).map (· + c) := by
    rw [List.map_map, List.map_map]
    rfl
  have hadd : Function.Injective fun x : ULong => x + c := fun x y => (UInt64.add_left_inj c).1
  have hstart (e : ExpKeyCuptiTuple) : startOf (shiftEntry c e) = startOf e + c := rfl
  rw [entries_shift hs, hkeys, pick_map_map hadd hstart, h]
  rfl

/-- **Shifting a first batch.** For every batch of kernels with distinct starts, in order, whose
read returns, and every `c` by which all times can be moved: the read of the moved batch returns,
makes the moved `m_tup_vec` and produces the same records, if and only if every jump of the batch
shifts. -/
theorem shift_invariant_iff (kernels : List Kernel) (c : ULong)
    {p : CuptiProfiler} {out : Published} (hne : kernels ≠ [])
    (hb : buffers.flatten = kernels.map .kernel)
    (hs : shifted.flatten = (kernels.map (Kernel.shift c)).map .kernel)
    (hstarts : (times start kernels).Pairwise fun a b => a.first < b.first)
    (hends : ∀ t ∈ times start kernels, t.first ≤ t.second)
    (hfit : ∀ t ∈ times start kernels, t.second.toNat + c.toNat < 18446744073709551616)
    (hr : (new start).read buffers = .ok (p, out)) :
    (∃ q out', (new start).read shifted = .ok (q, out') ∧
      q.tupVec = p.tupVec.map (CuptiTuple.shift c) ∧ out'.produced = out.produced) ↔
    ∀ j ∈ allJumps (times start kernels), j.Shifts c := by
  have hfits : FitsAll c (times start kernels) := by
    intro t ht
    refine ⟨?_, hfit t ht⟩
    have hle := UInt64.le_iff_toNat_le.1 (hends t ht)
    exact lt_of_le_of_lt (Nat.add_le_add_right hle _) (hfit t ht)
  have hcons : times start kernels ≠ [] := by simpa [times] using hne
  obtain ⟨first, rest, htimes⟩ := List.exists_cons_of_ne_nil hcons
  -- both batches are sorted as they are
  have hsorted : sortedTuples start buffers.flatten = first :: rest := by
    rw [hb, sortedTuples, times_eq, sorted_of_starts hstarts, htimes]
  have hsorted' : sortedTuples start shifted.flatten =
      first.shift c :: rest.map (CuptiTuple.shift c) := by
    have hmoved : (entries start shifted.flatten).map Prod.snd =
        (times start kernels).map (CuptiTuple.shift c) := by
      rw [entries_shift hs, times, List.map_map, List.map_map, List.map_map]
      rfl
    rw [sortedTuples, hmoved, sorted_of_starts (starts_shift hstarts hfits), htimes]
    rfl
  obtain ⟨hwalk, hpick, rfl⟩ := first_read_ok hsorted hr
  rw [hb, entries_kernels] at hpick
  rw [htimes] at hfits ⊢
  obtain ⟨hfirst, hrest⟩ := List.forall_mem_cons.1 hfits
  rw [allJumps, ← walk_shift_iff hfirst hrest hwalk]
  refine ⟨fun hshift => ?_, fun hwalk' => ?_⟩
  · obtain ⟨q, out', hread, hq, -⟩ := hshift
    have hwalk' := (first_read_ok hsorted' hread).1
    rwa [hq] at hwalk'
  · obtain ⟨q, hread, hq, -⟩ := first_read_of hsorted' hwalk' (pick_shift hs hpick)
    refine ⟨q, _, hread, hq, ?_⟩
    rw [publishedOf_shift]

end

/-- Two overlapping kernels and two behind; the search finds the third one. -/
def overlapKernels : List Kernel :=
  [⟨0, 10, 1, 1, 1⟩, ⟨5, 20, 1, 1, 1⟩, ⟨30, 40, 1, 1, 1⟩, ⟨50, 60, 1, 1, 1⟩]

theorem shifts_by_thousand : ∃ p out q out',
    (new 0).read [overlapKernels.map .kernel] = .ok (p, out) ∧
    (new 0).read [(overlapKernels.map (Kernel.shift 1000)).map .kernel] = .ok (q, out') ∧
    allJumps (times 0 overlapKernels) = [⟨⟨0, 10⟩, ⟨5, 20⟩, ⟨30, 40⟩⟩] ∧
    q.tupVec = p.tupVec.map (CuptiTuple.shift 1000) ∧ out'.produced = out.produced := by
  have hr : (new 0).read [overlapKernels.map .kernel] = .ok _ := rfl
  have hjumps : allJumps (times 0 overlapKernels) = [⟨⟨0, 10⟩, ⟨5, 20⟩, ⟨30, 40⟩⟩] := rfl
  have hshifts : ∀ j ∈ allJumps (times 0 overlapKernels), j.Shifts 1000 := by
    rw [hjumps, List.forall_mem_singleton]
    constructor <;> decide
  have hshifted : [(overlapKernels.map (Kernel.shift 1000)).map Activity.kernel].flatten =
      (overlapKernels.map (Kernel.shift 1000)).map .kernel := rfl
  obtain ⟨q, out', hr', htup, hout⟩ := (shift_invariant_iff overlapKernels 1000 (by decide) rfl
    hshifted (by decide) (by decide) (by decide) hr).2 hshifts
  exact ⟨_, _, q, out', hr, hr', hjumps, htup, hout⟩

/-- The same kernels `2 ^ 32` ns later: the search finds none of the kernels behind, and the merge
ends with the first tuple. -/
theorem late_shift_lost : ∃ p out q out',
    (new 0).read [overlapKernels.map .kernel] = .ok (p, out) ∧
    (new 0).read [(overlapKernels.map (Kernel.shift 4294967296)).map .kernel] = .ok (q, out') ∧
    p.tupVec = [⟨0, 20⟩, ⟨30, 40⟩, ⟨50, 60⟩] ∧ q.tupVec = [⟨4294967296, 4294967306⟩] ∧
    q.tupVec ≠ p.tupVec.map (CuptiTuple.shift 4294967296) ∧
    out.produced.length = 2 ∧ out'.produced = [] :=
  ⟨_, _, _, _, rfl, rfl, rfl, rfl, by decide, rfl, rfl⟩

end CuptiProfiler

end Propreact
