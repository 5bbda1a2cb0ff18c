import Propreact.Profiler.Proof.Kept
import Propreact.Profiler.Proof.Publish

/-!
# A read behind counted records

`Counted`: the state between two reads when every record so far came in a flush and in order of
start. From such a state a read is the merge and the lookup of what its flush delivers
(`Counted.read_eq`). The first read always returns (`first_read`).
-/

namespace Propreact.CuptiProfiler

open Sequences

structure Counted (p : CuptiProfiler) : Prop where
  balanced : Balanced p
  raw : p.tupVecRaw.length = p.totRecords
  starts : p.tupVecRaw.map CuptiTuple.first = p.keyvalVecRaw.map startOf
  disjoint : p.totDisjointRecords ≤ p.totRecords

theorem new_counted (start : ULong) : Counted (new start) := ⟨⟨rfl, rfl⟩, rfl, rfl, Nat.le_refl 0⟩

section
variable {p p' : CuptiProfiler} {out : Published} {buffers : List (List Activity)}
  {first : CuptiTuple} {rest tups : List CuptiTuple}

theorem map_startOf (es : List ExpKeyCuptiTuple) :
    (es.map Prod.snd).map CuptiTuple.first = es.map startOf := List.map_map

theorem Counted.keyvalRaw (h : Counted p) : p.keyvalVecRaw.length = p.totRecords := by
  have := congrArg List.length h.starts
  rw [List.length_map, List.length_map] at this
  rw [← this, h.raw]

/-- The kernels among which a read looks up its tuples. -/
def candidates (p : CuptiProfiler) (records : List Activity) : List ExpKeyCuptiTuple :=
  p.keyvalVecRaw.drop p.totDisjointRecords ++ entries p.start records

/-- What a read's merge pushes. -/
def pushedBy (p : CuptiProfiler) (records : List Activity) : List CuptiTuple :=
  (p.tupVecRaw ++ sortedTuples p.start records).drop (p.totDisjointRecords + 1)

theorem Counted.read_eq (h : Counted p)
    (hb : sortedTuples p.start buffers.flatten = first :: rest) :
    p.read buffers = do
      let tups ← walk p.totRecords first none rest (p.pushedBy buffers.flatten)
      let keyvals ←
        orOutOfRange (pick startOf (p.candidates buffers.flatten) (tups.map CuptiTuple.first))
      return ((p.flush buffers).extend tups keyvals,
        publishedOf (p.keyvalVec.getLast?.toList ++ keyvals)) := by
  have hf := flush_flushed p buffers
  obtain ⟨hbatch, hsort⟩ := flush_batch h.raw buffers
  have hmerge : (p.flush buffers).mergeBatch =
      walk p.totRecords first none rest (p.pushedBy buffers.flatten) := by
    rw [mergeBatch, hbatch, hb, hsort, hf.offset, hf.disjoint]
    rfl
  have hlookup (tups : List CuptiTuple) : (p.flush buffers).kernelsAt tups =
      pick startOf (p.candidates buffers.flatten) (tups.map CuptiTuple.first) := by
    rw [kernelsAt, hf.keyvalVecRaw, hf.disjoint, candidates, List.drop_append_of_le_length]
    rw [h.keyvalRaw]
    exact h.disjoint
  rw [read, process_eq (flush_balanced h.balanced buffers), hmerge, hf.keyvalVec]
  simp only [hlookup]

/-- A read returns if its merge does and its lookup finds the merge's tuples. -/
theorem Counted.returns_iff (h : Counted p)
    (hb : sortedTuples p.start buffers.flatten = first :: rest) :
    (∃ p' out, p.read buffers = .ok (p', out)) ↔
      ∃ tups, walk p.totRecords first none rest (p.pushedBy buffers.flatten) = .ok tups ∧
        (tups.map CuptiTuple.first).Sublist ((p.candidates buffers.flatten).map startOf) := by
  rw [h.read_eq hb]
  simp only [Loop.bind_eq_ok, ← pick_isSome_iff]
  refine ⟨fun hread => ?_, fun htups => ?_⟩
  · obtain ⟨p', out, tups, hwalk, keyvals, hpick, -⟩ := hread
    refine ⟨tups, hwalk, ?_⟩
    cases hp : pick startOf (p.candidates buffers.flatten) (tups.map CuptiTuple.first) with
    | none => rw [hp] at hpick; cases hpick
    | some _ => rfl
  · obtain ⟨tups, hwalk, hpick⟩ := htups
    obtain ⟨keyvals, hpick⟩ := Option.isSome_iff_exists.1 hpick
    exact ⟨_, _, tups, hwalk, keyvals, by rw [hpick]; rfl, rfl⟩

/-- While no kernel was dropped the merge pushes from the batch itself. -/
theorem Counted.pushedBy_of_eq (h : Counted p) (hd : p.totDisjointRecords = p.totRecords)
    {records : List Activity} (hb : sortedTuples p.start records = first :: rest) :
    p.pushedBy records = rest := by
  rw [pushedBy, hb, hd, ← h.raw, ← List.drop_drop, List.drop_left]
  rfl

/-- The lookup finds the starts of kept kernels. -/
theorem Counted.lookup_isSome (h : InOrder ((entries p.start buffers.flatten).map Prod.snd))
    (hb : sortedTuples p.start buffers.flatten = first :: rest)
    (hs : tups.map CuptiTuple.first = (kept p.totRecords first false rest).map CuptiTuple.first) :
    (pick startOf (p.candidates buffers.flatten) (tups.map CuptiTuple.first)).isSome = true := by
  have hstarts := h.starts_sort
  rw [map_startOf] at hstarts
  rw [sortedTuples] at hb
  rw [hb] at hstarts
  rw [pick_isSome_iff, hs, candidates, List.map_append, ← hstarts]
  exact ((kept_sublist false).map _).trans (List.sublist_append_right _ _)

theorem first_read_fields (start : ULong) (buffers : List (List Activity)) (tups : List CuptiTuple)
    (keyvals : List ExpKeyCuptiTuple) :
    (((new start).flush buffers).extend tups keyvals).tupVec = tups ∧
      (((new start).flush buffers).extend tups keyvals).keyvalVec = keyvals := by
  have hf := flush_flushed (new start) buffers
  constructor
  · rw [extend, hf.tupVec]
    rfl
  · rw [extend, hf.keyvalVec]
    rfl

/-- A first read of a batch is its merge and the lookup among its kernels. -/
theorem first_read_eq {start : ULong}
    (hb : sortedTuples start buffers.flatten = first :: rest) :
    (new start).read buffers = do
      let tups ← walk 0 first none rest rest
      let keyvals ←
        orOutOfRange (pick startOf (entries start buffers.flatten) (tups.map CuptiTuple.first))
      return (((new start).flush buffers).extend tups keyvals, publishedOf keyvals) := by
  have hc := new_counted start
  rw [hc.read_eq hb, hc.pushedBy_of_eq rfl hb]
  rfl

theorem first_read_of {start : ULong} {keyvals : List ExpKeyCuptiTuple}
    (hb : sortedTuples start buffers.flatten = first :: rest)
    (hwalk : walk 0 first none rest rest = .ok tups)
    (hpick : pick startOf (entries start buffers.flatten) (tups.map CuptiTuple.first) =
      some keyvals) :
    ∃ p, (new start).read buffers = .ok (p, publishedOf keyvals) ∧ p.tupVec = tups ∧
      p.keyvalVec = keyvals := by
  refine ⟨((new start).flush buffers).extend tups keyvals, ?_,
    first_read_fields start buffers tups keyvals⟩
  rw [first_read_eq hb, hwalk, Loop.ok_bind, hpick]
  rfl

theorem first_read_ok {start : ULong} (hb : sortedTuples start buffers.flatten = first :: rest)
    (h : (new start).read buffers = .ok (p, out)) :
    walk 0 first none rest rest = .ok p.tupVec ∧
      pick startOf (entries start buffers.flatten) (p.tupVec.map CuptiTuple.first) =
        some p.keyvalVec ∧
      out = publishedOf p.keyvalVec := by
  rw [first_read_eq hb] at h
  obtain ⟨tups, hwalk, h⟩ := Loop.bind_eq_ok.1 h
  obtain ⟨keyvals, hpick, h⟩ := Loop.bind_eq_ok.1 h
  cases hp : pick startOf (entries start buffers.flatten) (tups.map CuptiTuple.first) with
  | none =>
    rw [hp] at hpick
    cases hpick
  | some found =>
    rw [hp] at hpick
    cases hpick
    cases h
    obtain ⟨htups, hkeyvals⟩ := first_read_fields start buffers tups keyvals
    rw [htups, hkeyvals]
    exact ⟨hwalk, hp, rfl⟩

/-- **The first read** of kernels in order always returns. -/
theorem first_read {start : ULong} {kernels : List Kernel}
    (hb : buffers.flatten = kernels.map .kernel) (hne : kernels ≠ [])
    (hin : InOrder (times start kernels)) (hs : FitsUnsigned (times start kernels)) :
    ∃ p first rest, (times start kernels).insertionSort CuptiTuple.le = first :: rest ∧
      walk 0 first none rest rest = .ok p.tupVec ∧
      pick startOf (kernels.map (entry start)) (p.tupVec.map CuptiTuple.first) =
        some p.keyvalVec ∧
      (new start).read buffers = .ok (p, publishedOf p.keyvalVec) := by
  have hentries : entries start buffers.flatten = kernels.map (entry start) := by
    rw [hb, entries_kernels]
  have htimes : (entries start buffers.flatten).map Prod.snd = times start kernels := by
    rw [hb, times_eq]
  have hsort : (times start kernels).insertionSort CuptiTuple.le ≠ [] := by
    rw [← List.length_pos_iff, List.length_insertionSort, List.length_pos_iff]
    simpa [times] using hne
  obtain ⟨first, rest, hcons⟩ := List.exists_cons_of_ne_nil hsort
  have hsorted : sortedTuples start buffers.flatten = first :: rest := by
    rw [sortedTuples, htimes, hcons]
  have hfits : FitsUnsigned rest := by
    have := hs.sort
    rw [hcons] at this
    exact this.tail
  obtain ⟨tups, hwalk⟩ := walk_of_le_one hfits (Nat.zero_le 1) first none
  rw [← htimes] at hin
  have hlookup := Counted.lookup_isSome (p := new start) hin hsorted (walk_kept hfits hwalk)
  obtain ⟨keyvals, hpick⟩ := Option.isSome_iff_exists.1 hlookup
  obtain ⟨p, hread, rfl, rfl⟩ := first_read_of hsorted hwalk hpick
  rw [← hentries]
  exact ⟨p, first, rest, hcons, hwalk, hpick, hread⟩

/-- With distinct starts the first read keeps the kept kernels, and publishes their neighbours. -/
theorem first_read_kept {start : ULong} {kernels : List Kernel}
    (hb : buffers.flatten = kernels.map .kernel) (hne : kernels ≠ [])
    (hstarts : (times start kernels).Pairwise fun a b => a.first < b.first)
    (hends : ∀ t ∈ times start kernels, t.first ≤ t.second)
    (hs : FitsUnsigned (times start kernels)) :
    ∃ p first rest ks, times start kernels = first :: rest ∧ ks.Sublist kernels ∧
      times start ks = kept 0 first false rest ∧ p.keyvalVec = ks.map (entry start) ∧
      (new start).read buffers = .ok (p, publishedOf p.keyvalVec) := by
  have hin : InOrder (times start kernels) := ⟨hstarts.imp le_of_lt, hends⟩
  obtain ⟨p, first, rest, hcons, hwalk, hpick, hread⟩ := first_read hb hne hin hs
  rw [List.Pairwise.insertionSort_eq (hstarts.imp .inl)] at hcons
  have hsub : (kept 0 first false rest).Sublist (times start kernels) := by
    rw [hcons]
    exact kept_sublist false
  obtain ⟨ks, hks, hkept⟩ := List.sublist_map_iff.1 hsub
  refine ⟨p, first, rest, ks, hcons, hks, hkept.symm, ?_, hread⟩
  -- the lookup for the starts of the kept kernels finds their entries
  have hkeys : p.tupVec.map CuptiTuple.first = (ks.map (entry start)).map startOf := by
    rw [hcons] at hs
    rw [walk_kept hs.tail hwalk, show (none : Option CuptiTuple).isSome = false by rfl, hkept,
      List.map_map, List.map_map]
    rfl
  have hnodup : ((kernels.map (entry start)).map startOf).Nodup := by
    rw [← map_startOf, show (kernels.map (entry start)).map Prod.snd = times start kernels from
      List.map_map]
    exact List.pairwise_map.2 (hstarts.imp ne_of_lt)
  rw [hkeys, pick_of_sublist hnodup (hks.map _)] at hpick
  exact (Option.some.inj hpick).symm

end

end Propreact.CuptiProfiler
