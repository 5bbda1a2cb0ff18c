import Propreact.Lib.Interval
import Propreact.Profiler.Proof.Read

/-!
# Kernels that do not overlap

A batch of strictly separated kernels goes through `process` unchanged (`walk_of_separated`), so
all vectors stay equal (`CaughtUp`), and cutting a stream of such kernels into batches does not
change what is published (`batch_division`).
-/

namespace Propreact.CuptiProfiler

open Sequences

/-- Strictly separated tuples, none of which ends before it starts. -/
def SeparatedTuples (l : List CuptiTuple) : Prop :=
  Interval.Separated CuptiTuple.first CuptiTuple.second l ∧ ∀ t ∈ l, t.first ≤ t.second

theorem walk_of_separated (offset : Nat) {cur : CuptiTuple} {batch : List CuptiTuple}
    (h : Interval.Separated CuptiTuple.first CuptiTuple.second (cur :: batch)) :
    walk offset cur none batch batch = .ok (cur :: batch) := by
  induction batch generalizing cur with
  | nil => exact walk_nil
  | cons next batch ih =>
    obtain ⟨hlt, h⟩ := List.isChain_cons_cons.1 h
    rw [walk_separated hlt, ih h]
    rfl

theorem SeparatedTuples.sorted {l : List CuptiTuple} (h : SeparatedTuples l) :
    l.insertionSort CuptiTuple.le = l := by
  refine List.Pairwise.insertionSort_eq ((h.1.pairwise h.2).imp_of_mem fun {a b} ha _ hab => ?_)
  exact .inl (lt_of_le_of_lt (h.2 a ha) hab)

theorem SeparatedTuples.left {l m : List CuptiTuple} (h : SeparatedTuples (l ++ m)) :
    SeparatedTuples l :=
  ⟨(List.isChain_append.1 h.1).1, fun t ht => h.2 t (List.mem_append_left _ ht)⟩

theorem SeparatedTuples.right {l m : List CuptiTuple} (h : SeparatedTuples (l ++ m)) :
    SeparatedTuples m :=
  ⟨(List.isChain_append.1 h.1).2.1, fun t ht => h.2 t (List.mem_append_right _ ht)⟩

/-- All four vectors hold the kernels `es`, each counted as disjoint. -/
structure CaughtUp (p : CuptiProfiler) (es : List ExpKeyCuptiTuple) : Prop where
  tupVec : p.tupVec = es.map Prod.snd
  keyvalVec : p.keyvalVec = es
  tupVecRaw : p.tupVecRaw = es.map Prod.snd
  keyvalVecRaw : p.keyvalVecRaw = es
  totRecords : p.totRecords = es.length
  disjoint : p.totDisjointRecords = es.length

variable {p : CuptiProfiler} {es : List ExpKeyCuptiTuple}

theorem CaughtUp.balanced (h : CaughtUp p es) : Balanced p := by
  refine ⟨?_, ?_⟩
  · rw [h.tupVec, h.disjoint, List.length_map]
  · rw [h.tupVec, h.keyvalVec, map_startOf]

/-- A non-empty list of kernels, strictly separated in the order they are delivered in. -/
structure SeparatedDelivery (start : ULong) (buffers : List (List Activity)) : Prop where
  nonempty : buffers.flatten ≠ []
  kernels : ∀ a ∈ buffers.flatten, a.isKernel = true
  separated : SeparatedTuples ((entries start buffers.flatten).map Prod.snd)

theorem SeparatedDelivery.length {start : ULong} {buffers : List (List Activity)}
    (hd : SeparatedDelivery start buffers) :
    buffers.flatten.length = (entries start buffers.flatten).length :=
  (length_entries_eq start hd.kernels).symm

theorem SeparatedDelivery.ne_nil {start : ULong} {buffers : List (List Activity)}
    (hd : SeparatedDelivery start buffers) : entries start buffers.flatten ≠ [] := by
  rw [← List.length_pos_iff, ← hd.length, List.length_pos_iff]
  exact hd.nonempty

/-- A read of separated kernels, wherever the ones before lie. -/
theorem read_separated {buffers : List (List Activity)} (h : CaughtUp p es)
    (hd : SeparatedDelivery p.start buffers) :
    ∃ p', p.read buffers =
        .ok (p', publishedOf (es.getLast?.toList ++ entries p.start buffers.flatten)) ∧
      CaughtUp p' (es ++ entries p.start buffers.flatten) ∧ p'.start = p.start := by
  have hlen := hd.length
  have hsep := hd.separated
  have hne := hd.ne_nil
  generalize hnew : entries p.start buffers.flatten = new at hlen hsep hne ⊢
  have hf := flush_flushed p buffers
  have hb := flush_balanced h.balanced buffers
  have hraw : p.tupVecRaw.length = p.totRecords := by
    rw [h.tupVecRaw, h.totRecords, List.length_map]
  obtain ⟨hbatch, hsort⟩ := flush_batch hraw buffers
  rw [sortedTuples, hnew, hsep.sorted] at hbatch hsort
  -- the merge keeps every kernel
  have hmerge : (p.flush buffers).mergeBatch = .ok (new.map Prod.snd) := by
    obtain ⟨e, new, rfl⟩ := List.exists_cons_of_ne_nil hne
    have hpushed : (p.tupVecRaw ++ (e :: new).map Prod.snd).drop (es.length + 1) =
        new.map Prod.snd := by
      have hlen : (es.map Prod.snd).length = es.length := List.length_map _
      rw [h.tupVecRaw, ← hlen, ← List.drop_drop, List.drop_left]
      rfl
    rw [mergeBatch, hbatch, hsort, hf.disjoint, h.disjoint, hpushed]
    exact walk_of_separated _ hsep.1
  have hkernels : (p.flush buffers).kernelsAt (new.map Prod.snd) = some new := by
    rw [kernelsAt, hf.keyvalVecRaw, hf.disjoint, h.disjoint, h.keyvalVecRaw, hnew, List.drop_left,
      map_startOf, pick_self]
  have hread := (process_ok hb).2 ⟨_, _, hmerge, hkernels, rfl, rfl⟩
  rw [hf.keyvalVec, h.keyvalVec] at hread
  refine ⟨_, hread, ⟨?_, ?_, ?_, ?_, ?_, ?_⟩, hf.start⟩
  · rw [extend, hf.tupVec, h.tupVec, List.map_append]
  · rw [extend, hf.keyvalVec, h.keyvalVec]
  · rw [extend, hsort, h.tupVecRaw, List.map_append]
  · rw [extend, hf.keyvalVecRaw, h.keyvalVecRaw, hnew]
  · rw [extend, hf.totRecords, h.totRecords, hlen, List.length_append]
  · rw [extend, hf.disjoint, h.disjoint, List.length_map, List.length_append]

/-- The entries of a whole sequence of flushes. -/
def allEntries (start : ULong) (batches : List (List (List Activity))) : List ExpKeyCuptiTuple :=
  entries start (batches.map List.flatten).flatten

theorem allEntries_cons (start : ULong) (buffers : List (List Activity))
    (batches : List (List (List Activity))) :
    allEntries start (buffers :: batches) =
      entries start buffers.flatten ++ allEntries start batches := by
  rw [allEntries, List.map_cons, List.flatten_cons, entries_append, allEntries]

/-- What batches of separated kernels publish, one read after the other. -/
theorem reads_separated {batches : List (List (List Activity))} (h : CaughtUp p es)
    (hd : ∀ b ∈ batches, SeparatedDelivery p.start b) :
    ∃ p' outs, p.reads batches = .ok (p', outs) ∧ CaughtUp p' (es ++ allEntries p.start batches) ∧
      (publishedOf es).produced ++ outs.flatMap Published.produced =
        (publishedOf (es ++ allEntries p.start batches)).produced := by
  induction batches generalizing p es with
  | nil => exact ⟨p, [], rfl, by simpa [allEntries, entries] using h, by simp [allEntries, entries]⟩
  | cons buffers batches ih =>
    obtain ⟨p1, hr, hc, hstart⟩ := read_separated h (hd buffers List.mem_cons_self)
    obtain ⟨p', outs, hrs, hc', hpub⟩ := ih hc fun b hb => by
      rw [hstart]
      exact hd b (List.mem_cons_of_mem _ hb)
    refine ⟨p', publishedOf (es.getLast?.toList ++ entries p.start buffers.flatten) :: outs,
      by simp [reads, hr, hrs], ?_, ?_⟩
    · rw [hstart] at hc'
      rw [allEntries_cons, ← List.append_assoc]
      exact hc'
    · rw [hstart] at hpub
      rw [allEntries_cons, ← List.append_assoc es, ← hpub, (publishedOf_append es _).1,
        List.flatMap_cons, List.append_assoc]

theorem new_caughtUp (start : ULong) : CaughtUp (new start) [] := ⟨rfl, rfl, rfl, rfl, rfl, rfl⟩

/-- The batches of a separated stream are separated. -/
theorem separatedDeliveries {start : ULong} {batches : List (List (List Activity))}
    (hne : ∀ b ∈ batches, b.flatten ≠ []) (hk : ∀ b ∈ batches, ∀ a ∈ b.flatten, a.isKernel = true)
    (hsep : SeparatedTuples ((allEntries start batches).map Prod.snd)) :
    ∀ b ∈ batches, SeparatedDelivery start b := by
  induction batches with
  | nil => exact fun b hb => nomatch hb
  | cons buffers batches ih =>
    rw [allEntries_cons, List.map_append] at hsep
    refine List.forall_mem_cons.2 ⟨⟨?_, ?_, hsep.left⟩, ih ?_ ?_ hsep.right⟩
    · exact hne buffers List.mem_cons_self
    · exact hk buffers List.mem_cons_self
    · exact fun b hb => hne b (List.mem_cons_of_mem _ hb)
    · exact fun b hb => hk b (List.mem_cons_of_mem _ hb)

/-- **Batch division.** However a stream of strictly separated kernels is cut into batches, every
subscript stays in range, and each kernel but the last is published once, in order. -/
theorem batch_division {start : ULong} (kernels : List Kernel)
    (hsep : SeparatedTuples (times start kernels))
    {batches : List (List (List Activity))} (hne : ∀ b ∈ batches, b.flatten ≠ [])
    (hcut : (batches.map List.flatten).flatten = kernels.map .kernel) :
    ∃ p outs, (new start).reads batches = .ok (p, outs) ∧
      outs.flatMap Published.produced = (consecutive kernels).map fun g =>
        (⟨g.1.gridX, g.1.end - g.1.start, g.2.start - g.1.end⟩ : Record) := by
  have hk : ∀ b ∈ batches, ∀ a ∈ b.flatten, a.isKernel = true := by
    intro b hb a ha
    have hmem : a ∈ (batches.map List.flatten).flatten :=
      List.mem_flatten.2 ⟨_, List.mem_map_of_mem hb, ha⟩
    rw [hcut] at hmem
    obtain ⟨k, -, rfl⟩ := List.mem_map.1 hmem
    rfl
  have hall : allEntries start batches = kernels.map (entry start) := by
    rw [allEntries, hcut, entries_kernels]
  have hsep' : SeparatedTuples ((allEntries start batches).map Prod.snd) := by
    rw [hall, List.map_map]
    exact hsep
  have hd := separatedDeliveries hne hk hsep'
  obtain ⟨p, outs, hr, -, hpub⟩ := reads_separated (new_caughtUp start) hd
  refine ⟨p, outs, hr, ?_⟩
  have hnil : (publishedOf []).produced = [] := rfl
  have hstart : (new start).start = start := rfl
  rw [hnil, List.nil_append, List.nil_append, hstart, hall] at hpub
  rw [hpub, publishedOf, consecutive_map, List.map_map, List.map_map]
  refine List.map_congr_left fun g _ => ?_
  obtain ⟨k, next⟩ := g
  -- the start of the profiler cancels
  simp only [Function.comp_apply, Prod.map_apply, entry, usageOf, Usage.record, Kernel.grid,
    Record.mk.injEq]
  grind

/-- Three kernels, delivered one and two at a time. -/
theorem one_then_two_published :
    ∃ p outs, (new 100).reads [oneBuffer [(105, 106)], oneBuffer [(110, 120), (121, 122)]] =
      .ok (p, outs) ∧ outs.flatMap Published.produced = [⟨1, 1, 4⟩, ⟨1, 10, 1⟩] :=
  batch_division [⟨105, 106, 1, 1, 1⟩, ⟨110, 120, 1, 1, 1⟩, ⟨121, 122, 1, 1, 1⟩]
    ⟨by simp [Interval.Separated, times, entry], by simp [times, entry]⟩ (by simp [oneBuffer]) rfl

end Propreact.CuptiProfiler
