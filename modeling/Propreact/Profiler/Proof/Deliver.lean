import Propreact.Profiler.Proof.Process
import Propreact.Profiler.Run

/-!
# What a delivery does to the state

`Delivered p records p'`: `p'` is `p` after `insert` of `records`. It holds of every buffer
(`returnBuffer_delivered`). A flush delivers its records and counts them (`flush_flushed`).
-/

namespace Propreact.CuptiProfiler

structure Delivered (p : CuptiProfiler) (records : List Activity) (p' : CuptiProfiler) : Prop where
  tupVec : p'.tupVec = p.tupVec
  keyvalVec : p'.keyvalVec = p.keyvalVec
  disjoint : p'.totDisjointRecords = p.totDisjointRecords
  start : p'.start = p.start
  totRecords : p'.totRecords = p.totRecords
  currRecords : p'.currRecords = p.currRecords + records.length
  tupVecRaw : p'.tupVecRaw = p.tupVecRaw ++ (entries p.start records).map Prod.snd
  keyvalVecRaw : p'.keyvalVecRaw = p.keyvalVecRaw ++ entries p.start records

variable {p p' p'' : CuptiProfiler} {records records' : List Activity}

theorem entries_append (start : ULong) (records records' : List Activity) :
    entries start (records ++ records') = entries start records ++ entries start records' :=
  List.filterMap_append

theorem length_entries (start : ULong) (records : List Activity) :
    (entries start records).length = records.countP Activity.isKernel := by
  induction records with
  | nil => rfl
  | cons a records ih =>
    rw [List.countP_cons, ← ih]
    cases a <;> rfl

theorem length_entries_eq (start : ULong) {records : List Activity}
    (h : ∀ a ∈ records, a.isKernel = true) : (entries start records).length = records.length := by
  rw [length_entries, List.countP_eq_length.2 h]

theorem entries_kernels (start : ULong) (kernels : List Kernel) :
    entries start (kernels.map .kernel) = kernels.map (entry start) := by
  simp [entries, List.filterMap_map]

theorem times_eq (start : ULong) (kernels : List Kernel) :
    (entries start (kernels.map .kernel)).map Prod.snd = times start kernels := by
  rw [entries_kernels, List.map_map]
  rfl

theorem Delivered.refl (p : CuptiProfiler) : Delivered p [] p := by
  constructor <;> simp [entries]

theorem Delivered.trans (h : Delivered p records p') (h' : Delivered p' records' p'') :
    Delivered p (records ++ records') p'' := by
  constructor
  · rw [h'.tupVec, h.tupVec]
  · rw [h'.keyvalVec, h.keyvalVec]
  · rw [h'.disjoint, h.disjoint]
  · rw [h'.start, h.start]
  · rw [h'.totRecords, h.totRecords]
  · rw [h'.currRecords, h.currRecords, List.length_append, Nat.add_assoc]
  · rw [h'.tupVecRaw, h.tupVecRaw, h.start, entries_append, List.map_append, List.append_assoc]
  · rw [h'.keyvalVecRaw, h.keyvalVecRaw, h.start, entries_append, List.append_assoc]

theorem insert_delivered (p : CuptiProfiler) (record : Activity) :
    Delivered p [record] (p.insert record) := by
  cases record <;> constructor <;> simp [insert, entries, entry, currTup]

theorem returnBuffer_delivered (p : CuptiProfiler) (buffer : List Activity) :
    Delivered p buffer (p.returnBuffer buffer) := by
  induction buffer generalizing p with
  | nil => exact .refl p
  | cons record buffer ih => exact (insert_delivered p record).trans (ih (p.insert record))

theorem buffers_delivered (p : CuptiProfiler) (buffers : List (List Activity)) :
    Delivered p buffers.flatten (buffers.foldl returnBuffer p) := by
  induction buffers generalizing p with
  | nil => exact .refl p
  | cons buffer buffers ih =>
    exact (returnBuffer_delivered p buffer).trans (ih (p.returnBuffer buffer))

/-- A flush counts what it delivers, and only that. -/
structure Flushed (p : CuptiProfiler) (records : List Activity) (p' : CuptiProfiler) : Prop where
  tupVec : p'.tupVec = p.tupVec
  keyvalVec : p'.keyvalVec = p.keyvalVec
  disjoint : p'.totDisjointRecords = p.totDisjointRecords
  start : p'.start = p.start
  totRecords : p'.totRecords = p.totRecords + records.length
  offset : p'.offset = p.totRecords
  tupVecRaw : p'.tupVecRaw = p.tupVecRaw ++ (entries p.start records).map Prod.snd
  keyvalVecRaw : p'.keyvalVecRaw = p.keyvalVecRaw ++ entries p.start records

theorem flush_flushed (p : CuptiProfiler) (buffers : List (List Activity)) :
    Flushed p buffers.flatten (p.flush buffers) := by
  have h := buffers_delivered { p with currRecords := 0 } buffers
  have hcurr := h.currRecords
  have htot := h.totRecords
  simp only [Nat.zero_add] at hcurr htot
  exact ⟨h.tupVec, h.keyvalVec, h.disjoint, h.start, by rw [flush, hcurr, htot],
    by simp only [flush, offset, hcurr, htot]; omega, h.tupVecRaw, h.keyvalVecRaw⟩

/-- The tuples of a delivery, as `process` sorts them. -/
def sortedTuples (start : ULong) (records : List Activity) : List CuptiTuple :=
  ((entries start records).map Prod.snd).insertionSort CuptiTuple.le

/-- If `m_tot_records` counts all records before, the batch is what the flush delivered. -/
theorem flush_batch (hraw : p.tupVecRaw.length = p.totRecords) (buffers : List (List Activity)) :
    (p.flush buffers).batch = sortedTuples p.start buffers.flatten ∧
      sortBatch (p.flush buffers).tupVecRaw (p.flush buffers).offset =
        p.tupVecRaw ++ sortedTuples p.start buffers.flatten := by
  have hf := flush_flushed p buffers
  have hdrop : (p.flush buffers).tupVecRaw.drop (p.flush buffers).offset =
      (entries p.start buffers.flatten).map Prod.snd := by
    rw [hf.tupVecRaw, hf.offset, ← hraw, List.drop_left]
  have htake : (p.flush buffers).tupVecRaw.take (p.flush buffers).offset = p.tupVecRaw := by
    rw [hf.tupVecRaw, hf.offset, ← hraw, List.take_left]
  exact ⟨by rw [batch, hdrop, sortedTuples], by rw [sortBatch, hdrop, htake, sortedTuples]⟩

end Propreact.CuptiProfiler
