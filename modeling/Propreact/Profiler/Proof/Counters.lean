import Propreact.Profiler.Proof.Deliver

/-!
# The counters

`m_tot_records` counts the records of the flushes only. A kernel that CUPTI hands over between two
reads is handled by the next `process` all the same, so from the read after that one on the batch
is taken to begin too early (`offset_eq_handled_iff`).
-/

namespace Propreact.CuptiProfiler

/-- The records of the flushes. -/
def flushed (tr : List Event) : List Activity :=
  tr.flatMap fun
    | .callback _ => []
    | .read buffers _ => buffers.flatten

/-- The records that came between two reads. -/
def strays (tr : List Event) : List Activity :=
  tr.flatMap fun
    | .callback buffer => buffer
    | .read _ _ => []

theorem flushed_concat (tr : List Event) (e : Event) :
    flushed (tr ++ [e]) = flushed tr ++ flushed [e] := List.flatMap_append

theorem inserted_concat (tr : List Event) (e : Event) :
    inserted (tr ++ [e]) = inserted tr ++ e.records := by
  rw [inserted, List.flatMap_append, List.flatMap_singleton]
  rfl

theorem countP_inserted (q : Activity → Bool) (tr : List Event) :
    (inserted tr).countP q = (flushed tr).countP q + (strays tr).countP q := by
  induction tr with
  | nil => rfl
  | cons e tr ih =>
    simp only [inserted, flushed, strays, List.flatMap_cons, List.countP_append] at ih ⊢
    rw [ih]
    cases e with
    | callback buffer => simp only [Event.records, List.countP_nil]; omega
    | read buffers out => simp only [Event.records, List.countP_nil]; omega

theorem flushed_upToLastRead (tr : List Event) : flushed (upToLastRead tr) = flushed tr := by
  induction tr using List.reverseRecOn with
  | nil => rfl
  | append_singleton tr e ih =>
    cases e with
    | callback buffer =>
      have hup : upToLastRead (tr ++ [.callback buffer]) = upToLastRead tr :=
        List.rdropWhile_concat_pos _ _ _ rfl
      rw [hup, ih, flushed_concat]
      exact (List.append_nil _).symm
    | read buffers out =>
      have hup : upToLastRead (tr ++ [.read buffers out]) = tr ++ [.read buffers out] :=
        List.rdropWhile_concat_neg _ _ _ (by simp [Event.isRead])
      rw [hup]

section
variable {p p' : CuptiProfiler} {out : Published} {tr : List Event} {start : ULong}

theorem read_fields {buffers : List (List Activity)} (h : p.read buffers = .ok (p', out)) :
    p'.start = (p.flush buffers).start ∧ p'.totRecords = (p.flush buffers).totRecords ∧
      p'.tupVecRaw.Perm (p.flush buffers).tupVecRaw := by
  unfold read process at h
  simp only [Loop.bind_eq_ok] at h
  obtain ⟨⟨tupVec, disjointRecords⟩, -, keyvalVec, -, published, -, h⟩ := h
  cases h
  exact ⟨rfl, rfl, sortBatch_perm _ _⟩

theorem totRecords_eq (h : (lts start).Run tr p) : p.totRecords = (flushed tr).length := by
  refine h.trace_inv (I := fun tr p => p.totRecords = (flushed tr).length) ?_ ?_
  · rintro p rfl
    rfl
  · intro tr p e p' _ ih hs
    rw [flushed_concat, List.length_append, ← ih]
    cases e with
    | callback buffer =>
      obtain rfl : p' = p.returnBuffer buffer := hs
      exact (returnBuffer_delivered p buffer).totRecords
    | read buffers out =>
      rw [(read_fields hs).2.1, (flush_flushed p buffers).totRecords]
      simp [flushed]

/-- `m_tup_vec_raw` holds the kernels that `insert` was called with, in some order. -/
theorem perm_tupVecRaw (h : (lts start).Run tr p) :
    p.start = start ∧ p.tupVecRaw.Perm ((entries start (inserted tr)).map Prod.snd) := by
  refine h.trace_inv (I := fun tr p => p.start = start ∧
    p.tupVecRaw.Perm ((entries start (inserted tr)).map Prod.snd)) ?_ ?_
  · rintro p rfl
    exact ⟨rfl, .refl _⟩
  · rintro tr p e p' _ ⟨hstart, hperm⟩ hs
    rw [inserted_concat, entries_append, List.map_append]
    cases e with
    | callback buffer =>
      obtain rfl : p' = p.returnBuffer buffer := hs
      have hd := returnBuffer_delivered p buffer
      refine ⟨hd.start.trans hstart, ?_⟩
      rw [hd.tupVecRaw, hstart]
      exact hperm.append_right _
    | read buffers out =>
      have hf := flush_flushed p buffers
      obtain ⟨hs', -, hperm'⟩ := read_fields hs
      refine ⟨(hs'.trans hf.start).trans hstart, hperm'.trans ?_⟩
      rw [hf.tupVecRaw, hstart]
      exact hperm.append_right _

theorem length_tupVecRaw (h : (lts start).Run tr p) :
    p.tupVecRaw.length = (entries start (inserted tr)).length := by
  rw [(perm_tupVecRaw h).2.length_eq, List.length_map]

/-- `handled` is the length of `m_tup_vec_raw` when `process` was last called. -/
theorem handled_read {buffers : List (List Activity)} (h : (lts start).Run tr p)
    (hr : p.read buffers = .ok (p', out)) :
    handled start (tr ++ [.read buffers out]) = p'.tupVecRaw.length := by
  rw [length_tupVecRaw (run_read h buffers hr), handled, upToLastRead,
    List.rdropWhile_concat_neg _ _ _ (by simp [Event.isRead])]

theorem handled_callback (tr : List Event) (buffer : List Activity) :
    handled start (tr ++ [.callback buffer]) = handled start tr := by
  rw [handled, handled, upToLastRead, List.rdropWhile_concat_pos _ _ _ rfl, upToLastRead]

/-- **Each record in one batch**: at the entry to `process` the batch starts behind the records
handled so far exactly if the kernels that came between two reads are as many as the records of
the flushes that are no kernels. Where all records are kernels: if no callback before an earlier
read has brought one. -/
theorem offset_eq_handled_iff (h : (lts start).Run tr p) (buffers : List (List Activity)) :
    (p.flush buffers).totRecords - (p.flush buffers).currRecords = handled start tr ↔
      (strays (upToLastRead tr)).countP Activity.isKernel =
        (flushed tr).countP fun a => !a.isKernel := by
  have hoffset : (p.flush buffers).totRecords - (p.flush buffers).currRecords = p.totRecords :=
    (flush_flushed p buffers).offset
  have hsplit : (flushed tr).length = (flushed tr).countP Activity.isKernel +
      (flushed tr).countP fun a => !a.isKernel := by
    simpa using List.length_eq_countP_add_countP Activity.isKernel (l := flushed tr)
  rw [hoffset, totRecords_eq h, handled, length_entries, countP_inserted, flushed_upToLastRead,
    hsplit]
  omega

end

/-- A kernel handed over before the first read is handled by it, and once more by the second: the
batch of the second read is taken to start at 1, behind two handled records. -/
theorem stray_handled_twice : ∃ tr p, (lts 0).Run tr p ∧
    (p.flush (oneBuffer [(4, 5)])).totRecords - (p.flush (oneBuffer [(4, 5)])).currRecords = 1 ∧
    handled 0 tr = 2 := by
  have h1 := run_callback (run_new 0) (oneBuffer [(0, 1)]).flatten
  have h2 := run_read h1 (oneBuffer [(2, 3)]) rfl
  exact ⟨_, _, h2, rfl, rfl⟩

theorem no_stray_once : ∃ tr p, (lts 0).Run tr p ∧
    (p.flush (oneBuffer [(4, 5)])).totRecords - (p.flush (oneBuffer [(4, 5)])).currRecords =
      handled 0 tr := by
  have h1 := run_read (run_new 0) (oneBuffer [(2, 3)]) rfl
  exact ⟨_, _, h1, (offset_eq_handled_iff h1 _).2
    (by simp [upToLastRead, List.rdropWhile, Event.isRead, strays, flushed, oneBuffer,
      Activity.isKernel])⟩

end Propreact.CuptiProfiler
