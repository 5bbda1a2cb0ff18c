import Propreact.Client.Proof.Packet
import Propreact.Profiler.Proof.Counters

/-!
# Reading with nothing new

`process` is written for at least one record: it pushes the first record of the batch before it
compares anything with the size of the vector. So a read whose flush delivers no record never leaves
things as they are (`empty_read_not_harmless`): where all records came in reads it goes out of range
at once (`empty_read_eq`), and behind a callback it counts that buffer's kernels.
-/

namespace Propreact

namespace CuptiProfiler

variable {start : ULong} {tr : List Event} {p p' : CuptiProfiler} {out : Published}
  {buffers : List (List Activity)}

/-- A read that returns has added a disjoint record. -/
theorem read_disjoint_lt (h : Balanced p) (hr : p.read buffers = .ok (p', out)) :
    p.totDisjointRecords < p'.totDisjointRecords := by
  obtain ⟨tups, keyvals, hmerge, -, rfl, -⟩ := (process_ok (flush_balanced h buffers)).1 hr
  have hpos : 0 < tups.length := List.length_pos_iff.2 (ne_nil_of_mergeBatch hmerge)
  rw [extend, (flush_flushed p buffers).disjoint]
  exact Nat.lt_add_of_pos_right hpos

/-- While all records are counted, an empty read pushes a record that is not there. -/
theorem empty_read_eq (h : Balanced p) (hraw : p.tupVecRaw.length ≤ p.totRecords)
    (hb : buffers.flatten = []) : p.read buffers = .error .outOfRange := by
  have hf := flush_flushed p buffers
  have hbatch : (p.flush buffers).batch = [] := by
    rw [batch, hf.offset, hf.tupVecRaw, hb]
    show ((p.tupVecRaw ++ []).drop p.totRecords).insertionSort CuptiTuple.le = []
    rw [List.append_nil, List.drop_of_length_le hraw, List.insertionSort_nil]
  have hmerge : (p.flush buffers).mergeBatch = .error .outOfRange := by
    rw [mergeBatch, hbatch]
  rw [read, process_eq (flush_balanced h buffers), hmerge]
  rfl

/-- Without callbacks between the reads `m_tot_records` counts every kernel. -/
theorem length_tupVecRaw_le (h : (lts start).Run tr p) (hs : strays tr = []) :
    p.tupVecRaw.length ≤ p.totRecords := by
  rw [length_tupVecRaw h, length_entries, countP_inserted, hs, totRecords_eq h]
  exact List.countP_le_length

end CuptiProfiler

namespace Xrush

variable {start : ULong} {pkt : Vector ULong pktWords} {tr : List Event} {s s' : Xrush} {e : Event}
  {buffers : List (List Activity)}

/-- The profiler takes its part of every step. -/
theorem next_prof {a : Action} (h : s.next a = some (e, s')) :
    match e.ofProfiler with
    | some e' => ∃ p, s.prof.step e' p ∧ s'.prof = p
    | none => s'.prof = s.prof := by
  unfold next at h
  split at h
  · cases h
  · cases a with
    | callback buffer =>
      cases h
      exact ⟨_, rfl, rfl⟩
    | profile buffers =>
      simp only [profile] at h
      split at h
      · rename_i prof out hr
        split at h
        · cases h
          exact ⟨prof, hr, rfl⟩
        · cases h
      · cases h
    | launch g now =>
      simp only [launch] at h
      split at h
      · cases h
        rfl
      · split at h
        · split at h <;> cases h <;> rfl
        · cases h

/-- A run of the client is a run of its profiler. -/
theorem prof_run (h : (lts start pkt).Run tr s) :
    (CuptiProfiler.lts start).Run (tr.filterMap Event.ofProfiler) s.prof := by
  obtain ⟨p, hrun, rfl⟩ := h.simulate (N := CuptiProfiler.lts start) (p := Event.ofProfiler)
    (R := fun s p => s.prof = p)
    (by rintro s rfl; exact ⟨.new start, rfl, rfl⟩)
    (by
      rintro s p e s' rfl ⟨a, ha⟩
      have hstep := next_prof ha
      cases hp : e.ofProfiler <;> rw [hp] at hstep <;> exact hstep)
  exact hrun

/-- Nothing is written to the window, the profiler's results stay as they are, and records that
were produced and not consumed can still be consumed. -/
structure Harmless (s : Xrush) (out : Published) (s' : Xrush) : Prop where
  window : out.window = []
  tupVec : s'.prof.tupVec = s.prof.tupVec
  keyvalVec : s'.prof.keyvalVec = s.prof.keyvalVec
  disjoint : s'.prof.totDisjointRecords = s.prof.totDisjointRecords
  available : s.gwin.stale = false → ∀ r gwin, s.gwin.consume = .ret (r, gwin) →
    ∃ gwin', s'.gwin.consume = .ret (r, gwin')

/-- **Reading with nothing new** is harmless in no state: if the read returns, which it does not
where every record so far came in a read, it has counted a disjoint record more. -/
theorem empty_read_not_harmless (h : (lts start pkt).Run tr s) (hb : buffers.flatten = []) :
    (¬ ∃ out s', s.profile buffers = some (.profiled buffers out, s') ∧ Harmless s out s') ∧
      ((∀ buffer, .callback buffer ∉ tr) → s.prof.read buffers = .error .outOfRange) := by
  have hrun := prof_run h
  have hbalanced := (CuptiProfiler.reported hrun).balanced
  constructor
  · intro hread
    obtain ⟨out, s', hprofile, hharmless⟩ := hread
    unfold profile at hprofile
    split at hprofile
    · rename_i prof out hr
      have hlt := CuptiProfiler.read_disjoint_lt hbalanced hr
      split at hprofile
      · cases hprofile
        exact absurd hharmless.disjoint (ne_of_gt hlt)
      · cases hprofile
    · cases hprofile
  · intro hcallbacks
    apply CuptiProfiler.empty_read_eq hbalanced _ hb
    apply CuptiProfiler.length_tupVecRaw_le hrun
    rw [CuptiProfiler.strays, List.flatMap_eq_nil_iff]
    intro e' he'
    obtain ⟨e, he, heq⟩ := List.mem_filterMap.1 he'
    cases e with
    | callback buffer => exact absurd he (hcallbacks buffer)
    | profiled buffers out =>
      cases heq
      rfl
    | marked g => cases heq
    | requested g r => cases heq

/-- A read of one kernel, and a read of none. -/
theorem second_read_empty : ∃ tr s, (lts 0 (Vector.replicate pktWords 0)).Run tr s ∧
    (¬ ∃ out s', s.profile [] = some (.profiled [] out, s') ∧ Harmless s out s') ∧
      s.prof.read [] = .error .outOfRange := by
  have hrun : (lts 0 (Vector.replicate pktWords 0)).Run [] (create 0 _) := .nil rfl
  have h1 := hrun.snoc ⟨.profile (CuptiProfiler.oneBuffer [(0, 1)]), next_profile rfl rfl rfl⟩
  obtain ⟨hnot, hout⟩ := @empty_read_not_harmless _ _ _ _ [] h1 rfl
  exact ⟨_, _, h1, hnot, hout fun _ => by simp⟩

/-- The second read goes out of range. -/
theorem empty_read_out_of_range : ∃ tr s, (lts 0 (Vector.replicate pktWords 0)).Run tr s ∧
    tr.length = 1 ∧ s.prof.tupVec = [⟨0, 1⟩] ∧ s.prof.read [] = .error .outOfRange ∧
    ¬ ∃ out s', s.profile [] = some (.profiled [] out, s') ∧ Harmless s out s' := by
  have hrun : (lts 0 (Vector.replicate pktWords 0)).Run [] (create 0 _) := .nil rfl
  have h1 := hrun.snoc ⟨.profile (CuptiProfiler.oneBuffer [(0, 1)]), next_profile rfl rfl rfl⟩
  refine ⟨_, _, h1, rfl, rfl, rfl, ?_⟩
  intro hread
  obtain ⟨out, s', hprofile, -⟩ := hread
  cases hprofile

end Xrush

end Propreact
