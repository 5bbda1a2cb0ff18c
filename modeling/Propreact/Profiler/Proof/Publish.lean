import Propreact.Profiler.Proof.Deliver

/-!
# Every pair is published once

Along every run, whatever the records are: what was published so far are the neighbours of
`m_keyval_vec`, in order (`published_once`).
-/

namespace Propreact.CuptiProfiler

open Sequences

theorem publishedOf_append (l m : List ExpKeyCuptiTuple) :
    (publishedOf (l ++ m)).produced =
        (publishedOf l).produced ++ (publishedOf (l.getLast?.toList ++ m)).produced ∧
      (publishedOf (l ++ m)).window =
        (publishedOf l).window ++ (publishedOf (l.getLast?.toList ++ m)).window := by
  simp only [publishedOf, consecutive_append l m, List.map_append, List.flatMap_append, and_self]

/-- Entry `i` of what is published is about entries `i` and `i + 1`. -/
theorem published_at {l : List ExpKeyCuptiTuple} {i : Nat} {r : Record} :
    (publishedOf l).produced[i]? = some r ↔
      ∃ e next, l[i]? = some e ∧ l[i + 1]? = some next ∧ r = (usageOf (e, next)).record := by
  rw [publishedOf, List.map_map, List.getElem?_map, getElem?_consecutive]
  refine ⟨fun h => ?_, fun h => ?_⟩
  · obtain ⟨g, hg, rfl⟩ := Option.map_eq_some_iff.1 h
    obtain ⟨e, he, hg⟩ := Option.bind_eq_some_iff.1 hg
    obtain ⟨next, hnext, rfl⟩ := Option.map_eq_some_iff.1 hg
    exact ⟨e, next, he, hnext, rfl⟩
  · obtain ⟨e, next, he, hnext, rfl⟩ := h
    rw [he, hnext]
    rfl

theorem produced_concat (tr : List Event) (e : Event) :
    produced (tr ++ [e]) = produced tr ++ produced [e] := List.flatMap_append

theorem windowCalls_concat (tr : List Event) (e : Event) :
    windowCalls (tr ++ [e]) = windowCalls tr ++ windowCalls [e] := List.flatMap_append

/-- The vectors are balanced, and the trace has published the neighbours of `m_keyval_vec`. -/
structure Reported (tr : List Event) (p : CuptiProfiler) : Prop where
  balanced : Balanced p
  produced : produced tr = (publishedOf p.keyvalVec).produced
  window : windowCalls tr = (publishedOf p.keyvalVec).window

section
variable {p p' : CuptiProfiler} {out : Published} {tr : List Event} {start : ULong}

theorem Balanced.of_eq (h : Balanced p) (ht : p'.tupVec = p.tupVec)
    (hk : p'.keyvalVec = p.keyvalVec) (hd : p'.totDisjointRecords = p.totDisjointRecords) :
    Balanced p' :=
  ⟨by rw [ht, hd, h.tups], by rw [ht, hk, h.starts]⟩

theorem flush_balanced (h : Balanced p) (buffers : List (List Activity)) :
    Balanced (p.flush buffers) := by
  have hf := flush_flushed p buffers
  exact h.of_eq hf.tupVec hf.keyvalVec hf.disjoint

/-- A read appends to both vectors, and publishes the neighbours that this adds. -/
theorem read_ok {buffers : List (List Activity)} (h : Balanced p)
    (hr : p.read buffers = .ok (p', out)) :
    Balanced p' ∧ p.tupVec <+: p'.tupVec ∧ ∃ keyvals, p'.keyvalVec = p.keyvalVec ++ keyvals ∧
      out = publishedOf (p.keyvalVec.getLast?.toList ++ keyvals) := by
  have hf := flush_flushed p buffers
  have hb := flush_balanced h buffers
  obtain ⟨tups, keyvals, -, -, rfl, rfl⟩ := (process_ok hb).1 hr
  refine ⟨process_balanced hb hr, ⟨tups, ?_⟩, keyvals, ?_, ?_⟩
  · rw [extend, hf.tupVec]
  · rw [extend, hf.keyvalVec]
  · rw [hf.keyvalVec]

/-- A read publishes a record for each kernel it adds, but for the first of all. -/
theorem read_length {buffers : List (List Activity)} (h : Balanced p)
    (hr : p.read buffers = .ok (p', out)) :
    out.produced.length = p'.totDisjointRecords - max 1 p.totDisjointRecords := by
  obtain ⟨hb', -, keyvals, hk, rfl⟩ := read_ok h hr
  have hlen := hb'.keyvals
  rw [hk, List.length_append, h.keyvals] at hlen
  have hlast : p.keyvalVec.getLast?.toList.length = min 1 p.totDisjointRecords := by
    rw [← h.keyvals]
    cases p.keyvalVec with
    | nil => rfl
    | cons e es =>
      rw [List.getLast?_cons]
      simp
  simp only [publishedOf, consecutive, List.length_map, List.length_zip, List.length_tail,
    List.length_append, hlast]
  omega

theorem Reported.step {e : Event} (h : Reported tr p) (hs : p.step e p') :
    Reported (tr ++ [e]) p' := by
  obtain ⟨hb, hprod, hwin⟩ := h
  cases e with
  | callback buffer =>
    obtain rfl : p' = p.returnBuffer buffer := hs
    have hd := returnBuffer_delivered p buffer
    refine ⟨hb.of_eq hd.tupVec hd.keyvalVec hd.disjoint, ?_, ?_⟩
    · rw [produced_concat, hprod, hd.keyvalVec]
      exact List.append_nil _
    · rw [windowCalls_concat, hwin, hd.keyvalVec]
      exact List.append_nil _
  | read buffers out =>
    obtain ⟨hb', -, keyvals, hk, rfl⟩ := read_ok hb hs
    obtain ⟨hp, hw⟩ := publishedOf_append p.keyvalVec keyvals
    refine ⟨hb', ?_, ?_⟩
    · rw [produced_concat, hprod, hk, hp]
      simp [CuptiProfiler.produced]
    · rw [windowCalls_concat, hwin, hk, hw]
      simp [windowCalls]

theorem reported (h : (lts start).Run tr p) : Reported tr p := by
  refine h.trace_inv (fun p hi => ?_) fun tr p e p' _ hI hs => hI.step hs
  obtain rfl : p = new start := hi
  exact ⟨⟨rfl, rfl⟩, rfl, rfl⟩

/-- **Every pair once**: at any time both vectors have `m_tot_disjoint_records` entries with the
same starts; all that was published are the busy and idle times of the neighbours of
`m_keyval_vec`, in order; and a read only appends to the vectors. -/
theorem published_once (h : (lts start).Run tr p) :
    p.tupVec.length = p.totDisjointRecords ∧ p.keyvalVec.length = p.totDisjointRecords ∧
    p.keyvalVec.map startOf = p.tupVec.map CuptiTuple.first ∧
    produced tr = ((consecutive p.keyvalVec).map fun e =>
      (⟨e.1.1.x, e.1.2.second - e.1.2.first, e.2.2.first - e.1.2.second⟩ : Record)) ∧
    windowCalls tr = ((consecutive p.keyvalVec).flatMap fun e =>
      [.writeDataIdle e.1.1 (e.2.2.first - e.1.2.second),
        .writeDataActive e.1.1 (e.1.2.second - e.1.2.first)]) ∧
    ∀ buffers p' out, p.read buffers = .ok (p', out) →
      p.tupVec <+: p'.tupVec ∧ p.keyvalVec <+: p'.keyvalVec := by
  obtain ⟨hb, hprod, hwin⟩ := reported h
  refine ⟨hb.tups, hb.keyvals, hb.starts, ?_, ?_, fun buffers p' out hr => ?_⟩
  · rw [hprod, publishedOf, List.map_map]
    rfl
  · rw [hwin, publishedOf, List.flatMap_map]
    rfl
  · obtain ⟨-, ht, keyvals, hk, -⟩ := read_ok hb hr
    exact ⟨ht, keyvals, hk.symm⟩

end

/-- Three kernels in two reads. -/
theorem two_reads_published : ∃ tr p, (lts 0).Run tr p ∧ p.keyvalVec.length = 3 ∧
    produced tr = ((consecutive p.keyvalVec).map fun e =>
      (⟨e.1.1.x, e.1.2.second - e.1.2.first, e.2.2.first - e.1.2.second⟩ : Record)) := by
  have h1 := run_read (run_new 0) (oneBuffer [(0, 1), (2, 3)]) rfl
  have h2 := run_read h1 (oneBuffer [(10, 20)]) rfl
  exact ⟨_, _, h2, rfl, (published_once h2).2.2.2.1⟩

end Propreact.CuptiProfiler
