import Mathlib.Algebra.Order.Field.Rat
import Mathlib.Data.Nat.Cast.Order.Field
import Propreact.Lib.Interval
import Propreact.Profiler.Proof.Counters
import Propreact.Profiler.Proof.Kept
import Propreact.Profiler.Proof.Publish

/-!
# The merge invents no busy time

Whichever records the merge pushes, each tuple of `m_tup_vec` is a record, or leads from the start
of a tuple to the end of a record that touches it. So along every run all instants of the tuples
are covered by records (`invents_no_busy_time`).
-/

namespace Propreact.CuptiProfiler

open Interval

/-- The ends of a tuple, as instants. -/
def opening (t : CuptiTuple) : ℚ := t.first.toNat
def closing (t : CuptiTuple) : ℚ := t.second.toNat

/-- The tuple does not end before it starts, and all its instants are covered by `raw`. -/
structure Busy (raw : List CuptiTuple) (t : CuptiTuple) : Prop where
  ends : t.first ≤ t.second
  covered : Covered opening closing raw t

variable {raw : List CuptiTuple} {cur prev : CuptiTuple}

theorem Busy.mono {raw' : List CuptiTuple} {t : CuptiTuple} (h : Busy raw t) (hs : raw ⊆ raw') :
    Busy raw' t := ⟨h.ends, h.covered.mono hs⟩

/-- A busy tuple prolonged to the end of a record that starts before it ends. -/
theorem Busy.merged (h : Busy raw cur) (hs : Short raw) (hprev : prev ∈ raw)
    (htouch : prev.first ≤ cur.second) : Busy raw (merged cur prev) := by
  rw [CuptiProfiler.merged, toInt_of_lt (hs prev hprev).2]
  split
  · rename_i hgt
    refine ⟨h.ends.trans (le_of_lt hgt), h.covered.join hprev ?_ rfl rfl⟩
    show ((prev.first.toNat : ℚ)) ≤ cur.second.toNat
    exact_mod_cast UInt64.le_iff_toNat_le.1 htouch
  · exact h

section
variable (hends : ∀ t ∈ raw, t.first ≤ t.second)
include hends

theorem Busy.of_mem {t : CuptiTuple} (ht : t ∈ raw) : Busy raw t := ⟨hends t ht, .of_mem ht⟩

variable (hs : Short raw)
include hs

theorem Busy.unsigned {t : CuptiTuple} (ht : t ∈ raw) : Busy raw (unsigned t) := by
  have hlt := hs.fits t ht
  rw [CuptiProfiler.unsigned, toUnsigned_of_lt hlt.1, toUnsigned_of_lt hlt.2]
  exact Busy.of_mem hends ht

/-- The tuples of a merge are busy, whatever part of the records it pushes from. -/
theorem walk_busy {offset : Nat} {last : Option CuptiTuple} {batch pushed es : List CuptiTuple}
    (hcur : Busy raw cur) (hlast : ∀ q ∈ last, q ∈ raw ∧ q.first ≤ cur.second) (hb : batch ⊆ raw)
    (hp : pushed ⊆ raw) (h : walk offset cur last batch pushed = .ok es) :
    ∀ t ∈ es, Busy raw t := by
  fun_induction walk offset cur last batch pushed generalizing es with
  | case1 cur =>
    cases h
    simpa using hcur
  | case2 cur =>
    cases h
    simpa using hcur
  | case3 => cases h
  | case4 => cases h
  | case5 cur next batch hgt tup pushed ih =>
    obtain ⟨es', hwalk, rfl⟩ := Loop.map_eq_ok.1 h
    obtain ⟨htup, hp⟩ := List.cons_subset.1 hp
    have hes := ih (.of_mem hends htup) (by simp) (List.cons_subset.1 hb).2 hp hwalk
    exact List.forall_mem_cons.2 ⟨hcur, hes⟩
  | case6 cur next batch pushed hle ih =>
    obtain ⟨hnext, hb⟩ := List.cons_subset.1 hb
    refine ih hcur ?_ hb (fun t ht => hp (List.mem_of_mem_tail ht)) h
    rintro q ⟨⟩
    exact ⟨hnext, not_lt.1 hle⟩
  | case7 cur =>
    cases h
    simpa using hcur
  | case8 cur pushed prev next batch ho hgt ih =>
    obtain ⟨es', hwalk, rfl⟩ := Loop.map_eq_ok.1 h
    obtain ⟨hnext, hb⟩ := List.cons_subset.1 hb
    obtain ⟨hprev, htouch⟩ := hlast prev rfl
    have hes := ih (.unsigned hends hs hnext) (by simp) hb
      (fun t ht => hp (List.mem_of_mem_tail ht)) hwalk
    exact List.forall_mem_cons.2 ⟨hcur.merged hs hprev htouch, hes⟩
  | case9 cur pushed prev next batch ho hle ih =>
    obtain ⟨hnext, hb⟩ := List.cons_subset.1 hb
    refine ih hcur ?_ hb (fun t ht => hp (List.mem_of_mem_tail ht)) h
    rintro q ⟨⟩
    rw [toUnsigned_of_lt (hs.fits next hnext).1] at hle
    exact ⟨hnext, not_lt.1 hle⟩

end

/-- The tuples a call of `process` adds are busy. -/
theorem mergeBatch_busy {p : CuptiProfiler} {tups : List CuptiTuple}
    (hends : ∀ t ∈ p.tupVecRaw, t.first ≤ t.second) (hs : Short p.tupVecRaw)
    (h : p.mergeBatch = .ok tups) : ∀ t ∈ tups, Busy p.tupVecRaw t := by
  have hbatch : p.batch ⊆ p.tupVecRaw := by
    intro t ht
    exact List.mem_of_mem_drop ((List.mem_insertionSort _).1 ht)
  have hpushed : (sortBatch p.tupVecRaw p.offset).drop (p.totDisjointRecords + 1) ⊆
      p.tupVecRaw := by
    intro t ht
    exact (sortBatch_perm _ _).subset (List.mem_of_mem_drop ht)
  unfold mergeBatch at h
  split at h
  · cases h
  · rename_i first batch hcons
    rw [hcons] at hbatch
    obtain ⟨hfirst, hbatch⟩ := List.cons_subset.1 hbatch
    exact walk_busy hends hs (.of_mem hends hfirst) (by simp) hbatch hpushed h

section
variable {start : ULong} {tr : List Event} {p p' : CuptiProfiler}

/-- The kernels handed over in a run end no earlier than they start, at times below `2 ^ 31`. -/
structure Timed (start : ULong) (tr : List Event) : Prop where
  ends : ∀ t ∈ (entries start (inserted tr)).map Prod.snd, t.first ≤ t.second
  short : Short ((entries start (inserted tr)).map Prod.snd)

theorem Timed.concat {e : Event} (h : Timed start (tr ++ [e])) : Timed start tr := by
  obtain ⟨hends, hshort⟩ := h
  rw [inserted_concat, entries_append, List.map_append] at hends hshort
  refine ⟨fun t ht => hends t (List.mem_append_left _ ht), ?_⟩
  exact hshort.sublist (List.sublist_append_left _ _)

theorem Timed.tupVecRaw (h : Timed start tr) (hr : (lts start).Run tr p) :
    (∀ t ∈ p.tupVecRaw, t.first ≤ t.second) ∧ Short p.tupVecRaw := by
  have hsub := (perm_tupVecRaw hr).2.subset
  exact ⟨fun t ht => h.ends t (hsub ht), fun t ht => h.short t (hsub ht)⟩

/-- A read that returns adds busy tuples, and keeps the records. -/
theorem read_busy {buffers : List (List Activity)} {out : Published} (hb : Balanced p)
    (hr : p.read buffers = .ok (p', out)) (hends : ∀ t ∈ p'.tupVecRaw, t.first ≤ t.second)
    (hs : Short p'.tupVecRaw) (h : ∀ t ∈ p.tupVec, Busy p.tupVecRaw t) :
    ∀ t ∈ p'.tupVec, Busy p'.tupVecRaw t := by
  have hf := flush_flushed p buffers
  have hperm := (read_fields hr).2.2
  obtain ⟨tups, keyvals, hmerge, -, rfl, -⟩ := (process_ok (flush_balanced hb buffers)).1 hr
  have hraw : (p.flush buffers).tupVecRaw ⊆
      ((p.flush buffers).extend tups keyvals).tupVecRaw := hperm.symm.subset
  have hnew := mergeBatch_busy (fun t ht => hends t (hraw ht)) (fun t ht => hs t (hraw ht)) hmerge
  intro t ht
  rw [extend, hf.tupVec] at ht
  rcases List.mem_append.1 ht with ht | ht
  · refine (h t ht).mono fun k hk => hraw ?_
    rw [hf.tupVecRaw]
    exact List.mem_append_left _ hk
  · exact (hnew t ht).mono hraw

theorem run_busy (h : (lts start).Run tr p) (ht : Timed start tr) :
    ∀ t ∈ p.tupVec, Busy p.tupVecRaw t := by
  revert ht
  refine h.trace_inv (I := fun tr p => Timed start tr → ∀ t ∈ p.tupVec, Busy p.tupVecRaw t) ?_ ?_
  · rintro p rfl - t ⟨⟩
  · intro tr p e p' hr ih hs ht
    obtain ⟨hends, hshort⟩ := ht.tupVecRaw (hr.snoc hs)
    cases e with
    | callback buffer =>
      obtain rfl : p' = p.returnBuffer buffer := hs
      have hd := returnBuffer_delivered p buffer
      intro t hmem
      rw [hd.tupVec] at hmem
      rw [hd.tupVecRaw]
      exact (ih ht.concat t hmem).mono (List.subset_append_left _ _)
    | read buffers out => exact read_busy (reported hr).balanced hs hends hshort (ih ht.concat)

/-- **No invented busy time.** Along every run, also one with callbacks between the reads, each
interval of `m_tup_vec` ends no earlier than it starts, and each of its instants is covered by a
record of `m_tup_vec_raw`. -/
theorem invents_no_busy_time (h : (lts start).Run tr p)
    (hends : ∀ t ∈ (entries start (inserted tr)).map Prod.snd, t.first ≤ t.second)
    (hshort : Short ((entries start (inserted tr)).map Prod.snd)) :
    ∀ t ∈ p.tupVec, t.first ≤ t.second ∧
      ∀ x : ℚ, (t.first.toNat : ℚ) ≤ x → x ≤ t.second.toNat →
        ∃ k ∈ p.tupVecRaw, (k.first.toNat : ℚ) ≤ x ∧ x ≤ k.second.toNat := by
  intro t ht
  obtain ⟨hle, hcovered⟩ := run_busy h ⟨hends, hshort⟩ t ht
  exact ⟨hle, hcovered⟩

end

/-- Two reads; the second one merges two kernels and pushes the end of the later one. -/
theorem merged_tuple_busy : ∃ tr p, (lts 0).Run tr p ∧ p.tupVec = [⟨0, 1⟩, ⟨10, 25⟩, ⟨30, 40⟩] ∧
    ∀ t ∈ p.tupVec, t.first ≤ t.second ∧
      ∀ x : ℚ, (t.first.toNat : ℚ) ≤ x → x ≤ t.second.toNat →
        ∃ k ∈ p.tupVecRaw, (k.first.toNat : ℚ) ≤ x ∧ x ≤ k.second.toNat := by
  have h1 := run_read (run_new 0) (oneBuffer [(0, 1)]) rfl
  have h2 := run_read h1 (oneBuffer [(10, 20), (15, 25), (30, 40)]) rfl
  refine ⟨_, _, h2, rfl, invents_no_busy_time h2 (by decide) ?_⟩
  unfold Short
  decide

end Propreact.CuptiProfiler
