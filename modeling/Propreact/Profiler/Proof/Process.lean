import Propreact.Profiler.Proof.Loops

/-!
# `process` as a whole

`Balanced`: what every call of `process` needs and leaves. From a balanced state `process` is the
merge, the lookup and the publishing of one batch (`process_eq`); if it returns, the state is
extended by the batch (`process_ok`).
-/

namespace Propreact.CuptiProfiler

open Sequences

/-- `m_tup_vec` and `m_keyval_vec` have an entry for each disjoint record, with the same start. -/
structure Balanced (p : CuptiProfiler) : Prop where
  tups : p.tupVec.length = p.totDisjointRecords
  starts : p.keyvalVec.map startOf = p.tupVec.map CuptiTuple.first

theorem Balanced.keyvals {p : CuptiProfiler} (h : Balanced p) :
    p.keyvalVec.length = p.totDisjointRecords := by
  have := congrArg List.length h.starts
  rw [List.length_map, List.length_map] at this
  rw [this, h.tups]

/-- The first record of the batch that `process` handles. -/
def offset (p : CuptiProfiler) : Nat := p.totRecords - p.currRecords

/-- The batch that `process` handles, sorted. -/
def batch (p : CuptiProfiler) : List CuptiTuple :=
  (p.tupVecRaw.drop p.offset).insertionSort CuptiTuple.le

/-- The state with a batch's tuples and kernels added. -/
def extend (p : CuptiProfiler) (tups : List CuptiTuple) (keyvals : List ExpKeyCuptiTuple) :
    CuptiProfiler :=
  { p with
    tupVecRaw := sortBatch p.tupVecRaw p.offset
    tupVec := p.tupVec ++ tups
    keyvalVec := p.keyvalVec ++ keyvals
    totDisjointRecords := p.totDisjointRecords + tups.length }

/-- The kernels a merge kept, looked up by their starts. -/
def kernelsAt (p : CuptiProfiler) (tups : List CuptiTuple) : Option (List ExpKeyCuptiTuple) :=
  pick startOf (p.keyvalVecRaw.drop p.totDisjointRecords) (tups.map CuptiTuple.first)

/-- The merge of the batch. -/
def mergeBatch (p : CuptiProfiler) : Except Fault (List CuptiTuple) :=
  match p.batch with
  | [] => .error .outOfRange
  | first :: batch =>
    walk p.offset first none batch
      ((sortBatch p.tupVecRaw p.offset).drop (p.totDisjointRecords + 1))

theorem drop_sortBatch (raw : List CuptiTuple) (offset : Nat) :
    (sortBatch raw offset).drop offset = (raw.drop offset).insertionSort CuptiTuple.le := by
  rw [sortBatch]
  by_cases h : offset ≤ raw.length
  · rw [List.drop_left' (by rw [List.length_take]; omega)]
  · have hraw : raw.drop offset = [] := List.drop_of_length_le (by omega)
    rw [hraw, List.insertionSort_nil, List.append_nil, List.take_of_length_le (by omega), hraw]

theorem sortBatch_perm (raw : List CuptiTuple) (offset : Nat) :
    (sortBatch raw offset).Perm raw := by
  rw [sortBatch]
  have hperm := (List.perm_insertionSort CuptiTuple.le (raw.drop offset)).append_left
    (raw.take offset)
  rwa [List.take_append_drop] at hperm

/-- The tuples of a batch start with the first record, and there is at most one for each. -/
theorem walk_head {offset : Nat} {cur : CuptiTuple} {prev : Option CuptiTuple}
    {batch pushed es : List CuptiTuple} (h : walk offset cur prev batch pushed = .ok es) :
    (∃ t ts, es = t :: ts ∧ t.first = cur.first) ∧ es.length ≤ batch.length + 1 := by
  fun_induction walk offset cur prev batch pushed generalizing es with
  | case1 => cases h; exact ⟨⟨_, _, rfl, rfl⟩, by simp⟩
  | case2 => cases h; exact ⟨⟨_, _, rfl, rfl⟩, by simp⟩
  | case3 => cases h
  | case4 => cases h
  | case5 _ _ _ _ _ _ ih =>
    obtain ⟨es', hwalk, rfl⟩ := Loop.map_eq_ok.1 h
    have := (ih hwalk).2
    exact ⟨⟨_, _, rfl, rfl⟩, by simp; omega⟩
  | case6 _ _ _ _ _ ih =>
    obtain ⟨hfirst, hlen⟩ := ih h
    exact ⟨hfirst, by simp; omega⟩
  | case7 => cases h; exact ⟨⟨_, _, rfl, rfl⟩, by simp⟩
  | case8 _ _ _ _ _ _ _ ih =>
    obtain ⟨es', hwalk, rfl⟩ := Loop.map_eq_ok.1 h
    have := (ih hwalk).2
    exact ⟨⟨_, _, rfl, merged_first _ _⟩, by simp; omega⟩
  | case9 _ _ _ _ _ _ _ ih =>
    obtain ⟨hfirst, hlen⟩ := ih h
    exact ⟨hfirst, by simp; omega⟩

variable {p p' : CuptiProfiler} {out : Published}

theorem ne_nil_of_mergeBatch {tups : List CuptiTuple} (h : p.mergeBatch = .ok tups) :
    tups ≠ [] := by
  unfold mergeBatch at h
  split at h
  · cases h
  · obtain ⟨⟨t, ts, rfl, -⟩, -⟩ := walk_head h
    exact List.cons_ne_nil t ts

theorem merge_mergeBatch :
    merge (sortBatch p.tupVecRaw p.offset) p.offset p.totDisjointRecords p.tupVec =
      (fun tups => (p.tupVec ++ tups, tups.length)) <$> p.mergeBatch := by
  have hdrop := drop_sortBatch p.tupVecRaw p.offset
  unfold mergeBatch batch
  cases hbatch : (p.tupVecRaw.drop p.offset).insertionSort CuptiTuple.le with
  | nil =>
    rw [hbatch] at hdrop
    rw [merge, sub_eq_error (length_le_of_drop hdrop)]
    rfl
  | cons first batch =>
    rw [hbatch] at hdrop
    exact merge_eq hdrop

/-- **`process` of a batch**, from a balanced state. -/
theorem process_eq (h : Balanced p) :
    p.process = do
      let tups ← p.mergeBatch
      let keyvals ← orOutOfRange (p.kernelsAt tups)
      return (p.extend tups keyvals, publishedOf (p.keyvalVec.getLast?.toList ++ keyvals)) := by
  have hmerge := merge_mergeBatch (p := p)
  have hk := h.keyvals
  unfold process
  dsimp only
  rw [show p.totRecords - p.currRecords = p.offset from rfl, hmerge]
  cases hm : p.mergeBatch with
  | error e => rfl
  | ok tups =>
    have hlen : (p.tupVec ++ tups).length = p.totDisjointRecords + tups.length := by
      rw [List.length_append, h.tups]
    have hdrop : (p.tupVec ++ tups).drop p.totDisjointRecords = tups := by
      rw [← h.tups, List.drop_left]
    have hrebuild := rebuild_eq p.keyvalVecRaw p.keyvalVec hlen
    rw [hdrop] at hrebuild
    simp only [Functor.map, Except.map, Loop.ok_bind, hrebuild]
    cases hpick : p.kernelsAt tups with
    | none =>
      rw [kernelsAt] at hpick
      rw [hpick]
      rfl
    | some keyvals =>
      have hkeyvals : keyvals.length = tups.length := by
        have := congrArg List.length (pick_map hpick)
        rwa [List.length_map, List.length_map] at this
      have hne : keyvals ≠ [] := by
        rw [← List.length_pos_iff, hkeyvals, List.length_pos_iff]
        exact ne_nil_of_mergeBatch hm
      have hpublish := publish_eq p.keyvalVec hne
      rw [hk, hkeyvals] at hpublish
      rw [kernelsAt] at hpick
      rw [hpick]
      simp [orOutOfRange, hpublish, extend]

theorem process_ok (h : Balanced p) :
    p.process = .ok (p', out) ↔
      ∃ tups keyvals, p.mergeBatch = .ok tups ∧ p.kernelsAt tups = some keyvals ∧
        p' = p.extend tups keyvals ∧
        out = publishedOf (p.keyvalVec.getLast?.toList ++ keyvals) := by
  rw [process_eq h, Loop.bind_eq_ok]
  refine exists_congr fun tups => ?_
  cases hpick : p.kernelsAt tups with
  | none => simp [orOutOfRange]
  | some keyvals => simp [orOutOfRange, eq_comm]

theorem process_balanced (h : Balanced p) (hp : p.process = .ok (p', out)) : Balanced p' := by
  obtain ⟨tups, keyvals, -, hk, rfl, -⟩ := (process_ok h).1 hp
  refine ⟨?_, ?_⟩
  · rw [extend, List.length_append, h.tups]
  · rw [extend, List.map_append, List.map_append, h.starts, pick_map hk]

end Propreact.CuptiProfiler
