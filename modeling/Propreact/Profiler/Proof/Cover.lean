import Propreact.Lib.Interval
import Propreact.Profiler.Proof.Read

/-!
# Does the merge cover the batch?

After the first batch the intervals of `m_tup_vec` are strictly separated and contain all kernels
exactly if the batch is a sequence of `Groups` (`cover_iff`, `merge_covers_iff`). The induction is
over the merge; what it has passed behind the tuple `cur` overlaps `cur`.
-/

namespace Propreact.CuptiProfiler

/-- The intervals `es` are strictly separated and contain every kernel of `batch`. -/
structure Covers (es batch : List CuptiTuple) : Prop where
  separated : Interval.Separated CuptiTuple.first CuptiTuple.second es
  contained : ∀ k ∈ batch, ∃ t ∈ es, t.first ≤ k.first ∧ k.second ≤ t.second

variable {cur next : CuptiTuple} {mid batch es : List CuptiTuple}

/-! ## Groups -/

theorem groups_cons {l : List CuptiTuple} (h : Groups (cur :: l)) :
    (∀ b ∈ l, b.second ≤ cur.second) ∨
    (∃ next batch, l = next :: batch ∧ cur.second < next.first ∧ Groups (next :: batch)) ∨
    ∃ group last next batch, l = group ++ [last] ++ next :: batch ∧
      (∀ b ∈ group ++ [last], b.first ≤ cur.second) ∧
      (∀ b ∈ group ++ [last], b.second ≤ max cur.second last.second) ∧
      max cur.second last.second < next.first ∧ batch ≠ [] ∧ Groups (next :: batch) := by
  generalize hl : cur :: l = whole at h
  cases h with
  | final hends =>
    cases hl
    exact .inl hends
  | single hlt h =>
    cases hl
    exact .inr (.inl ⟨_, _, rfl, hlt, h⟩)
  | group hover hends hlt hne h =>
    cases hl
    exact .inr (.inr ⟨_, _, _, _, by simp, hover, hends, hlt, hne, h⟩)

/-- The final group: only its last kernel can start after the first one has ended. -/
theorem groups_final_iff {l : List CuptiTuple} (hfirst : ∀ b ∈ l.head?, b.first ≤ cur.second)
    (hover : ∀ b ∈ l.dropLast, b.first ≤ cur.second) :
    Groups (cur :: l) ↔ ∀ b ∈ l, b.second ≤ cur.second := by
  refine ⟨fun h => ?_, .final⟩
  rcases groups_cons h with hends | ⟨next, batch, rfl, hlt, -⟩ |
    ⟨group, last, next, batch, rfl, -, -, hlt, hne, -⟩
  · exact hends
  · exact absurd hlt (not_lt.2 (hfirst next rfl))
  · have hnext := hover next (by simp [List.dropLast_cons_of_ne_nil hne])
    exact absurd ((le_max_left _ _).trans_lt hlt) (not_lt.2 hnext)

theorem closed_some {last : CuptiTuple} (hs : last.second < 2147483648) :
    (closed cur (some last)).second = max cur.second last.second := by
  rw [closed, merged, toInt_of_lt hs]
  split
  · rename_i hgt
    exact (max_eq_right hgt.le).symm
  · rename_i hle
    exact (max_eq_left (not_lt.1 hle)).symm

theorem le_closed (cur : CuptiTuple) (prev : Option CuptiTuple) :
    cur.second ≤ (closed cur prev).second := by
  cases prev with
  | none => exact le_refl _
  | some last =>
    rw [closed, merged]
    split
    · rename_i hgt
      exact hgt.le
    · exact le_refl _

/-- The group of `cur` ends before `next`. -/
theorem groups_found_iff (hs : Short mid) (hover : ∀ m ∈ mid, m.first ≤ cur.second)
    (hgt : cur.second < next.first) (hnext : next.first ≤ next.second)
    (hne : mid ≠ [] → batch ≠ []) :
    Groups (cur :: (mid ++ next :: batch)) ↔
      (∀ m ∈ mid, m.second ≤ (closed cur mid.getLast?).second) ∧
        (closed cur mid.getLast?).second < next.first ∧ Groups (next :: batch) := by
  refine ⟨fun h => ?_, fun hgroup => ?_⟩
  · rcases groups_cons h with hends | ⟨next', batch', heq, hlt, h⟩ |
      ⟨group, last, next', batch', heq, hover', hends, hlt, -, h⟩
    · have hle := hends next (by simp)
      exact absurd (hgt.trans_le hnext) (not_lt.2 hle)
    · cases mid with
      | nil =>
        obtain ⟨rfl, rfl⟩ := List.cons_eq_cons.1 heq
        exact ⟨by simp, hgt, h⟩
      | cons m mid =>
        obtain ⟨rfl, -⟩ := List.cons_eq_cons.1 heq
        exact absurd hlt (not_lt.2 (hover m (by simp)))
    · obtain ⟨rfl, rfl, rfl⟩ := Sequences.append_cons_inj heq hover (not_le.2 hgt) hover'
        (not_le.2 ((le_max_left _ _).trans_lt hlt))
      rw [List.getLast?_concat, closed_some (hs last (by simp)).2]
      exact ⟨hends, hlt, h⟩
  · obtain ⟨hends, hlt, h⟩ := hgroup
    rcases List.eq_nil_or_concat' mid with rfl | ⟨group, last, rfl⟩
    · exact .single hgt h
    · rw [List.getLast?_concat, closed_some (hs last (by simp)).2] at hends hlt
      have := Groups.group hover hends hlt (hne (by simp)) h
      simpa using this

/-! ## Covers -/

/-- One interval covers the final group. -/
theorem covers_final_iff {l : List CuptiTuple} (hin : InOrder (cur :: l)) :
    Covers [cur] (cur :: l) ↔ ∀ b ∈ l, b.second ≤ cur.second := by
  refine ⟨fun h b hb => ?_, fun hends => ?_⟩
  · obtain ⟨t, ht, -, hle⟩ := h.contained b (List.mem_cons_of_mem _ hb)
    rw [List.mem_singleton.1 ht] at hle
    exact hle
  · refine ⟨.singleton _, fun k hk => ⟨cur, List.mem_singleton_self _, ?_⟩⟩
    rcases List.mem_cons.1 hk with rfl | hk
    · exact ⟨le_refl _, le_refl _⟩
    · exact ⟨hin.first_le k (List.mem_cons_of_mem _ hk), hends k hk⟩

/-- The tuple of the group of `cur` in front of the tuples of what follows. -/
theorem covers_found_iff {prev : Option CuptiTuple} (hin : InOrder (cur :: (mid ++ next :: batch)))
    (hover : ∀ m ∈ mid, m.first ≤ cur.second) (hgt : cur.second < next.first)
    (hhead : ∃ t ∈ es.head?, t.first = next.first) (hes : ∀ t ∈ es, next.first ≤ t.first) :
    Covers (closed cur prev :: es) (cur :: (mid ++ next :: batch)) ↔
      (∀ m ∈ mid, m.second ≤ (closed cur prev).second) ∧ (closed cur prev).second < next.first ∧
        Covers es (next :: batch) := by
  have hnext : InOrder (next :: batch) :=
    hin.sublist ((List.sublist_append_right mid (next :: batch)).cons cur)
  have hsep : Interval.Separated CuptiTuple.first CuptiTuple.second (closed cur prev :: es) ↔
      (closed cur prev).second < next.first ∧
        Interval.Separated CuptiTuple.first CuptiTuple.second es := by
    obtain ⟨t, ht, hfirst⟩ := hhead
    obtain ⟨es, rfl⟩ := List.head?_eq_some_iff.1 ht
    rw [← hfirst]
    exact List.isChain_cons_cons
  refine ⟨fun h => ?_, fun hcover => ?_⟩
  · obtain ⟨hlt, hsep⟩ := hsep.1 h.separated
    refine ⟨fun m hm => ?_, hlt, hsep, fun k hk => ?_⟩
    · obtain ⟨t, ht, hstart, hend⟩ := h.contained m (by simp [hm])
      rcases List.mem_cons.1 ht with rfl | ht
      · exact hend
      · have hge := (hes t ht).trans hstart
        exact absurd ((hover m hm).trans_lt hgt) (not_lt.2 hge)
    · obtain ⟨t, ht, hstart, hend⟩ := h.contained k (by simp [List.mem_cons.1 hk])
      rcases List.mem_cons.1 ht with rfl | ht
      · have hge := (hnext.first_le k hk).trans (hnext.ends k hk)
        exact absurd (hlt.trans_le (hge.trans hend)) (lt_irrefl _)
      · exact ⟨t, ht, hstart, hend⟩
  · obtain ⟨hends, hlt, h⟩ := hcover
    refine ⟨hsep.2 ⟨hlt, h.separated⟩, fun k hk => ?_⟩
    have hfirst := (closed_first cur prev).le.trans (hin.first_le k hk)
    rcases List.mem_cons.1 hk with rfl | hk
    · exact ⟨_, List.mem_cons_self, hfirst, le_closed _ _⟩
    · rcases List.mem_append.1 hk with hm | hk
      · exact ⟨_, List.mem_cons_self, hfirst, hends k hm⟩
      · obtain ⟨t, ht, hcontains⟩ := h.contained k hk
        exact ⟨t, List.mem_cons_of_mem _ ht, hcontains⟩

/-! ## The merge -/

/-- The tuples of a batch start with its first kernel. -/
theorem walk_starts (hin : InOrder (next :: batch)) (hs : Short batch)
    (h : walk 0 next none batch batch = .ok es) :
    (∃ t ∈ es.head?, t.first = next.first) ∧ ∀ t ∈ es, next.first ≤ t.first := by
  constructor
  · obtain ⟨⟨t, ts, rfl, hfirst⟩, -⟩ := walk_head h
    exact ⟨t, rfl, hfirst⟩
  · intro t ht
    have hmem : t.first ∈ es.map CuptiTuple.first := List.mem_map_of_mem ht
    rw [walk_kept hs.fits h] at hmem
    obtain ⟨k, hk, hfirst⟩ := List.mem_map.1 hmem
    rw [← hfirst]
    exact hin.first_le k ((kept_sublist _).subset hk)

/-- **The merge covers groups**, from the state where it has passed `mid` behind `cur`. -/
theorem cover_iff (mid : List CuptiTuple) (hin : InOrder (cur :: (mid ++ batch)))
    (hs : Short (mid ++ batch)) (hover : ∀ m ∈ mid, m.first ≤ cur.second)
    (h : walk 0 cur mid.getLast? batch batch = .ok es) :
    Covers es (cur :: (mid ++ batch)) ↔ Groups (cur :: (mid ++ batch)) := by
  induction batch generalizing cur mid es with
  | nil =>
    rw [walk_end (Nat.zero_le 1)] at h
    cases h
    rw [List.append_nil] at hin ⊢
    rw [covers_final_iff hin, groups_final_iff]
    · exact fun b hb => hover b (List.mem_of_head? hb)
    · exact fun b hb => hover b (List.mem_of_mem_dropLast hb)
  | cons next batch ih =>
    have hsbatch : Short (next :: batch) := hs.sublist (List.sublist_append_right _ _)
    rw [walk_cons hsbatch.fits] at h
    split at h
    · -- the search stops in front of the last record
      rename_i hlast
      obtain ⟨hsome, -, rfl⟩ := hlast
      cases h
      have hmid : mid ≠ [] := by
        rintro rfl
        cases hsome
      rw [covers_final_iff hin, groups_final_iff]
      · intro b hb
        rw [List.head?_append_of_ne_nil _ hmid] at hb
        exact hover b (List.mem_of_head? hb)
      · rw [List.dropLast_concat]
        exact hover
    · rename_i hlast
      split at h
      · rename_i hgt
        obtain ⟨es, hwalk, rfl⟩ := Loop.map_eq_ok.1 h
        have hin' : InOrder (next :: batch) :=
          hin.sublist ((List.sublist_append_right mid (next :: batch)).cons cur)
        have hnext : Covers es (next :: batch) ↔ Groups (next :: batch) :=
          ih [] hin' hsbatch.tail (by simp) hwalk
        obtain ⟨hhead, hes⟩ := walk_starts hin' hsbatch.tail hwalk
        have hsmid : Short mid := hs.sublist (List.sublist_append_left _ _)
        have hne : mid ≠ [] → batch ≠ [] := fun hmid hbatch => hlast
          ⟨List.getLast?_isSome.2 hmid, rfl, hbatch⟩
        rw [covers_found_iff hin hover hgt hhead hes, hnext,
          groups_found_iff hsmid hover hgt (hin'.ends next (by simp)) hne]
      · rename_i hle
        have hassoc : mid ++ next :: batch = mid ++ [next] ++ batch := by simp
        have hnext : ∀ m ∈ mid ++ [next], m.first ≤ cur.second :=
          List.forall_mem_append.2 ⟨hover, List.forall_mem_singleton.2 (not_lt.1 hle)⟩
        rw [hassoc] at hin hs ⊢
        refine ih _ hin hs hnext ?_
        rwa [List.getLast?_concat]

/-- **Cover of the first batch.** For kernels in order the first read returns, and the intervals of
`m_tup_vec` are strictly separated and contain all kernels if and only if the batch is a sequence
of `Groups`. -/
theorem merge_covers_iff {start : ULong} (kernels : List Kernel) {buffers : List (List Activity)}
    (hb : buffers.flatten = kernels.map .kernel) (hne : kernels ≠ [])
    (hin : InOrder (times start kernels)) (hshort : Short (times start kernels)) :
    ∃ p out, (new start).read buffers = .ok (p, out) ∧
      ((Interval.Separated CuptiTuple.first CuptiTuple.second p.tupVec ∧
          ∀ k ∈ times start kernels, ∃ t ∈ p.tupVec, t.first ≤ k.first ∧ k.second ≤ t.second) ↔
        Groups ((times start kernels).insertionSort CuptiTuple.le)) := by
  obtain ⟨p, first, rest, hcons, hwalk, -, hread⟩ := first_read hb hne hin hshort.fits
  refine ⟨p, _, hread, ?_⟩
  have hin' := hin.sort
  have hshort' := hshort.sort
  rw [hcons] at hin' hshort'
  have hcover : Covers p.tupVec (first :: rest) ↔ Groups (first :: rest) :=
    cover_iff [] hin' hshort'.tail (by simp) hwalk
  rw [hcons, ← hcover, ← hcons]
  -- sorting does not change what is covered
  refine ⟨fun hall => ?_, fun hall => ?_⟩
  · obtain ⟨hsep, hcontains⟩ := hall
    exact ⟨hsep, fun k hk => hcontains k ((List.mem_insertionSort _).1 hk)⟩
  · obtain ⟨hsep, hcontains⟩ := hall
    exact ⟨hsep, fun k hk => hcontains k ((List.mem_insertionSort _).2 hk)⟩

/-- A group of two kernels that ends with the first, and two kernels behind it. -/
theorem one_group_covered : ∃ p out,
    (new 0).read (oneBuffer [(0, 10), (5, 10), (20, 30), (40, 50)]) = .ok (p, out) ∧
      Interval.Separated CuptiTuple.first CuptiTuple.second p.tupVec ∧
      ∀ k ∈ [(⟨0, 10⟩ : CuptiTuple), ⟨5, 10⟩, ⟨20, 30⟩, ⟨40, 50⟩], ∃ t ∈ p.tupVec,
        t.first ≤ k.first ∧ k.second ≤ t.second := by
  obtain ⟨p, out, hr, hiff⟩ := @merge_covers_iff 0
    [⟨0, 10, 1, 1, 1⟩, ⟨5, 10, 1, 1, 1⟩, ⟨20, 30, 1, 1, 1⟩, ⟨40, 50, 1, 1, 1⟩]
    (oneBuffer [(0, 10), (5, 10), (20, 30), (40, 50)]) rfl (by simp) ⟨by decide, by decide⟩
    (by simp [Short, times, entry])
  have hlast : Groups [⟨20, 30⟩, ⟨40, 50⟩] := .single (by decide) (.final (by simp))
  have hgroups : Groups [⟨0, 10⟩, ⟨5, 10⟩, ⟨20, 30⟩, ⟨40, 50⟩] :=
    @Groups.group ⟨0, 10⟩ ⟨5, 10⟩ ⟨20, 30⟩ [] [⟨40, 50⟩] (by decide) (by decide) (by decide)
      (by simp) hlast
  exact ⟨p, out, hr, hiff.2 hgroups⟩

/-- The end of a kernel that overlaps the first one at the end of the batch is not merged. -/
theorem trailing_overlap_uncovered : ∃ p out,
    (new 0).read (oneBuffer [(0, 10), (5, 20)]) = .ok (p, out) ∧
      ¬ (Interval.Separated CuptiTuple.first CuptiTuple.second p.tupVec ∧
        ∀ k ∈ [(⟨0, 10⟩ : CuptiTuple), ⟨5, 20⟩], ∃ t ∈ p.tupVec,
          t.first ≤ k.first ∧ k.second ≤ t.second) := by
  refine ⟨_, _, rfl, fun h => ?_⟩
  obtain ⟨t, ht, -, hend⟩ := h.2 ⟨5, 20⟩ (by simp)
  have : t = ⟨0, 10⟩ := List.mem_singleton.1 ht
  rw [this] at hend
  exact absurd hend (by decide)

end Propreact.CuptiProfiler
