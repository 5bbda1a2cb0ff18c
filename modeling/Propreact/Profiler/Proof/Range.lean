import Propreact.Profiler.Proof.Read

/-!
# Subscripts out of range

When a read behind earlier ones stays inside its vectors (`Counted.read_iff`), and with it runs of
reads (`reads_in_range_iff`). If some record so far was not kept, the merge pushes from too far to
the left: the tuple pushed behind a kept neighbour starts no later than that (`walk_neighbours`),
and the lookup for the two runs off its vector.
-/

namespace Propreact.CuptiProfiler

open Sequences

section
variable {offset : Nat} {cur next : CuptiTuple} {prev : Option CuptiTuple}
  {raw passed batch pushed es : List CuptiTuple}

/-- The records `passed` so far, from the raw vector on: all start before `cur` ends, and if the
last one is `cur` then the others start before it. -/
structure PassedRaw (passed : List CuptiTuple) (cur : CuptiTuple) (prev : Option CuptiTuple) :
    Prop where
  overlap : ∀ a ∈ passed, a.first ≤ cur.second
  last : prev = none → ∃ before, passed = before ++ [cur] ∧ ∀ a ∈ before, a.first < cur.first

theorem PassedRaw.skip (h : PassedRaw passed cur prev) (hle : ¬ next.first > cur.second) :
    PassedRaw (passed ++ [next]) cur (some next) := by
  refine ⟨fun a ha => ?_, fun h => nomatch h⟩
  rcases List.mem_append.1 ha with ha | ha
  · exact h.overlap a ha
  · rw [List.mem_singleton.1 ha]
    exact not_lt.1 hle

theorem PassedRaw.found (h : PassedRaw passed cur prev) (hgt : next.first > cur.second)
    (hnext : next.first ≤ next.second) : PassedRaw (passed ++ [next]) next none := by
  have hbefore : ∀ a ∈ passed, a.first < next.first := fun a ha => (h.overlap a ha).trans_lt hgt
  refine ⟨fun a ha => ?_, fun _ => ⟨passed, rfl, hbefore⟩⟩
  rcases List.mem_append.1 ha with ha | ha
  · exact (hbefore a ha).le.trans hnext
  · rw [List.mem_singleton.1 ha]
    exact hnext

/-- `es` has a tuple that starts no later than the one before it, which starts like exactly one
record of `raw`. -/
def PushedBack (es raw : List CuptiTuple) : Prop :=
  ∃ s t : ULong, [s, t].Sublist (es.map CuptiTuple.first) ∧ t ≤ s ∧
    (raw.map CuptiTuple.first).Pairwise fun a b => a = s → s < b

/-- The start of a kept kernel is met once among those of the records around it. -/
theorem start_once (hbefore : ∀ a ∈ passed, a.first < cur.first)
    (hbehind : ∀ b ∈ batch, cur.first < b.first) :
    ((passed ++ [cur] ++ batch).map CuptiTuple.first).Pairwise fun a b =>
      a = cur.first → cur.first < b := by
  rw [List.pairwise_map, List.append_assoc, List.singleton_append, List.pairwise_append,
    List.pairwise_cons]
  refine ⟨?_, ⟨fun b hb _ => hbehind b hb, ?_⟩, fun a ha b _ heq => ?_⟩
  · refine List.pairwise_of_forall_mem_list fun a ha b _ heq => ?_
    exact absurd heq (hbefore a ha).ne
  · refine List.pairwise_of_forall_mem_list fun a ha b _ heq => ?_
    exact absurd heq (hbehind a ha).ne'
  · exact absurd heq (hbefore a ha).ne

variable {lag : Nat}

/-- The tuple pushed behind the kept kernel `cur` is `cur` itself or one before it. -/
theorem pushedBack_of_neighbour (hin : InOrder (cur :: next :: batch))
    (hbefore : ∀ a ∈ passed, a.first < cur.first) (hgt : next.first > cur.second)
    (hlag : 0 < lag) (hle : lag ≤ (passed ++ [cur]).length)
    (h : walk offset cur none (next :: batch)
      ((passed ++ [cur] ++ next :: batch).drop ((passed ++ [cur]).length - lag)) = .ok es) :
    PushedBack es (passed ++ [cur] ++ next :: batch) := by
  have hdrop : (passed ++ [cur]).drop ((passed ++ [cur]).length - lag) ≠ [] := by
    rw [Ne, List.drop_eq_nil_iff]
    omega
  obtain ⟨tup, tups, htups⟩ := List.exists_cons_of_ne_nil hdrop
  have htup : tup ∈ passed ++ [cur] := List.mem_of_mem_drop (htups ▸ List.mem_cons_self)
  rw [List.drop_append_of_le_length (Nat.sub_le _ _), htups, List.cons_append,
    walk_separated hgt] at h
  obtain ⟨es', hwalk, rfl⟩ := Loop.map_eq_ok.1 h
  obtain ⟨⟨t, ts, rfl, hfirst⟩, -⟩ := walk_head hwalk
  refine ⟨cur.first, tup.first, ?_, ?_, start_once hbefore fun b hb => ?_⟩
  · rw [List.map_cons, List.map_cons, hfirst]
    exact ((List.nil_sublist _).cons_cons _).cons_cons _
  · rcases List.mem_append.1 htup with hmem | hmem
    · exact (hbefore tup hmem).le
    · rw [List.mem_singleton.1 hmem]
  · have hcur : cur.first < next.first := (hin.ends cur List.mem_cons_self).trans_lt hgt
    exact hcur.trans_le ((hin.sublist (List.sublist_cons_self _ _)).first_le b hb)

/-- A merge that meets a kept neighbour while it pushes from `lag` records behind. -/
theorem walk_neighbours (hs : FitsUnsigned batch) (hin : InOrder (cur :: batch)) (ho : 1 < offset)
    (hp : PassedRaw passed cur prev) (hlag : 0 < lag) (hle : lag ≤ passed.length)
    (hpushed : pushed = (passed ++ batch).drop (passed.length - lag))
    (hn : keepsNeighbours cur prev.isNone batch = true)
    (h : walk offset cur prev batch pushed = .ok es) : PushedBack es (passed ++ batch) := by
  induction batch generalizing passed cur prev pushed es with
  | nil => cases prev <;> cases hn
  | cons next batch ih =>
    have hin' : InOrder (next :: batch) := hin.sublist (List.sublist_cons_self _ _)
    have hinskip : InOrder (cur :: batch) :=
      hin.sublist ((List.sublist_cons_self next batch).cons_cons cur)
    have hassoc : passed ++ next :: batch = passed ++ [next] ++ batch := by simp
    have htail : pushed.tail =
        (passed ++ [next] ++ batch).drop ((passed ++ [next]).length - lag) := by
      rw [hpushed, List.tail_drop, hassoc, List.length_append, List.length_singleton,
        Nat.sub_add_comm hle]
    have hle' : lag ≤ (passed ++ [next]).length := by
      rw [List.length_append]
      omega
    unfold keepsNeighbours at hn
    cases prev with
    | none =>
      by_cases hgt : next.first > cur.second
      · obtain ⟨before, rfl, hbefore⟩ := hp.last rfl
        rw [hpushed] at h
        exact pushedBack_of_neighbour hin hbefore hgt hlag hle h
      · rw [walk_overlap hgt] at h
        rw [if_neg hgt] at hn
        rw [hassoc]
        exact ih hs.tail hinskip (hp.skip hgt) hle' htail hn h
    | some last =>
      rw [walk_search hs, if_neg (by omega)] at h
      by_cases hgt : next.first > cur.second
      · rw [if_pos hgt] at h hn
        obtain ⟨es', hwalk, rfl⟩ := Loop.map_eq_ok.1 h
        have hn : keepsNeighbours next true batch = true := by simpa using hn
        have hfound := hp.found hgt (hin'.ends next List.mem_cons_self)
        obtain ⟨s, t, hsub, hts, honce⟩ := ih hs.tail hin' hfound hle' htail hn hwalk
        rw [hassoc]
        exact ⟨s, t, hsub.cons _, hts, honce⟩
      · rw [if_neg hgt] at h hn
        rw [hassoc]
        exact ih hs.tail hinskip (hp.skip hgt) hle' htail hn h

end

/-! ## One read -/

/-- A non-empty list of kernels in order, with times below `2 ^ 31`. -/
structure Delivery (start : ULong) (buffers : List (List Activity)) : Prop where
  nonempty : buffers.flatten ≠ []
  kernels : ∀ a ∈ buffers.flatten, a.isKernel = true
  inOrder : InOrder ((entries start buffers.flatten).map Prod.snd)
  short : Short ((entries start buffers.flatten).map Prod.snd)

/-- All kernels of `buffers` start after those of the raw vector. -/
def Later (raw : List CuptiTuple) (start : ULong) (buffers : List (List Activity)) : Prop :=
  ∀ t ∈ raw, ∀ k ∈ (entries start buffers.flatten).map Prod.snd, t.first < k.first

variable {p p' : CuptiProfiler} {out : Published} {buffers : List (List Activity)}
  {first : CuptiTuple} {rest : List CuptiTuple} {start : ULong}

theorem Delivery.exists_cons (h : Delivery start buffers) :
    ∃ first rest, sortedTuples start buffers.flatten = first :: rest := by
  apply List.exists_cons_of_ne_nil
  rw [← List.length_pos_iff, sortedTuples, List.length_insertionSort, List.length_map,
    length_entries_eq _ h.kernels, List.length_pos_iff]
  exact h.nonempty

theorem Delivery.sorted (h : Delivery start buffers)
    (hb : sortedTuples start buffers.flatten = first :: rest) :
    InOrder (first :: rest) ∧ Short (first :: rest) := by
  have hin := h.inOrder.sort
  have hs := h.short.sort
  rw [← sortedTuples, hb] at hin hs
  exact ⟨hin, hs⟩

/-- The starts of the candidates are those of the raw vector, from the first one not counted as
disjoint on. -/
theorem Counted.candidates_sublist (h : Counted p) (hd : Delivery p.start buffers) :
    ((p.candidates buffers.flatten).map startOf).Sublist
      ((p.tupVecRaw ++ sortedTuples p.start buffers.flatten).map CuptiTuple.first) := by
  have hstarts := hd.inOrder.starts_sort
  rw [map_startOf, ← sortedTuples] at hstarts
  rw [candidates, List.map_append, List.map_append, hstarts, h.starts]
  exact ((List.drop_sublist _ _).map _).append_right _

/-- A merge that pushes from the batch itself. -/
theorem Counted.returns_of_walk (h : Counted p) (hd : Delivery p.start buffers)
    (hb : sortedTuples p.start buffers.flatten = first :: rest)
    (hwalk : walk p.totRecords first none rest (p.pushedBy buffers.flatten) =
      walk p.totRecords first none rest rest) :
    (∃ p' out, p.read buffers = .ok (p', out)) ↔
      p.totRecords ≤ 1 ∨ keepsLast first true rest = true := by
  obtain ⟨hin, hs⟩ := hd.sorted hb
  rw [h.returns_iff hb, hwalk]
  have hlookup (tups : List CuptiTuple) (ht : walk p.totRecords first none rest rest = .ok tups) :
      (tups.map CuptiTuple.first).Sublist ((p.candidates buffers.flatten).map startOf) := by
    have hkept := walk_kept hs.tail.fits ht
    exact pick_isSome_iff.1 (Counted.lookup_isSome hd.inOrder hb hkept)
  refine ⟨fun hok => ?_, fun hor => ?_⟩
  · obtain ⟨tups, ht, -⟩ := hok
    rcases Nat.lt_or_ge 1 p.totRecords with ho | ho
    · exact .inr ((walk_iff_keepsLast hs.tail.fits ho).1 ⟨tups, ht⟩)
    · exact .inl ho
  · obtain ⟨tups, ht⟩ : ∃ tups, walk p.totRecords first none rest rest = .ok tups := by
      rcases Nat.lt_or_ge 1 p.totRecords with ho | ho
      · exact (walk_iff_keepsLast hs.tail.fits ho).2 (hor.resolve_left (by omega))
      · exact walk_of_le_one hs.tail.fits ho first none
    exact ⟨tups, ht, hlookup tups ht⟩

/-- With a kernel dropped before and kept neighbours in the batch the lookup fails. -/
theorem Counted.not_returns (h : Counted p) (hd : Delivery p.start buffers)
    (hlater : Later p.tupVecRaw p.start buffers)
    (hb : sortedTuples p.start buffers.flatten = first :: rest) (ho : 1 < p.totRecords)
    (hdrop : p.totDisjointRecords < p.totRecords) (hn : keepsNeighbours first true rest = true) :
    ¬ ∃ p' out, p.read buffers = .ok (p', out) := by
  obtain ⟨hin, hs⟩ := hd.sorted hb
  have hfirst : ∀ a ∈ p.tupVecRaw, a.first < first.first := by
    intro a ha
    refine hlater a ha first ?_
    rw [← List.mem_insertionSort CuptiTuple.le, ← sortedTuples, hb]
    exact List.mem_cons_self
  have hends := hin.ends first List.mem_cons_self
  have hp : PassedRaw (p.tupVecRaw ++ [first]) first none := by
    refine ⟨fun a ha => ?_, fun _ => ⟨p.tupVecRaw, rfl, hfirst⟩⟩
    rcases List.mem_append.1 ha with ha | ha
    · exact (hfirst a ha).le.trans hends
    · rw [List.mem_singleton.1 ha]
      exact hends
  have hassoc : p.tupVecRaw ++ [first] ++ rest = p.tupVecRaw ++ first :: rest := by simp
  have hlen : (p.tupVecRaw ++ [first]).length = p.totRecords + 1 := by
    rw [List.length_append, h.raw, List.length_singleton]
  have hpushed : p.pushedBy buffers.flatten = (p.tupVecRaw ++ [first] ++ rest).drop
      ((p.tupVecRaw ++ [first]).length - (p.totRecords - p.totDisjointRecords)) := by
    rw [pushedBy, hb, hassoc, hlen]
    congr 1
    omega
  rw [h.returns_iff hb]
  intro hok
  obtain ⟨tups, hwalk, hsub⟩ := hok
  obtain ⟨s, t, hst, hle, honce⟩ := walk_neighbours hs.tail.fits hin ho hp
    (Nat.sub_pos_of_lt hdrop) (by omega) hpushed hn hwalk
  rw [hassoc, ← hb] at honce
  have hpair := honce.sublist ((hst.trans hsub).trans (h.candidates_sublist hd))
  have hlt : s < t := (List.pairwise_cons.1 hpair).1 t (by simp) rfl
  exact absurd hlt (not_lt.2 hle)

/-- **One read**, behind records that all came in flushes. -/
theorem Counted.read_iff (h : Counted p) (hsome : 0 < p.totRecords → 0 < p.totDisjointRecords)
    (hd : Delivery p.start buffers) (hlater : Later p.tupVecRaw p.start buffers) :
    (∃ p' out, p.read buffers = .ok (p', out)) ↔
      InRange p (sortedTuples p.start buffers.flatten) := by
  obtain ⟨first, rest, hb⟩ := hd.exists_cons
  obtain ⟨-, hs⟩ := hd.sorted hb
  have hle := h.disjoint
  rw [hb, InRange]
  by_cases hsame : p.totDisjointRecords = p.totRecords ∨ keepsNeighbours first true rest = false
  · have hwalk : walk p.totRecords first none rest (p.pushedBy buffers.flatten) =
        walk p.totRecords first none rest rest := by
      rcases hsame with heq | hn
      · rw [h.pushedBy_of_eq heq hb]
      · exact walk_of_noNeighbours hs.tail.fits hn
    rw [h.returns_of_walk hd hb hwalk, and_iff_left hsame]
  · obtain ⟨hne, hn⟩ := not_or.1 hsame
    have hn : keepsNeighbours first true rest = true := by simpa using hn
    refine iff_of_false (h.not_returns hd hlater hb (by omega) (by omega) hn) ?_
    intro hcond
    rcases hcond with ho | ⟨-, hor⟩
    · omega
    · exact hsame hor

/-! ## Runs of reads -/

/-- A read that returns leaves counted records, the new ones behind the others. -/
theorem Counted.after_read (h : Counted p) (hd : Delivery p.start buffers)
    (hr : p.read buffers = .ok (p', out)) :
    Counted p' ∧ 0 < p'.totDisjointRecords ∧ p'.start = p.start ∧
      p'.tupVecRaw = p.tupVecRaw ++ sortedTuples p.start buffers.flatten := by
  obtain ⟨first, rest, hb⟩ := hd.exists_cons
  have hf := flush_flushed p buffers
  have hbal := (read_ok h.balanced hr).1
  obtain ⟨-, hsort⟩ := flush_batch h.raw buffers
  have hlen : (sortedTuples p.start buffers.flatten).length = buffers.flatten.length := by
    rw [sortedTuples, List.length_insertionSort, List.length_map, length_entries_eq _ hd.kernels]
  have hstarts := hd.inOrder.starts_sort
  rw [map_startOf, ← sortedTuples] at hstarts
  rw [h.read_eq hb] at hr
  obtain ⟨tups, hwalk, hr⟩ := Loop.bind_eq_ok.1 hr
  obtain ⟨keyvals, -, hr⟩ := Loop.bind_eq_ok.1 hr
  cases hr
  obtain ⟨⟨t, ts, rfl, -⟩, hle⟩ := walk_head hwalk
  have hdisjoint : ((p.flush buffers).extend (t :: ts) keyvals).totDisjointRecords =
      p.totDisjointRecords + (ts.length + 1) := by
    rw [extend, hf.disjoint, List.length_cons]
  have htot : ((p.flush buffers).extend (t :: ts) keyvals).totRecords =
      p.totRecords + buffers.flatten.length := hf.totRecords
  refine ⟨⟨hbal, ?_, ?_, ?_⟩, ?_, hf.start, hsort⟩
  · rw [htot, extend, hsort, List.length_append, h.raw, hlen]
  · rw [extend, hsort, hf.keyvalVecRaw, List.map_append, List.map_append, h.starts, hstarts]
  · have hbefore := h.disjoint
    rw [hb, List.length_cons] at hlen
    rw [List.length_cons] at hle
    omega
  · omega

/-- Each read of the run meets `InRange`. -/
def AllInRange : CuptiProfiler → List (List (List Activity)) → Prop
  | _, [] => True
  | p, buffers :: rest => InRange p (sortedTuples p.start buffers.flatten) ∧
      ∀ p' out, p.read buffers = .ok (p', out) → AllInRange p' rest

theorem Counted.reads_iff {batches : List (List (List Activity))} (h : Counted p)
    (hsome : 0 < p.totRecords → 0 < p.totDisjointRecords)
    (hd : ∀ b ∈ batches, Delivery p.start b) (hraw : ∀ b ∈ batches, Later p.tupVecRaw p.start b)
    (hlater : batches.Pairwise fun b c =>
      Later ((entries p.start b.flatten).map Prod.snd) p.start c) :
    (∃ p' outs, p.reads batches = .ok (p', outs)) ↔ AllInRange p batches := by
  induction batches generalizing p with
  | nil => exact iff_of_true ⟨p, [], rfl⟩ trivial
  | cons buffers batches ih =>
    have hd1 := hd buffers List.mem_cons_self
    have hone := h.read_iff hsome hd1 (hraw buffers List.mem_cons_self)
    rw [List.pairwise_cons] at hlater
    -- the reads behind this one
    have hrest (p1 : CuptiProfiler) (out : Published) (hr : p.read buffers = .ok (p1, out)) :
        (∃ p' outs, p1.reads batches = .ok (p', outs)) ↔ AllInRange p1 batches := by
      obtain ⟨h1, hpos, hstart, hraw1⟩ := h.after_read hd1 hr
      refine ih h1 (fun _ => hpos) ?_ ?_ ?_
      · rw [hstart]
        exact fun b hb => hd b (List.mem_cons_of_mem _ hb)
      · rw [hstart, hraw1]
        intro b hb t ht
        rcases List.mem_append.1 ht with ht | ht
        · exact hraw b (List.mem_cons_of_mem _ hb) t ht
        · exact hlater.1 b hb t ((List.mem_insertionSort _).1 ht)
      · rw [hstart]
        exact hlater.2
    rw [AllInRange, ← hone]
    simp only [reads, Loop.bind_eq_ok]
    refine ⟨fun hreads => ?_, fun hmeets => ?_⟩
    · obtain ⟨p', outs, ⟨p1, out⟩, hr, ⟨p2, outs⟩, hrs, -⟩ := hreads
      refine ⟨⟨p1, out, hr⟩, fun q out' hq => ?_⟩
      rw [hr] at hq
      cases hq
      exact (hrest p1 out hr).1 ⟨p2, outs, hrs⟩
    · obtain ⟨⟨p1, out, hr⟩, hall⟩ := hmeets
      obtain ⟨p', outs, hrs⟩ := (hrest p1 out hr).2 (hall p1 out hr)
      exact ⟨p', out :: outs, ⟨p1, out⟩, hr, ⟨p', outs⟩, hrs, rfl⟩

/-- **Runs of reads** that deliver kernels in order, later flushes later kernels: every subscript
stays in range if and only if every read meets `InRange`. -/
theorem reads_in_range_iff {batches : List (List (List Activity))}
    (hd : ∀ b ∈ batches, Delivery start b)
    (hlater : batches.Pairwise fun b c =>
      Later ((entries start b.flatten).map Prod.snd) start c) :
    (∃ p outs, (new start).reads batches = .ok (p, outs)) ↔ AllInRange (new start) batches :=
  (new_counted start).reads_iff (fun h => absurd h (Nat.lt_irrefl 0)) hd
    (fun _ _ _ ht => nomatch ht) hlater

/-- A batch of two kernels, and an overlap in front of the last kernel of the next one. -/
theorem ends_apart_in_range : ∃ p outs, (new 0).reads
      [oneBuffer [(0, 1), (2, 3)], oneBuffer [(10, 20), (15, 25), (30, 40)]] = .ok (p, outs) := by
  refine (reads_in_range_iff ?_ ?_).2 ?_
  · simp only [List.forall_mem_cons]
    refine ⟨⟨by decide, by decide, ⟨by decide, by decide⟩, ?_⟩,
      ⟨by decide, by decide, ⟨by decide, by decide⟩, ?_⟩, by simp⟩ <;>
    · unfold Short
      decide
  · simp only [List.pairwise_cons, List.mem_singleton, forall_eq]
    refine ⟨?_, by simp, .nil⟩
    unfold Later
    decide
  · -- the first read is the first one; the second keeps its last kernel, and no two neighbours
    refine ⟨Or.inl (Nat.zero_le 1), fun p1 out hr => ⟨?_, fun _ _ _ => trivial⟩⟩
    cases hr
    exact Or.inr ⟨rfl, .inl rfl⟩

/-- Behind two kernels the search behind an overlap at the end of the batch leaves the vector. -/
theorem trailing_overlap_out_of_range :
    (new 0).reads [oneBuffer [(0, 1), (2, 3)], oneBuffer [(10, 20), (15, 25)]] =
      .error .outOfRange := rfl

end Propreact.CuptiProfiler
