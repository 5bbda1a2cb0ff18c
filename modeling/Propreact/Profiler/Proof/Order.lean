import Propreact.Profiler.Proof.Separated

/-!
# The order of delivery within a batch

`process` sorts the times of a batch but not the kernels it looks them up in. For a first batch of
separated kernels the lookup succeeds only if these were delivered in order of start
(`delivery_order_iff`).
-/

namespace Propreact.CuptiProfiler

open Sequences

instance : Std.Antisymm CuptiTuple.le where
  antisymm a b hab hba := by
    obtain ⟨s, e⟩ := a
    obtain ⟨s', e'⟩ := b
    unfold CuptiTuple.le at hab hba
    grind

variable {start : ULong} {kernels delivered : List Kernel}

/-- However the kernels were delivered, the sorted batch is the same. -/
theorem sortedTuples_of_perm (hsep : SeparatedTuples (times start kernels))
    (hp : delivered.Perm kernels) :
    sortedTuples start (delivered.map .kernel) = times start kernels := by
  rw [sortedTuples, times_eq]
  apply List.Perm.eq_of_pairwise' (r := CuptiTuple.le)
  · exact List.pairwise_insertionSort _ _
  · rw [← hsep.sorted]
    exact List.pairwise_insertionSort _ _
  · exact (List.perm_insertionSort _ _).trans (hp.map _)

theorem SeparatedTuples.nodup_starts {l : List CuptiTuple} (h : SeparatedTuples l) :
    (l.map CuptiTuple.first).Nodup := by
  have hpair := (h.1.pairwise h.2).imp_of_mem fun {a b} ha _ hab => (h.2 a ha).trans_lt hab
  exact List.pairwise_map.2 (hpair.imp ne_of_lt)

/-- The first read returns only if the starts were delivered in order. -/
theorem starts_of_read {buffers : List (List Activity)} {p : CuptiProfiler} {out : Published}
    (hne : kernels ≠ []) (hsep : SeparatedTuples (times start kernels))
    (hp : delivered.Perm kernels) (hb : buffers.flatten = delivered.map .kernel)
    (hr : (new start).read buffers = .ok (p, out)) :
    (times start delivered).map CuptiTuple.first = (times start kernels).map CuptiTuple.first := by
  have hsorted : sortedTuples start buffers.flatten = times start kernels := by
    rw [hb]
    exact sortedTuples_of_perm hsep hp
  have hcons : times start kernels ≠ [] := by simpa [times] using hne
  obtain ⟨first, rest, htimes⟩ := List.exists_cons_of_ne_nil hcons
  rw [htimes] at hsorted
  have hc := new_counted start
  obtain ⟨tups, hwalk, hsub⟩ := (hc.returns_iff hsorted).1 ⟨p, out, hr⟩
  -- the merge keeps every kernel
  rw [hc.pushedBy_of_eq rfl hsorted, walk_of_separated _ (htimes ▸ hsep.1)] at hwalk
  cases hwalk
  have hcandidates : (new start).candidates buffers.flatten = entries start buffers.flatten := rfl
  rw [hcandidates, ← map_startOf, hb, times_eq, ← htimes] at hsub
  refine (hsub.eq_of_length ?_).symm
  simp [times, hp.length_eq]

/-- **Order of delivery.** The first read of separated kernels, in whatever order the flush delivers
them, returns and publishes what it publishes for them in order of start, if and only if it
delivers them in order of start. -/
theorem delivery_order_iff (kernels delivered : List Kernel)
    {buffers sorted : List (List Activity)} (hs : sorted.flatten = kernels.map .kernel)
    (hb : buffers.flatten = delivered.map .kernel) (hne : kernels ≠ [])
    (hsep : SeparatedTuples (times start kernels)) (hp : delivered.Perm kernels) :
    (∃ p out q out', (new start).read buffers = .ok (p, out) ∧
      (new start).read sorted = .ok (q, out') ∧ out.produced = out'.produced) ↔
    delivered = kernels := by
  refine ⟨fun hsame => ?_, fun heq => ?_⟩
  · obtain ⟨p, out, -, -, hr, -⟩ := hsame
    have hstarts := starts_of_read hne hsep hp hb hr
    rw [times, times, List.map_map, List.map_map] at hstarts
    refine eq_of_perm_of_map_eq hp ?_ hstarts
    rw [← List.map_map]
    exact hsep.nodup_starts
  · subst heq
    have hdelivery (l : List (List Activity)) (hl : l.flatten = delivered.map .kernel) :
        SeparatedDelivery (new start).start l := by
      refine ⟨by simpa [hl] using hne, ?_, by rw [hl, times_eq]; exact hsep⟩
      rw [hl]
      exact List.forall_mem_map.2 fun _ _ => rfl
    obtain ⟨p, hr, -⟩ := read_separated (new_caughtUp start) (hdelivery buffers hb)
    obtain ⟨q, hr', -⟩ := read_separated (new_caughtUp start) (hdelivery sorted hs)
    refine ⟨p, _, q, _, hr, hr', ?_⟩
    rw [hb, hs]

/-- Two kernels in order, in one buffer or in two. -/
theorem in_order_same : ∃ p out q out',
    (new 0).read [[.kernel ⟨0, 1, 7, 1, 1⟩], [.kernel ⟨5, 9, 8, 1, 1⟩]] = .ok (p, out) ∧
    (new 0).read [[.kernel ⟨0, 1, 7, 1, 1⟩, .kernel ⟨5, 9, 8, 1, 1⟩]] = .ok (q, out') ∧
    out.produced = out'.produced :=
  (delivery_order_iff [⟨0, 1, 7, 1, 1⟩, ⟨5, 9, 8, 1, 1⟩] [⟨0, 1, 7, 1, 1⟩, ⟨5, 9, 8, 1, 1⟩] rfl rfl
    (by simp) ⟨by simp [Interval.Separated, times, entry], by simp [times, entry]⟩ (.refl _)).2 rfl

/-- The same two kernels the other way round: the lookup for the second start runs off the
vector. -/
theorem reversed_out_of_range :
    (new 0).read (oneBuffer [(5, 9), (0, 1)]) = .error .outOfRange ∧
      ∃ q out', (new 0).read (oneBuffer [(0, 1), (5, 9)]) = .ok (q, out') :=
  ⟨rfl, _, _, rfl⟩

end Propreact.CuptiProfiler
