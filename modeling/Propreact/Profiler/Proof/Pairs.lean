import Propreact.Profiler.Proof.Boundary

/-!
# The records of the first batch

Each record of a first batch is about a delivered kernel and the first kernel behind it, in order
of start, that starts after it has ended (`first_batch_pairs`): these two are neighbours among the
kept kernels (`consecutive_kept`).
-/

namespace Propreact.CuptiProfiler

open Sequences

/-- Neighbours among the kept kernels, where the merge has passed `passed` behind `cur`: the
kernels between the two start before the first one has ended, and the second one starts after. -/
theorem consecutive_kept {offset : Nat} {cur : CuptiTuple} {searching : Bool}
    {batch : List CuptiTuple} (passed : List CuptiTuple)
    (hpassed : ∀ m ∈ passed, m.first ≤ cur.second) {k n : CuptiTuple}
    (h : (k, n) ∈ consecutive (kept offset cur searching batch)) :
    ∃ pre mid post, cur :: (passed ++ batch) = pre ++ k :: (mid ++ n :: post) ∧
      (∀ m ∈ mid, m.first ≤ k.second) ∧ k.second < n.first := by
  induction batch generalizing cur searching passed with
  | nil =>
    rw [kept] at h
    cases h
  | cons next batch ih =>
    unfold kept at h
    split at h
    · cases h
    · split at h
      · rename_i hgt
        obtain ⟨ks, hks⟩ := kept_eq_cons offset next false batch
        rw [hks, consecutive_cons_cons, ← hks] at h
        rcases List.mem_cons.1 h with heq | h
        · cases heq
          exact ⟨[], passed, batch, rfl, hpassed, hgt⟩
        · obtain ⟨pre, mid, post, heq, hmid, hlt⟩ := ih [] (by simp) h
          refine ⟨cur :: (passed ++ pre), mid, post, ?_, hmid, hlt⟩
          rw [List.nil_append] at heq
          rw [heq]
          simp
      · rename_i hle
        have hassoc : passed ++ next :: batch = passed ++ [next] ++ batch := by simp
        have hnext : ∀ m ∈ passed ++ [next], m.first ≤ cur.second :=
          List.forall_mem_append.2 ⟨hpassed, List.forall_mem_singleton.2 (not_lt.1 hle)⟩
        rw [hassoc]
        exact ih (passed ++ [next]) hnext h

/-- `n` is the first kernel behind `k` that starts after `k` has ended, by their times relative to
`start`. -/
def FirstAfter (start : ULong) (kernels : List Kernel) (k n : Kernel) : Prop :=
  ∃ pre mid post, kernels = pre ++ k :: (mid ++ n :: post) ∧
    (∀ m ∈ mid, m.start - start ≤ k.end - start) ∧ k.end - start < n.start - start

variable {start : ULong} {kernels ks : List Kernel} {k n : Kernel}

/-- A kernel is found by its times if all kernels start at different times. -/
theorem eq_of_entry_eq (hstarts : (times start kernels).Pairwise fun a b => a.first < b.first)
    {k' : Kernel} (hk : k ∈ kernels) (hk' : k' ∈ kernels)
    (h : (entry start k').2 = (entry start k).2) : k' = k := by
  have hnodup : (kernels.map fun k => (entry start k).2.first).Nodup := by
    have hpair := List.pairwise_map.2 (hstarts.imp ne_of_lt)
    rwa [times, List.map_map] at hpair
  exact List.inj_on_of_nodup_map hnodup hk' hk (congrArg CuptiTuple.first h)

/-- Neighbours among the kept kernels of a batch with distinct starts. -/
theorem firstAfter_of_kept {first : CuptiTuple} {rest : List CuptiTuple}
    (hstarts : (times start kernels).Pairwise fun a b => a.first < b.first)
    (hcons : times start kernels = first :: rest) (hks : ks.Sublist kernels)
    (hkept : times start ks = kept 0 first false rest) (h : (k, n) ∈ consecutive ks) :
    k ∈ kernels ∧ n ∈ kernels ∧ FirstAfter start kernels k n := by
  obtain ⟨hk, hn⟩ := List.of_mem_zip h
  have hk := hks.subset hk
  have hn := hks.subset (List.mem_of_mem_tail hn)
  refine ⟨hk, hn, ?_⟩
  have hmem : ((entry start k).2, (entry start n).2) ∈
      consecutive (kept 0 first false rest) := by
    rw [← hkept, times, consecutive_map]
    exact List.mem_map_of_mem h
  obtain ⟨pre, mid, post, heq, hmid, hlt⟩ := consecutive_kept [] (by simp) hmem
  rw [List.nil_append, ← hcons, times] at heq
  -- cut the list of kernels where the list of times is cut
  obtain ⟨pre', l1, rfl, -, h1⟩ := List.map_eq_append_iff.1 heq
  obtain ⟨k', l2, rfl, hk', h2⟩ := List.map_eq_cons_iff.1 h1
  obtain ⟨mid', l3, rfl, rfl, h3⟩ := List.map_eq_append_iff.1 h2
  obtain ⟨n', post', rfl, hn', -⟩ := List.map_eq_cons_iff.1 h3
  obtain rfl := eq_of_entry_eq hstarts hk (by simp) hk'
  obtain rfl := eq_of_entry_eq hstarts hn (by simp) hn'
  refine ⟨pre', mid', post', rfl, fun m hm => ?_, hlt⟩
  exact hmid _ (List.mem_map_of_mem hm)

/-- **Records of a first batch are real pairs.** For kernels with distinct starts, in order, the
read returns, and record `i` is about the kernel `k` of entry `i` and the kernel `n` of entry
`i + 1` of `m_keyval_vec`: the busy time leads from the start of `k` to its end, and the idle time,
which is positive, on to the start of `n`, the first kernel that starts after `k` has ended. Entry
`i + 1` is the one of the next record, or the last one. -/
theorem first_batch_pairs (kernels : List Kernel) {buffers : List (List Activity)}
    (hb : buffers.flatten = kernels.map .kernel) (hne : kernels ≠ [])
    (hstarts : (times start kernels).Pairwise fun a b => a.first < b.first)
    (hends : ∀ t ∈ times start kernels, t.first ≤ t.second)
    (hs : FitsUnsigned (times start kernels)) :
    ∃ p out, (new start).read buffers = .ok (p, out) ∧
      ∀ i r, out.produced[i]? = some r → ∃ k n, k ∈ kernels ∧ n ∈ kernels ∧
        p.keyvalVec[i]? = some (entry start k) ∧ p.keyvalVec[i + 1]? = some (entry start n) ∧
        (i + 1 < out.produced.length ∨ i + 2 = p.keyvalVec.length) ∧
        r.gX = k.gridX ∧ NoWrap r (entry start k) (entry start n) ∧ 0 < r.idle ∧
        FirstAfter start kernels k n := by
  obtain ⟨p, first, rest, ks, hcons, hks, hkept, hkeyvals, hread⟩ :=
    first_read_kept hb hne hstarts hends hs
  refine ⟨p, _, hread, fun i r hr => ?_⟩
  obtain ⟨e, next, he, hnext, rfl⟩ := published_at.1 hr
  have hg : (consecutive p.keyvalVec)[i]? = some (e, next) := by
    rw [getElem?_consecutive, he, hnext]
    rfl
  rw [hkeyvals, consecutive_map, List.getElem?_map] at hg
  obtain ⟨⟨k, n⟩, hkn, heq⟩ := Option.map_eq_some_iff.1 hg
  cases heq
  obtain ⟨hk, hn, hfirst⟩ := firstAfter_of_kept hstarts hcons hks hkept (List.mem_of_getElem? hkn)
  have hnowrap : NoWrap (usageOf (entry start k, entry start n)).record (entry start k)
      (entry start n) := by
    apply (noWrap_iff (hends _ (List.mem_map_of_mem hk))).2
    obtain ⟨-, -, -, -, -, hlt⟩ := hfirst
    exact le_of_lt hlt
  have hlen : (publishedOf p.keyvalVec).produced.length + 1 = p.keyvalVec.length := by
    have hlt := (List.getElem?_eq_some_iff.1 he).1
    simp [publishedOf, consecutive]
    omega
  have hlast := (List.getElem?_eq_some_iff.1 hnext).1
  refine ⟨k, n, hk, hn, he, hnext, by omega, rfl, hnowrap, ?_, hfirst⟩
  -- the idle time is positive: `n` starts strictly later
  obtain ⟨-, -, -, -, -, hlt⟩ := hfirst
  have hidle := hnowrap.idle
  rw [UInt64.lt_iff_toNat_lt] at hlt ⊢
  show 0 < _
  have hlt : (entry start k).2.second.toNat < (entry start n).2.first.toNat := hlt
  omega

/-- A kernel inside the first one, and two kernels behind. -/
def nestedKernels : List Kernel :=
  [⟨0, 10, 1, 1, 1⟩, ⟨5, 8, 1, 1, 1⟩, ⟨20, 30, 1, 1, 1⟩, ⟨40, 50, 1, 1, 1⟩]

theorem nested_paired : ∃ p out, (new 0).read [nestedKernels.map .kernel] = .ok (p, out) ∧
    out.produced = [⟨1, 10, 10⟩, ⟨1, 10, 10⟩] ∧
    ∀ i r, out.produced[i]? = some r → ∃ k n, k ∈ nestedKernels ∧ n ∈ nestedKernels ∧
      p.keyvalVec[i]? = some (entry 0 k) ∧ p.keyvalVec[i + 1]? = some (entry 0 n) ∧
      (i + 1 < out.produced.length ∨ i + 2 = p.keyvalVec.length) ∧
      r.gX = k.gridX ∧ NoWrap r (entry 0 k) (entry 0 n) ∧ 0 < r.idle ∧
      FirstAfter 0 nestedKernels k n := by
  have hfits : FitsUnsigned (times 0 nestedKernels) := by
    unfold FitsUnsigned
    decide
  obtain ⟨p, out, hr, hpairs⟩ := @first_batch_pairs 0 nestedKernels [nestedKernels.map .kernel]
    rfl (by decide) (by decide) (by decide) hfits
  refine ⟨p, out, hr, ?_, hpairs⟩
  cases hr
  rfl

end Propreact.CuptiProfiler
