import Propreact.Profiler.Proof.Separated

/-!
# The pair that joins two batches

`process` subtracts the times of the last kernel of one batch and the first of the next without a
test. For batches that are separated each in itself, no subtraction wraps exactly if no batch
starts before the one before it has ended (`no_wrap_iff`).
-/

namespace Propreact.CuptiProfiler

open Sequences

/-- Neither subtraction of the record `r` for `e` and its neighbour wraps: the busy time leads from
the start of `e` to its end, the idle time on to the start of `next`. -/
structure NoWrap (r : Record) (e next : ExpKeyCuptiTuple) : Prop where
  active : e.2.first.toNat + r.active.toNat = e.2.second.toNat
  idle : e.2.second.toNat + r.idle.toNat = next.2.first.toNat

/-- The two times add up to the distance of the starts. -/
theorem NoWrap.sum {r : Record} {e next : ExpKeyCuptiTuple} (h : NoWrap r e next) :
    r.active.toNat + r.idle.toNat = next.2.first.toNat - e.2.first.toNat := by
  have hactive := h.active
  have hidle := h.idle
  omega

/-- The first kernel of `next` starts no earlier than the last one of `buffers` ends. -/
def InSuccession (start : ULong) (buffers next : List (List Activity)) : Prop :=
  ∀ e ∈ (entries start buffers.flatten).getLast?, ∀ f ∈ (entries start next.flatten).head?,
    e.2.second ≤ f.2.first

theorem add_sub_iff {a b : ULong} : a.toNat + (b - a).toNat = b.toNat ↔ a ≤ b := by
  refine ⟨fun h => ?_, fun h => ?_⟩
  · rw [UInt64.le_iff_toNat_le, ← h]
    exact Nat.le_add_right _ _
  · rw [UInt64.toNat_sub_of_le _ _ h]
    exact Nat.add_sub_cancel' (UInt64.le_iff_toNat_le.1 h)

theorem noWrap_iff {e next : ExpKeyCuptiTuple} (he : e.2.first ≤ e.2.second) :
    NoWrap (usageOf (e, next)).record e next ↔ e.2.second ≤ next.2.first :=
  ⟨fun h => add_sub_iff.1 h.idle, fun h => ⟨add_sub_iff.2 he, add_sub_iff.2 h⟩⟩

theorem noWrap_iff_isChain {l : List ExpKeyCuptiTuple} (hl : ∀ e ∈ l, e.2.first ≤ e.2.second) :
    (∀ i r, (publishedOf l).produced[i]? = some r →
      ∃ e next, l[i]? = some e ∧ l[i + 1]? = some next ∧ NoWrap r e next) ↔
    l.IsChain fun e next => e.2.second ≤ next.2.first := by
  rw [List.isChain_iff_getElem]
  refine ⟨fun h i hi => ?_, fun h i r hr => ?_⟩
  · have he := List.getElem?_eq_getElem (Nat.lt_of_succ_lt hi)
    have hnext := List.getElem?_eq_getElem hi
    obtain ⟨e, next, he', hnext', hno⟩ := h i _ (published_at.2 ⟨_, _, he, hnext, rfl⟩)
    rw [he] at he'
    rw [hnext] at hnext'
    cases he'
    cases hnext'
    exact (noWrap_iff (hl _ (List.getElem_mem _))).1 hno
  · obtain ⟨e, next, he, hnext, rfl⟩ := published_at.1 hr
    refine ⟨e, next, he, hnext, (noWrap_iff (hl e (List.mem_of_getElem? he))).2 ?_⟩
    obtain ⟨hi, rfl⟩ := List.getElem?_eq_some_iff.1 he
    obtain ⟨hi', rfl⟩ := List.getElem?_eq_some_iff.1 hnext
    exact h i hi'

/-- Within a separated batch neighbours come in succession; so do all exactly if the batches do. -/
theorem isChain_allEntries_iff {start : ULong} {batches : List (List (List Activity))}
    (hd : ∀ b ∈ batches, SeparatedDelivery start b) :
    ((allEntries start batches).IsChain fun e next => e.2.second ≤ next.2.first) ↔
      batches.IsChain (InSuccession start) := by
  have hflat : allEntries start batches =
      (batches.map fun b => entries start b.flatten).flatten := by
    induction batches with
    | nil => rfl
    | cons buffers batches ih =>
      rw [allEntries_cons, ih fun b hb => hd b (List.mem_cons_of_mem _ hb), List.map_cons,
        List.flatten_cons]
  have hne : [] ∉ batches.map fun b => entries start b.flatten := by
    intro hmem
    obtain ⟨b, hb, hnil⟩ := List.mem_map.1 hmem
    exact (hd b hb).ne_nil hnil
  have hinner : ∀ l ∈ batches.map fun b => entries start b.flatten,
      l.IsChain fun e next => e.2.second ≤ next.2.first := by
    refine List.forall_mem_map.2 fun b hb => ?_
    have hchain := (hd b hb).separated.1
    rw [Interval.Separated, List.isChain_map] at hchain
    exact hchain.imp fun {e f} hlt => hlt.le
  rw [hflat, List.isChain_flatten hne, and_iff_right hinner, List.isChain_map]
  rfl

/-- **No wraparound where batches join.** For flushes that each deliver separated kernels in order,
all reads return, and no published time wraps if and only if no flush's first kernel starts before
the last kernel of the flush before it has ended. -/
theorem no_wrap_iff {start : ULong} {batches : List (List (List Activity))}
    (hd : ∀ b ∈ batches, SeparatedDelivery start b) :
    ∃ p outs, (new start).reads batches = .ok (p, outs) ∧
      ((∀ i r, (outs.flatMap Published.produced)[i]? = some r →
        ∃ e next, p.keyvalVec[i]? = some e ∧ p.keyvalVec[i + 1]? = some next ∧ NoWrap r e next) ↔
      batches.IsChain (InSuccession start)) := by
  obtain ⟨p, outs, hr, hc, hpub⟩ := reads_separated (new_caughtUp start) hd
  have hstart : (new start).start = start := rfl
  have hnil : (publishedOf []).produced = [] := rfl
  rw [hstart, List.nil_append] at hc
  rw [hnil, List.nil_append, List.nil_append, hstart] at hpub
  refine ⟨p, outs, hr, ?_⟩
  rw [hpub, hc.keyvalVec, ← isChain_allEntries_iff hd]
  refine noWrap_iff_isChain fun e he => ?_
  rw [allEntries, entries, List.mem_filterMap] at he
  obtain ⟨a, ha, he⟩ := he
  obtain ⟨l, hl, ha⟩ := List.mem_flatten.1 ha
  obtain ⟨b, hb, rfl⟩ := List.mem_map.1 hl
  refine (hd b hb).separated.2 e.2 (List.mem_map_of_mem ?_)
  exact List.mem_filterMap.2 ⟨a, ha, he⟩

/-- A flush of two kernels, and one that starts when the second has ended. -/
theorem touching_batches_exact : ∃ p outs,
    (new 0).reads [oneBuffer [(0, 1), (2, 10)], oneBuffer [(10, 20)]] = .ok (p, outs) ∧
      outs.flatMap Published.produced = [⟨1, 1, 1⟩, ⟨1, 8, 0⟩] ∧
      ∀ i r, (outs.flatMap Published.produced)[i]? = some r →
        ∃ e next, p.keyvalVec[i]? = some e ∧ p.keyvalVec[i + 1]? = some next ∧ NoWrap r e next := by
  have hd : ∀ b ∈ [oneBuffer [(0, 1), (2, 10)], oneBuffer [(10, 20)]], SeparatedDelivery 0 b := by
    refine List.forall_mem_cons.2 ⟨?_, List.forall_mem_cons.2 ⟨?_, by simp⟩⟩ <;>
    · refine ⟨by simp [oneBuffer], by simp [oneBuffer, Activity.isKernel], ?_, ?_⟩
      · simp [Interval.Separated, oneBuffer, entries, entry]
      · simp [oneBuffer, entries, entry]
  have htouch : [oneBuffer [(0, 1), (2, 10)], oneBuffer [(10, 20)]].IsChain (InSuccession 0) := by
    simp [InSuccession, oneBuffer, entries, entry]
  obtain ⟨p, outs, hr, hiff⟩ := no_wrap_iff hd
  refine ⟨p, outs, hr, ?_, hiff.2 htouch⟩
  cases hr
  rfl

/-- A long kernel delivered after a later short one: the record that joins the two batches reports
an idle time of `2 ^ 64 - 15`. -/
theorem late_kernel_wraps : ∃ p outs,
    (new 0).reads [oneBuffer [(20, 25)], oneBuffer [(10, 30)]] = .ok (p, outs) ∧
      outs.flatMap Published.produced = [⟨1, 5, 18446744073709551601⟩] ∧
      ¬ ∀ i r, (outs.flatMap Published.produced)[i]? = some r →
        ∃ e next, p.keyvalVec[i]? = some e ∧ p.keyvalVec[i + 1]? = some next ∧ NoWrap r e next := by
  refine ⟨_, _, rfl, rfl, fun h => ?_⟩
  obtain ⟨e, next, he, hnext, hno⟩ := h 0 _ rfl
  cases he
  cases hnext
  exact absurd hno.idle (by decide)

end Propreact.CuptiProfiler
