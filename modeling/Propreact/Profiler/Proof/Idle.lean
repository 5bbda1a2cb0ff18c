import Mathlib.Algebra.Order.Field.Rat
import Mathlib.Data.Nat.Cast.Order.Field
import Mathlib.Tactic.NormNum
import Propreact.Lib.Interval
import Propreact.Profiler.Proof.Read

/-!
# Is the reported idle time idle?

The first batch publishes the gaps between consecutive kept kernels. Such a gap is idle as long as
no kernel that was passed in the search behind the kept one ends later than it, that is, unless
some kernel overlaps and outlasts the ones before it (`Passed.quietGaps_iff`, `reported_idle_iff`).
-/

namespace Propreact.CuptiProfiler

open Sequences

/-- No kernel of the batch executes strictly between `e` and `f`. -/
def Quiet (batch : List CuptiTuple) (e f : ULong) : Prop :=
  ∀ k ∈ batch, k.second ≤ e ∨ f ≤ k.first

/-- The gaps between consecutive kept kernels. -/
def QuietGaps (batch kept : List CuptiTuple) : Prop :=
  ∀ g ∈ consecutive kept, Quiet batch g.1.second g.2.first

/-- No kernel of `l` outlasts those before it in an overlap. -/
def NoneOutlasts (l : List CuptiTuple) : Prop :=
  ∀ before b, before ++ [b] <+: l → ¬ Outlasts before b

theorem noneOutlasts_concat {l : List CuptiTuple} {b : CuptiTuple} :
    NoneOutlasts (l ++ [b]) ↔ NoneOutlasts l ∧ ¬ Outlasts l b := by
  refine ⟨fun h => ?_, fun ⟨hl, hb⟩ before b' hp => ?_⟩
  · exact ⟨fun before b' hp => h before b' (hp.trans (List.prefix_append l [b])),
      h l b List.prefix_rfl⟩
  · rcases List.prefix_concat_iff.1 hp with heq | hp
    · obtain ⟨rfl, h⟩ := List.append_inj' heq rfl
      cases h
      exact hb
    · exact hl before b' hp

/-- The records passed when the search behind `cur` has passed `mid`. -/
structure Passed (pre : List CuptiTuple) (cur : CuptiTuple) (mid : List CuptiTuple) : Prop where
  before : ∀ a ∈ pre, a.second < cur.first
  overlap : ∀ m ∈ mid, m.first ≤ cur.second
  clean : NoneOutlasts (pre ++ [cur])

variable {pre mid rest : List CuptiTuple} {cur next : CuptiTuple}

theorem noneOutlasts_append (h : NoneOutlasts (pre ++ [cur]))
    (hends : ∀ m ∈ mid, m.second ≤ cur.second) : NoneOutlasts (pre ++ cur :: mid) := by
  induction mid using List.reverseRecOn with
  | nil => exact h
  | append_singleton mid m ih =>
    have hm := hends m (by simp)
    rw [← List.cons_append, ← List.append_assoc]
    refine noneOutlasts_concat.2 ⟨ih fun a ha => hends a (by simp [ha]), fun hout => ?_⟩
    exact absurd (hout.2 cur (by simp)) (not_lt.2 hm)

/-- The next kept kernel, if no passed record ends after `cur`. -/
theorem Passed.keep (h : Passed pre cur mid) (hcur : cur.first ≤ cur.second)
    (hends : ∀ m ∈ mid, m.second ≤ cur.second) (hgt : cur.second < next.first) :
    Passed (pre ++ cur :: mid) next [] := by
  have hbefore : ∀ a ∈ pre ++ cur :: mid, a.second < next.first := by
    intro a ha
    rcases List.mem_append.1 ha with ha | ha
    · exact ((h.before a ha).trans_le hcur).trans hgt
    · rcases List.mem_cons.1 ha with rfl | ha
      · exact hgt
      · exact (hends a ha).trans_lt hgt
  refine ⟨hbefore, by simp, noneOutlasts_concat.2 ⟨noneOutlasts_append h.clean hends, ?_⟩⟩
  intro hout
  obtain ⟨⟨a, ha, hle⟩, -⟩ := hout
  exact absurd (hbefore a ha) (not_lt.2 hle)

/-- A passed record that ends after `cur` outlasts an overlap. -/
theorem Passed.outlasts (h : Passed pre cur mid) (hcur : cur.first ≤ cur.second) {m : CuptiTuple}
    (hm : m ∈ mid) (hgt : cur.second < m.second) :
    ∃ before b, before ++ [b] <+: pre ++ cur :: mid ∧ Outlasts before b ∧
      ∀ a ∈ before, a.second ≤ cur.second := by
  -- the first such record
  cases hfind : mid.find? (fun b => cur.second < b.second) with
  | none =>
    rw [List.find?_eq_none] at hfind
    exact absurd hgt (by simpa using hfind m hm)
  | some b =>
    obtain ⟨hb, mid1, mid2, rfl, hmid⟩ := List.find?_eq_some_iff_append.1 hfind
    have hgt : cur.second < b.second := by simpa using hb
    have hle : ∀ a ∈ pre ++ cur :: mid1, a.second ≤ cur.second := by
      intro a ha
      rcases List.mem_append.1 ha with ha | ha
      · exact (h.before a ha).le.trans hcur
      · rcases List.mem_cons.1 ha with rfl | ha
        · exact le_refl _
        · simpa using hmid a ha
    have hover := h.overlap b (by simp)
    refine ⟨pre ++ cur :: mid1, b, ⟨mid2, by simp⟩, ⟨⟨cur, by simp, hover⟩, ?_⟩, hle⟩
    exact fun a ha => (hle a ha).trans_lt hgt

/-- Nothing outlasts an overlap if the last record but one starts before `cur` ends. -/
theorem Passed.not_outlastsOverlap {batch : List CuptiTuple} (h : Passed pre cur mid)
    (hb : pre ++ [cur] <+: batch)
    (hlast : ∀ c ∈ batch.dropLast.getLast?, c.first ≤ cur.second) : ¬ OutlastsOverlap batch := by
  intro hover
  obtain ⟨before, b, hp, hout, c, hc, hgt⟩ := hover
  rcases List.prefix_or_prefix_of_prefix hp hb with hp | hp
  · exact h.clean before b hp hout
  · rcases List.prefix_concat_iff.1 hp with heq | hp
    · exact h.clean before b (heq ▸ List.prefix_rfl) hout
    · have hcur := hgt cur (hp.subset (by simp))
      exact absurd hcur (not_lt.2 (hlast c hc))

theorem Passed.first_le (h : Passed pre cur mid) (hcur : cur.first ≤ cur.second) {c : CuptiTuple}
    (hc : c ∈ (pre ++ cur :: mid).getLast?) : c.first ≤ cur.second := by
  rw [List.getLast?_append_cons] at hc
  rcases List.mem_cons.1 (List.mem_of_getLast? hc) with rfl | hc
  · exact hcur
  · exact h.overlap c hc

/-- At the end of the search nothing outlasts an overlap. -/
theorem Passed.not_outlastsOverlap_end (h : Passed pre cur mid) (hcur : cur.first ≤ cur.second) :
    ¬ OutlastsOverlap (pre ++ cur :: mid) := by
  rcases List.eq_nil_or_concat' mid with rfl | ⟨mid, m, rfl⟩
  · intro hover
    obtain ⟨before, b, hp, hout, -⟩ := hover
    exact h.clean before b hp hout
  · refine h.not_outlastsOverlap ⟨mid ++ [m], by simp⟩ fun c hc => ?_
    rw [← List.cons_append, ← List.append_assoc, List.dropLast_concat] at hc
    have hmid : Passed pre cur mid := ⟨h.before, fun m hm => h.overlap m (by simp [hm]), h.clean⟩
    exact hmid.first_le hcur hc

/-- The gap between `cur` and the next kept kernel is quiet if no record passed in between ends
after `cur`. -/
theorem Passed.quiet_gap_iff (h : Passed pre cur mid)
    (hin : InOrder (pre ++ cur :: mid ++ next :: rest)) (hgt : cur.second < next.first) :
    Quiet (pre ++ cur :: mid ++ next :: rest) cur.second next.first ↔
      ∀ m ∈ mid, m.second ≤ cur.second := by
  have hcur : cur.first ≤ cur.second := hin.ends cur (by simp)
  refine ⟨fun hq m hm => ?_, fun hends k hk => ?_⟩
  · rcases hq m (by simp [hm]) with hle | hle
    · exact hle
    · exact absurd ((h.overlap m hm).trans_lt hgt) (not_lt.2 hle)
  · rcases List.mem_append.1 hk with hk | hk
    · left
      rcases List.mem_append.1 hk with hk | hk
      · exact (h.before k hk).le.trans hcur
      · rcases List.mem_cons.1 hk with rfl | hk
        · exact le_refl _
        · exact hends k hk
    · right
      exact (hin.sublist (List.sublist_append_right _ _)).first_le k hk

/-- A passed record that ends after `cur` spoils the batch once a later record is looked at. -/
theorem Passed.outlastsOverlap (h : Passed pre cur mid)
    (hin : InOrder (pre ++ cur :: mid ++ next :: rest)) (hgt : cur.second < next.first)
    (hrest : rest ≠ []) {m : CuptiTuple} (hm : m ∈ mid) (hends : cur.second < m.second) :
    OutlastsOverlap (pre ++ cur :: mid ++ next :: rest) := by
  have hcur : cur.first ≤ cur.second := hin.ends cur (by simp)
  obtain ⟨before, b, hp, hout, hle⟩ := h.outlasts hcur hm hends
  refine ⟨before, b, hp.trans (List.prefix_append _ _), hout, ?_⟩
  -- the last record but one is `next` or comes after it
  obtain ⟨rest, z, rfl⟩ := (List.eq_nil_or_concat' rest).resolve_left hrest
  have hdrop : (pre ++ cur :: mid ++ next :: (rest ++ [z])).dropLast =
      pre ++ cur :: mid ++ next :: rest := by
    rw [← List.cons_append, ← List.append_assoc, List.dropLast_concat]
  rw [hdrop, List.getLast?_append_cons]
  obtain ⟨c, hc⟩ : ∃ c, (next :: rest).getLast? = some c := ⟨_, List.getLast?_cons⟩
  refine ⟨c, hc, fun a ha => ((hle a ha).trans_lt hgt).trans_le ?_⟩
  have hsub : (next :: rest).Sublist (next :: (rest ++ [z])) :=
    (List.sublist_append_left rest [z]).cons_cons next
  have hin' := hin.sublist (hsub.trans (List.sublist_append_right _ _))
  exact hin'.first_le c (List.mem_of_getLast? hc)

/-- **The gaps are quiet** exactly if no kernel outlasts an overlap. -/
theorem Passed.quietGaps_iff (h : Passed pre cur mid) (hin : InOrder (pre ++ cur :: mid ++ rest)) :
    QuietGaps (pre ++ cur :: mid ++ rest) (kept 0 cur (!mid.isEmpty) rest) ↔
      ¬ OutlastsOverlap (pre ++ cur :: mid ++ rest) := by
  have hcur : cur.first ≤ cur.second := hin.ends cur (by simp)
  have hsingle (batch : List CuptiTuple) : QuietGaps batch [cur] := by simp [QuietGaps]
  induction rest generalizing pre cur mid with
  | nil =>
    rw [List.append_nil]
    exact iff_of_true (hsingle _) (h.not_outlastsOverlap_end hcur)
  | cons next rest ih =>
    unfold kept
    split
    · rename_i hlast
      obtain ⟨-, -, rfl⟩ := hlast
      refine iff_of_true (hsingle _) (h.not_outlastsOverlap ⟨mid ++ [next], by simp⟩ fun c hc => ?_)
      rw [List.dropLast_concat] at hc
      exact h.first_le hcur hc
    · rename_i hlast
      split
      · rename_i hgt
        obtain ⟨ks, hks⟩ := kept_eq_cons 0 next false rest
        have hsplit : QuietGaps (pre ++ cur :: mid ++ next :: rest) (cur :: next :: ks) ↔
            Quiet (pre ++ cur :: mid ++ next :: rest) cur.second next.first ∧
              QuietGaps (pre ++ cur :: mid ++ next :: rest) (next :: ks) := by
          simp [QuietGaps]
        rw [hks, hsplit, h.quiet_gap_iff hin hgt, ← hks]
        by_cases hends : ∀ m ∈ mid, m.second ≤ cur.second
        · have hassoc : pre ++ cur :: mid ++ next :: rest =
              pre ++ cur :: mid ++ [next] ++ rest := by simp
          rw [and_iff_right hends, hassoc]
          rw [hassoc] at hin
          exact ih (h.keep hcur hends hgt) hin (hin.ends next (by simp)) fun batch => by
            simp [QuietGaps]
        · have hmid : mid ≠ [] := by rintro rfl; simp at hends
          have hrest : rest ≠ [] := fun hr => hlast ⟨by simpa using hmid, rfl, hr⟩
          obtain ⟨m, hm, hlt⟩ : ∃ m ∈ mid, cur.second < m.second := by simpa using hends
          refine iff_of_false (fun hq => hends hq.1) (not_not.2 ?_)
          exact h.outlastsOverlap hin hgt hrest hm hlt
      · rename_i hle
        have hnext : Passed pre cur (mid ++ [next]) := by
          refine ⟨h.before, ?_, h.clean⟩
          exact List.forall_mem_append.2 ⟨h.overlap, List.forall_mem_singleton.2 (not_lt.1 hle)⟩
        have hassoc : pre ++ cur :: mid ++ next :: rest =
            pre ++ cur :: (mid ++ [next]) ++ rest := by simp
        have hsearching : (!(mid ++ [next]).isEmpty) = true := by simp
        rw [hassoc] at hin ⊢
        rw [← hsearching]
        exact ih hnext hin hcur hsingle

/-! ## Instants -/

/-- No kernel of the batch executes at any instant of the open interval from `e` to `e + idle`. -/
def TrulyIdle (batch : List CuptiTuple) (e idle : ULong) : Prop :=
  ∀ t : ℚ, (e.toNat : ℚ) < t → t < e.toNat + idle.toNat →
    ∀ k ∈ batch, ¬ ((k.first.toNat : ℚ) ≤ t ∧ t ≤ k.second.toNat)

theorem trulyIdle_iff_quiet {batch : List CuptiTuple} {e f : ULong} (hef : e < f)
    (hends : ∀ t ∈ batch, t.first ≤ t.second) : TrulyIdle batch e (f - e) ↔ Quiet batch e f := by
  have hef' : (e.toNat : ℚ) < f.toNat := by exact_mod_cast UInt64.lt_iff_toNat_lt.1 hef
  have hsum : (e.toNat : ℚ) + (f - e).toNat = f.toNat := by
    rw [UInt64.toNat_sub_of_le _ _ hef.le]
    have := UInt64.le_iff_toNat_le.1 hef.le
    exact_mod_cast Nat.add_sub_cancel' this
  have hmeets : ∀ k ∈ batch, (k.second ≤ e ∨ f ≤ k.first) ↔
      ¬ ∃ t : ℚ, (e.toNat : ℚ) < t ∧ t < f.toNat ∧
        (k.first.toNat : ℚ) ≤ t ∧ t ≤ k.second.toNat := by
    intro k hk
    have hle : (k.first.toNat : ℚ) ≤ k.second.toNat := by
      exact_mod_cast UInt64.le_iff_toNat_le.1 (hends k hk)
    rw [Interval.meets_iff hef' hle, not_and_or, not_lt, not_lt, or_comm]
    simp only [Nat.cast_le, UInt64.le_iff_toNat_le]
  unfold TrulyIdle Quiet
  rw [hsum]
  refine ⟨fun h k hk => ?_, fun h t het htf k hk ht => ?_⟩
  · exact (hmeets k hk).2 fun ⟨t, het, htf, ht⟩ => h t het htf k hk ht
  · exact (hmeets k hk).1 (h k hk) ⟨t, het, htf, ht⟩

theorem kept_separated (offset : Nat) (cur : CuptiTuple) (searching : Bool)
    (rest : List CuptiTuple) :
    Interval.Separated CuptiTuple.first CuptiTuple.second (kept offset cur searching rest) := by
  induction rest generalizing cur searching with
  | nil => exact .singleton _
  | cons next rest ih =>
    unfold kept
    split
    · exact .singleton _
    · split
      · rename_i hgt
        obtain ⟨ks, hks⟩ := kept_eq_cons offset next false rest
        have := ih next false
        rw [hks] at this ⊢
        exact List.isChain_cons_cons.2 ⟨hgt, this⟩
      · exact ih cur true

/-! ## The first batch -/

/-- The record `r` is published for the kernel `e` of `m_keyval_vec`. -/
def PublishedFor (p : CuptiProfiler) (out : Published) (r : Record) (e : ExpKeyCuptiTuple) : Prop :=
  ∃ i : Nat, out.produced[i]? = some r ∧ p.keyvalVec[i]? = some e

theorem publishedFor_iff {p : CuptiProfiler} {out : Published} {r : Record} {e : ExpKeyCuptiTuple}
    (h : out = publishedOf p.keyvalVec) :
    PublishedFor p out r e ↔
      ∃ e', (e, e') ∈ consecutive p.keyvalVec ∧ r = (usageOf (e, e')).record := by
  subst h
  refine ⟨fun hpub => ?_, fun hgap => ?_⟩
  · obtain ⟨i, hr, he⟩ := hpub
    obtain ⟨e1, e', he1, he', rfl⟩ := published_at.1 hr
    rw [he] at he1
    cases he1
    refine ⟨e', List.mem_of_getElem? (i := i) ?_, rfl⟩
    rw [getElem?_consecutive, he, he']
    rfl
  · obtain ⟨e', hmem, rfl⟩ := hgap
    obtain ⟨i, hg⟩ := List.mem_iff_getElem?.1 hmem
    rw [getElem?_consecutive] at hg
    obtain ⟨e1, he, hg⟩ := Option.bind_eq_some_iff.1 hg
    obtain ⟨e2, he', heq⟩ := Option.map_eq_some_iff.1 hg
    cases heq
    exact ⟨i, published_at.2 ⟨e, e', he, he', rfl⟩, he⟩

/-- The gaps that the records of kept kernels report are quiet exactly if they are idle. -/
theorem idle_iff_quietGaps {p : CuptiProfiler} {out : Published} {batch : List CuptiTuple}
    (hout : out = publishedOf p.keyvalVec) (hends : ∀ t ∈ batch, t.first ≤ t.second)
    (hsep : Interval.Separated CuptiTuple.first CuptiTuple.second (p.keyvalVec.map Prod.snd)) :
    (∀ r e, PublishedFor p out r e → TrulyIdle batch e.2.second r.idle) ↔
      QuietGaps batch (p.keyvalVec.map Prod.snd) := by
  have hlt : ∀ g ∈ consecutive p.keyvalVec, g.1.2.second < g.2.2.first :=
    forall_mem_consecutive.2 (List.isChain_map _ |>.1 hsep)
  rw [QuietGaps, consecutive_map, List.forall_mem_map]
  refine ⟨fun h g hg => ?_, fun h r e hr => ?_⟩
  · have := h _ g.1 ((publishedFor_iff hout).2 ⟨g.2, hg, rfl⟩)
    exact (trulyIdle_iff_quiet (hlt g hg) hends).1 this
  · obtain ⟨e', hg, rfl⟩ := (publishedFor_iff hout).1 hr
    exact (trulyIdle_iff_quiet (hlt _ hg) hends).2 (h _ hg)

/-- **Reported idle time.** For a first batch with distinct starts, in order, the read returns, and
all its records report idle time that is idle if and only if no kernel overlaps and outlasts those
before it while the last kernel but one of the batch starts after these. -/
theorem reported_idle_iff {start : ULong} (kernels : List Kernel) {buffers : List (List Activity)}
    (hb : buffers.flatten = kernels.map .kernel) (hne : kernels ≠ [])
    (hstarts : (times start kernels).Pairwise fun a b => a.first < b.first)
    (hends : ∀ t ∈ times start kernels, t.first ≤ t.second) (hshort : Short (times start kernels)) :
    ∃ p out, (new start).read buffers = .ok (p, out) ∧
      ((∀ r e, PublishedFor p out r e → TrulyIdle (times start kernels) e.2.second r.idle) ↔
        ¬ OutlastsOverlap (times start kernels)) := by
  obtain ⟨p, first, rest, ks, hcons, -, hkept, hks, hread⟩ :=
    first_read_kept hb hne hstarts hends hshort.fits
  refine ⟨p, _, hread, ?_⟩
  have hkeyvals : p.keyvalVec.map Prod.snd = kept 0 first false rest := by
    rw [hks, List.map_map, ← hkept]
    rfl
  have hsep : Interval.Separated CuptiTuple.first CuptiTuple.second (p.keyvalVec.map Prod.snd) := by
    rw [hkeyvals]
    exact kept_separated 0 first false rest
  have hin : InOrder (times start kernels) := ⟨hstarts.imp le_of_lt, hends⟩
  rw [idle_iff_quietGaps rfl hends hsep, hkeyvals, hcons]
  rw [hcons] at hin
  have hfirst : Passed [] first [] := by
    refine ⟨by simp, by simp, fun before b hp hout => ?_⟩
    obtain ⟨a, ha, -⟩ := hout.1
    have hnil : before = [] := by
      have := hp.length_le
      simpa using this
    rw [hnil] at ha
    cases ha
  exact hfirst.quietGaps_iff hin

/-- Four kernels, the second inside the first: two records, of times that are idle. -/
theorem nested_then_idle : ∃ p out,
    (new 0).read (oneBuffer [(0, 10), (5, 8), (20, 30), (40, 50)]) = .ok (p, out) ∧
      out.produced = [⟨1, 10, 10⟩, ⟨1, 10, 10⟩] ∧
      ∀ r e, PublishedFor p out r e →
        TrulyIdle [⟨0, 10⟩, ⟨5, 8⟩, ⟨20, 30⟩, ⟨40, 50⟩] e.2.second r.idle := by
  obtain ⟨p, out, hr, hiff⟩ := @reported_idle_iff 0
    [⟨0, 10, 1, 1, 1⟩, ⟨5, 8, 1, 1, 1⟩, ⟨20, 30, 1, 1, 1⟩, ⟨40, 50, 1, 1, 1⟩]
    (oneBuffer [(0, 10), (5, 8), (20, 30), (40, 50)]) rfl
    (by simp) (by decide) (by decide) (by simp [Short, times, entry])
  refine ⟨p, out, hr, ?_, hiff.2 (by decide)⟩
  cases hr
  rfl

/-- A kernel that overlaps and outlasts the first one runs in the idle time reported for that. -/
theorem outlasting_runs_in_idle : ∃ p out,
    (new 0).read (oneBuffer [(0, 10), (5, 50), (60, 70), (80, 90)]) = .ok (p, out) ∧
      ¬ ∀ r e, PublishedFor p out r e →
        TrulyIdle [⟨0, 10⟩, ⟨5, 50⟩, ⟨60, 70⟩, ⟨80, 90⟩] e.2.second r.idle := by
  have hbusy : ¬ TrulyIdle [⟨0, 10⟩, ⟨5, 50⟩, ⟨60, 70⟩, ⟨80, 90⟩] 10 50 := by
    intro h
    have h20 := h 20
    simp at h20
    norm_num at h20
  -- the first record reports 50 from instant 10 on
  exact ⟨_, _, rfl, fun h => hbusy (h ⟨1, 10, 50⟩ (⟨1, 1, 1⟩, ⟨0, 10⟩) ⟨0, rfl, rfl⟩)⟩

end Propreact.CuptiProfiler
