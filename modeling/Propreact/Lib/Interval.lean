import Mathlib.Data.List.Chain
import Mathlib.Order.MinMax

/-!
# Lists of intervals

Things with a lower end `lo` and an upper end `hi` in a linear order. `Separated`: each lies
strictly before the next, and so, if none is empty, before all that follow
(`Separated.pairwise`). `Covered`: every instant of an interval lies in one of a list of them; two
of these that touch make a covered one (`Covered.join`). In a dense order a closed interval meets
an open one as their ends tell (`meets_iff`).
-/

namespace Interval

variable {α β : Type*} [LinearOrder β] {lo hi : α → β}

/-- Each interval ends before the next one starts. -/
def Separated (lo hi : α → β) (l : List α) : Prop := l.IsChain fun a b => hi a < lo b

theorem Separated.pairwise {l : List α} (h : Separated lo hi l) (hle : ∀ a ∈ l, lo a ≤ hi a) :
    l.Pairwise fun a b => hi a < lo b := by
  induction l with
  | nil => exact .nil
  | cons a l ih =>
    have ih := ih h.tail fun b hb => hle b (List.mem_cons_of_mem _ hb)
    refine List.pairwise_cons.2 ⟨fun b hb => ?_, ih⟩
    cases l with
    | nil => cases hb
    | cons c l =>
      have hac : hi a < lo c := (List.isChain_cons_cons.1 h).1
      rcases List.mem_cons.1 hb with rfl | hb
      · exact hac
      · have hcb : hi c < lo b := (List.pairwise_cons.1 ih).1 b hb
        have hc : lo c ≤ hi c := hle c (List.mem_cons_of_mem _ List.mem_cons_self)
        exact hac.trans_le (hc.trans hcb.le)

/-- Every instant of the interval `a` lies in one of `l`. -/
def Covered (lo hi : α → β) (l : List α) (a : α) : Prop :=
  ∀ t, lo a ≤ t → t ≤ hi a → ∃ k ∈ l, lo k ≤ t ∧ t ≤ hi k

theorem Covered.of_mem {l : List α} {a : α} (h : a ∈ l) : Covered lo hi l a := by
  intro t hlo hhi
  exact ⟨a, h, hlo, hhi⟩

theorem Covered.mono {l m : List α} {a : α} (h : Covered lo hi l a) (hs : l ⊆ m) :
    Covered lo hi m a := by
  intro t hlo hhi
  obtain ⟨k, hk, ht⟩ := h t hlo hhi
  exact ⟨k, hs hk, ht⟩

/-- A covered interval, prolonged to the end of one that starts before it ends. -/
theorem Covered.join {l : List α} {a b c : α} (h : Covered lo hi l a) (hb : b ∈ l)
    (htouch : lo b ≤ hi a) (hlo : lo c = lo a) (hhi : hi c = hi b) : Covered lo hi l c := by
  intro t hct htc
  rw [hlo] at hct
  rw [hhi] at htc
  rcases le_total t (hi a) with hta | hat
  · exact h t hct hta
  · exact ⟨b, hb, htouch.trans hat, htc⟩

/-- Some instant of the open interval from `e` to `f` lies in the closed one from `l` to `h`. -/
theorem meets_iff [DenselyOrdered β] {e f l h : β} (hef : e < f) (hlh : l ≤ h) :
    (∃ t, e < t ∧ t < f ∧ l ≤ t ∧ t ≤ h) ↔ l < f ∧ e < h := by
  refine ⟨fun hmeets => ?_, fun hends => ?_⟩
  · obtain ⟨t, het, htf, hlt, hth⟩ := hmeets
    exact ⟨hlt.trans_lt htf, het.trans_le hth⟩
  · obtain ⟨hlf, heh⟩ := hends
    rcases lt_or_ge e l with hel | hle
    · exact ⟨l, hel, hlf, le_refl l, hlh⟩
    · obtain ⟨t, het, ht⟩ := exists_between (lt_min hef heh)
      obtain ⟨htf, hth⟩ := lt_min_iff.1 ht
      exact ⟨t, het, htf, hle.trans het.le, hth.le⟩

end Interval
