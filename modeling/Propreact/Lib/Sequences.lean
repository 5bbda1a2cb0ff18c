import Mathlib.Algebra.GroupWithZero.Nat
import Mathlib.Data.List.Chain
import Mathlib.Data.List.Nodup

/-!
# Operations on sequences

* `pick key l ks`: the greedy search for keys `ks` in `l`, in order. It succeeds exactly if they
  are a subsequence of the keys of `l` (`pick_isSome_iff`). It commutes with a map of the entries
  that moves their keys one to one (`pick_map_map`).
* `consecutive l`: the pairs of neighbours. Those of `l ++ m` are those of `l` and those of `m`
  behind the last entry of `l` (`consecutive_append`). All of them are in a relation exactly if the
  list is a chain of it (`forall_mem_consecutive`). Their distances add up to that of the ends
  (`sum_consecutive`).

A list is cut at its first entry outside a property in one way only (`append_cons_inj`), and with
distinct keys only one order of its entries has their keys in a given order
(`eq_of_perm_of_map_eq`). The entries of a trace that grows at its end are those before and the new
one (`concat_eq_append_cons`, `filterMap_concat`); counts are compared before and after an update
(`count_set_add`).
-/

namespace Sequences

variable {α κ : Type*}

section
variable [DecidableEq κ] {key : α → κ} {l r : List α} {ks : List κ}

/-- The first entries of `l`, in order, that have the keys `ks`. -/
def pick (key : α → κ) : List α → List κ → Option (List α)
  | _, [] => some []
  | [], _ :: _ => none
  | a :: l, k :: ks =>
    if key a = k then (pick key l ks).map (a :: ·) else pick key l (k :: ks)

@[simp] theorem pick_nil : pick key l [] = some [] := by cases l <;> rfl

@[simp] theorem pick_self : pick key l (l.map key) = some l := by
  induction l with
  | nil => rfl
  | cons a l ih => rw [List.map_cons, pick, if_pos rfl, ih, Option.map_some]

theorem pick_map (h : pick key l ks = some r) : r.map key = ks := by
  fun_induction pick key l ks generalizing r with
  | case1 => cases h; rfl
  | case2 => cases h
  | case3 a l ks ih =>
    obtain ⟨r', hr', rfl⟩ := Option.map_eq_some_iff.1 h
    rw [List.map_cons, ih hr']
  | case4 a l k ks hne ih => exact ih h

/-- The search succeeds on every subsequence of the keys. -/
theorem pick_isSome_iff : (pick key l ks).isSome = true ↔ ks.Sublist (l.map key) := by
  fun_induction pick key l ks with
  | case1 => simp
  | case2 => simp
  | case3 a l ks ih => rw [Option.isSome_map, ih, List.map_cons, List.cons_sublist_cons]
  | case4 a l k ks hne ih =>
    rw [ih, List.map_cons]
    refine ⟨fun h => h.cons _, fun h => ?_⟩
    cases h with
    | cons _ h => exact h
    | cons_cons => exact absurd rfl hne

/-- With distinct keys the search for the keys of a subsequence finds the subsequence. -/
theorem pick_of_sublist (hd : (l.map key).Nodup) (h : r.Sublist l) :
    pick key l (r.map key) = some r := by
  induction h with
  | slnil => rfl
  | @cons r l a h ih =>
    rw [List.map_cons, List.nodup_cons] at hd
    cases r with
    | nil => rfl
    | cons b r =>
      have hne : key a ≠ key b := fun he =>
        hd.1 (he ▸ List.mem_map_of_mem (h.subset List.mem_cons_self))
      rw [List.map_cons, pick, if_neg hne, ← List.map_cons, ih hd.2]
  | @cons_cons r l a h ih =>
    rw [List.map_cons, List.nodup_cons] at hd
    rw [List.map_cons, pick, if_pos rfl, ih hd.2, Option.map_some]

theorem pick_map_map {f : α → α} {g : κ → κ} (hg : Function.Injective g)
    (hkey : ∀ a, key (f a) = g (key a)) :
    pick key (l.map f) (ks.map g) = (pick key l ks).map (List.map f) := by
  fun_induction pick key l ks with
  | case1 => simp
  | case2 => rfl
  | case3 a l ks ih =>
    rw [List.map_cons, List.map_cons, pick, if_pos (hkey a), ih, Option.map_map, Option.map_map]
    rfl
  | case4 a l k ks hne ih =>
    rw [List.map_cons, List.map_cons, pick, if_neg, ← List.map_cons, ih]
    intro heq
    rw [hkey] at heq
    exact hne (hg heq)

end

/-- The pairs of neighbours. -/
def consecutive (l : List α) : List (α × α) := l.zip l.tail

@[simp] theorem consecutive_nil : consecutive ([] : List α) = [] := rfl

@[simp] theorem consecutive_singleton (a : α) : consecutive [a] = [] := rfl

@[simp] theorem consecutive_cons_cons (a b : α) (l : List α) :
    consecutive (a :: b :: l) = (a, b) :: consecutive (b :: l) := rfl

theorem consecutive_append (l m : List α) :
    consecutive (l ++ m) = consecutive l ++ consecutive (l.getLast?.toList ++ m) := by
  induction l with
  | nil => rfl
  | cons a l ih =>
    cases l with
    | nil => rfl
    | cons b l =>
      rw [List.cons_append, List.cons_append, consecutive_cons_cons, ← List.cons_append, ih,
        consecutive_cons_cons, List.getLast?_cons_cons, List.cons_append]

theorem consecutive_map {β : Type*} (f : α → β) (l : List α) :
    consecutive (l.map f) = (consecutive l).map (Prod.map f f) := by
  rw [consecutive, consecutive, ← List.map_tail, List.zip_map]

theorem getElem?_consecutive (l : List α) (i : Nat) :
    (consecutive l)[i]? = (l[i]?).bind fun a => (l[i + 1]?).map fun b => (a, b) := by
  induction l generalizing i with
  | nil => rfl
  | cons a l ih =>
    cases l with
    | nil => cases i <;> simp
    | cons b l =>
      cases i with
      | zero => rfl
      | succ i => rw [consecutive_cons_cons, List.getElem?_cons_succ, ih]; rfl

/-- A relation between neighbours, entry by entry or as a chain. -/
theorem forall_mem_consecutive {R : α → α → Prop} {l : List α} :
    (∀ g ∈ consecutive l, R g.1 g.2) ↔ l.IsChain R := by
  induction l with
  | nil => simp
  | cons a l ih =>
    cases l with
    | nil => simp
    | cons b l => rw [consecutive_cons_cons, List.forall_mem_cons, ih, List.isChain_cons_cons]

/-- Distances between neighbours add up, each too large by `w` rounds of length `n`. -/
theorem sum_consecutive {f : α → Nat} {g w : α × α → Nat} {n : Nat}
    (h : ∀ a b, g (a, b) + f a = f b + n * w (a, b)) (l : List α) :
    ((consecutive l).map g).sum + l.head?.elim 0 f =
      l.getLast?.elim 0 f + n * ((consecutive l).map w).sum := by
  induction l with
  | nil => rfl
  | cons a l ih =>
    cases l with
    | nil => simp
    | cons b l =>
      have hpair := h a b
      rw [List.head?_cons, Option.elim_some] at ih ⊢
      rw [consecutive_cons_cons, List.map_cons, List.map_cons, List.sum_cons, List.sum_cons,
        List.getLast?_cons_cons, Nat.mul_add]
      omega

/-- Replacing an entry. -/
theorem count_set_add [DecidableEq α] {l : List α} {i : Nat} {a b : α} (h : l[i]? = some b)
    (q : α) :
    (l.set i a).count q + (if b = q then 1 else 0) = l.count q + (if a = q then 1 else 0) := by
  obtain ⟨hi, rfl⟩ := List.getElem?_eq_some_iff.1 h
  have hpos : l[i] = q → 0 < l.count q := fun hq =>
    List.count_pos_iff.2 (hq ▸ List.getElem_mem hi)
  rw [List.count_set hi]
  by_cases hq : l[i] = q
  · have := hpos hq
    simp only [hq, beq_self_eq_true, if_true, beq_iff_eq]
    omega
  · simp [hq]

theorem eq_of_perm_of_map_eq {key : α → κ} {l m : List α} (h : l.Perm m) (hd : (m.map key).Nodup)
    (he : l.map key = m.map key) : l = m := by
  apply List.ext_getElem h.length_eq
  intro i hl hm
  have hkey : key l[i] = key m[i] := by
    have := List.getElem_of_eq he (i := i) (by simpa using hl)
    simpa using this
  exact List.inj_on_of_nodup_map hd (h.subset (List.getElem_mem hl)) (List.getElem_mem hm) hkey

theorem filterMap_concat {β : Type*} (f : α → Option β) (l : List α) (a : α) :
    (l ++ [a]).filterMap f = l.filterMap f ++ (f a).toList := by
  rw [List.filterMap_append]
  cases h : f a <;> simp [h]

/-- An entry of a list with one more entry at the end is the new one or one of the others. -/
theorem concat_eq_append_cons {l pre post : List α} {a b : α} (h : l ++ [b] = pre ++ a :: post) :
    l = pre ∧ b = a ∨ ∃ post', l = pre ++ a :: post' := by
  rcases List.eq_nil_or_concat' post with rfl | ⟨post, c, rfl⟩
  · obtain ⟨rfl, hb⟩ := List.append_inj' h rfl
    exact .inl ⟨rfl, List.singleton_inj.1 hb⟩
  · rw [← List.cons_append, ← List.append_assoc] at h
    exact .inr ⟨post, (List.append_inj' h rfl).1⟩

/-- The entries of a list with what is in front of them, by position. -/
theorem exists_split_iff {P : List α → α → Prop} {l : List α} :
    (∃ pre a, pre ++ [a] <+: l ∧ P pre a) ↔ ∃ i : Fin l.length, P (l.take i) l[i] := by
  constructor
  · rintro ⟨pre, a, ⟨post, rfl⟩, hP⟩
    refine ⟨⟨pre.length, by simp⟩, ?_⟩
    simpa using hP
  · rintro ⟨i, hP⟩
    refine ⟨_, _, ?_, hP⟩
    rw [Fin.getElem_fin, ← List.take_succ_eq_append_getElem i.isLt]
    exact List.take_prefix _ _

theorem append_cons_inj {P : α → Prop} {l l' m m' : List α} {a a' : α}
    (h : l ++ a :: m = l' ++ a' :: m') (hl : ∀ b ∈ l, P b) (ha : ¬ P a) (hl' : ∀ b ∈ l', P b)
    (ha' : ¬ P a') : l = l' ∧ a = a' ∧ m = m' := by
  induction l generalizing l' with
  | nil =>
    cases l' with
    | nil =>
      cases h
      exact ⟨rfl, rfl, rfl⟩
    | cons b l' =>
      cases h
      exact absurd (hl' a (by simp)) ha
  | cons b l ih =>
    cases l' with
    | nil =>
      cases h
      exact absurd (hl a' (by simp)) ha'
    | cons b' l' =>
      rw [List.cons_append, List.cons_append, List.cons_eq_cons] at h
      obtain ⟨rfl, h⟩ := h
      obtain ⟨rfl, ha, hm⟩ := ih h (fun b hb => hl b (by simp [hb]))
        (fun b hb => hl' b (by simp [hb]))
      exact ⟨rfl, ha, hm⟩

end Sequences
