import Mathlib.Data.List.Basic
import Mathlib.Order.Lattice
import Mathlib.Order.RelClasses

/-!
# Binary-heap priority queues

`PriorityQueue α less`: the container adaptor over a random-access sequence `c`, ordered by
`less`. `push` appends the value and sifts it up from the new leaf: as long as the parent of the
hole is `less` than the value, the parent moves down into the hole. `top` is the front of the
sequence.

* A push keeps what the queue holds and adds the value, whatever `less` is (`push_perm`).
* If `less` is a strict weak order (`Std.Asymm` and `IsOrderConnected`), a queue that only pushes
  have filled is a heap (`IsHeap.pushes`), and its top is `less` than none of its values
  (`IsHeap.not_less_of_top`, `top_pushes`).
* If `less` holds of no values, the values stay in the order of their pushes (`push_of_never`).
-/

/-- A heap in a sequence; the children of position `i` are `2 * i + 1` and `2 * i + 2`. -/
structure PriorityQueue (α : Type*) (less : α → α → Bool) where
  c : List α
  deriving Repr, DecidableEq

namespace PriorityQueue

variable {α : Type*} {less : α → α → Bool}

def empty : PriorityQueue α less := ⟨[]⟩

/-- Place `x` at or above the hole. The hole at least halves at every step, so `hole` steps are
enough; `siftUp less heap hole hole x` is the sift from `hole`. -/
def siftUp (less : α → α → Bool) (heap : List α) : Nat → Nat → α → List α
  | 0, hole, x => heap.set hole x
  | n + 1, hole, x =>
    if hole = 0 then heap.set hole x
    else
      match heap[(hole - 1) / 2]? with
      | none => heap.set hole x
      | some p =>
        if less p x then siftUp less (heap.set hole p) n ((hole - 1) / 2) x else heap.set hole x

/-- Append and sift up. -/
def push (q : PriorityQueue α less) (x : α) : PriorityQueue α less :=
  ⟨siftUp less (q.c ++ [x]) q.c.length q.c.length x⟩

/-- The front of the sequence, `none` for an empty queue. -/
def top (q : PriorityQueue α less) : Option α := q.c[0]?

/-- Push the values one after the other. -/
def pushes (q : PriorityQueue α less) (as : List α) : PriorityQueue α less := as.foldl push q

@[simp] theorem c_empty : (empty : PriorityQueue α less).c = [] := rfl

@[simp] theorem pushes_nil (q : PriorityQueue α less) : q.pushes [] = q := rfl

/-! ## What the queue holds -/

variable {heap : List α} {n hole : Nat} {x : α}

/-- A sift only moves values. -/
theorem siftUp_perm (h : hole < heap.length) :
    (siftUp less heap n hole x).Perm (heap.set hole x) := by
  fun_induction siftUp less heap n hole x with
  | case4 heap n hole x hne p hp hless ih =>
    obtain ⟨hlt, hget⟩ := List.getElem?_eq_some_iff.1 hp
    have hparent : (hole - 1) / 2 ≠ hole := by omega
    refine (ih (by rwa [List.length_set])).trans ?_
    -- the hole and its parent change places
    have hset : (heap.set hole x).length = heap.length := List.length_set
    have hswap := List.set_set_perm (hset.symm ▸ h) (hset.symm ▸ hlt)
    rwa [List.getElem_set_self, List.getElem_set_ne hparent.symm, hget, List.set_set] at hswap
  | _ => exact .refl _

theorem push_perm (q : PriorityQueue α less) (x : α) : (q.push x).c.Perm (x :: q.c) := by
  have hset : (q.c ++ [x]).set q.c.length x = q.c ++ [x] := by simp
  have h : (q.push x).c.Perm ((q.c ++ [x]).set q.c.length x) := siftUp_perm (by simp)
  rw [hset] at h
  exact h.trans (List.perm_append_singleton x q.c)

theorem pushes_perm (q : PriorityQueue α less) (as : List α) :
    (q.pushes as).c.Perm (as ++ q.c) := by
  induction as generalizing q with
  | nil => exact .refl _
  | cons a as ih =>
    have h := (ih (q.push a)).trans ((q.push_perm a).append_left as)
    exact h.trans List.perm_middle

theorem mem_pushes_empty {as : List α} {a : α} :
    a ∈ (empty.pushes as : PriorityQueue α less).c ↔ a ∈ as := by
  rw [(pushes_perm _ _).mem_iff, c_empty, List.append_nil]

/-! ## The order of the heap -/

/-- No value's parent is `less` than it. -/
def IsHeap (less : α → α → Bool) (heap : List α) : Prop :=
  ∀ i p a, 0 < i → heap[(i - 1) / 2]? = some p → heap[i]? = some a → less p a = false

/-- A heap but for the hole, where `x` may go as far as the hole's children are concerned. -/
structure IsSifting (less : α → α → Bool) (heap : List α) (hole : Nat) (x : α) : Prop where
  apart : ∀ i p a, 0 < i → i ≠ hole → (i - 1) / 2 ≠ hole → heap[(i - 1) / 2]? = some p →
    heap[i]? = some a → less p a = false
  across : ∀ i p a, 0 < i → (i - 1) / 2 = hole → 0 < hole → heap[(hole - 1) / 2]? = some p →
    heap[i]? = some a → less p a = false
  below : ∀ i a, 0 < i → (i - 1) / 2 = hole → heap[i]? = some a → less x a = false

theorem isHeap_nil : IsHeap less [] := by
  intro i p a _ _ ha
  cases ha

/-- A new leaf is a hole. -/
theorem IsHeap.concat (h : IsHeap less heap) (x : α) :
    IsSifting less (heap ++ [x]) heap.length x := by
  have hchild (i : Nat) (hi : 0 < i) (hp : (i - 1) / 2 = heap.length) :
      (heap ++ [x])[i]? = none := by
    rw [List.getElem?_eq_none_iff, List.length_append, List.length_singleton]
    omega
  refine ⟨?_, ?_, ?_⟩
  · intro i p a hi hne hpne hp ha
    have hlt : i < (heap ++ [x]).length := (List.getElem?_eq_some_iff.1 ha).1
    rw [List.length_append, List.length_singleton] at hlt
    rw [List.getElem?_append_left (by omega)] at hp ha
    exact h i p a hi hp ha
  · intro i p a hi hpi _ _ ha
    rw [hchild i hi hpi] at ha
    cases ha
  · intro i a hi hpi ha
    rw [hchild i hi hpi] at ha
    cases ha

/-- Where the parent is not `less` than `x`, it may stay. -/
theorem IsSifting.place (h : IsSifting less heap hole x)
    (hstop : 0 < hole → ∀ p, heap[(hole - 1) / 2]? = some p → less p x = false) :
    IsHeap less (heap.set hole x) := by
  intro i p a hi hp ha
  rw [List.getElem?_set] at hp ha
  by_cases hih : hole = i
  · subst hih
    rw [if_neg (by omega)] at hp
    rw [if_pos rfl] at ha
    split at ha
    · cases ha
      exact hstop hi p hp
    · cases ha
  · rw [if_neg hih] at ha
    by_cases hph : hole = (i - 1) / 2
    · rw [if_pos hph] at hp
      split at hp
      · cases hp
        exact h.below i a hi hph.symm ha
      · cases hp
    · rw [if_neg hph] at hp
      exact h.apart i p a hi (Ne.symm hih) (Ne.symm hph) hp ha

theorem not_less_trans [IsOrderConnected α fun a b => less a b = true] {a b c : α}
    (hab : less a b = false) (hbc : less b c = false) : less a c = false := by
  rw [← Bool.not_eq_true] at hab hbc ⊢
  exact IsOrderConnected.neg_trans (r := fun a b => less a b = true) hab hbc

theorem not_less_of_less [Std.Asymm fun a b => less a b = true] {a b : α}
    (h : less a b = true) : less b a = false := by
  rw [← Bool.not_eq_true]
  exact asymm (r := fun a b => less a b = true) h

section
variable [Std.Asymm fun a b => less a b = true] [IsOrderConnected α fun a b => less a b = true]

/-- The parent moves down into the hole. -/
theorem IsSifting.rise (h : IsSifting less heap hole x) (hlt : hole < heap.length) (h0 : 0 < hole)
    {p : α} (hp : heap[(hole - 1) / 2]? = some p) (hless : less p x = true) :
    IsSifting less (heap.set hole p) ((hole - 1) / 2) x := by
  have hself : (heap.set hole p)[hole]? = some p := List.getElem?_set_self hlt
  have hother (i : Nat) (hi : i ≠ hole) : (heap.set hole p)[i]? = heap[i]? :=
    List.getElem?_set_ne hi.symm
  -- the other child of the parent
  have hsibling (i : Nat) (a : α) (hi : 0 < i) (hih : i ≠ hole) (hpi : (i - 1) / 2 = (hole - 1) / 2)
      (ha : heap[i]? = some a) : less p a = false :=
    h.apart i p a hi hih (by omega) (by rwa [hpi]) ha
  refine ⟨?_, ?_, ?_⟩
  · intro i p' a hi hine hpne hp' ha
    by_cases hih : i = hole
    · exact absurd (by rw [hih]) hpne
    · rw [hother i hih] at ha
      by_cases hph : (i - 1) / 2 = hole
      · rw [hph, hself] at hp'
        cases hp'
        exact h.across i p a hi hph h0 hp ha
      · rw [hother _ hph] at hp'
        exact h.apart i p' a hi hih hph hp' ha
  · intro i p' a hi hpi hpos hp' ha
    rw [hother _ (by omega)] at hp'
    have hup : less p' p = false := h.apart _ p' p hpos (by omega) (by omega) hp' hp
    by_cases hih : i = hole
    · rw [hih, hself] at ha
      cases ha
      exact hup
    · rw [hother i hih] at ha
      exact not_less_trans hup (hsibling i a hi hih hpi ha)
  · intro i a hi hpi ha
    by_cases hih : i = hole
    · rw [hih, hself] at ha
      cases ha
      exact not_less_of_less hless
    · rw [hother i hih] at ha
      exact not_less_trans (not_less_of_less hless) (hsibling i a hi hih hpi ha)

theorem IsSifting.siftUp (h : IsSifting less heap hole x) (hlt : hole < heap.length)
    (hn : hole ≤ n) : IsHeap less (siftUp less heap n hole x) := by
  fun_induction PriorityQueue.siftUp less heap n hole x with
  | case1 heap hole x => exact h.place fun h0 => by omega
  | case2 heap x n => exact h.place fun h0 => by omega
  | case3 heap hole x n hne hp => exact h.place fun _ p hp' => by simp [hp] at hp'
  | case4 heap n hole x hne p hp hless ih =>
    have h0 : 0 < hole := Nat.pos_of_ne_zero hne
    refine ih (h.rise hlt h0 hp hless) ?_ (by omega)
    rw [List.length_set]
    omega
  | case5 heap n hole x hne p hp hless =>
    refine h.place fun _ p' hp' => ?_
    rw [hp] at hp'
    cases hp'
    exact Bool.eq_false_iff.2 hless

theorem IsHeap.push {q : PriorityQueue α less} (h : IsHeap less q.c) (x : α) :
    IsHeap less (q.push x).c :=
  (h.concat x).siftUp (by simp) (Nat.le_refl _)

theorem IsHeap.pushes {q : PriorityQueue α less} (h : IsHeap less q.c) (as : List α) :
    IsHeap less (q.pushes as).c := by
  induction as generalizing q with
  | nil => exact h
  | cons a as ih => exact ih (h.push a)

/-- The top of a heap is `less` than none of its values. -/
theorem IsHeap.not_less_of_top {q : PriorityQueue α less} (h : IsHeap less q.c) {t a : α}
    (ht : q.top = some t) (ha : a ∈ q.c) : less t a = false := by
  obtain ⟨i, hi⟩ := List.mem_iff_getElem?.1 ha
  -- along the path from the root
  induction i using Nat.strongRecOn generalizing a with
  | ind i ih =>
    by_cases h0 : i = 0
    · rw [h0, show q.c[0]? = some t from ht] at hi
      cases hi
      exact Bool.eq_false_iff.2 (irrefl (r := fun a b => less a b = true) t)
    · have hlt : i < q.c.length := (List.getElem?_eq_some_iff.1 hi).1
      obtain ⟨p, hp⟩ : ∃ p, q.c[(i - 1) / 2]? = some p := ⟨_, List.getElem?_eq_getElem (by omega)⟩
      have hup := ih ((i - 1) / 2) (by omega) (List.mem_of_getElem? hp) hp
      exact not_less_trans hup (h i p a (by omega) hp hi)

variable (less) in
/-- The top after some pushes: one of the values, `less` than none of them. -/
theorem top_pushes {as : List α} (h : as ≠ []) :
    ∃ t, (empty.pushes as : PriorityQueue α less).top = some t ∧ t ∈ as ∧
      ∀ a ∈ as, less t a = false := by
  obtain ⟨a, ha⟩ := List.exists_mem_of_ne_nil as h
  have hne : (empty.pushes as : PriorityQueue α less).c ≠ [] :=
    List.ne_nil_of_mem (mem_pushes_empty.2 ha)
  have ht : (empty.pushes as : PriorityQueue α less).top = some _ :=
    List.getElem?_eq_getElem (List.length_pos_of_ne_nil hne)
  refine ⟨_, ht, mem_pushes_empty.1 (List.mem_of_getElem? ht), fun b hb => ?_⟩
  exact (isHeap_nil.pushes as).not_less_of_top ht (mem_pushes_empty.2 hb)

end

/-- The order of a key. -/
theorem asymm_of_key {β : Type*} [Preorder β] {f : α → β}
    (h : ∀ a b, less a b = true ↔ f a < f b) : Std.Asymm fun a b => less a b = true where
  asymm a b hab hba := lt_asymm ((h a b).1 hab) ((h b a).1 hba)

theorem isOrderConnected_of_key {β : Type*} [LinearOrder β] {f : α → β}
    (h : ∀ a b, less a b = true ↔ f a < f b) :
    IsOrderConnected α fun a b => less a b = true where
  conn a b c hac := by
    rw [h, h]
    exact (lt_or_ge (f a) (f b)).imp_right fun hle => hle.trans_lt ((h a c).1 hac)

/-! ## Values that are not compared -/

/-- If `less` holds of no values, a push only appends. -/
theorem push_of_never (h : ∀ a b, less a b = false) (q : PriorityQueue α less) (x : α) :
    (q.push x).c = q.c ++ [x] := by
  have hset : (q.c ++ [x]).set q.c.length x = q.c ++ [x] := by simp
  unfold push siftUp
  split
  · exact hset
  · split
    · exact hset
    · split
      · exact hset
      · rw [if_neg (by simp [h])]
        exact hset

theorem pushes_of_never (h : ∀ a b, less a b = false) (q : PriorityQueue α less) (as : List α) :
    (q.pushes as).c = q.c ++ as := by
  induction as generalizing q with
  | nil => exact (List.append_nil _).symm
  | cons a as ih =>
    show ((q.push a).pushes as).c = _
    rw [ih, push_of_never h, List.append_assoc]
    rfl

end PriorityQueue
