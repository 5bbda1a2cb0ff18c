import Propreact.Lib.PriorityQueue
import Std.Data.TreeMap

/-!
# Tables of priority queues

A map from keys to priority queues that grows by pushes: `add` takes the queue of a key out by
value, pushes, and puts the copy back in the queue's place. The key order may hold different keys
for equal. After any pushes the queue of a key is the one the key's own values make, in their order
(`getElem?_adds`); the entries of other keys stay (`getElem?_add_of_ne`).
-/

abbrev QueueTable (κ α : Type*) (cmp : κ → κ → Ordering) (less : α → α → Bool) :=
  Std.TreeMap κ (PriorityQueue α less) cmp

namespace QueueTable

variable {κ α : Type*} {cmp : κ → κ → Ordering} {less : α → α → Bool}

/-- Push a value to the queue of a key, which is made if there is none. -/
def add (k : κ) (a : α) (table : QueueTable κ α cmp less) : QueueTable κ α cmp less :=
  match table[k]? with
  | none => table.insertIfNew k (PriorityQueue.empty.push a)
  | some q => (table.erase k).insertIfNew k (q.push a)

/-- Push several values, each under its key. -/
def adds (table : QueueTable κ α cmp less) (es : List (κ × α)) : QueueTable κ α cmp less :=
  es.foldl (fun table e => add e.1 e.2 table) table

/-- The values that go under a key. -/
def valuesAt (cmp : κ → κ → Ordering) (k : κ) (es : List (κ × α)) : List α :=
  (es.filter fun e => cmp e.1 k = .eq).map Prod.snd

/-- What the queue of a key holds. -/
def held (table : QueueTable κ α cmp less) (k : κ) : List α := (table[k]?).elim [] (·.c)

theorem add_of_none {table : QueueTable κ α cmp less} {k : κ} (h : table[k]? = none) (a : α) :
    add k a table = table.insertIfNew k (PriorityQueue.empty.push a) := by
  simp only [add, h]

theorem add_of_some {table : QueueTable κ α cmp less} {k : κ} {q : PriorityQueue α less}
    (h : table[k]? = some q) (a : α) :
    add k a table = (table.erase k).insertIfNew k (q.push a) := by
  simp only [add, h]

@[simp] theorem adds_nil (table : QueueTable κ α cmp less) : adds table [] = table := rfl

@[simp] theorem adds_cons (table : QueueTable κ α cmp less) (e : κ × α) (es : List (κ × α)) :
    adds table (e :: es) = adds (add e.1 e.2 table) es := rfl

theorem adds_append (table : QueueTable κ α cmp less) (es es' : List (κ × α)) :
    adds table (es ++ es') = adds (adds table es) es' :=
  List.foldl_append

section
variable [Std.TransCmp cmp] {table : QueueTable κ α cmp less} {k k' : κ} {a : α}
  {es : List (κ × α)}

theorem getElem?_add : (add k a table)[k']? =
    if cmp k k' = .eq then some ((table[k']?.getD .empty).push a) else table[k']? := by
  cases hk : table[k]? with
  | none =>
    have hnot : k ∉ table := by
      rw [Std.TreeMap.mem_iff_isSome_getElem?, hk]
      simp
    rw [add_of_none hk, Std.TreeMap.getElem?_insertIfNew]
    by_cases heq : cmp k k' = .eq
    · rw [if_pos ⟨heq, hnot⟩, if_pos heq, ← Std.TreeMap.getElem?_congr heq, hk]
      rfl
    · rw [if_neg fun h => heq h.1, if_neg heq]
  | some q =>
    have hnot : k ∉ table.erase k := by simp [Std.ReflCmp.compare_self]
    rw [add_of_some hk, Std.TreeMap.getElem?_insertIfNew, Std.TreeMap.getElem?_erase]
    by_cases heq : cmp k k' = .eq
    · rw [if_pos ⟨heq, hnot⟩, if_pos heq, ← Std.TreeMap.getElem?_congr heq, hk]
      rfl
    · rw [if_neg fun h => heq h.1, if_neg heq, if_neg heq]

theorem getElem?_add_of_ne (h : cmp k k' ≠ .eq) : (add k a table)[k']? = table[k']? := by
  rw [getElem?_add, if_neg h]

/-- The queue of a key after some pushes. -/
theorem getElem?_adds : (adds table es)[k]? =
    if valuesAt cmp k es = [] then table[k]?
    else some ((table[k]?.getD .empty).pushes (valuesAt cmp k es)) := by
  induction es generalizing table with
  | nil => rfl
  | cons e es ih =>
    rw [adds_cons, ih, getElem?_add]
    by_cases heq : cmp e.1 k = .eq
    · have hvalues : valuesAt cmp k (e :: es) = e.2 :: valuesAt cmp k es := by simp [valuesAt, heq]
      rw [if_pos heq, hvalues, if_neg (List.cons_ne_nil _ _)]
      split
      · rename_i hnil
        rw [hnil]
        rfl
      · rfl
    · have hvalues : valuesAt cmp k (e :: es) = valuesAt cmp k es := by simp [valuesAt, heq]
      rw [if_neg heq, hvalues]

theorem getElem?_adds_empty : (adds (∅ : QueueTable κ α cmp less) es)[k]? =
    if valuesAt cmp k es = [] then none
    else some (PriorityQueue.empty.pushes (valuesAt cmp k es)) := by
  rw [getElem?_adds, Std.TreeMap.getElem?_emptyc]
  rfl

theorem getElem?_adds_eq_some {q : PriorityQueue α less} :
    (adds (∅ : QueueTable κ α cmp less) es)[k]? = some q ↔
      valuesAt cmp k es ≠ [] ∧ q = PriorityQueue.empty.pushes (valuesAt cmp k es) := by
  rw [getElem?_adds_empty]
  split
  · rename_i hnil
    simp [hnil]
  · rename_i hne
    rw [Option.some_inj, eq_comm]
    exact (and_iff_right hne).symm

/-- The queues hold the values pushed under their keys. -/
theorem held_adds_empty : (held (adds (∅ : QueueTable κ α cmp less) es) k).Perm
    (valuesAt cmp k es) := by
  rw [held, getElem?_adds_empty]
  split
  · rename_i hnil
    rw [hnil]
    exact .refl _
  · have hperm := (PriorityQueue.empty : PriorityQueue α less).pushes_perm (valuesAt cmp k es)
    rwa [PriorityQueue.c_empty, List.append_nil] at hperm

end

end QueueTable
