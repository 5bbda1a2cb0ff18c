import Mathlib.Order.Bounds.Basic
import Mathlib.Order.OrderDual
import Propreact.Lib.QueueTable
import Propreact.Lib.Sequences
import Propreact.Window.Window

/-!
# The window answers minima

A write pushes one value to one table (`writeDataIdle_eq`, `writeDataActive_eq`), so after any
writes each table is the one its writes make (`run_tables`). The top of a queue is its least value
(`top_isLeast`), and the queue of a grid holds the values written under the grid's `x`: a read
gives the least of them (`reads_least`).
-/

namespace Propreact

theorem greater_iff (a b : ULong) :
    greater a b = true ↔ OrderDual.toDual a < OrderDual.toDual b := by
  rw [OrderDual.toDual_lt_toDual]
  exact decide_eq_true_iff

instance : Std.Asymm fun a b => greater a b = true := PriorityQueue.asymm_of_key greater_iff

instance : IsOrderConnected ULong fun a b => greater a b = true :=
  PriorityQueue.isOrderConnected_of_key greater_iff

/-- The top of a queue that pushes have filled is the least value. -/
theorem top_isLeast {vs : List ULong} (h : vs ≠ []) :
    ∃ v, (PriorityQueue.empty.pushes vs : PriorityQueue ULong greater).top = some v ∧
      IsLeast {v | v ∈ vs} v := by
  obtain ⟨v, hv, hmem, hless⟩ := PriorityQueue.top_pushes greater h
  exact ⟨v, hv, hmem, fun b hb => not_lt.1 (decide_eq_false_iff_not.1 (hless b hb))⟩

theorem keyOrder_eq_compareOn : keyOrder = compareOn Grid.x := by
  funext a b
  rcases lt_trichotomy a.x b.x with hlt | heq | hgt
  · simp [keyOrder, experimentalKeyCmpFtor, compareOn, hlt, compare_lt_iff_lt.2 hlt]
  · simp [keyOrder, experimentalKeyCmpFtor, compareOn, heq]
  · simp [keyOrder, experimentalKeyCmpFtor, compareOn, hgt, hgt.not_gt, compare_gt_iff_gt.2 hgt]

instance : Std.TransCmp keyOrder := by
  rw [keyOrder_eq_compareOn]
  infer_instance

theorem keyOrder_eq_iff {a b : Grid} : keyOrder a b = .eq ↔ a.x = b.x := by
  rw [keyOrder_eq_compareOn]
  exact compare_eq_iff_eq (a := a.x) (b := b.x)

namespace Window

variable {calls : List WindowCall} {k : Grid} {val : ULong}

/-- The writes to the idle table. -/
def idleWrites (calls : List WindowCall) : List (Grid × ULong) :=
  calls.filterMap fun
    | .writeDataIdle k idle => some (k, idle)
    | .writeDataActive _ _ => none

/-- The writes to the active table. -/
def activeWrites (calls : List WindowCall) : List (Grid × ULong) :=
  calls.filterMap fun
    | .writeDataIdle _ _ => none
    | .writeDataActive k active => some (k, active)

theorem mem_idleWrites : (k, val) ∈ idleWrites calls ↔ .writeDataIdle k val ∈ calls := by
  rw [idleWrites, List.mem_filterMap]
  refine ⟨fun ⟨c, hc, heq⟩ => ?_, fun h => ⟨_, h, rfl⟩⟩
  cases c <;> cases heq
  exact hc

theorem mem_activeWrites : (k, val) ∈ activeWrites calls ↔ .writeDataActive k val ∈ calls := by
  rw [activeWrites, List.mem_filterMap]
  refine ⟨fun ⟨c, hc, heq⟩ => ?_, fun h => ⟨_, h, rfl⟩⟩
  cases c <;> cases heq
  exact hc

theorem writeDataIdle_eq (k : Grid) (val : ULong) (w : Window) :
    w.writeDataIdle k val = { w with tableIdle := QueueTable.add k val w.tableIdle } := by
  unfold writeDataIdle
  split
  · rename_i hq
    rw [QueueTable.add_of_none hq]
  · rename_i q hq
    rw [QueueTable.add_of_some hq]

theorem writeDataActive_eq (k : Grid) (val : ULong) (w : Window) :
    w.writeDataActive k val = { w with tableActive := QueueTable.add k val w.tableActive } := by
  unfold writeDataActive
  split
  · rename_i hq
    rw [QueueTable.add_of_none hq]
  · rename_i q hq
    rw [QueueTable.add_of_some hq]

/-- Each table is the one its writes make. -/
theorem run_tables (calls : List WindowCall) :
    (run calls).tableIdle = QueueTable.adds ∅ (idleWrites calls) ∧
      (run calls).tableActive = QueueTable.adds ∅ (activeWrites calls) := by
  induction calls using List.reverseRecOn with
  | nil => exact ⟨rfl, rfl⟩
  | append_singleton calls c ih =>
    have hrun : run (calls ++ [c]) = (run calls).exec c := List.foldl_concat ..
    rw [hrun, idleWrites, activeWrites, Sequences.filterMap_concat, Sequences.filterMap_concat,
      QueueTable.adds_append, QueueTable.adds_append, ← idleWrites, ← activeWrites]
    cases c with
    | writeDataIdle k idle =>
      rw [exec, writeDataIdle_eq, ih.1, ih.2]
      exact ⟨rfl, rfl⟩
    | writeDataActive k active =>
      rw [exec, writeDataActive_eq, ih.1, ih.2]
      exact ⟨rfl, rfl⟩

theorem readDataIdle_eq (q : Grid) (w : Window) :
    w.readDataIdle q = (w.tableIdle[q]?).elim (some 0) (·.top) := by
  unfold readDataIdle
  cases w.tableIdle[q]? <;> rfl

theorem readDataActive_eq (q : Grid) (w : Window) :
    w.readDataActive q = (w.tableActive[q]?).elim (some ulongMax) (·.top) := by
  unfold readDataActive
  cases w.tableActive[q]? <;> rfl

/-- `v` is the least of the values, or `d` if there are none. -/
def LeastOr (d : ULong) (values : Set ULong) (v : ULong) : Prop :=
  IsLeast values v ∨ values = ∅ ∧ v = d

theorem top_leastOr (es : List (Grid × ULong)) (q : Grid) (d : ULong) :
    ∃ v, ((QueueTable.adds (∅ : KeyIdleQueueTable) es)[q]?).elim (some d) (·.top) = some v ∧
      LeastOr d {v | ∃ k, (k, v) ∈ es ∧ k.x = q.x} v := by
  have hvalues :
      {v | ∃ k, (k, v) ∈ es ∧ k.x = q.x} = {v | v ∈ QueueTable.valuesAt keyOrder q es} := by
    ext v
    simp [QueueTable.valuesAt, keyOrder_eq_iff]
  rw [hvalues, QueueTable.getElem?_adds_empty]
  split
  · rename_i hnil
    exact ⟨d, rfl, .inr ⟨by simp [hnil], rfl⟩⟩
  · rename_i hne
    obtain ⟨v, hv, hleast⟩ := top_isLeast hne
    exact ⟨v, hv, .inl hleast⟩

/-- Grids with the same `x` share one entry of the table. -/
def OneEntry (table : KeyIdleQueueTable) : Prop :=
  (∀ k k' : Grid, k.x = k'.x → table[k]? = table[k']?) ∧
    table.keys.Pairwise fun k k' => k.x ≠ k'.x

theorem oneEntry (table : KeyIdleQueueTable) : OneEntry table := by
  refine ⟨fun k k' h => ?_, ?_⟩
  · exact Std.TreeMap.getElem?_congr (keyOrder_eq_iff.2 h)
  · exact Std.TreeMap.distinct_keys.imp fun h heq => h (keyOrder_eq_iff.2 heq)

/-- **Minima for each `x`.** After any writes, whatever their grids and values: a read of idle time
gives the least one written under a grid with the same `x`, 0 if there is none, and a read of busy
time likewise, or `ULONG_MAX`. Grids with the same `x` share one entry, and no write to one table
changes what is read from the other. -/
theorem reads_least (calls : List WindowCall) :
    (∀ q, ∃ v, (run calls).readDataIdle q = some v ∧
      LeastOr 0 {v | ∃ k, .writeDataIdle k v ∈ calls ∧ k.x = q.x} v) ∧
    (∀ q, ∃ v, (run calls).readDataActive q = some v ∧
      LeastOr ulongMax {v | ∃ k, .writeDataActive k v ∈ calls ∧ k.x = q.x} v) ∧
    OneEntry (run calls).tableIdle ∧ OneEntry (run calls).tableActive ∧
    ∀ (w : Window) (k : Grid) (val : ULong) (q : Grid),
      (w.writeDataIdle k val).readDataActive q = w.readDataActive q ∧
        (w.writeDataActive k val).readDataIdle q = w.readDataIdle q := by
  obtain ⟨hidle, hactive⟩ := run_tables calls
  refine ⟨fun q => ?_, fun q => ?_, oneEntry _, oneEntry _, fun w k val q => ⟨?_, ?_⟩⟩
  · simp only [readDataIdle_eq, hidle, ← mem_idleWrites]
    exact top_leastOr _ q 0
  · simp only [readDataActive_eq, hactive, ← mem_activeWrites]
    exact top_leastOr _ q ulongMax
  · rw [writeDataIdle_eq]
    rfl
  · rw [writeDataActive_eq]
    rfl

end Window

end Propreact
