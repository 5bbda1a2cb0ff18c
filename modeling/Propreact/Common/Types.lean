import Mathlib.Algebra.GroupWithZero.Nat
import Mathlib.Data.Fintype.Basic
import Mathlib.Logic.Function.Basic
import Mathlib.Order.Defs.LinearOrder

/-!
# Shared data types

The plain data the components hand to each other: machine words, grids, the records a profiler
batch is published as, and tenant ids.
-/

namespace Propreact

/-- C++ `unsigned long`: 64 bits, arithmetic modulo `2 ^ 64`. -/
abbrev ULong := UInt64

instance : LinearOrder ULong where
  le_refl := UInt64.le_refl
  le_trans _ _ _ := UInt64.le_trans
  le_antisymm _ _ := UInt64.le_antisymm
  le_total := UInt64.le_total
  lt_iff_le_not_ge a b := by
    rw [UInt64.not_le]
    exact ⟨fun h => ⟨UInt64.le_of_lt h, h⟩, And.right⟩
  toDecidableLE := inferInstance
  toDecidableEq := inferInstance
  toDecidableLT := inferInstance
  min_def _ _ := rfl
  max_def _ _ := rfl
  compare_eq_compareOfLessAndEq _ _ := rfl

/-- `sizeof(unsigned long)`. -/
def sizeofULong : ULong := 8

/-- The grid of a kernel launch (`struct Grid`). -/
structure Grid where
  x : ULong
  y : ULong
  z : ULong
  deriving Repr, DecidableEq

/-- `Grid::Grid()`. -/
def Grid.unit : Grid := ⟨1, 1, 1⟩

/-- One published record (`struct Record`): `grid.x`, busy time, and idle time until the next. -/
structure Record where
  gX : ULong
  active : ULong
  idle : ULong
  deriving Repr, DecidableEq

abbrev RecordVec := List Record

/-- `m_tenants` and `m_num_tenants`: both sides are built for two tenants. -/
abbrev numTenants : Nat := 2

instance : NeZero numTenants := ⟨Nat.succ_ne_zero 1⟩

abbrev TenantId := Fin numTenants

end Propreact
