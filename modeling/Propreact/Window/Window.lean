import Propreact.Lib.PriorityQueue
import Propreact.Common.Types
import Std.Data.TreeMap

/-!
# The window

`Window` (`Window.cpp`): for each `grid.x`, the idle times and the busy times the profiler found,
each in a queue with the least on top. The tables are ordered by `x` alone, so grids that differ in
`y` or `z` only have one entry, under the grid it was written with last. The two operations on
`m_mutex` are left out: nothing calls them.
-/

namespace Propreact

/-- `ULONG_MAX`. -/
def ulongMax : ULong := 18446744073709551615

/-- `std::greater<unsigned long>`. -/
def greater (a b : ULong) : Bool := a > b

abbrev MinIdleQueue := PriorityQueue ULong greater
abbrev MinActiveQueue := PriorityQueue ULong greater

/-- `ExperimentalKeyCmpFtor::operator()`. -/
def experimentalKeyCmpFtor (a b : Grid) : Bool := a.x < b.x

/-- The order of a `std::map` with the functor: keys are equal if neither comes first. -/
def keyOrder (a b : Grid) : Ordering :=
  if experimentalKeyCmpFtor a b then .lt else if experimentalKeyCmpFtor b a then .gt else .eq

abbrev KeyIdleQueueTable := Std.TreeMap Grid MinIdleQueue keyOrder
abbrev KeyActiveQueueTable := Std.TreeMap Grid MinActiveQueue keyOrder

structure Window where
  tableIdle : KeyIdleQueueTable
  tableActive : KeyActiveQueueTable

/-- A call of `Window::WriteDataIdle` or `Window::WriteDataActive`. -/
inductive WindowCall where
  | writeDataIdle (k : Grid) (idle : ULong)
  | writeDataActive (k : Grid) (active : ULong)
  deriving Repr, DecidableEq

namespace Window

/-- `Window::Window()`. -/
def new : Window := ⟨∅, ∅⟩

/-- `Window::WriteDataIdle`. -/
def writeDataIdle (k : Grid) (val : ULong) (w : Window) : Window :=
  match w.tableIdle[k]? with
  | none => { w with tableIdle := w.tableIdle.insertIfNew k (PriorityQueue.empty.push val) }
  | some q => { w with tableIdle := (w.tableIdle.erase k).insertIfNew k (q.push val) }

/-- `Window::WriteDataActive`. -/
def writeDataActive (k : Grid) (val : ULong) (w : Window) : Window :=
  match w.tableActive[k]? with
  | none => { w with tableActive := w.tableActive.insertIfNew k (PriorityQueue.empty.push val) }
  | some q => { w with tableActive := (w.tableActive.erase k).insertIfNew k (q.push val) }

/-- `Window::ReadDataIdle`; `none` would be the top of an empty queue, which is undefined. -/
def readDataIdle (k : Grid) (w : Window) : Option ULong :=
  match w.tableIdle[k]? with
  | none => some 0
  | some q => q.top

/-- `Window::ReadDataActive`. -/
def readDataActive (k : Grid) (w : Window) : Option ULong :=
  match w.tableActive[k]? with
  | none => some ulongMax
  | some q => q.top

def exec (w : Window) : WindowCall → Window
  | .writeDataIdle k idle => w.writeDataIdle k idle
  | .writeDataActive k active => w.writeDataActive k active

/-- The window after some calls. -/
def run (calls : List WindowCall) : Window := calls.foldl exec new

end Window

end Propreact
