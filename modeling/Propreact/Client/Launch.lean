import Propreact.Client.System
import Propreact.Backend.Token

/-!
# The life of a launch

`Stage`: how far the open launch has come, from the call of `launch` over the trigger, the
predictor and, unless the grid is a library marker, the backend, to its return. `Stage.Step` says
what may happen at a stage; `Stage.Ledger` is what that implies for the trace so far: the grids
read, the calls counted, and, for the open launch, the steps that brought it to its stage.
-/

namespace Propreact.System

/-- Where the launch's request is, between the client's `send` and `receive`. -/
inductive Hop where
  | queued
  | received
  | asked
  | lost
  | held
  | granted
  | answering
  | responded
  deriving Repr, DecidableEq

/-- `home`: no launch is open. The flag of the last two stages: a request was made. -/
inductive Stage where
  | home
  | written (g : Grid)
  | posted (g : Grid)
  | woken (g : Grid)
  | read (g : Grid)
  | sending (g : Grid)
  | serving (g : Grid) (hop : Hop)
  | notifying (g : Grid) (asked : Bool)
  | notified (g : Grid) (asked : Bool)
  deriving Repr, DecidableEq

/-- The grids `launch` was called with, oldest first. -/
def launches (tr : List Event) : List Grid :=
  tr.filterMap fun
    | .launched g => some g
    | _ => none

/-- The grids `ReadData` returned to the predictor, oldest first. -/
def reads (tr : List Event) : List Grid :=
  tr.filterMap fun
    | .readData g => some g
    | _ => none

def Event.isLaunched : Event → Bool
  | .launched _ => true
  | _ => false

/-- The steps since the last call of `launch`. -/
def sinceLaunch (tr : List Event) : List Event := tr.rtakeWhile (!·.isLaunched)

namespace Stage

/-- What can happen while a launch is at a stage. -/
inductive Step : Stage → Event → Stage → Prop
  | launch (g : Grid) : Step .home (.launched g) (.written g)
  | notify1 {g : Grid} : Step (.written g) .notified1 (.posted g)
  | wake {g : Grid} : Step (.posted g) .woke (.woken g)
  | readData {g : Grid} : Step (.woken g) (.readData g) (.read g)
  | mark {g : Grid} : Step (.read g) (.marked g) (.notifying g false)
  | encode {g : Grid} : Step (.read g) (.encoded g) (.sending g)
  | send {g : Grid} : Step (.sending g) (.sent g) (.serving g .queued)
  | receive {g : Grid} :
    Step (.serving g .queued) (.backend (.received 0)) (.serving g .received)
  | update {g : Grid} :
    Step (.serving g .received) (.backend (.updated 0 g.x)) (.serving g .asked)
  | take {g : Grid} : 0 < g.x →
    Step (.serving g .asked) (.backend (.retrieved 0 (some g.x) g.x)) (.serving g .held)
  | drop {g : Grid} : g.x = 0 →
    Step (.serving g .asked) (.backend (.retrieved 0 (some g.x) g.x)) (.serving g .lost)
  | release {g : Grid} : Step (.serving g .held) (.backend (.released 0)) (.serving g .granted)
  | wait {g : Grid} : Step (.serving g .granted) (.backend (.waited 0)) (.serving g .answering)
  | respond {g : Grid} :
    Step (.serving g .answering) (.backend (.responded 0)) (.serving g .responded)
  | answer {g : Grid} : Step (.serving g .responded) .answered (.notifying g true)
  | notify2 {g : Grid} {asked : Bool} : Step (.notifying g asked) .notified2 (.notified g asked)
  | return {g : Grid} {asked : Bool} : Step (.notified g asked) .returned .home
  | other {st : Stage} {e : Backend.Event} :
    e.own 0 = none ∨ e.own 0 = some (.retrieved none 0) → Step st (.backend e) st

/-- The protocol of the launches. -/
def protocol : Lts Stage Event where
  init st := st = .home
  step := Step

/-- The open launch's grid. -/
def grid : Stage → Option Grid
  | .home => none
  | .written g | .posted g | .woken g | .read g | .sending g => some g
  | .serving g _ | .notifying g _ | .notified g _ => some g

/-- The open launch's grid, while the predictor has not read it. -/
def unread : Stage → List Grid
  | .written g | .posted g | .woken g => [g]
  | _ => []

/-- The predictor has read the grid and has not notified. -/
def handling : Stage → Nat
  | .read _ | .sending _ | .serving _ _ | .notifying _ _ => 1
  | _ => 0

/-- The launch is notified and has not returned. -/
def returning : Stage → Nat
  | .notified _ _ => 1
  | _ => 0

/-- A request was sent for the open launch. -/
def requested : Stage → Bool
  | .serving _ _ | .notifying _ true | .notified _ true => true
  | _ => false

/-- The steps that take a request of grid `g` to the backend and back. -/
def roundTrip (g : Grid) : List Event :=
  [.sent g, .backend (.updated 0 g.x), .backend (.retrieved 0 (some g.x) g.x),
    .backend (.released 0), .backend (.responded 0), .answered, .notified2]

/-- How much of the round trip lies behind the open launch. -/
def progress : Stage → Nat
  | .serving _ hop =>
    match hop with
    | .queued | .received => 1
    | .asked | .lost => 2
    | .held => 3
    | .granted | .answering => 4
    | .responded => 5
  | .notifying _ true => 6
  | .notified _ true => 7
  | _ => 0

/-- What the trace says at a stage. -/
structure Ledger (tr : List Event) (st : Stage) : Prop where
  grids : launches tr = reads tr ++ st.unread
  read : (reads tr).length = tr.count .notified2 + st.handling
  notified : tr.count .notified2 = tr.count .returned + st.returning
  last : ∀ g, st.grid = some g → (launches tr).getLast? = some g
  behind : ∀ g, st.grid = some g → ((roundTrip g).take st.progress).Sublist (sinceLaunch tr)
  told : st.returning = 1 → .notified2 ∈ sinceLaunch tr
  unsent : st.grid ≠ none → st.requested = false → ∀ g, .sent g ∉ sinceLaunch tr

end Stage

end Propreact.System
