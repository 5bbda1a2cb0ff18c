import Propreact.Client.Trigger
import Propreact.Window.GlobalWindow
import Propreact.Backend.System

/-!
# The predictor

`Predictor` (`Predictor.cpp`): what one turn of `ProcessTrigger` does with a grid. `decide` tells
the library markers from the launches that are sent to the backend; `encode` copies a request into
`m_pkt`, word by word. The `Window` reads of a turn have no effect and their results are not used.
-/

namespace Propreact

/-- `m_pkt`'s length. -/
abbrev pktWords : Nat := 1024

structure Predictor where
  startLib : Int
  endLib : Int
  lib : Bool
  pkt : Vector ULong pktWords

namespace Predictor

/-- `Predictor::Predictor`; `m_pkt` is not initialised. -/
def new (pkt : Vector ULong pktWords) : Predictor := ⟨0, 0, false, pkt⟩

/-- What a turn does after reading the trigger. -/
inductive Decision where
  | marker
  | request
  deriving Repr, DecidableEq

/-- The branches of `ProcessTrigger` on the grid and the mode, at time `now`. -/
def decide (now : Int) (g : Grid) (p : Predictor) : Decision × Predictor :=
  if g.x = 0 ∧ g.y = 0 ∧ !p.lib then (.marker, { p with startLib := now })
  else if g.x = 1 ∧ g.y = 0 ∧ !p.lib then (.marker, { p with endLib := now, lib := true })
  else (.request, { p with lib := false })

/-- `pkt_size`, in bytes. -/
def pktSize (r : RecordVec) : ULong := (2 + 3 * UInt64.ofNat r.length) * sizeofULong

/-- The words copied into `m_pkt`, with their indices, in order. -/
def pktWrites (g : Grid) (r : RecordVec) : List (Nat × ULong) :=
  (0, pktSize r) :: (1, g.x) ::
    r.zipIdx.flatMap fun (rec, i) => [(2+3*i, rec.gX), (3+3*i, rec.active), (4+3*i, rec.idle)]

/-- One `memcpy` of a word; `none` outside the array. -/
def store (pkt : Vector ULong pktWords) (w : Nat × ULong) : Option (Vector ULong pktWords) :=
  if h : w.1 < pktWords then some (pkt.set w.1 w.2) else none

/-- Copy a request into the buffer; what earlier requests left there stays. -/
def encode (pkt : Vector ULong pktWords) (g : Grid) (r : RecordVec) :
    Option (Vector ULong pktWords) :=
  (pktWrites g r).foldlM store pkt

/-- The message `send(buff, pkt_size)` puts on the channel; the receiver's memory past it is
`beyond`. -/
def message (pkt : Vector ULong pktWords) (size : ULong) (beyond : Nat → ULong) : Packet where
  bytes := size.toNat
  word j := if h : j < pktWords ∧ 8 * (j + 1) ≤ size.toNat then pkt[j] else beyond j

end Predictor

end Propreact
