import Propreact.Client.Predictor
import Propreact.Profiler.Run

/-!
# Profiling and launching

The calls of the application (`Xrush.cpp`) on the components `XrushCreate` makes: `XrushProfile`
has the profiler read, and what it publishes goes into the global window; `XrushLaunch` has the
predictor take a turn with the grid, which takes the records out again and copies them into
`m_pkt`. CUPTI may call back with a completed buffer between the calls. The way of the request to
the backend and back is left out here; it touches none of this.
-/

namespace Propreact

structure Xrush where
  prof : CuptiProfiler
  gwin : GlobalWindow
  pred : Predictor
  /-- A word was copied past the end of `m_pkt`: undefined behaviour, and no step after it. -/
  overrun : Bool

namespace Xrush

inductive Event where
  | callback (buffer : List Activity)
  /-- A read whose flush delivers `buffers`. -/
  | profiled (buffers : List (List Activity)) (out : Published)
  /-- A turn with a library marker. -/
  | marked (g : Grid)
  /-- A turn that makes a request out of the records `r`. -/
  | requested (g : Grid) (r : RecordVec)
  deriving Repr, DecidableEq

/-- `now` is the time of day. -/
inductive Action where
  | callback (buffer : List Activity)
  | profile (buffers : List (List Activity))
  | launch (g : Grid) (now : Int)
  deriving Repr, DecidableEq

/-- `XrushProfile`. -/
def profile (buffers : List (List Activity)) (s : Xrush) : Option (Event × Xrush) :=
  match s.prof.read buffers with
  | .ok (prof, out) =>
    match s.gwin.produce out.produced with
    | .ret gwin => some (.profiled buffers out, { s with prof, gwin })
    | _ => none
  | .error _ => none

/-- The predictor's turn with the grid of a launch, up to the request. -/
def launch (now : Int) (g : Grid) (s : Xrush) : Option (Event × Xrush) :=
  match s.pred.decide now g with
  | (.marker, pred) => some (.marked g, { s with pred })
  | (.request, pred) =>
    match s.gwin.consume with
    | .ret (r, gwin) =>
      match Predictor.encode pred.pkt g r with
      | some pkt => some (.requested g r, { s with gwin, pred := { pred with pkt } })
      | none => some (.requested g r, { s with gwin, pred, overrun := true })
    | _ => none

def next (s : Xrush) (a : Action) : Option (Event × Xrush) :=
  if s.overrun then none
  else
    match a with
    | .callback buffer => some (.callback buffer, { s with prof := s.prof.returnBuffer buffer })
    | .profile buffers => s.profile buffers
    | .launch g now => s.launch now g

/-- `XrushCreate` at time `start`; `pkt` is what the uninitialised `m_pkt` holds. -/
def create (start : ULong) (pkt : Vector ULong pktWords) : Xrush where
  prof := .new start
  gwin := .new
  pred := .new pkt
  overrun := false

/-- All runs of callbacks, reads and launches. -/
def lts (start : ULong) (pkt : Vector ULong pktWords) : Lts Xrush Event :=
  .ofNext (create start pkt) next

/-- The records pending after an event, if `r` were before. -/
def Event.after (r : RecordVec) : Event → RecordVec
  | .profiled _ out => out.produced
  | .requested _ _ => []
  | _ => r

/-- The records published and not yet taken out. -/
def pending (tr : List Event) : RecordVec := tr.foldl Event.after []

/-- What the profiler has part in. -/
def Event.ofProfiler : Event → Option CuptiProfiler.Event
  | .callback buffer => some (.callback buffer)
  | .profiled buffers out => some (.read buffers out)
  | _ => none

/-- The words of a request lie in `m_pkt`, and its size does not exceed the buffer's. -/
structure FitsPacket (g : Grid) (r : RecordVec) : Prop where
  words : ∀ w ∈ Predictor.pktWrites g r, w.1 < pktWords
  size : (Predictor.pktSize r).toNat ≤ pktWords * 8

end Xrush

end Propreact
