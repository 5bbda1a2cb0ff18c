import Propreact.Client.Predictor

/-!
# A client and the backend

One application thread calling `Interposer::launch`, the client's predictor thread, and the backend
process. The client is tenant 0 (`Predictor::Predictor` has that tenant's two channels in it):
`send` puts a packet into the tenant's request queue, `receive` takes one of its responses. The
other tenant's client is left free to send and receive what it likes.
-/

namespace Propreact

/-- Where the application thread stands in `Interposer::launch`. -/
inductive Interposer where
  | idle
  | notifying
  | waiting
  deriving Repr, DecidableEq

/-- Where the predictor thread stands in `Predictor::ProcessTrigger`. -/
inductive Predictor.Pc where
  | waiting
  | reading
  | deciding (g : Grid)
  | sending (g : Grid) (size : ULong)
  | receiving
  | notifying

structure System where
  app : Interposer
  trig : Trigger
  pc : Predictor.Pc
  pred : Predictor
  gwin : GlobalWindow
  backend : Backend

namespace System

inductive Event where
  /-- `launch` is called and writes its grid. -/
  | launched (g : Grid)
  | notified1
  /-- `Wait(2)` returns, and `launch` with it. -/
  | returned
  /-- `Wait(1)` returns. -/
  | woke
  | readData (g : Grid)
  /-- A library marker: no request is made. -/
  | marked (g : Grid)
  | encoded (g : Grid)
  | sent (g : Grid)
  | answered
  | notified2
  | backend (e : Backend.Event)
  deriving Repr, DecidableEq

/-- Who moves; `now` is the time of day, `beyond` the memory behind a received packet. -/
inductive Action where
  | launch (g : Grid)
  | app
  | predictor (now : Int) (beyond : Nat → ULong)
  | backend (a : Backend.Action)

/-- The actions of the backend process that are not the client's own send and receive. -/
def ownAction : Backend.Action → Bool
  | .queue t _ => t ≠ 0
  | .take t => t ≠ 0
  | _ => true

/-- One step of `Interposer::launch` after the call. -/
def appNext (s : System) : Option (Event × System) :=
  match s.app with
  | .idle => none
  | .notifying =>
    match s.trig.notify 1 with
    | .ret trig => some (.notified1, { s with trig, app := .waiting })
    | _ => none
  | .waiting =>
    match s.trig.wait 2 with
    | .ret trig => some (.returned, { s with trig, app := .idle })
    | _ => none

/-- One step of `Predictor::ProcessTrigger`. -/
def predictorNext (now : Int) (beyond : Nat → ULong) (s : System) : Option (Event × System) :=
  match s.pc with
  | .waiting =>
    match s.trig.wait 1 with
    | .ret trig => some (.woke, { s with trig, pc := .reading })
    | _ => none
  | .reading => some (.readData s.trig.readData, { s with pc := .deciding s.trig.readData })
  | .deciding g =>
    match s.pred.decide now g with
    | (.marker, pred) => some (.marked g, { s with pred, pc := .notifying })
    | (.request, pred) =>
      match s.gwin.consume with
      | .ret (r, gwin) =>
        match Predictor.encode pred.pkt g r with
        | some pkt =>
          some (.encoded g,
            { s with gwin, pred := { pred with pkt }, pc := .sending g (Predictor.pktSize r) })
        | none => none
      | _ => none
  | .sending g size =>
    match s.backend.next (.queue 0 (Predictor.message s.pred.pkt size beyond)) with
    | some (_, backend) => some (.sent g, { s with backend, pc := .receiving })
    | none => none
  | .receiving =>
    match s.backend.next (.take 0) with
    | some (_, backend) => some (.answered, { s with backend, pc := .notifying })
    | none => none
  | .notifying =>
    match s.trig.notify 2 with
    | .ret trig => some (.notified2, { s with trig, pc := .waiting })
    | _ => none

def next (s : System) (a : Action) : Option (Event × System) :=
  match a with
  | .launch g =>
    if s.app = .idle then
      some (.launched g, { s with trig := s.trig.writeData g, app := .notifying })
    else none
  | .app => s.appNext
  | .predictor now beyond => s.predictorNext now beyond
  | .backend a =>
    if ownAction a then
      match s.backend.next a with
      | some (e, backend) => some (.backend e, { s with backend })
      | none => none
    else none

/-- `XrushCreate` next to a fresh backend, with all channels empty. The flags of `Trigger` and
`RequestPool` are lowered: their constructors do not do this, and results about runs from here
assume it. -/
def start (pkt : Vector ULong pktWords) : System where
  app := .idle
  trig := .new
  pc := .waiting
  pred := .new pkt
  gwin := .new
  backend := .start Backend.noneReady

/-- All interleavings of the threads of the client and the backend. -/
def lts (pkt : Vector ULong pktWords) : Lts System Event := .ofNext (start pkt) next

end System

end Propreact
