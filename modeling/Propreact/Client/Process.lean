import Propreact.Backend.Decode
import Propreact.Client.System
import Propreact.Profiler.CuptiProfiler

/-!
# The client process

All of the client (`Xrush.cpp`) next to the backend process. `XrushCreate` makes the components;
CUPTI calls back with completed buffers; `XrushProfile` has the profiler read, which writes to the
window and hands its records to the global window; the threads of `System` launch, predict and
serve; `XrushDestroy` frees the profiler, the interposer and the window, but not the predictor.
What the predictor reads for a request, and the records it takes for it, are in the request's
label.
-/

namespace Propreact

structure Process where
  sys : System
  prof : CuptiProfiler
  win : Window
  destroyed : Bool

namespace Process

inductive Event where
  | callback (buffer : List Activity)
  /-- A read whose flush delivers `buffers`. -/
  | profiled (buffers : List (List Activity)) (out : Published)
  /-- A turn of the predictor that makes a request of grid `g`, with the times it read in the
  window and the records it took. -/
  | requested (g : Grid) (active idle : Option ULong) (r : RecordVec)
  /-- Any other step of the threads. -/
  | moved (e : System.Event)
  | destroyed
  deriving Repr, DecidableEq

inductive Action where
  | callback (buffer : List Activity)
  | profile (buffers : List (List Activity))
  | thread (a : System.Action)
  | destroy

/-- `XrushProfile`; `none` where a subscript is out of range. -/
def profile (buffers : List (List Activity)) (s : Process) : Option (Event × Process) :=
  match s.prof.read buffers with
  | .ok (prof, out) =>
    match s.sys.gwin.produce out.produced with
    | .ret gwin =>
      some (.profiled buffers out,
        { s with prof, win := out.window.foldl Window.exec s.win, sys := { s.sys with gwin } })
    | _ => none
  | .error _ => none

/-- The records that `consume` returns. -/
def taken (s : Process) : RecordVec :=
  match s.sys.gwin.consume with
  | .ret (r, _) => r
  | _ => []

/-- The label of a step of the threads. -/
def label (s : Process) : System.Event → Event
  | .encoded g => .requested g (s.win.readDataActive g) (s.win.readDataIdle g) s.taken
  | e => .moved e

/-- A call of `XrushLaunch`. -/
def isLaunch : System.Action → Bool
  | .launch _ => true
  | _ => false

/-- `XrushDestroy` is called between launches, and no other call after it. CUPTI is taken to make no
callback after it either: the profiler's destructor disables tracing and leaves `return_buffer`
registered. -/
def next (s : Process) (a : Action) : Option (Event × Process) :=
  match a with
  | .callback buffer =>
    if s.destroyed then none
    else some (.callback buffer, { s with prof := s.prof.returnBuffer buffer })
  | .profile buffers => if s.destroyed then none else s.profile buffers
  | .thread a =>
    if s.destroyed && isLaunch a then none
    else
      match s.sys.next a with
      | some (e, sys) => some (s.label e, { s with sys })
      | none => none
  | .destroy =>
    if !s.destroyed && s.sys.app = .idle then some (.destroyed, { s with destroyed := true })
    else none

/-- `XrushCreate` at time `start`, next to a fresh backend, all flags lowered (`System.start`);
`pkt` is what the uninitialised `m_pkt` holds. -/
def create (start : ULong) (pkt : Vector ULong pktWords) : Process where
  sys := .start pkt
  prof := .new start
  win := .new
  destroyed := false

/-- All interleavings of the client's calls and callbacks with the threads of both processes. -/
def lts (start : ULong) (pkt : Vector ULong pktWords) : Lts Process Event :=
  .ofNext (create start pkt) next

/-! ## What a run does -/

/-- The step of the threads behind a label. -/
def Event.system : Event → Option System.Event
  | .requested g _ _ _ => some (.encoded g)
  | .moved e => some e
  | _ => none

/-- The batches published, oldest first. -/
def published (tr : List Event) : List RecordVec :=
  tr.filterMap fun
    | .profiled _ out => some out.produced
    | _ => none

/-- The batches that went into requests, oldest first. -/
def requested (tr : List Event) : List RecordVec :=
  tr.filterMap fun
    | .requested _ _ _ r => some r
    | _ => none

/-- The batch published last, if no request has taken it. -/
def untaken (tr : List Event) : RecordVec :=
  tr.foldl (fun r e =>
    match e with
    | .profiled _ out => out.produced
    | .requested _ _ _ _ => []
    | _ => r) []

/-- The calls that a request asks the backend for, while it is not sent. -/
def toSend (pkt : Vector ULong pktWords) : Predictor.Pc → List Backend.Call
  | .sending _ size => Backend.parsed 0 (Predictor.message pkt size fun _ => 0)
  | _ => []

/-- The calls of the client's requests that the backend has not made yet. -/
def inFlight (s : System) : List Backend.Call :=
  Backend.unmade 0 (s.backend.tenants 0) ++ toSend s.pred.pkt s.pc

/-- The calls that an action makes for the client's thread in the backend. -/
def made (s : Process) : Action → List Backend.Call
  | .thread (.backend a) => Backend.made 0 s.sys.backend a
  | _ => []

/-- The calls that the client's thread in the backend makes along a schedule. -/
def madeAlong (s : Process) : List Action → List Backend.Call
  | [] => []
  | a :: as =>
    match s.next a with
    | some (_, s') => s.made a ++ madeAlong s' as
    | none => []

/-- The (active, idle) pairs of the records with a key. -/
def pairsOf (k : ULong) (r : RecordVec) : List ActiveIdlePair :=
  (r.filter (·.gX = k)).map fun rec => (rec.active, rec.idle)

/-! ## Who moves -/

inductive Thread where
  | app
  | predictor
  /-- The backend's thread for a tenant. -/
  | tenant (t : TenantId)
  | arbiter
  deriving Repr, DecidableEq

/-- The backend's thread that makes a step. -/
def backendThread : Backend.Event → Option Thread
  | .received t | .updated t _ | .assertFailed t | .recorded t | .recordsDone t => some (.tenant t)
  | .waited t | .responded t => some (.tenant t)
  | .retrieved _ _ _ | .collected | .looked _ | .answersReady | .released _ | .newPass =>
    some .arbiter
  | .queued _ | .taken _ => none

/-- The thread that makes a step of the system; calling `launch` is up to the application. -/
def systemThread : System.Event → Option Thread
  | .launched _ => none
  | .notified1 | .returned => some .app
  | .backend e => backendThread e
  | _ => some .predictor

def Event.thread (e : Event) : Option Thread := e.system.bind systemThread

end Process

end Propreact
