import Propreact.Client.System

/-!
# Starting the client

`XrushCreate` makes the trigger, whose constructor sets neither flag, and then the predictor, whose
constructor starts the thread before it makes the two channels. The backend's `RequestPool` leaves
its flags as it finds them as well. `Startup.next` runs the threads of `System` from there;
`launch` is called when `XrushCreate` has returned.
-/

namespace Propreact

/-- How far `Predictor::Predictor` has come, behind the start of its thread. -/
inductive Predictor.Channels where
  | neither
  | requests
  | both
  deriving Repr, DecidableEq

structure Startup where
  sys : System
  channels : Predictor.Channels

namespace Startup

inductive Event where
  /-- `m_req_comm`, and then `m_resp_comm`, is made. -/
  | built
  /-- The predictor's thread calls a channel that does not exist yet. -/
  | unbuilt
  | ran (e : System.Event)
  deriving Repr, DecidableEq

inductive Action where
  | build
  | run (a : System.Action)

/-- The channel that an action calls does not exist. -/
def callsUnbuilt (s : Startup) : System.Action → Bool
  | .predictor _ _ =>
    match s.sys.pc with
    | .sending _ _ => s.channels = .neither
    | .receiving => s.channels ≠ .both
    | _ => false
  | _ => false

/-- The application does not launch before the constructor returns. -/
def isEarly (s : Startup) : System.Action → Bool
  | .launch _ => s.channels ≠ .both
  | _ => false

def next (s : Startup) (a : Action) : Option (Event × Startup) :=
  match a with
  | .build =>
    match s.channels with
    | .neither => some (.built, { s with channels := .requests })
    | .requests => some (.built, { s with channels := .both })
    | .both => none
  | .run a =>
    if s.isEarly a then none
    else if s.callsUnbuilt a then some (.unbuilt, s)
    else
      match s.sys.next a with
      | some (e, sys) => some (.ran e, { s with sys })
      | none => none

/-- The state in which the predictor's thread starts; `ready1` and `ready2` are what the trigger's
flags hold then, and `ready` what the pool's do. -/
def start (ready1 ready2 : Bool) (ready : TenantId → Bool) (pkt : Vector ULong pktWords) :
    Startup where
  sys := { System.start pkt with trig := ⟨ready1, ready2, .unit⟩, backend := .start ready }
  channels := .neither

/-- All interleavings of the threads with the rest of the constructor. -/
def lts (ready1 ready2 : Bool) (ready : TenantId → Bool) (pkt : Vector ULong pktWords) :
    Lts Startup Event := .ofNext (start ready1 ready2 ready pkt) next

end Startup

end Propreact
