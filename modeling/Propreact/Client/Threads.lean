import Propreact.Client.System

/-!
# Application threads launching at once

Any number of application threads calling `Interposer::launch`, and the predictor's thread, on one
trigger. Of the predictor's turn only its calls on the trigger are modelled: `Wait(1)`, `ReadData`,
and later `Notify(2)`. The label of a notification says whether its flag was raised already.
-/

namespace Propreact

/-- The next call of the predictor on the trigger. -/
inductive Predictor.Turn where
  | waiting
  | reading
  | notifying
  deriving Repr, DecidableEq

structure Threads where
  apps : List Interposer
  trig : Trigger
  pred : Predictor.Turn
  deriving Repr, DecidableEq

namespace Threads

inductive Event where
  /-- Thread `i` calls `launch`, which writes its grid. -/
  | launched (i : Nat) (g : Grid)
  | notified1 (i : Nat) (raised : Bool)
  /-- `Wait(2)` returns, and thread `i`'s launch with it. -/
  | returned (i : Nat)
  /-- `Wait(1)` returns. -/
  | woke
  | readData (g : Grid)
  | notified2 (raised : Bool)
  deriving Repr, DecidableEq

inductive Action where
  | launch (i : Nat) (g : Grid)
  | app (i : Nat)
  | predictor
  deriving Repr, DecidableEq

/-- One step of thread `i` in `Interposer::launch`, after the call. -/
def appNext (i : Nat) (s : Threads) : Option (Event × Threads) :=
  match s.apps[i]? with
  | some .notifying =>
    match s.trig.notify 1 with
    | .ret trig =>
      some (.notified1 i s.trig.ready1, { s with trig, apps := s.apps.set i .waiting })
    | _ => none
  | some .waiting =>
    match s.trig.wait 2 with
    | .ret trig => some (.returned i, { s with trig, apps := s.apps.set i .idle })
    | _ => none
  | _ => none

/-- One step of `Predictor::ProcessTrigger` on the trigger. -/
def predictorNext (s : Threads) : Option (Event × Threads) :=
  match s.pred with
  | .waiting =>
    match s.trig.wait 1 with
    | .ret trig => some (.woke, { s with trig, pred := .reading })
    | _ => none
  | .reading => some (.readData s.trig.readData, { s with pred := .notifying })
  | .notifying =>
    match s.trig.notify 2 with
    | .ret trig => some (.notified2 s.trig.ready2, { s with trig, pred := .waiting })
    | _ => none

def next (s : Threads) (a : Action) : Option (Event × Threads) :=
  match a with
  | .launch i g =>
    if s.apps[i]? = some .idle then
      some (.launched i g, { s with
        trig := s.trig.writeData g, apps := s.apps.set i .notifying })
    else none
  | .app i => s.appNext i
  | .predictor => s.predictorNext

/-- `n` threads, and both flags lowered. -/
def start (n : Nat) : Threads where
  apps := List.replicate n .idle
  trig := .new
  pred := .waiting

/-- All interleavings of `n` application threads and the predictor. -/
def lts (n : Nat) : Lts Threads Event := .ofNext (start n) next

/-! ## What a run does -/

def Event.isLaunched : Event → Bool
  | .launched _ _ => true
  | _ => false

def Event.isNotified1 : Event → Bool
  | .notified1 _ _ => true
  | _ => false

def Event.isReturned : Event → Bool
  | .returned _ => true
  | _ => false

def Event.isRead : Event → Bool
  | .readData _ => true
  | _ => false

/-- A notification whose flag was raised already: it wakes no one. -/
def Event.isCoalesced : Event → Bool
  | .notified1 _ raised => raised
  | .notified2 raised => raised
  | _ => false

/-- The grid written last, if the predictor has not read it. -/
def unread (tr : List Event) : Option Grid :=
  tr.foldl (fun u e =>
    match e with
    | .launched _ g => some g
    | .readData g => if u = some g then none else u
    | _ => u) none

/-- Every grid is read before the next one is written. -/
def KeepsGrids (tr : List Event) : Prop :=
  ∀ pre i g post, tr = pre ++ .launched i g :: post → unread pre = none

/-- `launch` is called only when all calls before have returned. -/
def OneAtATime (tr : List Event) : Prop :=
  ∀ pre i g post, tr = pre ++ .launched i g :: post →
    pre.countP Event.isLaunched = pre.countP Event.isReturned

/-- Both flags are lowered, and the predictor is in `Wait(1)`. -/
structure Quiet (s : Threads) : Prop where
  ready1 : s.trig.ready1 = false
  ready2 : s.trig.ready2 = false
  pred : s.pred = .waiting

end Threads

end Propreact
