import Propreact.Backend.RequestPool
import Propreact.Window.GlobalWindow
import Propreact.Lib.Lts

/-!
# The backend process

`propreact-backend` (`BackendDriver.cpp`): one `InterposerBackend` thread per tenant and the
`Arbiter` thread over one request pool and one global window. `next` runs one atomic step of one
thread: a call on a shared object, or a local step of a loop. `lts` is the resulting labelled
transition system; the label of a step records the calls on the request pool, what they saw there
and what they returned.
-/

namespace Propreact

/-- A received message as the parser sees it: the number of bytes received and the words at its
address. Words past the received bytes are whatever the memory there holds. -/
structure Packet where
  bytes : Nat
  word : Nat → ULong

/-- The bound of the record loop, `(pkt[0]/sizeof(unsigned long)-2)/3`. -/
def Packet.numRecords (pkt : Packet) : ULong := (pkt.word 0 / sizeofULong - 2) / 3

/-- Where an `InterposerBackend` thread stands in `process`. -/
inductive InterposerBackend.Pc where
  | receiving
  | updating (pkt : Packet)
  | recording (pkt : Packet) (i : Nat)
  | waiting
  | responding

/-- An `InterposerBackend` thread and its two channels. -/
structure InterposerBackend where
  requests : List Packet
  responses : List String
  pc : InterposerBackend.Pc

/-- Where the `Arbiter` thread stands in a pass of `process`, with the pass's locals; `search` is
the part of the map or set the iterator has not passed yet. -/
inductive Arbiter where
  | retrieving (t : Nat) (tenantsWithRequests : Std.TreeMap TenantId ExperimentalKey)
  | looking (search : List (TenantId × ExperimentalKey))
    (tenantsToBeResponded : Std.TreeSet TenantId)
  | releasing (search : List TenantId)

/-- The start of a pass. -/
def Arbiter.newPass : Arbiter := .retrieving 0 ∅

structure Backend where
  pool : RequestPool
  gwin : GlobalWindow
  arbiter : Arbiter
  tenants : TenantId → InterposerBackend
  /-- An assertion failed: the process is gone. -/
  aborted : Bool

namespace Backend

/-- What a step does to the pool or a channel. -/
inductive Event where
  /-- A request message arrives for the tenant. -/
  | queued (t : TenantId)
  /-- The tenant's client takes a response. -/
  | taken (t : TenantId)
  | received (t : TenantId)
  | updated (t : TenantId) (k : ExperimentalKey)
  | assertFailed (t : TenantId)
  | recorded (t : TenantId)
  | recordsDone (t : TenantId)
  /-- `wait(t)` returns. -/
  | waited (t : TenantId)
  | responded (t : TenantId)
  /-- `retrieve(t)` returns `k`; `found` is the entry the pool had, if any. -/
  | retrieved (t : TenantId) (found : Option ExperimentalKey) (k : ExperimentalKey)
  | collected
  | looked (t : TenantId)
  | answersReady
  | released (t : TenantId)
  | newPass
  deriving Repr, DecidableEq

/-- Who moves, and what the environment supplies. -/
inductive Action where
  | queue (t : TenantId) (pkt : Packet)
  | take (t : TenantId)
  | tenant (t : TenantId)
  | arbiter

def setTenant (s : Backend) (t : TenantId) (b : InterposerBackend) : Backend :=
  { s with tenants := Function.update s.tenants t b }

/-- The call of the record loop's body: `update_idle` for tenant 0, `update_active` otherwise. -/
def record (t : TenantId) (pkt : Packet) (i : Nat) (gwin : GlobalWindow) : Outcome GlobalWindow :=
  if t = 0 then gwin.updateIdle (pkt.word (2+3*i)) (pkt.word (3*i+3)) (pkt.word (3*i+4)) t
  else gwin.updateActive (pkt.word (2+3*i)) (pkt.word (3*i+3)) (pkt.word (3*i+4)) t

/-- One step of `InterposerBackend::process`. -/
def tenantNext (t : TenantId) (s : Backend) : Option (Event × Backend) :=
  let b := s.tenants t
  match b.pc with
  | .receiving =>
    match b.requests with
    | [] => none
    | pkt :: rest =>
      some (.received t, s.setTenant t { b with requests := rest, pc := .updating pkt })
  | .updating pkt =>
    match s.pool.update (t, pkt.word 1) with
    | .ret pool =>
      some (.updated t (pkt.word 1), { s with pool }.setTenant t { b with pc := .recording pkt 0 })
    | .blocks => none
    | .aborts => some (.assertFailed t, { s with aborted := true })
  | .recording pkt i =>
    if i < pkt.numRecords.toNat then
      match record t pkt i s.gwin with
      | .ret gwin =>
        some (.recorded t, { s with gwin }.setTenant t { b with pc := .recording pkt (i + 1) })
      | _ => none
    else some (.recordsDone t, s.setTenant t { b with pc := .waiting })
  | .waiting =>
    match s.pool.wait t with
    | .ret pool => some (.waited t, { s with pool }.setTenant t { b with pc := .responding })
    | _ => none
  | .responding =>
    some (.responded t,
      s.setTenant t { b with responses := b.responses ++ ["RESPONSE"], pc := .receiving })

/-- The lookup of a pass for one tenant; its result is not used. -/
def lookup (t : TenantId) (k : ExperimentalKey) (gwin : GlobalWindow) :
    Outcome (ULong × GlobalWindow) :=
  if t = 0 then gwin.retrieveIdle t k else gwin.retrieveActive t k

/-- One step of `Arbiter::process`. -/
def arbiterNext (s : Backend) : Option (Event × Backend) :=
  match s.arbiter with
  | .retrieving t tenantsWithRequests =>
    if h : t < numTenants then
      let (k, pool) := s.pool.retrieve ⟨t, h⟩
      let found := s.pool.tenantRequests[(⟨t, h⟩ : TenantId)]?
      let tenantsWithRequests :=
        if k > 0 then tenantsWithRequests.insertIfNew ⟨t, h⟩ k else tenantsWithRequests
      some (.retrieved ⟨t, h⟩ found k,
        { s with pool, arbiter := .retrieving (t + 1) tenantsWithRequests })
    else some (.collected, { s with arbiter := .looking tenantsWithRequests.toList ∅ })
  | .looking search tenantsToBeResponded =>
    match search with
    | (t, k) :: search =>
      match lookup t k s.gwin with
      | .ret (_, gwin) =>
        let tenantsToBeResponded := tenantsToBeResponded.insert t
        some (.looked t, { s with gwin, arbiter := .looking search tenantsToBeResponded })
      | _ => none
    | [] => some (.answersReady, { s with arbiter := .releasing tenantsToBeResponded.toList })
  | .releasing search =>
    match search with
    | t :: search =>
      some (.released t, { s with pool := s.pool.release t, arbiter := .releasing search })
    | [] => some (.newPass, { s with arbiter := .newPass })

/-- One step: a message arrives, a client takes a response, or a thread moves. -/
def next (s : Backend) (a : Action) : Option (Event × Backend) :=
  if s.aborted then none
  else
    match a with
    | .queue t pkt =>
      let b := s.tenants t
      some (.queued t, s.setTenant t { b with requests := b.requests ++ [pkt] })
    | .take t =>
      let b := s.tenants t
      match b.responses with
      | [] => none
      | _ :: rest => some (.taken t, s.setTenant t { b with responses := rest })
    | .tenant t => s.tenantNext t
    | .arbiter => s.arbiterNext

/-- The state `main` starts the threads in; `ready` is what `m_tenant_ready` holds then. -/
def start (ready : TenantId → Bool) : Backend where
  pool := .new ready
  gwin := .new
  arbiter := .newPass
  tenants := fun _ => { requests := [], responses := [], pc := .receiving }
  aborted := false

/-- All interleavings of the backend's threads. -/
def lts (ready : TenantId → Bool) : Lts Backend Event := .ofNext (start ready) next

/-- Both flags lowered. The constructor of `RequestPool` does not do this; results about runs from
here assume it. -/
def noneReady : TenantId → Bool := fun _ => false

end Backend

end Propreact
