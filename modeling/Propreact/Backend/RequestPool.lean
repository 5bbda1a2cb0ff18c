import Propreact.Lib.Outcome
import Propreact.Common.Types
import Std.Data.TreeMap

/-!
# The request pool

`RequestPool` (`RequestPool.cpp`): the pending request of each tenant and, for each tenant, the
flag its thread waits on. `update` and `retrieve` run under `m_mutex`, `wait` and `release` under
`m_tenant_mutex[t]`, so each call is one atomic step.
-/

namespace Propreact

/-- The key of a request: the `grid.x` of the launch. -/
abbrev ExperimentalKey := ULong

structure RequestPool where
  tenantReady : TenantId → Bool
  tenantRequests : Std.TreeMap TenantId ExperimentalKey

namespace RequestPool

/-- `RequestPool::RequestPool()`: the constructor leaves `m_tenant_ready` as it finds it. -/
def new (ready : TenantId → Bool) : RequestPool := ⟨ready, ∅⟩

/-- `RequestPool::update`: asserts that the tenant has no pending request. -/
def update (p : TenantId × ExperimentalKey) (rp : RequestPool) : Outcome RequestPool :=
  if p.1 ∈ rp.tenantRequests then .aborts
  else .ret { rp with tenantRequests := rp.tenantRequests.insertIfNew p.1 p.2 }

/-- `RequestPool::retrieve`: 0 stands for "no request". -/
def retrieve (t : TenantId) (rp : RequestPool) : ExperimentalKey × RequestPool :=
  let k :=
    match rp.tenantRequests[t]? with
    | some k => k
    | none => 0
  (k, { rp with tenantRequests := rp.tenantRequests.erase t })

/-- `RequestPool::wait`: blocks until the tenant's flag is raised, then lowers it. -/
def wait (t : TenantId) (rp : RequestPool) : Outcome RequestPool :=
  if rp.tenantReady t then .ret { rp with tenantReady := Function.update rp.tenantReady t false }
  else .blocks

/-- `RequestPool::release`. -/
def release (t : TenantId) (rp : RequestPool) : RequestPool :=
  { rp with tenantReady := Function.update rp.tenantReady t true }

end RequestPool

end Propreact
