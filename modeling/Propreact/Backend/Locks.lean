import Propreact.Backend.RequestPool
import Propreact.Lib.Monitor

/-!
# The request pool's mutexes

The calls of `RequestPool` (`RequestPool.cpp`) in the steps their threads take: `update` and
`retrieve` under `m_mutex`; `wait` and `release` under `m_tenant_mutex[t]`, with the condition
variable `m_tenant_notify[t]`.
-/

namespace Propreact.RequestPool

inductive Call where
  | update (p : TenantId × ExperimentalKey)
  | retrieve (t : TenantId)
  | wait (t : TenantId)
  | release (t : TenantId)
  deriving Repr, DecidableEq

/-- Each call as one step, with the key `retrieve` returns. -/
def exec (c : Call) (rp : RequestPool) : Outcome (Option ExperimentalKey × RequestPool) :=
  match c with
  | .update p => return (none, ← rp.update p)
  | .retrieve t =>
    let (k, rp) := rp.retrieve t
    return (some k, rp)
  | .wait t => return (none, ← rp.wait t)
  | .release t => return (none, rp.release t)

inductive Mutex where
  /-- `m_mutex`. -/
  | requests
  /-- `m_tenant_mutex[t]`. -/
  | tenant (t : TenantId)
  deriving Repr, DecidableEq

def Call.mutex : Call → Mutex
  | .update _ => .requests
  | .retrieve _ => .requests
  | .wait t => .tenant t
  | .release t => .tenant t

/-- What the call reads: `update` and `retrieve` look the tenant up, `wait` tests its flag. -/
def Call.test (c : Call) (rp : RequestPool) : Outcome (Option ExperimentalKey) :=
  match c with
  | .update p => if p.1 ∈ rp.tenantRequests then .aborts else .ret none
  | .retrieve t =>
    match rp.tenantRequests[t]? with
    | some k => .ret (some k)
    | none => .ret (some 0)
  | .wait t => if rp.tenantReady t then .ret none else .blocks
  | .release _ => .ret none

def Call.write (c : Call) (rp : RequestPool) : RequestPool :=
  match c with
  | .update p => { rp with tenantRequests := rp.tenantRequests.insertIfNew p.1 p.2 }
  | .retrieve t => { rp with tenantRequests := rp.tenantRequests.erase t }
  | .wait t => { rp with tenantReady := Function.update rp.tenantReady t false }
  | .release t => { rp with tenantReady := Function.update rp.tenantReady t true }

/-- `release` ends with `m_tenant_notify[t].notify_one()`. -/
def Call.notifies : Call → Bool
  | .release _ => true
  | _ => false

def monitor : Monitor Call (Option ExperimentalKey) Mutex RequestPool where
  mutex := Call.mutex
  test := Call.test
  write := Call.write
  notifies := Call.notifies
  ext _ _ := False

end Propreact.RequestPool
