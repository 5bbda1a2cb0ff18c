import Mathlib.Data.Multiset.Basic
import Propreact.Lib.Lts
import Propreact.Lib.QueueTable
import Propreact.Lib.Sequences
import Propreact.Window.Proof.Mailbox

/-!
# What the tenants' tables hold

The mutex is left out of account here: every call finds it free (`unlocked`). `update_idle` and
`update_active` then push one pair to one queue (`exec_tables`), so each table is the one that the
calls for its tenant make out of the constructor's (`tables`), and a queue holds exactly the pairs
of the calls for its tenant and key (`tables_exact`).
-/

namespace Propreact.GlobalWindow

/-- The window under a sequence of calls that all find `m_mutex` free. -/
def unlocked : Lts GlobalWindow Op where
  init gw := gw = new
  step gw op gw' := gw.unlock.exec op = .ret gw'

/-- An update of a tenant's table: a pair goes under a key. -/
abbrev Update := TenantId × ULong × ActiveIdlePair

/-- What a call brings to the idle tables. -/
def Op.idle : Op → Option Update
  | .updateIdle k va vi t => some (t, k, va, vi)
  | _ => none

/-- What a call brings to the active tables. -/
def Op.active : Op → Option Update
  | .updateActive k va vi t => some (t, k, va, vi)
  | _ => none

/-- The updates of a tenant's table. -/
def forTenant (t : TenantId) (us : List Update) : List (ULong × ActiveIdlePair) :=
  (us.filter (·.1 = t)).map (·.2)

/-- The pairs that go under a key of a tenant's table. -/
def pairsFor (t : TenantId) (k : ULong) (us : List Update) : List ActiveIdlePair :=
  (us.filter fun u => u.1 = t ∧ u.2.1 = k).map (·.2.2)

/-- The pairs of the `update_idle` calls for a tenant and a key. -/
def idleCalls (t : TenantId) (k : ULong) (ops : List Op) : List ActiveIdlePair :=
  pairsFor t k (ops.filterMap Op.idle)

/-- The pairs of the `update_active` calls for a tenant and a key. -/
def activeCalls (t : TenantId) (k : ULong) (ops : List Op) : List ActiveIdlePair :=
  pairsFor t k (ops.filterMap Op.active)

/-- The constructor's pairs under a key. -/
def dummy (k : ULong) : List ActiveIdlePair := if k = 0 then [(0, 0)] else []

/-- What a tenant's idle queue for a key holds. -/
def idleHeld (gw : GlobalWindow) (t : TenantId) (k : ULong) : Multiset ActiveIdlePair :=
  ↑(QueueTable.held (gw.tenantsIdleMapVector t) k)

/-- What a tenant's active queue for a key holds. -/
def activeHeld (gw : GlobalWindow) (t : TenantId) (k : ULong) : Multiset ActiveIdlePair :=
  ↑(QueueTable.held (gw.tenantsActiveMapVector t) k)

variable {gw gw' : GlobalWindow} {ops : List Op} {op : Op} {t : TenantId} {k : ULong}

theorem updateIdle_eq (k va vi : ULong) (t : TenantId) (gw : GlobalWindow) :
    gw.updateIdle k va vi t = .ret { gw with
      tenantsIdleMapVector := Function.update gw.tenantsIdleMapVector t
        (QueueTable.add k (va, vi) (gw.tenantsIdleMapVector t)) } := by
  unfold updateIdle
  dsimp only
  split
  · rename_i hq
    rw [QueueTable.add_of_none hq]
    rfl
  · rename_i q hq
    rw [QueueTable.add_of_some hq]
    rfl

/-- The mutex stays held where the key is new. -/
theorem updateActive_eq (k va vi : ULong) (t : TenantId) (h : gw.mutex = false) :
    gw.updateActive k va vi t = .ret { gw with
      mutex := !(gw.tenantsActiveMapVector t).contains k
      tenantsActiveMapVector := Function.update gw.tenantsActiveMapVector t
        (QueueTable.add k (va, vi) (gw.tenantsActiveMapVector t)) } := by
  have hlock : gw.lock = .ret { gw with mutex := true } := by simp [lock, h]
  unfold updateActive
  rw [hlock, Std.TreeMap.contains_eq_isSome_getElem?, Outcome.ret_bind]
  dsimp only
  split
  · rename_i hq
    rw [QueueTable.add_of_none hq, hq]
    rfl
  · rename_i q hq
    rw [QueueTable.add_of_some hq, hq]
    rfl

/-- A call pushes what it brings, if anything, and leaves the other tables. -/
structure Pushes (gw : GlobalWindow) (op : Op) (gw' : GlobalWindow) : Prop where
  idle : ∀ t, gw'.tenantsIdleMapVector t =
    QueueTable.adds (gw.tenantsIdleMapVector t) (forTenant t op.idle.toList)
  active : ∀ t, gw'.tenantsActiveMapVector t =
    QueueTable.adds (gw.tenantsActiveMapVector t) (forTenant t op.active.toList)

theorem exec_tables (gw : GlobalWindow) (op : Op) :
    ∃ gw', gw.unlock.exec op = .ret gw' ∧ Pushes gw op gw' := by
  cases op with
  | updateIdle k va vi t =>
    refine ⟨_, updateIdle_eq k va vi t _, fun t' => ?_, fun _ => rfl⟩
    by_cases ht : t = t'
    · subst ht
      simp [Op.idle, forTenant, unlock]
    · simp [Op.idle, forTenant, unlock, ht, Ne.symm ht]
  | updateActive k va vi t =>
    refine ⟨_, updateActive_eq k va vi t rfl, fun _ => rfl, fun t' => ?_⟩
    by_cases ht : t = t'
    · subst ht
      simp [Op.active, forTenant, unlock]
    · simp [Op.active, forTenant, unlock, ht, Ne.symm ht]
  | consume =>
    refine ⟨{ gw.unlock with stale := true }, ?_, fun _ => rfl, fun _ => rfl⟩
    rw [exec, consume_eq rfl]
    rfl
  | produce r => exact ⟨_, rfl, fun _ => rfl, fun _ => rfl⟩
  | retrieveIdle t k => exact ⟨_, rfl, fun _ => rfl, fun _ => rfl⟩
  | retrieveActive t k => exact ⟨_, rfl, fun _ => rfl, fun _ => rfl⟩

theorem pushes_of_exec (h : gw.unlock.exec op = .ret gw') : Pushes gw op gw' := by
  obtain ⟨gw1, h1, hp⟩ := exec_tables gw op
  rw [h] at h1
  cases h1
  exact hp

/-- Any calls can be made. -/
theorem exists_unlocked (ops : List Op) : ∃ gw, unlocked.Run ops gw := by
  induction ops using List.reverseRecOn with
  | nil => exact ⟨_, .nil rfl⟩
  | append_singleton ops op ih =>
    obtain ⟨gw, h⟩ := ih
    obtain ⟨gw', h', -⟩ := exec_tables gw op
    exact ⟨gw', h.snoc h'⟩

/-- Where a call brings nothing under a key, the queue of the key stays. -/
theorem getElem?_adds_forTenant {less : ActiveIdlePair → ActiveIdlePair → Bool}
    (table : QueueTable ULong ActiveIdlePair compare less) {u : Option Update}
    (h : ∀ e, u ≠ some (t, k, e)) :
    (QueueTable.adds table (forTenant t u.toList))[k]? = table[k]? := by
  cases u with
  | none => rfl
  | some u =>
    obtain ⟨t', k', e⟩ := u
    by_cases ht : t' = t
    · subst ht
      have hk : compare k' k ≠ .eq := by
        rw [Ne, Std.LawfulEqCmp.compare_eq_iff_eq]
        rintro rfl
        exact h e rfl
      simp only [forTenant, Option.toList_some, List.filter_singleton, decide_true, cond_true,
        List.map_singleton, QueueTable.adds_cons, QueueTable.adds_nil]
      exact QueueTable.getElem?_add_of_ne hk
    · simp [forTenant, ht]

/-- A tenant's tables after a run: the constructor's pair, and the updates of the tenant. -/
structure Tables (ops : List Op) (gw : GlobalWindow) : Prop where
  idle : ∀ t, gw.tenantsIdleMapVector t =
    QueueTable.adds ∅ ((0, 0, 0) :: forTenant t (ops.filterMap Op.idle))
  active : ∀ t, gw.tenantsActiveMapVector t =
    QueueTable.adds ∅ ((0, 0, 0) :: forTenant t (ops.filterMap Op.active))

theorem forTenant_append (t : TenantId) (us us' : List Update) :
    forTenant t (us ++ us') = forTenant t us ++ forTenant t us' := by
  rw [forTenant, List.filter_append, List.map_append]
  rfl

theorem Tables.step (h : Tables ops gw) (hp : Pushes gw op gw') : Tables (ops ++ [op]) gw' := by
  refine ⟨fun t => ?_, fun t => ?_⟩
  · rw [hp.idle, h.idle, ← QueueTable.adds_append, Sequences.filterMap_concat, forTenant_append,
      List.cons_append]
  · rw [hp.active, h.active, ← QueueTable.adds_append, Sequences.filterMap_concat,
      forTenant_append, List.cons_append]

theorem tables (h : unlocked.Run ops gw) : Tables ops gw := by
  refine h.trace_inv (I := Tables) ?_ ?_
  · rintro gw rfl
    constructor <;> intro t <;> exact (QueueTable.add_of_none (by simp) (0, 0)).symm
  · intro ops gw op gw' _ ht hs
    exact ht.step (pushes_of_exec hs)

theorem valuesAt_forTenant (t : TenantId) (k : ULong) (us : List Update) :
    QueueTable.valuesAt compare k ((0, 0, 0) :: forTenant t us) = dummy k ++ pairsFor t k us := by
  have hpairs : QueueTable.valuesAt compare k (forTenant t us) = pairsFor t k us := by
    simp [QueueTable.valuesAt, forTenant, pairsFor, List.filter_map, Function.comp_def, and_comm]
  rw [← hpairs, dummy, QueueTable.valuesAt, List.filter_cons]
  by_cases hk : k = 0
  · simp [hk, QueueTable.valuesAt]
  · simp [hk, Ne.symm hk, QueueTable.valuesAt]

/-- A tenant's queue for a key is the one its pairs make, in the order of the calls. -/
theorem idle_queue (h : unlocked.Run ops gw) {q : IdleMinQueue} :
    (gw.tenantsIdleMapVector t)[k]? = some q ↔
      dummy k ++ idleCalls t k ops ≠ [] ∧
        q = PriorityQueue.empty.pushes (dummy k ++ idleCalls t k ops) := by
  rw [(tables h).idle, QueueTable.getElem?_adds_eq_some, valuesAt_forTenant, idleCalls]

theorem active_queue (h : unlocked.Run ops gw) {q : ActiveMaxQueue} :
    (gw.tenantsActiveMapVector t)[k]? = some q ↔
      dummy k ++ activeCalls t k ops ≠ [] ∧
        q = PriorityQueue.empty.pushes (dummy k ++ activeCalls t k ops) := by
  rw [(tables h).active, QueueTable.getElem?_adds_eq_some, valuesAt_forTenant, activeCalls]

theorem idleHeld_eq (h : unlocked.Run ops gw) (t : TenantId) (k : ULong) :
    gw.idleHeld t k = ↑(dummy k ++ idleCalls t k ops) := by
  rw [idleHeld, (tables h).idle, idleCalls, ← valuesAt_forTenant, Multiset.coe_eq_coe]
  exact QueueTable.held_adds_empty

theorem activeHeld_eq (h : unlocked.Run ops gw) (t : TenantId) (k : ULong) :
    gw.activeHeld t k = ↑(dummy k ++ activeCalls t k ops) := by
  rw [activeHeld, (tables h).active, activeCalls, ← valuesAt_forTenant, Multiset.coe_eq_coe]
  exact QueueTable.held_adds_empty

/-- A call leaves every queue but the one its pair goes to. -/
theorem frame_of_exec (h : gw.unlock.exec op = .ret gw') :
    (∀ t k, (∀ va vi, op ≠ .updateIdle k va vi t) →
      (gw'.tenantsIdleMapVector t)[k]? = (gw.tenantsIdleMapVector t)[k]?) ∧
    ∀ t k, (∀ va vi, op ≠ .updateActive k va vi t) →
      (gw'.tenantsActiveMapVector t)[k]? = (gw.tenantsActiveMapVector t)[k]? := by
  have hp := pushes_of_exec h
  refine ⟨fun t k hne => ?_, fun t k hne => ?_⟩
  · rw [hp.idle]
    refine getElem?_adds_forTenant _ fun e he => ?_
    cases op <;> simp_all [Op.idle]
  · rw [hp.active]
    refine getElem?_adds_forTenant _ fun e he => ?_
    cases op <;> simp_all [Op.active]

/-- **The tables hold what the calls brought.** After any calls on a new window, whatever their
keys, values and tenants, a tenant's queue for a key holds exactly the pairs of the calls for that
tenant and key, and the constructor's pair under key 0; and every further call returns and leaves
the queues of other tenants, of other keys and of the other table as they are. -/
theorem tables_exact (h : unlocked.Run ops gw) :
    (∀ t k, gw.idleHeld t k = ↑(dummy k ++ idleCalls t k ops)) ∧
    (∀ t k, gw.activeHeld t k = ↑(dummy k ++ activeCalls t k ops)) ∧
    ∀ op, ∃ gw', gw.unlock.exec op = .ret gw' ∧
      (∀ t k, (∀ va vi, op ≠ .updateIdle k va vi t) →
        (gw'.tenantsIdleMapVector t)[k]? = (gw.tenantsIdleMapVector t)[k]?) ∧
      ∀ t k, (∀ va vi, op ≠ .updateActive k va vi t) →
        (gw'.tenantsActiveMapVector t)[k]? = (gw.tenantsActiveMapVector t)[k]? := by
  refine ⟨idleHeld_eq h, activeHeld_eq h, fun op => ?_⟩
  obtain ⟨gw', hexec, -⟩ := exec_tables gw op
  exact ⟨gw', hexec, frame_of_exec hexec⟩

/-- Two pairs under one key, and one in the other table. -/
theorem two_pairs_held : ∃ gw,
    unlocked.Run [.updateIdle 5 1 10 0, .updateActive 0 3 4 1, .updateIdle 5 2 20 0] gw ∧
      gw.idleHeld 0 5 = ↑([(1, 10), (2, 20)] : List ActiveIdlePair) ∧
      gw.activeHeld 1 0 = ↑([(0, 0), (3, 4)] : List ActiveIdlePair) := by
  obtain ⟨gw, h⟩ :=
    exists_unlocked [.updateIdle 5 1 10 0, .updateActive 0 3 4 1, .updateIdle 5 2 20 0]
  obtain ⟨hidle, hactive, -⟩ := tables_exact h
  exact ⟨gw, h, hidle 0 5, hactive 1 0⟩

end Propreact.GlobalWindow
