import Propreact.Window.GlobalWindow
import Propreact.Lib.Lts

/-!
# The lock discipline of the global window

Calls are issued one after another. `update_active` on a key its table does not have returns
without unlocking, so a call leaves the mutex free exactly if it is not that call (`exec_free`).
While the mutex is free every active table still has only the key of the constructor's dummy entry
(`reached`): the first other key an `update_active` brings leaves the mutex held for good.
-/

namespace Propreact.GlobalWindow

/-- The window under a sequence of calls; a call that blocks is no step. -/
def calls : Lts GlobalWindow Op where
  init gw := gw = new
  step gw op gw' := gw.exec op = .ret gw'

/-- The call returns and leaves `m_mutex` free. -/
def Frees (op : Op) (gw : GlobalWindow) : Prop :=
  ∃ gw', gw.exec op = .ret gw' ∧ gw'.mutex = false

/-- Every call of the sequence, issued after the calls before it returned, finds the mutex free
where it locks it, returns, and leaves it free. -/
def LockDiscipline : List Op → GlobalWindow → Prop
  | [], _ => True
  | op :: ops, gw => ∃ gw', gw.exec op = .ret gw' ∧ gw'.mutex = false ∧ LockDiscipline ops gw'

/-- `update_active` for a key other than the dummy entry's. -/
def Op.bringsKey : Op → Bool
  | .updateActive k _ _ _ => k ≠ 0
  | _ => false

/-- Every active table has exactly the key 0. -/
def OnlyDummyKey (gw : GlobalWindow) : Prop :=
  ∀ (t : TenantId) (k : ULong), k ∈ gw.tenantsActiveMapVector t ↔ k = 0

theorem lock_free {gw : GlobalWindow} (h : gw.mutex = false) :
    gw.lock = .ret { gw with mutex := true } := by simp [lock, h]

theorem lock_held {gw : GlobalWindow} (h : gw.mutex = true) : gw.lock = .blocks := by
  simp [lock, h]

@[simp] theorem unlock_activeMaps (gw : GlobalWindow) :
    gw.unlock.tenantsActiveMapVector = gw.tenantsActiveMapVector := rfl

theorem new_onlyDummyKey : OnlyDummyKey new := by
  intro t k
  simp [new, eq_comm (a := (0 : ULong)) (b := k)]

/-- A held mutex stays held: only `update_idle` does not block on it. -/
theorem exec_held {op : Op} {gw gw' : GlobalWindow} (h : gw.mutex = true)
    (he : gw.exec op = .ret gw') : gw'.mutex = true := by
  cases op with
  | updateIdle k va vi t =>
    simp only [exec, updateIdle] at he
    split at he <;> cases he <;> exact h
  | _ =>
    simp [exec, produce, consume, updateActive, retrieveIdle, retrieveActive, lock_held h] at he

/-- A call on a window whose mutex is free and whose active tables have only the dummy key: it
returns, and either it is an `update_active` for another key and the mutex is held, or the mutex
is free and the tables have the same keys. -/
theorem exec_free {gw : GlobalWindow} (h : gw.mutex = false) (hk : OnlyDummyKey gw) (op : Op) :
    ∃ gw', gw.exec op = .ret gw' ∧
      ((op.bringsKey = true ∧ gw'.mutex = true) ∨
        (op.bringsKey = false ∧ gw'.mutex = false ∧ OnlyDummyKey gw')) := by
  cases op with
  | updateIdle k va vi t =>
    simp only [exec, updateIdle]
    split <;> exact ⟨_, rfl, .inr ⟨rfl, h, hk⟩⟩
  | updateActive k va vi t =>
    simp only [exec, updateActive, lock_free h, Outcome.ret_bind]
    split
    · rename_i hq
      refine ⟨_, rfl, .inl ⟨?_, rfl⟩⟩
      have hne : k ∉ gw.tenantsActiveMapVector t := by simpa using hq
      simpa [Op.bringsKey] using fun h0 => hne ((hk t k).2 h0)
    · rename_i q hq
      have hmem : k ∈ gw.tenantsActiveMapVector t := by
        rw [Std.TreeMap.mem_iff_isSome_getElem?]
        exact Option.isSome_of_eq_some hq
      have h0 := (hk t k).1 hmem
      refine ⟨_, rfl, .inr ⟨by simp [Op.bringsKey, h0], rfl, fun t' k' => ?_⟩⟩
      -- the entry under `k` is erased and inserted again
      by_cases ht : t' = t
      · subst ht
        have := hk t' k'
        by_cases hk' : k' = 0 <;> simp_all [eq_comm (a := (0 : ULong))]
      · simpa [Function.update_of_ne ht] using hk t' k'
  | produce r =>
    simp only [exec, produce, lock_free h, Outcome.ret_bind]
    exact ⟨_, rfl, .inr ⟨rfl, rfl, hk⟩⟩
  | consume =>
    simp only [exec, consume, lock_free h, Outcome.ret_bind]
    split <;> exact ⟨_, rfl, .inr ⟨rfl, rfl, hk⟩⟩
  | retrieveIdle t k =>
    simp only [exec, retrieveIdle, lock_free h, Outcome.ret_bind]
    exact ⟨_, rfl, .inr ⟨rfl, rfl, hk⟩⟩
  | retrieveActive t k =>
    simp only [exec, retrieveActive, lock_free h, Outcome.ret_bind]
    exact ⟨_, rfl, .inr ⟨rfl, rfl, hk⟩⟩

/-- Along every sequence of calls: the mutex is held, or no table has a key of its own yet. -/
theorem reached {ops : List Op} {gw : GlobalWindow} (h : calls.Run ops gw) :
    gw.mutex = true ∨ gw.mutex = false ∧ OnlyDummyKey gw := by
  refine h.inv (I := fun gw => gw.mutex = true ∨ gw.mutex = false ∧ OnlyDummyKey gw) ?_ ?_
  · rintro gw rfl
    exact .inr ⟨rfl, new_onlyDummyKey⟩
  · intro gw op gw' hI hs
    rcases hI with hheld | ⟨hfree, hk⟩
    · exact .inl (exec_held hheld hs)
    · obtain ⟨gw1, h1, hcase⟩ := exec_free hfree hk op
      rw [show gw.exec op = .ret gw' from hs] at h1
      cases h1
      rcases hcase with ⟨-, hm⟩ | ⟨-, hm, hk'⟩
      · exact .inl hm
      · exact .inr ⟨hm, hk'⟩

theorem frees_iff {gw : GlobalWindow} (h : gw.mutex = false) (hk : OnlyDummyKey gw) (op : Op) :
    Frees op gw ↔ op.bringsKey = false := by
  obtain ⟨gw', he, ⟨hb, hm⟩ | ⟨hb, hm, -⟩⟩ := exec_free h hk op
  · simp [Frees, he, hb, hm]
  · simp [Frees, he, hb, hm]

theorem lockDiscipline_iff {gw : GlobalWindow} (h : gw.mutex = false) (hk : OnlyDummyKey gw)
    (ops : List Op) : LockDiscipline ops gw ↔ ∀ op ∈ ops, op.bringsKey = false := by
  induction ops generalizing gw with
  | nil => simp [LockDiscipline]
  | cons op ops ih =>
    obtain ⟨gw', he, ⟨hb, hm⟩ | ⟨hb, hm, hk'⟩⟩ := exec_free h hk op
    · simp [LockDiscipline, he, hb, hm]
    · simp [LockDiscipline, he, hb, hm, ih hm hk']

/-- **The mutex is free again** after a call on a reachable window whose mutex is free, and after
every call of a sequence of calls on it, exactly as long as no `update_active` has a key other
than 0. -/
theorem mutex_free_iff {tr : List Op} {gw : GlobalWindow} (h : calls.Run tr gw)
    (hm : gw.mutex = false) (op : Op) (ops : List Op) :
    (Frees op gw ↔ op.bringsKey = false) ∧
      (LockDiscipline ops gw ↔ ∀ op ∈ ops, op.bringsKey = false) := by
  rcases reached h with hheld | ⟨-, hk⟩
  · rw [hm] at hheld
    cases hheld
  · exact ⟨frees_iff hm hk op, lockDiscipline_iff hm hk ops⟩

/-- Calls on a new window, with the dummy entry's key. -/
theorem dummy_key_frees : Frees (.produce []) new ∧
    LockDiscipline [.updateActive 0 1 2 1, .consume, .retrieveActive 1 0] new := by
  have h := mutex_free_iff (Lts.Run.nil rfl) rfl (.produce [])
    [.updateActive 0 1 2 1, .consume, .retrieveActive 1 0]
  exact ⟨h.1.2 rfl, h.2.2 (by decide)⟩

/-- A new key in tenant 1's active table: `update_active` returns with the mutex held, and the next
lookup blocks. -/
theorem mutex_leaks :
    ¬ Frees (.updateActive 5 1 2 1) new ∧
    ¬ LockDiscipline [.updateActive 5 1 2 1, .retrieveIdle 0 7] new ∧
    (new.exec (.updateActive 5 1 2 1) >>= fun gw => gw.exec (.retrieveIdle 0 7)) = .blocks := by
  refine ⟨?_, ?_, rfl⟩
  · intro hfrees
    obtain ⟨gw', he, hm⟩ := hfrees
    cases he
    cases hm
  · intro hlock
    obtain ⟨gw', he, hm, -⟩ := hlock
    cases he
    cases hm

end Propreact.GlobalWindow
