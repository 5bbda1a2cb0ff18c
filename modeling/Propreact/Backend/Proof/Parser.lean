import Propreact.Backend.Proof.Decode
import Propreact.Window.Proof.Tables

/-!
# Messages of any content

The record loop takes its bound from the first word of the message, and never looks at the number
of bytes received. A message is parsed safely, by any thread in any run, exactly if it has two words
and the bound that its first word makes, without a wrap, is the one its length makes
(`parsedSafely_iff`).
-/

namespace Propreact.Backend

variable {ready : TenantId → Bool} {tr : List Event} {s s' : Backend} {t : TenantId} {m : Packet}
  {e : Event}

/-- No thread that works on the message reads a word outside it, or goes round the record loop more
often than there are records in it. -/
structure ParsedSafely (ready : TenantId → Bool) (m : Packet) : Prop where
  inside : ∀ tr s t, (lts ready).Run tr s →
    ((s.tenants t).pc = .updating m ∨ ∃ i, (s.tenants t).pc = .recording m i) →
    ∀ j ∈ wordsRead (s.tenants t).pc, 8 * (j + 1) ≤ m.bytes
  rounds : ∀ tr s t i, (lts ready).Run tr s → (s.tenants t).pc = .recording m i →
    i ≤ (m.bytes / 8 - 2) / 3

/-! ## The bound of the loop -/

theorem numRecords_toNat (h : 16 ≤ (m.word 0).toNat) :
    m.numRecords.toNat = ((m.word 0).toNat / 8 - 2) / 3 := by
  have hdiv : (m.word 0 / sizeofULong).toNat = (m.word 0).toNat / 8 := UInt64.toNat_div ..
  have htwo : (2 : UInt64) ≤ m.word 0 / sizeofULong := by
    rw [UInt64.le_iff_toNat_le, hdiv]
    show 2 ≤ _
    omega
  rw [Packet.numRecords, UInt64.toNat_div, UInt64.toNat_sub_of_le _ _ htwo, hdiv]
  rfl

/-- Below two words the subtraction wraps. -/
theorem numRecords_wrap (h : (m.word 0).toNat < 16) :
    6148914691236517204 ≤ m.numRecords.toNat := by
  have hdiv : (m.word 0 / sizeofULong).toNat = (m.word 0).toNat / 8 := UInt64.toNat_div ..
  rw [Packet.numRecords, UInt64.toNat_div, UInt64.toNat_sub, hdiv]
  show _ ≤ (18446744073709551616 - 2 + (m.word 0).toNat / 8) % 18446744073709551616 / 3
  omega

/-! ## Where the threads come -/

/-- No thread is past the bound of its message. -/
def Bounded (s : Backend) : Prop :=
  ∀ t m i, (s.tenants t).pc = .recording m i → i ≤ m.numRecords.toNat

theorem Bounded.setTenant (h : Bounded s) {t : TenantId} {b : InterposerBackend}
    (hs' : s'.tenants = Function.update s.tenants t b)
    (hb : ∀ m i, b.pc = .recording m i → i ≤ m.numRecords.toNat) : Bounded s' := by
  intro u m i hpc
  rw [hs'] at hpc
  by_cases hu : u = t
  · subst hu
    rw [Function.update_self] at hpc
    exact hb m i hpc
  · rw [Function.update_of_ne hu] at hpc
    exact h u m i hpc

theorem Bounded.step {a : Action} (h : Bounded s) (hn : s.next a = some (e, s')) :
    Bounded s' := by
  obtain ⟨-, henv | ⟨t, -, hs⟩ | ⟨-, hs⟩⟩ := next_step hn
  · cases henv with
    | queue t pkt => exact h.setTenant rfl fun m i hpc => h t m i hpc
    | @take t => exact h.setTenant rfl fun m i hpc => h t m i hpc
  · cases hs with
    | receive => exact h.setTenant rfl (by simp)
    | update => exact h.setTenant rfl fun m i hpc => by cases hpc; exact Nat.zero_le _
    | fail => exact h
    | record _ hi => exact h.setTenant rfl fun m i hpc => by cases hpc; exact hi
    | recordsDone => exact h.setTenant rfl (by simp)
    | wait => exact h.setTenant rfl (by simp)
    | respond => exact h.setTenant rfl (by simp)
  · cases hs <;> exact h

theorem bounded (h : (lts ready).Run tr s) : Bounded s := by
  refine h.inv (I := Bounded) ?_ ?_
  · rintro s rfl t m i hpc
    cases hpc
  · rintro s e s' hb ⟨a, ha⟩
    exact hb.step ha

/-- Tenant 0's thread gets a message and calls `update`. -/
theorem exists_updating (ready : TenantId → Bool) (m : Packet) :
    ∃ s, (lts ready).Run [.queued 0, .received 0] s ∧ (s.tenants 0).pc = .updating m ∧
      s.aborted = false ∧ s.pool.tenantRequests[(0 : TenantId)]? = none := by
  have hsched : ∃ s, Lts.schedule next (start ready) [.queue 0 m, .tenant 0] =
      some ([.queued 0, .received 0], s) ∧ (s.tenants 0).pc = .updating m ∧
      s.aborted = false ∧ s.pool.tenantRequests[(0 : TenantId)]? = none := by
    simp [Lts.schedule, next, tenantNext, start, setTenant, RequestPool.new]
  obtain ⟨s, hs, hrest⟩ := hsched
  exact ⟨s, Lts.run_schedule _ _ _ hs, hrest⟩

/-- Nothing stops tenant 0's thread in the record loop: `update_idle` always returns. -/
theorem exists_recording (ready : TenantId → Bool) (m : Packet) {i : Nat}
    (hi : i ≤ m.numRecords.toNat) :
    ∃ tr s, (lts ready).Run tr s ∧ (s.tenants 0).pc = .recording m i ∧ s.aborted = false := by
  induction i with
  | zero =>
    obtain ⟨s, hrun, hpc, hab, hpool⟩ := exists_updating ready m
    have hmem : (0 : TenantId) ∉ s.pool.tenantRequests := by simpa using hpool
    have hnext : ∃ s', s.next (.tenant 0) = some (.updated 0 (m.word 1), s') ∧
        (s'.tenants 0).pc = .recording m 0 ∧ s'.aborted = false := by
      simp [next, hab, tenantNext, hpc, RequestPool.update, hmem, setTenant]
    obtain ⟨s', hs', hrest⟩ := hnext
    exact ⟨_, s', hrun.snoc ⟨_, hs'⟩, hrest⟩
  | succ i ih =>
    obtain ⟨tr, s, hrun, hpc, hab⟩ := ih (by omega)
    have hlt : i < m.numRecords.toNat := hi
    have hnext : ∃ s', s.next (.tenant 0) = some (.recorded 0, s') ∧
        (s'.tenants 0).pc = .recording m (i + 1) ∧ s'.aborted = false := by
      simp [next, hab, tenantNext, hpc, hlt, record, GlobalWindow.updateIdle_eq, setTenant]
    obtain ⟨s', hs', hrest⟩ := hnext
    exact ⟨_, s', hrun.snoc ⟨_, hs'⟩, hrest⟩

/-- **Safe messages.** Whatever `m_tenant_ready` holds at the start: in all runs of the backend
every word that a thread reads of the message lies in it, and the record loop runs no more often
than the message has records, if and only if the message has two words, its first word says so too,
and that word announces no more records than there are. -/
theorem parsedSafely_iff (ready : TenantId → Bool) (m : Packet) (hint : m.bytes < 2147483648) :
    ParsedSafely ready m ↔
      16 ≤ m.bytes ∧ 16 ≤ (m.word 0).toNat ∧
        ((m.word 0).toNat / 8 - 2) / 3 ≤ (m.bytes / 8 - 2) / 3 := by
  refine ⟨fun h => ?_, fun ⟨htwo, hfirst, hbound⟩ => ?_⟩
  · obtain ⟨s, hrun, hpc, -⟩ := exists_updating ready m
    have htwo : 16 ≤ m.bytes := h.inside _ s 0 hrun (.inl hpc) 1 (by simp [hpc, wordsRead])
    have hbound : m.numRecords.toNat ≤ (m.bytes / 8 - 2) / 3 := by
      obtain ⟨tr, s, hrun, hpc, -⟩ := exists_recording ready m le_rfl
      exact h.rounds tr s 0 _ hrun hpc
    have hfirst : 16 ≤ (m.word 0).toNat := by
      by_contra hlt
      have hwrap := numRecords_wrap (m := m) (by omega)
      omega
    rw [numRecords_toNat hfirst] at hbound
    exact ⟨htwo, hfirst, hbound⟩
  · rw [← numRecords_toNat hfirst] at hbound
    refine ⟨?_, ?_⟩
    · intro tr s t _ hpc j hj
      rcases hpc with hpc | ⟨i, hpc⟩
      · rw [hpc] at hj
        rw [List.mem_singleton.1 hj]
        exact htwo
      · rw [hpc, wordsRead] at hj
        split at hj
        · simp only [List.mem_cons, List.not_mem_nil, or_false] at hj
          omega
        · rw [List.mem_singleton.1 hj]
          omega
    · intro tr s t i hrun hpc
      exact (bounded hrun t m i hpc).trans hbound

/-- A message of two words. -/
def twoWords (w0 w1 : ULong) : Packet where
  bytes := 16
  word j := if j = 0 then w0 else if j = 1 then w1 else 0

theorem request_without_records_safe : ParsedSafely noneReady (twoWords 16 5) :=
  (parsedSafely_iff noneReady (twoWords 16 5) (by decide)).2 (by decide)

/-- A first word of 0: the bound wraps, and the thread goes round the loop for a message that has
no records, reading a word behind its end. -/
theorem zero_first_word_unsafe :
    (∃ tr s, (lts noneReady).Run tr s ∧ (s.tenants 0).pc = .recording (twoWords 0 5) 0 ∧
      2 ∈ wordsRead (s.tenants 0).pc ∧ ¬ 8 * (2 + 1) ≤ (twoWords 0 5).bytes) ∧
    ∃ tr s, (lts noneReady).Run tr s ∧ (s.tenants 0).pc = .recording (twoWords 0 5) 1 ∧
      ¬ 1 ≤ ((twoWords 0 5).bytes / 8 - 2) / 3 := by
  have hwrap := numRecords_wrap (m := twoWords 0 5) (by decide)
  constructor
  · obtain ⟨tr, s, hrun, hpc, -⟩ := exists_recording noneReady (twoWords 0 5) (Nat.zero_le _)
    refine ⟨tr, s, hrun, hpc, ?_, by decide⟩
    rw [hpc, wordsRead, if_pos (by omega)]
    simp
  · obtain ⟨tr, s, hrun, hpc, -⟩ := exists_recording noneReady (twoWords 0 5) (i := 1) (by omega)
    exact ⟨tr, s, hrun, hpc, by decide⟩

end Propreact.Backend
