import Propreact.Backend.Proof.Safety

/-!
# The flags at the start

The constructor of the request pool leaves `m_tenant_ready` as it finds it. A tenant is served
safely in all runs exactly if its own entry starts lowered (`safe_start_iff`): a raised one lets
the first `wait` through before any release.
-/

namespace Propreact.Backend

open Token

/-- `wait(t)` has returned no more often than `release(t)` was called, and the assertion of
`update` has not failed for `t`. -/
def ServedSafely (t : TenantId) (tr : List Event) : Prop :=
  (calls t tr).count .waited ≤ (calls t tr).count .released ∧ .assertFailed t ∉ tr

/-- A return from `wait` uses up a release. -/
theorem released_eq {os : List Own} {tok : Token} (h : protocol.Run os tok) :
    os.count .released = os.count .waited + (if tok = .granted then 1 else 0) := by
  refine h.trace_inv (I := fun os tok => os.count .released =
    os.count .waited + (if tok = .granted then 1 else 0)) ?_ ?_
  · rintro tok rfl
    rfl
  · intro os tok o tok' _ ih hs
    cases hs <;> simp_all

theorem servedSafely_of_lowered {ready : TenantId → Bool} {t : TenantId} (hready : ready t = false)
    {tr : List Event} {s : Backend} (h : (lts ready).Run tr s) : ServedSafely t tr := by
  obtain ⟨-, tok, hrun, -⟩ := exists_token hready h
  refine ⟨?_, fun hmem => ?_⟩
  · rw [released_eq hrun]
    exact Nat.le_add_right _ _
  · exact (ledger hrun).asserted (mem_calls.2 hmem)

/-- Tenant `t` gets a request and runs up to the end of `wait`. -/
def unarbitrated (t : TenantId) : List Action :=
  [.queue t (keyPacket 5), .tenant t, .tenant t, .tenant t, .tenant t]

/-- With the flag raised the thread passes `wait` on its own. -/
theorem unarbitrated_run {ready : TenantId → Bool} {t : TenantId} (hready : ready t = true) :
    ∃ s, (lts ready).Run [.queued t, .received t, .updated t 5, .recordsDone t, .waited t] s := by
  have hkey : (keyPacket 5).word 1 = 5 := rfl
  have hrecords : ¬ 0 < (keyPacket 5).numRecords.toNat := by decide
  have hsched : ∃ s, Lts.schedule next (start ready) (unarbitrated t) =
      some ([.queued t, .received t, .updated t 5, .recordsDone t, .waited t], s) := by
    simp [unarbitrated, Lts.schedule, next, tenantNext, start, setTenant, RequestPool.new,
      RequestPool.update, RequestPool.wait, hrecords, hkey, hready]
  obtain ⟨s, hs⟩ := hsched
  exact ⟨s, Lts.run_schedule _ _ _ hs⟩

/-- **A safe start.** Whatever the other entry holds: in all runs tenant `t` returns from `wait`
for the n-th time only after its n-th release, and the assertion of `update` never fails, if and
only if `m_tenant_ready[t]` starts lowered. -/
theorem safe_start_iff (ready : TenantId → Bool) (t : TenantId) :
    (∀ tr s, (lts ready).Run tr s → ServedSafely t tr) ↔ ready t = false := by
  refine ⟨fun hall => ?_, fun hready tr s h => servedSafely_of_lowered hready h⟩
  by_contra hne
  obtain ⟨s, hrun⟩ := unarbitrated_run (by simpa using hne)
  have hle := (hall _ s hrun).1
  simp [calls, Event.own, List.filterMap] at hle

/-- With both entries raised tenant 0 is answered before any release; its next request then fails
the assertion, as long as the Arbiter has not polled the first one. -/
theorem raised_flag_unsafe :
    (∃ tr s, (lts fun _ => true).Run tr s ∧
      (calls 0 tr).count .released < (calls 0 tr).count .waited) ∧
    ∃ tr s, (lts fun _ => true).Run tr s ∧ .assertFailed 0 ∈ tr := by
  have hfirst := Lts.run_schedule (start fun _ => true) next (unarbitrated 0) rfl
  have hsecond := Lts.run_schedule (start fun _ => true) next
    (unarbitrated 0 ++ [.tenant 0, .queue 0 (keyPacket 6), .tenant 0, .tenant 0]) rfl
  exact ⟨⟨_, _, hfirst, by decide⟩, _, _, hsecond, by decide⟩

end Propreact.Backend
