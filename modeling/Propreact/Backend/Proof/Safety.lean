import Propreact.Backend.Proof.Refine

/-!
# Safety of requests and responses in the backend

Read off the tokens of a run: where a request is between `update` and the end of `wait`
(`accounted_iff`), and how the calls for a tenant pair up (`request_response_safety`).
-/

namespace Propreact.Backend

open Token

/-- Tenant `t` has completed `update` and has not returned from the matching `wait`. -/
def Outstanding (s : Backend) (t : TenantId) : Prop := (s.tenants t).pc.phase = .busy

/-- The request is in the pool, or the Arbiter's pass holds it, or the tenant's flag is up. -/
def Accounted (s : Backend) (t : TenantId) : Prop :=
  s.pool.tenantRequests[t]? ≠ none ∨ s.arbiter.holds t = true ∨ s.pool.tenantReady t = true

/-- The steps since the Arbiter's current pass began. -/
def currentPass (tr : List Event) : List Event := tr.rtakeWhile (· ≠ .newPass)

theorem newPass_holds {s s' : Backend} {ready : TenantId → Bool}
    (hs : (lts ready).step s .newPass s') (t : TenantId) : s'.arbiter.holds t = false := by
  obtain ⟨a, ha⟩ := hs
  obtain ⟨-, henv | ⟨u, -, ht⟩ | ⟨-, harb⟩⟩ := next_step ha
  · cases henv
  · cases ht
  · cases harb
    simp [Arbiter.newPass, Arbiter.holds]

theorem currentPass_concat {tr : List Event} {e : Event} (he : e ≠ .newPass) :
    currentPass (tr ++ [e]) = currentPass tr ++ [e] :=
  List.rtakeWhile_concat_pos _ _ _ (by simpa using he)

section
variable {tr : List Event} {s : Backend} (h : (lts noneReady).Run tr s)
include h

theorem step_token {e : Event} {s' : Backend} (hs : (lts noneReady).step s e s') (t : TenantId) :
    ∃ tok, Token.protocol.Run (calls t tr) tok ∧ s.view t = tok.view ∧ Follows t tok e s' := by
  obtain ⟨hw, tok, hrun, hv⟩ := exists_token (t := t) rfl h
  obtain ⟨a, ha⟩ := hs
  exact ⟨tok, hrun, hv, (next_follows hw ha hv).2⟩

/-- Only its release ends the Arbiter's hold on a tenant. -/
theorem holds_until_release {e : Event} {s' : Backend} (hs : (lts noneReady).step s e s')
    {t : TenantId} (ht : s.arbiter.holds t = true) :
    s'.arbiter.holds t = true ∨ e = .released t := by
  obtain ⟨tok, -, hv, hf⟩ := step_token h hs t
  obtain rfl : tok = .held := view_held.1 (by rw [← hv]; exact ht)
  unfold Follows at hf
  split at hf
  · rename_i o ho
    obtain ⟨tok', hst, hv'⟩ := hf
    cases hst with
    | poll => exact .inl (congrArg View.held hv')
    | release => exact .inr (own_eq_some.1 ho)
  · exact .inl (congrArg View.held hf)

/-- A tenant is held because the current pass found a positive key for it. -/
theorem held_since (t : TenantId) (ht : s.arbiter.holds t = true) :
    ∃ k, 0 < k ∧ .retrieved t (some k) k ∈ currentPass tr := by
  revert ht
  refine h.trace_inv (I := fun tr s => s.arbiter.holds t = true →
    ∃ k, 0 < k ∧ .retrieved t (some k) k ∈ currentPass tr) ?_ ?_
  · rintro s rfl ht
    simp [start, Arbiter.newPass, Arbiter.holds] at ht
  · intro tr s e s' hr ih hs ht
    have hne : e ≠ .newPass := by
      rintro rfl
      simp [newPass_holds hs t] at ht
    -- an earlier find stays in the pass
    have keep (hheld : s.arbiter.holds t = true) :
        ∃ k, 0 < k ∧ .retrieved t (some k) k ∈ currentPass (tr ++ [e]) := by
      obtain ⟨k, hk, hmem⟩ := ih hheld
      exact ⟨k, hk, by rw [currentPass_concat hne]; exact List.mem_append_left _ hmem⟩
    obtain ⟨tok, -, hv, hf⟩ := step_token hr hs t
    unfold Follows at hf
    split at hf
    · rename_i o ho
      obtain ⟨tok', hst, hv'⟩ := hf
      obtain rfl : tok' = .held := view_held.1 (by rw [← hv']; exact ht)
      cases hst with
      | @take k hk =>
        refine ⟨k, hk, ?_⟩
        rw [currentPass_concat hne, show e = .retrieved t (some k) k from own_eq_some.1 ho]
        exact List.mem_append_right _ (List.mem_singleton_self _)
      | poll => exact keep (congrArg View.held hv)
    · obtain rfl : tok = .held := view_held.1 (by rw [← hf]; exact ht)
      exact keep (congrArg View.held hv)

/-- **No request is lost**, as long as none with key 0 is retrieved: an outstanding request is in
the pool, held by the Arbiter's pass, which releases it, or granted. -/
theorem accounted_iff (t : TenantId) :
    ((Outstanding s t → Accounted s t) ↔ .retrieved t (some 0) 0 ∉ tr) ∧
    (s.arbiter.holds t = true → ∀ e s', (lts noneReady).step s e s' →
      s'.arbiter.holds t = true ∨ e = .released t) := by
  refine ⟨?_, fun ht e s' hs => holds_until_release h hs ht⟩
  obtain ⟨-, tok, hrun, hv⟩ := exists_token (t := t) rfl h
  have hzero : tok = .lost ↔ .retrieved t (some 0) 0 ∈ tr := by
    rw [(ledger hrun).zero, mem_calls, Own.event]
  rw [← hzero]
  have hphase : (s.tenants t).pc.phase = tok.view.phase := congrArg View.phase hv
  have hentry : s.pool.tenantRequests[t]? = tok.view.entry := congrArg View.entry hv
  have hheld : s.arbiter.holds t = tok.view.held := congrArg View.held hv
  have hready : s.pool.tenantReady t = tok.view.ready := congrArg View.ready hv
  rw [Outstanding, Accounted, hphase, hentry, hheld, hready]
  cases tok <;> simp [Token.view]

theorem released_since (t : TenantId) {tr1 tr2 : List Event}
    (htr : tr = tr1 ++ .released t :: tr2) :
    ∃ k, 0 < k ∧ .retrieved t (some k) k ∈ currentPass tr1 := by
  rw [htr, List.append_cons] at h
  obtain ⟨s1, h1⟩ := h.of_append
  obtain ⟨s0, h0, hs⟩ := Lts.run_concat.1 h1
  obtain ⟨tok, -, hv, hf⟩ := step_token h0 hs t
  have ho : (Event.released t).own t = some .released := own_eq_some.2 rfl
  rw [Follows, ho] at hf
  obtain ⟨tok', hst, -⟩ := hf
  cases hst
  exact held_since h0 t (congrArg View.held hv)

/-- **Requests and responses pair up.** The assertion of `update` never fails; responses, releases,
positive retrievals and updates of a tenant follow each other, at most one request open; the
retrievals that find an entry return the keys of the updates, in order; and a release answers a
positive key that its own pass retrieved for that tenant. -/
theorem request_response_safety :
    (∀ t, .assertFailed t ∉ tr) ∧
    (∀ t, (calls t tr).count .responded ≤ (calls t tr).count .released ∧
      (calls t tr).count .released ≤ positives (calls t tr) ∧
      positives (calls t tr) ≤ (updates (calls t tr)).length ∧
      (updates (calls t tr)).length ≤ (calls t tr).count .responded + 1) ∧
    (∀ t, founds (calls t tr) <+: updates (calls t tr)) ∧
    ∀ t tr1 tr2, tr = tr1 ++ .released t :: tr2 →
      ∃ k, 0 < k ∧ .retrieved t (some k) k ∈ currentPass tr1 := by
  refine ⟨fun t ht => ?_, fun t => ?_, fun t => ?_, fun t tr1 tr2 => released_since h t⟩
  all_goals
    obtain ⟨-, tok, hrun, -⟩ := exists_token (t := t) rfl h
    have hl := ledger hrun
  · exact hl.asserted (mem_calls.2 ht)
  · have hlost := hl.lost
    have hheld := hl.held
    have hanswered := hl.answered
    have hposted := congrArg List.length hl.posted
    rw [List.length_append] at hposted
    cases tok <;> simp [pending] at * <;> omega
  · exact ⟨tok.pending, hl.posted.symm⟩

end

/-! ## Concrete runs -/

/-- A packet of two words with key `k`: no records. -/
def keyPacket (k : ExperimentalKey) : Packet where
  bytes := 16
  word i := if i = 0 then 16 else if i = 1 then k else 0

/-- Tenant 0's client sends a request with key `k`; the Arbiter polls it after `update`. -/
def polled (k : ExperimentalKey) : List Action :=
  [.queue 0 (keyPacket k), .tenant 0, .tenant 0, .arbiter]

/-- A polled request with key 0 is nowhere, and its tenant waits. -/
theorem key_zero_lost :
    ∃ tr s, (lts noneReady).Run tr s ∧ Outstanding s 0 ∧ ¬ Accounted s 0 := by
  refine ⟨_, _, Lts.run_schedule _ next (polled 0) rfl, rfl, ?_⟩
  simp only [Accounted]
  decide

theorem key_five_accounted :
    ∃ tr s, (lts noneReady).Run tr s ∧ Outstanding s 0 ∧ Accounted s 0 := by
  have hrun := Lts.run_schedule (start noneReady) next (polled 5) rfl
  exact ⟨_, _, hrun, rfl, ((accounted_iff hrun 0).1.2 (by decide)) rfl⟩

/-- Both tenants served once: the requests are polled in one pass and answered. -/
def served : List Action :=
  [.queue 0 (keyPacket 5), .queue 1 (keyPacket 6), .tenant 0, .tenant 1, .tenant 0, .tenant 1,
    .arbiter, .arbiter, .arbiter, .arbiter, .arbiter, .arbiter, .arbiter, .arbiter,
    .tenant 0, .tenant 0, .tenant 0, .tenant 1, .tenant 1, .tenant 1]

theorem served_safe : ∃ tr s, (lts noneReady).Run tr s ∧ .responded 0 ∈ tr ∧ .responded 1 ∈ tr ∧
    founds (calls 1 tr) = [6] ∧ positives (calls 1 tr) = 1 ∧
    (founds (calls 1 tr) <+: updates (calls 1 tr)) := by
  have hrun := Lts.run_schedule (start noneReady) next served rfl
  exact ⟨_, _, hrun, by decide, by decide, by decide, by decide,
    (request_response_safety hrun).2.2.1 1⟩

end Propreact.Backend
