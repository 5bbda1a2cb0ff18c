import Propreact.Backend.Proof.Safety
import Propreact.Window.Proof.Lock
import Propreact.Window.Proof.Tables

/-!
# What keeps the backend's threads going

The process is never aborted (`not_aborted`). The Arbiter's thread can move unless it needs the
window's mutex while it is held (`arbiter_enabled`), and a tenant's thread unless it waits for a
message or its flag, or for that mutex (`tenant_enabled`). Only the threads that call
`update_active` leave the mutex locked (`next_free`). Every step of the Arbiter but the start of a
pass shortens its pass (`ArbiterStep.left_lt`), and brings each tenant's poll nearer
(`ArbiterStep.untilPoll_lt`); the steps of the record loop shorten the loop.
-/

namespace Propreact

/-- How many steps are left in a pass, at most. -/
def Arbiter.left : Arbiter → Nat
  | .retrieving n tenantsWithRequests => 2 * tenantsWithRequests.size + 3 + 3 * (numTenants - n)
  | .looking search tenantsToBeResponded => 2 * search.length + tenantsToBeResponded.size + 2
  | .releasing search => search.length + 1

/-- How many steps are left, at most, before the tenant is polled. -/
def Arbiter.untilPoll (t : TenantId) (arb : Arbiter) : Nat :=
  match arb with
  | .retrieving n _ => if n ≤ t then t - n else arb.left + t
  | _ => arb.left + t

/-- How many steps of the record loop are left. -/
def InterposerBackend.Pc.left : InterposerBackend.Pc → Nat
  | .recording pkt i => pkt.numRecords.toNat - i + 1
  | _ => 0

namespace Backend

variable {s s' : Backend} {t : TenantId} {e : Event} {tr : List Event}

theorem not_aborted (h : (lts noneReady).Run tr s) : s.aborted = false := by
  refine h.trace_inv (I := fun _ s => s.aborted = false) ?_ ?_
  · intro s hs
    rw [show s = start noneReady from hs]
    rfl
  · intro tr s e s' hr hab hs
    obtain ⟨a, ha⟩ := hs
    obtain ⟨-, henv | ⟨t, -, ht⟩ | ⟨-, harb⟩⟩ := next_step ha
    · cases henv <;> exact hab
    · cases ht with
      | fail hpc hsome =>
        -- the tenant's token has no such step
        obtain ⟨tok, -, -, hf⟩ := step_token hr ⟨_, ha⟩ t
        have ho : (Event.assertFailed t).own t = some .assertFailed := own_eq_some.2 rfl
        rw [Follows, ho] at hf
        obtain ⟨tok', hst, -⟩ := hf
        cases hst
      | _ => exact hab
    · cases harb <;> exact hab

/-- A lookup unlocks the mutex it has locked. -/
theorem lookup_free (hm : s.gwin.mutex = false) (t : TenantId) (k : ExperimentalKey) :
    ∃ r, lookup t k s.gwin = .ret r ∧ r.2.mutex = false := by
  unfold lookup
  split
  · exact ⟨_, by rw [GlobalWindow.retrieveIdle, GlobalWindow.lock_free hm]; rfl, rfl⟩
  · exact ⟨_, by rw [GlobalWindow.retrieveActive, GlobalWindow.lock_free hm]; rfl, rfl⟩

/-- Only a thread that calls `update_active` leaves the window's mutex locked. -/
theorem next_free {a : Action} (h : s.next a = some (e, s')) (ha : ∀ t, a = .tenant t → t = 0)
    (hm : s.gwin.mutex = false) : s'.gwin.mutex = false := by
  obtain ⟨-, henv | ⟨t, rfl, ht⟩ | ⟨-, harb⟩⟩ := next_step h
  · cases henv <;> exact hm
  · obtain rfl := ha t rfl
    cases ht with
    | record hpc hi hrec =>
      rw [record, if_pos rfl, GlobalWindow.updateIdle_eq] at hrec
      cases hrec
      exact hm
    | _ => exact hm
  · cases harb with
    | @look t k search resp r harb hl =>
      obtain ⟨r', hr', hfree⟩ := lookup_free hm t k
      rw [hr'] at hl
      cases hl
      exact hfree
    | _ => exact hm

theorem arbiter_enabled (hab : s.aborted = false) (hm : s.gwin.mutex = false) :
    ∃ e s', s.next .arbiter = some (e, s') := by
  have hnext : s.next .arbiter = s.arbiterNext := by simp [next, hab]
  rw [hnext]
  unfold arbiterNext
  cases s.arbiter with
  | retrieving n m =>
    dsimp only
    split <;> exact ⟨_, _, rfl⟩
  | looking search resp =>
    cases search with
    | nil => exact ⟨_, _, rfl⟩
    | cons q search =>
      obtain ⟨r, hr, -⟩ := lookup_free hm q.1 q.2
      dsimp only
      rw [hr]
      exact ⟨_, _, rfl⟩
  | releasing search => cases search <;> exact ⟨_, _, rfl⟩

theorem tenant_enabled (hab : s.aborted = false) (hm : t ≠ 0 → s.gwin.mutex = false)
    (hrecv : (s.tenants t).pc = .receiving → (s.tenants t).requests ≠ [])
    (hwait : (s.tenants t).pc = .waiting → s.pool.tenantReady t = true) :
    ∃ e s', s.next (.tenant t) = some (e, s') := by
  have hnext : s.next (.tenant t) = s.tenantNext t := by simp [next, hab]
  rw [hnext]
  unfold tenantNext
  dsimp only
  cases hpc : (s.tenants t).pc with
  | receiving =>
    obtain ⟨pkt, rest, hreq⟩ := List.exists_cons_of_ne_nil (hrecv hpc)
    rw [hreq]
    exact ⟨_, _, rfl⟩
  | updating pkt =>
    by_cases hmem : t ∈ s.pool.tenantRequests
    · simp [RequestPool.update, hmem]
    · simp [RequestPool.update, hmem]
  | recording pkt i =>
    have hrecord : ∃ gwin, record t pkt i s.gwin = .ret gwin := by
      unfold record
      split
      · exact ⟨_, GlobalWindow.updateIdle_eq ..⟩
      · rename_i ht
        exact ⟨_, GlobalWindow.updateActive_eq _ _ _ _ (hm ht)⟩
    obtain ⟨gwin, hrecord⟩ := hrecord
    by_cases hi : i < pkt.numRecords.toNat
    · simp [hi, hrecord]
    · simp [hi]
  | waiting =>
    dsimp only
    rw [RequestPool.wait, if_pos (hwait hpc)]
    exact ⟨_, _, rfl⟩
  | responding => exact ⟨_, _, rfl⟩

theorem ArbiterStep.left_lt (h : ArbiterStep s e s') (hne : e ≠ .newPass) :
    s'.arbiter.left < s.arbiter.left := by
  cases h with
  | @retrieve t m harb =>
    have ht := t.isLt
    cases s.pool.tenantRequests[t]? with
    | none =>
      simp only [harb, Arbiter.left]
      omega
    | some k =>
      have hsize : (m.insertIfNew t k).size ≤ m.size + 1 := Std.TreeMap.size_insertIfNew_le
      simp only [harb, Arbiter.left]
      split <;> omega
  | collect harb hn =>
    simp only [harb, Arbiter.left, Std.TreeMap.length_toList, Std.TreeSet.size_emptyc]
    omega
  | @look t k search resp r harb hl =>
    have hsize : (resp.insert t).size ≤ resp.size + 1 := Std.TreeSet.size_insert_le
    simp only [harb, Arbiter.left, List.length_cons]
    omega
  | answersReady harb =>
    simp only [harb, Arbiter.left, Std.TreeSet.length_toList, List.length_nil]
    omega
  | release harb =>
    simp only [harb, Arbiter.left, List.length_cons]
    omega
  | newPass harb => exact absurd rfl hne

/-- A step of the Arbiter that does not poll the tenant brings the poll nearer. -/
theorem ArbiterStep.untilPoll_lt (h : ArbiterStep s e s')
    (hne : ∀ found k, e ≠ .retrieved t found k) :
    s'.arbiter.untilPoll t < s.arbiter.untilPoll t := by
  have hlt := h.left_lt
  have ht := t.isLt
  cases h with
  | @retrieve u m harb =>
    have hu : (u : Nat) ≠ t := fun heq => hne _ _ (by rw [Fin.ext heq])
    have hnext {m' : Std.TreeMap TenantId ExperimentalKey}
        (hlt : (Arbiter.retrieving (u + 1) m').left < (Arbiter.retrieving u m).left) :
        (Arbiter.retrieving (u + 1) m').untilPoll t < (Arbiter.retrieving u m).untilPoll t := by
      simp only [Arbiter.untilPoll]
      split <;> split <;> omega
    have hlt := hlt (by simp)
    rw [harb] at hlt ⊢
    exact hnext hlt
  | @collect n m harb hn =>
    have hlt := hlt (by simp)
    have hnt : ¬ n ≤ t := by omega
    rw [harb] at hlt ⊢
    simp only [Arbiter.untilPoll, if_neg hnt]
    exact Nat.add_lt_add_right hlt _
  | look harb hl =>
    have hlt := hlt (by simp)
    rw [harb] at hlt ⊢
    exact Nat.add_lt_add_right hlt _
  | answersReady harb =>
    have hlt := hlt (by simp)
    rw [harb] at hlt ⊢
    exact Nat.add_lt_add_right hlt _
  | release harb =>
    have hlt := hlt (by simp)
    rw [harb] at hlt ⊢
    exact Nat.add_lt_add_right hlt _
  | newPass harb =>
    rw [harb]
    simp only [Arbiter.untilPoll, Arbiter.newPass, Arbiter.left]
    simp

end Backend

end Propreact
