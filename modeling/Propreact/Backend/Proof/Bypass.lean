import Propreact.Backend.Proof.Fifo
import Propreact.Backend.Proof.Safety

/-!
# No tenant is passed over

While a tenant's request with a positive key waits for its release (`Pending`), the Arbiter starts
at most one pass (`passesBefore`), and in each pass it releases a tenant at most once
(`releasesLeft`). So no tenant is released more than twice before it (`bounded_bypass`).
-/

namespace Propreact

/-- How many passes the Arbiter starts before it has polled or holds a waiting tenant. -/
def Arbiter.passesBefore (t : TenantId) (arb : Arbiter) : Nat :=
  if arb.holds t then 0
  else
    match arb with
    | .retrieving n _ => if n ≤ t then 0 else 1
    | _ => 1

/-- How often the Arbiter still releases a tenant in this pass, at most. -/
def Arbiter.releasesLeft (t : TenantId) : Arbiter → Nat
  | .releasing search => search.count t
  | _ => 1

namespace Backend

/-- The tenant's request waits to be taken from the pool, or to be released. -/
def Pending (s : Backend) (t : TenantId) : Prop :=
  (∃ k, 0 < k ∧ s.pool.tenantRequests[t]? = some k) ∨ s.arbiter.holds t = true

variable {s s' : Backend} {t u : TenantId} {e : Event} {a : Action} {as : List Action}
  {tr : List Event}

theorem pending_iff {tok : Token} (hv : s.view t = tok.view) :
    Pending s t ↔ (∃ k, 0 < k ∧ tok = .asked k) ∨ tok = .held := by
  have hentry : s.pool.tenantRequests[t]? = tok.view.entry := congrArg View.entry hv
  have hheld : s.arbiter.holds t = tok.view.held := congrArg View.held hv
  rw [Pending, hentry, hheld]
  cases tok <;> simp [Token.view]

/-- Only its release ends a tenant's waiting. -/
theorem pending_step (h : (lts noneReady).Run tr s) (hs : (lts noneReady).step s e s')
    (hp : Pending s t) (hne : e ≠ .released t) : Pending s' t := by
  obtain ⟨tok, -, hv, hf⟩ := step_token h hs t
  rw [pending_iff hv] at hp
  unfold Follows at hf
  split at hf
  · rename_i o ho
    obtain ⟨tok', hst, hv'⟩ := hf
    rw [pending_iff hv']
    rcases hp with ⟨k, hk, rfl⟩ | rfl
    · cases hst with
      | take => exact .inr rfl
      | drop => exact absurd hk (by decide)
      | poll he => cases he
    · cases hst with
      | poll => exact .inr rfl
      | release => exact absurd (own_eq_some.1 ho) hne
  · rw [pending_iff hf]
    exact hp

/-- Polling a tenant, which takes the request of a waiting one. -/
theorem retrieving_passes {v : TenantId} {m m' : Std.TreeMap TenantId ExperimentalKey}
    (hkeep : m.contains t = true → m'.contains t = true) (hv : v = t → m'.contains t = true) :
    (Arbiter.retrieving (v + 1) m').passesBefore t ≤ (Arbiter.retrieving v m).passesBefore t := by
  by_cases hm' : m'.contains t = true
  · simp [Arbiter.passesBefore, Arbiter.holds, hm']
  · have hm : m.contains t ≠ true := fun hm => hm' (hkeep hm)
    have hne : (v : Nat) ≠ t := fun heq => hm' (hv (Fin.ext heq))
    have hbefore : (Arbiter.retrieving v m).passesBefore t = if (v : Nat) ≤ t then 0 else 1 :=
      if_neg hm
    have hafter : (Arbiter.retrieving (v + 1) m').passesBefore t =
        if (v : Nat) + 1 ≤ t then 0 else 1 := if_neg hm'
    rw [hbefore, hafter]
    split <;> split <;> omega

/-- A poll takes the request of a waiting tenant, if that is the one polled. -/
theorem retrieve_passes {v : TenantId} {m m' : Std.TreeMap TenantId ExperimentalKey}
    (harb : s.arbiter = .retrieving v m) (hp : Pending s t)
    (hm' : (∃ k, 0 < k ∧ s.pool.tenantRequests[v]? = some k ∧ m' = m.insertIfNew v k) ∨
      (∀ k, s.pool.tenantRequests[v]? = some k → ¬ 0 < k) ∧ m' = m) :
    (Arbiter.retrieving (v + 1) m').passesBefore t ≤ s.arbiter.passesBefore t := by
  rw [harb]
  rcases hm' with ⟨k, -, -, rfl⟩ | ⟨hno, rfl⟩
  · exact retrieving_passes (fun hm => by simp [hm]) fun hv => by simp [hv]
  · refine retrieving_passes id fun hv => ?_
    rcases hp with ⟨k, hk, hentry⟩ | hheld
    · rw [← hv] at hentry
      exact absurd hk (hno k hentry)
    · rw [harb] at hheld
      exact hheld

/-- One step of the Arbiter towards the release. -/
theorem arbiterStep_bounds (h : ArbiterStep s e s') (hp : Pending s t) (hne : e ≠ .released t) :
    s'.arbiter.passesBefore t + [e].count .newPass ≤ s.arbiter.passesBefore t ∧
      s'.arbiter.releasesLeft u + s'.arbiter.passesBefore t + [e].count (.released u) ≤
        s.arbiter.releasesLeft u + s.arbiter.passesBefore t := by
  cases h with
  | @retrieve v m harb =>
    have hleft : s.arbiter.releasesLeft u = 1 := by rw [harb]; rfl
    have hbound {m' : Std.TreeMap TenantId ExperimentalKey}
        (hle : (Arbiter.retrieving (v + 1) m').passesBefore t ≤ s.arbiter.passesBefore t) :
        (Arbiter.retrieving (v + 1) m').passesBefore t + 0 ≤ s.arbiter.passesBefore t ∧
          1 + (Arbiter.retrieving (v + 1) m').passesBefore t + 0 ≤
            s.arbiter.releasesLeft u + s.arbiter.passesBefore t := by
      omega
    refine hbound (retrieve_passes harb hp ?_)
    cases hentry : s.pool.tenantRequests[v]? with
    | none => exact .inr ⟨nofun, rfl⟩
    | some k =>
      by_cases hk : 0 < k
      · exact .inl ⟨k, hk, rfl, if_pos hk⟩
      · refine .inr ⟨fun k' hk' => ?_, if_neg hk⟩
        cases hk'
        exact hk
  | @collect n m harb hn =>
    have ht : ¬ n ≤ t := by
      have := t.isLt
      omega
    simp [harb, Arbiter.passesBefore, Arbiter.holds, Arbiter.releasesLeft, any_toList, ht]
  | @look v k search resp r harb hl =>
    have hholds : (Arbiter.looking search (resp.insert v)).holds t =
        (Arbiter.looking ((v, k) :: search) resp).holds t := by
      by_cases hv : v = t <;> simp [Arbiter.holds, Bool.or_left_comm, hv]
    have hsame : (Arbiter.looking search (resp.insert v)).passesBefore t =
        s.arbiter.passesBefore t := by
      rw [harb]
      simp only [Arbiter.passesBefore, hholds]
    have hleft : s.arbiter.releasesLeft u = 1 := by rw [harb]; rfl
    rw [hsame, hleft]
    simp [Arbiter.releasesLeft]
  | @answersReady resp harb =>
    have hcount := List.nodup_iff_count_le_one.1 (nodup_toList resp) u
    have hsame : (Arbiter.releasing resp.toList).passesBefore t = s.arbiter.passesBefore t := by
      rw [harb]
      simp [Arbiter.passesBefore, Arbiter.holds]
    have hleft : s.arbiter.releasesLeft u = 1 := by rw [harb]; rfl
    have hturn : (Arbiter.releasing resp.toList).releasesLeft u = resp.toList.count u := rfl
    have hpass : [Event.answersReady].count .newPass = 0 := rfl
    have hrel : [Event.answersReady].count (.released u) = 0 := rfl
    dsimp only
    omega
  | @release v search harb =>
    have hv : v ≠ t := fun h => hne (by rw [h])
    have hsame : (Arbiter.releasing search).passesBefore t = s.arbiter.passesBefore t := by
      rw [harb]
      simp [Arbiter.passesBefore, Arbiter.holds, hv.symm]
    have hturn : (Arbiter.releasing search).releasesLeft u +
        [Event.released v].count (.released u) = s.arbiter.releasesLeft u := by
      rw [harb]
      by_cases hu : v = u <;> simp [Arbiter.releasesLeft, hu]
    have hpass : [Event.released v].count .newPass = 0 := rfl
    dsimp only
    omega
  | newPass harb =>
    simp [harb, Arbiter.passesBefore, Arbiter.holds, Arbiter.releasesLeft, Arbiter.newPass]

/-- One step towards the release. -/
theorem next_bounds (h : s.next a = some (e, s')) (hp : Pending s t) (hne : e ≠ .released t) :
    s'.arbiter.passesBefore t + [e].count .newPass ≤ s.arbiter.passesBefore t ∧
      s'.arbiter.releasesLeft u + s'.arbiter.passesBefore t + [e].count (.released u) ≤
        s.arbiter.releasesLeft u + s.arbiter.passesBefore t := by
  obtain ⟨-, henv | ⟨v, -, hs⟩ | ⟨-, hs⟩⟩ := next_step h
  · cases henv <;> simp [setTenant]
  · cases hs <;> simp [setTenant]
  · exact arbiterStep_bounds hs hp hne

theorem schedule_bounds {tr0 : List Event} (h : (lts noneReady).Run tr0 s)
    (hr : Lts.schedule next s as = some (tr, s')) (hp : Pending s t) (hno : .released t ∉ tr) :
    tr.count .newPass ≤ s.arbiter.passesBefore t ∧
      tr.count (.released u) ≤ s.arbiter.releasesLeft u + s.arbiter.passesBefore t := by
  induction as generalizing s tr tr0 with
  | nil =>
    cases hr
    simp
  | cons a as ih =>
    obtain ⟨e, s1, tr1, hstep, hrest, rfl⟩ := Lts.schedule_cons.1 hr
    rw [List.mem_cons, not_or] at hno
    have hs : (lts noneReady).step s e s1 := ⟨a, hstep⟩
    have hp1 := pending_step h hs hp (Ne.symm hno.1)
    obtain ⟨hpass, hrel⟩ := next_bounds (u := u) hstep hp (Ne.symm hno.1)
    obtain ⟨hpass', hrel'⟩ := ih (h.snoc hs) hrest hp1 hno.2
    rw [← List.singleton_append, List.count_append, List.count_append]
    omega

/-- **No tenant is passed over.** From any `update` that posts a positive key in a run from lowered
flags, however the run goes on until the tenant is released: the Arbiter starts at most one pass,
and releases no tenant more than twice. -/
theorem bounded_bypass {tr0 : List Event} {s0 : Backend} {k : ExperimentalKey}
    (h : (lts noneReady).Run tr0 s0) (hs : (lts noneReady).step s0 (.updated t k) s) (hk : 0 < k)
    (hr : Lts.schedule next s as = some (tr, s')) (hno : .released t ∉ tr) (u : TenantId) :
    tr.count .newPass ≤ 1 ∧ tr.count (.released u) ≤ 2 := by
  have hp : Pending s t := by
    obtain ⟨tok, -, -, hf⟩ := step_token h hs t
    have ho : (Event.updated t k).own t = some (.updated k) := own_eq_some.2 rfl
    rw [Follows, ho] at hf
    obtain ⟨tok', hst, hv'⟩ := hf
    cases hst
    exact (pending_iff hv').2 (.inl ⟨k, hk, rfl⟩)
  obtain ⟨hpass, hrel⟩ := schedule_bounds (u := u) (h.snoc hs) hr hp hno
  have hone : s.arbiter.passesBefore t ≤ 1 := by
    unfold Arbiter.passesBefore
    split
    · exact Nat.zero_le _
    · split
      · split <;> omega
      · exact Nat.le_refl _
  have hleft : s.arbiter.releasesLeft u ≤ 1 := by
    unfold Arbiter.releasesLeft
    split
    · rename_i search harb
      have hw := (exists_token (t := u) rfl (h.snoc hs)).1
      rw [harb] at hw
      exact List.nodup_iff_count_le_one.1 hw u
    · exact Nat.le_refl _
  omega

/-- Tenant 0's request is polled, and then tenant 1's message received. -/
def polledBefore : List Action :=
  [.queue 0 (keyPacket 5), .queue 1 (keyPacket 6), .tenant 0, .tenant 0, .arbiter, .arbiter,
    .tenant 1]

/-- Tenant 0 is released, posts again, and is released again in the pass that takes tenant 1. -/
def releasedTwice : List Action :=
  List.replicate 5 .arbiter ++ List.replicate 3 (.tenant 0) ++
  [.queue 0 (keyPacket 5), .tenant 0, .tenant 0] ++ List.replicate 7 .arbiter

theorem twice_before_one : ∃ tr0 s0 s tr s', (lts noneReady).Run tr0 s0 ∧
    (lts noneReady).step s0 (.updated 1 6) s ∧
    Lts.schedule next s releasedTwice = some (tr, s') ∧ .released 1 ∉ tr ∧
    tr.count (.released 0) = 2 ∧ tr.count .newPass ≤ 1 := by
  have hrun := Lts.run_schedule (start noneReady) next polledBefore rfl
  have hpass := (bounded_bypass hrun (t := 1) (k := 6) ⟨.tenant 1, rfl⟩ (by decide)
    (show Lts.schedule next _ releasedTwice = some (_, _) from rfl) (by decide) 0).1
  exact ⟨_, _, _, _, _, hrun, ⟨.tenant 1, rfl⟩, rfl, by decide, rfl, hpass⟩

end Backend

end Propreact
