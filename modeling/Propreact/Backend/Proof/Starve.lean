import Propreact.Backend.Proof.Fifo
import Propreact.Backend.Proof.Safety

/-!
# A held window starves the tenants

The Arbiter looks every request up in the window. If `update_active` has returned with the window's
mutex held, no lookup returns any more (`next_starves`), and the Arbiter only releases tenants whose
lookups are behind it: each tenant gets at most one more answer, and only if that is already on its
way (`held_window_starves`).
-/

namespace Propreact

/-- How often the Arbiter releases a tenant before its next lookup. -/
def Arbiter.releases (t : TenantId) : Arbiter → Nat
  | .looking [] tenantsToBeResponded => tenantsToBeResponded.toList.count t
  | .releasing search => search.count t
  | _ => 0

namespace Backend

/-- The answers to a tenant that no lookup stands before. -/
def answersLeft (s : Backend) (t : TenantId) : Nat :=
  s.arbiter.releases t + (s.pool.tenantReady t).toNat +
    if (s.tenants t).pc.phase = .answering then 1 else 0

variable {s s' : Backend} {t : TenantId} {a : Action} {e : Event} {as : List Action}
  {tr : List Event}

/-- No lookup returns while the window's mutex is held. -/
theorem lookup_held {k : ExperimentalKey} (h : s.gwin.mutex = true) :
    lookup t k s.gwin = .blocks := by
  unfold lookup
  split
  · rw [GlobalWindow.retrieveIdle, GlobalWindow.lock_held h]
    rfl
  · rw [GlobalWindow.retrieveActive, GlobalWindow.lock_held h]
    rfl

theorem tenantStep_answers {u : TenantId} (h : TenantStep s u e s') (t : TenantId) :
    s'.answersLeft t + [e].count (.responded t) ≤ s.answersLeft t := by
  by_cases hu : t = u
  · subst hu
    cases h with
    | wait hpc hr =>
      simp [answersLeft, setTenant, hpc, hr, InterposerBackend.Pc.phase]
    | respond hpc => simp [answersLeft, setTenant, hpc, InterposerBackend.Pc.phase]
    | receive hpc hreq => simp [answersLeft, setTenant, hpc, InterposerBackend.Pc.phase]
    | update hpc hnone => simp [answersLeft, setTenant, hpc, InterposerBackend.Pc.phase]
    | fail hpc hsome => simp [answersLeft]
    | record hpc hi hrec => simp [answersLeft, setTenant, hpc, InterposerBackend.Pc.phase]
    | recordsDone hpc hi => simp [answersLeft, setTenant, hpc, InterposerBackend.Pc.phase]
  · cases h <;> simp [answersLeft, setTenant, hu, Ne.symm hu]

theorem arbiterStep_answers (hm : s.gwin.mutex = true) (h : ArbiterStep s e s') (t : TenantId) :
    e ≠ .looked t ∧ s'.answersLeft t ≤ s.answersLeft t := by
  cases h with
  | look harb hl =>
    rw [lookup_held hm] at hl
    cases hl
  | @retrieve u m harb => exact ⟨by simp, by simp [answersLeft, harb, Arbiter.releases]⟩
  | @collect n m harb hn =>
    refine ⟨by simp, ?_⟩
    have hzero : (Arbiter.looking m.toList ∅).releases t = 0 := by cases m.toList <;> rfl
    rw [answersLeft, hzero, answersLeft, harb]
    exact Nat.le_refl _
  | answersReady harb => exact ⟨by simp, by simp [answersLeft, harb, Arbiter.releases]⟩
  | newPass harb => exact ⟨by simp, by simp [answersLeft, harb, Arbiter.releases, Arbiter.newPass]⟩
  | @release u search harb =>
    refine ⟨by simp, ?_⟩
    by_cases hu : t = u
    · subst hu
      simp [answersLeft, harb, Arbiter.releases]
    · simp [answersLeft, harb, Arbiter.releases, hu, Ne.symm hu]

/-- **One step** with the window's mutex held: it stays held, nothing is looked up, and an answer
is one of those left. -/
theorem next_starves (hm : s.gwin.mutex = true) (h : s.next a = some (e, s')) (t : TenantId) :
    s'.gwin.mutex = true ∧ e ≠ .looked t ∧
      s'.answersLeft t + [e].count (.responded t) ≤ s.answersLeft t := by
  obtain ⟨-, henv | ⟨u, -, hs⟩ | ⟨-, hs⟩⟩ := next_step h
  · cases henv with
    | queue u pkt => by_cases hu : t = u <;> simp [answersLeft, setTenant, hm, hu]
    | @take u resp rest hresp => by_cases hu : t = u <;> simp [answersLeft, setTenant, hm, hu]
  · refine ⟨?_, by cases hs <;> simp, tenantStep_answers hs t⟩
    cases hs with
    | record hpc hi hrec =>
      rw [record_eq_exec] at hrec
      exact GlobalWindow.exec_held hm hrec
    | _ => exact hm
  · obtain ⟨hlook, hle⟩ := arbiterStep_answers hm hs t
    refine ⟨?_, hlook, ?_⟩
    · cases hs with
      | look harb hl =>
        rw [lookup_held hm] at hl
        cases hl
      | _ => exact hm
    · have hnone : [e].count (.responded t) = 0 := by cases hs <;> simp
      omega

theorem schedule_starves (hm : s.gwin.mutex = true)
    (h : Lts.schedule next s as = some (tr, s')) (t : TenantId) :
    s'.gwin.mutex = true ∧ .looked t ∉ tr ∧
      s'.answersLeft t + tr.count (.responded t) ≤ s.answersLeft t := by
  induction as generalizing s tr with
  | nil =>
    cases h
    exact ⟨hm, by simp, by simp⟩
  | cons a as ih =>
    obtain ⟨e, s1, tr1, hstep, hrest, rfl⟩ := Lts.schedule_cons.1 h
    obtain ⟨hm1, hlook, hle⟩ := next_starves hm hstep t
    obtain ⟨hm', hlook', hle'⟩ := ih hm1 hrest
    refine ⟨hm', by simp [Ne.symm hlook, hlook'], ?_⟩
    rw [← List.singleton_append, List.count_append]
    omega

theorem count_le {l : List TenantId} (h : l.Nodup) : l.count t ≤ (l.contains t).toNat := by
  by_cases hmem : t ∈ l
  · have hcount := List.nodup_iff_count_le_one.1 h t
    simpa [hmem] using hcount
  · simp [List.count_eq_zero.2 hmem]

theorem releases_le {arb : Arbiter} (h : arb.Wf) : arb.releases t ≤ (arb.holds t).toNat := by
  unfold Arbiter.releases
  split
  · rename_i resp
    have hle := count_le (t := t) (nodup_toList resp)
    rw [Std.TreeSet.contains_toList] at hle
    exact hle
  · exact count_le h
  · exact Nat.zero_le _

/-- At most one answer is on its way. -/
theorem answersLeft_le (h : (lts noneReady).Run tr s) (t : TenantId) : s.answersLeft t ≤ 1 := by
  obtain ⟨hw, tok, -, hv⟩ := exists_token (t := t) rfl h
  have hphase : (s.tenants t).pc.phase = tok.view.phase := congrArg View.phase hv
  have hheld : s.arbiter.holds t = tok.view.held := congrArg View.held hv
  have hready : s.pool.tenantReady t = tok.view.ready := congrArg View.ready hv
  have hle := releases_le (t := t) hw
  rw [hheld] at hle
  rw [answersLeft, hphase, hready]
  cases tok <;> simp [Token.view] at * <;> omega

/-- **A held window starves the tenants.** When a run from lowered flags has come to a state in
which the window's mutex is held, then however it goes on: the mutex stays held, the Arbiter looks
up no request any more, and a tenant gets at most one more answer, and none unless that is already
released, or about to be without a lookup. -/
theorem held_window_starves {tr1 : List Event} (h : (lts noneReady).Run tr1 s)
    (hm : s.gwin.mutex = true) (hr : Lts.schedule next s as = some (tr, s')) (t : TenantId) :
    s'.gwin.mutex = true ∧ .looked t ∉ tr ∧ tr.count (.responded t) ≤ s.answersLeft t ∧
      s.answersLeft t ≤ 1 := by
  obtain ⟨hm', hlook, hle⟩ := schedule_starves hm hr t
  exact ⟨hm', hlook, by omega, answersLeft_le h t⟩

/-- Tenant 1 brings a record with a key of its own. -/
def newActiveKey : List Action :=
  [.queue 1 ⟨40, fun i => [40, 5, 7, 10, 20].getD i 0⟩, .tenant 1, .tenant 1, .tenant 1]

/-- The request is polled. -/
def lateRequest : List Action :=
  [.queue 0 ⟨16, fun _ => 16⟩, .tenant 0, .tenant 0, .tenant 0] ++ List.replicate 3 .arbiter

theorem request_starved : ∃ tr s tr' s', (lts noneReady).Run tr s ∧
    Lts.schedule next s lateRequest = some (tr', s') ∧
    .looked 0 ∉ tr' ∧ tr'.count (.responded 0) ≤ s.answersLeft 0 := by
  have hrun := Lts.run_schedule (start noneReady) next newActiveKey rfl
  have hstarved := held_window_starves hrun rfl
    (show Lts.schedule next _ lateRequest = some (_, _) from rfl) 0
  exact ⟨_, _, _, _, hrun, rfl, hstarved.2.1, hstarved.2.2.1⟩

end Backend

end Propreact
