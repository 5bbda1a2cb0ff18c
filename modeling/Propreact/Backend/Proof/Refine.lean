import Propreact.Backend.Token
import Propreact.Backend.Proof.Steps

/-!
# The backend follows its tokens

`view s t` is tenant `t`'s part of the state. Every step of the backend is, for each tenant, a
step of `Token.protocol` or none at all (`next_follows`), so along every run each tenant has a
token (`exists_token`), and the token's ledger speaks about the run's trace.
-/

namespace Propreact

def InterposerBackend.Pc.phase : InterposerBackend.Pc → Backend.Phase
  | .receiving => .between
  | .updating _ => .between
  | .recording _ _ => .busy
  | .waiting => .busy
  | .responding => .answering

/-- The Arbiter's current pass has taken `t`'s request and will release `t`. -/
def Arbiter.holds (t : TenantId) : Arbiter → Bool
  | .retrieving _ tenantsWithRequests => tenantsWithRequests.contains t
  | .looking search tenantsToBeResponded =>
    search.any (·.1 = t) || tenantsToBeResponded.contains t
  | .releasing search => search.contains t

/-- A pass releases no tenant twice. -/
def Arbiter.Wf : Arbiter → Prop
  | .releasing search => search.Nodup
  | _ => True

namespace Backend

open Token

def view (s : Backend) (t : TenantId) : View where
  phase := (s.tenants t).pc.phase
  entry := s.pool.tenantRequests[t]?
  held := s.arbiter.holds t
  ready := s.pool.tenantReady t

/-- What a step with label `e` to `s'` does to tenant `t`'s token. -/
def Follows (t : TenantId) (tok : Token) (e : Event) (s' : Backend) : Prop :=
  match e.own t with
  | some o => ∃ tok', Token.Step tok o tok' ∧ s'.view t = tok'.view
  | none => s'.view t = tok.view

section
variable {s s' : Backend} {t u : TenantId} {tok : Token} {e : Event}

/-- A step that is not made for `u` and changes nothing of `u`'s part. -/
theorem follows_of_view (ho : e.own u = none) (hs : s'.view u = s.view u)
    (hv : s.view u = tok.view) : Follows u tok e s' := by
  rw [Follows, ho, hs, hv]

theorem follows_of_own {o : Own} {tok' : Token} (ho : e.own u = some o)
    (hstep : Token.Step tok o tok') (hs : s'.view u = tok'.view) : Follows u tok e s' := by
  rw [Follows, ho]
  exact ⟨tok', hstep, hs⟩

/-- A tenant's step changes nothing of the other tenant's part. -/
theorem tenantStep_other (h : TenantStep s t e s') (hu : u ≠ t) :
    e.own u = none ∧ s'.view u = s.view u := by
  have hu' : t ≠ u := hu.symm
  cases h <;>
    simp [Event.own, view, setTenant, hu, hu', Std.TreeMap.getElem?_insertIfNew]

theorem tenantStep_follows (h : TenantStep s t e s') (hv : s.view u = tok.view) :
    Follows u tok e s' := by
  by_cases hu : u = t
  case neg =>
    obtain ⟨ho, hs⟩ := tenantStep_other h hu
    exact follows_of_view ho hs hv
  subst hu
  -- the thread's phase, the entry and the flag are those of the token
  have hphase : (s.tenants u).pc.phase = tok.view.phase := congrArg View.phase hv
  have hentry : s.pool.tenantRequests[u]? = tok.view.entry := congrArg View.entry hv
  have hready : s.pool.tenantReady u = tok.view.ready := congrArg View.ready hv
  cases h with
  | receive hpc hreq =>
    refine follows_of_view rfl ?_ hv
    simp [view, setTenant, hpc, InterposerBackend.Pc.phase]
  | @update pkt hpc hnone =>
    rw [hpc] at hphase
    cases tok <;> cases hphase
    refine follows_of_own (by simp [Event.own]) (.post (pkt.word 1)) ?_
    simp_all [view, setTenant, InterposerBackend.Pc.phase, Token.view,
      Std.TreeMap.getElem_insertIfNew]
  | @fail pkt hpc hsome =>
    rw [hpc] at hphase
    cases tok <;> cases hphase
    exact absurd hentry hsome
  | record hpc hi hg =>
    refine follows_of_view rfl ?_ hv
    simp [view, setTenant, hpc, InterposerBackend.Pc.phase]
  | recordsDone hpc hi =>
    refine follows_of_view rfl ?_ hv
    simp [view, setTenant, hpc, InterposerBackend.Pc.phase]
  | wait hpc hr =>
    rw [hr] at hready
    cases tok <;> cases hready
    refine follows_of_own (by simp [Event.own]) .wake ?_
    simp_all [view, setTenant, InterposerBackend.Pc.phase, Token.view]
  | respond hpc =>
    rw [hpc] at hphase
    cases tok <;> cases hphase
    refine follows_of_own (by simp [Event.own]) .answer ?_
    simp_all [view, setTenant, InterposerBackend.Pc.phase, Token.view]

/-- Retrieving takes the tenant's entry out of the pool; a positive key is then held. -/
theorem retrieve_follows {m : Std.TreeMap TenantId ExperimentalKey}
    (harb : s.arbiter = .retrieving t m) (hv : s.view u = tok.view) :
    Follows u tok (.retrieved t s.pool.tenantRequests[t]? (s.pool.tenantRequests[t]?.getD 0))
      { s with
        pool.tenantRequests := s.pool.tenantRequests.erase t
        arbiter := .retrieving (t + 1)
          (match s.pool.tenantRequests[t]? with
            | some k => if 0 < k then m.insertIfNew t k else m
            | none => m) } := by
  by_cases hu : t = u
  case neg =>
    refine follows_of_view (by simp [Event.own, hu]) ?_ hv
    have hm : (match s.pool.tenantRequests[t]? with
        | some k => if 0 < k then m.insertIfNew t k else m
        | none => m).contains u = m.contains u := by
      split
      · split <;> simp [hu]
      · rfl
    simp only [view, harb, Arbiter.holds, hm]
    simp [Std.TreeMap.getElem?_erase, hu]
  subst hu
  have hentry : s.pool.tenantRequests[t]? = tok.view.entry := congrArg View.entry hv
  have hheld : m.contains t = tok.view.held := by
    rw [← hv]; simp [view, harb, Arbiter.holds]
  have hrest : (s.tenants t).pc.phase = tok.view.phase ∧ s.pool.tenantReady t = tok.view.ready :=
    ⟨congrArg View.phase hv, congrArg View.ready hv⟩
  rw [hentry]
  cases tok with
  | asked k =>
    by_cases hk : 0 < k
    · refine follows_of_own (by simp [Event.own, Token.view]) (.take hk) ?_
      simp_all [view, Arbiter.holds, Token.view]
    · obtain rfl : k = 0 := by simpa using hk
      refine follows_of_own (by simp [Event.own, Token.view]) .drop ?_
      simp_all [view, Arbiter.holds, Token.view]
  | _ =>
    refine follows_of_own (by simp [Event.own, Token.view]) (.poll rfl) ?_
    simp_all [view, Arbiter.holds, Token.view]

theorem any_toList (m : Std.TreeMap TenantId ExperimentalKey) (t : TenantId) :
    m.toList.any (·.1 = t) = m.contains t := by
  rw [Bool.eq_iff_iff, ← Std.TreeMap.mem_iff_contains, Std.TreeMap.mem_iff_isSome_getElem?,
    Option.isSome_iff_exists]
  simp

theorem nodup_toList (r : Std.TreeSet TenantId) : r.toList.Nodup :=
  r.distinct_toList.imp fun h he => h (by simp [he])

theorem arbiterStep_follows (hw : s.arbiter.Wf) (h : ArbiterStep s e s')
    (hv : s.view u = tok.view) :
    s'.arbiter.Wf ∧ Follows u tok e s' := by
  cases h with
  | retrieve harb => exact ⟨trivial, retrieve_follows harb hv⟩
  | collect harb _ =>
    refine ⟨trivial, follows_of_view rfl ?_ hv⟩
    simp only [view, harb, Arbiter.holds, any_toList]
    simp
  | @look t k search resp r harb hl =>
    refine ⟨trivial, follows_of_view rfl ?_ hv⟩
    -- the tenant moves from the requests to the answers
    by_cases hu : t = u <;>
      simp [view, harb, Arbiter.holds, Bool.or_left_comm, hu]
  | @answersReady resp harb =>
    refine ⟨nodup_toList resp, follows_of_view rfl ?_ hv⟩
    simp only [view, harb, Arbiter.holds, List.any_nil, Bool.false_or, Std.TreeSet.contains_toList]
  | @release t search harb =>
    rw [harb] at hw
    obtain ⟨hnot, hnd⟩ := List.nodup_cons.1 hw
    refine ⟨hnd, ?_⟩
    by_cases hu : t = u
    case neg =>
      refine follows_of_view (by simp [Event.own, hu]) ?_ hv
      simp [view, harb, Arbiter.holds, Ne.symm hu]
    subst hu
    have hheld : tok.view.held = true := by
      rw [← hv]; simp [view, harb, Arbiter.holds]
    cases tok <;> cases hheld
    refine follows_of_own (by simp [Event.own]) .release ?_
    simp_all [view, Arbiter.holds, Token.view]
  | newPass harb =>
    refine ⟨trivial, follows_of_view rfl ?_ hv⟩
    simp [view, harb, Arbiter.holds, Arbiter.newPass]

/-- **Every step of the backend** is a step of each tenant's protocol, or none of it. -/
theorem next_follows {a : Action} (hw : s.arbiter.Wf) (h : s.next a = some (e, s'))
    (hv : s.view u = tok.view) : s'.arbiter.Wf ∧ Follows u tok e s' := by
  obtain ⟨-, henv | ⟨t, -, ht⟩ | ⟨-, harb⟩⟩ := next_step h
  · cases henv with
    | queue t pkt =>
      refine ⟨hw, follows_of_view rfl ?_ hv⟩
      by_cases hu : u = t <;> simp [view, setTenant, hu]
    | @take t resp rest hresp =>
      refine ⟨hw, follows_of_view rfl ?_ hv⟩
      by_cases hu : u = t <;> simp [view, setTenant, hu]
  · refine ⟨?_, tenantStep_follows ht hv⟩
    cases ht <;> exact hw
  · exact arbiterStep_follows hw harb hv

end

theorem start_view {ready : TenantId → Bool} {t : TenantId} (hready : ready t = false) :
    (start ready).view t = Token.idle.view := by
  simp [view, start, RequestPool.new, hready, Arbiter.newPass, Arbiter.holds, Token.view,
    InterposerBackend.Pc.phase]

/-- **Along every run each tenant has a token**, if its flag is lowered at the start: the calls
made for it are a run of its protocol, and the state shows the token the run ends in. -/
theorem exists_token {ready : TenantId → Bool} {t : TenantId} (hready : ready t = false)
    {tr : List Event} {s : Backend} (h : (lts ready).Run tr s) :
    s.arbiter.Wf ∧ ∃ tok, Token.protocol.Run (calls t tr) tok ∧ s.view t = tok.view := by
  obtain ⟨tok, hrun, hw, hv⟩ := h.simulate (N := Token.protocol) (p := Event.own t)
    (R := fun s tok => s.arbiter.Wf ∧ s.view t = tok.view)
    (by rintro s rfl; exact ⟨.idle, rfl, trivial, start_view hready⟩)
    (by
      rintro s tok e s' ⟨hw, hv⟩ ⟨a, ha⟩
      obtain ⟨hw', hf⟩ := next_follows (u := t) hw ha hv
      unfold Follows at hf
      split at hf
      · rename_i o ho
        obtain ⟨tok', hs, hv'⟩ := hf
        simp only [ho]
        exact ⟨tok', hs, hw', hv'⟩
      · rename_i ho
        simp only [ho]
        exact ⟨hw', hf⟩)
  exact ⟨hw, tok, hrun, hv⟩

end Backend

end Propreact
