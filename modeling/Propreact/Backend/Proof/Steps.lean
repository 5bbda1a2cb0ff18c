import Propreact.Backend.System

/-!
# What a step of the backend can do

`TenantStep` and `ArbiterStep` list the steps of the two kinds of threads, guards included, and
`next_step` inverts `next` into them. Proofs about the backend take their cases from here.
-/

namespace Propreact.Backend

/-- The steps of tenant `t`'s thread. -/
inductive TenantStep (s : Backend) (t : TenantId) : Event → Backend → Prop
  | receive {pkt : Packet} {rest : List Packet} :
    (s.tenants t).pc = .receiving → (s.tenants t).requests = pkt :: rest →
    TenantStep s t (.received t)
      (s.setTenant t { s.tenants t with requests := rest, pc := .updating pkt })
  | update {pkt : Packet} :
    (s.tenants t).pc = .updating pkt → s.pool.tenantRequests[t]? = none →
    TenantStep s t (.updated t (pkt.word 1))
      ({ s with
          pool.tenantRequests := s.pool.tenantRequests.insertIfNew t (pkt.word 1) }.setTenant t
        { s.tenants t with pc := .recording pkt 0 })
  | fail {pkt : Packet} :
    (s.tenants t).pc = .updating pkt → s.pool.tenantRequests[t]? ≠ none →
    TenantStep s t (.assertFailed t) { s with aborted := true }
  | record {pkt : Packet} {i : Nat} {gwin : GlobalWindow} :
    (s.tenants t).pc = .recording pkt i → i < pkt.numRecords.toNat →
    record t pkt i s.gwin = .ret gwin →
    TenantStep s t (.recorded t)
      ({ s with gwin }.setTenant t { s.tenants t with pc := .recording pkt (i + 1) })
  | recordsDone {pkt : Packet} {i : Nat} :
    (s.tenants t).pc = .recording pkt i → ¬ i < pkt.numRecords.toNat →
    TenantStep s t (.recordsDone t) (s.setTenant t { s.tenants t with pc := .waiting })
  | wait :
    (s.tenants t).pc = .waiting → s.pool.tenantReady t = true →
    TenantStep s t (.waited t)
      ({ s with pool.tenantReady := Function.update s.pool.tenantReady t false }.setTenant t
        { s.tenants t with pc := .responding })
  | respond :
    (s.tenants t).pc = .responding →
    TenantStep s t (.responded t)
      (s.setTenant t { s.tenants t with
        responses := (s.tenants t).responses ++ ["RESPONSE"], pc := .receiving })

/-- The steps of the Arbiter's thread. -/
inductive ArbiterStep (s : Backend) : Event → Backend → Prop
  | retrieve {t : TenantId} {m : Std.TreeMap TenantId ExperimentalKey} :
    s.arbiter = .retrieving t m →
    ArbiterStep s (.retrieved t s.pool.tenantRequests[t]? (s.pool.tenantRequests[t]?.getD 0))
      { s with
        pool.tenantRequests := s.pool.tenantRequests.erase t
        arbiter := .retrieving (t + 1)
          (match s.pool.tenantRequests[t]? with
            | some k => if 0 < k then m.insertIfNew t k else m
            | none => m) }
  | collect {n : Nat} {m : Std.TreeMap TenantId ExperimentalKey} :
    s.arbiter = .retrieving n m → ¬ n < numTenants →
    ArbiterStep s .collected { s with arbiter := .looking m.toList ∅ }
  | look {t : TenantId} {k : ExperimentalKey} {search : List (TenantId × ExperimentalKey)}
      {resp : Std.TreeSet TenantId} {r : ULong × GlobalWindow} :
    s.arbiter = .looking ((t, k) :: search) resp → lookup t k s.gwin = .ret r →
    ArbiterStep s (.looked t) { s with gwin := r.2, arbiter := .looking search (resp.insert t) }
  | answersReady {resp : Std.TreeSet TenantId} :
    s.arbiter = .looking [] resp →
    ArbiterStep s .answersReady { s with arbiter := .releasing resp.toList }
  | release {t : TenantId} {search : List TenantId} :
    s.arbiter = .releasing (t :: search) →
    ArbiterStep s (.released t)
      { s with
        pool.tenantReady := Function.update s.pool.tenantReady t true
        arbiter := .releasing search }
  | newPass :
    s.arbiter = .releasing [] → ArbiterStep s .newPass { s with arbiter := .newPass }

theorem tenantNext_step {s s' : Backend} {t : TenantId} {e : Event}
    (h : s.tenantNext t = some (e, s')) : TenantStep s t e s' := by
  unfold tenantNext at h
  dsimp only at h
  split at h
  · rename_i hpc
    split at h
    · cases h
    · rename_i hreq
      cases h
      exact .receive hpc hreq
  · rename_i pkt hpc
    by_cases hmem : t ∈ s.pool.tenantRequests
    · simp only [RequestPool.update, hmem, ↓reduceIte] at h
      cases h
      exact .fail hpc (by simpa using hmem)
    · simp only [RequestPool.update, hmem, ↓reduceIte] at h
      cases h
      exact .update hpc (by simpa using hmem)
  · rename_i pkt i hpc
    split at h
    · rename_i hi
      split at h
      · rename_i gwin hg
        cases h
        exact .record hpc hi hg
      · cases h
    · rename_i hi
      cases h
      exact .recordsDone hpc hi
  · rename_i hpc
    by_cases hr : s.pool.tenantReady t = true
    · simp only [RequestPool.wait, hr, ↓reduceIte] at h
      cases h
      exact .wait hpc hr
    · simp [RequestPool.wait, hr] at h
  · rename_i hpc
    cases h
    exact .respond hpc

theorem arbiterNext_step {s s' : Backend} {e : Event} (h : s.arbiterNext = some (e, s')) :
    ArbiterStep s e s' := by
  unfold arbiterNext at h
  split at h
  · rename_i n m harb
    split at h
    · rename_i hn
      have hs := ArbiterStep.retrieve (t := ⟨n, hn⟩) harb
      simp only [RequestPool.retrieve] at h
      cases hq : s.pool.tenantRequests[(⟨n, hn⟩ : TenantId)]? with
      | none => simp_all
      | some k => simp_all
    · rename_i hn
      cases h
      exact .collect harb hn
  · rename_i search resp harb
    split at h
    · split at h
      · rename_i hl
        cases h
        exact .look harb hl
      · cases h
    · cases h
      exact .answersReady harb
  · rename_i search harb
    split at h
    · cases h
      exact .release harb
    · cases h
      exact .newPass harb

/-- The steps of the environment: messages arrive and responses are taken. -/
inductive EnvStep (s : Backend) : Action → Event → Backend → Prop
  | queue (t : TenantId) (pkt : Packet) :
    EnvStep s (.queue t pkt) (.queued t)
      (s.setTenant t { s.tenants t with requests := (s.tenants t).requests ++ [pkt] })
  | take {t : TenantId} {resp : String} {rest : List String} :
    (s.tenants t).responses = resp :: rest →
    EnvStep s (.take t) (.taken t) (s.setTenant t { s.tenants t with responses := rest })

theorem next_step {s s' : Backend} {a : Action} {e : Event} (h : s.next a = some (e, s')) :
    s.aborted = false ∧
      (EnvStep s a e s' ∨ (∃ t, a = .tenant t ∧ TenantStep s t e s') ∨
        a = .arbiter ∧ ArbiterStep s e s') := by
  unfold next at h
  split at h
  · cases h
  · rename_i hab
    refine ⟨by simpa using hab, ?_⟩
    cases a with
    | queue t pkt =>
      cases h
      exact .inl (.queue t pkt)
    | take t =>
      dsimp only at h
      split at h
      · cases h
      · rename_i hresp
        cases h
        exact .inl (.take hresp)
    | tenant t => exact .inr (.inl ⟨t, rfl, tenantNext_step h⟩)
    | arbiter => exact .inr (.inr ⟨rfl, arbiterNext_step h⟩)

end Propreact.Backend
