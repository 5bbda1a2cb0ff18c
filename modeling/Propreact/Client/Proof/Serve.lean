import Propreact.Backend.Proof.Refine
import Propreact.Client.Launch

/-!
# The backend serves the open launch

`Serves`: what the backend's part of the client shows of a stage. A step of the backend keeps the
stage or moves the open launch's request one hop (`backend_hops`); the client's own send and
receive put the request on its channel and take its response (`queue_serves`, `take_serves`).
-/

namespace Propreact.System

open Backend (EnvStep TenantStep ArbiterStep Token next_step)

/-- The backend's thread has called `update` for the request and has not answered it. -/
def Hop.pooled : Hop → Bool
  | .asked | .lost | .held | .granted | .answering => true
  | _ => false

namespace Stage

/-- The client's token in the backend. -/
def token : Stage → Token
  | .serving g .asked => .asked g.x
  | .serving _ .lost => .lost
  | .serving _ .held => .held
  | .serving _ .granted => .granted
  | .serving _ .answering => .answering
  | _ => .idle

/-- No request is between the client's `send` and `receive`. -/
def away : Stage → Bool
  | .serving _ _ => false
  | _ => true

/-- The requests on their way to the backend. -/
def queued : Stage → List Grid
  | .serving g .queued => [g]
  | _ => []

/-- The responses on their way back. -/
def answers : Stage → Nat
  | .serving _ .responded => 1
  | _ => 0

end Stage

theorem token_asked {st : Stage} {k : ExperimentalKey} (h : st.token = .asked k) :
    ∃ g, st = .serving g .asked ∧ k = g.x := by
  cases st with
  | serving g hop => cases hop <;> cases h; exact ⟨g, rfl, rfl⟩
  | _ => cases h

/-- The token of a request in the backend tells its hop. -/
theorem serving_of_token {st : Stage} (g0 : Grid) (hop : Hop) (hp : hop.pooled = true)
    (h : st.token = Stage.token (.serving g0 hop)) : ∃ g, st = .serving g hop := by
  cases st with
  | serving g hop' => cases hop <;> cases hop' <;> simp_all [Hop.pooled, Stage.token]
  | _ => cases hop <;> simp_all [Hop.pooled, Stage.token]

/-- The backend's part of the client at a stage. -/
structure Serves (b : Backend) (st : Stage) : Prop where
  wf : b.arbiter.Wf
  view : b.view 0 = st.token.view
  requests : (b.tenants 0).requests.map (·.word 1) = st.queued.map (·.x)
  responses : (b.tenants 0).responses.length = st.answers
  updating : ∀ pkt, (b.tenants 0).pc = .updating pkt →
    ∃ g, st = .serving g .received ∧ pkt.word 1 = g.x

/-! ## Steps of the backend -/

section
variable {b b' : Backend} {st st' : Stage} {a : Backend.Action} {e : Backend.Event}

/-- At a stage with nothing on its way, the client's channels and thread hold no request. -/
theorem serves_quiet (hq : st.queued = []) (ha : st.answers = 0)
    (hne : ∀ g, st ≠ .serving g .received) :
    Serves b st ↔
      b.arbiter.Wf ∧ b.view 0 = st.token.view ∧ (b.tenants 0).requests = [] ∧
        (b.tenants 0).responses = [] ∧ ∀ pkt, (b.tenants 0).pc ≠ .updating pkt := by
  refine ⟨fun hserves => ?_, fun hquiet => ?_⟩
  · obtain ⟨hw, hv, hreq, hresp, hup⟩ := hserves
    rw [hq, List.map_nil, List.map_eq_nil_iff] at hreq
    rw [ha, List.length_eq_zero_iff] at hresp
    refine ⟨hw, hv, hreq, hresp, fun pkt hpc => ?_⟩
    obtain ⟨g, hst, -⟩ := hup pkt hpc
    exact hne g hst
  · obtain ⟨hw, hv, hreq, hresp, hup⟩ := hquiet
    exact ⟨hw, hv, by rw [hreq, hq]; rfl, by rw [hresp, ha]; rfl,
      fun pkt hpc => absurd hpc (hup pkt)⟩

theorem serves_away (ha : st.away = true) :
    Serves b st ↔
      b.arbiter.Wf ∧ b.view 0 = Token.idle.view ∧ (b.tenants 0).requests = [] ∧
        (b.tenants 0).responses = [] ∧ ∀ pkt, (b.tenants 0).pc ≠ .updating pkt := by
  have htok : st.token = .idle := by cases st <;> simp_all [Stage.token, Stage.away]
  have hq : st.queued = [] := by cases st <;> simp_all [Stage.queued, Stage.away]
  have hr : st.answers = 0 := by cases st <;> simp_all [Stage.answers, Stage.away]
  rw [← htok]
  refine serves_quiet hq hr fun g hst => ?_
  rw [hst] at ha
  cases ha

/-- The backend does not see a launch that has no request out. -/
theorem Serves.away (h : Serves b st) (ha : st.away = true) (ha' : st'.away = true) :
    Serves b st' := (serves_away ha').2 ((serves_away ha).1 h)

/-- A request on the channel is the open launch's. -/
theorem Serves.queued (h : Serves b st) {pkt : Packet} {rest : List Packet}
    (hreq : (b.tenants 0).requests = pkt :: rest) :
    ∃ g, st = .serving g .queued ∧ pkt.word 1 = g.x ∧ rest = [] := by
  have hq := h.requests
  rw [hreq] at hq
  cases st with
  | serving g hop =>
    cases hop <;> simp [Stage.queued] at hq
    exact ⟨g, rfl, hq⟩
  | _ => simp [Stage.queued] at hq

/-- A response on the channel answers the open launch. -/
theorem Serves.answered (h : Serves b st) {resp : String} {rest : List String}
    (hresp : (b.tenants 0).responses = resp :: rest) :
    ∃ g, st = .serving g .responded ∧ rest = [] := by
  have ha := h.responses
  rw [hresp] at ha
  cases st with
  | serving g hop =>
    cases hop <;> simp [Stage.answers] at ha
    exact ⟨g, rfl, ha⟩
  | _ => simp [Stage.answers] at ha

/-- A step of the backend keeps the stage, or moves the open launch's request one hop. -/
def Hops (st : Stage) (e : Backend.Event) (b' : Backend) : Prop :=
  (Stage.Step st (.backend e) st ∧ Serves b' st) ∨
    ∃ g hop hop', st = .serving g hop ∧ Stage.Step st (.backend e) (.serving g hop') ∧
      Serves b' (.serving g hop')

theorem serves_pooled {g : Grid} {hop : Hop} (hp : hop.pooled = true) :
    Serves b (.serving g hop) ↔
      b.arbiter.Wf ∧ b.view 0 = (Stage.token (.serving g hop)).view ∧
        (b.tenants 0).requests = [] ∧ (b.tenants 0).responses = [] ∧
        ∀ pkt, (b.tenants 0).pc ≠ .updating pkt := by
  have hq : Stage.queued (.serving g hop) = [] := by cases hop <;> cases hp <;> rfl
  have ha : Stage.answers (.serving g hop) = 0 := by cases hop <;> cases hp <;> rfl
  refine serves_quiet hq ha fun g' hst => ?_
  cases hst
  cases hp

/-- A step that changes nothing of the client's part. -/
theorem Serves.keep (h : Serves b st) (ho : e.own 0 = none ∨ e.own 0 = some (.retrieved none 0))
    (hw : b'.arbiter.Wf) (hv : b'.view 0 = st.token.view)
    (hreq : (b'.tenants 0).requests = (b.tenants 0).requests)
    (hresp : (b'.tenants 0).responses = (b.tenants 0).responses)
    (hup : ∀ pkt, (b'.tenants 0).pc = .updating pkt → (b.tenants 0).pc = .updating pkt) :
    Hops st e b' :=
  .inl ⟨.other ho, hw, hv, by rw [hreq, h.requests], by rw [hresp, h.responses],
    fun pkt hpc => h.updating pkt (hup pkt hpc)⟩

theorem Serves.keep_tenant (h : Serves b st)
    (ho : e.own 0 = none ∨ e.own 0 = some (.retrieved none 0)) (hw : b'.arbiter.Wf)
    (hv : b'.view 0 = st.token.view) (ht : b'.tenants 0 = b.tenants 0) : Hops st e b' :=
  h.keep ho hw hv (by rw [ht]) (by rw [ht]) (by simp [ht])

/-- A call on the pool that does not post leaves the token alone or moves a request that is past
its `update`. -/
theorem token_hops {o : Backend.Own} {tok : Token} (hs : Token.Step st.token o tok)
    (hne : ∀ k, o ≠ .updated k) :
    (o = .retrieved none 0 ∧ tok = st.token) ∨
      ∃ g hop hop', st = .serving g hop ∧ hop.pooled = true ∧
        (hop'.pooled = true ∨ hop' = .responded ∧ o = .responded) ∧
        Stage.Step st (.backend (o.event 0)) (.serving g hop') ∧
        tok = Stage.token (.serving g hop') := by
  generalize htok : st.token = tok0 at hs
  cases hs with
  | post k => exact absurd rfl (hne k)
  | poll he => exact .inl ⟨rfl, rfl⟩
  | take hk =>
    obtain ⟨g, rfl, rfl⟩ := token_asked htok
    exact .inr ⟨g, .asked, .held, rfl, rfl, .inl rfl, .take hk, rfl⟩
  | drop =>
    obtain ⟨g, rfl, hg⟩ := token_asked htok
    exact .inr ⟨g, .asked, .lost, rfl, rfl, .inl rfl, hg ▸ .drop hg.symm, rfl⟩
  | release =>
    obtain ⟨g, rfl⟩ := serving_of_token .unit .held rfl htok
    exact .inr ⟨g, .held, .granted, rfl, rfl, .inl rfl, .release, rfl⟩
  | wake =>
    obtain ⟨g, rfl⟩ := serving_of_token .unit .granted rfl htok
    exact .inr ⟨g, .granted, .answering, rfl, rfl, .inl rfl, .wait, rfl⟩
  | answer =>
    obtain ⟨g, rfl⟩ := serving_of_token .unit .answering rfl htok
    exact .inr ⟨g, .answering, .responded, rfl, rfl, .inr ⟨rfl, rfl⟩, .respond, rfl⟩

theorem arbiterStep_hops (h : Serves b st) (hw : b'.arbiter.Wf)
    (hf : Backend.Follows 0 st.token e b') (hs : ArbiterStep b e b') : Hops st e b' := by
  have ht : b'.tenants 0 = b.tenants 0 := by cases hs <;> rfl
  unfold Backend.Follows at hf
  split at hf
  · rename_i o ho
    obtain ⟨tok, hst, hv⟩ := hf
    obtain rfl := Backend.own_eq_some.1 ho
    have hne : ∀ k, o ≠ .updated k := by
      rintro k rfl
      cases hs
    have hne' : o ≠ .responded := by
      rintro rfl
      cases hs
    rcases token_hops hst hne with ⟨rfl, rfl⟩ | ⟨g, hop, hop', rfl, hp, hp', hstep, rfl⟩
    · exact h.keep_tenant (.inr ho) hw hv ht
    · have hp'' := hp'.resolve_right fun h => hne' h.2
      obtain ⟨-, -, hrest⟩ := (serves_pooled hp).1 h
      exact .inr ⟨g, hop, hop', rfl, hstep, (serves_pooled hp'').2 ⟨hw, hv, ht ▸ hrest⟩⟩
  · rename_i ho
    exact h.keep_tenant (.inl ho) hw hf ht

/-- The client's thread in the backend takes the open launch's request from `receive` to its
answer. -/
theorem tenantStep_hops (h : Serves b st) (hw : b'.arbiter.Wf)
    (hf : Backend.Follows 0 st.token e b') (hs : TenantStep b 0 e b') : Hops st e b' := by
  cases hs with
  | @receive pkt rest hpc hreq =>
    obtain ⟨g, rfl, hword, rfl⟩ := h.queued hreq
    refine .inr ⟨g, .queued, .received, rfl, .receive, hw, hf, ?_, ?_, ?_⟩
    · simp [Backend.setTenant, Stage.queued]
    · simpa [Backend.setTenant, Stage.answers] using h.responses
    · simp [Backend.setTenant, hword]
  | @update pkt hpc hnone =>
    obtain ⟨g, rfl, hg⟩ := h.updating pkt hpc
    obtain ⟨tok, hst, hv⟩ := hf
    have hreq := h.requests
    have hresp := h.responses
    rw [hg] at hst
    cases hst
    refine .inr ⟨g, .received, .asked, rfl, by rw [hg]; exact .update,
      (serves_pooled rfl).2 ⟨hw, hv, ?_⟩⟩
    simp_all [Backend.setTenant, Stage.queued, Stage.answers]
  | fail hpc hmem =>
    obtain ⟨tok, hst, -⟩ := hf
    generalize st.token = tok0 at hst
    cases hst
  | record hpc hi hr =>
    exact h.keep (.inl rfl) hw hf (by simp [Backend.setTenant]) (by simp [Backend.setTenant])
      (by simp [Backend.setTenant])
  | recordsDone hpc hi =>
    exact h.keep (.inl rfl) hw hf (by simp [Backend.setTenant]) (by simp [Backend.setTenant])
      (by simp [Backend.setTenant])
  | wait hpc hr =>
    obtain ⟨tok, hst, hv⟩ := hf
    rcases token_hops hst (by simp) with ⟨ho, -⟩ | ⟨g, hop, hop', rfl, hp, hp', hstep, rfl⟩
    · cases ho
    · obtain ⟨-, -, hreq, hresp, -⟩ := (serves_pooled hp).1 h
      refine .inr ⟨g, hop, hop', rfl, hstep, (serves_pooled (by simpa using hp')).2 ⟨hw, hv, ?_⟩⟩
      simp [Backend.setTenant, hreq, hresp]
  | respond hpc =>
    obtain ⟨tok, hst, hv⟩ := hf
    generalize htok : st.token = tok0 at hst
    cases hst
    obtain ⟨g, rfl⟩ := serving_of_token .unit .answering rfl htok
    obtain ⟨-, -, hreq, hresp, -⟩ := (serves_pooled rfl).1 h
    refine .inr ⟨g, .answering, .responded, rfl, .respond, hw, hv, ?_, ?_, ?_⟩
    · simp [Backend.setTenant, Stage.queued, hreq]
    · simp [Backend.setTenant, Stage.answers, hresp]
    · simp [Backend.setTenant]

/-- **A step of the backend** keeps the stage or moves the request one hop. -/
theorem backend_hops (h : Serves b st) (ho : ownAction a = true) (hs : b.next a = some (e, b')) :
    Hops st e b' := by
  obtain ⟨hw, hf⟩ := Backend.next_follows h.wf hs h.view
  obtain ⟨-, henv | ⟨t, rfl, ht⟩ | ⟨rfl, harb⟩⟩ := next_step hs
  · cases henv with
    | queue t pkt =>
      have ht : t ≠ 0 := by simpa [ownAction] using ho
      exact h.keep_tenant (.inl rfl) hw hf (by simp [Backend.setTenant, ht.symm])
    | @take t resp rest hresp =>
      have ht : t ≠ 0 := by simpa [ownAction] using ho
      exact h.keep_tenant (.inl rfl) hw hf (by simp [Backend.setTenant, ht.symm])
  · by_cases h0 : 0 = t
    · subst h0
      exact tenantStep_hops h hw hf ht
    · obtain ⟨hown, hv⟩ := Backend.tenantStep_other ht h0
      have hkeep : b'.tenants 0 = b.tenants 0 := by cases ht <;> simp [Backend.setTenant, h0]
      exact h.keep_tenant (.inl hown) hw (by rw [hv, h.view]) hkeep
  · exact arbiterStep_hops h hw hf harb

/-- The client's request arrives. -/
theorem queue_serves {g : Grid} {pkt : Packet} (h : Serves b (.sending g)) (hpkt : pkt.word 1 = g.x)
    (hs : b.next (.queue 0 pkt) = some (e, b')) : Serves b' (.serving g .queued) := by
  obtain ⟨hw, hf⟩ := Backend.next_follows h.wf hs h.view
  obtain ⟨-, henv | ⟨t, ht, -⟩ | ⟨ht, -⟩⟩ := next_step hs
  · have hreq : (b.tenants 0).requests = [] := List.map_eq_nil_iff.1 h.requests
    cases henv with
    | queue t pkt =>
      refine ⟨hw, hf, ?_, ?_, fun pkt' hpc => ?_⟩
      · simp [Backend.setTenant, hreq, Stage.queued, hpkt]
      · simpa [Backend.setTenant, Stage.answers] using h.responses
      · obtain ⟨g', hst, -⟩ := h.updating pkt' (by simpa [Backend.setTenant] using hpc)
        cases hst
  · cases ht
  · cases ht

/-- The client takes the response. -/
theorem take_serves (h : Serves b st) (hs : b.next (.take 0) = some (e, b')) :
    ∃ g, st = .serving g .responded ∧ Serves b' (.notifying g true) := by
  obtain ⟨hw, hf⟩ := Backend.next_follows h.wf hs h.view
  obtain ⟨-, henv | ⟨t, ht, -⟩ | ⟨ht, -⟩⟩ := next_step hs
  · cases henv with
    | @take t resp rest hresp =>
      obtain ⟨g, rfl, rfl⟩ := h.answered hresp
      refine ⟨g, rfl, hw, hf, ?_, ?_, fun pkt' hpc => ?_⟩
      · simpa [Backend.setTenant, Stage.queued] using h.requests
      · simp [Backend.setTenant, Stage.answers]
      · obtain ⟨g', hst, -⟩ := h.updating pkt' (by simpa [Backend.setTenant] using hpc)
        cases hst
  · cases ht
  · cases ht

end

end Propreact.System
