import Propreact.Backend.Proof.Steps
import Propreact.Client.Proof.Follow
import Propreact.Client.Proof.Steps
import Propreact.Client.Startup

/-!
# What the flags at the start decide

Each flag that no constructor sets decides about one guarantee, whatever the others hold
(`startup_iff`). Where a flag is lowered at the start, what was waited for is paid for by what was
notified or released (`flags_step`, `owed_step`); where it is raised, a run of a few steps breaks
the guarantee.
-/

namespace Propreact.Startup

inductive Step (s : Startup) : Event → Startup → Prop
  | build {channels : Predictor.Channels} :
    s.channels ≠ .both → Step s .built { s with channels }
  | unbuilt {a : System.Action} : s.callsUnbuilt a = true → Step s .unbuilt s
  | run {a : System.Action} {e : System.Event} {sys : System} :
    s.isEarly a = false → s.sys.next a = some (e, sys) → Step s (.ran e) { s with sys }

theorem next_step {s s' : Startup} {a : Action} {e : Event} (h : s.next a = some (e, s')) :
    Step s e s' := by
  cases a with
  | build =>
    simp only [next] at h
    split at h
    · rename_i hc
      cases h
      exact .build (by simp [hc])
    · rename_i hc
      cases h
      exact .build (by simp [hc])
    · cases h
  | run a =>
    simp only [next] at h
    split at h
    · cases h
    · rename_i hearly
      split at h
      · rename_i hcalls
        cases h
        exact .unbuilt hcalls
      · split at h
        · rename_i hn
          cases h
          exact .run (by simpa using hearly) hn
        · cases h

section
variable {sys sys' : System} {a : System.Action} {e : System.Event}

/-- Each return from a `Wait` uses up a `Notify`. -/
theorem flags_step (h : sys.next a = some (e, sys')) :
    [e].count .woke + sys'.trig.ready1.toNat ≤ sys.trig.ready1.toNat + [e].count .notified1 ∧
      [e].count .returned + sys'.trig.ready2.toNat ≤
        sys.trig.ready2.toNat + [e].count .notified2 := by
  cases System.next_step h with
  | launch g happ => simp [Trigger.writeData]
  | notify happ hn =>
    cases hn
    simp
  | «return» happ hw =>
    obtain ⟨hr, rfl⟩ := System.wait_two hw
    simp [hr]
  | predictor hs =>
    cases hs with
    | wake hpc hw =>
      obtain ⟨hr, rfl⟩ := System.wait_one hw
      simp [hr]
    | notify hpc hn =>
      cases hn
      simp
    | _ => simp
  | backend ho hb => simp

/-- The answers that tenant 0's client gets without another release. -/
def owed (b : Backend) : Nat :=
  (b.tenants 0).responses.length + (b.pool.tenantReady 0).toNat +
    match (b.tenants 0).pc with
    | .responding => 1
    | _ => 0

/-- An answer is taken once for each release. -/
theorem owed_step {b b' : Backend} {a : Backend.Action} {e : Backend.Event}
    (h : b.next a = some (e, b')) :
    [e].count (.taken 0) + owed b' ≤ owed b + [e].count (.released 0) := by
  obtain ⟨-, henv | ⟨t, -, hs⟩ | ⟨-, hs⟩⟩ := Backend.next_step h
  · cases henv with
    | queue t pkt => by_cases ht : 0 = t <;> simp [owed, Backend.setTenant, ht]
    | @take t resp rest hresp =>
      by_cases ht : 0 = t
      · subst ht
        simp [owed, Backend.setTenant, hresp]
        omega
      · simp [owed, Backend.setTenant, ht, Ne.symm ht]
  · by_cases ht : 0 = t
    · subst ht
      cases hs with
      | receive hpc hreq => simp [owed, Backend.setTenant, hpc]
      | update hpc hnone => simp [owed, Backend.setTenant, hpc]
      | fail hpc hsome => simp [owed, hpc]
      | record hpc hi hrec => simp [owed, Backend.setTenant, hpc]
      | recordsDone hpc hi => simp [owed, Backend.setTenant, hpc]
      | wait hpc hr => simp [owed, Backend.setTenant, hpc, hr]
      | respond hpc =>
        simp [owed, Backend.setTenant, hpc]
        omega
    · cases hs <;> simp [owed, Backend.setTenant, ht]
  · cases hs with
    | @release t search harb =>
      by_cases ht : 0 = t
      · subst ht
        simp [owed]
        omega
      · simp [owed, ht, Ne.symm ht]
    | _ => simp [owed]

/-- The backend's part of a step of the system. -/
theorem system_owed (h : sys.next a = some (e, sys')) :
    [e].count .answered + owed sys'.backend ≤
      owed sys.backend + [e].count (.backend (.released 0)) := by
  cases System.next_step h with
  | predictor hs =>
    cases hs with
    | send hpc hq =>
      have hle := owed_step hq
      obtain ⟨-, henv | ⟨t, ht, -⟩ | ⟨ht, -⟩⟩ := Backend.next_step hq
      · cases henv
        simpa using hle
      · cases ht
      · cases ht
    | answer hpc ht =>
      have hle := owed_step ht
      obtain ⟨-, henv | ⟨t, ht, -⟩ | ⟨ht, -⟩⟩ := Backend.next_step ht
      · cases henv
        simpa using hle
      · cases ht
      · cases ht
    | _ => simp
  | @backend a be backend ho hb =>
    have hle := owed_step hb
    have hcount : [System.Event.backend be].count (.backend (.released 0)) =
        [be].count (.released 0) := by simp [List.count_singleton]
    have hnone : [System.Event.backend be].count .answered = 0 := by simp
    rw [hcount, hnone]
    show 0 + owed backend ≤ _
    omega
  | _ => simp

end

/-! ## Lowered flags -/

section
variable {ready1 ready2 : Bool} {ready : TenantId → Bool} {pkt : Vector ULong pktWords}
  {tr : List Event} {s s' : Startup} {e : Event}

theorem step_of_lts (h : (lts ready1 ready2 ready pkt).step s e s') : Step s e s' := by
  obtain ⟨a, ha⟩ := h
  exact next_step ha

/-- Before the constructor returns, a predictor that was not woken sleeps. -/
structure Asleep (s : Startup) : Prop where
  app : s.sys.app = .idle
  ready1 : s.sys.trig.ready1 = false
  pc : s.sys.pc = .waiting

theorem asleep_step {a : System.Action} {e : System.Event} {sys : System} (h : Asleep s)
    (hearly : s.isEarly a = false) (hc : s.channels ≠ .both) (hn : s.sys.next a = some (e, sys)) :
    Asleep { s with sys } := by
  obtain ⟨happ, hr, hpc⟩ := h
  cases System.next_step hn with
  | launch g _ => simp [isEarly, hc] at hearly
  | notify happ' _ => rw [happ] at happ'; cases happ'
  | «return» happ' _ => rw [happ] at happ'; cases happ'
  | backend ho hb => exact ⟨happ, hr, hpc⟩
  | predictor hs =>
    cases hs with
    | wake hpc' hw => rw [(System.wait_one hw).1] at hr; cases hr
    | read hpc' => rw [hpc] at hpc'; cases hpc'
    | mark hpc' => rw [hpc] at hpc'; cases hpc'
    | encode hpc' => rw [hpc] at hpc'; cases hpc'
    | send hpc' => rw [hpc] at hpc'; cases hpc'
    | answer hpc' => rw [hpc] at hpc'; cases hpc'
    | notify hpc' => rw [hpc] at hpc'; cases hpc'

/-- No channel is called before it exists. -/
theorem built_of_lowered (h : (lts false ready2 ready pkt).Run tr s) :
    .unbuilt ∉ tr ∧ (s.channels ≠ .both → Asleep s) := by
  refine h.trace_inv (I := fun tr s => .unbuilt ∉ tr ∧ (s.channels ≠ .both → Asleep s)) ?_ ?_
  · intro s hs
    rw [show s = start false ready2 ready pkt from hs]
    exact ⟨by simp, fun _ => ⟨rfl, rfl, rfl⟩⟩
  · intro tr s e s' _ hI hs
    obtain ⟨hno, hasleep⟩ := hI
    cases step_of_lts hs with
    | build hc => exact ⟨by simpa using hno, fun _ => ⟨(hasleep hc).app, (hasleep hc).ready1,
        (hasleep hc).pc⟩⟩
    | @unbuilt a hcalls =>
      have hc : s.channels ≠ .both := by
        intro hboth
        cases a <;> simp only [callsUnbuilt, hboth] at hcalls
        · cases hcalls
        · cases hcalls
        · split at hcalls <;> simp at hcalls
        · cases hcalls
      have hpc := (hasleep hc).pc
      cases a <;> simp [callsUnbuilt, hpc] at hcalls
    | run hearly hn =>
      exact ⟨by simpa using hno, fun hc => asleep_step (hasleep hc) hearly hc hn⟩

theorem count_ran (tr : List Event) (e e' : System.Event) :
    (tr ++ [Event.ran e]).count (Event.ran e') = tr.count (Event.ran e') + [e].count e' := by
  rw [List.count_append]
  simp [List.count_singleton]

/-- What the threads wait for is paid for. -/
theorem paid (h : (lts ready1 ready2 ready pkt).Run tr s) :
    tr.count (.ran .woke) + s.sys.trig.ready1.toNat ≤
        ready1.toNat + tr.count (.ran .notified1) ∧
      tr.count (.ran .returned) + s.sys.trig.ready2.toNat ≤
        ready2.toNat + tr.count (.ran .notified2) ∧
      tr.count (.ran .answered) + owed s.sys.backend ≤
        (ready 0).toNat + tr.count (.ran (.backend (.released 0))) := by
  refine h.trace_inv (I := fun tr s =>
    tr.count (.ran .woke) + s.sys.trig.ready1.toNat ≤
        ready1.toNat + tr.count (.ran .notified1) ∧
      tr.count (.ran .returned) + s.sys.trig.ready2.toNat ≤
        ready2.toNat + tr.count (.ran .notified2) ∧
      tr.count (.ran .answered) + owed s.sys.backend ≤
        (ready 0).toNat + tr.count (.ran (.backend (.released 0)))) ?_ ?_
  · intro s hs
    rw [show s = start ready1 ready2 ready pkt from hs]
    simp [start, owed, Backend.start, RequestPool.new]
  · intro tr s e s' _ hI hs
    obtain ⟨h1, h2, h3⟩ := hI
    cases step_of_lts hs with
    | build hc => simpa [List.count_append] using ⟨h1, h2, h3⟩
    | unbuilt hcalls => simpa [List.count_append] using ⟨h1, h2, h3⟩
    | run hearly hn =>
      obtain ⟨hf1, hf2⟩ := flags_step hn
      have hf3 := system_owed hn
      simp only [count_ran]
      omega

end

/-! ## Raised flags -/

/-- The thread takes a turn with the trigger's first grid. -/
def turnOnItsOwn : List Action := List.replicate 4 (.run (.predictor 0 fun _ => 0))

/-- A launch up to its return. -/
def launchOnItsOwn : List Action :=
  [.build, .build, .run (.launch ⟨5, 1, 1⟩), .run .app, .run .app]

/-- A launch up to the response of the backend's thread, without the Arbiter. -/
def answerOnItsOwn : List Action :=
  [.build, .build, .run (.launch ⟨5, 1, 1⟩), .run .app] ++
  List.replicate 4 (.run (.predictor 0 fun _ => 0)) ++
  List.replicate 5 (.run (.backend (.tenant 0))) ++ [.run (.predictor 0 fun _ => 0)]

section
variable (ready1 ready2 : Bool) (ready : TenantId → Bool)

theorem woken_early : ∃ s, (lts true ready2 ready (Vector.replicate pktWords 0)).Run
    [.ran .woke, .ran (.readData .unit), .ran (.encoded .unit), .unbuilt] s :=
  ⟨_, Lts.run_schedule (start true ready2 ready (Vector.replicate pktWords 0)) next
    turnOnItsOwn rfl⟩

theorem returned_early : ∃ s, (lts ready1 true ready (Vector.replicate pktWords 0)).Run
    [.built, .built, .ran (.launched ⟨5, 1, 1⟩), .ran .notified1, .ran .returned] s :=
  ⟨_, Lts.run_schedule (start ready1 true ready (Vector.replicate pktWords 0)) next
    launchOnItsOwn rfl⟩

theorem answered_early (hready : ready 0 = true) : ∃ tr s,
    (lts ready1 ready2 ready (Vector.replicate pktWords 0)).Run tr s ∧
      tr.count (.ran .answered) = 1 ∧ tr.count (.ran (.backend (.released 0))) = 0 := by
  have hflags : ready = fun t => if t = 0 then true else ready 1 := by
    funext t
    by_cases ht : t = 0
    · rw [if_pos ht, ht, hready]
    · have hone : ∀ t : TenantId, t ≠ 0 → t = 1 := by decide
      rw [if_neg ht, hone t ht]
  rw [hflags]
  cases ready1 <;> cases ready2 <;> cases ready 1 <;>
    exact ⟨_, _, Lts.run_schedule (start _ _ _ (Vector.replicate pktWords 0)) next
      answerOnItsOwn rfl, by decide, by decide⟩

/-- **One flag, one guarantee.** Whatever the other flags hold at the start: the predictor's thread
never calls a channel before it exists, and never returns from `Wait(1)` more often than
`Notify(1)` was called, if and only if `m_ready_1` starts lowered; launches return at most once for
each `Notify(2)` if and only if `m_ready_2` does; and a request is answered at most once for each
release if and only if `m_tenant_ready[0]` does. -/
theorem startup_iff :
    ((∀ pkt tr s, (lts ready1 ready2 ready pkt).Run tr s → .unbuilt ∉ tr) ↔ ready1 = false) ∧
    ((∀ pkt tr s, (lts ready1 ready2 ready pkt).Run tr s →
      tr.count (.ran .woke) ≤ tr.count (.ran .notified1)) ↔ ready1 = false) ∧
    ((∀ pkt tr s, (lts ready1 ready2 ready pkt).Run tr s →
      tr.count (.ran .returned) ≤ tr.count (.ran .notified2)) ↔ ready2 = false) ∧
    ((∀ pkt tr s, (lts ready1 ready2 ready pkt).Run tr s →
      tr.count (.ran .answered) ≤ tr.count (.ran (.backend (.released 0)))) ↔ ready 0 = false) := by
  refine ⟨⟨fun hall => ?_, fun hlow pkt tr s h => ?_⟩, ⟨fun hall => ?_, fun hlow pkt tr s h => ?_⟩,
    ⟨fun hall => ?_, fun hlow pkt tr s h => ?_⟩, ⟨fun hall => ?_, fun hlow pkt tr s h => ?_⟩⟩
  · cases ready1 with
    | false => rfl
    | true =>
      obtain ⟨s, hrun⟩ := woken_early ready2 ready
      exact absurd (by decide) (hall _ _ _ hrun)
  · subst hlow
    exact (built_of_lowered h).1
  · cases ready1 with
    | false => rfl
    | true =>
      obtain ⟨s, hrun⟩ := woken_early ready2 ready
      exact absurd (hall _ _ _ hrun) (by decide)
  · subst hlow
    have hpaid := (paid h).1
    simp at hpaid
    omega
  · cases ready2 with
    | false => rfl
    | true =>
      obtain ⟨s, hrun⟩ := returned_early ready1 ready
      exact absurd (hall _ _ _ hrun) (by decide)
  · subst hlow
    have hpaid := (paid h).2.1
    simp at hpaid
    omega
  · by_contra hne
    obtain ⟨tr, s, hrun, hans, hrel⟩ := answered_early ready1 ready2 ready (by simpa using hne)
    have hle := hall _ _ _ hrun
    omega
  · have hpaid := (paid h).2.2
    rw [hlow] at hpaid
    simp at hpaid
    omega

end

end Propreact.Startup
