import Propreact.Backend.Proof.Decode
import Propreact.Window.Proof.Lock
import Propreact.Window.Proof.Tables

/-!
# Messages are worked through in order

A step moves calls of a tenant's messages from the ones to be made to the ones made
(`next_unmade`), and the calls made are what the tenant's tables take in (`next_takesIn`). So along
every schedule each tenant's thread makes the calls of its messages in the order of their arrival
(`calls_in_order`), and the tables of the tenant hold what these calls brought (`tables_hold`),
whatever the other threads do.
-/

namespace Propreact.Backend

open GlobalWindow (Op Pushes forTenant idleCalls activeCalls dummy)

variable {s s' : Backend} {t : TenantId} {a : Action} {e : Event} {as : List Action}
  {tr : List Event}

/-! ## One step -/

theorem tenantStep_unmade (h : TenantStep s t e s') (hab : s'.aborted = false) :
    unmade t (s.tenants t) = (nextCall t (s.tenants t).pc).toList ++ unmade t (s'.tenants t) := by
  cases h with
  | receive hpc hreq => simp [unmade, callsLeft, nextCall, setTenant, hpc, hreq]
  | update hpc hnone => simp [unmade, callsLeft, nextCall, setTenant, hpc, parsed]
  | fail hpc hsome => cases hab
  | @record pkt i gwin hpc hi hrec =>
    have hlt : i + 1 < (parsed t pkt).length := by
      rw [length_parsed]
      omega
    have hcall : (parsed t pkt)[i + 1] = .window (recordOp t pkt i) := by simp [parsed]
    simp only [unmade, callsLeft, nextCall, setTenant, hpc, Function.update_self, if_pos hi]
    rw [List.drop_eq_getElem_cons hlt, hcall]
    rfl
  | @recordsDone pkt i hpc hi =>
    have hdone : (parsed t pkt).drop (i + 1) = [] := by
      rw [List.drop_eq_nil_iff, length_parsed]
      omega
    simp [unmade, callsLeft, nextCall, setTenant, hpc, hi, hdone]
  | wait hpc hr => simp [unmade, callsLeft, nextCall, setTenant, hpc]
  | respond hpc => simp [unmade, callsLeft, nextCall, setTenant, hpc]

theorem unmade_of_eq {b b' : InterposerBackend} (hpc : b'.pc = b.pc)
    (hreq : b'.requests = b.requests) : unmade t b' = unmade t b := by
  rw [unmade, unmade, hpc, hreq]

/-- What was to be made and what is asked for now is made or still to be made. -/
theorem next_unmade (h : s.next a = some (e, s')) (hab : s'.aborted = false) :
    unmade t (s.tenants t) ++ asked t a = made t s a ++ unmade t (s'.tenants t) := by
  obtain ⟨-, henv | ⟨u, rfl, hs⟩ | ⟨rfl, hs⟩⟩ := next_step h
  · cases henv with
    | queue u pkt =>
      by_cases hu : u = t
      · subst hu
        simp [unmade, asked, made, setTenant]
      · simp [asked, made, setTenant, hu, Ne.symm hu]
    | @take u resp rest hresp =>
      have hkeep : unmade t ((s.setTenant u { s.tenants u with responses := rest }).tenants t) =
          unmade t (s.tenants t) := by
        apply unmade_of_eq <;> by_cases hu : t = u <;> simp [setTenant, hu]
      rw [hkeep]
      exact List.append_nil _
  · have hasked : asked t (.tenant u) = [] := rfl
    rw [hasked, List.append_nil, made]
    by_cases hu : u = t
    · subst hu
      rw [if_pos rfl]
      exact tenantStep_unmade hs hab
    · have hframe : s'.tenants t = s.tenants t := by
        cases hs <;> simp [setTenant, Ne.symm hu]
      rw [if_neg hu, hframe]
      rfl
  · have hframe : s'.tenants t = s.tenants t := by cases hs <;> rfl
    rw [hframe]
    exact List.append_nil _

/-- A call that returns pushes what it brings. -/
theorem pushes_of_ret {op : Op} {gw gw' : GlobalWindow} (h : gw.exec op = .ret gw') :
    Pushes gw op gw' := by
  cases hm : gw.mutex with
  | false =>
    have hunlock : gw.unlock = gw := by
      cases gw
      cases hm
      rfl
    exact GlobalWindow.pushes_of_exec (by rw [hunlock, h])
  | true =>
    cases op with
    | updateIdle k va vi t =>
      obtain ⟨gw1, h1, hp⟩ := GlobalWindow.exec_tables gw (.updateIdle k va vi t)
      simp only [GlobalWindow.exec, GlobalWindow.updateIdle_eq] at h h1
      cases h
      cases h1
      exact ⟨hp.idle, hp.active⟩
    | _ =>
      simp [GlobalWindow.exec, GlobalWindow.produce, GlobalWindow.consume,
        GlobalWindow.updateActive, GlobalWindow.retrieveIdle, GlobalWindow.retrieveActive,
        GlobalWindow.lock_held hm] at h

/-- The tables of a tenant take in what its thread's calls bring. -/
structure TakesIn (t : TenantId) (gw : GlobalWindow) (ops : List Op) (gw' : GlobalWindow) :
    Prop where
  idle : gw'.tenantsIdleMapVector t =
    QueueTable.adds (gw.tenantsIdleMapVector t) (forTenant t (ops.filterMap Op.idle))
  active : gw'.tenantsActiveMapVector t =
    QueueTable.adds (gw.tenantsActiveMapVector t) (forTenant t (ops.filterMap Op.active))

theorem TakesIn.refl (t : TenantId) (gw : GlobalWindow) : TakesIn t gw [] gw := ⟨rfl, rfl⟩

theorem TakesIn.trans {gw gw1 gw2 : GlobalWindow} {ops ops' : List Op} (h : TakesIn t gw ops gw1)
    (h' : TakesIn t gw1 ops' gw2) : TakesIn t gw (ops ++ ops') gw2 := by
  refine ⟨?_, ?_⟩
  · rw [h'.idle, h.idle, ← QueueTable.adds_append, List.filterMap_append,
      GlobalWindow.forTenant_append]
  · rw [h'.active, h.active, ← QueueTable.adds_append, List.filterMap_append,
      GlobalWindow.forTenant_append]

theorem takesIn_of_pushes {op : Op} {gw gw' : GlobalWindow} (h : Pushes gw op gw') :
    TakesIn t gw [op] gw' := by
  refine ⟨?_, ?_⟩
  · rw [h.idle, List.filterMap_cons, List.filterMap_nil]
    cases op.idle <;> rfl
  · rw [h.active, List.filterMap_cons, List.filterMap_nil]
    cases op.active <;> rfl

/-- Another tenant's records go to that tenant's tables. -/
theorem takesIn_other {u : TenantId} {pkt : Packet} {i : Nat} {gw gw' : GlobalWindow}
    (h : Pushes gw (recordOp u pkt i) gw') (hu : u ≠ t) : TakesIn t gw [] gw' := by
  refine ⟨?_, ?_⟩
  · rw [h.idle]
    unfold recordOp
    split <;> simp [Op.idle, forTenant, hu]
  · rw [h.active]
    unfold recordOp
    split <;> simp [Op.active, forTenant, hu]

/-- A step of a thread that is no record. -/
theorem windowOps_made {u : TenantId}
    (h : windowOps (nextCall u (s.tenants u).pc).toList = []) :
    windowOps (made t s (.tenant u)) = [] := by
  rw [made]
  split
  · rename_i hu
    rwa [← hu]
  · rfl

theorem next_takesIn (h : s.next a = some (e, s')) :
    TakesIn t s.gwin (windowOps (made t s a)) s'.gwin := by
  obtain ⟨-, henv | ⟨u, rfl, hs⟩ | ⟨rfl, hs⟩⟩ := next_step h
  · cases henv <;> exact .refl t _
  · cases hs with
    | @record pkt i gwin hpc hi hrec =>
      rw [record_eq_exec] at hrec
      have hp := pushes_of_ret hrec
      rw [made]
      by_cases hu : u = t
      · subst hu
        rw [if_pos rfl, hpc, nextCall, if_pos hi]
        exact takesIn_of_pushes hp
      · rw [if_neg hu]
        exact takesIn_other hp hu
    | recordsDone hpc hi =>
      rw [windowOps_made (by rw [hpc, nextCall, if_neg hi]; rfl)]
      exact .refl t _
    | update hpc hnone => rw [windowOps_made (by rw [hpc]; rfl)]; exact .refl t _
    | fail hpc hsome => rw [windowOps_made (by rw [hpc]; rfl)]; exact .refl t _
    | receive hpc hreq => rw [windowOps_made (by rw [hpc]; rfl)]; exact .refl t _
    | wait hpc hr => rw [windowOps_made (by rw [hpc]; rfl)]; exact .refl t _
    | respond hpc => rw [windowOps_made (by rw [hpc]; rfl)]; exact .refl t _
  · cases hs with
    | @look u k search resp r harb hl =>
      have hret : s.gwin.exec (if u = 0 then .retrieveIdle u k else .retrieveActive u k) =
          .ret r.2 := by
        unfold lookup at hl
        split at hl <;> rename_i hu
        · rw [if_pos hu, GlobalWindow.exec, hl]
          rfl
        · rw [if_neg hu, GlobalWindow.exec, hl]
          rfl
      have hp := pushes_of_ret hret
      refine ⟨?_, ?_⟩
      · rw [hp.idle]
        split <;> rfl
      · rw [hp.active]
        split <;> rfl
    | _ => exact .refl t _

/-! ## Along a schedule -/

/-- A process that is gone stays as it is. -/
theorem aborted_stays (h : Lts.schedule next s as = some (tr, s')) (hab : s'.aborted = false) :
    s.aborted = false := by
  cases as with
  | nil =>
    cases h
    exact hab
  | cons a as =>
    obtain ⟨e, s1, tr1, hstep, -⟩ := Lts.schedule_cons.1 h
    exact (next_step hstep).1

theorem schedule_unmade (h : Lts.schedule next s as = some (tr, s')) (hab : s'.aborted = false) :
    unmade t (s.tenants t) ++ as.flatMap (asked t) =
      madeAlong t s as ++ unmade t (s'.tenants t) := by
  induction as generalizing s tr with
  | nil =>
    cases h
    simp [madeAlong]
  | cons a as ih =>
    obtain ⟨e, s1, tr1, hstep, hrest, rfl⟩ := Lts.schedule_cons.1 h
    rw [madeAlong, hstep, List.flatMap_cons, ← List.append_assoc,
      next_unmade hstep (aborted_stays hrest hab), List.append_assoc, ih hrest, List.append_assoc]

theorem windowOps_append (cs cs' : List Call) :
    windowOps (cs ++ cs') = windowOps cs ++ windowOps cs' := List.filterMap_append

theorem schedule_takesIn (h : Lts.schedule next s as = some (tr, s')) :
    TakesIn t s.gwin (windowOps (madeAlong t s as)) s'.gwin := by
  induction as generalizing s tr with
  | nil =>
    cases h
    exact .refl t _
  | cons a as ih =>
    obtain ⟨e, s1, tr1, hstep, hrest, rfl⟩ := Lts.schedule_cons.1 h
    rw [madeAlong, hstep, windowOps_append]
    exact (next_takesIn hstep).trans (ih hrest)

/-- **First come, first served.** However the threads interleave, and whatever the flags hold at
the start: as long as the process is not aborted, the calls that tenant `t`'s thread has made and
those it has still to make are the calls of the messages that have arrived for it, in their
order. -/
theorem calls_in_order {ready : TenantId → Bool}
    (h : Lts.schedule next (start ready) as = some (tr, s)) (hab : s.aborted = false)
    (t : TenantId) :
    madeAlong t (start ready) as ++ unmade t (s.tenants t) = as.flatMap (asked t) :=
  (schedule_unmade h hab).symm

/-- A message with a record under key 7, and one of two words. -/
def twoMessages : List Action :=
  [.queue 0 ⟨40, fun i => [40, 5, 7, 10, 20].getD i 0⟩, .queue 1 ⟨16, fun _ => 16⟩, .tenant 0,
    .tenant 0, .tenant 0, .queue 0 ⟨16, fun i => [16, 6].getD i 0⟩, .tenant 0]

theorem second_message_unmade : ∃ tr s,
    Lts.schedule next (start fun _ => true) twoMessages = some (tr, s) ∧
    unmade 0 (s.tenants 0) = [.update (0, 6)] ∧
    madeAlong 0 (start fun _ => true) twoMessages ++ unmade 0 (s.tenants 0) =
      twoMessages.flatMap (asked 0) :=
  ⟨_, _, rfl, rfl, calls_in_order rfl rfl 0⟩

/-- What the tables hold that have taken in some calls since the constructor. -/
theorem TakesIn.held {ops : List Op} {gw : GlobalWindow} (h : TakesIn t .new ops gw) (k : ULong) :
    gw.idleHeld t k = ↑(dummy k ++ idleCalls t k ops) ∧
      gw.activeHeld t k = ↑(dummy k ++ activeCalls t k ops) := by
  have hidle : GlobalWindow.new.tenantsIdleMapVector t = QueueTable.adds ∅ [(0, 0, 0)] :=
    (QueueTable.add_of_none (by simp) (0, 0)).symm
  have hactive : GlobalWindow.new.tenantsActiveMapVector t = QueueTable.adds ∅ [(0, 0, 0)] :=
    (QueueTable.add_of_none (by simp) (0, 0)).symm
  refine ⟨?_, ?_⟩
  · rw [GlobalWindow.idleHeld, h.idle, hidle, ← QueueTable.adds_append, idleCalls,
      ← GlobalWindow.valuesAt_forTenant, Multiset.coe_eq_coe]
    exact QueueTable.held_adds_empty
  · rw [GlobalWindow.activeHeld, h.active, hactive, ← QueueTable.adds_append, activeCalls,
      ← GlobalWindow.valuesAt_forTenant, Multiset.coe_eq_coe]
    exact QueueTable.held_adds_empty

/-- **The tables hold what the messages brought.** Along every schedule, whatever the other tenant
and the Arbiter do: tenant `t`'s queues hold exactly the pairs of the records that its thread has
recorded, and the constructor's pair under key 0. -/
theorem tables_hold {ready : TenantId → Bool}
    (h : Lts.schedule next (start ready) as = some (tr, s)) (t : TenantId) (k : ULong) :
    s.gwin.idleHeld t k =
        ↑(dummy k ++ idleCalls t k (windowOps (madeAlong t (start ready) as))) ∧
      s.gwin.activeHeld t k =
        ↑(dummy k ++ activeCalls t k (windowOps (madeAlong t (start ready) as))) :=
  (schedule_takesIn (t := t) h).held k

theorem first_message_held : ∃ tr s,
    Lts.schedule next (start fun _ => true) twoMessages = some (tr, s) ∧
    s.gwin.idleHeld 0 7 = {(10, 20)} := by
  have hrun : Lts.schedule next (start fun _ => true) twoMessages = some _ := rfl
  exact ⟨_, _, hrun, (tables_hold hrun 0 7).1⟩

end Propreact.Backend
