import Propreact.Backend.Decode
import Propreact.Backend.Proof.Steps

/-!
# The calls for a message

However the threads interleave, tenant `t`'s thread makes the calls of `parsed` for the message it
receives, in this order, and has made all of them when it waits for the release (`Parsing.calls`);
before its wait it stops only in a call that does not return (`Parsing.progress`).
-/

namespace Propreact.Backend

variable {s s' : Backend} {t : TenantId} {pkt : Packet} {e : Event} {a : Action} {cs : List Call}

theorem record_eq_exec (t : TenantId) (pkt : Packet) (i : Nat) (gwin : GlobalWindow) :
    record t pkt i gwin = gwin.exec (recordOp t pkt i) := by
  unfold record recordOp
  split <;> rfl

/-- Where tenant `t`'s thread is with the message, when it has made the calls `cs` for it. -/
def Parsing (t : TenantId) (pkt : Packet) (s : Backend) (cs : List Call) : Prop :=
  match (s.tenants t).pc with
  | .receiving => (∃ rest, (s.tenants t).requests = pkt :: rest) ∧ cs = []
  | .updating m => m = pkt ∧ (cs = [] ∨ s.aborted = true ∧ cs = (parsed t pkt).take 1)
  | .recording m i => m = pkt ∧ i ≤ pkt.numRecords.toNat ∧ cs = (parsed t pkt).take (i + 1)
  | .waiting => cs = parsed t pkt
  | .responding => False

/-- A step of someone else leaves the thread where it is, and its messages in front. -/
theorem Parsing.of_eq (h : Parsing t pkt s cs) (hab : s.aborted = false)
    (hpc : (s'.tenants t).pc = (s.tenants t).pc)
    (hreq : (s.tenants t).requests <+: (s'.tenants t).requests) : Parsing t pkt s' cs := by
  unfold Parsing at h ⊢
  rw [hpc]
  split at h
  · obtain ⟨⟨rest, hrest⟩, hcs⟩ := h
    rw [hrest] at hreq
    obtain ⟨more, hmore⟩ := hreq
    exact ⟨⟨rest ++ more, hmore.symm⟩, hcs⟩
  · obtain ⟨hm, hcs | ⟨ha, -⟩⟩ := h
    · exact ⟨hm, .inl hcs⟩
    · exact absurd ha (by simp [hab])
  all_goals exact h

theorem length_parsed (t : TenantId) (pkt : Packet) :
    (parsed t pkt).length = pkt.numRecords.toNat + 1 := by
  simp [parsed]

theorem parsed_succ {i : Nat} (hi : i < pkt.numRecords.toNat) :
    (parsed t pkt).take (i + 2) =
      (parsed t pkt).take (i + 1) ++ [.window (recordOp t pkt i)] := by
  have hlt : i + 1 < (parsed t pkt).length := by
    rw [length_parsed]
    omega
  rw [List.take_succ_eq_append_getElem hlt]
  simp [parsed]

/-- One step of the thread itself. -/
theorem Parsing.tenantStep (h : Parsing t pkt s cs) (hs : TenantStep s t e s')
    (hab : s.aborted = false) (hw : e ≠ .waited t) :
    Parsing t pkt s' (cs ++ (nextCall t (s.tenants t).pc).toList) := by
  unfold Parsing at h
  cases hs with
  | receive hpc hreq =>
    rw [hpc] at h ⊢
    obtain ⟨⟨rest, hrest⟩, rfl⟩ := h
    rw [hreq] at hrest
    cases hrest
    simp [Parsing, setTenant, nextCall]
  | update hpc hnone =>
    rw [hpc] at h ⊢
    obtain ⟨rfl, rfl | ⟨ha, -⟩⟩ := h
    · simp [Parsing, setTenant, nextCall, parsed]
    · exact absurd ha (by simp [hab])
  | fail hpc hsome =>
    rw [hpc] at h ⊢
    obtain ⟨rfl, rfl | ⟨ha, -⟩⟩ := h
    · unfold Parsing
      rw [hpc]
      exact ⟨rfl, .inr ⟨rfl, rfl⟩⟩
    · exact absurd ha (by simp [hab])
  | record hpc hi hrec =>
    rw [hpc] at h ⊢
    obtain ⟨rfl, -, rfl⟩ := h
    rw [nextCall, if_pos hi]
    unfold Parsing
    simp only [setTenant, Function.update_self]
    exact ⟨trivial, hi, (parsed_succ hi).symm⟩
  | recordsDone hpc hi =>
    rw [hpc] at h ⊢
    obtain ⟨rfl, hle, rfl⟩ := h
    rw [nextCall, if_neg hi, Option.toList_none, List.append_nil]
    simp only [Parsing, setTenant, Function.update_self]
    apply List.take_of_length_le
    rw [length_parsed]
    omega
  | wait hpc => exact absurd rfl hw
  | respond hpc =>
    rw [hpc] at h
    exact h.elim

/-- One step of any thread or of the environment. -/
theorem Parsing.step (h : Parsing t pkt s cs) (hn : s.next a = some (e, s'))
    (hw : e ≠ .waited t) : Parsing t pkt s' (cs ++ made t s a) := by
  obtain ⟨hab, henv | ⟨u, rfl, hs⟩ | ⟨rfl, hs⟩⟩ := next_step hn
  · have hmade : made t s a = [] := by cases henv <;> rfl
    rw [hmade, List.append_nil]
    cases henv with
    | queue u m => apply h.of_eq hab <;> by_cases hu : t = u <;> simp [setTenant, hu]
    | @take u => apply h.of_eq hab <;> by_cases hu : t = u <;> simp [setTenant, hu]
  · by_cases hu : u = t
    · subst hu
      rw [made, if_pos rfl]
      exact h.tenantStep hs hab hw
    · rw [made, if_neg hu, List.append_nil]
      have hframe : s'.tenants t = s.tenants t := by
        cases hs <;> simp [setTenant, Ne.symm hu]
      apply h.of_eq hab <;> rw [hframe]
  · have hmade : made t s .arbiter = [] := rfl
    rw [hmade, List.append_nil]
    cases hs <;> exact h.of_eq hab rfl (List.prefix_refl _)

/-- The calls along a schedule up to the end of the wait. -/
theorem Parsing.run {as : List Action} {tr : List Event} (h : Parsing t pkt s cs)
    (hr : Lts.schedule next s as = some (tr, s')) (hw : .waited t ∉ tr) :
    Parsing t pkt s' (cs ++ madeAlong t s as) := by
  induction as generalizing s cs tr with
  | nil =>
    cases hr
    simpa [madeAlong] using h
  | cons a as ih =>
    obtain ⟨e, s1, tr1, hstep, hrest, rfl⟩ := Lts.schedule_cons.1 hr
    rw [List.mem_cons, not_or] at hw
    rw [madeAlong, hstep, ← List.append_assoc]
    exact ih (h.step hstep (Ne.symm hw.1)) hrest hw.2

/-- What the thread has called for is a part of what the message asks for, and all of it when the
thread waits. -/
theorem Parsing.calls (h : Parsing t pkt s cs) :
    cs <+: parsed t pkt ∧ ((s.tenants t).pc = .waiting → cs = parsed t pkt) := by
  unfold Parsing at h
  split at h
  · rename_i hpc
    obtain ⟨-, rfl⟩ := h
    exact ⟨List.nil_prefix, by rw [hpc]; simp⟩
  · rename_i hpc
    refine ⟨?_, by rw [hpc]; simp⟩
    obtain ⟨-, rfl | ⟨-, rfl⟩⟩ := h
    · exact List.nil_prefix
    · exact List.take_prefix _ _
  · rename_i hpc
    obtain ⟨-, -, rfl⟩ := h
    exact ⟨List.take_prefix _ _, by rw [hpc]; simp⟩
  · subst h
    exact ⟨List.prefix_refl _, fun _ => rfl⟩
  · exact h.elim

/-- The thread stops before its wait only in a call that does not return. -/
theorem Parsing.progress (h : Parsing t pkt s cs) (hab : s.aborted = false)
    (hpc : (s.tenants t).pc ≠ .waiting) :
    (∃ e s', s.next (.tenant t) = some (e, s')) ∨
      ∃ c, nextCall t (s.tenants t).pc = some c ∧ ∀ res, c.exec s ≠ .ret res := by
  have hnext : s.next (.tenant t) = s.tenantNext t := by simp [next, hab]
  rw [hnext]
  unfold Parsing at h
  unfold tenantNext
  dsimp only
  split at h
  · rename_i hpc
    obtain ⟨⟨rest, hrest⟩, -⟩ := h
    rw [hpc, hrest]
    exact .inl ⟨_, _, rfl⟩
  · rename_i m hpc
    rw [hpc]
    unfold RequestPool.update
    by_cases hmem : t ∈ s.pool.tenantRequests
    · simp [hmem]
    · simp [hmem]
  · rename_i m i hpc
    rw [hpc]
    by_cases hi : i < m.numRecords.toNat
    · simp only [hi, if_true, record_eq_exec, nextCall]
      cases hx : s.gwin.exec (recordOp t m i) with
      | ret gwin => exact .inl ⟨_, _, rfl⟩
      | blocks => exact .inr ⟨_, rfl, by simp [Call.exec, hx]⟩
      | aborts => exact .inr ⟨_, rfl, by simp [Call.exec, hx]⟩
    · simp [hi]
  · rename_i hwait
    exact absurd hwait hpc
  · exact h.elim

end Propreact.Backend
