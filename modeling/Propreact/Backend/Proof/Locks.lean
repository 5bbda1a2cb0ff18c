import Propreact.Backend.Locks

/-!
# The request pool's calls are atomic

Each call reads and writes under one mutex what the calls under the other mutexes leave alone
(`guarded`), and `release` is the only call that ends a wait (`signals`). So any number of threads
see the four calls take effect at one moment (`pool_calls_atomic`), and sleep only while their flag
is lowered (`no_release_lost`).
-/

namespace Propreact.RequestPool

variable {θ : Type*} [DecidableEq θ] {rp : RequestPool}
  {tr : List (Monitor.Label Call (Option ExperimentalKey) θ)}
  {s : Monitor.State Call (Option ExperimentalKey) Mutex θ RequestPool}

/-- The steps of a call make up the call. -/
theorem monitor_exec : monitor.exec = exec := by
  funext c rp
  cases c with
  | update p =>
    by_cases h : p.1 ∈ rp.tenantRequests
    · simp [Monitor.exec, monitor, Call.test, exec, update, h]
    · simp [Monitor.exec, monitor, Call.test, Call.write, exec, update, h]
  | retrieve t =>
    cases h : rp.tenantRequests[t]? <;>
      simp [Monitor.exec, monitor, Call.test, Call.write, exec, retrieve, h]
  | wait t =>
    cases h : rp.tenantReady t <;>
      simp [Monitor.exec, monitor, Call.test, Call.write, exec, wait, h]
  | release t => rfl

theorem guarded : monitor.Guarded where
  write c c' rp hne := by
    cases c with
    | update p =>
      cases c' with
      | wait t => rfl
      | release t => rfl
      | _ => exact absurd rfl hne
    | retrieve t =>
      cases c' with
      | wait t => rfl
      | release t => rfl
      | _ => exact absurd rfl hne
    | wait t =>
      cases c' with
      | wait u =>
        have htu : t ≠ u := fun h => hne (by rw [h])
        simp [monitor, Call.test, Call.write, htu]
      | release u =>
        have htu : t ≠ u := fun h => hne (by rw [h]; rfl)
        simp [monitor, Call.test, Call.write, htu]
      | _ => rfl
    | release t => rfl
  ext _ _ _ h := h.elim

/-- Only `wait` blocks, while its flag is lowered. -/
theorem test_eq_blocks {c : Call} :
    c.test rp = .blocks ↔ ∃ t, c = .wait t ∧ rp.tenantReady t = false := by
  cases c with
  | update p => by_cases h : p.1 ∈ rp.tenantRequests <;> simp [Call.test, h]
  | retrieve t => cases h : rp.tenantRequests[t]? <;> simp [Call.test, h]
  | wait t => cases h : rp.tenantReady t <;> simp [Call.test, h]
  | release t => simp [Call.test]

theorem signals : monitor.Signals where
  waiter c c' rp rp' h h' hm := by
    obtain ⟨t, rfl, -⟩ := test_eq_blocks.1 h
    obtain ⟨t', rfl, -⟩ := test_eq_blocks.1 h'
    have htt : Mutex.tenant t = .tenant t' := hm
    cases htt
    rfl
  lowers c rp rp' h := by
    obtain ⟨t, rfl, -⟩ := test_eq_blocks.1 h
    refine test_eq_blocks.2 ⟨t, rfl, ?_⟩
    simp [monitor, Call.write]
  raises c c' rp hm hn h := by
    obtain ⟨t, rfl, hready⟩ := test_eq_blocks.1 h
    refine test_eq_blocks.2 ⟨t, rfl, ?_⟩
    cases c' with
    | wait u =>
      by_cases htu : t = u
      · simp [monitor, Call.write, htu]
      · simp [monitor, Call.write, htu, hready]
    | release u => cases hn
    | _ => exact hready

/-- **The pool's calls are atomic.** However the threads' steps are interleaved, their callers see
calls that take effect at one moment, as `update`, `retrieve`, `wait` and `release` do. -/
theorem pool_calls_atomic (h : (monitor.lts rp).Run tr s) :
    (Calls.lts exec (fun _ _ => False) rp).Run (tr.filterMap Monitor.Label.call?) s.calls := by
  rw [← monitor_exec]
  exact Monitor.run_calls guarded h

/-- A tenant sleeps, and the Arbiter's `release` wakes it. -/
theorem release_wakes :
    ∃ (tr : List (Monitor.Label Call (Option ExperimentalKey) Bool))
      (s : Monitor.State Call (Option ExperimentalKey) Mutex Bool RequestPool),
      (monitor.lts (.new fun _ => false)).Run tr s ∧
      (Calls.lts exec (fun _ _ => False) (.new fun _ => false)).Run
        [.invoked true (.wait 0), .invoked false (.release 0), .took false (.release 0) none,
          .took true (.wait 0) none, .returned true (.wait 0) none] s.calls := by
  have h0 : (monitor.lts (.new fun _ => false)).Run []
      (.start _ : Monitor.State _ _ _ Bool _) := .nil rfl
  have h1 := h0.snoc ⟨rfl, .invoke (t := true) (.wait 0) rfl⟩
  have h2 := h1.snoc ⟨rfl, .lock (t := true) rfl rfl⟩
  have h3 := h2.snoc ⟨rfl, .sleep (t := true) rfl rfl⟩
  have h4 := h3.snoc ⟨rfl, .invoke (t := false) (.release 0) rfl⟩
  have h5 := h4.snoc ⟨rfl, .lock (t := false) rfl rfl⟩
  have h6 := h5.snoc ⟨rfl, .pass (t := false) (r := none) rfl rfl⟩
  have h7 := h6.snoc ⟨rfl, .write (t := false) rfl⟩
  have h8 := h7.snoc ⟨rfl, .notify (t := false) (u := true) rfl rfl rfl⟩
  have h9 := h8.snoc ⟨rfl, .unlock (t := false) rfl⟩
  have h10 := h9.snoc ⟨rfl, .lock (t := true) rfl rfl⟩
  have h11 := h10.snoc ⟨rfl, .pass (t := true) (r := none) rfl rfl⟩
  have h12 := h11.snoc ⟨rfl, .write (t := true) rfl⟩
  have h13 := h12.snoc ⟨rfl, .unlock (t := true) rfl⟩
  have h14 := h13.snoc ⟨rfl, .leave (t := true) rfl⟩
  exact ⟨_, _, h14, pool_calls_atomic h14⟩

/-- **No `release` is lost.** When no thread can go on, all threads that are in a call sleep in
`wait`, on a lowered flag. -/
theorem no_release_lost (h : (monitor.lts rp).Run tr s) (hr : monitor.AtRest s) (t : θ) :
    s.pc t = .outside ∨
      ∃ u, s.pc t = .sleeping (.wait u) ∧ s.obj.tenantReady u = false := by
  rcases Monitor.run_rests guarded signals h hr t with hc | ⟨c, hc, hb⟩
  · exact .inl hc
  · obtain ⟨u, rfl, hready⟩ := test_eq_blocks.1 hb
    exact .inr ⟨u, hc, hready⟩

/-- A tenant sleeps that no one has released. -/
theorem unreleased_sleeps :
    ∃ (tr : List (Monitor.Label Call (Option ExperimentalKey) Unit))
      (s : Monitor.State Call (Option ExperimentalKey) Mutex Unit RequestPool),
      (monitor.lts (.new fun _ => false)).Run tr s ∧ monitor.AtRest s ∧
      s.pc () = .sleeping (.wait 0) ∧ (s.pc () = .outside ∨
        ∃ u, s.pc () = .sleeping (.wait u) ∧ s.obj.tenantReady u = false) := by
  have h0 : (monitor.lts (.new fun _ => false)).Run []
      (.start _ : Monitor.State _ _ _ Unit _) := .nil rfl
  have h1 := h0.snoc ⟨rfl, .invoke (t := ()) (.wait 0) rfl⟩
  have h2 := h1.snoc ⟨rfl, .lock (t := ()) rfl rfl⟩
  have h3 := h2.snoc ⟨rfl, .sleep (t := ()) rfl rfl⟩
  obtain ⟨tr, s, h, hpc⟩ : ∃ tr s, (monitor.lts (.new fun _ => false)).Run tr s ∧
      s.pc () = .sleeping (.wait 0) := ⟨_, _, h3, rfl⟩
  have hrest : monitor.AtRest s := Monitor.atRest_of_asleep fun _ => .inr ⟨.wait 0, hpc⟩
  exact ⟨tr, s, h, hrest, hpc, no_release_lost h hrest ()⟩

end Propreact.RequestPool
