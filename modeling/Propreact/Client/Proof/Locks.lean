import Propreact.Client.Locks

/-!
# The trigger's calls are atomic

A call reads and writes the flag of its own mutex only (`guarded`), and `Notify` is the only call
that ends a wait (`signals`). So any number of threads see `Wait` and `Notify` take effect at one
moment (`trigger_calls_atomic`), and sleep only while their flag is lowered (`no_notify_lost`),
whatever grids are written meanwhile.
-/

namespace Propreact.Trigger

@[simp] theorem ready_setReady (tr : Trigger) (f g : Flag) (b : Bool) :
    (tr.setReady f b).ready g = if g = f then b else tr.ready g := by
  cases f <;> cases g <;> rfl

theorem wait_idx (f : Flag) (tr : Trigger) :
    tr.wait f.idx = if tr.ready f then .ret (tr.setReady f false) else .blocks := by
  cases f <;> rfl

theorem notify_idx (f : Flag) (tr : Trigger) : tr.notify f.idx = .ret (tr.setReady f true) := by
  cases f <;> rfl

variable {θ : Type*} [DecidableEq θ] {trig : Trigger} {tr : List (Monitor.Label Call Unit θ)}
  {s : Monitor.State Call Unit Flag θ Trigger}

/-- The steps of a call make up the call. -/
theorem monitor_exec : monitor.exec = exec := by
  funext c trig
  cases c with
  | wait f =>
    cases h : trig.ready f <;>
      simp [Monitor.exec, monitor, Call.test, Call.write, exec, wait_idx, h]
  | notify f => simp [Monitor.exec, monitor, Call.test, Call.write, exec, notify_idx]

theorem guarded : monitor.Guarded where
  write c c' trig hne := by
    cases c with
    | wait f =>
      cases c' with
      | wait g =>
        have hfg : f ≠ g := hne
        simp [monitor, Call.test, Call.write, hfg]
      | notify g =>
        have hfg : f ≠ g := hne
        simp [monitor, Call.test, Call.write, hfg]
    | notify f => rfl
  ext c trig trig' h := by
    obtain ⟨g, rfl⟩ := h
    cases c with
    | wait f => cases f <;> rfl
    | notify f => rfl

/-- Only `Wait` blocks, while its flag is lowered. -/
theorem test_eq_blocks {c : Call} :
    c.test trig = .blocks ↔ ∃ f, c = .wait f ∧ trig.ready f = false := by
  cases c with
  | wait f => cases h : trig.ready f <;> simp [Call.test, h]
  | notify f => simp [Call.test]

theorem signals : monitor.Signals where
  waiter c c' trig trig' h h' hm := by
    obtain ⟨f, rfl, -⟩ := test_eq_blocks.1 h
    obtain ⟨g, rfl, -⟩ := test_eq_blocks.1 h'
    exact congrArg Call.wait hm
  lowers c trig trig' h := by
    obtain ⟨f, rfl, -⟩ := test_eq_blocks.1 h
    refine test_eq_blocks.2 ⟨f, rfl, ?_⟩
    simp [monitor, Call.write]
  raises c c' trig hm hn h := by
    obtain ⟨f, rfl, hready⟩ := test_eq_blocks.1 h
    refine test_eq_blocks.2 ⟨f, rfl, ?_⟩
    cases c' with
    | wait g => simp [monitor, Call.write, hready]
    | notify g => cases hn

/-- **The trigger's calls are atomic.** However the threads' steps are interleaved, with each other
and with writes of the grid, the callers see calls that take effect at one moment, as `wait` and
`notify` do. -/
theorem trigger_calls_atomic (h : (monitor.lts trig).Run tr s) :
    (Calls.lts exec (fun trig trig' => ∃ g, trig' = trig.writeData g) trig).Run
      (tr.filterMap Monitor.Label.call?) s.calls := by
  rw [← monitor_exec]
  exact Monitor.run_calls guarded h

/-- A launch writes its grid while the predictor sleeps, and wakes it. -/
theorem notify_wakes :
    ∃ (tr : List (Monitor.Label Call Unit Bool)) (s : Monitor.State Call Unit Flag Bool Trigger),
      (monitor.lts .new).Run tr s ∧ s.obj.grid = ⟨5, 1, 1⟩ ∧
      (Calls.lts exec (fun trig trig' => ∃ g, trig' = trig.writeData g) .new).Run
        [.invoked true (.wait .one), .other, .invoked false (.notify .one),
          .took false (.notify .one) (), .took true (.wait .one) (), .returned true (.wait .one) ()]
        s.calls := by
  have h0 : (monitor.lts .new).Run [] (.start _ : Monitor.State _ _ _ Bool _) := .nil rfl
  have h1 := h0.snoc ⟨rfl, .invoke (t := true) (.wait .one) rfl⟩
  have h2 := h1.snoc ⟨rfl, .lock (t := true) rfl rfl⟩
  have h3 := h2.snoc ⟨rfl, .sleep (t := true) rfl rfl⟩
  have h4 := h3.snoc ⟨rfl, .other ⟨⟨5, 1, 1⟩, rfl⟩⟩
  have h5 := h4.snoc ⟨rfl, .invoke (t := false) (.notify .one) rfl⟩
  have h6 := h5.snoc ⟨rfl, .lock (t := false) rfl rfl⟩
  have h7 := h6.snoc ⟨rfl, .pass (t := false) (r := ()) rfl rfl⟩
  have h8 := h7.snoc ⟨rfl, .write (t := false) rfl⟩
  have h9 := h8.snoc ⟨rfl, .notify (t := false) (u := true) rfl rfl rfl⟩
  have h10 := h9.snoc ⟨rfl, .unlock (t := false) rfl⟩
  have h11 := h10.snoc ⟨rfl, .lock (t := true) rfl rfl⟩
  have h12 := h11.snoc ⟨rfl, .pass (t := true) (r := ()) rfl rfl⟩
  have h13 := h12.snoc ⟨rfl, .write (t := true) rfl⟩
  have h14 := h13.snoc ⟨rfl, .unlock (t := true) rfl⟩
  have h15 := h14.snoc ⟨rfl, .leave (t := true) rfl⟩
  exact ⟨_, _, h15, rfl, trigger_calls_atomic h15⟩

/-- **No `Notify` is lost.** When no thread can go on, all threads that are in a call sleep in
`Wait`, on a lowered flag. -/
theorem no_notify_lost (h : (monitor.lts trig).Run tr s) (hr : monitor.AtRest s) (t : θ) :
    s.pc t = .outside ∨ ∃ f, s.pc t = .sleeping (.wait f) ∧ s.obj.ready f = false := by
  rcases Monitor.run_rests guarded signals h hr t with hc | ⟨c, hc, hb⟩
  · exact .inl hc
  · obtain ⟨f, rfl, hready⟩ := test_eq_blocks.1 hb
    exact .inr ⟨f, hc, hready⟩

/-- The predictor sleeps until something is launched. -/
theorem unnotified_sleeps :
    ∃ (tr : List (Monitor.Label Call Unit Unit)) (s : Monitor.State Call Unit Flag Unit Trigger),
      (monitor.lts .new).Run tr s ∧ monitor.AtRest s ∧ s.pc () = .sleeping (.wait .one) ∧
      (s.pc () = .outside ∨ ∃ f, s.pc () = .sleeping (.wait f) ∧ s.obj.ready f = false) := by
  have h0 : (monitor.lts .new).Run [] (.start _ : Monitor.State _ _ _ Unit _) := .nil rfl
  have h1 := h0.snoc ⟨rfl, .invoke (t := ()) (.wait .one) rfl⟩
  have h2 := h1.snoc ⟨rfl, .lock (t := ()) rfl rfl⟩
  have h3 := h2.snoc ⟨rfl, .sleep (t := ()) rfl rfl⟩
  obtain ⟨tr, s, h, hpc⟩ : ∃ tr s, (monitor.lts .new).Run tr s ∧
      s.pc () = .sleeping (.wait .one) := ⟨_, _, h3, rfl⟩
  have hrest : monitor.AtRest s := Monitor.atRest_of_asleep fun _ => .inr ⟨.wait .one, hpc⟩
  exact ⟨tr, s, h, hrest, hpc, no_notify_lost h hrest ()⟩

end Propreact.Trigger
