import Propreact.Window.Proof.Tables

/-!
# The tops of the tenants' queues

`CompareIdleMin` puts a pair in front of those with smaller idle time, so the top of an
`IdleMinQueue` has the greatest idle time of the queue: it is also the least only where all idle
times are equal (`idle_top_min_iff`). `CompareActiveMax` compares its first argument with itself and
puts no pair in front of another, so the top of an `ActiveMaxQueue` is the pair that came first
(`active_top_max_iff`). As in `Tables`, the mutex is left out of account.
-/

namespace Propreact.GlobalWindow

variable {gw : GlobalWindow} {ops : List Op} {t : TenantId} {k : ULong}

theorem compareIdleMin_iff (n1 n2 : ActiveIdlePair) : compareIdleMin n1 n2 = true ↔ n1.2 < n2.2 :=
  decide_eq_true_iff

instance : Std.Asymm fun n1 n2 => compareIdleMin n1 n2 = true :=
  PriorityQueue.asymm_of_key compareIdleMin_iff

instance : IsOrderConnected ActiveIdlePair fun n1 n2 => compareIdleMin n1 n2 = true :=
  PriorityQueue.isOrderConnected_of_key compareIdleMin_iff

theorem compareActiveMax_eq_false (n1 n2 : ActiveIdlePair) : compareActiveMax n1 n2 = false := by
  simp [compareActiveMax]

/-- **The top of an idle queue** has the least idle time of the queue exactly if all idle times that
were pushed to it are equal; for key 0 the constructor's 0 is one of them. -/
theorem idle_top_min_iff (h : unlocked.Run ops gw) {q : IdleMinQueue}
    (hq : (gw.tenantsIdleMapVector t)[k]? = some q) :
    (∃ e, q.top = some e ∧ ∀ e' ∈ q.c, e.2 ≤ e'.2) ↔
      ∀ e ∈ dummy k ++ idleCalls t k ops, ∀ e' ∈ dummy k ++ idleCalls t k ops, e.2 = e'.2 := by
  obtain ⟨hne, rfl⟩ := (idle_queue h).1 hq
  generalize dummy k ++ idleCalls t k ops = es at hne
  -- the top is the greatest
  obtain ⟨e, ht, he, hless⟩ := PriorityQueue.top_pushes compareIdleMin hne
  have hmax (e' : ActiveIdlePair) (he' : e' ∈ es) : e'.2 ≤ e.2 := by
    have hnot := hless e' he'
    rw [← Bool.not_eq_true, compareIdleMin_iff] at hnot
    exact not_lt.1 hnot
  rw [ht]
  simp only [Option.some_inj, exists_eq_left', PriorityQueue.mem_pushes_empty]
  refine ⟨fun hmin e1 he1 e2 he2 => ?_, fun heq e' he' => ?_⟩
  · have h1 := le_antisymm (hmax e1 he1) (hmin e1 he1)
    have h2 := le_antisymm (hmax e2 he2) (hmin e2 he2)
    exact h1.trans h2.symm
  · exact (heq e he e' he').le

/-- Equal idle times. -/
theorem equal_idle_top_min : ∃ gw q,
    unlocked.Run [.updateIdle 5 1 10 0, .updateIdle 5 2 10 0] gw ∧
      (gw.tenantsIdleMapVector 0)[(5 : ULong)]? = some q ∧
      ∃ e, q.top = some e ∧ ∀ e' ∈ q.c, e.2 ≤ e'.2 := by
  obtain ⟨gw, h⟩ := exists_unlocked [.updateIdle 5 1 10 0, .updateIdle 5 2 10 0]
  have hq := (idle_queue h (t := 0) (k := 5)).2 ⟨by decide, rfl⟩
  have hpairs : dummy 5 ++ idleCalls 0 5 [.updateIdle 5 1 10 0, .updateIdle 5 2 10 0] =
      [(1, 10), (2, 10)] := rfl
  exact ⟨gw, _, h, hq, (idle_top_min_iff h hq).2 (by simp [hpairs])⟩

/-- A greater idle time goes to the top. -/
theorem rising_idle_top_not_min : ∃ gw q,
    unlocked.Run [.updateIdle 5 1 10 0, .updateIdle 5 1 20 0] gw ∧
      (gw.tenantsIdleMapVector 0)[(5 : ULong)]? = some q ∧
      ¬ ∃ e, q.top = some e ∧ ∀ e' ∈ q.c, e.2 ≤ e'.2 := by
  obtain ⟨gw, h⟩ := exists_unlocked [.updateIdle 5 1 10 0, .updateIdle 5 1 20 0]
  have hq := (idle_queue h (t := 0) (k := 5)).2 ⟨by decide, rfl⟩
  refine ⟨gw, _, h, hq, fun ⟨e, ht, hmin⟩ => ?_⟩
  cases ht
  exact absurd (hmin (1, 10) (by decide)) (by decide)

/-- **The top of an active queue** has the greatest active time of the queue exactly if no pair
that was pushed to it has a greater one than the first; for key 0 the first is the constructor's. -/
theorem active_top_max_iff (h : unlocked.Run ops gw) {q : ActiveMaxQueue}
    (hq : (gw.tenantsActiveMapVector t)[k]? = some q) :
    (∃ e, q.top = some e ∧ ∀ e' ∈ q.c, e'.1 ≤ e.1) ↔
      ∀ e ∈ (dummy k ++ activeCalls t k ops).head?, ∀ e' ∈ dummy k ++ activeCalls t k ops,
        e'.1 ≤ e.1 := by
  obtain ⟨hne, rfl⟩ := (active_queue h).1 hq
  generalize dummy k ++ activeCalls t k ops = es at hne
  rw [PriorityQueue.top, PriorityQueue.pushes_of_never compareActiveMax_eq_false]
  cases es with
  | nil => exact absurd rfl hne
  | cons e es => simp

/-- The first pair has the greatest active time. -/
theorem falling_active_top_max : ∃ gw q,
    unlocked.Run [.updateActive 5 2 0 1, .updateActive 5 1 0 1] gw ∧
      (gw.tenantsActiveMapVector 1)[(5 : ULong)]? = some q ∧
      ∃ e, q.top = some e ∧ ∀ e' ∈ q.c, e'.1 ≤ e.1 := by
  obtain ⟨gw, h⟩ := exists_unlocked [.updateActive 5 2 0 1, .updateActive 5 1 0 1]
  have hq := (active_queue h (t := 1) (k := 5)).2 ⟨by decide, rfl⟩
  have hpairs : dummy 5 ++ activeCalls 1 5 [.updateActive 5 2 0 1, .updateActive 5 1 0 1] =
      [(2, 0), (1, 0)] := rfl
  exact ⟨gw, _, h, hq, (active_top_max_iff h hq).2 (by simp [hpairs])⟩

/-- A greater active time behind the first stays below it. -/
theorem rising_active_top_not_max : ∃ gw q,
    unlocked.Run [.updateActive 5 1 0 1, .updateActive 5 2 0 1] gw ∧
      (gw.tenantsActiveMapVector 1)[(5 : ULong)]? = some q ∧
      ¬ ∃ e, q.top = some e ∧ ∀ e' ∈ q.c, e'.1 ≤ e.1 := by
  obtain ⟨gw, h⟩ := exists_unlocked [.updateActive 5 1 0 1, .updateActive 5 2 0 1]
  have hq := (active_queue h (t := 1) (k := 5)).2 ⟨by decide, rfl⟩
  refine ⟨gw, _, h, hq, fun ⟨e, ht, hmax⟩ => ?_⟩
  cases ht
  exact absurd (hmax (2, 0) (by decide)) (by decide)

end Propreact.GlobalWindow
