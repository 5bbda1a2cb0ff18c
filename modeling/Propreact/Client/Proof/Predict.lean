import Propreact.Client.Proof.Process
import Propreact.Profiler.Proof.Publish
import Propreact.Window.Proof.Minima

/-!
# What the predictor reads

A run of the process is a run of its profiler (`profiler_runs`), and the window has taken in the
profiler's calls (`win_eq`). These and the records published come from the same pairs of kernels,
so the two times that the predictor reads for a request are the least of the records published
before it for the grid's `x` (`predicts_least`).
-/

namespace Propreact.Process

open CuptiProfiler (Usage windowCalls produced usageOf publishedOf)
open Window (LeastOr)

/-- What a step does to the profiler. -/
def Event.profiler : Event → Option CuptiProfiler.Event
  | .callback buffer => some (.callback buffer)
  | .profiled buffers out => some (.read buffers out)
  | _ => none

section
variable {start : ULong} {pkt : Vector ULong pktWords} {tr : List Event} {s s' : Process}
  {e : Event}

theorem label_profiler (s : Process) (e : System.Event) : (s.label e).profiler = none := by
  cases e <;> rfl

/-- **The profiler's run.** -/
theorem profiler_runs (h : (lts start pkt).Run tr s) :
    (CuptiProfiler.lts start).Run (tr.filterMap Event.profiler) s.prof := by
  obtain ⟨prof, hrun, hprof⟩ := h.simulate (N := CuptiProfiler.lts start) (p := Event.profiler)
    (R := fun s prof => s.prof = prof)
    (by
      intro s hs
      exact ⟨_, rfl, by rw [show s = create start pkt from hs]; rfl⟩)
    (by
      intro s prof e s' hprof hs
      subst hprof
      cases step_of_lts hs with
      | callback buffer hd => exact ⟨_, rfl, rfl⟩
      | profile hd hr hp => exact ⟨_, hr, rfl⟩
      | destroy hd happ => rfl
      | thread hd hn => rw [label_profiler])
  rwa [hprof]

/-- The window is the one that the profiler's calls make. -/
theorem win_eq (h : (lts start pkt).Run tr s) :
    s.win = Window.run (windowCalls (tr.filterMap Event.profiler)) := by
  refine h.trace_inv
    (I := fun tr s => s.win = Window.run (windowCalls (tr.filterMap Event.profiler))) ?_ ?_
  · intro s hs
    rw [show s = create start pkt from hs]
    rfl
  · intro tr s e s' _ hwin hs
    rw [Sequences.filterMap_concat, Window.run, windowCalls, List.flatMap_append,
      List.foldl_append, ← windowCalls, ← Window.run, ← hwin]
    cases step_of_lts hs with
    | callback buffer hd => rfl
    | profile hd hr hp => simp [Event.profiler]
    | destroy hd happ => rfl
    | thread hd hn => rw [label_profiler]; rfl

theorem produced_eq (tr : List Event) :
    produced (tr.filterMap Event.profiler) = (published tr).flatten := by
  induction tr with
  | nil => rfl
  | cons e tr ih =>
    cases e with
    | profiled buffers out =>
      simp only [Event.profiler, produced, published, List.filterMap_cons, List.flatMap_cons,
        List.flatten_cons] at ih ⊢
      rw [ih]
    | callback buffer => simpa [Event.profiler, produced, published] using ih
    | _ => exact ih

/-- The window and the record buffer are told the same pairs. -/
theorem mem_usages (us : List Usage) (x v : ULong) :
    ((∃ k : Grid, .writeDataIdle k v ∈ us.flatMap Usage.windowCalls ∧ k.x = x) ↔
      ∃ rec ∈ us.map Usage.record, rec.gX = x ∧ rec.idle = v) ∧
    ((∃ k : Grid, .writeDataActive k v ∈ us.flatMap Usage.windowCalls ∧ k.x = x) ↔
      ∃ rec ∈ us.map Usage.record, rec.gX = x ∧ rec.active = v) := by
  simp only [List.mem_flatMap, List.mem_map, Usage.windowCalls, List.mem_cons,
    WindowCall.writeDataIdle.injEq, WindowCall.writeDataActive.injEq, List.not_mem_nil, or_false,
    reduceCtorEq, false_or]
  refine ⟨⟨fun h => ?_, fun h => ?_⟩, ⟨fun h => ?_, fun h => ?_⟩⟩
  · obtain ⟨k, ⟨u, hu, rfl, rfl⟩, hx⟩ := h
    exact ⟨u.record, ⟨u, hu, rfl⟩, hx, rfl⟩
  · obtain ⟨rec, ⟨u, hu, rfl⟩, hx, rfl⟩ := h
    exact ⟨u.key, ⟨u, hu, rfl, rfl⟩, hx⟩
  · obtain ⟨k, ⟨u, hu, rfl, rfl⟩, hx⟩ := h
    exact ⟨u.record, ⟨u, hu, rfl⟩, hx, rfl⟩
  · obtain ⟨rec, ⟨u, hu, rfl⟩, hx, rfl⟩ := h
    exact ⟨u.key, ⟨u, hu, rfl, rfl⟩, hx⟩

/-- The reads of a grid in a state that a run has reached. -/
theorem reads_published (h : (lts start pkt).Run tr s) (g : Grid) :
    (∃ v, s.win.readDataIdle g = some v ∧
      LeastOr 0 {v | ∃ rec ∈ (published tr).flatten, rec.gX = g.x ∧ rec.idle = v} v) ∧
    ∃ v, s.win.readDataActive g = some v ∧
      LeastOr ulongMax {v | ∃ rec ∈ (published tr).flatten, rec.gX = g.x ∧ rec.active = v} v := by
  have hrep := CuptiProfiler.reported (profiler_runs h)
  have hmem := mem_usages ((Sequences.consecutive s.prof.keyvalVec).map usageOf) g.x
  obtain ⟨hidle, hactive⟩ := Window.run_tables (windowCalls (tr.filterMap Event.profiler))
  have hpub : (published tr).flatten = (publishedOf s.prof.keyvalVec).produced := by
    rw [← produced_eq, hrep.produced]
  rw [Window.readDataIdle_eq, Window.readDataActive_eq, win_eq h, hidle, hactive, hpub, publishedOf]
  simp only [← hmem]
  rw [hrep.window]
  refine ⟨?_, ?_⟩
  · simp only [← Window.mem_idleWrites]
    exact Window.top_leastOr _ g 0
  · simp only [← Window.mem_activeWrites]
    exact Window.top_leastOr _ g ulongMax

/-- **The predictor reads minima.** Whenever the predictor makes a request, in any run from lowered
flags: the idle time that it reads for the grid is the least of all records published before it for
the grid's `x`, or 0 if there is none; and the busy time is the least, or `ULONG_MAX`. -/
theorem predicts_least (h : (lts start pkt).Run tr s) {pre post : List Event} {g : Grid}
    {active idle : Option ULong} {r : RecordVec}
    (htr : tr = pre ++ .requested g active idle r :: post) :
    (∃ v, idle = some v ∧
      LeastOr 0 {v | ∃ rec ∈ (published pre).flatten, rec.gX = g.x ∧ rec.idle = v} v) ∧
    ∃ v, active = some v ∧
      LeastOr ulongMax {v | ∃ rec ∈ (published pre).flatten, rec.gX = g.x ∧ rec.active = v} v := by
  rw [htr, List.append_cons] at h
  obtain ⟨s2, h2⟩ := h.of_append
  obtain ⟨s1, h1, hs⟩ := Lts.run_concat.1 h2
  have hlabel : idle = s1.win.readDataIdle g ∧ active = s1.win.readDataActive g := by
    generalize he : Event.requested g active idle r = e at hs
    cases step_of_lts hs with
    | @thread a e sys hd hn =>
      unfold label at he
      split at he
      · cases he
        exact ⟨rfl, rfl⟩
      · cases he
    | _ => cases he
  rw [hlabel.1, hlabel.2]
  exact reads_published h1 g

end

/-- Two reads, and a request for a grid of the first: the least of two records. -/
def twoReads : List Action :=
  [.profile [[.kernel ⟨10, 20, 7, 1, 1⟩, .kernel ⟨50, 60, 8, 1, 1⟩]],
    .profile [[.kernel ⟨70, 75, 7, 2, 1⟩, .kernel ⟨80, 90, 7, 1, 1⟩]],
    .thread (.launch ⟨7, 3, 1⟩), .thread .app] ++
  List.replicate 3 (.thread (.predictor 0 fun _ => 0))

theorem least_of_two : ∃ tr s r, (lts 0 (Vector.replicate pktWords 0)).Run tr s ∧
    tr.getLast? = some (.requested ⟨7, 3, 1⟩ (some 5) (some 5) r) ∧
    ∃ v, (some 5 : Option ULong) = some v ∧ LeastOr 0
      {v | ∃ rec ∈ ([⟨7, 10, 30⟩, ⟨8, 10, 10⟩, ⟨7, 5, 5⟩] : RecordVec), rec.gX = 7 ∧ rec.idle = v}
      v := by
  have hrun := Lts.run_schedule (create 0 (Vector.replicate pktWords 0)) next twoReads rfl
  have hleast := predicts_least hrun
    (show _ = [_, _, _, _, _, _] ++ [Event.requested _ _ _ _] from rfl)
  exact ⟨_, _, _, hrun, rfl, hleast.1⟩

end Propreact.Process
