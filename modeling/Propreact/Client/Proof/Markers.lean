import Propreact.Client.Xrush
import Propreact.Lib.Sequences

/-!
# Library markers

`ProcessTrigger` tells the markers of a library call from launches only while `m_lib` is lowered,
and the end marker raises it: a marker right behind an end marker is taken for a launch. So no
marker becomes a request, and the times of the markers are kept, exactly as long as no marker comes
right behind an end marker (`markers_kept_iff`).
-/

namespace Propreact

/-- The marker of a library call's start. -/
def Grid.isLibStart (g : Grid) : Bool := g.x = 0 ∧ g.y = 0

/-- The marker of a library call's end. -/
def Grid.isLibEnd (g : Grid) : Bool := g.x = 1 ∧ g.y = 0

def Grid.isMarker (g : Grid) : Bool := g.isLibStart || g.isLibEnd

namespace Predictor

/-- A trigger that `ProcessTrigger` has handled: its grid, the time, and whether a request was sent
for it. -/
structure Handled where
  g : Grid
  now : Int
  sent : Bool
  deriving Repr, DecidableEq

/-- Requests are sent for exactly those triggers that are no markers. -/
def OnlyLaunchesSent (xs : List Handled) : Prop :=
  ∀ x ∈ xs, x.sent = true ↔ x.g.isMarker = false

/-- The time of the last trigger of a kind, 0 if there is none. -/
def lastTime (kind : Grid → Bool) (xs : List Handled) : Int :=
  ((xs.filter fun x => kind x.g).getLast?.map (·.now)).getD 0

/-- No marker comes right behind an end marker. -/
def EndsApart (xs : List Handled) : Prop :=
  xs.IsChain fun x y => x.g.isLibEnd = true → y.g.isMarker = false

instance (xs : List Handled) : Decidable (EndsApart xs) :=
  inferInstanceAs (Decidable (List.IsChain _ xs))

variable {xs : List Handled} {x : Handled} {p p' : Predictor}

theorem lastTime_concat (kind : Grid → Bool) (xs : List Handled) (x : Handled) :
    lastTime kind (xs ++ [x]) = if kind x.g then x.now else lastTime kind xs := by
  rw [lastTime, List.filter_append]
  cases h : kind x.g <;> simp [h, lastTime]

theorem endsApart_concat : EndsApart (xs ++ [x]) ↔
    EndsApart xs ∧ ((xs.getLast?.any (·.g.isLibEnd)) = true → x.g.isMarker = false) := by
  rw [EndsApart, List.isChain_append, ← EndsApart]
  cases xs.getLast? <;> simp

theorem onlyLaunchesSent_concat : OnlyLaunchesSent (xs ++ [x]) ↔
    OnlyLaunchesSent xs ∧ (x.sent = true ↔ x.g.isMarker = false) := by
  simp [OnlyLaunchesSent, or_imp, forall_and]

/-- A turn of `ProcessTrigger`, as far as markers go. -/
structure Turned (p : Predictor) (x : Handled) (p' : Predictor) : Prop where
  sent : x.sent = true ↔ (p.decide x.now x.g).1 = .request
  lib : p'.lib = (p.decide x.now x.g).2.lib
  startLib : p'.startLib = (p.decide x.now x.g).2.startLib
  endLib : p'.endLib = (p.decide x.now x.g).2.endLib

/-- The mode says whether the last trigger is an end marker, and the times are those of the last
markers. -/
structure Mode (xs : List Handled) (p : Predictor) : Prop where
  lib : p.lib = xs.getLast?.any (·.g.isLibEnd)
  startLib : p.startLib = lastTime Grid.isLibStart xs
  endLib : p.endLib = lastTime Grid.isLibEnd xs

theorem decide_start {now : Int} {g : Grid} (hl : p.lib = false) (hg : g.isLibStart = true) :
    p.decide now g = (.marker, { p with startLib := now }) := by
  simp only [Grid.isLibStart, decide_eq_true_eq] at hg
  simp [Predictor.decide, hl, hg]

theorem decide_end {now : Int} {g : Grid} (hl : p.lib = false) (hg : g.isLibEnd = true) :
    p.decide now g = (.marker, { p with endLib := now, lib := true }) := by
  simp only [Grid.isLibEnd, decide_eq_true_eq] at hg
  simp [Predictor.decide, hl, hg]

/-- While the mode is raised every trigger is taken for a launch. -/
theorem decide_launch {now : Int} {g : Grid} (h : p.lib = false → g.isMarker = false) :
    p.decide now g = (.request, { p with lib := false }) := by
  have hstart : ¬ (g.x = 0 ∧ g.y = 0 ∧ !p.lib) := by
    intro hc
    have := h (by simpa using hc.2.2)
    simp [Grid.isMarker, Grid.isLibStart, hc.1, hc.2.1] at this
  have hend : ¬ (g.x = 1 ∧ g.y = 0 ∧ !p.lib) := by
    intro hc
    have := h (by simpa using hc.2.2)
    simp [Grid.isMarker, Grid.isLibEnd, hc.1, hc.2.1] at this
  rw [Predictor.decide, if_neg hstart, if_neg hend]

theorem isLibEnd_of_isLibStart {g : Grid} (h : g.isLibStart = true) : g.isLibEnd = false := by
  simp only [Grid.isLibStart, Grid.isLibEnd, decide_eq_true_eq, decide_eq_false_iff_not] at h ⊢
  rw [h.1]
  exact fun hc => absurd hc.1 (by decide)

/-- The three kinds of turns. -/
theorem Turned.cases (ht : Turned p x p') :
    (p.lib = false ∧ x.g.isLibStart = true ∧ x.sent = false ∧
      p'.lib = false ∧ p'.startLib = x.now ∧ p'.endLib = p.endLib) ∨
    (p.lib = false ∧ x.g.isLibEnd = true ∧ x.sent = false ∧
      p'.lib = true ∧ p'.startLib = p.startLib ∧ p'.endLib = x.now) ∨
    ((p.lib = false → x.g.isMarker = false) ∧ x.sent = true ∧
      p'.lib = false ∧ p'.startLib = p.startLib ∧ p'.endLib = p.endLib) := by
  obtain ⟨hsent, hlib, hstart, hend⟩ := ht
  by_cases h : p.lib = false → x.g.isMarker = false
  · rw [decide_launch h] at hsent hlib hstart hend
    exact .inr (.inr ⟨h, hsent.2 rfl, hlib, hstart, hend⟩)
  · obtain ⟨hl, hm⟩ := Classical.not_imp.1 h
    rw [Grid.isMarker, Bool.not_eq_false, Bool.or_eq_true] at hm
    rcases hm with hg | hg
    · rw [decide_start hl hg] at hsent hlib hstart hend
      exact .inl ⟨hl, hg, by simpa using hsent, hlib.trans hl, hstart, hend⟩
    · rw [decide_end hl hg] at hsent hlib hstart hend
      exact .inr (.inl ⟨hl, hg, by simpa using hsent, hlib, hstart, hend⟩)

/-- The mode after a turn, if a marker was not taken for a launch. -/
theorem Mode.step (h : Mode xs p) (ht : Turned p x p') (ha : p.lib = true → x.g.isMarker = false) :
    Mode (xs ++ [x]) p' := by
  rcases ht.cases with ⟨-, hg, -, hlib, hstart, hend⟩ | ⟨-, hg, -, hlib, hstart, hend⟩ |
    ⟨hm, -, hlib, hstart, hend⟩
  · have hne := isLibEnd_of_isLibStart hg
    constructor
    · simp [hlib, hne]
    · rw [hstart, lastTime_concat, if_pos hg]
    · rw [hend, lastTime_concat, hne, h.endLib]
      rfl
  · have hne : x.g.isLibStart = false := by
      rw [← Bool.not_eq_true]
      intro hs
      rw [isLibEnd_of_isLibStart hs] at hg
      cases hg
    constructor
    · simp [hlib, hg]
    · rw [hstart, lastTime_concat, hne, h.startLib]
      rfl
    · rw [hend, lastTime_concat, if_pos hg]
  · have hnot : x.g.isMarker = false := by
      cases hl : p.lib with
      | true => exact ha hl
      | false => exact hm hl
    obtain ⟨hs, he⟩ := Bool.or_eq_false_iff.1 hnot
    constructor
    · simp [hlib, he]
    · rw [hstart, lastTime_concat, hs, h.startLib]
      rfl
    · rw [hend, lastTime_concat, he, h.endLib]
      rfl

/-- What is known after the triggers handled so far. -/
structure Handles (xs : List Handled) (p : Predictor) : Prop where
  sent : OnlyLaunchesSent xs ↔ EndsApart xs
  mode : EndsApart xs → Mode xs p

theorem Handles.step (h : Handles xs p) (ht : Turned p x p') : Handles (xs ++ [x]) p' := by
  constructor
  · rw [onlyLaunchesSent_concat, endsApart_concat, h.sent]
    refine and_congr_right fun ha => ?_
    rw [← (h.mode ha).lib]
    rcases ht.cases with ⟨hl, hg, hs, -⟩ | ⟨hl, hg, hs, -⟩ | ⟨hm, hs, -⟩
    · simp [hl, hs, Grid.isMarker, hg]
    · simp [hl, hs, Grid.isMarker, hg]
    · cases hl : p.lib with
      | true => simp [hs]
      | false => simp [hs, hm hl]
  · intro ha
    obtain ⟨ha, hlast⟩ := endsApart_concat.1 ha
    have hmode := h.mode ha
    exact hmode.step ht fun hl => hlast (by rw [← hmode.lib, hl])

end Predictor

namespace Xrush

open Predictor

variable {start : ULong} {pkt : Vector ULong pktWords} {tr : List (Action × Event)} {s s' : Xrush}
  {a : Action} {e : Event}

/-- `next`, the label with the action. -/
def timedNext (s : Xrush) (a : Action) : Option ((Action × Event) × Xrush) :=
  (s.next a).map fun (e, s') => ((a, e), s')

/-- The runs of `lts`, each step with its action. -/
def timed (start : ULong) (pkt : Vector ULong pktWords) : Lts Xrush (Action × Event) :=
  .ofNext (create start pkt) timedNext

/-- The trigger that a step handles. -/
def trigger : Action × Event → Option Handled
  | (.launch g now, .requested _ _) => some ⟨g, now, true⟩
  | (.launch g now, _) => some ⟨g, now, false⟩
  | _ => none

/-- The triggers that `ProcessTrigger` has handled, oldest first. -/
def handled (tr : List (Action × Event)) : List Handled := tr.filterMap trigger

/-- A step handles a trigger, or leaves the predictor as it is. -/
theorem next_turned (h : s.next a = some (e, s')) :
    (∃ x, trigger (a, e) = some x ∧ Turned s.pred x s'.pred) ∨
      trigger (a, e) = none ∧ s'.pred = s.pred := by
  unfold next at h
  split at h
  · cases h
  · cases a with
    | callback buffer =>
      cases h
      exact .inr ⟨rfl, rfl⟩
    | profile buffers =>
      simp only [profile] at h
      split at h
      · split at h
        · cases h
          exact .inr ⟨rfl, rfl⟩
        · cases h
      · cases h
    | launch g now =>
      simp only [launch] at h
      split at h
      · rename_i pred hd
        cases h
        exact .inl ⟨_, rfl, by simp [hd], by rw [hd], by rw [hd], by rw [hd]⟩
      · rename_i pred hd
        split at h
        · split at h
          · cases h
            exact .inl ⟨_, rfl, by simp [hd], by rw [hd], by rw [hd], by rw [hd]⟩
          · cases h
            exact .inl ⟨_, rfl, by simp [hd], by rw [hd], by rw [hd], by rw [hd]⟩
        · cases h

theorem handles (h : (timed start pkt).Run tr s) : Handles (handled tr) s.pred := by
  refine h.trace_inv (I := fun tr s => Handles (handled tr) s.pred) ?_ ?_
  · rintro s rfl
    exact ⟨by simp [handled, OnlyLaunchesSent, EndsApart], fun _ => ⟨rfl, rfl, rfl⟩⟩
  · rintro tr s e s' _ ih ⟨a, ha⟩
    obtain ⟨⟨e, s1⟩, hnext, heq⟩ := Option.map_eq_some_iff.1 ha
    cases heq
    rw [handled, Sequences.filterMap_concat]
    rcases next_turned hnext with ⟨x, hx, ht⟩ | ⟨hx, hpred⟩
    · rw [hx]
      exact ih.step ht
    · rw [hx, hpred, Option.toList_none, List.append_nil]
      exact ih

/-- **Library markers.** In every run of reads, launches and callbacks: requests are sent for
exactly the triggers that are no markers, and whenever `m_lib` was raised `m_start_lib` and
`m_end_lib` were the times of the last start and end marker so far, if and only if no marker was
handled right behind an end marker. -/
theorem markers_kept_iff (h : (timed start pkt).Run tr s) :
    (OnlyLaunchesSent (handled tr) ∧
      ∀ pre s', pre <+: tr → (timed start pkt).Run pre s' → s'.pred.lib = true →
        s'.pred.startLib = lastTime Grid.isLibStart (handled pre) ∧
          s'.pred.endLib = lastTime Grid.isLibEnd (handled pre)) ↔
      EndsApart (handled tr) := by
  refine ⟨fun ⟨hsent, _⟩ => ?_, fun ha => ?_⟩
  · exact (handles h).sent.1 hsent
  · refine ⟨(handles h).sent.2 ha, fun pre s' hpre hrun _ => ?_⟩
    have hapart : EndsApart (handled pre) := List.IsChain.prefix ha (hpre.filterMap trigger)
    have hmode := (handles hrun).mode hapart
    exact ⟨hmode.startLib, hmode.endLib⟩

/-- A library call, and a launch behind it. -/
theorem one_call_kept : ∃ tr s, (timed 0 (.replicate _ 0)).Run tr s ∧
    handled tr = [⟨⟨0, 0, 1⟩, 1, false⟩, ⟨⟨1, 0, 1⟩, 2, false⟩, ⟨⟨5, 1, 1⟩, 3, true⟩] ∧
    OnlyLaunchesSent (handled tr) := by
  have hrun := Lts.run_schedule (create 0 (.replicate _ 0)) timedNext
    [.launch ⟨0, 0, 1⟩ 1, .launch ⟨1, 0, 1⟩ 2, .launch ⟨5, 1, 1⟩ 3] rfl
  exact ⟨_, _, hrun, rfl, ((markers_kept_iff hrun).2 (by decide)).1⟩

/-- Two library calls in a row: a request is sent for the second start marker, and after the second
end marker `m_start_lib` is still the time of the first call. -/
theorem second_call_requested : ∃ tr s, (timed 0 (.replicate _ 0)).Run tr s ∧
    ⟨⟨0, 0, 1⟩, 3, true⟩ ∈ handled tr ∧ Grid.isMarker ⟨0, 0, 1⟩ = true ∧
    s.pred.lib = true ∧ s.pred.startLib = 1 ∧ lastTime Grid.isLibStart (handled tr) = 3 := by
  have hrun := Lts.run_schedule (create 0 (.replicate _ 0)) timedNext
    [.launch ⟨0, 0, 1⟩ 1, .launch ⟨1, 0, 1⟩ 2, .launch ⟨0, 0, 1⟩ 3, .launch ⟨1, 0, 1⟩ 4] rfl
  exact ⟨_, _, hrun, by decide, by decide, rfl, rfl, by decide⟩

end Xrush

end Propreact
