import Propreact.Client.Process
import Propreact.Client.Proof.Gating
import Propreact.Client.Proof.Steps

/-!
# The client process follows its launches

`Step` lists the steps of the process, guards included. Profiling and callbacks do not touch what a
stage shows, so along every run of the process the launches have a stage (`exists_stage`). The
application's thread and the predictor's therefore never move at the same time, and a process that
was destroyed has only steps of the backend left (`takes_turns`).
-/

namespace Propreact.Process

inductive Step (s : Process) : Event → Process → Prop
  | callback (buffer : List Activity) :
    s.destroyed = false →
    Step s (.callback buffer) { s with prof := s.prof.returnBuffer buffer }
  | profile {buffers : List (List Activity)} {prof : CuptiProfiler} {out : Published}
      {gwin : GlobalWindow} :
    s.destroyed = false → s.prof.read buffers = .ok (prof, out) →
    s.sys.gwin.produce out.produced = .ret gwin →
    Step s (.profiled buffers out)
      { s with prof, win := out.window.foldl Window.exec s.win, sys := { s.sys with gwin } }
  | thread {a : System.Action} {e : System.Event} {sys : System} :
    (s.destroyed = true → isLaunch a = false) → s.sys.next a = some (e, sys) →
    Step s (s.label e) { s with sys }
  | destroy :
    s.destroyed = false → s.sys.app = .idle → Step s .destroyed { s with destroyed := true }

theorem next_step {s s' : Process} {a : Action} {e : Event} (h : s.next a = some (e, s')) :
    Step s e s' := by
  cases a with
  | callback buffer =>
    simp only [next] at h
    split at h
    · cases h
    · rename_i hd
      cases h
      exact .callback buffer (by simpa using hd)
  | profile buffers =>
    simp only [next, profile] at h
    split at h
    · cases h
    · rename_i hd
      split at h
      · rename_i hr
        split at h
        · rename_i hp
          cases h
          exact .profile (by simpa using hd) hr hp
        · cases h
      · cases h
  | thread a =>
    simp only [next] at h
    split at h
    · cases h
    · rename_i hd
      split at h
      · rename_i hs
        cases h
        exact .thread (by simpa using hd) hs
      · cases h
  | destroy =>
    simp only [next] at h
    split at h
    · rename_i hd
      simp only [Bool.and_eq_true, Bool.not_eq_true', decide_eq_true_eq] at hd
      cases h
      exact .destroy hd.1 hd.2
    · cases h

@[simp] theorem label_system (s : Process) (e : System.Event) : (s.label e).system = some e := by
  cases e <;> rfl

/-- Nothing that a stage shows is in the global window. -/
theorem shows_gwin {sys : System} {st : System.Stage} (h : System.Shows sys st)
    (gwin : GlobalWindow) : System.Shows { sys with gwin } st :=
  ⟨h.app, h.ready1, h.ready2, h.grid, h.pc, h.serves⟩

theorem launched_isLaunch {sys sys' : System} {a : System.Action} {g : Grid}
    (h : sys.next a = some (.launched g, sys')) : isLaunch a = true := by
  cases System.next_step h with
  | launch g happ => rfl
  | predictor hs => cases hs

/-- The state at a stage; a process that was destroyed has no launch open. -/
structure Shows (s : Process) (st : System.Stage) : Prop where
  sys : System.Shows s.sys st
  home : s.destroyed = true → st = .home

section
variable {s s' : Process} {st : System.Stage} {e : Event}

/-- Every step is a step of the launches' protocol, or none of it. -/
theorem step_follows (h : Shows s st) (hs : Step s e s') :
    match e.system with
    | some e' => ∃ st', System.Stage.Step st e' st' ∧ Shows s' st'
    | none => Shows s' st := by
  cases hs with
  | callback buffer hd => exact ⟨h.sys, h.home⟩
  | profile hd hr hp => exact ⟨shows_gwin h.sys _, h.home⟩
  | @thread a e sys hd hn =>
    obtain ⟨st', hst, hshows⟩ := System.next_follows h.sys hn
    rw [label_system]
    refine ⟨st', hst, hshows, fun hdes => ?_⟩
    have hhome := h.home hdes
    subst hhome
    cases hst with
    | launch g =>
      have hlaunch := hd hdes
      rw [launched_isLaunch hn] at hlaunch
      cases hlaunch
    | other => rfl
  | destroy hd happ =>
    refine ⟨h.sys, fun _ => ?_⟩
    have hst := h.sys.app
    rw [happ] at hst
    cases st <;> cases hst
    rfl

end

section
variable {start : ULong} {pkt : Vector ULong pktWords} {tr : List Event} {s s' : Process}
  {e : Event}

theorem step_of_lts (h : (lts start pkt).step s e s') : Step s e s' := by
  obtain ⟨a, ha⟩ := h
  exact next_step ha

theorem create_shows (start : ULong) (pkt : Vector ULong pktWords) :
    Shows (create start pkt) .home :=
  ⟨System.start_shows pkt, fun _ => rfl⟩

/-- **Along every run of the process the launches have a stage.** -/
theorem exists_stage (h : (lts start pkt).Run tr s) :
    ∃ st, System.Stage.protocol.Run (tr.filterMap Event.system) st ∧ Shows s st := by
  refine h.simulate (N := System.Stage.protocol) (p := Event.system) (R := Shows) ?_ ?_
  · intro s hinit
    exact ⟨.home, rfl, hinit ▸ create_shows start pkt⟩
  · intro s st e s' hshows hs
    have hf := step_follows hshows (step_of_lts hs)
    split at hf
    · rename_i heq
      rw [heq]
      exact hf
    · rename_i heq
      rw [heq]
      exact hf

/-- **Taking turns.** In every run from lowered flags: while the predictor's thread is not in its
`Wait(1)`, the application's thread is in its `Wait(2)`; so the grid and the buffer of the
predictor, which no lock guards, are used by one thread at a time, and so is the window if the
application calls `XrushProfile` between its launches only. After `XrushDestroy` no step of the
client is left. -/
theorem takes_turns (h : (lts start pkt).Run tr s) :
    (s.sys.pc ≠ .waiting → s.sys.app = .waiting) ∧
    (s.destroyed = true → ∀ e s', (lts start pkt).step s e s' → ∃ b, e = .moved (.backend b)) := by
  obtain ⟨st, -, hshows⟩ := exists_stage h
  refine ⟨fun hpc => ?_, fun hd e s' hs => ?_⟩
  · have hturn : st.appTurn = false := by
      rw [← Bool.not_eq_true]
      exact fun ht => hpc (System.predictor_waits hshows.sys.pc ht)
    rw [hshows.sys.app]
    cases st <;> simp_all [System.Stage.appTurn, System.Stage.app]
  · obtain rfl := hshows.home hd
    cases step_of_lts hs with
    | callback buffer hd' => rw [hd] at hd'; cases hd'
    | profile hd' => rw [hd] at hd'; cases hd'
    | destroy hd' => rw [hd] at hd'; cases hd'
    | @thread a e sys hlaunch hn =>
      obtain ⟨st', hst, -⟩ := System.next_follows hshows.sys hn
      cases hst with
      | launch g =>
        have hno := hlaunch hd
        rw [launched_isLaunch hn] at hno
        cases hno
      | @other _ b => exact ⟨b, rfl⟩

end

/-- A launch up to the predictor's waking. -/
theorem woken_turn : ∃ tr s, (lts 0 (Vector.replicate pktWords 0)).Run tr s ∧
    s.sys.pc = .reading ∧ s.sys.app = .waiting := by
  have hrun := Lts.run_schedule (create 0 (Vector.replicate pktWords 0)) next
    [.thread (.launch .unit), .thread .app, .thread (.predictor 0 fun _ => 0)] rfl
  exact ⟨_, _, hrun, rfl, (takes_turns hrun).1 (fun hpc => by cases hpc)⟩

end Propreact.Process
