import Propreact.Lib.Calls

/-!
# Critical sections of many turns

`Critical κ ρ β α`: each call of `κ` locks the one mutex, works on the object in turns, with local
state `β`, and unlocks. In between the object may be in any state. If the turns end as one step
`exec` does (`Implements`, with an invariant that relates the object before the call to the object
under work), then no thread sees what is in between: the calls take effect at one moment
(`run_calls`).
-/

structure Critical (κ ρ β α : Type*) where
  enter : κ → β
  /-- One turn: what is left to do, or the result. -/
  turn : β → α → (β ⊕ ρ) × α

namespace Critical

variable {κ ρ β α θ : Type*}

/-- Where a thread is in its call. -/
inductive Pc (κ ρ β : Type*) where
  | outside
  | locking (c : κ)
  | working (c : κ) (b : β)
  | unlocking (c : κ) (r : ρ)
  | leaving (c : κ) (r : ρ)

structure State (κ ρ β θ α : Type*) where
  obj : α
  owner : Option θ
  pc : θ → Pc κ ρ β

/-- All threads outside, the mutex free. -/
def State.start (obj : α) : State κ ρ β θ α := ⟨obj, none, fun _ => .outside⟩

section
variable [DecidableEq θ]

def State.setPc (s : State κ ρ β θ α) (t : θ) (pc : Pc κ ρ β) : State κ ρ β θ α :=
  { s with pc := Function.update s.pc t pc }

/-- A step; `none` is one inside a call. -/
inductive Step (C : Critical κ ρ β α) :
    State κ ρ β θ α → Option (Calls.Event κ ρ θ) → State κ ρ β θ α → Prop
  | invoke {s : State κ ρ β θ α} {t : θ} (c : κ) :
    s.pc t = .outside → Step C s (some (.invoked t c)) (s.setPc t (.locking c))
  | lock {s : State κ ρ β θ α} {t : θ} {c : κ} :
    s.pc t = .locking c → s.owner = none →
    Step C s none { s.setPc t (.working c (C.enter c)) with owner := some t }
  | turn {s : State κ ρ β θ α} {t : θ} {c : κ} {b b' : β} {obj : α} :
    s.pc t = .working c b → C.turn b s.obj = (.inl b', obj) →
    Step C s none { s.setPc t (.working c b') with obj }
  | last {s : State κ ρ β θ α} {t : θ} {c : κ} {b : β} {r : ρ} {obj : α} :
    s.pc t = .working c b → C.turn b s.obj = (.inr r, obj) →
    Step C s (some (.took t c r)) { s.setPc t (.unlocking c r) with obj }
  | unlock {s : State κ ρ β θ α} {t : θ} {c : κ} {r : ρ} :
    s.pc t = .unlocking c r → Step C s none { s.setPc t (.leaving c r) with owner := none }
  | leave {s : State κ ρ β θ α} {t : θ} {c : κ} {r : ρ} :
    s.pc t = .leaving c r → Step C s (some (.returned t c r)) (s.setPc t .outside)

/-- All interleavings of the threads' turns on the object `obj`. -/
def lts (C : Critical κ ρ β α) (obj : α) :
    Lts (State κ ρ β θ α) (Option (Calls.Event κ ρ θ)) where
  init s := s = .start obj
  step := Step C

end

/-- The turns of each call, from an object that satisfies `Wf`, make up `exec`. `Works c a b a'`:
the call `c` has the local state `b` and has made `a'` out of `a`. -/
structure Implements (C : Critical κ ρ β α) (exec : κ → α → Outcome (ρ × α)) (Wf : α → Prop)
    (Works : κ → α → β → α → Prop) : Prop where
  enter : ∀ c a, Wf a → Works c a (C.enter c) a
  turn : ∀ {c a b a' b' a''}, Wf a → Works c a b a' → C.turn b a' = (.inl b', a'') →
    Works c a b' a''
  last : ∀ {c a b a' r a''}, Wf a → Works c a b a' → C.turn b a' = (.inr r, a'') →
    exec c a = .ret (r, a'')
  wf : ∀ {c a r a'}, Wf a → exec c a = .ret (r, a') → Wf a'

def Pc.Holds : Pc κ ρ β → Prop
  | .working _ _ => True
  | .unlocking _ _ => True
  | _ => False

def Pc.status : Pc κ ρ β → Calls.Status κ ρ
  | .outside => .outside
  | .locking c => .called c
  | .working c _ => .called c
  | .unlocking c r => .done c r
  | .leaving c r => .done c r

/-- How a state shows the calls' state: the object is as the calls left it, unless a thread works
on it. -/
structure Shows (Wf : α → Prop) (Works : κ → α → β → α → Prop) (s : State κ ρ β θ α)
    (s1 : Calls.State κ ρ θ α) : Prop where
  owner : ∀ t, s.owner = some t ↔ (s.pc t).Holds
  status : ∀ t, s1.status t = (s.pc t).status
  live : s1.aborted = false
  wf : Wf s1.obj
  idle : (∀ t c b, s.pc t ≠ .working c b) → s.obj = s1.obj
  works : ∀ t c b, s.pc t = .working c b → Works c s1.obj b s.obj

section
variable [DecidableEq θ] {C : Critical κ ρ β α} {exec : κ → α → Outcome (ρ × α)} {Wf : α → Prop}
  {Works : κ → α → β → α → Prop} {s s' : State κ ρ β θ α} {s1 : Calls.State κ ρ θ α}
  {e : Option (Calls.Event κ ρ θ)} {tr : List (Option (Calls.Event κ ρ θ))} {t u : θ} {c : κ}
  {b : β} {r : ρ} {obj : α} {pc : Pc κ ρ β}

@[simp] theorem setPc_self : (s.setPc t pc).pc t = pc := Function.update_self ..

theorem setPc_of_ne (hu : u ≠ t) : (s.setPc t pc).pc u = s.pc u := Function.update_of_ne hu ..

omit [DecidableEq θ] in
/-- One thread at a time holds the mutex. -/
theorem Shows.one (h : Shows Wf Works s s1) (ht : (s.pc t).Holds) (hu : (s.pc u).Holds) :
    u = t := by
  have howner := (h.owner t).2 ht
  rw [(h.owner u).2 hu] at howner
  exact Option.some.inj howner

omit [DecidableEq θ] in
theorem Shows.free (h : Shows Wf Works s s1) (hfree : s.owner = none) (u : θ) :
    ¬ (s.pc u).Holds := by
  intro hu
  have howner := (h.owner u).2 hu
  rw [hfree] at howner
  cases howner

theorem Shows.status_setPc (h : Shows Wf Works s s1) (hst : s1.status t = pc.status) (u : θ) :
    s1.status u = ((s.setPc t pc).pc u).status := by
  by_cases hu : u = t
  · rw [hu, setPc_self, hst]
  · rw [setPc_of_ne hu, h.status]

theorem Shows.setStatus_setPc (h : Shows Wf Works s s1) (pc : Pc κ ρ β) (u : θ) :
    (s1.setStatus t pc.status).status u = ((s.setPc t pc).pc u).status := by
  by_cases hu : u = t
  · rw [hu, setPc_self]
    exact Function.update_self ..
  · rw [setPc_of_ne hu]
    exact (Function.update_of_ne hu ..).trans (h.status u)

/-- A step outside the mutex. -/
theorem Shows.away (h : Shows Wf Works s s1) (hout : ¬ (s.pc t).Holds) (hpc : ¬ pc.Holds) :
    Shows Wf Works (s.setPc t pc) (s1.setStatus t pc.status) where
  owner u := by
    by_cases hu : u = t
    · rw [hu, setPc_self, iff_false_right hpc]
      exact fun howner => hout ((h.owner t).1 howner)
    · rw [setPc_of_ne hu]
      exact h.owner u
  status := h.setStatus_setPc pc
  live := h.live
  wf := h.wf
  idle hno := by
    refine h.idle fun u c b hu => ?_
    have hne : u ≠ t := by
      rintro rfl
      rw [hu] at hout
      exact hout trivial
    exact hno u c b (by rw [setPc_of_ne hne, hu])
  works u c b hu := by
    have hne : u ≠ t := by
      rintro rfl
      rw [setPc_self] at hu
      rw [hu] at hpc
      exact hpc trivial
    rw [setPc_of_ne hne] at hu
    exact h.works u c b hu

theorem Shows.lock (hC : Implements C exec Wf Works) (h : Shows Wf Works s s1)
    (hc : s.pc t = .locking c) (hfree : s.owner = none) :
    Shows Wf Works { s.setPc t (.working c (C.enter c)) with owner := some t } s1 where
  owner u := by
    change some t = some u ↔ ((s.setPc t _).pc u).Holds
    by_cases hu : u = t
    · rw [hu, setPc_self]
      exact iff_of_true rfl trivial
    · rw [setPc_of_ne hu]
      exact iff_of_false (fun heq => hu (Option.some.inj heq).symm) (h.free hfree u)
  status := h.status_setPc (by rw [h.status, hc]; rfl)
  live := h.live
  wf := h.wf
  idle hno := absurd setPc_self (hno t c (C.enter c))
  works u c' b hu := by
    change (s.setPc t _).pc u = _ at hu
    have hidle : s.obj = s1.obj := h.idle fun v c b hv => h.free hfree v (by rw [hv]; trivial)
    by_cases hut : u = t
    · rw [hut, setPc_self] at hu
      cases hu
      change Works c s1.obj (C.enter c) s.obj
      rw [hidle]
      exact hC.enter c s1.obj h.wf
    · rw [setPc_of_ne hut] at hu
      exact absurd (by rw [hu]; trivial) (h.free hfree u)

theorem Shows.turn (hC : Implements C exec Wf Works) (h : Shows Wf Works s s1) {b' : β}
    (hc : s.pc t = .working c b) (hturn : C.turn b s.obj = (.inl b', obj)) :
    Shows Wf Works { s.setPc t (.working c b') with obj } s1 where
  owner u := by
    change s.owner = some u ↔ ((s.setPc t _).pc u).Holds
    rw [h.owner]
    by_cases hu : u = t
    · rw [hu, setPc_self, hc]
      rfl
    · rw [setPc_of_ne hu]
  status := h.status_setPc (by rw [h.status, hc]; rfl)
  live := h.live
  wf := h.wf
  idle hno := absurd setPc_self (hno t c b')
  works u c' b1 hu := by
    change (s.setPc t _).pc u = _ at hu
    by_cases hut : u = t
    · rw [hut, setPc_self] at hu
      cases hu
      exact hC.turn h.wf (h.works t c b hc) hturn
    · rw [setPc_of_ne hut] at hu
      exact absurd (h.one (by rw [hc]; trivial) (by rw [hu]; trivial)) hut

/-- The call takes effect in its last turn. -/
theorem Shows.last (hC : Implements C exec Wf Works) (h : Shows Wf Works s s1)
    (hc : s.pc t = .working c b) (hturn : C.turn b s.obj = (.inr r, obj)) :
    exec c s1.obj = .ret (r, obj) ∧
      Shows Wf Works { s.setPc t (.unlocking c r) with obj }
        { s1.setStatus t (.done c r) with obj } := by
  have hexec := hC.last h.wf (h.works t c b hc) hturn
  refine ⟨hexec, fun u => ?_, h.setStatus_setPc (.unlocking c r), h.live, hC.wf h.wf hexec,
    fun _ => rfl, fun u c' b1 hu => ?_⟩
  · change s.owner = some u ↔ ((s.setPc t _).pc u).Holds
    rw [h.owner]
    by_cases hu : u = t
    · rw [hu, setPc_self, hc]
      rfl
    · rw [setPc_of_ne hu]
  · change (s.setPc t _).pc u = _ at hu
    by_cases hut : u = t
    · rw [hut, setPc_self] at hu
      cases hu
    · rw [setPc_of_ne hut] at hu
      exact absurd (h.one (by rw [hc]; trivial) (by rw [hu]; trivial)) hut

theorem Shows.unlock (h : Shows Wf Works s s1) (hc : s.pc t = .unlocking c r) :
    Shows Wf Works { s.setPc t (.leaving c r) with owner := none } s1 where
  owner u := by
    change none = some u ↔ ((s.setPc t _).pc u).Holds
    refine iff_of_false nofun ?_
    by_cases hu : u = t
    · rw [hu, setPc_self]
      exact id
    · rw [setPc_of_ne hu]
      exact fun hholds => hu (h.one (by rw [hc]; trivial) hholds)
  status := h.status_setPc (by rw [h.status, hc]; rfl)
  live := h.live
  wf := h.wf
  idle hno := by
    refine h.idle fun u c' b hu => ?_
    have hne : u ≠ t := by
      rintro rfl
      rw [hc] at hu
      cases hu
    exact hno u c' b (by rw [← hu]; exact setPc_of_ne hne)
  works u c' b hu := by
    change (s.setPc t _).pc u = _ at hu
    by_cases hut : u = t
    · rw [hut, setPc_self] at hu
      cases hu
    · rw [setPc_of_ne hut] at hu
      exact h.works u c' b hu

/-- One step, for the callers. -/
theorem shows_step (hC : Implements C exec Wf Works) (h : Shows Wf Works s s1)
    (hs : Step C s e s') :
    match e with
    | some e' => ∃ s1', Calls.Step exec (fun _ _ => False) s1 e' s1' ∧ Shows Wf Works s' s1'
    | none => Shows Wf Works s' s1 := by
  have hstatus {t : θ} {pc : Pc κ ρ β} (hc : s.pc t = pc) : s1.status t = pc.status := by
    rw [h.status, hc]
  cases hs with
  | invoke c hc => exact ⟨_, .invoke c (hstatus hc), h.away (by rw [hc]; exact id) id⟩
  | lock hc hfree => exact h.lock hC hc hfree
  | turn hc hturn => exact h.turn hC hc hturn
  | last hc hturn =>
    obtain ⟨hexec, hshows⟩ := h.last hC hc hturn
    exact ⟨_, .take (hstatus hc) hexec, hshows⟩
  | unlock hc => exact h.unlock hc
  | leave hc => exact ⟨_, .leave (hstatus hc), h.away (by rw [hc]; exact id) id⟩

/-- **Atomicity.** Every run is, for the callers, a run of calls that take effect at one moment. -/
theorem run_calls (hC : Implements C exec Wf Works) {obj0 : α} (hwf : Wf obj0)
    (h : (C.lts obj0).Run tr s) :
    ∃ s1, (Calls.lts exec (fun _ _ => False) obj0).Run (tr.filterMap id) s1 ∧
      Shows Wf Works s s1 := by
  refine h.simulate ?_ ?_
  · rintro s rfl
    exact ⟨_, rfl, fun t => ⟨nofun, False.elim⟩, fun _ => rfl, rfl, hwf, fun _ => rfl, nofun⟩
  · intro s s1 e s' hshows hs
    have hstep := shows_step hC hshows hs
    cases e with
    | none => exact hstep
    | some e' =>
      obtain ⟨s1', hs1, hshows'⟩ := hstep
      exact ⟨s1', ⟨hshows.live, hs1⟩, hshows'⟩

end

end Critical
