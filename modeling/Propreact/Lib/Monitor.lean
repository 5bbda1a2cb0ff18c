import Propreact.Lib.Calls

/-!
# Calls under a mutex, with a condition variable

`Monitor κ ρ μ α`: each call of `κ` locks a mutex of `μ`, tests the object, writes it once and
unlocks. A call whose test blocks waits on the mutex's condition variable: it gives the mutex up,
sleeps, and tests again after it is woken, by a notification or for no reason. `notify_one` wakes
any one of the threads that sleep on the variable.

* `run_calls`: if only calls of one mutex change each other's tests, the threads cannot be told
  from threads whose calls take effect at one moment (`Calls.lts`);
* `run_rests`: if moreover every call that ends a wait notifies (`Signals`), no notification is
  lost: threads come to rest only where all calls under way block.
-/

/-- The parts of each call. -/
structure Monitor (κ ρ μ α : Type*) where
  mutex : κ → μ
  /-- What the call finds under the mutex: its result, or that it has to wait. -/
  test : κ → α → Outcome ρ
  write : κ → α → α
  /-- The call notifies the condition variable of its mutex. -/
  notifies : κ → Bool
  /-- What others do to the object. -/
  ext : α → α → Prop

namespace Monitor

variable {κ ρ μ α θ : Type*}

/-- The call as one step. -/
def exec (M : Monitor κ ρ μ α) (c : κ) (a : α) : Outcome (ρ × α) :=
  match M.test c a with
  | .ret r => .ret (r, M.write c a)
  | .blocks => .blocks
  | .aborts => .aborts

variable {M : Monitor κ ρ μ α} {c : κ} {r : ρ} {a : α}

theorem exec_eq_ret (h : M.test c a = .ret r) :
    M.exec c a = .ret (r, M.write c a) := by
  rw [exec, h]

theorem exec_eq_aborts (h : M.test c a = .aborts) : M.exec c a = .aborts := by
  rw [exec, h]

/-- Where a thread is in its call. -/
inductive Pc (κ ρ : Type*) where
  | outside
  /-- Asks for the mutex, at first or after it was woken. -/
  | locking (c : κ)
  | testing (c : κ)
  /-- Waits on the condition variable. -/
  | sleeping (c : κ)
  /-- The test gave a result. -/
  | writing (c : κ) (r : ρ)
  | notifying (c : κ) (r : ρ)
  | unlocking (c : κ) (r : ρ)
  | leaving (c : κ) (r : ρ)

structure State (κ ρ μ θ α : Type*) where
  obj : α
  owner : μ → Option θ
  pc : θ → Pc κ ρ
  aborted : Bool

inductive Label (κ ρ θ : Type*) where
  | call (e : Calls.Event κ ρ θ)
  /-- A step inside a call. -/
  | inner (t : θ)
  /-- A thread is woken for no reason. -/
  | spurious (t : θ)

/-- What the callers see. -/
def Label.call? : Label κ ρ θ → Option (Calls.Event κ ρ θ)
  | .call e => some e
  | _ => none

/-- Not a step that a call under way makes for itself. -/
def Label.IsNew : Label κ ρ θ → Prop
  | .call e => e.IsNew
  | .inner _ => False
  | .spurious _ => True

/-- All threads outside, all mutexes free. -/
def State.start (obj : α) : State κ ρ μ θ α := ⟨obj, fun _ => none, fun _ => .outside, false⟩

section
variable [DecidableEq θ]

def State.setPc (s : State κ ρ μ θ α) (t : θ) (pc : Pc κ ρ) : State κ ρ μ θ α :=
  { s with pc := Function.update s.pc t pc }

variable [DecidableEq μ]

def State.setOwner (s : State κ ρ μ θ α) (m : μ) (o : Option θ) : State κ ρ μ θ α :=
  { s with owner := Function.update s.owner m o }

inductive Step (M : Monitor κ ρ μ α) :
    State κ ρ μ θ α → Label κ ρ θ → State κ ρ μ θ α → Prop
  | invoke {s : State κ ρ μ θ α} {t : θ} (c : κ) :
    s.pc t = .outside → Step M s (.call (.invoked t c)) (s.setPc t (.locking c))
  | lock {s : State κ ρ μ θ α} {t : θ} {c : κ} :
    s.pc t = .locking c → s.owner (M.mutex c) = none →
    Step M s (.inner t) ((s.setOwner (M.mutex c) (some t)).setPc t (.testing c))
  | pass {s : State κ ρ μ θ α} {t : θ} {c : κ} {r : ρ} :
    s.pc t = .testing c → M.test c s.obj = .ret r →
    Step M s (.inner t) (s.setPc t (.writing c r))
  | sleep {s : State κ ρ μ θ α} {t : θ} {c : κ} :
    s.pc t = .testing c → M.test c s.obj = .blocks →
    Step M s (.inner t) ((s.setOwner (M.mutex c) none).setPc t (.sleeping c))
  | abort {s : State κ ρ μ θ α} {t : θ} {c : κ} :
    s.pc t = .testing c → M.test c s.obj = .aborts →
    Step M s (.call (.aborted t c)) { s with aborted := true }
  | write {s : State κ ρ μ θ α} {t : θ} {c : κ} {r : ρ} :
    s.pc t = .writing c r →
    Step M s (.call (.took t c r))
      { s.setPc t (if M.notifies c then .notifying c r else .unlocking c r) with
        obj := M.write c s.obj }
  | notify {s : State κ ρ μ θ α} {t u : θ} {c c' : κ} {r : ρ} :
    s.pc t = .notifying c r → s.pc u = .sleeping c' → M.mutex c' = M.mutex c →
    Step M s (.inner t) ((s.setPc u (.locking c')).setPc t (.unlocking c r))
  | notifyNone {s : State κ ρ μ θ α} {t : θ} {c : κ} {r : ρ} :
    s.pc t = .notifying c r → (∀ u c', s.pc u = .sleeping c' → M.mutex c' ≠ M.mutex c) →
    Step M s (.inner t) (s.setPc t (.unlocking c r))
  | unlock {s : State κ ρ μ θ α} {t : θ} {c : κ} {r : ρ} :
    s.pc t = .unlocking c r →
    Step M s (.inner t) ((s.setOwner (M.mutex c) none).setPc t (.leaving c r))
  | leave {s : State κ ρ μ θ α} {t : θ} {c : κ} {r : ρ} :
    s.pc t = .leaving c r → Step M s (.call (.returned t c r)) (s.setPc t .outside)
  | spurious {s : State κ ρ μ θ α} {t : θ} {c : κ} :
    s.pc t = .sleeping c → Step M s (.spurious t) (s.setPc t (.locking c))
  | other {s : State κ ρ μ θ α} {obj : α} :
    M.ext s.obj obj → Step M s (.call .other) { s with obj }

/-- All interleavings of the threads' steps on the object `obj`. -/
def lts (M : Monitor κ ρ μ α) (obj : α) : Lts (State κ ρ μ θ α) (Label κ ρ θ) where
  init s := s = .start obj
  step s e s' := s.aborted = false ∧ Step M s e s'

/-- No call that is under way can go on, unless a thread is woken for no reason. -/
def AtRest (M : Monitor κ ρ μ α) (s : State κ ρ μ θ α) : Prop :=
  ∀ e s', Step M s e s' → e.IsNew

end

/-! ## What the calls have to keep -/

/-- Only calls of one mutex change each other's tests. -/
structure Guarded (M : Monitor κ ρ μ α) : Prop where
  write : ∀ c c' a, M.mutex c ≠ M.mutex c' → M.test c (M.write c' a) = M.test c a
  ext : ∀ c a a', M.ext a a' → M.test c a' = M.test c a

/-- One notification is enough. -/
structure Signals (M : Monitor κ ρ μ α) : Prop where
  /-- All that wait on one condition variable make the same call. -/
  waiter : ∀ c c' a a', M.test c a = .blocks → M.test c' a' = .blocks → M.mutex c = M.mutex c' →
    c = c'
  /-- A call that has waited leaves nothing for another. -/
  lowers : ∀ c a a', M.test c a = .blocks → M.test c (M.write c a') = .blocks
  /-- A call that ends a wait notifies. -/
  raises : ∀ c c' a, M.mutex c = M.mutex c' → M.notifies c' = false → M.test c a = .blocks →
    M.test c (M.write c' a) = .blocks

/-- The mutex the thread holds. -/
def Pc.held (M : Monitor κ ρ μ α) : Pc κ ρ → Option μ
  | .testing c => some (M.mutex c)
  | .writing c _ => some (M.mutex c)
  | .notifying c _ => some (M.mutex c)
  | .unlocking c _ => some (M.mutex c)
  | _ => none

/-- The thread is about to see that the call need not wait, or to wake one that will. -/
def Pc.Heeds (M : Monitor κ ρ μ α) (c : κ) : Pc κ ρ → Prop
  | .locking c' => c' = c
  | .testing c' => c' = c
  | .writing c' _ => c' = c
  | .notifying c' _ => M.mutex c' = M.mutex c
  | _ => False

def Pc.status : Pc κ ρ → Calls.Status κ ρ
  | .outside => .outside
  | .locking c => .called c
  | .testing c => .called c
  | .sleeping c => .called c
  | .writing c _ => .called c
  | .notifying c r => .done c r
  | .unlocking c r => .done c r
  | .leaving c r => .done c r

/-- What holds in every state reached. -/
structure Inv (M : Monitor κ ρ μ α) (s : State κ ρ μ θ α) : Prop where
  owner : ∀ t m, s.owner m = some t ↔ (s.pc t).held M = some m
  /-- Nothing a thread has found under the mutex changes. -/
  found : ∀ t c r, s.pc t = .writing c r → M.test c s.obj = .ret r

/-- Nobody sleeps on a condition that holds, unless someone heeds it. -/
structure Awake (M : Monitor κ ρ μ α) (s : State κ ρ μ θ α) : Prop where
  slept : ∀ t c, s.pc t = .sleeping c → ∃ a, M.test c a = .blocks
  heeded : ∀ t c, s.pc t = .sleeping c → M.test c s.obj ≠ .blocks → ∃ u, (s.pc u).Heeds M c

section
variable [DecidableEq θ] {M : Monitor κ ρ μ α} {s s' : State κ ρ μ θ α} {e : Label κ ρ θ}
  {tr : List (Label κ ρ θ)} {t : θ} {m : μ} {pc pc' : Pc κ ρ} {obj0 : α}

/-! ## Threads -/

theorem Inv.setPc (hI : Inv M s) (hc : s.pc t = pc) (hheld : pc'.held M = pc.held M)
    (hfound : ∀ c r, pc' = .writing c r → M.test c s.obj = .ret r) : Inv M (s.setPc t pc') where
  owner u m := by
    by_cases hu : u = t
    · subst hu
      simp [State.setPc, hheld, hI.owner, hc]
    · simp [State.setPc, hu, hI.owner]
  found u c r hpc := by
    by_cases hu : u = t
    · subst hu
      exact hfound c r (by simpa [State.setPc] using hpc)
    · exact hI.found u c r (by simpa [State.setPc, hu] using hpc)

/-- Only the thread that holds the mutex changes what is found under it. -/
theorem Inv.write (hG : Guarded M) (hI : Inv M s) {c : κ} {r : ρ} (hc : s.pc t = .writing c r)
    (hheld : pc.held M = some (M.mutex c)) (hpc : ∀ c r, pc ≠ .writing c r) :
    Inv M { s.setPc t pc with obj := M.write c s.obj } where
  owner := (hI.setPc hc hheld fun c r h => absurd h (hpc c r)).owner
  found u c' r' h := by
    by_cases hu : u = t
    · subst hu
      exact absurd (by simpa [State.setPc] using h) (hpc c' r')
    · have hc' : s.pc u = .writing c' r' := by simpa [State.setPc, hu] using h
      have hne : M.mutex c' ≠ M.mutex c := by
        intro heq
        have ht := (hI.owner t (M.mutex c)).2 (by rw [hc]; rfl)
        have hu' := (hI.owner u (M.mutex c')).2 (by rw [hc']; rfl)
        rw [heq, ht] at hu'
        exact hu (Option.some.inj hu').symm
      exact (hG.write c' c s.obj hne).trans (hI.found u c' r' hc')

/-- A thread that stays awake keeps what it heeds. -/
theorem Awake.setPc (hA : Awake M s) (hc : s.pc t = pc) (hpc : ∀ c, pc' ≠ .sleeping c)
    (hkeep : ∀ u c, s.pc u = .sleeping c → pc.Heeds M c → pc'.Heeds M c) :
    Awake M (s.setPc t pc') where
  slept u c h := by
    by_cases hu : u = t
    · subst hu
      exact absurd (by simpa [State.setPc] using h) (hpc c)
    · exact hA.slept u c (by simpa [State.setPc, hu] using h)
  heeded u c h hne := by
    by_cases hu : u = t
    · subst hu
      exact absurd (by simpa [State.setPc] using h) (hpc c)
    · have hsleep : s.pc u = .sleeping c := by simpa [State.setPc, hu] using h
      obtain ⟨v, hv⟩ := hA.heeded u c hsleep hne
      by_cases hvt : v = t
      · subst hvt
        rw [hc] at hv
        exact ⟨v, by simpa [State.setPc] using hkeep u c hsleep hv⟩
      · exact ⟨v, by simpa [State.setPc, hvt] using hv⟩

/-- The test failed: no one has to be woken. -/
theorem Awake.sleep (hA : Awake M s) {c : κ} (hc : s.pc t = .testing c)
    (hb : M.test c s.obj = .blocks) : Awake M (s.setPc t (.sleeping c)) where
  slept u c' h := by
    by_cases hu : u = t
    · subst hu
      have heq : c = c' := by simpa [State.setPc] using h
      subst heq
      exact ⟨s.obj, hb⟩
    · exact hA.slept u c' (by simpa [State.setPc, hu] using h)
  heeded u c' h hne := by
    by_cases hu : u = t
    · subst hu
      have heq : c = c' := by simpa [State.setPc] using h
      subst heq
      exact absurd hb hne
    · obtain ⟨v, hv⟩ := hA.heeded u c' (by simpa [State.setPc, hu] using h) hne
      have hvt : v ≠ t := by
        rintro rfl
        rw [hc] at hv
        cases hv
        exact hne hb
      exact ⟨v, by simpa [State.setPc, hvt] using hv⟩

/-- A write that ends a wait is followed by a notification. -/
theorem Awake.write (hG : Guarded M) (hS : Signals M) (hA : Awake M s) {c : κ} {r : ρ}
    (hc : s.pc t = .writing c r) :
    Awake M { s.setPc t (if M.notifies c then .notifying c r else .unlocking c r) with
      obj := M.write c s.obj } where
  slept u c' h := by
    by_cases hu : u = t
    · subst hu
      cases hn : M.notifies c <;> simp [State.setPc, hn] at h
    · exact hA.slept u c' (by simpa [State.setPc, hu] using h)
  heeded u c' h hne := by
    by_cases hu : u = t
    · subst hu
      cases hn : M.notifies c <;> simp [State.setPc, hn] at h
    have hc' : s.pc u = .sleeping c' := by simpa [State.setPc, hu] using h
    obtain ⟨a, ha⟩ := hA.slept u c' hc'
    by_cases hm : M.mutex c' = M.mutex c
    · cases hn : M.notifies c with
      | true => exact ⟨t, by simpa [State.setPc, hn, Pc.Heeds] using hm.symm⟩
      | false =>
        -- the call has not ended the wait, and has not itself waited
        have hbefore : M.test c' s.obj ≠ .blocks := fun hb => hne (hS.raises c' c _ hm hn hb)
        obtain ⟨v, hv⟩ := hA.heeded u c' hc' hbefore
        have hvt : v ≠ t := by
          rintro rfl
          rw [hc] at hv
          cases hv
          exact hne (hS.lowers c a _ ha)
        exact ⟨v, by simpa [State.setPc, hvt] using hv⟩
    · have hsame : M.test c' (M.write c s.obj) = M.test c' s.obj := hG.write c' c _ hm
      obtain ⟨v, hv⟩ := hA.heeded u c' hc' (hsame ▸ hne)
      have hvt : v ≠ t := by
        rintro rfl
        rw [hc] at hv
        cases hv
        exact hm rfl
      exact ⟨v, by simpa [State.setPc, hvt] using hv⟩

/-- The woken thread heeds what the notifying one did. -/
theorem Awake.notify (hS : Signals M) (hA : Awake M s) {u : θ} {c c' : κ} {r : ρ}
    (hc : s.pc t = .notifying c r) (hu : s.pc u = .sleeping c') (hm : M.mutex c' = M.mutex c) :
    Awake M ((s.setPc u (.locking c')).setPc t (.unlocking c r)) := by
  have hne : u ≠ t := by
    rintro rfl
    rw [hc] at hu
    cases hu
  obtain ⟨a, ha⟩ := hA.slept u c' hu
  have hpcOf (w : θ) (hw : w ≠ t) (hwu : w ≠ u) :
      ((s.setPc u (.locking c')).setPc t (.unlocking c r)).pc w = s.pc w := by
    simp [State.setPc, hw, hwu]
  have hasleep (w : θ) (c0 : κ)
      (h : ((s.setPc u (.locking c')).setPc t (.unlocking c r)).pc w = .sleeping c0) :
      s.pc w = .sleeping c0 := by
    by_cases hw : w = t
    · simp [State.setPc, hw] at h
    by_cases hwu : w = u
    · simp [State.setPc, hwu, hne] at h
    rwa [hpcOf w hw hwu] at h
  refine ⟨fun w c0 h => hA.slept w c0 (hasleep w c0 h), fun w c0 h hblocks => ?_⟩
  obtain ⟨a0, ha0⟩ := hA.slept w c0 (hasleep w c0 h)
  by_cases hm0 : M.mutex c0 = M.mutex c
  · have heq : c' = c0 := hS.waiter c' c0 a a0 ha ha0 (hm.trans hm0.symm)
    exact ⟨u, by simp [State.setPc, hne, heq, Pc.Heeds]⟩
  · obtain ⟨v, hv⟩ := hA.heeded w c0 (hasleep w c0 h) hblocks
    have hvt : v ≠ t := by
      rintro rfl
      rw [hc] at hv
      exact hm0 (Eq.symm hv)
    have hvu : v ≠ u := by
      rintro rfl
      rw [hu] at hv
      cases hv
    exact ⟨v, by rwa [hpcOf v hvt hvu]⟩

def State.calls (s : State κ ρ μ θ α) : Calls.State κ ρ θ α where
  obj := s.obj
  status t := (s.pc t).status
  aborted := s.aborted

theorem calls_setPc (s : State κ ρ μ θ α) (t : θ) (pc : Pc κ ρ) :
    (s.setPc t pc).calls = s.calls.setStatus t pc.status := by
  simp only [State.calls, State.setPc, Calls.State.setStatus, Calls.State.mk.injEq, true_and,
    and_true]
  funext u
  by_cases hu : u = t
  · simp [hu]
  · simp [hu]

/-- A step inside a call leaves the caller's view. -/
theorem calls_setPc_same (hc : s.pc t = pc) (h : pc'.status = pc.status) :
    (s.setPc t pc').calls = s.calls := by
  have hsame : s.calls.status t = pc'.status := (congrArg Pc.status hc).trans h.symm
  rw [calls_setPc, Calls.State.setStatus, ← hsame, Function.update_eq_self]

/-! ## Mutexes -/

variable [DecidableEq μ]

theorem Inv.lock (hI : Inv M s) (hc : s.pc t = pc) (hfree : s.owner m = none)
    (hnone : pc.held M = none) (hheld : pc'.held M = some m) (hpc : ∀ c r, pc' ≠ .writing c r) :
    Inv M ((s.setOwner m (some t)).setPc t pc') where
  owner u m' := by
    have hu := hI.owner u m'
    by_cases hm : m' = m <;> by_cases hut : u = t
    · subst hm hut
      simp [State.setPc, State.setOwner, hheld]
    · subst hm
      rw [hfree] at hu
      have hother : ¬ (s.pc u).held M = some m' := fun h => nomatch hu.2 h
      simp [State.setPc, State.setOwner, hut, hother, Ne.symm hut]
    · subst hut
      rw [hc, hnone] at hu
      simp [State.setPc, State.setOwner, hm, hheld, hu, Ne.symm hm]
    · simp [State.setPc, State.setOwner, hm, hut, hu]
  found u c r h := by
    by_cases hu : u = t
    · subst hu
      exact absurd (by simpa [State.setPc] using h) (hpc c r)
    · exact hI.found u c r (by simpa [State.setPc, State.setOwner, hu] using h)

theorem Inv.release (hI : Inv M s) (hc : s.pc t = pc) (hheld : pc.held M = some m)
    (hnone : pc'.held M = none) (hpc : ∀ c r, pc' ≠ .writing c r) :
    Inv M ((s.setOwner m none).setPc t pc') where
  owner u m' := by
    have hu := hI.owner u m'
    by_cases hm : m' = m <;> by_cases hut : u = t
    · subst hm hut
      simp [State.setPc, State.setOwner, hnone]
    · subst hm
      rw [(hI.owner t m').2 (by rw [hc, hheld])] at hu
      have hother : ¬ (s.pc u).held M = some m' := fun h => hut (Option.some.inj (hu.2 h)).symm
      simp [State.setPc, State.setOwner, hut, hother]
    · subst hut
      rw [hc, hheld, Option.some.injEq] at hu
      have hother : ¬ s.owner m' = some u := fun h => hm (hu.1 h).symm
      simp [State.setPc, State.setOwner, hm, hnone, hother]
    · simp [State.setPc, State.setOwner, hm, hut, hu]
  found u c r h := by
    by_cases hu : u = t
    · subst hu
      exact absurd (by simpa [State.setPc] using h) (hpc c r)
    · exact hI.found u c r (by simpa [State.setPc, State.setOwner, hu] using h)

theorem Inv.step (hG : Guarded M) (hI : Inv M s) (h : Step M s e s') : Inv M s' := by
  cases h with
  | invoke c hc => exact hI.setPc hc rfl nofun
  | lock hc hfree => exact hI.lock hc hfree rfl rfl nofun
  | pass hc hr =>
    refine hI.setPc hc rfl fun c r h => ?_
    cases h
    exact hr
  | sleep hc _ => exact hI.release hc rfl rfl nofun
  | abort _ _ => exact ⟨hI.owner, hI.found⟩
  | @write t c r hc => cases M.notifies c <;> exact hI.write hG hc rfl nofun
  | @notify t u c c' r hc hu _ =>
    have hne : t ≠ u := by
      rintro rfl
      rw [hc] at hu
      cases hu
    have hI' : Inv M (s.setPc u (.locking c')) := hI.setPc hu rfl nofun
    have hpc : (s.setPc u (.locking c')).pc t = .notifying c r := by simp [State.setPc, hne, hc]
    exact hI'.setPc hpc rfl nofun
  | notifyNone hc _ => exact hI.setPc hc rfl nofun
  | unlock hc => exact hI.release hc rfl rfl nofun
  | leave hc => exact hI.setPc hc rfl nofun
  | spurious hc => exact hI.setPc hc rfl nofun
  | other hext => exact ⟨hI.owner, fun u c r h => (hG.ext c _ _ hext).trans (hI.found u c r h)⟩

omit [DecidableEq θ] in
theorem Awake.setOwner (hA : Awake M s) (m : μ) (o : Option θ) : Awake M (s.setOwner m o) :=
  ⟨hA.slept, hA.heeded⟩

theorem Awake.step (hG : Guarded M) (hS : Signals M) (hA : Awake M s) (h : Step M s e s') :
    Awake M s' := by
  cases h with
  | invoke c hc => exact hA.setPc hc nofun fun _ _ _ h => h.elim
  | lock hc _ => exact (hA.setOwner _ _).setPc hc nofun fun _ _ _ h => h
  | pass hc _ => exact hA.setPc hc nofun fun _ _ _ h => h
  | sleep hc hb => exact (hA.sleep hc hb).setOwner _ _
  | abort _ _ => exact ⟨hA.slept, hA.heeded⟩
  | write hc => exact hA.write hG hS hc
  | notify hc hu hm => exact hA.notify hS hc hu hm
  | notifyNone hc hnone =>
    exact hA.setPc hc nofun fun u c' hu h => absurd (Eq.symm h) (hnone u c' hu)
  | unlock hc => exact (hA.setOwner _ _).setPc hc nofun fun _ _ _ h => h.elim
  | leave hc => exact hA.setPc hc nofun fun _ _ _ h => h.elim
  | spurious hc => exact hA.setPc hc nofun fun _ _ _ h => h.elim
  | other hext =>
    refine ⟨hA.slept, fun u c hu hne => hA.heeded u c hu ?_⟩
    rwa [← hG.ext c _ _ hext]

/-! ## Runs -/

theorem inv (hG : Guarded M) (h : (M.lts obj0).Run tr s) : Inv M s := by
  refine h.inv (fun s hs => ?_) fun s e s' hI hs => hI.step hG hs.2
  cases hs
  exact ⟨fun t m => by simp [State.start, Pc.held], fun _ _ _ h => nomatch h⟩

theorem awake (hG : Guarded M) (hS : Signals M) (h : (M.lts obj0).Run tr s) : Awake M s := by
  refine h.inv (fun s hs => ?_) fun s e s' hA hs => hA.step hG hS hs.2
  cases hs
  exact ⟨fun _ _ h => (nomatch h), fun _ _ h => nomatch h⟩

/-- The call takes effect where it writes. -/
theorem calls_step (hI : Inv M s) (h : Step M s e s') :
    match e.call? with
    | some e' => Calls.Step M.exec M.ext s.calls e' s'.calls
    | none => s'.calls = s.calls := by
  have hstatus {t : θ} {pc : Pc κ ρ} (hc : s.pc t = pc) : s.calls.status t = pc.status :=
    congrArg Pc.status hc
  cases h with
  | invoke c hc =>
    rw [calls_setPc]
    exact .invoke c (hstatus hc)
  | @lock t c hc _ => exact calls_setPc_same (s := s.setOwner (M.mutex c) (some t)) hc rfl
  | pass hc _ => exact calls_setPc_same hc rfl
  | @sleep t c hc _ => exact calls_setPc_same (s := s.setOwner (M.mutex c) none) hc rfl
  | abort hc ha => exact .abort (hstatus hc) (exec_eq_aborts ha)
  | @write t c r hc =>
    have hstep : Calls.Step M.exec M.ext s.calls (.took t c r)
        { s.calls.setStatus t (.done c r) with obj := M.write c s.obj } :=
      .take (hstatus hc) (exec_eq_ret (hI.found t c r hc))
    have hsame : (s.setPc t (if M.notifies c then .notifying c r else .unlocking c r)).calls =
        s.calls.setStatus t (.done c r) := by
      rw [calls_setPc]
      cases M.notifies c <;> rfl
    rw [← hsame] at hstep
    exact hstep
  | @notify t u c c' r hc hu _ =>
    have hne : t ≠ u := by
      rintro rfl
      rw [hc] at hu
      cases hu
    have hpc : (s.setPc u (.locking c')).pc t = .notifying c r := by simp [State.setPc, hne, hc]
    have hwoken : (s.setPc u (.locking c')).calls = s.calls := calls_setPc_same hu rfl
    change ((s.setPc u (.locking c')).setPc t (.unlocking c r)).calls = s.calls
    rw [← hwoken]
    exact calls_setPc_same hpc rfl
  | notifyNone hc _ => exact calls_setPc_same hc rfl
  | @unlock t c r hc => exact calls_setPc_same (s := s.setOwner (M.mutex c) none) hc rfl
  | leave hc =>
    rw [calls_setPc]
    exact .leave (hstatus hc)
  | spurious hc => exact calls_setPc_same hc rfl
  | other hext => exact .other hext

/-- **Atomicity.** Every run is, for the callers, a run of calls that take effect at one moment. -/
theorem run_calls (hG : Guarded M) (h : (M.lts obj0).Run tr s) :
    (Calls.lts M.exec M.ext obj0).Run (tr.filterMap Label.call?) s.calls := by
  have hstart (s : State κ ρ μ θ α) (hs : (M.lts obj0).init s) :
      ∃ s1, (Calls.lts M.exec M.ext obj0).init s1 ∧ s1 = s.calls ∧ Inv M s := by
    refine ⟨s.calls, ?_, rfl, inv hG (.nil hs)⟩
    cases hs
    rfl
  have hsim : ∃ s1, (Calls.lts M.exec M.ext obj0).Run (tr.filterMap Label.call?) s1 ∧
      s1 = s.calls ∧ Inv M s := by
    refine h.simulate (R := fun s s1 => s1 = s.calls ∧ Inv M s) hstart ?_
    rintro s s1 e s' ⟨rfl, hI⟩ ⟨hlive, hs⟩
    have hstep := calls_step hI hs
    cases hp : e.call? with
    | none =>
      rw [hp] at hstep
      exact ⟨hstep.symm, hI.step hG hs⟩
    | some e' =>
      rw [hp] at hstep
      exact ⟨s'.calls, ⟨hlive, hstep⟩, rfl, hI.step hG hs⟩
  obtain ⟨s1, hr, rfl, -⟩ := hsim
  exact hr

theorem atRest_of_asleep (h : ∀ t, s.pc t = .outside ∨ ∃ c, s.pc t = .sleeping c) :
    AtRest M s := by
  intro e s' hs
  have hidle {t : θ} {pc : Pc κ ρ} (hpc : s.pc t = pc) : pc = .outside ∨ ∃ c, pc = .sleeping c :=
    hpc ▸ h t
  cases hs with
  | invoke _ _ => trivial
  | spurious _ => trivial
  | other _ => trivial
  | lock hc _ => simpa using hidle hc
  | pass hc _ => simpa using hidle hc
  | sleep hc _ => simpa using hidle hc
  | abort hc _ => simpa using hidle hc
  | write hc => simpa using hidle hc
  | notify hc _ _ => simpa using hidle hc
  | notifyNone hc _ => simpa using hidle hc
  | unlock hc => simpa using hidle hc
  | leave hc => simpa using hidle hc

/-- At rest no thread is inside a mutex. -/
theorem AtRest.held (hr : AtRest M s) (t : θ) : (s.pc t).held M = none := by
  cases hc : s.pc t with
  | outside => rfl
  | locking c => rfl
  | sleeping c => rfl
  | leaving c r => rfl
  | testing c =>
    cases ht : M.test c s.obj with
    | ret r => exact (hr _ _ (.pass hc ht)).elim
    | blocks => exact (hr _ _ (.sleep hc ht)).elim
    | aborts => exact (hr _ _ (.abort hc ht)).elim
  | writing c r => exact (hr _ _ (.write hc)).elim
  | notifying c r =>
    by_cases hany : ∃ u c', s.pc u = .sleeping c' ∧ M.mutex c' = M.mutex c
    · obtain ⟨u, c', hu, hm⟩ := hany
      exact (hr _ _ (.notify hc hu hm)).elim
    · refine (hr _ _ (.notifyNone hc fun u c' hu hm => ?_)).elim
      exact hany ⟨u, c', hu, hm⟩
  | unlocking c r => exact (hr _ _ (.unlock hc)).elim

/-- **No lost notification.** Threads come to rest only asleep on conditions that do not hold. -/
theorem run_rests (hG : Guarded M) (hS : Signals M) (h : (M.lts obj0).Run tr s)
    (hr : AtRest M s) (t : θ) :
    s.pc t = .outside ∨ ∃ c, s.pc t = .sleeping c ∧ M.test c s.obj = .blocks := by
  have hpcs (u : θ) : s.pc u = .outside ∨ ∃ c, s.pc u = .sleeping c := by
    have hheld := hr.held u
    cases hc : s.pc u with
    | outside => exact .inl rfl
    | sleeping c => exact .inr ⟨c, rfl⟩
    | locking c =>
      cases ho : s.owner (M.mutex c) with
      | none => exact (hr _ _ (.lock hc ho)).elim
      | some v =>
        have hv := ((inv hG h).owner v _).1 ho
        rw [hr.held v] at hv
        cases hv
    | leaving c r => exact (hr _ _ (.leave hc)).elim
    | _ => rw [hc] at hheld; cases hheld
  rcases hpcs t with hc | ⟨c, hc⟩
  · exact .inl hc
  · refine .inr ⟨c, hc, ?_⟩
    by_contra hne
    obtain ⟨u, hu⟩ := (awake hG hS h).heeded t c hc hne
    rcases hpcs u with hc' | ⟨c', hc'⟩
    · rw [hc'] at hu
      cases hu
    · rw [hc'] at hu
      cases hu

end

end Monitor
