import Propreact.Client.Threads
import Propreact.Lib.Sequences

/-!
# Launching at once

A launch waits for one `Notify(2)`, and that for one `Notify(1)`; a notification of a flag that is
raised already is lost. `Tokens` is the account of this: the launches in `Wait(2)` are those a
notification is under way for, and one for each notification lost. With one launch at a time none
is lost, and no grid is overwritten (`alone`); a launch that starts while another one is open can
make one get lost (`overlap_loses`).
-/

namespace Propreact.Threads

open Sequences

/-- The steps of the threads. -/
inductive Step (s : Threads) : Event → Threads → Prop
  | launch {i : Nat} (g : Grid) :
    s.apps[i]? = some .idle →
    Step s (.launched i g) { s with trig.grid := g, apps := s.apps.set i .notifying }
  | notify1 {i : Nat} :
    s.apps[i]? = some .notifying →
    Step s (.notified1 i s.trig.ready1)
      { s with trig.ready1 := true, apps := s.apps.set i .waiting }
  | return {i : Nat} :
    s.apps[i]? = some .waiting → s.trig.ready2 = true →
    Step s (.returned i) { s with trig.ready2 := false, apps := s.apps.set i .idle }
  | wake : s.pred = .waiting → s.trig.ready1 = true →
    Step s .woke { s with trig.ready1 := false, pred := .reading }
  | read : s.pred = .reading → Step s (.readData s.trig.grid) { s with pred := .notifying }
  | notify2 : s.pred = .notifying →
    Step s (.notified2 s.trig.ready2) { s with trig.ready2 := true, pred := .waiting }

theorem next_step {s s' : Threads} {a : Action} {e : Event} (h : s.next a = some (e, s')) :
    Step s e s' := by
  cases a with
  | launch i g =>
    simp only [next] at h
    split at h
    · rename_i hi
      cases h
      exact .launch g hi
    · cases h
  | app i =>
    simp only [next, appNext] at h
    split at h
    · rename_i hi
      cases h
      exact .notify1 hi
    · rename_i hi
      by_cases hr : s.trig.ready2 = true
      · simp only [Trigger.wait, hr] at h
        cases h
        exact .return hi hr
      · simp [Trigger.wait, hr] at h
    · cases h
  | predictor =>
    simp only [next, predictorNext] at h
    split at h
    · rename_i hp
      by_cases hr : s.trig.ready1 = true
      · simp only [Trigger.wait, hr] at h
        cases h
        exact .wake hp hr
      · simp [Trigger.wait, hr] at h
    · rename_i hp
      cases h
      exact .read hp
    · rename_i hp
      cases h
      exact .notify2 hp

variable {n : Nat} {tr : List Event} {s s' : Threads} {e : Event}

theorem unread_concat (tr : List Event) (e : Event) :
    unread (tr ++ [e]) =
      match e with
      | .launched _ g => some g
      | .readData g => if unread tr = some g then none else unread tr
      | _ => unread tr := by
  rw [unread, List.foldl_append]
  rfl

theorem countP_concat (p : Event → Bool) (tr : List Event) (e : Event) :
    (tr ++ [e]).countP p = tr.countP p + (p e).toNat := by
  rw [List.countP_append, List.countP_singleton]
  cases p e <;> rfl

/-- The predictor has woken and not notified. -/
def busy : Predictor.Turn → Nat
  | .waiting => 0
  | _ => 1

/-- What a run has brought about. A notification that was not lost is a raised flag, or the
predictor that it woke, or a launch that has returned. -/
structure Tokens (tr : List Event) (s : Threads) : Prop where
  opened : tr.countP Event.isLaunched =
    tr.countP Event.isReturned + s.apps.count .notifying + s.apps.count .waiting
  read : tr.countP Event.isReturned + s.trig.ready2.toNat +
    (if s.pred = .notifying then 1 else 0) ≤ tr.countP Event.isRead
  waiting : s.apps.count .waiting =
    tr.countP Event.isCoalesced + s.trig.ready1.toNat + s.trig.ready2.toNat + busy s.pred
  slot : ∀ g, unread tr = some g →
    s.trig.grid = g ∧ (.notifying ∈ s.apps ∨ s.trig.ready1 = true ∨ s.pred = .reading)

/-- A launch leads from the calls to the notifications, and from there to the returns. -/
theorem Step.counts (hs : Step s e s') :
    s'.apps.count .notifying + e.isNotified1.toNat =
        s.apps.count .notifying + e.isLaunched.toNat ∧
      s'.apps.count .waiting + e.isReturned.toNat =
        s.apps.count .waiting + e.isNotified1.toNat := by
  cases hs with
  | launch g hi => exact ⟨count_set_add hi .notifying, count_set_add hi .waiting⟩
  | notify1 hi => exact ⟨count_set_add hi .notifying, count_set_add hi .waiting⟩
  | «return» hi => exact ⟨count_set_add hi .notifying, count_set_add hi .waiting⟩
  | wake => exact ⟨rfl, rfl⟩
  | read => exact ⟨rfl, rfl⟩
  | notify2 => exact ⟨rfl, rfl⟩

/-- A notification raises its flag or is lost; a flag wakes the predictor or lets a launch
return. -/
theorem Step.flags (hs : Step s e s') :
    s'.trig.ready1.toNat + s'.trig.ready2.toNat + busy s'.pred + e.isCoalesced.toNat +
        e.isReturned.toNat =
      s.trig.ready1.toNat + s.trig.ready2.toNat + busy s.pred + e.isNotified1.toNat := by
  cases hs with
  | launch g => rfl
  | notify1 =>
    show 1 + s.trig.ready2.toNat + busy s.pred + s.trig.ready1.toNat + 0 =
      s.trig.ready1.toNat + s.trig.ready2.toNat + busy s.pred + 1
    omega
  | «return» _ hr =>
    show s.trig.ready1.toNat + 0 + busy s.pred + 0 + 1 =
      s.trig.ready1.toNat + s.trig.ready2.toNat + busy s.pred + 0
    rw [hr, Bool.toNat_true]
    omega
  | wake hp hr =>
    show 0 + s.trig.ready2.toNat + 1 + 0 + 0 =
      s.trig.ready1.toNat + s.trig.ready2.toNat + busy s.pred + 0
    rw [hp, hr, Bool.toNat_true, busy]
    omega
  | read hp =>
    show s.trig.ready1.toNat + s.trig.ready2.toNat + 1 + 0 + 0 =
      s.trig.ready1.toNat + s.trig.ready2.toNat + busy s.pred + 0
    rw [hp]
    rfl
  | notify2 hp =>
    show s.trig.ready1.toNat + 1 + 0 + s.trig.ready2.toNat + 0 =
      s.trig.ready1.toNat + s.trig.ready2.toNat + busy s.pred + 0
    rw [hp]
    show _ = _ + 1 + 0
    omega

/-- A launch returns only by a notification that follows a read. -/
theorem Step.answers (hs : Step s e s') :
    s'.trig.ready2.toNat + (if s'.pred = .notifying then 1 else 0) + e.isReturned.toNat ≤
      s.trig.ready2.toNat + (if s.pred = .notifying then 1 else 0) + e.isRead.toNat := by
  cases hs with
  | launch g => exact le_rfl
  | notify1 => exact le_rfl
  | «return» _ hr =>
    show 0 + (if s.pred = .notifying then 1 else 0) + 1 ≤ s.trig.ready2.toNat + _ + 0
    rw [hr, Bool.toNat_true]
    omega
  | wake hp =>
    rw [hp]
    exact le_rfl
  | read hp =>
    rw [hp]
    exact le_rfl
  | notify2 hp =>
    rw [hp]
    show 1 + 0 + 0 ≤ s.trig.ready2.toNat + 1 + 0
    omega

/-- The grid of the slot is under way to the predictor, until it reads it. -/
theorem Step.slot (hs : Step s e s')
    (h : ∀ g, unread tr = some g →
      s.trig.grid = g ∧ (.notifying ∈ s.apps ∨ s.trig.ready1 = true ∨ s.pred = .reading)) :
    ∀ g, unread (tr ++ [e]) = some g →
      s'.trig.grid = g ∧ (.notifying ∈ s'.apps ∨ s'.trig.ready1 = true ∨ s'.pred = .reading) := by
  intro g hg
  rw [unread_concat] at hg
  cases hs with
  | launch g' hi =>
    cases hg
    exact ⟨rfl, .inl (List.mem_set (List.getElem?_eq_some_iff.1 hi).1 _)⟩
  | notify1 => exact ⟨(h g hg).1, .inr (.inl rfl)⟩
  | @«return» i hi =>
    obtain ⟨hgrid, hway⟩ := h g hg
    refine ⟨hgrid, hway.imp_left fun hmem => ?_⟩
    obtain ⟨j, hj⟩ := List.mem_iff_getElem?.1 hmem
    have hij : i ≠ j := by
      rintro rfl
      rw [hi] at hj
      cases hj
    exact List.mem_of_getElem? ((List.getElem?_set_ne hij).trans hj)
  | wake => exact ⟨(h g hg).1, .inr (.inr rfl)⟩
  | read hp =>
    simp only at hg
    split at hg
    · cases hg
    · rename_i hne
      rw [(h g hg).1] at hne
      exact absurd hg hne
  | notify2 hp =>
    obtain ⟨hgrid, hway⟩ := h g hg
    refine ⟨hgrid, ?_⟩
    rcases hway with hmem | hr | hread
    · exact .inl hmem
    · exact .inr (.inl hr)
    · rw [hp] at hread
      cases hread

theorem Tokens.step (h : Tokens tr s) (hs : Step s e s') : Tokens (tr ++ [e]) s' := by
  obtain ⟨hopened, hread, hwaiting, hslot⟩ := h
  obtain ⟨hnotifying, hcalls⟩ := hs.counts
  have hflags := hs.flags
  have hanswers := hs.answers
  refine ⟨?_, ?_, ?_, hs.slot hslot⟩ <;> simp only [countP_concat] <;> omega

theorem tokens (h : (lts n).Run tr s) : Tokens tr s := by
  refine h.trace_inv (I := Tokens) ?_ ?_
  · rintro s rfl
    refine ⟨?_, Nat.le_refl 0, ?_, by simp [unread]⟩ <;>
      simp [start, Trigger.new, busy, List.count_replicate]
  · intro tr s e s' _ ht hs
    obtain ⟨a, ha⟩ := hs
    exact ht.step (next_step ha)

theorem OneAtATime.of_concat (h : OneAtATime (tr ++ [e])) : OneAtATime tr := by
  intro pre i g post heq
  apply h pre i g (post ++ [e])
  rw [heq]
  simp

/-- No call finds more calls made than returned. -/
theorem oneAtATime_iff : OneAtATime tr ↔ ¬ ∃ pre e, pre ++ [e] <+: tr ∧
    e.isLaunched = true ∧ pre.countP Event.isLaunched ≠ pre.countP Event.isReturned := by
  constructor
  · rintro h ⟨pre, e, ⟨post, rfl⟩, he, hne⟩
    cases e with
    | launched i g => exact hne (h pre i g post (List.append_cons ..).symm)
    | _ => cases he
  · intro h pre i g post heq
    by_contra hne
    exact h ⟨pre, .launched i g, ⟨post, by rw [heq, ← List.append_cons]⟩, rfl, hne⟩

instance (tr : List Event) : Decidable (OneAtATime tr) :=
  decidable_of_iff _ (oneAtATime_iff.trans (not_congr exists_split_iff)).symm

/-- With one launch at a time no more than one is open, and no notification is lost. -/
structure Alone (tr : List Event) (s : Threads) : Prop where
  one : s.apps.count .notifying + s.apps.count .waiting ≤ 1
  lost : tr.countP Event.isCoalesced = 0
  keeps : KeepsGrids tr

/-- With at most one launch open a notification finds its flag lowered. -/
theorem Tokens.not_coalesced (h : Tokens tr s) (hs : Step s e s')
    (hone : s.apps.count .notifying + s.apps.count .waiting ≤ 1) : e.isCoalesced = false := by
  have hwaiting := h.waiting
  cases hs with
  | notify1 hi =>
    have hmem : 0 < s.apps.count .notifying := List.count_pos_iff.2 (List.mem_of_getElem? hi)
    show s.trig.ready1 = false
    by_contra hr
    rw [Bool.not_eq_false] at hr
    rw [hr, Bool.toNat_true] at hwaiting
    omega
  | notify2 hp =>
    show s.trig.ready2 = false
    by_contra hr
    rw [Bool.not_eq_false] at hr
    rw [hr, hp, Bool.toNat_true, busy] at hwaiting
    · omega
    · simp
  | _ => rfl

/-- With no launch open the grid written last has been read. -/
theorem Tokens.unread_eq (h : Tokens tr s)
    (hnone : s.apps.count .notifying + s.apps.count .waiting = 0) : unread tr = none := by
  have hwaiting := h.waiting
  by_contra hne
  obtain ⟨g, hg⟩ := Option.ne_none_iff_exists'.1 hne
  rcases (h.slot g hg).2 with hmem | hr | hp
  · have := List.count_pos_iff.2 hmem
    omega
  · rw [hr, Bool.toNat_true] at hwaiting
    omega
  · rw [hp, busy] at hwaiting
    · omega
    · simp

theorem Alone.step (h : Alone tr s) (ht : Tokens tr s) (hs : Step s e s')
    (ho : OneAtATime (tr ++ [e])) : Alone (tr ++ [e]) s' := by
  have ht' := ht.step hs
  -- a launch is called only with none open
  have hcall (i : Nat) (g : Grid) (he : e = .launched i g) :
      s.apps.count .notifying + s.apps.count .waiting = 0 := by
    have heq := ho tr i g [] (by rw [he])
    have hopened := ht.opened
    omega
  have hnot := ht.not_coalesced hs h.one
  obtain ⟨hnotifying, hcalls⟩ := hs.counts
  refine ⟨?_, ?_, ?_⟩
  · have hone := h.one
    cases e with
    | launched i g =>
      have hnone := hcall i g rfl
      simp only [Event.isNotified1, Event.isLaunched, Event.isReturned, Bool.toNat_true,
        Bool.toNat_false] at hnotifying hcalls
      omega
    | _ =>
      simp only [Event.isLaunched, Bool.toNat_false] at hnotifying
      omega
  · rw [countP_concat, h.lost, hnot]
    rfl
  · intro pre i g post heq
    rcases concat_eq_append_cons heq with ⟨rfl, he⟩ | ⟨post, heq⟩
    · exact ht.unread_eq (hcall i g he)
    · exact h.keeps pre i g post heq

theorem alone (h : (lts n).Run tr s) (ho : OneAtATime tr) : Alone tr s := by
  revert ho
  refine h.trace_inv (I := fun tr s => OneAtATime tr → Alone tr s) ?_ ?_
  · rintro s rfl -
    refine ⟨by simp [start, List.count_replicate], rfl, ?_⟩
    intro pre i g post heq
    simp at heq
  · intro tr s e s' hr ih hs ho
    obtain ⟨a, ha⟩ := hs
    exact (ih ho.of_concat).step (tokens hr) (next_step ha) ho

/-! ## Losing a launch -/

/-- The number of notifications lost. -/
def lost (tr : List Event) : Nat := tr.countP Event.isCoalesced

theorem run_action {a : Action} (h : (lts n).Run tr s) (ha : s.next a = some (e, s')) :
    (lts n).Run (tr ++ [e]) s' := h.snoc ⟨a, ha⟩

/-- The predictor can end its turn; its notification is lost if the flag is raised. -/
theorem exists_notify2 (h : (lts n).Run tr s) (hp : s.pred ≠ .waiting) :
    ∃ es s', (lts n).Run (tr ++ es) s' ∧ s'.pred = .waiting ∧ s'.apps = s.apps ∧
      s'.trig.ready1 = s.trig.ready1 ∧ s'.trig.ready2 = true ∧
      lost (tr ++ es) = lost tr + s.trig.ready2.toNat := by
  have hnotify {tr : List Event} {s : Threads} (h : (lts n).Run tr s) (hp : s.pred = .notifying) :
      (lts n).Run (tr ++ [.notified2 s.trig.ready2])
        { s with trig.ready2 := true, pred := .waiting } := by
    apply run_action (a := .predictor) h
    simp [next, predictorNext, hp, Trigger.notify]
  cases hpred : s.pred with
  | waiting => exact absurd hpred hp
  | notifying =>
    exact ⟨_, _, hnotify h hpred, rfl, rfl, rfl, rfl, countP_concat _ _ _⟩
  | reading =>
    have hread : (lts n).Run (tr ++ [.readData s.trig.grid]) { s with pred := .notifying } := by
      apply run_action (a := .predictor) h
      simp [next, predictorNext, hpred, Trigger.readData]
    have hrun := hnotify hread rfl
    rw [List.append_assoc] at hrun
    refine ⟨_, _, hrun, rfl, rfl, rfl, rfl, ?_⟩
    rw [lost, ← List.append_assoc, countP_concat, countP_concat]
    rfl

/-- If the first flag is raised, the predictor can take a turn. -/
theorem exists_turn (h : (lts n).Run tr s) (hp : s.pred = .waiting)
    (hr : s.trig.ready1 = true) :
    ∃ es s', (lts n).Run (tr ++ es) s' ∧ s'.pred = .waiting ∧ s'.apps = s.apps ∧
      s'.trig.ready1 = false ∧ s'.trig.ready2 = true ∧
      lost (tr ++ es) = lost tr + s.trig.ready2.toNat := by
  have hwake : (lts n).Run (tr ++ [.woke]) { s with trig.ready1 := false, pred := .reading } := by
    apply run_action (a := .predictor) h
    simp [next, predictorNext, hp, Trigger.wait, hr]
  obtain ⟨es, s', hrun, hpred, happs, h1, h2, hlost⟩ := exists_notify2 hwake (by simp)
  rw [List.append_assoc] at hrun hlost
  refine ⟨_, s', hrun, hpred, happs, h1, h2, ?_⟩
  rw [hlost, lost, countP_concat]
  rfl

/-- If the second flag is raised, a launch can return. -/
theorem exists_return (h : (lts n).Run tr s) (hr : s.trig.ready2 = true) :
    ∃ es s', (lts n).Run (tr ++ es) s' ∧ s'.pred = s.pred ∧
      s'.trig.ready1 = s.trig.ready1 ∧ s'.trig.ready2 = false := by
  have hwaiting := (tokens h).waiting
  rw [hr, Bool.toNat_true] at hwaiting
  have hmem : .waiting ∈ s.apps := by
    apply List.count_pos_iff.1
    omega
  obtain ⟨i, hi⟩ := List.mem_iff_getElem?.1 hmem
  refine ⟨[.returned i], { s with trig.ready2 := false, apps := s.apps.set i .idle }, ?_, rfl, rfl,
    rfl⟩
  apply run_action (a := .app i) h
  simp [next, appNext, hi, Trigger.wait, hr]

/-- Without new calls and notifications the threads come to rest. -/
theorem exists_quiet (h : (lts n).Run tr s) : ∃ es s', (lts n).Run (tr ++ es) s' ∧ Quiet s' := by
  -- the predictor ends its turn
  obtain ⟨es1, s1, h1, hp1⟩ : ∃ es s', (lts n).Run (tr ++ es) s' ∧ s'.pred = .waiting := by
    by_cases hp : s.pred = .waiting
    · exact ⟨[], s, by simpa using h, hp⟩
    · obtain ⟨es, s', h', hp', -⟩ := exists_notify2 h hp
      exact ⟨es, s', h', hp'⟩
  -- and takes another one if it has been notified
  obtain ⟨es2, s2, h2, hp2, hr2⟩ : ∃ es s', (lts n).Run (tr ++ es) s' ∧ s'.pred = .waiting ∧
      s'.trig.ready1 = false := by
    by_cases hr : s1.trig.ready1 = true
    · obtain ⟨es, s', h', hp', -, hr', -⟩ := exists_turn h1 hp1 hr
      rw [List.append_assoc] at h'
      exact ⟨_, s', h', hp', hr'⟩
    · exact ⟨es1, s1, h1, hp1, by simpa using hr⟩
  -- and the launch that it answers returns
  by_cases hr : s2.trig.ready2 = true
  · obtain ⟨es, s', h', hp', hr1, hr2'⟩ := exists_return h2 hr
    rw [List.append_assoc] at h'
    exact ⟨_, s', h', hr1.trans hr2, hr2', hp'.trans hp2⟩
  · exact ⟨es2, s2, h2, hr2, by simpa using hr, hp2⟩

theorem run_notify1 {i : Nat} (h : (lts n).Run tr s) (hi : s.apps[i]? = some .notifying) :
    (lts n).Run (tr ++ [.notified1 i s.trig.ready1])
      { s with trig.ready1 := true, apps := s.apps.set i .waiting } := by
  apply run_action (a := .app i) h
  simp [next, appNext, hi, Trigger.notify]

/-- While the first flag is raised, an answer under way can raise the second one. -/
theorem exists_both_raised (h : (lts n).Run tr s) (hr : s.trig.ready1 = true)
    (hanswer : 0 < s.trig.ready2.toNat + busy s.pred) :
    ∃ es s', (lts n).Run (tr ++ es) s' ∧ s'.pred = .waiting ∧ s'.trig.ready1 = true ∧
      s'.trig.ready2 = true := by
  by_cases hp : s.pred = .waiting
  · refine ⟨[], s, by simpa using h, hp, hr, ?_⟩
    rw [hp, busy] at hanswer
    by_contra hr2
    rw [Bool.not_eq_true] at hr2
    rw [hr2] at hanswer
    exact absurd hanswer (lt_irrefl 0)
  · obtain ⟨es, s', h', hp', -, hr1, hr2, -⟩ := exists_notify2 h hp
    exact ⟨es, s', h', hp', hr1.trans hr, hr2⟩

/-- With a launch about to notify and another one open, a notification can get lost. -/
theorem exists_lost (h : (lts n).Run tr s) (hmem : .notifying ∈ s.apps)
    (hopen : 2 ≤ s.apps.count .notifying + s.apps.count .waiting) :
    ∃ es s', (lts n).Run (tr ++ es) s' ∧ 0 < lost (tr ++ es) := by
  obtain ⟨i, hi⟩ := List.mem_iff_getElem?.1 hmem
  have h1 := run_notify1 h hi
  obtain ⟨hnotifying, hwaiting⟩ := (Step.notify1 hi).counts
  generalize hs1 : ({ s with trig.ready1 := true, apps := s.apps.set i .waiting } : Threads) = s1
    at h1 hnotifying hwaiting
  have hr1 : s1.trig.ready1 = true := by rw [← hs1]
  by_cases hagain : .notifying ∈ s1.apps
  · -- the next notification finds the flag raised
    obtain ⟨j, hj⟩ := List.mem_iff_getElem?.1 hagain
    have h2 := run_notify1 h1 hj
    rw [List.append_assoc] at h2
    refine ⟨_, _, h2, ?_⟩
    rw [← List.append_assoc, lost, countP_concat, hr1]
    exact Nat.succ_pos _
  · by_cases hlost : 0 < lost (tr ++ [.notified1 i s.trig.ready1])
    · exact ⟨_, _, h1, hlost⟩
    · -- all launches wait, so an answer is under way; the next one finds its flag raised
      have hzero : s1.apps.count .notifying = 0 := List.count_eq_zero.2 hagain
      have hanswer : 0 < s1.trig.ready2.toNat + busy s1.pred := by
        have htokens := (tokens h1).waiting
        rw [hr1, Bool.toNat_true] at htokens
        simp only [Event.isNotified1, Event.isLaunched, Event.isReturned, Bool.toNat_true,
          Bool.toNat_false] at hnotifying hwaiting
        unfold lost at hlost
        omega
      obtain ⟨es2, s2, h2, hp2, hr12, hr22⟩ := exists_both_raised h1 hr1 hanswer
      obtain ⟨es3, s3, h3, -, -, -, -, hlost3⟩ := exists_turn h2 hp2 hr12
      rw [List.append_assoc, List.append_assoc] at h3
      refine ⟨_, s3, h3, ?_⟩
      rw [← List.append_assoc, ← List.append_assoc, hlost3, hr22]
      exact Nat.succ_pos _

/-- Wherever `launch` is called while another call has not returned, a
launch can be left in `Wait(2)`. -/
theorem overlap_loses {i : Nat} (g : Grid) (h : (lts n).Run tr s) (hi : s.apps[i]? = some .idle)
    (hopen : tr.countP Event.isReturned < tr.countP Event.isLaunched) :
    ∃ es s', (lts n).Run (tr ++ .launched i g :: es) s' ∧ Quiet s' ∧ .waiting ∈ s'.apps := by
  have h1 : (lts n).Run (tr ++ [.launched i g])
      { s with trig.grid := g, apps := s.apps.set i .notifying } := by
    apply run_action (a := .launch i g) h
    simp [next, hi, Trigger.writeData]
  have hmem : .notifying ∈ s.apps.set i .notifying :=
    List.mem_set (List.getElem?_eq_some_iff.1 hi).1 _
  have htwo : 2 ≤ (s.apps.set i .notifying).count .notifying +
      (s.apps.set i .notifying).count .waiting := by
    have hopened := (tokens h1).opened
    simp only [countP_concat, Event.isLaunched, Event.isReturned, Bool.toNat_true,
      Bool.toNat_false] at hopened
    omega
  obtain ⟨es2, s2, h2, hlost⟩ := exists_lost h1 hmem htwo
  obtain ⟨es3, s3, h3, hquiet⟩ := exists_quiet h2
  have hleft : 0 < s3.apps.count .waiting := by
    rw [(tokens h3).waiting, List.countP_append]
    unfold lost at hlost
    omega
  refine ⟨es2 ++ es3, s3, ?_, hquiet, List.count_pos_iff.1 hleft⟩
  simpa using h3

/-- **Launching at once.** In every run the predictor has read at least as many grids as launches
have returned; and when it waits with both flags lowered, as many launches are left in `Wait(2)` as
notifications were lost. If `launch` is called only when all calls before have returned, every
grid is read before the next one is written, and then no launch is left. If it is called while
another call has not returned, the run can go on so that one is left. -/
theorem launches_kept (h : (lts n).Run tr s) :
    tr.countP Event.isReturned ≤ tr.countP Event.isRead ∧
      (Quiet s → s.apps.count .waiting = tr.countP Event.isCoalesced) ∧
      (OneAtATime tr → KeepsGrids tr ∧ (Quiet s → .waiting ∉ s.apps)) ∧
      ∀ i g, s.apps[i]? = some .idle →
        tr.countP Event.isReturned < tr.countP Event.isLaunched →
        ∃ es s', (lts n).Run (tr ++ .launched i g :: es) s' ∧ Quiet s' ∧ .waiting ∈ s'.apps := by
  have ht := tokens h
  have hread := ht.read
  have hquiet (hq : Quiet s) : s.apps.count .waiting = tr.countP Event.isCoalesced := by
    have hwaiting := ht.waiting
    rwa [hq.ready1, hq.ready2, hq.pred] at hwaiting
  refine ⟨by omega, hquiet, ?_, fun i g => overlap_loses g h⟩
  intro ho
  have ha := alone h ho
  refine ⟨ha.keeps, ?_⟩
  intro hq
  rw [← List.count_eq_zero, hquiet hq, ha.lost]

/-- Two threads, one after the other. -/
theorem in_turn_kept : ∃ tr s, (lts 2).Run tr s ∧ tr.countP Event.isLaunched = 2 ∧
    tr.countP Event.isReturned ≤ tr.countP Event.isRead ∧ Quiet s ∧
    s.apps.count .waiting = tr.countP Event.isCoalesced ∧ KeepsGrids tr ∧ .waiting ∉ s.apps := by
  have hrun := Lts.run_schedule (start 2) next
    [.launch 0 ⟨5, 1, 1⟩, .app 0, .predictor, .predictor, .predictor, .app 0,
      .launch 1 ⟨6, 1, 1⟩, .app 1, .predictor, .predictor, .predictor, .app 1] rfl
  obtain ⟨hread, hleft, hkept, -⟩ := launches_kept hrun
  obtain ⟨hgrids, hnone⟩ := hkept (by decide)
  exact ⟨_, _, hrun, rfl, hread, ⟨rfl, rfl, rfl⟩, hleft ⟨rfl, rfl, rfl⟩, hgrids,
    hnone ⟨rfl, rfl, rfl⟩⟩

/-- Two threads at once: the second one overwrites the first one's grid, the two notifications
become one, and after its answer one launch is left. -/
theorem at_once_lost : ∃ tr s, (lts 2).Run tr s ∧ ¬ KeepsGrids tr ∧ Quiet s ∧
    .waiting ∈ s.apps := by
  have hrun := Lts.run_schedule (start 2) next
    [.launch 0 ⟨5, 1, 1⟩, .launch 1 ⟨6, 1, 1⟩, .app 0, .app 1, .predictor, .predictor, .predictor,
      .app 0] rfl
  refine ⟨_, _, hrun, ?_, ⟨rfl, rfl, rfl⟩, by decide⟩
  intro hkeeps
  exact absurd (hkeeps [.launched 0 ⟨5, 1, 1⟩] 1 ⟨6, 1, 1⟩ _ rfl) (by decide)

end Propreact.Threads
