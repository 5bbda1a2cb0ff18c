import Propreact.Lib.Lts
import Propreact.Lib.Sequences

/-!
# One-slot mailboxes

A slot that a `put` fills, over what was in it, and a `take` empties; a `take` from an empty slot
gives the default `d`. In every run a `take` gives the value of the `put` right before it, if there
is one (`take_eq`), and the values taken, other than `d`, are a subsequence of the values put
(`takes_sublist`).
-/

namespace Mailbox

variable {α : Type*} {d : α}

inductive Event (α : Type*) where
  | put (a : α)
  /-- A take that gives `a`. -/
  | take (a : α)
  deriving Repr, DecidableEq

def lts (d : α) : Lts (Option α) (Event α) where
  init slot := slot = none
  step slot e slot' :=
    match e with
    | .put a => slot' = some a
    | .take a => a = slot.getD d ∧ slot' = none

/-- The values put, oldest first. -/
def puts (tr : List (Event α)) : List α :=
  tr.filterMap fun
    | .put a => some a
    | .take _ => none

/-- The values taken, oldest first. -/
def takes (tr : List (Event α)) : List α :=
  tr.filterMap fun
    | .put _ => none
    | .take a => some a

/-- The value of the last event, if that is a `put`. -/
def unread (tr : List (Event α)) : Option α :=
  tr.getLast?.bind fun
    | .put a => some a
    | .take _ => none

variable {tr : List (Event α)} {slot : Option α}

theorem slot_eq (h : (lts d).Run tr slot) : slot = unread tr := by
  cases h with
  | nil h0 => exact h0
  | @snoc tr s s' e _ hs =>
    rw [unread, List.getLast?_concat]
    cases e with
    | put a => exact hs
    | take a => exact hs.2

theorem take_eq (h : (lts d).Run tr slot) {pre post : List (Event α)} {a : α}
    (htr : tr = pre ++ .take a :: post) : a = (unread pre).getD d := by
  rw [htr, List.append_cons] at h
  obtain ⟨slot', h'⟩ := h.of_append
  obtain ⟨slot1, h1, hs⟩ := Lts.run_concat.1 h'
  rw [← slot_eq h1]
  exact hs.1

/-- What was taken, and then what is in the slot, comes out of the puts. -/
theorem takes_append_sublist [DecidableEq α] (h : (lts d).Run tr slot) :
    ((takes tr).filter (· ≠ d) ++ slot.toList).Sublist (puts tr) := by
  induction h with
  | nil h0 =>
    cases h0
    exact List.Sublist.refl _
  | @snoc tr slot slot' e _ hs ih =>
    rw [takes, puts, Sequences.filterMap_concat, Sequences.filterMap_concat, ← takes, ← puts]
    cases e with
    | put a =>
      cases hs
      rw [Option.toList_none, List.append_nil]
      exact ((List.sublist_append_left _ _).trans ih).append (List.Sublist.refl _)
    | take a =>
      obtain ⟨rfl, rfl⟩ := hs
      refine List.Sublist.trans ?_ (ih.trans (List.sublist_append_left _ _))
      cases slot with
      | none => simp
      | some b => by_cases hb : b = d <;> simp [hb]

theorem takes_sublist [DecidableEq α] (h : (lts d).Run tr slot) :
    ((takes tr).filter (· ≠ d)).Sublist (puts tr) :=
  (List.sublist_append_left _ _).trans (takes_append_sublist h)

end Mailbox
