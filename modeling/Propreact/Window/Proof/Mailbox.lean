import Propreact.Lib.Lts
import Propreact.Lib.Mailbox
import Propreact.Window.GlobalWindow

/-!
# The record buffer is a mailbox

However `produce` grows or shrinks the old records while it overwrites them, the new ones are left
(`overwrite_eq`). So the record buffer and `m_stale` make a one-slot mailbox (`buffer_refines`):
`consume` returns the argument of the `produce` right before it, or nothing (`one_slot`).
-/

namespace Propreact.GlobalWindow

variable {recs r : RecordVec} {gw gw' : GlobalWindow}

/-- Copying the first `n` records over the old ones. -/
theorem foldl_copyAt {n : Nat} (hr : n ≤ r.length) (hrecs : n ≤ recs.length) :
    (List.range n).foldl (copyAt r) recs = r.take n ++ recs.drop n := by
  induction n with
  | zero => rfl
  | succ n ih =>
    have hlen : (r.take n).length = n := by
      rw [List.length_take]
      omega
    rw [List.range_succ, List.foldl_append, ih (by omega) (by omega), List.foldl_cons,
      List.foldl_nil, copyAt, List.getElem?_eq_getElem hr, List.drop_eq_getElem_cons hrecs]
    show (r.take n ++ recs[n] :: recs.drop (n + 1)).set n r[n] = _
    rw [List.set_append_right _ _ (by omega), hlen, Nat.sub_self, List.set_cons_zero,
      List.take_succ_eq_append_getElem hr, List.append_assoc]
    rfl

/-- Growing by the records behind the first `n`. -/
theorem foldl_pushAt (n k : Nat) :
    (List.range' n k).foldl (pushAt r) (r.take n) = r.take (n + k) := by
  induction k generalizing n with
  | zero => rfl
  | succ k ih =>
    rw [List.range'_succ, List.foldl_cons, pushAt, ← List.take_add_one, ih]
    congr 1
    omega

/-- Shrinking by `k` records. -/
theorem foldl_dropLast (n k : Nat) :
    (List.range' n k).foldl (fun recs _ => recs.dropLast) recs =
      recs.take (recs.length - k) := by
  induction k generalizing n recs with
  | zero => simp
  | succ k ih =>
    rw [List.range'_succ, List.foldl_cons, ih, List.length_dropLast, List.dropLast_eq_take,
      List.take_take]
    congr 1
    omega

/-- Overwriting leaves the new records. -/
theorem overwrite_eq (recs r : RecordVec) : overwrite recs r = r := by
  unfold overwrite
  split
  · rename_i hlt
    rw [foldl_copyAt (by omega) le_rfl, List.drop_length, List.append_nil, foldl_pushAt]
    exact List.take_of_length_le (by omega)
  · rename_i hle
    have hlen : (r ++ recs.drop r.length).length - (recs.length - r.length) = r.length := by
      rw [List.length_append, List.length_drop]
      omega
    rw [foldl_copyAt le_rfl (by omega), List.take_length, foldl_dropLast, hlen]
    exact List.take_left

/-- The records the next `consume` returns. -/
def mail (gw : GlobalWindow) : RecordVec := if gw.stale then [] else gw.recs

theorem produce_eq (h : gw.mutex = false) (r : RecordVec) :
    gw.produce r = .ret { gw with recs := r, stale := false } := by
  simp [produce, lock, h, unlock, overwrite_eq]

theorem consume_eq (h : gw.mutex = false) :
    gw.consume = .ret (gw.mail, { gw with stale := true }) := by
  obtain ⟨recs, mutex, stale, idle, active⟩ := gw
  cases h
  cases stale <;> rfl

/-! ## Runs of produce and consume -/

/-- The window under calls of `produce` (a put) and `consume` (a take of what it returns). -/
def buffer : Lts GlobalWindow (Mailbox.Event RecordVec) where
  init gw := gw = new
  step gw e gw' :=
    match e with
    | .put r => gw.produce r = .ret gw'
    | .take r => gw.consume = .ret (r, gw')

/-- The slot: what was produced and not consumed yet. -/
def slot (gw : GlobalWindow) : Option RecordVec := if gw.stale then none else some gw.recs

theorem mail_eq_slot (gw : GlobalWindow) : gw.mail = gw.slot.getD [] := by
  unfold mail slot
  split <;> rfl

theorem buffer_put (h : gw.mutex = false) (r : RecordVec) :
    buffer.step gw (.put r) { gw with recs := r, stale := false } :=
  produce_eq h r

theorem buffer_take (h : gw.mutex = false) :
    buffer.step gw (.take gw.mail) { gw with stale := true } :=
  consume_eq h

/-- The window's record buffer refines the mailbox. -/
theorem buffer_refines {tr : List (Mailbox.Event RecordVec)} {gw : GlobalWindow}
    (h : buffer.Run tr gw) : gw.mutex = false ∧ (Mailbox.lts []).Run tr gw.slot := by
  induction h with
  | nil h0 =>
    cases h0
    exact ⟨rfl, .nil rfl⟩
  | @snoc tr gw gw' e _ hs ih =>
    obtain ⟨hfree, hrun⟩ := ih
    cases e with
    | put r =>
      have hs : gw.produce r = .ret gw' := hs
      rw [produce_eq hfree] at hs
      cases hs
      exact ⟨hfree, hrun.snoc rfl⟩
    | take r =>
      have hs : gw.consume = .ret (r, gw') := hs
      rw [consume_eq hfree] at hs
      cases hs
      exact ⟨hfree, hrun.snoc ⟨mail_eq_slot gw, rfl⟩⟩

/-- **One slot.** However `produce` and `consume` are called on a new window: each `consume`
returns the argument of the `produce` right before it, or nothing if there is none, so that the
batches consumed are a subsequence of those produced; and no call blocks. -/
theorem one_slot {tr : List (Mailbox.Event RecordVec)} {gw : GlobalWindow}
    (h : buffer.Run tr gw) :
    (Mailbox.lts []).Run tr gw.slot ∧
    (∀ pre r post, tr = pre ++ .take r :: post → r = (Mailbox.unread pre).getD []) ∧
    ((Mailbox.takes tr).filter (· ≠ [])).Sublist (Mailbox.puts tr) ∧
    (∀ r, ∃ gw', gw.produce r = .ret gw') ∧ ∃ r gw', gw.consume = .ret (r, gw') := by
  obtain ⟨hfree, hrun⟩ := buffer_refines h
  refine ⟨hrun, fun pre r post htr => Mailbox.take_eq hrun htr, Mailbox.takes_sublist hrun, ?_, ?_⟩
  · intro r
    exact ⟨_, produce_eq hfree r⟩
  · exact ⟨_, _, consume_eq hfree⟩

/-- A batch over a longer one that was not consumed, and two calls of `consume`. -/
theorem shorter_batch_consumed : ∃ gw,
    buffer.Run [.put [⟨1, 2, 3⟩, ⟨4, 5, 6⟩], .put [⟨7, 8, 9⟩], .take [⟨7, 8, 9⟩], .take []] gw ∧
      ([⟨7, 8, 9⟩] : RecordVec) =
        (Mailbox.unread [.put [⟨1, 2, 3⟩, ⟨4, 5, 6⟩], .put [⟨7, 8, 9⟩]]).getD [] := by
  have h0 : buffer.Run [] new := .nil rfl
  have h2 := (h0.snoc (buffer_put rfl [⟨1, 2, 3⟩, ⟨4, 5, 6⟩])).snoc (buffer_put rfl [⟨7, 8, 9⟩])
  have h4 := (h2.snoc (buffer_take rfl)).snoc (buffer_take rfl)
  exact ⟨_, h4, (one_slot h4).2.1 [.put _, .put _] _ [.take []] rfl⟩

end Propreact.GlobalWindow
