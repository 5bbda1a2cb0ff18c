import Propreact.Window.Proof.Mailbox
import Propreact.Window.RecordBuffer

/-!
# No batch is torn

The loops of `produce` and `consume`, one record at a time under `m_mutex`, make up the two calls
(`Works`, `implements`). So however the threads' turns interleave, the record buffer is a one-slot
mailbox of whole batches (`batches_whole`).
-/

namespace Propreact.GlobalWindow

/-- What a call has made of the window `gw0`, where it is. -/
def Works (c : BufferCall) (gw0 : GlobalWindow) (b : Turn) (gw : GlobalWindow) : Prop :=
  match c, b with
  | .produce r, .comparing r' => r' = r ∧ gw = gw0
  | .produce r, .growing r' idx =>
    r' = r ∧ gw0.recs.length < r.length ∧ idx ≤ gw0.recs.length ∧
      gw = { gw0 with recs := r.take idx ++ gw0.recs.drop idx }
  | .produce r, .pushing r' idx =>
    r' = r ∧ idx ≤ r.length ∧ gw = { gw0 with recs := r.take idx }
  | .produce r, .shrinking r' idx lim =>
    r' = r ∧ lim = gw0.recs.length ∧ r.length ≤ lim ∧ idx ≤ r.length ∧
      gw = { gw0 with recs := r.take idx ++ gw0.recs.drop idx }
  | .produce r, .popping idx lim =>
    ∃ rest, rest.length = lim - idx ∧ gw = { gw0 with recs := r ++ rest }
  | .produce r, .freshening => gw = { gw0 with recs := r }
  | .consume, .testing => gw = gw0
  | .consume, .copying r idx => gw0.stale = false ∧ gw = gw0 ∧ r = gw0.recs.take idx
  | .consume, .staling r => gw0.stale = false ∧ gw = gw0 ∧ r = gw0.recs
  | _, _ => False

/-- Copying record `idx`. -/
theorem copyAt_take {r recs : RecordVec} {idx : Nat} (hr : idx < r.length)
    (hrecs : idx < recs.length) :
    copyAt r (r.take idx ++ recs.drop idx) idx = r.take (idx + 1) ++ recs.drop (idx + 1) := by
  have hcopied := foldl_copyAt (n := idx) hr.le hrecs.le
  have hcopied' := foldl_copyAt (n := idx + 1) hr hrecs
  rw [List.range_succ, List.foldl_append, hcopied] at hcopied'
  exact hcopied'

theorem pushAt_take {r : RecordVec} {idx : Nat} :
    pushAt r (r.take idx) idx = r.take (idx + 1) := by
  rw [pushAt, List.take_add_one]

variable {gw0 gw gw' : GlobalWindow} {b b' : Turn} {r : RecordVec} {out : Option RecordVec}

theorem produce_turn (hw : Works (.produce r) gw0 b gw) (h : b.next gw = (.inl b', gw')) :
    Works (.produce r) gw0 b' gw' := by
  cases b with
  | comparing r' =>
    obtain ⟨rfl, rfl⟩ := hw
    by_cases hlt : r'.length > gw.recs.length
    · rw [Turn.next, if_pos hlt] at h
      cases h
      exact ⟨rfl, hlt, Nat.zero_le _, rfl⟩
    · rw [Turn.next, if_neg hlt] at h
      cases h
      exact ⟨rfl, rfl, Nat.le_of_not_lt hlt, Nat.zero_le _, rfl⟩
  | growing r' idx =>
    obtain ⟨rfl, hlt, hidx, rfl⟩ := hw
    have hlen : (r'.take idx ++ gw0.recs.drop idx).length = gw0.recs.length := by
      rw [List.length_append, List.length_take, List.length_drop]
      omega
    by_cases hmore : idx < gw0.recs.length
    · rw [Turn.next, if_pos (by rw [hlen]; exact hmore)] at h
      cases h
      refine ⟨rfl, hlt, hmore, ?_⟩
      rw [copyAt_take (by omega) hmore]
    · rw [Turn.next, if_neg (by rw [hlen]; exact hmore)] at h
      cases h
      refine ⟨rfl, by omega, ?_⟩
      rw [List.drop_eq_nil_of_le (by omega), List.append_nil]
  | pushing r' idx =>
    obtain ⟨rfl, hidx, rfl⟩ := hw
    by_cases hmore : idx < r'.length
    · rw [Turn.next, if_pos hmore] at h
      cases h
      refine ⟨rfl, hmore, ?_⟩
      rw [pushAt_take]
    · rw [Turn.next, if_neg hmore] at h
      cases h
      rw [List.take_of_length_le (by omega)]
      rfl
  | shrinking r' idx lim =>
    obtain ⟨rfl, rfl, hle, hidx, rfl⟩ := hw
    by_cases hmore : idx < r'.length
    · rw [Turn.next, if_pos hmore] at h
      cases h
      refine ⟨rfl, rfl, hle, hmore, ?_⟩
      rw [copyAt_take hmore (by omega)]
    · rw [Turn.next, if_neg hmore] at h
      cases h
      refine ⟨gw0.recs.drop idx, List.length_drop, ?_⟩
      rw [List.take_of_length_le (by omega)]
  | popping idx lim =>
    obtain ⟨rest, hrest, rfl⟩ := hw
    by_cases hmore : idx < lim
    · rw [Turn.next, if_pos hmore] at h
      cases h
      have hne : rest ≠ [] := by
        rintro rfl
        rw [List.length_nil] at hrest
        omega
      refine ⟨rest.dropLast, ?_, ?_⟩
      · rw [List.length_dropLast, hrest]
        omega
      · rw [List.dropLast_append_of_ne_nil hne]
    · rw [Turn.next, if_neg hmore] at h
      cases h
      have hnil : rest = [] := List.length_eq_zero_iff.1 (by omega)
      rw [hnil, List.append_nil]
      rfl
  | freshening => cases h
  | _ => exact hw.elim

theorem consume_turn (hw : Works .consume gw0 b gw) (h : b.next gw = (.inl b', gw')) :
    Works .consume gw0 b' gw' := by
  cases b with
  | testing =>
    cases hw
    cases hstale : gw0.stale with
    | true =>
      rw [Turn.next, hstale] at h
      cases h
    | false =>
      rw [Turn.next, hstale] at h
      cases h
      exact ⟨hstale, rfl, rfl⟩
  | copying r idx =>
    obtain ⟨hstale, rfl, rfl⟩ := hw
    cases hx : gw.recs[idx]? with
    | some x =>
      simp only [Turn.next, hx] at h
      cases h
      refine ⟨hstale, rfl, ?_⟩
      rw [List.take_add_one, hx]
      rfl
    | none =>
      simp only [Turn.next, hx] at h
      cases h
      exact ⟨hstale, rfl, List.take_of_length_le (List.getElem?_eq_none_iff.1 hx)⟩
  | staling r => cases h
  | _ => exact hw.elim

/-- The last turns of the calls. -/
theorem last_cases (h : b.next gw = (.inr out, gw')) :
    b = .freshening ∧ out = none ∧ gw' = { gw with stale := false } ∨
    b = .testing ∧ gw.stale = true ∧ out = some [] ∧ gw' = gw ∨
    ∃ r, b = .staling r ∧ out = some r ∧ gw' = { gw with stale := true } := by
  cases b with
  | freshening =>
    cases h
    exact .inl ⟨rfl, rfl, rfl⟩
  | testing =>
    cases hstale : gw.stale with
    | true =>
      rw [Turn.next, hstale] at h
      cases h
      exact .inr (.inl ⟨rfl, rfl, rfl, rfl⟩)
    | false =>
      rw [Turn.next, hstale] at h
      cases h
  | staling r =>
    cases h
    exact .inr (.inr ⟨r, rfl, rfl, rfl⟩)
  | _ =>
    rw [Turn.next] at h
    split at h <;> cases h

theorem produce_last (hfree : gw0.mutex = false) (hw : Works (.produce r) gw0 b gw)
    (h : b.next gw = (.inr out, gw')) : execBuffer (.produce r) gw0 = .ret (out, gw') := by
  rcases last_cases h with ⟨rfl, rfl, rfl⟩ | ⟨rfl, -⟩ | ⟨r', rfl, -⟩
  · cases hw
    simp [execBuffer, produce_eq hfree]
  · exact hw.elim
  · exact hw.elim

theorem consume_last (hfree : gw0.mutex = false) (hw : Works .consume gw0 b gw)
    (h : b.next gw = (.inr out, gw')) : execBuffer .consume gw0 = .ret (out, gw') := by
  rcases last_cases h with ⟨rfl, -⟩ | ⟨rfl, hstale, rfl, rfl⟩ | ⟨r, rfl, rfl, rfl⟩
  · exact hw.elim
  · cases hw
    have hsame : { gw0 with stale := true } = gw0 := by rw [← hstale]
    simp [execBuffer, consume_eq hfree, mail, hstale, hsame]
  · obtain ⟨hstale, rfl, rfl⟩ := hw
    simp [execBuffer, consume_eq hfree, mail, hstale]

theorem execBuffer_mutex {c : BufferCall} (hfree : gw.mutex = false)
    (h : execBuffer c gw = .ret (out, gw')) : gw'.mutex = false := by
  cases c with
  | produce r =>
    simp only [execBuffer, produce_eq hfree, Outcome.ret_bind] at h
    cases h
    exact hfree
  | consume =>
    simp only [execBuffer, consume_eq hfree, Outcome.ret_bind] at h
    cases h
    exact hfree

/-- The turns of each call make up the call. -/
theorem implements : critical.Implements execBuffer (fun gw => gw.mutex = false) Works where
  enter c gw _ := by
    cases c with
    | produce r => exact ⟨rfl, rfl⟩
    | consume => rfl
  turn {c a b a' b' a''} _ hw h := by
    cases c with
    | produce r => exact produce_turn hw h
    | consume => exact consume_turn hw h
  last {c a b a' r a''} hfree hw h := by
    cases c with
    | produce r => exact produce_last hfree hw h
    | consume => exact consume_last hfree hw h
  wf := execBuffer_mutex

/-! ## Runs of several threads -/

/-- A call that takes effect, as a put or a take. -/
def mailOf {θ : Type*} :
    Calls.Event BufferCall (Option RecordVec) θ → Option (Mailbox.Event RecordVec)
  | .took _ (.produce r) _ => some (.put r)
  | .took _ .consume (some r) => some (.take r)
  | _ => none

theorem execBuffer_step {θ : Type*} {t : θ} {c : BufferCall}
    (h : execBuffer c gw = .ret (out, gw')) :
    ∃ e, mailOf (.took t c out) = some e ∧ buffer.step gw e gw' := by
  cases c with
  | produce r =>
    cases hp : gw.produce r with
    | ret gw1 =>
      rw [execBuffer, hp] at h
      cases h
      exact ⟨_, rfl, hp⟩
    | _ =>
      rw [execBuffer, hp] at h
      cases h
  | consume =>
    cases hp : gw.consume with
    | ret x =>
      rw [execBuffer, hp] at h
      cases h
      exact ⟨_, rfl, hp⟩
    | _ =>
      rw [execBuffer, hp] at h
      cases h

section
variable {θ : Type*} [DecidableEq θ]
  {tr : List (Option (Calls.Event BufferCall (Option RecordVec) θ))}
  {s : Critical.State BufferCall (Option RecordVec) Turn θ GlobalWindow}

theorem calls_buffer {tr : List (Calls.Event BufferCall (Option RecordVec) θ)}
    {s : Calls.State BufferCall (Option RecordVec) θ GlobalWindow}
    (h : (Calls.lts execBuffer (fun _ _ => False) new).Run tr s) :
    buffer.Run (tr.filterMap mailOf) s.obj := by
  obtain ⟨gw, hrun, rfl⟩ := h.simulate (N := buffer) (p := mailOf)
    (R := fun s gw => gw = s.obj) (fun s hs => ⟨s.obj, by cases hs; rfl, rfl⟩) (by
      rintro s gw e s' rfl ⟨-, hs⟩
      cases hs with
      | take hc hexec =>
        obtain ⟨e', he', hstep⟩ := execBuffer_step hexec
        rw [he']
        exact ⟨_, hstep, rfl⟩
      | other hext => exact hext.elim
      | _ => rfl)
  exact hrun

/-- The puts and takes of a run. -/
def mails (tr : List (Option (Calls.Event BufferCall (Option RecordVec) θ))) :
    List (Mailbox.Event RecordVec) :=
  (tr.filterMap id).filterMap mailOf

/-- **No batch is torn.** However the threads' turns interleave, one record at a time: each
`consume` returns a whole batch, the argument of the `produce` right before it, or nothing if there
is none; and the batches consumed are a subsequence of those produced. -/
theorem batches_whole (h : (critical.lts new).Run tr s) :
    (∀ pre t r post, tr = pre ++ some (.took t .consume (some r)) :: post →
      r = (Mailbox.unread (mails pre)).getD []) ∧
    ((Mailbox.takes (mails tr)).filter (· ≠ [])).Sublist (Mailbox.puts (mails tr)) := by
  obtain ⟨s1, hcalls, -⟩ := Critical.run_calls implements rfl h
  obtain ⟨-, hslot⟩ := buffer_refines (calls_buffer hcalls)
  refine ⟨fun pre t r post htr => ?_, Mailbox.takes_sublist hslot⟩
  have hmails : mails tr = mails pre ++ .take r :: mails post := by
    rw [htr, mails, List.filterMap_append, List.filterMap_append]
    rfl
  exact Mailbox.take_eq hslot hmails

/-- `consume` is called while `produce` has copied one record of two. -/
theorem whole_batch_consumed : ∃ pre post s,
    (critical.lts new).Run
        (pre ++ some (.took false .consume (some [⟨1, 2, 3⟩, ⟨4, 5, 6⟩])) :: post) s ∧
      [⟨1, 2, 3⟩, ⟨4, 5, 6⟩] = (Mailbox.unread (mails pre)).getD [] := by
  have h0 : (critical.lts new).Run [] (.start _ : Critical.State _ _ _ Bool _) := .nil rfl
  have h1 := h0.snoc (.invoke (t := true) (.produce [⟨1, 2, 3⟩, ⟨4, 5, 6⟩]) rfl)
  have h2 := h1.snoc (.lock (t := true) rfl rfl)
  have h3 := h2.snoc (.turn (t := true) rfl rfl)
  have h4 := h3.snoc (.turn (t := true) rfl rfl)
  have h5 := h4.snoc (.turn (t := true) rfl rfl)
  have h6 := h5.snoc (.invoke (t := false) .consume rfl)
  have h7 := h6.snoc (.turn (t := true) rfl rfl)
  have h8 := h7.snoc (.turn (t := true) rfl rfl)
  have h9 := h8.snoc (.last (t := true) rfl rfl)
  have h10 := h9.snoc (.unlock (t := true) rfl)
  have h11 := h10.snoc (.lock (t := false) rfl rfl)
  have h12 := h11.snoc (.turn (t := false) rfl rfl)
  have h13 := h12.snoc (.turn (t := false) rfl rfl)
  have h14 := h13.snoc (.turn (t := false) rfl rfl)
  have h15 := h14.snoc (.turn (t := false) rfl rfl)
  have h16 := h15.snoc (.last (t := false) rfl rfl)
  exact ⟨_, _, _, h16, (batches_whole h16).1 _ _ _ _ rfl⟩

end

end Propreact.GlobalWindow
