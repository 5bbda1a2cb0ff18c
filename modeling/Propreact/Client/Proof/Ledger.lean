import Propreact.Client.Launch

/-!
# The ledger of the launches

What one step of the protocol does to the two lists of grids and to the counts (`Step.grids`,
`Step.counts`), and to the open launch (`Step.open_launch`). So every step keeps the ledger
(`Ledger.step`), and it holds along every run of the protocol (`ledger`).
-/

namespace Propreact.System

theorem launches_concat (tr : List Event) (e : Event) :
    launches (tr ++ [e]) = launches tr ++ launches [e] := List.filterMap_append

theorem reads_concat (tr : List Event) (e : Event) :
    reads (tr ++ [e]) = reads tr ++ reads [e] := List.filterMap_append

theorem sinceLaunch_launched (tr : List Event) (g : Grid) :
    sinceLaunch (tr ++ [.launched g]) = [] :=
  List.rtakeWhile_concat_neg _ _ _ (by simp [Event.isLaunched])

theorem sinceLaunch_concat {e : Event} (he : e.isLaunched = false) (tr : List Event) :
    sinceLaunch (tr ++ [e]) = sinceLaunch tr ++ [e] :=
  List.rtakeWhile_concat_pos _ _ _ (by simp [he])

namespace Stage

section
variable {tr : List Event} {st st' : Stage} {e : Event}

theorem Step.grids (hs : Step st e st') : st.unread ++ launches [e] = reads [e] ++ st'.unread := by
  cases hs <;> simp [unread, launches, reads]

theorem Step.counts (hs : Step st e st') :
    (reads [e]).length + st.handling = [e].count .notified2 + st'.handling ∧
      [e].count .notified2 + st.returning = [e].count .returned + st'.returning := by
  cases hs <;> simp [handling, returning, reads]

/-- A step opens a launch, or it is one of the open launch and adds its label to the launch's
history. -/
theorem Step.open_launch (hs : Step st e st') :
    (∃ g, e = .launched g ∧ st' = .written g) ∨
    (e.isLaunched = false ∧ launches [e] = [] ∧
      ∀ g, st'.grid = some g → st.grid = some g ∧
        ((roundTrip g).take st'.progress = (roundTrip g).take st.progress ∨
          (roundTrip g).take st'.progress = (roundTrip g).take st.progress ++ [e]) ∧
        (st'.returning = 1 → st.returning = 1 ∨ e = .notified2) ∧
        (st'.requested = false → st.requested = false ∧ ∀ g', e ≠ .sent g')) := by
  cases hs with
  | launch g => exact .inl ⟨g, rfl, rfl⟩
  | @notify2 g asked =>
    right
    cases asked <;>
      simp [Event.isLaunched, launches, grid, progress, returning, requested, roundTrip]
  | «return» => right; simp [Event.isLaunched, launches, grid]
  | other => right; simp [Event.isLaunched, launches]
  | _ => right; simp [Event.isLaunched, launches, grid, progress, returning, requested, roundTrip]

theorem Ledger.step (h : Ledger tr st) (hs : Step st e st') : Ledger (tr ++ [e]) st' := by
  have hgrids : launches (tr ++ [e]) = reads (tr ++ [e]) ++ st'.unread := by
    rw [launches_concat, reads_concat, h.grids, List.append_assoc, hs.grids, List.append_assoc]
  obtain ⟨hread, hnotified⟩ := hs.counts
  have hr := h.read
  have hn := h.notified
  have hread' : (reads (tr ++ [e])).length = (tr ++ [e]).count .notified2 + st'.handling := by
    rw [reads_concat, List.length_append, List.count_append]
    omega
  have hnotified' : (tr ++ [e]).count .notified2 = (tr ++ [e]).count .returned + st'.returning := by
    rw [List.count_append, List.count_append]
    omega
  rcases hs.open_launch with ⟨g, rfl, rfl⟩ | ⟨he, hnone, hopen⟩
  · -- a new launch has no history
    refine ⟨hgrids, hread', hnotified', ?_, ?_, ?_, ?_⟩
    · simp [launches, grid]
    · simp [progress]
    · simp [returning]
    · simp [sinceLaunch_launched]
  · have hsince := sinceLaunch_concat he tr
    refine ⟨hgrids, hread', hnotified', fun g hg => ?_, fun g hg => ?_, fun ht => ?_,
      fun ho hq => ?_⟩
    · rw [launches_concat, hnone, List.append_nil]
      exact h.last g (hopen g hg).1
    · obtain ⟨hg0, hprog | hprog, -⟩ := hopen g hg
      · rw [hprog, hsince]
        exact (h.behind g hg0).trans (List.sublist_append_left _ _)
      · rw [hprog, hsince]
        exact (h.behind g hg0).append (List.Sublist.refl _)
    · obtain ⟨g, hg⟩ : ∃ g, st'.grid = some g := by
        cases st' <;> simp [returning, grid] at ht ⊢
      rw [hsince, List.mem_append]
      rcases (hopen g hg).2.2.1 ht with h0 | rfl
      · exact .inl (h.told h0)
      · exact .inr (List.mem_singleton_self _)
    · obtain ⟨g, hg⟩ := Option.ne_none_iff_exists'.1 ho
      obtain ⟨hg0, -, -, hsent⟩ := hopen g hg
      obtain ⟨hq0, hne⟩ := hsent hq
      intro g' hmem
      rw [hsince, List.mem_append, List.mem_singleton] at hmem
      rcases hmem with hmem | rfl
      · exact h.unsent (by rw [hg0]; simp) hq0 g' hmem
      · exact hne g' rfl

/-- The ledger holds along every run of the protocol. -/
theorem ledger (h : protocol.Run tr st) : Ledger tr st := by
  refine h.trace_inv (fun st hi => ?_) fun tr st e st' _ hl hs => hl.step hs
  cases hi
  constructor <;> simp [launches, reads, unread, handling, returning, grid]

end

end Stage

end Propreact.System
