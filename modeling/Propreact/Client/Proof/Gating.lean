import Propreact.Client.Proof.Follow
import Propreact.Client.Proof.Ledger

/-!
# No launch is let go early

Read off the stage of a run (`launch_gating`): the predictor reads the grids in the order they were
launched, the notifications keep step with the launches, and a launch returns only after the steps
of its own request, if it made one.
-/

namespace Propreact.System

open Stage (roundTrip)

section
variable {pkt : Vector ULong pktWords} {tr : List Event} {s : System} (h : (lts pkt).Run tr s)
include h

theorem exists_ledger : ∃ st, Stage.Ledger tr st ∧ Shows s st := by
  obtain ⟨st, hrun, hshows⟩ := exists_stage h
  exact ⟨st, Stage.ledger hrun, hshows⟩

theorem channels_le_one :
    (s.backend.tenants 0).requests.length + (s.backend.tenants 0).responses.length ≤ 1 := by
  obtain ⟨st, -, hshows⟩ := exists_ledger h
  have hreq := congrArg List.length hshows.serves.requests
  rw [List.length_map, List.length_map] at hreq
  rw [hreq, hshows.serves.responses]
  cases st with
  | serving g hop => cases hop <;> simp [Stage.queued, Stage.answers]
  | _ => simp [Stage.queued, Stage.answers]

theorem counts_in_step :
    tr.count .returned ≤ tr.count .notified2 ∧ tr.count .notified2 ≤ (reads tr).length ∧
      (reads tr).length ≤ tr.count .returned + 1 := by
  obtain ⟨st, hledger, -⟩ := exists_ledger h
  have hread := hledger.read
  have hnotified := hledger.notified
  have hone : st.handling + st.returning ≤ 1 := by
    cases st <;> simp [Stage.handling, Stage.returning]
  omega

theorem returned_after {tr1 tr2 : List Event} (htr : tr = tr1 ++ .returned :: tr2) :
    ∃ g, (launches tr1).getLast? = some g ∧ .notified2 ∈ sinceLaunch tr1 ∧
      ((∃ g', .sent g' ∈ sinceLaunch tr1) → (roundTrip g).Sublist (sinceLaunch tr1)) := by
  rw [htr, List.append_cons] at h
  obtain ⟨s2, h2⟩ := h.of_append
  obtain ⟨st2, hrun, -⟩ := exists_stage h2
  obtain ⟨st1, hrun1, hstep⟩ := Lts.run_concat.1 hrun
  have hledger := Stage.ledger hrun1
  cases hstep with
  | @«return» g asked =>
    refine ⟨g, hledger.last g rfl, hledger.told rfl, fun ⟨g', hsent⟩ => ?_⟩
    cases asked with
    | true => exact hledger.behind g rfl
    | false => exact absurd hsent (hledger.unsent (by simp [Stage.grid]) rfl g')

/-- **Launch gating.** The n-th `ReadData` returns the n-th launch's grid; returns, notifications
and reads keep step; at most one request or response is on the client's channels; and a launch
that returns was notified since it was called and, if the predictor sent a request for it, that
request was posted with the launch's own grid, retrieved, released and answered before. -/
theorem launch_gating :
    reads tr <+: launches tr ∧
    (tr.count .returned ≤ tr.count .notified2 ∧ tr.count .notified2 ≤ (reads tr).length ∧
      (reads tr).length ≤ tr.count .returned + 1) ∧
    (s.backend.tenants 0).requests.length + (s.backend.tenants 0).responses.length ≤ 1 ∧
    ∀ tr1 tr2, tr = tr1 ++ .returned :: tr2 →
      ∃ g, (launches tr1).getLast? = some g ∧ .notified2 ∈ sinceLaunch tr1 ∧
        ((∃ g', .sent g' ∈ sinceLaunch tr1) → (roundTrip g).Sublist (sinceLaunch tr1)) := by
  refine ⟨?_, counts_in_step h, channels_le_one h, fun tr1 tr2 htr => returned_after h htr⟩
  obtain ⟨st, hledger, -⟩ := exists_ledger h
  exact ⟨st.unread, hledger.grids.symm⟩

end

/-- A library marker and a launch with a request, both returned. -/
def twoLaunches : List Action :=
  let predictor := .predictor 0 fun _ => 0
  let tenant := .backend (.tenant 0)
  let arbiter := .backend .arbiter
  [.launch ⟨0, 0, 1⟩, .app, predictor, predictor, predictor, predictor, .app,
    .launch ⟨5, 1, 1⟩, .app, predictor, predictor, predictor, predictor, tenant, tenant, tenant,
    arbiter, arbiter, arbiter, arbiter, arbiter, arbiter, tenant, tenant, predictor, predictor,
    .app]

theorem twoLaunches_gated : ∃ tr s, (lts (.replicate _ 0)).Run tr s ∧ tr.count .returned = 2 ∧
    reads tr = [⟨0, 0, 1⟩, ⟨5, 1, 1⟩] ∧ reads tr <+: launches tr := by
  have hrun := Lts.run_schedule (start (.replicate _ 0)) next twoLaunches rfl
  exact ⟨_, _, hrun, by decide, by decide, (launch_gating hrun).1⟩

end Propreact.System
