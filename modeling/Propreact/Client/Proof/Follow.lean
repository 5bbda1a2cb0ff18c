import Propreact.Client.Proof.Encode
import Propreact.Client.Proof.Serve

/-!
# The system follows its launches

`Shows`: what the state of the system shows of a stage. Every step of the system is a step of
`Stage.protocol` (`next_follows`), so along every run the launches have a stage (`exists_stage`).
-/

namespace Propreact.System

/-- The application thread at a stage. -/
def Stage.app : Stage → Interposer
  | .home => .idle
  | .written _ => .notifying
  | _ => .waiting

/-- The flags raised at a stage. -/
def Stage.ready1 : Stage → Bool
  | .posted _ => true
  | _ => false

def Stage.ready2 : Stage → Bool
  | .notified _ _ => true
  | _ => false

/-- The stages at which the next step is the application's, or the predictor's waking. -/
def Stage.appTurn : Stage → Bool
  | .home | .written _ | .posted _ | .notified _ _ => true
  | _ => false

/-- Where the predictor thread is allowed to be at a stage. -/
def PredictorAt (pc : Predictor.Pc) (pkt : Vector ULong pktWords) (st : Stage) : Prop :=
  match pc with
  | .waiting => True
  | .reading => ∃ g, st = .woken g
  | .deciding g => st = .read g
  | .sending g size => st = .sending g ∧ ∀ beyond, (Predictor.message pkt size beyond).word 1 = g.x
  | .receiving => ∃ g hop, st = .serving g hop
  | .notifying => ∃ g asked, st = .notifying g asked

/-- The state at a stage. -/
structure Shows (s : System) (st : Stage) : Prop where
  app : s.app = st.app
  ready1 : s.trig.ready1 = st.ready1
  ready2 : s.trig.ready2 = st.ready2
  grid : ∀ g ∈ st.unread, s.trig.grid = g
  pc : PredictorAt s.pc s.pred.pkt st
  serves : Serves s.backend st

theorem wait_one {trig trig' : Trigger} (h : trig.wait 1 = .ret trig') :
    trig.ready1 = true ∧ trig' = { trig with ready1 := false } := by
  cases hr : trig.ready1 <;> simp_all [Trigger.wait]

theorem wait_two {trig trig' : Trigger} (h : trig.wait 2 = .ret trig') :
    trig.ready2 = true ∧ trig' = { trig with ready2 := false } := by
  cases hr : trig.ready2 <;> simp_all [Trigger.wait]

/-- While it is the application's turn the predictor waits. -/
theorem predictor_waits {pc : Predictor.Pc} {pkt : Vector ULong pktWords} {st : Stage}
    (h : PredictorAt pc pkt st) (hst : st.appTurn = true) : pc = .waiting := by
  cases pc with
  | waiting => rfl
  | deciding g => rw [show st = .read g from h] at hst; cases hst
  | sending g size => rw [h.1] at hst; cases hst
  | reading => obtain ⟨g, rfl⟩ := h; cases hst
  | receiving => obtain ⟨g, hop, rfl⟩ := h; cases hst
  | notifying => obtain ⟨g, asked, rfl⟩ := h; cases hst

section
variable {s s' : System} {st : Stage} {a : Action} {e : Event}

theorem app_follows (h : Shows s st) (hs : s.appNext = some (e, s')) :
    ∃ st', Stage.Step st e st' ∧ Shows s' st' := by
  obtain ⟨happ, hr1, hr2, hgrid, hpc, hserves⟩ := h
  unfold appNext at hs
  split at hs
  · cases hs
  · rename_i hnot
    obtain ⟨g, rfl⟩ : ∃ g, st = .written g := by cases st <;> simp_all [Stage.app]
    have hwait := predictor_waits hpc rfl
    cases hs
    refine ⟨_, .notify1, rfl, rfl, hr2, hgrid, ?_, hserves.away rfl rfl⟩
    simp [PredictorAt, hwait]
  · split at hs
    · rename_i trig htrig
      obtain ⟨h2, rfl⟩ := wait_two htrig
      obtain ⟨g, asked, rfl⟩ : ∃ g asked, st = .notified g asked := by
        cases st <;> simp_all [Stage.ready2]
      have hwait := predictor_waits hpc rfl
      cases hs
      refine ⟨_, .return, rfl, hr1, rfl, ?_, ?_, hserves.away rfl rfl⟩
      · simp [Stage.unread]
      · simp [PredictorAt, hwait]
    · cases hs

theorem predictor_follows {now : Int} {beyond : Nat → ULong} (h : Shows s st)
    (hs : s.predictorNext now beyond = some (e, s')) :
    ∃ st', Stage.Step st e st' ∧ Shows s' st' := by
  obtain ⟨happ, hr1, hr2, hgrid, hpc, hserves⟩ := h
  unfold predictorNext at hs
  split at hs <;> rename_i hp <;> rw [hp] at hpc
  · split at hs
    · rename_i trig htrig
      obtain ⟨h1, rfl⟩ := wait_one htrig
      obtain ⟨g, rfl⟩ : ∃ g, st = .posted g := by cases st <;> simp_all [Stage.ready1]
      cases hs
      exact ⟨_, .wake, happ, rfl, hr2, hgrid, ⟨g, rfl⟩, hserves.away rfl rfl⟩
    · cases hs
  · obtain ⟨g, rfl⟩ := hpc
    have hg : s.trig.readData = g := hgrid g (by simp [Stage.unread])
    rw [hg] at hs
    cases hs
    exact ⟨_, .readData, happ, hr1, hr2, by simp [Stage.unread], rfl, hserves.away rfl rfl⟩
  · rename_i g
    obtain rfl : st = .read g := hpc
    split at hs
    · cases hs
      exact ⟨_, .mark, happ, hr1, hr2, by simp [Stage.unread], ⟨g, false, rfl⟩,
        hserves.away rfl rfl⟩
    · split at hs
      · split at hs
        · rename_i r _ _ _ pkt hpkt
          cases hs
          exact ⟨_, .encode, happ, hr1, hr2, by simp [Stage.unread],
            ⟨rfl, Predictor.message_word_one hpkt⟩, hserves.away rfl rfl⟩
        · cases hs
      · cases hs
  · rename_i g size
    obtain ⟨rfl, hword⟩ := hpc
    split at hs
    · rename_i hsend
      cases hs
      exact ⟨_, .send, happ, hr1, hr2, by simp [Stage.unread], ⟨g, .queued, rfl⟩,
        queue_serves hserves (hword beyond) hsend⟩
    · cases hs
  · split at hs
    · rename_i htake
      obtain ⟨g, rfl, hserves'⟩ := take_serves hserves htake
      cases hs
      exact ⟨_, .answer, happ, hr1, hr2, by simp [Stage.unread], ⟨g, true, rfl⟩, hserves'⟩
    · cases hs
  · obtain ⟨g, asked, rfl⟩ := hpc
    cases hs
    exact ⟨_, .notify2, happ, hr1, rfl, by simp [Stage.unread], trivial, hserves.away rfl rfl⟩

/-- **Every step of the system** is a step of the launches' protocol. -/
theorem next_follows (h : Shows s st) (hs : s.next a = some (e, s')) :
    ∃ st', Stage.Step st e st' ∧ Shows s' st' := by
  cases a with
  | launch g =>
    simp only [next] at hs
    split at hs
    · rename_i hidle
      obtain ⟨happ, hr1, hr2, -, hpc, hserves⟩ := h
      obtain rfl : st = .home := by cases st <;> simp_all [Stage.app]
      have hwait := predictor_waits hpc rfl
      cases hs
      refine ⟨_, .launch g, rfl, hr1, hr2, ?_, ?_, hserves.away rfl rfl⟩
      · simp [Stage.unread, Trigger.writeData]
      · simp [PredictorAt, hwait]
    · cases hs
  | app => exact app_follows h hs
  | predictor now beyond => exact predictor_follows h hs
  | backend a =>
    simp only [next] at hs
    split at hs
    · rename_i ho
      split at hs
      · rename_i hb
        cases hs
        rcases backend_hops h.serves ho hb with ⟨hstep, hs'⟩ | ⟨g, hop, hop', rfl, hstep, hs'⟩
        · exact ⟨st, hstep, h.app, h.ready1, h.ready2, h.grid, h.pc, hs'⟩
        · refine ⟨_, hstep, h.app, h.ready1, h.ready2, by simp [Stage.unread], ?_, hs'⟩
          have hpc := h.pc
          unfold PredictorAt at hpc ⊢
          split at hpc <;> simp_all
      · cases hs
    · cases hs

end

theorem start_shows (pkt : Vector ULong pktWords) : Shows (start pkt) .home := by
  refine ⟨rfl, rfl, rfl, by simp [Stage.unread], trivial, ?_⟩
  refine (serves_away rfl).2 ⟨trivial, Backend.start_view rfl, rfl, rfl, ?_⟩
  simp [start, Backend.start]

/-- **Along every run the launches have a stage**: the trace is a run of their protocol, and the
state shows the stage it ends in. -/
theorem exists_stage {pkt : Vector ULong pktWords} {tr : List Event} {s : System}
    (h : (lts pkt).Run tr s) : ∃ st, Stage.protocol.Run tr st ∧ Shows s st := by
  obtain ⟨st, hrun, hshows⟩ := h.simulate (N := Stage.protocol) (p := some) (R := Shows)
    (by rintro s rfl; exact ⟨.home, rfl, start_shows pkt⟩)
    (by
      rintro s st e s' hshows ⟨a, ha⟩
      exact next_follows hshows ha)
  exact ⟨st, by simpa using hrun, hshows⟩

end Propreact.System
