import Propreact.Client.System

/-!
# What a step of the system can do

`PredictorStep` lists the steps of `Predictor::ProcessTrigger` and `Step` all steps of the system,
guards included; `next_step` inverts `next` into them.
-/

namespace Propreact.System

inductive PredictorStep (s : System) : Event → System → Prop
  | wake {trig : Trigger} :
    s.pc = .waiting → s.trig.wait 1 = .ret trig →
    PredictorStep s .woke { s with trig, pc := .reading }
  | read :
    s.pc = .reading →
    PredictorStep s (.readData s.trig.readData) { s with pc := .deciding s.trig.readData }
  | mark {g : Grid} {now : Int} {pred : Predictor} :
    s.pc = .deciding g → s.pred.decide now g = (.marker, pred) →
    PredictorStep s (.marked g) { s with pred, pc := .notifying }
  | encode {g : Grid} {now : Int} {pred : Predictor} {r : RecordVec} {gwin : GlobalWindow}
      {pkt : Vector ULong pktWords} :
    s.pc = .deciding g → s.pred.decide now g = (.request, pred) →
    s.gwin.consume = .ret (r, gwin) → Predictor.encode pred.pkt g r = some pkt →
    PredictorStep s (.encoded g)
      { s with gwin, pred := { pred with pkt }, pc := .sending g (Predictor.pktSize r) }
  | send {g : Grid} {size : ULong} {beyond : Nat → ULong} {e : Backend.Event} {backend : Backend} :
    s.pc = .sending g size →
    s.backend.next (.queue 0 (Predictor.message s.pred.pkt size beyond)) = some (e, backend) →
    PredictorStep s (.sent g) { s with backend, pc := .receiving }
  | answer {e : Backend.Event} {backend : Backend} :
    s.pc = .receiving → s.backend.next (.take 0) = some (e, backend) →
    PredictorStep s .answered { s with backend, pc := .notifying }
  | notify {trig : Trigger} :
    s.pc = .notifying → s.trig.notify 2 = .ret trig →
    PredictorStep s .notified2 { s with trig, pc := .waiting }

inductive Step (s : System) : Action → Event → System → Prop
  | launch (g : Grid) :
    s.app = .idle →
    Step s (.launch g) (.launched g) { s with trig := s.trig.writeData g, app := .notifying }
  | notify {trig : Trigger} :
    s.app = .notifying → s.trig.notify 1 = .ret trig →
    Step s .app .notified1 { s with trig, app := .waiting }
  | return {trig : Trigger} :
    s.app = .waiting → s.trig.wait 2 = .ret trig →
    Step s .app .returned { s with trig, app := .idle }
  | predictor {now : Int} {beyond : Nat → ULong} {e : Event} {s' : System} :
    PredictorStep s e s' → Step s (.predictor now beyond) e s'
  | backend {a : Backend.Action} {e : Backend.Event} {backend : Backend} :
    ownAction a = true → s.backend.next a = some (e, backend) →
    Step s (.backend a) (.backend e) { s with backend }

section
variable {s s' : System} {e : Event}

theorem predictorNext_step {now : Int} {beyond : Nat → ULong}
    (h : s.predictorNext now beyond = some (e, s')) : PredictorStep s e s' := by
  unfold predictorNext at h
  split at h
  · rename_i hpc
    split at h
    · rename_i hw
      cases h
      exact .wake hpc hw
    · cases h
  · rename_i hpc
    cases h
    exact .read hpc
  · rename_i g hpc
    split at h
    · rename_i hd
      cases h
      exact .mark hpc hd
    · rename_i hd
      split at h
      · rename_i hc
        split at h
        · rename_i he
          cases h
          exact .encode hpc hd hc he
        · cases h
      · cases h
  · rename_i hpc
    split at h
    · rename_i hq
      cases h
      exact .send hpc hq
    · cases h
  · rename_i hpc
    split at h
    · rename_i ht
      cases h
      exact .answer hpc ht
    · cases h
  · rename_i hpc
    split at h
    · rename_i hn
      cases h
      exact .notify hpc hn
    · cases h

theorem next_step {a : Action} (h : s.next a = some (e, s')) : Step s a e s' := by
  cases a with
  | launch g =>
    simp only [next] at h
    split at h
    · rename_i happ
      cases h
      exact .launch g happ
    · cases h
  | app =>
    simp only [next, appNext] at h
    split at h
    · cases h
    · rename_i happ
      split at h
      · rename_i hn
        cases h
        exact .notify happ hn
      · cases h
    · rename_i happ
      split at h
      · rename_i hw
        cases h
        exact .return happ hw
      · cases h
  | predictor now beyond => exact .predictor (predictorNext_step h)
  | backend a =>
    simp only [next] at h
    split at h
    · rename_i ho
      split at h
      · rename_i hb
        cases h
        exact .backend ho hb
      · cases h
    · cases h

end

end Propreact.System
