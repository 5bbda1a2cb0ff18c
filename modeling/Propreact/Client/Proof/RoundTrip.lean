import Propreact.Backend.Proof.Parser
import Propreact.Client.Proof.Encode

/-!
# From the predictor to the backend

A request that fits in the buffer comes out of the message as it went in: the words the backend
reads lie in the message (`wordsRead_message`), and the calls it makes for them are those of the
request's grid and records (`parsed_message`, `decode_encode`).
-/

namespace Propreact.Predictor

open Backend

variable {t : TenantId} {g : Grid} {r : RecordVec} {pkt pkt' : Vector ULong pktWords}
  {beyond : Nat → ULong}

/-- The calls of a request: its key for the pool, then each record for the window. -/
def requestCalls (t : TenantId) (g : Grid) (r : RecordVec) : List Call :=
  .update (t, g.x) :: r.map fun rec =>
    if t = 0 then .window (.updateIdle rec.gX rec.active rec.idle t)
    else .window (.updateActive rec.gX rec.active rec.idle t)

/-- The three words of record `i`. -/
theorem mem_pktWrites {i : Nat} {rec : Record} (h : r[i]? = some rec) :
    (2+3*i, rec.gX) ∈ pktWrites g r ∧ (3+3*i, rec.active) ∈ pktWrites g r ∧
      (4+3*i, rec.idle) ∈ pktWrites g r := by
  have hmem : (rec, i) ∈ r.zipIdx := List.mem_zipIdx_iff_getElem?.2 h
  refine ⟨?_, ?_, ?_⟩ <;> apply List.mem_cons_of_mem <;> apply List.mem_cons_of_mem <;>
    exact List.mem_flatMap.2 ⟨_, hmem, by simp⟩

theorem numRecords_message (h : encode pkt g r = some pkt') :
    (message pkt' (pktSize r) beyond).numRecords.toNat = r.length := by
  have hsize := pktSize_toNat (encode_length h)
  have hword : (message pkt' (pktSize r) beyond).word 0 = pktSize r :=
    (message_word h beyond (w := (0, pktSize r)) List.mem_cons_self).1
  rw [numRecords_toNat, hword, hsize]
  · omega
  · rw [hword, hsize]
    omega

/-- **Decoding undoes encoding**: the message asks for the calls of its request. -/
theorem parsed_message (h : encode pkt g r = some pkt') :
    parsed t (message pkt' (pktSize r) beyond) = requestCalls t g r := by
  rw [parsed, requestCalls, message_word_one h, numRecords_message h]
  congr 1
  apply List.ext_getElem
  · simp
  · intro i hi hr
    have hlt : i < r.length := by simpa using hr
    have hget : r[i]? = some r[i] := List.getElem?_eq_getElem hlt
    obtain ⟨hx, hactive, hidle⟩ := mem_pktWrites (g := g) hget
    have hx := (message_word h beyond hx).1
    have hactive := (message_word h beyond hactive).1
    have hidle := (message_word h beyond hidle).1
    simp only [Nat.add_comm 3, Nat.add_comm 4] at hactive hidle
    simp only [List.getElem_map, List.getElem_range, recordOp, hx, hactive, hidle]
    split <;> rfl

end Propreact.Predictor
