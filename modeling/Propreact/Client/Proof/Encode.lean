import Propreact.Client.Predictor

/-!
# The request buffer

What `encode` leaves in the buffer: the words it does not write stay (`foldlM_store_frame`), and it
writes each word of the request once (`pktWrites_indices`). So a request fits exactly if its last
word does (`encode_isSome_iff`), and its receiver finds every word of it (`message_word`).
-/

namespace Propreact.Predictor

theorem store_eq_some {pkt pkt' : Vector ULong pktWords} {w : Nat × ULong}
    (h : store pkt w = some pkt') : ∃ hw : w.1 < pktWords, pkt' = pkt.set w.1 w.2 := by
  unfold store at h
  split at h
  · rename_i hw
    cases h
    exact ⟨hw, rfl⟩
  · cases h

/-- Every write is inside the buffer, and a word that is not written stays. -/
theorem foldlM_store_frame {ws : List (Nat × ULong)} {pkt pkt' : Vector ULong pktWords}
    (h : ws.foldlM store pkt = some pkt') :
    (∀ w ∈ ws, w.1 < pktWords) ∧
      ∀ i, (hi : i < pktWords) → (∀ w ∈ ws, w.1 ≠ i) → pkt'[i] = pkt[i] := by
  induction ws generalizing pkt with
  | nil =>
    cases h
    simp
  | cons w ws ih =>
    simp only [List.foldlM_cons, Option.bind_eq_bind, Option.bind_eq_some_iff] at h
    obtain ⟨pkt1, h1, h2⟩ := h
    obtain ⟨hw, rfl⟩ := store_eq_some h1
    obtain ⟨hin, hframe⟩ := ih h2
    refine ⟨List.forall_mem_cons.2 ⟨hw, hin⟩, fun i hi hne => ?_⟩
    have hwi : w.1 ≠ i := hne w List.mem_cons_self
    rw [hframe i hi fun w hw => hne w (List.mem_cons_of_mem _ hw), Vector.getElem_set_ne _ _ hwi]

/-- Writes inside the buffer go through. -/
theorem foldlM_store_of {ws : List (Nat × ULong)} (h : ∀ w ∈ ws, w.1 < pktWords)
    (pkt : Vector ULong pktWords) : ∃ pkt', ws.foldlM store pkt = some pkt' := by
  induction ws generalizing pkt with
  | nil => exact ⟨pkt, rfl⟩
  | cons w ws ih =>
    obtain ⟨hw, hws⟩ := List.forall_mem_cons.1 h
    obtain ⟨pkt', hpkt'⟩ := ih hws (pkt.set w.1 w.2)
    refine ⟨pkt', ?_⟩
    rw [List.foldlM_cons, store, dif_pos hw]
    exact hpkt'

/-- Writes to different words all stay. -/
theorem foldlM_store_get {ws : List (Nat × ULong)} {pkt pkt' : Vector ULong pktWords}
    (h : ws.foldlM store pkt = some pkt') (hd : (ws.map Prod.fst).Nodup) {w : Nat × ULong}
    (hw : w ∈ ws) : ∃ hlt : w.1 < pktWords, pkt'[w.1] = w.2 := by
  induction ws generalizing pkt with
  | nil => cases hw
  | cons w' ws ih =>
    simp only [List.foldlM_cons, Option.bind_eq_bind, Option.bind_eq_some_iff] at h
    obtain ⟨pkt1, h1, h2⟩ := h
    rw [List.map_cons, List.nodup_cons] at hd
    rcases List.mem_cons.1 hw with rfl | hw
    · obtain ⟨hlt, rfl⟩ := store_eq_some h1
      refine ⟨hlt, ?_⟩
      have hne : ∀ w' ∈ ws, w'.1 ≠ w.1 := fun w' hw' heq =>
        hd.1 (heq ▸ List.mem_map_of_mem hw')
      rw [(foldlM_store_frame h2).2 w.1 hlt hne, Vector.getElem_set_self]
    · exact ih h2 hd.2 hw

/-- The words of a request are written one after the other, each once. -/
theorem pktWrites_indices (g : Grid) (r : RecordVec) :
    (pktWrites g r).map Prod.fst = List.range (2 + 3 * r.length) := by
  have hrecords (k : Nat) :
      ((r.zipIdx k).flatMap fun p =>
        [(2+3*p.2, p.1.gX), (3+3*p.2, p.1.active), (4+3*p.2, p.1.idle)]).map Prod.fst =
          List.range' (2 + 3 * k) (3 * r.length) := by
    induction r generalizing k with
    | nil => rfl
    | cons rec r ih =>
      rw [List.zipIdx_cons, List.flatMap_cons, List.map_append, ih, List.length_cons,
        show 3 * (r.length + 1) = 3 * r.length + 1 + 1 + 1 by omega, List.range'_succ,
        List.range'_succ, List.range'_succ]
      simp only [List.map_cons, List.map_nil, List.cons_append, List.nil_append]
      grind
  show 0 :: 1 :: ((r.zipIdx 0).flatMap fun p =>
    [(2+3*p.2, p.1.gX), (3+3*p.2, p.1.active), (4+3*p.2, p.1.idle)]).map Prod.fst = _
  rw [hrecords, List.range_eq_range', show 2 + 3 * r.length = 3 * r.length + 1 + 1 by omega,
    List.range'_succ, List.range'_succ]

/-- A request's words lie in the buffer exactly if its last word does. -/
theorem pktWrites_lt_iff {g : Grid} {r : RecordVec} {n : Nat} :
    (∀ w ∈ pktWrites g r, w.1 < n) ↔ 2 + 3 * r.length ≤ n := by
  rw [← List.forall_mem_map (P := (· < n)), pktWrites_indices]
  simp only [List.mem_range]
  constructor
  · intro h
    by_contra hlt
    exact absurd (h n (by omega)) (lt_irrefl n)
  · intro h i hi
    omega

theorem encode_isSome_iff {pkt : Vector ULong pktWords} {g : Grid} {r : RecordVec} :
    (∃ pkt', encode pkt g r = some pkt') ↔ 2 + 3 * r.length ≤ pktWords := by
  rw [← pktWrites_lt_iff (g := g)]
  constructor
  · intro h
    obtain ⟨pkt', h⟩ := h
    exact (foldlM_store_frame h).1
  · intro h
    exact foldlM_store_of h pkt

theorem encode_length {pkt pkt' : Vector ULong pktWords} {g : Grid} {r : RecordVec}
    (h : encode pkt g r = some pkt') : 2 + 3 * r.length ≤ pktWords :=
  encode_isSome_iff.1 ⟨pkt', h⟩

/-- Every word of a request is in the buffer afterwards, whatever was there before. -/
theorem encode_get {pkt pkt' : Vector ULong pktWords} {g : Grid} {r : RecordVec}
    (h : encode pkt g r = some pkt') {w : Nat × ULong} (hw : w ∈ pktWrites g r) :
    ∃ hlt : w.1 < pktWords, pkt'[w.1] = w.2 := by
  refine foldlM_store_get h ?_ hw
  rw [pktWrites_indices]
  exact List.nodup_range

theorem pktSize_toNat {r : RecordVec} (h : 2 + 3 * r.length ≤ pktWords) :
    (pktSize r).toNat = 8 * (2 + 3 * r.length) := by
  have hlen : (UInt64.ofNat r.length).toNat = r.length := by
    rw [UInt64.toNat_ofNat']
    exact Nat.mod_eq_of_lt (by simp [pktWords] at h; omega)
  simp only [pktSize, sizeofULong, UInt64.toNat_mul, UInt64.toNat_add, hlen]
  simp [pktWords] at h ⊢
  omega

/-- The receiver of a request reads its words, and they lie in the message. -/
theorem message_word {pkt pkt' : Vector ULong pktWords} {g : Grid} {r : RecordVec}
    (h : encode pkt g r = some pkt') (beyond : Nat → ULong) {w : Nat × ULong}
    (hw : w ∈ pktWrites g r) :
    (message pkt' (pktSize r) beyond).word w.1 = w.2 ∧
      8 * (w.1 + 1) ≤ (message pkt' (pktSize r) beyond).bytes := by
  have hsize := pktSize_toNat (encode_length h)
  have hindex : w.1 < 2 + 3 * r.length := pktWrites_lt_iff.2 le_rfl w hw
  obtain ⟨hlt, hget⟩ := encode_get h hw
  have hin : w.1 < pktWords ∧ 8 * (w.1 + 1) ≤ (pktSize r).toNat := ⟨hlt, by omega⟩
  exact ⟨by simp only [message, dif_pos hin, hget], hin.2⟩

/-- The receiver of a request reads the grid's x in word 1. -/
theorem message_word_one {pkt pkt' : Vector ULong pktWords} {g : Grid} {r : RecordVec}
    (h : encode pkt g r = some pkt') (beyond : Nat → ULong) :
    (message pkt' (pktSize r) beyond).word 1 = g.x :=
  (message_word h beyond (w := (1, g.x)) (by simp [pktWrites])).1

end Propreact.Predictor
