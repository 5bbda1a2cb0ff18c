import Propreact.Client.Proof.Encode
import Propreact.Profiler.Proof.Separated
import Propreact.Window.Proof.Mailbox
import Propreact.Client.Xrush

/-!
# How many records a request carries

`consume` returns what the last `produce` was called with, so a request is made of the records
published since the request before it (`Mailbox`). Nothing bounds their number: the
requests of a run fit in `m_pkt` exactly if none is made while more than 340 records are pending
(`packet_fits_iff`).
-/

namespace Propreact

namespace Xrush

open Sequences

variable {start : ULong} {pkt : Vector ULong pktWords} {tr : List Event} {s s' : Xrush} {e : Event}

theorem pending_concat (tr : List Event) (e : Event) :
    pending (tr ++ [e]) = e.after (pending tr) := by
  rw [pending, List.foldl_append]
  rfl

theorem next_profile {buffers : List (List Activity)} {prof : CuptiProfiler} {out : Published}
    (ho : s.overrun = false) (hfree : s.gwin.mutex = false)
    (hr : s.prof.read buffers = .ok (prof, out)) :
    s.next (.profile buffers) = some (.profiled buffers out,
      { s with prof, gwin := { s.gwin with recs := out.produced, stale := false } }) := by
  simp only [next, ho, profile, hr, GlobalWindow.produce_eq hfree]
  rfl

/-- A request is made of what is in the mailbox, and overruns the buffer if that does not fit. -/
theorem next_launch {now : Int} {g : Grid} {pred : Predictor} (ho : s.overrun = false)
    (hfree : s.gwin.mutex = false) (hd : s.pred.decide now g = (.request, pred)) :
    ∃ s', s.next (.launch g now) = some (.requested g s.gwin.mail, s') ∧
      s'.gwin = { s.gwin with stale := true } ∧
      (s'.overrun = false ↔ 2 + 3 * s.gwin.mail.length ≤ pktWords) := by
  have hencode := @Predictor.encode_isSome_iff pred.pkt g s.gwin.mail
  rw [← hencode]
  cases he : Predictor.encode pred.pkt g s.gwin.mail with
  | some pkt =>
    refine ⟨{ s with gwin := { s.gwin with stale := true }, pred := { pred with pkt } }, ?_, rfl,
      by simp [ho]⟩
    simp [next, ho, launch, hd, GlobalWindow.consume_eq hfree, he]
  | none =>
    refine ⟨{ s with gwin := { s.gwin with stale := true }, pred, overrun := true }, ?_, rfl,
      by simp⟩
    simp [next, ho, launch, hd, GlobalWindow.consume_eq hfree, he]

/-- A packet fits exactly if its last word lies in the buffer. -/
theorem fitsPacket_iff {g : Grid} {r : RecordVec} :
    FitsPacket g r ↔ 2 + 3 * r.length ≤ pktWords := by
  constructor
  · intro h
    exact Predictor.pktWrites_lt_iff.1 h.words
  · intro h
    refine ⟨Predictor.pktWrites_lt_iff.2 h, ?_⟩
    rw [Predictor.pktSize_toNat h]
    omega

/-- What a step does to the mailbox: a request is made of what was in it, and no step follows one
that does not fit. -/
structure Delivers (s : Xrush) (e : Event) (s' : Xrush) : Prop where
  free : s'.gwin.mutex = false
  mail : s'.gwin.mail = e.after s.gwin.mail
  request : ∀ g r, e = .requested g r → r = s.gwin.mail
  overrun : s.overrun = false ∧ (s'.overrun = false ↔ ∀ g r, e = .requested g r → FitsPacket g r)

theorem next_delivers {a : Action} (hfree : s.gwin.mutex = false) (h : s.next a = some (e, s')) :
    Delivers s e s' := by
  have ho : s.overrun = false := by
    unfold next at h
    split at h
    · cases h
    · rename_i ho
      exact Bool.eq_false_iff.2 ho
  cases a with
  | callback buffer =>
    simp only [next, ho] at h
    cases h
    exact ⟨hfree, rfl, by simp, ho, by simp⟩
  | profile buffers =>
    cases hr : s.prof.read buffers with
    | error f => simp [next, ho, profile, hr] at h
    | ok res =>
      rw [next_profile ho hfree hr] at h
      cases h
      exact ⟨hfree, rfl, by simp, ho, by simp [ho]⟩
  | launch g now =>
    cases hd : s.pred.decide now g with
    | mk d pred =>
      cases d with
      | marker =>
        simp only [next, ho, launch, hd] at h
        cases h
        exact ⟨hfree, rfl, by simp, ho, by simp⟩
      | request =>
        obtain ⟨s1, hnext, hgwin, hfits⟩ := next_launch ho hfree hd
        rw [hnext] at h
        cases h
        refine ⟨by rw [hgwin, hfree], by rw [hgwin]; rfl, by simp, ho, ?_⟩
        rw [hfits, ← fitsPacket_iff (g := g)]
        simp

/-- The mailbox after a run. -/
structure Mailbox (tr : List Event) (s : Xrush) : Prop where
  free : s.gwin.mutex = false
  mail : s.gwin.mail = pending tr
  requests : ∀ pre g r post, tr = pre ++ .requested g r :: post → r = pending pre
  overrun : s.overrun = false ↔ ∀ g r, .requested g r ∈ tr → FitsPacket g r

theorem Mailbox.step (h : Mailbox tr s) (hd : Delivers s e s') : Mailbox (tr ++ [e]) s' := by
  refine ⟨hd.free, by rw [hd.mail, pending_concat, h.mail], ?_, ?_⟩
  · intro pre g r post heq
    rcases concat_eq_append_cons heq with ⟨rfl, he⟩ | ⟨post, heq⟩
    · rw [← h.mail]
      exact hd.request g r he
    · exact h.requests pre g r post heq
  · have hfits := h.overrun.1 hd.overrun.1
    rw [hd.overrun.2]
    constructor
    · intro he g r hmem
      rcases List.mem_append.1 hmem with hmem | hmem
      · exact hfits g r hmem
      · exact he g r (List.mem_singleton.1 hmem).symm
    · intro hall g r he
      apply hall
      simp [he]

theorem mailbox (h : (lts start pkt).Run tr s) : Mailbox tr s := by
  refine h.trace_inv (I := Mailbox) ?_ ?_
  · rintro s rfl
    exact ⟨rfl, rfl, by simp, by simp [create]⟩
  · intro tr s e s' _ hm hs
    obtain ⟨a, ha⟩ := hs
    exact hm.step (next_delivers hm.free ha)

/-- **The packet's bound.** In every run of reads, launches and callbacks: all requests fit in
`m_pkt` if and only if none is made while more than 340 records are pending. -/
theorem packet_fits_iff (h : (lts start pkt).Run tr s) :
    (∀ g r, .requested g r ∈ tr → FitsPacket g r) ↔
    ∀ pre g r post, tr = pre ++ .requested g r :: post → (pending pre).length ≤ 340 := by
  have hm := mailbox h
  have hbound (r : RecordVec) : 2 + 3 * r.length ≤ pktWords ↔ r.length ≤ 340 := by
    simp only [pktWords]
    omega
  constructor
  · intro hfits pre g r post heq
    have hr := hfits g r (by simp [heq])
    rwa [hm.requests pre g r post heq, fitsPacket_iff, hbound] at hr
  · intro hpending g r hmem
    obtain ⟨pre, post, heq⟩ := List.append_of_mem hmem
    rw [fitsPacket_iff, hbound, hm.requests pre g r post heq]
    exact hpending pre g r post heq

/-- A launch right after a first read takes all that it published. -/
theorem run_read_launch {buffers : List (List Activity)} {prof : CuptiProfiler} {out : Published}
    (hr : (CuptiProfiler.new start).read buffers = .ok (prof, out)) {g : Grid} (hg : 1 < g.x) :
    ∃ s, (lts start pkt).Run [.profiled buffers out, .requested g out.produced] s := by
  have hd : (Predictor.new pkt).decide 0 g =
      (.request, { Predictor.new pkt with lib := false }) := by
    have h0 : g.x ≠ 0 := fun h => absurd (h ▸ hg) (by decide)
    have h1 : g.x ≠ 1 := fun h => absurd (h ▸ hg) (by decide)
    simp [Predictor.decide, h0, h1]
  have h1 := next_profile (s := create start pkt) rfl rfl hr
  obtain ⟨s, h2, -, -⟩ := next_launch (s := { create start pkt with
    prof, gwin := { GlobalWindow.new with recs := out.produced, stale := false } }) rfl rfl hd
  have hrun : (lts start pkt).Run [] (create start pkt) := .nil rfl
  exact ⟨s, (hrun.snoc ⟨_, h1⟩).snoc ⟨_, h2⟩⟩

/-- Kernels of one grid, one after the other. -/
def kernelsInRow (n : Nat) : List Kernel :=
  (List.range n).map fun i => ⟨.ofNat (2 * i), .ofNat (2 * i + 1), 1, 1, 1⟩

theorem kernelsInRow_separated {n : Nat} (h : 2 * n < 18446744073709551616) :
    CuptiProfiler.SeparatedTuples (CuptiProfiler.times 0 (kernelsInRow n)) := by
  have hnat (i : Nat) (hi : i < 2 * n) : (UInt64.ofNat i).toNat = i := by
    rw [UInt64.toNat_ofNat']
    exact Nat.mod_eq_of_lt (by omega)
  constructor
  · rw [Interval.Separated, List.isChain_iff_getElem]
    intro i hi
    simp only [CuptiProfiler.times, kernelsInRow, List.length_map, List.length_range] at hi
    simp only [CuptiProfiler.times, kernelsInRow, List.getElem_map, List.getElem_range,
      CuptiProfiler.entry, UInt64.sub_zero, UInt64.lt_iff_toNat_lt]
    rw [hnat _ (by omega), hnat _ (by omega)]
    omega
  · intro t ht
    simp only [CuptiProfiler.times, kernelsInRow, List.map_map, List.mem_map, List.mem_range] at ht
    obtain ⟨i, hi, rfl⟩ := ht
    simp only [Function.comp, CuptiProfiler.entry, UInt64.sub_zero, UInt64.le_iff_toNat_le]
    rw [hnat _ (by omega), hnat _ (by omega)]
    omega

/-- A first read of `n` kernels in a row publishes `n - 1` records. -/
theorem read_kernelsInRow {n : Nat} (hn : n ≠ 0) (h : 2 * n < 18446744073709551616) :
    ∃ p out, (CuptiProfiler.new 0).read [(kernelsInRow n).map .kernel] = .ok (p, out) ∧
      out.produced.length = n - 1 := by
  have hflat : [(kernelsInRow n).map Activity.kernel].flatten = (kernelsInRow n).map .kernel :=
    List.append_nil _
  have hd : CuptiProfiler.SeparatedDelivery 0 [(kernelsInRow n).map .kernel] := by
    refine ⟨?_, ?_, ?_⟩
    · rw [hflat]
      simpa [kernelsInRow] using hn
    · rw [hflat]
      exact List.forall_mem_map.2 fun _ _ => rfl
    · rw [hflat, CuptiProfiler.times_eq]
      exact kernelsInRow_separated h
  obtain ⟨p, hr, hc, -⟩ := CuptiProfiler.read_separated (CuptiProfiler.new_caughtUp 0) hd
  refine ⟨p, _, hr, ?_⟩
  have hlen := CuptiProfiler.read_length (CuptiProfiler.new_caughtUp 0).balanced hr
  have htot : p.totDisjointRecords = n := by
    rw [hc.disjoint, hflat, CuptiProfiler.new, CuptiProfiler.entries_kernels]
    simp [kernelsInRow]
  rw [hlen, htot]
  rfl

/-- Two records fit. -/
theorem short_read_fits : ∃ tr s g r, (lts 0 (Vector.replicate pktWords 0)).Run tr s ∧
    .requested g r ∈ tr ∧ r.length = 2 ∧ ∀ g r, .requested g r ∈ tr → FitsPacket g r := by
  obtain ⟨p, out, hr, hlen⟩ := read_kernelsInRow (n := 3) (by decide) (by decide)
  obtain ⟨s, hrun⟩ := run_read_launch hr (g := ⟨5, 1, 1⟩) (by decide)
  refine ⟨_, s, ⟨5, 1, 1⟩, out.produced, hrun, by simp, hlen, (packet_fits_iff hrun).2 ?_⟩
  intro pre g r post heq
  -- only the read is in front of the request
  match pre, heq with
  | [], heq => cases heq
  | [e], heq =>
    cases heq
    have hpending : pending [.profiled [(kernelsInRow 3).map .kernel] out] = out.produced := rfl
    rw [hpending, hlen]
    decide
  | _ :: _ :: _, heq => simp at heq

/-- A first read that finds 342 disjoint kernels, and a launch: the request has 1025 words. -/
theorem long_read_overruns : ∃ tr s g r, (lts 0 (Vector.replicate pktWords 0)).Run tr s ∧
    .requested g r ∈ tr ∧ r.length = 341 ∧ ¬ FitsPacket g r := by
  obtain ⟨p, out, hr, hlen⟩ := read_kernelsInRow (n := 342) (by decide) (by decide)
  obtain ⟨s, hrun⟩ := run_read_launch hr (g := ⟨5, 1, 1⟩) (by decide)
  refine ⟨_, s, ⟨5, 1, 1⟩, out.produced, hrun, by simp, hlen, ?_⟩
  rw [fitsPacket_iff, hlen]
  decide

end Xrush

end Propreact
