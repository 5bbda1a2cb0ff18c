import Propreact.Profiler.Walk

/-!
# What the loops of `process` compute

Each loop against its recursion: the search behind an overlap (`lookaheadSearch_eq`), the merge
(`merge_eq`), the lookup (`rebuild_eq`) and the publishing (`publish_eq`). None of the loops runs
out of fuel.
-/

namespace Propreact.CuptiProfiler

open Sequences

section
variable {α : Type} {v w : List α} {a : α} {i n : Nat}

theorem sub_eq_ok (h : v[i]? = some a) : sub v i = .ok a := by rw [sub, h]

theorem sub_eq_error (h : v.length ≤ i) : sub v i = .error .outOfRange := by
  rw [sub, List.getElem?_eq_none h]

/-- The entry in front of what is left. -/
theorem sub_of_drop (h : v.drop i = a :: w) : sub v i = .ok a :=
  sub_eq_ok (by rw [← List.head?_drop, h, List.head?_cons])

theorem drop_succ_of_drop (h : v.drop i = a :: w) : v.drop (i + 1) = w := by
  rw [← List.tail_drop, h, List.tail_cons]

theorem length_of_drop (h : v.drop i = a :: w) : v.length = i + w.length + 1 := by
  have := congrArg List.length h
  rw [List.length_drop, List.length_cons] at this
  omega

theorem length_le_of_drop (h : v.drop i = []) : v.length ≤ i := List.drop_eq_nil_iff.1 h

end

/-! ## The search behind an overlap -/

section
variable {raw : List CuptiTuple} {offset count : Nat} {lastEnd : ULong}

/-- The answer of the search at `lookahead`, from what is left of the batch. -/
def seekAt (raw : List CuptiTuple) (offset count : Nat) (lastEnd : ULong) (lookahead : Nat) :
    Except Fault (Option Found) :=
  match raw.drop (offset + count + lookahead - 1) with
  | [] => .error .outOfRange
  | prev :: batch => seek offset lastEnd prev lookahead batch

theorem lookaheadTurn_seekAt {lookahead : Nat} (h1 : 1 ≤ lookahead)
    (h2 : offset + count + lookahead ≤ raw.length) :
    Loop.Turn (lookaheadTurn raw offset count lastEnd) (seekAt raw offset count lastEnd)
      (fun la => 1 ≤ la ∧ offset + count + la ≤ raw.length) (raw.length - ·) lookahead := by
  cases hprev : raw.drop (offset + count + lookahead - 1) with
  | nil => exact absurd (length_le_of_drop hprev) (by omega)
  | cons prev batch =>
    have hlen := length_of_drop hprev
    have hbatch : raw.drop (offset + count + lookahead) = batch := by
      rw [← drop_succ_of_drop hprev]
      congr 1
      omega
    have hat : seekAt raw offset count lastEnd lookahead =
        seek offset lastEnd prev lookahead batch := by
      rw [seekAt, hprev]
    by_cases hlt : lookahead < raw.length - count - 1
    · cases batch with
      | nil =>
        have ho : ¬ offset ≤ 1 := by rw [List.length_nil] at hlen; omega
        have hsub := sub_eq_error (length_le_of_drop hbatch)
        exact Loop.turn_fail _ (by simp [lookaheadTurn, hlt, hsub]) (hat.trans (if_neg ho))
      | cons next batch =>
        have ho : ¬ (offset = 0 ∧ batch = []) := by
          rintro ⟨rfl, rfl⟩
          rw [List.length_singleton] at hlen
          omega
        have hsub := sub_of_drop hbatch
        rw [seek, if_neg ho] at hat
        by_cases hgt : toUnsigned next.first > lastEnd
        · have hsub' := sub_of_drop hprev
          rw [if_pos hgt] at hat
          exact Loop.turn_leave _ (by simp [lookaheadTurn, hlt, hsub, hgt, hsub']) hat
        · have hnext : seekAt raw offset count lastEnd (lookahead + 1) =
              seek offset lastEnd next (lookahead + 1) batch := by
            rw [seekAt, ← Nat.add_assoc, Nat.add_sub_cancel, hbatch]
          rw [if_neg hgt, ← hnext] at hat
          rw [List.length_cons] at hlen
          exact Loop.turn_next _ (by simp [lookaheadTurn, hlt, hsub, hgt]) hat
            ⟨by omega, by omega⟩ (by omega)
    · refine Loop.turn_leave none (by simp [lookaheadTurn, hlt]) (hat.trans ?_)
      cases batch with
      | nil => exact if_pos (by rw [List.length_nil] at hlen; omega)
      | cons next batch =>
        rw [List.length_cons] at hlen
        exact if_pos ⟨by omega, List.length_eq_zero_iff.1 (by omega)⟩

theorem lookaheadSearch_eq (lastEnd : ULong) {prev : CuptiTuple} {batch : List CuptiTuple}
    (h : raw.drop (offset + count) = prev :: batch) :
    lookaheadSearch raw offset count lastEnd = seek offset lastEnd prev 1 batch := by
  have hlen := length_of_drop h
  rw [lookaheadSearch, Loop.run_eq _ _ _ (fun la hla => lookaheadTurn_seekAt hla.1 hla.2) _ _
    ⟨Nat.le_refl 1, by omega⟩ (by omega), seekAt, Nat.add_sub_cancel, h]

end

/-! ## The merge -/

theorem le_of_seek {offset lookahead : Nat} {lastEnd : ULong} {prev : CuptiTuple}
    {batch : List CuptiTuple} {f : Found}
    (h : seek offset lastEnd prev lookahead batch = .ok (some f)) : lookahead ≤ f.lookahead := by
  induction batch generalizing prev lookahead with
  | nil =>
    unfold seek at h
    split at h <;> cases h
  | cons next batch ih =>
    unfold seek at h
    split at h
    · cases h
    · split at h
      · cases h
        exact Nat.le_refl _
      · have := ih h
        omega

/-- Behind an overlap the merge goes on where the search stops. -/
theorem walk_some {offset : Nat} {cur prev : CuptiTuple} {batch pushed : List CuptiTuple}
    (lookahead : Nat) :
    walk offset cur (some prev) batch pushed =
      match seek offset cur.second prev lookahead batch with
      | .error e => .error e
      | .ok none => .ok [cur]
      | .ok (some f) =>
        ((if f.prevEnd > cur.second then ⟨cur.first, f.prevEnd⟩ else cur) :: ·) <$>
          walk offset ⟨f.lookaheadStart, f.lookaheadEnd⟩ none
            (batch.drop (f.lookahead + 1 - lookahead))
            (pushed.drop (f.lookahead + 1 - lookahead)) := by
  induction batch generalizing prev lookahead pushed with
  | nil =>
    unfold walk seek
    split <;> rfl
  | cons next batch ih =>
    by_cases ho : offset = 0 ∧ batch = []
    · rw [walk_last ho, seek, if_pos ho]
    · by_cases hgt : toUnsigned next.first > cur.second
      · rw [walk_found ho hgt, seek, if_neg ho, if_pos hgt]
        simp [merged, unsigned]
      · rw [walk_skip ho hgt, seek, if_neg ho, if_neg hgt, ih (lookahead + 1)]
        split <;> rename_i hseek <;> try rfl
        have hle := le_of_seek hseek
        rename_i f
        rw [show f.lookahead + 1 - lookahead = (f.lookahead + 1 - (lookahead + 1)) + 1 by omega]
        simp

section
variable {raw : List CuptiTuple} {offset disjoint : Nat}

/-- The answer of the merge loop, from the tuple at the back and what is left of the batch. -/
def walkAt (raw : List CuptiTuple) (offset disjoint : Nat) (s : Merge) :
    Except Fault (List CuptiTuple × Nat) :=
  match s.tupVec.getLast? with
  | none => .error .outOfRange
  | some cur =>
    (fun es => (s.tupVec.dropLast ++ es, s.disjointRecords - 1 + es.length)) <$>
      walk offset cur none (raw.drop (offset + s.count)) (raw.drop (disjoint + s.count))

theorem walkAt_concat (raw : List CuptiTuple) (offset disjoint : Nat) (tups : List CuptiTuple)
    (cur : CuptiTuple) (count disjointRecords : Nat) :
    walkAt raw offset disjoint ⟨tups ++ [cur], count, disjointRecords⟩ =
      (fun es => (tups ++ es, disjointRecords - 1 + es.length)) <$>
        walk offset cur none (raw.drop (offset + count)) (raw.drop (disjoint + count)) := by
  rw [walkAt, List.getLast?_concat, List.dropLast_concat]

/-- A turn of the merge agrees with `walkAt`. -/
def MergeTurn (raw : List CuptiTuple) (offset disjoint : Nat) (s : Merge) : Prop :=
  Loop.Turn (mergeTurn raw offset disjoint) (walkAt raw offset disjoint)
    (fun s => s.tupVec ≠ [] ∧ 1 ≤ s.disjointRecords) (fun s => raw.length - s.count) s

theorem sub_concat {α : Type} (l : List α) (a : α) : sub (l ++ [a]) l.length = .ok a :=
  sub_eq_ok (by simp)

section
variable {tups batch : List CuptiTuple} {cur next : CuptiTuple} {count disjointRecords : Nat}

theorem mergeTurn_end (hpos : 1 ≤ disjointRecords) (hbatch : raw.drop (offset + count) = []) :
    MergeTurn raw offset disjoint ⟨tups ++ [cur], count, disjointRecords⟩ := by
  have hat := walkAt_concat raw offset disjoint tups cur count disjointRecords
  have hge := length_le_of_drop hbatch
  have hlt : ¬ offset + count < raw.length := by omega
  rw [hbatch, walk_nil] at hat
  refine Loop.turn_leave (tups ++ [cur], disjointRecords) (by simp [mergeTurn, hlt]) (hat.trans ?_)
  simp
  omega

/-- A separated record: the next of the pushed ones is the new tuple at the back. -/
theorem mergeTurn_separated (hpos : 1 ≤ disjointRecords)
    (hbatch : raw.drop (offset + count) = next :: batch) (hgt : next.first > cur.second) :
    MergeTurn raw offset disjoint ⟨tups ++ [cur], count, disjointRecords⟩ := by
  have hat := walkAt_concat raw offset disjoint tups cur count disjointRecords
  have hback := sub_concat tups cur
  have hlen := length_of_drop hbatch
  have hlt : offset + count < raw.length := by omega
  have hsub := sub_of_drop hbatch
  have hrest := drop_succ_of_drop hbatch
  rw [hbatch] at hat
  cases hpushed : raw.drop (disjoint + count) with
  | nil =>
    have hsub' := sub_eq_error (length_le_of_drop hpushed)
    rw [hpushed, walk_separated_nil hgt] at hat
    exact Loop.turn_fail _ (by simp [mergeTurn, hlt, hback, hsub, hgt, hsub']) hat
  | cons tup pushed =>
    have hsub' := sub_of_drop hpushed
    have hrest' := drop_succ_of_drop hpushed
    have hnext := walkAt_concat raw offset disjoint (tups ++ [cur]) tup (count + 1)
      (disjointRecords + 1)
    rw [← Nat.add_assoc, ← Nat.add_assoc, hrest, hrest'] at hnext
    rw [hpushed, walk_separated hgt] at hat
    refine Loop.turn_next _ (by simp [mergeTurn, hlt, hback, hsub, hgt, hsub'])
      (hat.trans (Eq.trans ?_ hnext.symm)) ⟨by simp, by simp⟩ (by simp; omega)
    simp
    congr 1
    funext es
    simp
    omega

/-- An overlapping record: the loop goes on behind what the search has found. -/
theorem mergeTurn_overlap (hpos : 1 ≤ disjointRecords)
    (hbatch : raw.drop (offset + count) = next :: batch) (hgt : ¬ next.first > cur.second) :
    MergeTurn raw offset disjoint ⟨tups ++ [cur], count, disjointRecords⟩ := by
  have hat := walkAt_concat raw offset disjoint tups cur count disjointRecords
  have hback := sub_concat tups cur
  have hlen := length_of_drop hbatch
  have hlt : offset + count < raw.length := by omega
  have hsub := sub_of_drop hbatch
  have hsearch := lookaheadSearch_eq cur.second hbatch
  rw [hbatch, walk_overlap hgt, walk_some 1] at hat
  cases hseek : seek offset cur.second next 1 batch with
  | error e =>
    rw [hseek] at hsearch hat
    exact Loop.turn_fail _ (by simp [mergeTurn, hlt, hback, hsub, hgt, hsearch]) hat
  | ok found =>
    rw [hseek] at hsearch hat
    cases found with
    | none =>
      refine Loop.turn_leave (tups ++ [cur], disjointRecords)
        (by simp [mergeTurn, hlt, hback, hsub, hgt, hsearch]) (hat.trans ?_)
      simp
      omega
    | some f =>
      have hle := le_of_seek hseek
      have hdrop : raw.drop (offset + (count + f.lookahead + 1)) =
          batch.drop (f.lookahead + 1 - 1) := by
        rw [← drop_succ_of_drop hbatch, List.drop_drop]
        congr 1
        omega
      have hdrop' : raw.drop (disjoint + (count + f.lookahead + 1)) =
          (raw.drop (disjoint + count)).tail.drop (f.lookahead + 1 - 1) := by
        rw [List.tail_drop, List.drop_drop]
        congr 1
        omega
      -- the tuple at the back is replaced if the group ends later
      have hnext := walkAt_concat raw offset disjoint
        (tups ++ [if f.prevEnd > cur.second then ⟨cur.first, f.prevEnd⟩ else cur])
        ⟨f.lookaheadStart, f.lookaheadEnd⟩ (count + f.lookahead + 1) (disjointRecords + 1)
      rw [hdrop, hdrop'] at hnext
      refine Loop.turn_next _ ?_ (hat.trans (Eq.trans ?_ hnext.symm)) ⟨by simp, by simp⟩
        (by simp; omega)
      · simp [mergeTurn, hlt, hback, hsub, hgt, hsearch]
        split <;> simp
      · simp
        congr 1
        funext es
        simp
        omega

end

/-- Every turn of the merge, by what is left of the batch. -/
theorem mergeTurn_walkAt (tups : List CuptiTuple) (cur : CuptiTuple) (count : Nat)
    {disjointRecords : Nat} (hpos : 1 ≤ disjointRecords) :
    MergeTurn raw offset disjoint ⟨tups ++ [cur], count, disjointRecords⟩ := by
  cases hbatch : raw.drop (offset + count) with
  | nil => exact mergeTurn_end hpos hbatch
  | cons next batch =>
    by_cases hgt : next.first > cur.second
    · exact mergeTurn_separated hpos hbatch hgt
    · exact mergeTurn_overlap hpos hbatch hgt

/-- The merge of a batch is `walk` behind the batch's first record. -/
theorem merge_eq {first : CuptiTuple} {batch tupVec : List CuptiTuple}
    (h : raw.drop offset = first :: batch) :
    merge raw offset disjoint tupVec =
      (fun es => (tupVec ++ es, es.length)) <$>
        walk offset first none batch (raw.drop (disjoint + 1)) := by
  have hat := walkAt_concat raw offset disjoint tupVec first 1 1
  rw [drop_succ_of_drop h] at hat
  rw [merge, sub_of_drop h, Loop.ok_bind, Loop.run_eq (walkAt raw offset disjoint)
    (fun s => s.tupVec ≠ [] ∧ 1 ≤ s.disjointRecords) (fun s => raw.length - s.count) ?_ _ _
    ⟨by simp, Nat.le_refl 1⟩ (Nat.lt_succ_of_le (Nat.sub_le _ _)), hat]
  · simp
  · rintro ⟨tupVec, count, disjointRecords⟩ ⟨hne, hpos⟩
    obtain ⟨tups, cur, rfl⟩ := (List.eq_nil_or_concat' tupVec).resolve_left hne
    exact mergeTurn_walkAt tups cur count hpos

end

/-! ## The lookup -/

section
variable {keyvalRaw : List ExpKeyCuptiTuple} {tupVec : List CuptiTuple}
  {disjoint disjointRecords : Nat}

/-- The start of an entry, by which it is looked up. -/
def startOf (e : ExpKeyCuptiTuple) : ULong := e.2.first

/-- A failed search is a subscript out of range. -/
def orOutOfRange {α : Type} : Option α → Except Fault α
  | some a => .ok a
  | none => .error .outOfRange

/-- The answer of the lookup loop, from what is left of both vectors. -/
def pickAt (keyvalRaw : List ExpKeyCuptiTuple) (tupVec : List CuptiTuple) (disjoint : Nat)
    (s : Rebuild) : Except Fault (List ExpKeyCuptiTuple) :=
  orOutOfRange ((pick startOf (keyvalRaw.drop (disjoint + s.count2))
    ((tupVec.drop (disjoint + s.count1)).map CuptiTuple.first)).map (s.keyvalVec ++ ·))

theorem rebuildTurn_pickAt (hlen : tupVec.length = disjoint + disjointRecords) (s : Rebuild) :
    Loop.Turn (rebuildTurn keyvalRaw tupVec disjoint disjointRecords)
      (pickAt keyvalRaw tupVec disjoint) (fun _ => True)
      (fun s => keyvalRaw.length - (disjoint + s.count2)) s := by
  obtain ⟨keyvalVec, count1, count2⟩ := s
  cases htup : tupVec.drop (disjoint + count1) with
  | nil =>
    have hge := length_le_of_drop htup
    have hlt : ¬ count1 < disjointRecords := by omega
    exact Loop.turn_leave keyvalVec (by simp [rebuildTurn, hlt])
      (by simp [pickAt, htup, orOutOfRange])
  | cons tup tups =>
    have hlen' := length_of_drop htup
    have hlt : count1 < disjointRecords := by omega
    have hsub := sub_of_drop htup
    cases hkeyval : keyvalRaw.drop (disjoint + count2) with
    | nil =>
      have hsub' := sub_eq_error (length_le_of_drop hkeyval)
      exact Loop.turn_fail .outOfRange (by simp [rebuildTurn, hlt, hsub'])
        (by simp [pickAt, htup, hkeyval, pick, orOutOfRange])
    | cons keyval keyvals =>
      have hlen'' := length_of_drop hkeyval
      have hsub' := sub_of_drop hkeyval
      have hrest := drop_succ_of_drop htup
      have hrest' := drop_succ_of_drop hkeyval
      by_cases heq : startOf keyval = tup.first
      · have heq' : keyval.2.first = tup.first := heq
        refine Loop.turn_next ⟨keyvalVec ++ [keyval], count1 + 1, count2 + 1⟩
          (by simp [rebuildTurn, hlt, hsub, hsub', heq']) ?_ trivial (by simp; omega)
        rw [pickAt, pickAt, htup, hkeyval, ← Nat.add_assoc, ← Nat.add_assoc, hrest, hrest',
          List.map_cons, pick, if_pos heq, Option.map_map]
        congr 2
        funext r
        simp
      · have heq' : ¬ keyval.2.first = tup.first := heq
        refine Loop.turn_next ⟨keyvalVec, count1, count2 + 1⟩
          (by simp [rebuildTurn, hlt, hsub, hsub', heq']) ?_ trivial (by simp; omega)
        rw [pickAt, pickAt, htup, hkeyval, ← Nat.add_assoc, hrest', List.map_cons, pick, if_neg heq]

/-- The lookup is the greedy search for the starts of the new tuples. -/
theorem rebuild_eq (keyvalRaw keyvalVec : List ExpKeyCuptiTuple)
    (hlen : tupVec.length = disjoint + disjointRecords) :
    rebuild keyvalRaw tupVec disjoint disjointRecords keyvalVec =
      orOutOfRange ((pick startOf (keyvalRaw.drop disjoint)
        ((tupVec.drop disjoint).map CuptiTuple.first)).map (keyvalVec ++ ·)) := by
  rw [rebuild, Loop.run_eq _ _ _ (fun s _ => rebuildTurn_pickAt hlen s) _ _ trivial
    (Nat.lt_succ_of_le (Nat.sub_le _ _))]
  rfl

end

/-! ## Publishing -/

theorem usage_eq {l : List ExpKeyCuptiTuple} {i : Nat} {e : ExpKeyCuptiTuple × ExpKeyCuptiTuple}
    (h : l[i]? = some e.1) (h' : l[i + 1]? = some e.2) : usage l i = .ok (usageOf e) := by
  simp [usage, sub_eq_ok h, sub_eq_ok h', usageOf]

theorem mapM_range {ε β : Type} {f : Nat → Except ε β} {l : List β}
    (h : ∀ i b, l[i]? = some b → f i = .ok b) : (List.range l.length).mapM f = .ok l := by
  induction l using List.reverseRecOn with
  | nil => rfl
  | append_singleton l b ih =>
    have hlast := h l.length b (by simp)
    have hinit := ih fun i b' hi => h i b' (by
      rw [List.getElem?_append_left (List.getElem?_eq_some_iff.1 hi).1, hi])
    rw [List.length_append, List.length_singleton, List.range_succ, List.mapM_append, hinit]
    simp [hlast]

theorem usage_consecutive {old new : List ExpKeyCuptiTuple} {i : Nat} {u : Usage}
    (h : ((consecutive new).map usageOf)[i]? = some u) :
    usage (old ++ new) (old.length + i) = .ok u := by
  rw [List.getElem?_map, getElem?_consecutive] at h
  cases ha : new[i]? with
  | none => simp [ha] at h
  | some a =>
    cases hb : new[i + 1]? with
    | none => simp [ha, hb] at h
    | some b =>
      simp [ha, hb] at h
      subst h
      refine usage_eq ?_ ?_
      · rw [List.getElem?_append_right (by omega), Nat.add_sub_cancel_left, ha]
      · rw [List.getElem?_append_right (by omega), Nat.add_assoc, Nat.add_sub_cancel_left, hb]

/-- What is published: the pairs of neighbours from the last entry of the earlier batches on. -/
theorem publish_eq (old : List ExpKeyCuptiTuple) {new : List ExpKeyCuptiTuple} (hne : new ≠ []) :
    publish (old ++ new) old.length new.length =
      .ok (publishedOf (old.getLast?.toList ++ new)) := by
  have hinner : (List.range (new.length - 1)).mapM
      (fun count => usage (old ++ new) (old.length + count)) =
      .ok ((consecutive new).map usageOf) := by
    have hlen : new.length - 1 = ((consecutive new).map usageOf).length := by
      simp [consecutive]
    rw [hlen]
    exact mapM_range fun i u hu => usage_consecutive hu
  cases hold : old.getLast? with
  | none =>
    obtain rfl := List.getLast?_eq_none_iff.1 hold
    rw [publish, hinner]
    simp [publishedOf]
  | some e =>
    obtain ⟨init, rfl⟩ := List.getLast?_eq_some_iff.1 hold
    obtain ⟨k, new, rfl⟩ := List.exists_cons_of_ne_nil hne
    -- the pair that straddles the batches
    have hstraddling : usage (init ++ [e] ++ k :: new) ((init ++ [e]).length - 1) =
        .ok (usageOf (e, k)) := usage_eq (by simp) (by simp)
    rw [publish, hinner, hstraddling, if_pos (by simp)]
    simp [publishedOf, List.singleton]

end Propreact.CuptiProfiler
