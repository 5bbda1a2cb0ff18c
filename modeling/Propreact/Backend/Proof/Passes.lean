import Propreact.Backend.Proof.Safety

/-!
# The passes of the Arbiter

What the Arbiter's thread does is a sequence of passes (`passes`): it polls the two tenants in
order, looks up in the window those with a positive key, in order, and then releases the same
tenants in the same order (`passEvents`). `InPass` says how far the pass has come at each point of
the three loops, and what their map, set and iterators hold there.
-/

namespace Propreact.Backend

/-- The entries that the polls of a pass found for the two tenants. -/
abbrev Polled := Option ExperimentalKey × Option ExperimentalKey

/-- The entry of a polled tenant that has a request. -/
def entryOf (t : TenantId) : Option ExperimentalKey → List (TenantId × ExperimentalKey)
  | some k => if 0 < k then [(t, k)] else []
  | none => []

/-- `tenants_with_requests` after the polls. -/
def withRequests (found : Polled) : List (TenantId × ExperimentalKey) :=
  entryOf 0 found.1 ++ entryOf 1 found.2

/-- The poll of a tenant returns the key of the entry, or 0. -/
def poll (t : TenantId) (found : Option ExperimentalKey) : Event :=
  .retrieved t found (found.getD 0)

/-- The steps of a pass up to its lookups. -/
def polls (found : Polled) : List Event := [poll 0 found.1, poll 1 found.2, .collected]

def lookedAll (entries : List (TenantId × ExperimentalKey)) : List Event :=
  entries.map fun e => .looked e.1

def releasedAll (tenants : List TenantId) : List Event := tenants.map .released

/-- The steps of a pass. -/
def passEvents (found : Polled) : List Event :=
  polls found ++ lookedAll (withRequests found) ++ [.answersReady] ++
    releasedAll ((withRequests found).map Prod.fst) ++ [.newPass]

/-- The Arbiter's thread makes the step. -/
def Event.ofArbiter : Event → Bool
  | .retrieved _ _ _ | .collected | .looked _ | .answersReady | .released _ | .newPass => true
  | _ => false

/-- The map that the polls fill. -/
def mapOf (entries : List (TenantId × ExperimentalKey)) : Std.TreeMap TenantId ExperimentalKey :=
  entries.foldl (fun m e => m.insertIfNew e.1 e.2) ∅

/-- The set that the lookups fill. -/
def setOf (entries : List (TenantId × ExperimentalKey)) : Std.TreeSet TenantId :=
  entries.foldl (fun r e => r.insert e.1) ∅

/-- How far a pass has come that has made the steps `part`. -/
inductive InPass : Arbiter → List Event → Prop
  | start : InPass (.retrieving 0 ∅) []
  | first (f0 : Option ExperimentalKey) :
    InPass (.retrieving 1 (mapOf (entryOf 0 f0))) [poll 0 f0]
  | second (found : Polled) :
    InPass (.retrieving 2 (mapOf (withRequests found)))
      [poll 0 found.1, poll 1 found.2]
  | looking (found : Polled)
      {done search : List (TenantId × ExperimentalKey)} :
    withRequests found = done ++ search →
    InPass (.looking search (setOf done)) (polls found ++ lookedAll done)
  | releasing (found : Polled)
      {done search : List TenantId} :
    (withRequests found).map Prod.fst = done ++ search →
    InPass (.releasing search)
      (polls found ++ lookedAll (withRequests found) ++ [.answersReady] ++ releasedAll done)

variable {s s' : Backend} {e : Event} {part : List Event} {tr : List Event}
  {ready : TenantId → Bool}

theorem toList_mapOf (found : Polled) :
    (mapOf (withRequests found)).toList = withRequests found := by
  obtain ⟨f0, f1⟩ := found
  unfold withRequests entryOf
  rcases f0 with - | k0 <;> rcases f1 with - | k1 <;> dsimp only
  · rfl
  · split <;> rfl
  · split <;> rfl
  · split <;> split <;> rfl

theorem toList_setOf (found : Polled) :
    (setOf (withRequests found)).toList = (withRequests found).map Prod.fst := by
  obtain ⟨f0, f1⟩ := found
  unfold withRequests entryOf
  rcases f0 with - | k0 <;> rcases f1 with - | k1 <;> dsimp only
  · rfl
  · split <;> rfl
  · split <;> rfl
  · split <;> split <;> rfl

/-- A poll adds the tenant's entry to the map. -/
theorem mapOf_entryOf (entries : List (TenantId × ExperimentalKey)) (t : TenantId)
    (found : Option ExperimentalKey) :
    (match found with
      | some k => if 0 < k then (mapOf entries).insertIfNew t k else mapOf entries
      | none => mapOf entries) = mapOf (entries ++ entryOf t found) := by
  unfold entryOf
  split
  · split <;> simp [mapOf]
  · simp

/-- A poll goes on with the pass. -/
theorem retrieve_inPass {t : TenantId} {m : Std.TreeMap TenantId ExperimentalKey}
    (hp : InPass (.retrieving t m) part) (found : Option ExperimentalKey) :
    InPass (.retrieving (t + 1)
      (match found with
        | some k => if 0 < k then m.insertIfNew t k else m
        | none => m)) (part ++ [poll t found]) := by
  generalize hn : (t : Nat) = n at hp
  cases hp with
  | start =>
    obtain rfl : t = 0 := Fin.ext hn
    have hmap := mapOf_entryOf [] 0 found
    rw [List.nil_append] at hmap
    exact hmap ▸ .first found
  | first f0 =>
    obtain rfl : t = 1 := Fin.ext hn
    rw [mapOf_entryOf]
    exact .second (f0, found)
  | second found' =>
    have hlt : (t : Nat) < 2 := t.isLt
    omega

/-- A step of the Arbiter goes on with the pass, or ends it. -/
theorem arbiterStep_inPass (h : ArbiterStep s e s') (hp : InPass s.arbiter part) :
    InPass s'.arbiter (part ++ [e]) ∨
      ∃ found, part ++ [e] = passEvents found ∧ InPass s'.arbiter [] := by
  cases h with
  | @retrieve t m harb =>
    left
    rw [harb] at hp
    exact retrieve_inPass hp _
  | collect harb hn =>
    left
    rw [harb] at hp
    cases hp with
    | start => exact absurd (by decide) hn
    | first => exact absurd (by decide) hn
    | second found =>
      rw [toList_mapOf]
      exact .looking found (List.nil_append _).symm
  | @look t k search resp r harb hl =>
    left
    rw [harb] at hp
    cases hp with
    | @looking found done _ heq =>
      have hset : (setOf done).insert t = setOf (done ++ [(t, k)]) := by simp [setOf]
      have hlooked : lookedAll (done ++ [(t, k)]) = lookedAll done ++ [.looked t] := by
        simp [lookedAll]
      rw [List.append_assoc, ← hlooked, hset]
      exact .looking found (by rw [heq, List.append_assoc]; rfl)
  | answersReady harb =>
    left
    rw [harb] at hp
    cases hp with
    | @looking found done _ heq =>
      rw [List.append_nil] at heq
      subst heq
      rw [toList_setOf]
      have hnone := InPass.releasing found (List.nil_append _).symm
      rwa [releasedAll, List.map_nil, List.append_nil] at hnone
  | @release t search harb =>
    left
    rw [harb] at hp
    cases hp with
    | @releasing found done _ heq =>
      have hreleased : releasedAll (done ++ [t]) = releasedAll done ++ [.released t] := by
        simp [releasedAll]
      rw [List.append_assoc, ← hreleased]
      exact .releasing found (by rw [heq, List.append_assoc]; rfl)
  | newPass harb =>
    right
    rw [harb] at hp
    cases hp with
    | @releasing found done _ heq =>
      rw [List.append_nil] at heq
      subst heq
      exact ⟨found, rfl, .start⟩

/-- A step of another thread is none of the pass. -/
theorem next_inPass {a : Action} (h : s.next a = some (e, s')) :
    e.ofArbiter = false ∧ s'.arbiter = s.arbiter ∨ e.ofArbiter = true ∧ ArbiterStep s e s' := by
  obtain ⟨-, henv | ⟨t, -, hs⟩ | ⟨-, hs⟩⟩ := next_step h
  · cases henv <;> exact .inl ⟨rfl, rfl⟩
  · cases hs <;> exact .inl ⟨rfl, rfl⟩
  · refine .inr ⟨?_, hs⟩
    cases hs <;> rfl

/-- The part of a pass that has been made. -/
theorem InPass.begins {arb : Arbiter} (h : InPass arb part) :
    ∃ found, part <+: passEvents found := by
  cases h with
  | start => exact ⟨(none, none), List.nil_prefix⟩
  | first f0 => exact ⟨(f0, none), [poll 1 none, .collected] ++ _, rfl⟩
  | second found => exact ⟨found, [.collected] ++ _, rfl⟩
  | @looking found done search heq =>
    refine ⟨found, lookedAll search ++ [.answersReady] ++
      releasedAll ((withRequests found).map Prod.fst) ++ [.newPass], ?_⟩
    simp [passEvents, heq, lookedAll]
  | @releasing found done search heq =>
    refine ⟨found, releasedAll search ++ [.newPass], ?_⟩
    simp [passEvents, heq, releasedAll]

/-- **The Arbiter makes passes.** In every run, whatever the flags hold at the start and however
the threads interleave: the steps of the Arbiter's thread are whole passes, and then a beginning of
one. -/
theorem passes (h : (lts ready).Run tr s) :
    ∃ (founds : List Polled) (part : List Event),
      tr.filter Event.ofArbiter = founds.flatMap passEvents ++ part ∧
      ∃ found, part <+: passEvents found := by
  have hinv : ∃ (founds : List Polled) (part : List Event),
      tr.filter Event.ofArbiter = founds.flatMap passEvents ++ part ∧ InPass s.arbiter part := by
    refine h.trace_inv (I := fun tr s => ∃ (founds : List Polled) (part : List Event),
      tr.filter Event.ofArbiter = founds.flatMap passEvents ++ part ∧ InPass s.arbiter part) ?_ ?_
    · intro s hs
      rw [show s = start ready from hs]
      exact ⟨[], [], rfl, .start⟩
    · intro tr s e s' _ hI hs
      obtain ⟨founds, part, htr, hp⟩ := hI
      obtain ⟨a, ha⟩ := hs
      rw [List.filter_append, htr, List.append_assoc]
      rcases next_inPass ha with ⟨he, harb⟩ | ⟨he, hs⟩
      · refine ⟨founds, part, by simp [he], ?_⟩
        rw [harb]
        exact hp
      · have hone : [e].filter Event.ofArbiter = [e] := by simp [he]
        rw [hone]
        rcases arbiterStep_inPass hs hp with hp' | ⟨found, heq, hp'⟩
        · exact ⟨founds, part ++ [e], rfl, hp'⟩
        · refine ⟨founds ++ [found], [], ?_, hp'⟩
          rw [heq]
          simp
  obtain ⟨founds, part, htr, hp⟩ := hinv
  exact ⟨founds, part, htr, hp.begins⟩

/-- Both tenants served once, in one pass. -/
theorem served_passes : ∃ tr s, (lts noneReady).Run tr s ∧
    tr.filter Event.ofArbiter = passEvents (some 5, some 6) ++ [] ∧
    ∃ (founds : List Polled) (part : List Event),
      tr.filter Event.ofArbiter = founds.flatMap passEvents ++ part ∧
      ∃ found, part <+: passEvents found := by
  have hrun := Lts.run_schedule (start noneReady) next
    (served.take 6 ++ List.replicate 9 .arbiter) rfl
  exact ⟨_, _, hrun, rfl, passes hrun⟩

end Propreact.Backend
