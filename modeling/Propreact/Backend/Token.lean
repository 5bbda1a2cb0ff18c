import Propreact.Backend.System
import Propreact.Lib.Sequences

/-!
# The life of a request

`Token`: where a tenant's one request is. The tenant posts it (`asked`), the Arbiter takes it from
the pool (`held`, or `lost` if its key reads as "no request"), releases the tenant (`granted`),
and the tenant answers its client. `Token.Step` says which calls on the pool may happen where;
`Token.Ledger` is what that implies for the calls counted over a whole trace.

`Token.view` is the part of the backend's state a token stands for; `Proof/Refine.lean` shows that
the backend follows the tokens of both tenants along every run.
-/

namespace Propreact.Backend

/-- Where a tenant's thread is: between requests, busy with one (`update` returned, the matching
`wait` has not), or about to answer. -/
inductive Phase where
  | between
  | busy
  | answering
  deriving Repr, DecidableEq

/-- A call made for one tenant. -/
inductive Own where
  | updated (k : ExperimentalKey)
  | assertFailed
  | waited
  | responded
  | retrieved (found : Option ExperimentalKey) (k : ExperimentalKey)
  | released
  deriving Repr, DecidableEq

/-- The call of a step, if it is made for tenant `t`. -/
def Event.own (t : TenantId) : Event → Option Own
  | .updated u k => if u = t then some (.updated k) else none
  | .assertFailed u => if u = t then some .assertFailed else none
  | .waited u => if u = t then some .waited else none
  | .responded u => if u = t then some .responded else none
  | .retrieved u found k => if u = t then some (.retrieved found k) else none
  | .released u => if u = t then some .released else none
  | _ => none

/-- The label of a call made for tenant `t`. -/
def Own.event (t : TenantId) : Own → Event
  | .updated k => .updated t k
  | .assertFailed => .assertFailed t
  | .waited => .waited t
  | .responded => .responded t
  | .retrieved found k => .retrieved t found k
  | .released => .released t

theorem own_eq_some {t : TenantId} {e : Event} {o : Own} : e.own t = some o ↔ e = o.event t := by
  cases e <;> cases o <;> simp [Event.own, Own.event]

/-- The calls made for tenant `t`. -/
def calls (t : TenantId) (tr : List Event) : List Own := tr.filterMap (Event.own t)

theorem mem_calls {t : TenantId} {o : Own} {tr : List Event} :
    o ∈ calls t tr ↔ o.event t ∈ tr := by
  rw [calls, List.mem_filterMap]
  constructor
  · rintro ⟨e, he, ho⟩
    rwa [← own_eq_some.1 ho]
  · exact fun he => ⟨_, he, own_eq_some.2 rfl⟩

@[simp] def Own.posted : Own → Option ExperimentalKey
  | .updated k => some k
  | _ => none

@[simp] def Own.found : Own → Option ExperimentalKey
  | .retrieved (some _) k => some k
  | _ => none

@[simp] def Own.key : Own → Option ExperimentalKey
  | .retrieved _ k => some k
  | _ => none

/-- The keys posted by `update`, oldest first. -/
def updates (os : List Own) : List ExperimentalKey := os.filterMap Own.posted

/-- The keys that `retrieve` returned where it found an entry, oldest first. -/
def founds (os : List Own) : List ExperimentalKey := os.filterMap Own.found

/-- The number of `retrieve` calls that returned a positive key. -/
def positives (os : List Own) : Nat := (os.filterMap Own.key).countP (0 < ·)

/-- One tenant's part of the shared state: its thread's phase, its entry in the pool, whether the
Arbiter's pass holds it, and its flag. -/
structure View where
  phase : Phase
  entry : Option ExperimentalKey
  held : Bool
  ready : Bool
  deriving Repr, DecidableEq

/-- The place of a tenant's request. -/
inductive Token where
  | idle
  | asked (k : ExperimentalKey)
  | lost
  | held
  | granted
  | answering
  deriving Repr, DecidableEq

namespace Token

def view : Token → View
  | .idle => ⟨.between, none, false, false⟩
  | .asked k => ⟨.busy, some k, false, false⟩
  | .lost => ⟨.busy, none, false, false⟩
  | .held => ⟨.busy, none, true, false⟩
  | .granted => ⟨.busy, none, false, true⟩
  | .answering => ⟨.answering, none, false, false⟩

theorem view_held {tok : Token} : tok.view.held = true ↔ tok = .held := by
  cases tok <;> simp [view]

/-- The calls a token allows. -/
inductive Step : Token → Own → Token → Prop
  | post (k : ExperimentalKey) : Step .idle (.updated k) (.asked k)
  | take {k : ExperimentalKey} : 0 < k → Step (.asked k) (.retrieved (some k) k) .held
  | drop : Step (.asked 0) (.retrieved (some 0) 0) .lost
  | poll {tok : Token} : tok.view.entry = none → Step tok (.retrieved none 0) tok
  | release : Step .held .released .granted
  | wake : Step .granted .waited .answering
  | answer : Step .answering .responded .idle

/-- The protocol of one tenant. -/
def protocol : Lts Token Own where
  init tok := tok = .idle
  step := Step

/-- The request a token still owes the Arbiter. -/
def pending : Token → List ExperimentalKey
  | .asked k => [k]
  | _ => []

/-- How the calls made so far add up at a token. -/
structure Ledger (os : List Own) (tok : Token) : Prop where
  asserted : .assertFailed ∉ os
  posted : updates os = founds os ++ tok.pending
  lost : (founds os).length = positives os + (if tok = .lost then 1 else 0)
  held : positives os = os.count .released + (if tok = .held then 1 else 0)
  answered : os.count .released =
    os.count .responded + (if tok = .granted ∨ tok = .answering then 1 else 0)
  zero : tok = .lost ↔ .retrieved (some 0) 0 ∈ os

@[simp] theorem updates_concat (os : List Own) (o : Own) :
    updates (os ++ [o]) = updates os ++ o.posted.toList := Sequences.filterMap_concat ..

@[simp] theorem founds_concat (os : List Own) (o : Own) :
    founds (os ++ [o]) = founds os ++ o.found.toList := Sequences.filterMap_concat ..

@[simp] theorem positives_concat (os : List Own) (o : Own) :
    positives (os ++ [o]) = positives os + o.key.toList.countP (0 < ·) := by
  rw [positives, Sequences.filterMap_concat, List.countP_append, positives]

theorem Ledger.step {os : List Own} {tok tok' : Token} {o : Own} (h : Ledger os tok)
    (hs : Step tok o tok') : Ledger (os ++ [o]) tok' := by
  obtain ⟨h1, h2, h3, h4, h5, h6⟩ := h
  cases hs with
  | post k => constructor <;> simp_all [pending]
  | @take k hk =>
    have hk0 : 0 ≠ k := by rintro rfl; simp at hk
    constructor <;> simp_all [pending]
  | drop => constructor <;> simp_all [pending]
  | @poll tok he =>
    cases tok with
    | asked k => cases he
    | _ => constructor <;> simp_all
  | release => constructor <;> simp_all [pending]
  | wake => constructor <;> simp_all [pending]
  | answer => constructor <;> simp_all [pending]

/-- The ledger holds along every run of the protocol. -/
theorem ledger {os : List Own} {tok : Token} (h : protocol.Run os tok) : Ledger os tok := by
  refine h.trace_inv (fun tok hi => ?_) fun os tok o tok' _ hl hs => hl.step hs
  cases hi
  constructor <;> simp [updates, founds, positives, pending]

end Token

end Propreact.Backend
