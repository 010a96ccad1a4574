import Mathlib.Algebra.Group.Nat.Defs
import Mathlib.Data.Finset.Card
import Mathlib.Order.Basic

/-!
# The Parts of an Election

The role of a node, the acceptor that grants and refuses proposals, and the quorum sizes. Node
names are ordered, as the acceptor compares them.

## Main results

* `transitionViaUnknown_eq`: a live node reaches the role it is sent to;
* `Acceptor.tryAccept_value`: an acceptor holds one value per term;
* `exists_common_voter`: two large sets of voters share a voter.
-/

namespace Noxu

/-! ### The role of a node -/

/-- The role of a replication node. -/
inductive NodeState
  | detached
  | unknown
  | master
  | replica
  | shutdown
  deriving DecidableEq, Repr

/-- The roles a role can change to in one hop. -/
def NodeState.validTransitions : NodeState → List NodeState
  | .detached => [.unknown, .shutdown]
  | .unknown => [.master, .replica, .shutdown]
  | .master => [.unknown, .replica, .shutdown]
  | .replica => [.unknown, .master, .shutdown]
  | .shutdown => []

/-- One hop, refused when it is not among the valid ones. -/
def applyTransition (old new : NodeState) : Option NodeState :=
  if new ∈ old.validTransitions then some new else none

/-- The compound change of role: a node that already holds the role keeps it, a node that
is shut down refuses, and the others pass through the unknown role. -/
def transitionViaUnknown (old target : NodeState) : Option NodeState :=
  if old = target then some old
  else
    match old with
    | .shutdown => none
    | .unknown => applyTransition old target
    | .detached | .master | .replica =>
      (applyTransition old .unknown).bind fun s => applyTransition s target

/-- **A node that is not shut down reaches the active role it is sent to.** -/
theorem transitionViaUnknown_eq (old : NodeState) {target : NodeState}
    (htarget : target = .master ∨ target = .replica) :
    transitionViaUnknown old target = if old = .shutdown then none else some target := by
  rcases htarget with rfl | rfl <;> cases old <;> rfl

/-! ### The type of a node -/

/-- The part a node takes in the group. -/
inductive NodeType
  | electable
  | arbiter
  | monitor
  | secondary
  deriving DecidableEq, Repr

/-- Only electable nodes become master. -/
def NodeType.canBeMaster : NodeType → Bool
  | .electable => true
  | _ => false

/-- The nodes counted for quorums: electable nodes and arbiters. -/
def NodeType.isElectable : NodeType → Bool
  | .electable | .arbiter => true
  | _ => false

variable {ν : Type*}

/-! ### The acceptor -/

/-- What an acceptor has promised and accepted. -/
structure Acceptor (ν : Type*) where
  promisedTerm : ℕ
  promisedProposer : Option ν
  acceptedTerm : ℕ
  acceptedMaster : Option ν
  deriving DecidableEq

/-- An acceptor that has promised nothing. -/
def Acceptor.new : Acceptor ν := ⟨0, none, 0, none⟩

section Acceptor

variable [LinearOrder ν]

/-- The recorded promise is above a proposal number: terms first, then names, where no name
is below every name. -/
def Acceptor.promisedAbove (a : Acceptor ν) (t : ℕ) (proposer : ν) : Bool :=
  decide (t < a.promisedTerm) ||
    (decide (a.promisedTerm = t) &&
      match a.promisedProposer with
      | none => false
      | some p => decide (proposer < p))

/-- The promise is moved to a proposal number unless it is above it. -/
def Acceptor.tryPromise (a : Acceptor ν) (t : ℕ) (proposer : ν) : Option (Acceptor ν) :=
  if a.promisedAbove t proposer then none
  else some { a with promisedTerm := t, promisedProposer := some proposer }

/-- A value is accepted under the exact number promised, unless another value has been
accepted at that term. -/
def Acceptor.tryAccept (a : Acceptor ν) (t : ℕ) (proposer master : ν) :
    Option (Acceptor ν) :=
  if a.promisedTerm = t ∧ a.promisedProposer = some proposer then
    if a.acceptedTerm = t ∧ a.acceptedMaster ≠ some master then none
    else some { a with acceptedTerm := t, acceptedMaster := some master }
  else none

/-- What a promise changes; its term does not go down. -/
theorem Acceptor.tryPromise_eq_some {a a' : Acceptor ν} {t : ℕ} {p : ν}
    (h : a.tryPromise t p = some a') :
    a.promisedTerm ≤ t ∧
      a' = { a with promisedTerm := t, promisedProposer := some p } := by
  unfold tryPromise at h
  split at h
  · cases h
  next habove =>
    refine ⟨?_, (Option.some.inj h).symm⟩
    by_contra hlt
    exact habove (by simp [promisedAbove, Nat.lt_of_not_le hlt])

/-- **An acceptor takes a value only at the term it has promised, and only the value it
has already taken there, if any.** -/
theorem Acceptor.tryAccept_value {a a' : Acceptor ν} {t : ℕ} {p m : ν}
    (h : a.tryAccept t p m = some a') :
    a.promisedTerm = t ∧ (a.acceptedTerm = t → a.acceptedMaster = some m) ∧
      a' = { a with acceptedTerm := t, acceptedMaster := some m } := by
  unfold tryAccept at h
  split at h
  next hpromise =>
    split at h
    · cases h
    next hvalue =>
      refine ⟨hpromise.1, fun ht => ?_, (Option.some.inj h).symm⟩
      by_contra hne
      exact hvalue ⟨ht, hne⟩
  · cases h

end Acceptor

/-! ### Quorums -/

/-- How the sizes of the two quorums are chosen; an expression is seen through the sizes of
its smallest quorums. -/
inductive QuorumPolicy
  | simpleMajority
  | flexible (phase1 phase2 : ℕ)
  | expression (reads writes : ℕ)
  deriving DecidableEq

/-- The size of a simple majority. -/
def majoritySize (n : ℕ) : ℕ := if n = 0 then 0 else n / 2 + 1

/-- The number of promises a round needs. -/
def QuorumPolicy.phase1Quorum (policy : QuorumPolicy) (electable : ℕ) : ℕ :=
  match policy with
  | .simpleMajority => majoritySize electable
  | .flexible phase1 _ => phase1
  | .expression reads _ => reads

/-- The number of acceptances a round needs. -/
def QuorumPolicy.phase2Quorum (policy : QuorumPolicy) (electable : ℕ) : ℕ :=
  match policy with
  | .simpleMajority => majoritySize electable
  | .flexible _ phase2 => phase2
  | .expression _ writes => writes

/-- Twice a simple majority is more than the whole. -/
theorem lt_two_mul_majoritySize {n : ℕ} (hn : 0 < n) : n < 2 * majoritySize n := by
  unfold majoritySize
  split <;> omega

/-- **Two sets of voters whose sizes sum to more than the number of voters share one.** -/
theorem exists_common_voter [DecidableEq ν] {voters q r : Finset ν} (hq : q ⊆ voters)
    (hr : r ⊆ voters) (hcard : voters.card < q.card + r.card) : ∃ c, c ∈ q ∧ c ∈ r := by
  by_contra hnone
  have hdisj : Disjoint q r :=
    Finset.disjoint_left.mpr fun c hcq hcr => hnone ⟨c, hcq, hcr⟩
  have hunion : (q ∪ r).card ≤ voters.card := Finset.card_le_card (Finset.union_subset hq hr)
  rw [Finset.card_union_of_disjoint hdisj] at hunion
  omega

end Noxu
