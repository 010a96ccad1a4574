import Noxu.Rep.Ballot
import Mathlib.Data.Finset.Powerset

/-!
# Quorums by Expression and by Size

A quorum policy gives the two phases of an election their quorums: as majorities, as two sizes, or
as expressions whose read and write quorums are sets of nodes. The election counts votes. It takes
any set of voters that is as large as the smallest quorum, and asks every member of the group,
electable or not, while the sizes are computed from the electable ones.

## Main results

* `quorums_meet_iff`: the voter sets that count for the two phases meet, exactly when the two
  sizes sum to more than the number of members. In a group of electable nodes this holds for
  majorities and for the sizes that pass the check, and can fail for an expression.
-/

namespace Noxu

variable {ν : Type*} [DecidableEq ν]

/-! ### Policies -/

/-- The quorums of a read and a write expression. A system is built only if every read quorum
meets every write quorum. -/
structure QuorumSystem (ν : Type*) [DecidableEq ν] where
  readQuorums : List (Finset ν)
  writeQuorums : List (Finset ν)
  meet : ∀ r ∈ readQuorums, ∀ w ∈ writeQuorums, (r ∩ w).Nonempty

/-- A policy as it is configured. -/
inductive GroupPolicy (ν : Type*) [DecidableEq ν]
  | simpleMajority
  | flexible (phase1 phase2 : ℕ)
  | expression (system : QuorumSystem ν)

/-- The size of the smallest quorum, all electable nodes if there is none. -/
def smallestQuorum (quorums : List (Finset ν)) (electable : ℕ) : ℕ :=
  (quorums.map Finset.card).min?.getD electable

/-- The policy as the election reads it: by the sizes of its quorums. -/
def GroupPolicy.sizes (policy : GroupPolicy ν) (electable : ℕ) : QuorumPolicy :=
  match policy with
  | .simpleMajority => .simpleMajority
  | .flexible phase1 phase2 => .flexible phase1 phase2
  | .expression system =>
    .expression (smallestQuorum system.readQuorums electable)
      (smallestQuorum system.writeQuorums electable)

namespace RepGroup

/-- `set_quorum_policy`. -/
def setQuorumPolicy (g : RepGroup ν) (policy : GroupPolicy ν) : RepGroup ν :=
  { g with quorumPolicy := policy.sizes g.electableCount }

/-- The votes that phase 1 needs. -/
def phase1Quorum (g : RepGroup ν) : ℕ := g.quorumPolicy.phase1Quorum g.electableCount

/-- The votes that phase 2 needs. -/
def phase2Quorum (g : RepGroup ν) : ℕ := g.quorumPolicy.phase2Quorum g.electableCount

/-- Is the policy still safe for the members? -/
def rebuildQuorumSystem (g : RepGroup ν) : Bool := g.quorumPolicy.validate g.electableCount

/-! ### Counting votes -/

/-- The votes of `promises` let a round go on to the second phase. There is no round if one of
the quorums has size zero. -/
def CountsPhase1 (g : RepGroup ν) (promises : Finset ν) : Prop :=
  promises ⊆ g.members ∧ g.phase1Quorum ≠ 0 ∧ g.phase2Quorum ≠ 0 ∧ g.phase1Quorum ≤ promises.card

/-- The votes of `accepts` decide a round. -/
def CountsPhase2 (g : RepGroup ν) (accepts : Finset ν) : Prop :=
  accepts ⊆ g.members ∧ g.phase1Quorum ≠ 0 ∧ g.phase2Quorum ≠ 0 ∧ g.phase2Quorum ≤ accepts.card

/-- Every set that counts for the first phase meets every set that counts for the second. -/
def PhasesMeet (g : RepGroup ν) : Prop :=
  ∀ p q, g.CountsPhase1 p → g.CountsPhase2 q → (p ∩ q).Nonempty

/-- There is no election, or the sizes are large enough for the members. -/
def SizesMeet (g : RepGroup ν) : Prop :=
  g.phase1Quorum = 0 ∨ g.phase2Quorum = 0 ∨ g.members.card < g.phase1Quorum + g.phase2Quorum

variable {g : RepGroup ν}

theorem SizesMeet.phasesMeet (h : g.SizesMeet) : g.PhasesMeet := by
  rintro p q ⟨hp, h1, h2, hcard⟩ ⟨hq, -, -, hcard'⟩
  have hsum := (h.resolve_left h1).resolve_left h2
  obtain ⟨c, hcp, hcq⟩ := exists_common_voter hp hq (by omega)
  exact ⟨c, Finset.mem_inter.mpr ⟨hcp, hcq⟩⟩

/-- If the members are enough for both quorums, they have two that are disjoint. -/
theorem exists_disjoint_quorums (h : ¬g.SizesMeet) :
    ∃ p q, g.CountsPhase1 p ∧ g.CountsPhase2 q ∧ Disjoint p q := by
  simp only [SizesMeet, not_or, not_lt] at h
  obtain ⟨h1, h2, hsum⟩ := h
  obtain ⟨p, hp, hcard⟩ := Finset.exists_subset_card_eq (s := g.members) (n := g.phase1Quorum)
    (by omega)
  have hrest : g.phase2Quorum ≤ (g.members \ p).card := by
    rw [Finset.card_sdiff_of_subset hp]
    omega
  exact ⟨p, g.members \ p, ⟨hp, h1, h2, hcard.ge⟩, ⟨Finset.sdiff_subset, h1, h2, hrest⟩,
    Finset.disjoint_sdiff⟩

theorem phasesMeet_iff : g.PhasesMeet ↔ g.SizesMeet := by
  refine ⟨fun h => ?_, SizesMeet.phasesMeet⟩
  by_contra hsizes
  obtain ⟨p, q, hp, hq, hdisj⟩ := exists_disjoint_quorums hsizes
  exact Finset.not_disjoint_iff_nonempty_inter.mpr (h p q hp hq) hdisj

end RepGroup

/-- **The quorums of the two phases meet, exactly when their sizes do.** With only electable
members they do for every policy that passes the check, expressions apart. -/
theorem quorums_meet_iff (g : RepGroup ν) (policy : GroupPolicy ν) :
    ((g.setQuorumPolicy policy).PhasesMeet ↔ (g.setQuorumPolicy policy).SizesMeet) ∧
      ((g.setQuorumPolicy policy).rebuildQuorumSystem = true →
        g.members.card = g.electableCount → (∀ system, policy ≠ .expression system) →
        (g.setQuorumPolicy policy).PhasesMeet) := by
  refine ⟨RepGroup.phasesMeet_iff, fun hvalid hall hexpr => RepGroup.SizesMeet.phasesMeet ?_⟩
  cases policy with
  | simpleMajority =>
    by_cases hzero : g.electableCount = 0
    · left
      exact if_pos hzero
    · right
      right
      have hlt := lt_two_mul_majoritySize (Nat.pos_of_ne_zero hzero)
      rw [Nat.two_mul] at hlt
      exact hall.trans_lt hlt
  | flexible phase1 phase2 =>
    right
    right
    have : g.electableCount < phase1 + phase2 := of_decide_eq_true hvalid
    exact hall.trans_lt this
  | expression system => exact absurd rfl (hexpr system)

/-! ### A grid -/

/-- Two rows of two nodes: a read needs a row, a write one node of each row. -/
def grid : QuorumSystem ℕ where
  readQuorums := [{0, 1}, {2, 3}]
  writeQuorums := [{0, 2}, {0, 3}, {1, 2}, {1, 3}]
  meet := by decide

/-- Both rows count: a round with the promises of one row and a round with the acceptances of the
other share no voter. -/
theorem grid_rows_do_not_meet :
    let g := (electableNodes 4 .simpleMajority).setQuorumPolicy (.expression grid)
    g.rebuildQuorumSystem = true ∧ g.CountsPhase1 {0, 1} ∧ g.CountsPhase2 {2, 3} ∧
      ¬(({0, 1} : Finset ℕ) ∩ {2, 3}).Nonempty := by
  refine ⟨rfl, ⟨?_, ?_, ?_, ?_⟩, ⟨?_, ?_, ?_, ?_⟩, ?_⟩ <;> decide

end Noxu
