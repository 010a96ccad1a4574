import Mathlib.Data.List.Perm.Basic
import Mathlib.Data.Prod.Lex
import Mathlib.Data.String.Basic
import Mathlib.Order.Basic

/-!
# The Choice of a Winner

A proposer that has enough promises chooses the value of the second phase among the
suggestions they carry. A candidate is a suggestion with a priority from a node that is not
an arbiter; the best one is chosen, and of equally good ones the first. An arbiter is never
chosen, but the best of them forbids the choice of an only candidate that it is better than.

**The veto compares the whole ranking**, priority and name included, and a suggestion of
priority zero is passed over before it is asked whether it comes from an arbiter.

## Main results

* `choosePhase2Value_of_chosen`: the value as a function of the candidates and the arbiters;
* `choosePhase2Value_right_iff`: **when the choice does not depend on the order of the
  promises and is refused for lack of durable progress alone.**
-/

namespace Noxu

variable {ν : Type*}

/-! ### Suggestions -/

/-- What a node brings as a candidate. The term and the time play no part in the ranking. -/
structure Proposal (ν : Type*) where
  nodeName : ν
  dtvlsn : ℕ
  vlsn : ℕ
  priority : ℕ
  term : ℕ := 0
  timestampMs : ℕ := 0
  deriving DecidableEq

/-- A promise as the proposer records it. -/
structure PromiseRecord (ν : Type*) where
  proposal : Proposal ν
  isArbiter : Bool
  deriving DecidableEq

/-- A promise of a node that may become master. -/
def PromiseRecord.Candidate (r : PromiseRecord ν) : Prop :=
  r.isArbiter = false ∧ r.proposal.priority ≠ 0

/-- What a proposer may propose after phase 1. -/
inductive Phase2Value (ν : Type*)
  | value (p : Proposal ν)
  | noNonZeroPriority
  | arbiterVeto
  deriving DecidableEq

/-- The value, if there is one. -/
def Phase2Value.value? : Phase2Value ν → Option (Proposal ν)
  | value p => some p
  | noNonZeroPriority | arbiterVeto => none

/-- What the loop over the promises remembers. -/
structure ChoiceState (ν : Type*) where
  chosen : Option (Proposal ν)
  arbBest : Option (Proposal ν)
  nonArbCount : ℕ

/-- The suggestions a value is chosen from. -/
def candidates (rs : List (PromiseRecord ν)) : List (Proposal ν) :=
  (rs.filter fun r => r.proposal.priority ≠ 0 && !r.isArbiter).map PromiseRecord.proposal

/-- The suggestions that may forbid the choice. -/
def arbiters (rs : List (PromiseRecord ν)) : List (Proposal ν) :=
  (rs.filter fun r => r.proposal.priority ≠ 0 && r.isArbiter).map PromiseRecord.proposal

variable {rs : List (PromiseRecord ν)}

theorem mem_candidates {p : Proposal ν} :
    p ∈ candidates rs ↔ ∃ r ∈ rs, r.Candidate ∧ r.proposal = p := by
  simp only [candidates, PromiseRecord.Candidate, List.mem_map, List.mem_filter]
  constructor
  · rintro ⟨r, ⟨hr, hc⟩, rfl⟩
    exact ⟨r, hr, by simpa [and_comm] using hc, rfl⟩
  · rintro ⟨r, hr, hc, rfl⟩
    exact ⟨r, ⟨hr, by simpa [and_comm] using hc⟩, rfl⟩

theorem mem_arbiters {p : Proposal ν} :
    p ∈ arbiters rs ↔ ∃ r ∈ rs, r.isArbiter ∧ r.proposal.priority ≠ 0 ∧ r.proposal = p := by
  simp only [arbiters, List.mem_map, List.mem_filter]
  constructor
  · rintro ⟨r, ⟨hr, hc⟩, rfl⟩
    obtain ⟨hpri, harb⟩ := Bool.and_eq_true_iff.mp hc
    exact ⟨r, hr, harb, by simpa using hpri, rfl⟩
  · rintro ⟨r, hr, harb, hpri, rfl⟩
    exact ⟨r, ⟨hr, by simp [harb, hpri]⟩, rfl⟩

theorem candidates_perm {rs' : List (PromiseRecord ν)} (h : rs'.Perm rs) :
    (candidates rs').Perm (candidates rs) :=
  (h.filter _).map _

theorem arbiters_perm {rs' : List (PromiseRecord ν)} (h : rs'.Perm rs) :
    (arbiters rs').Perm (arbiters rs) :=
  (h.filter _).map _

/-! ### The choice -/

variable [LinearOrder ν]

/-- The ranking of candidates: durable progress, then progress, then priority, then name. -/
def Proposal.isBetterThan (p q : Proposal ν) : Bool :=
  (compare p.dtvlsn q.dtvlsn).then ((compare p.vlsn q.vlsn).then
    ((compare p.priority q.priority).then (compare p.nodeName q.nodeName))) == .gt

/-- The better of a remembered candidate and a new one; the first seen stays on a tie. -/
def betterOf (cur : Option (Proposal ν)) (p : Proposal ν) : Option (Proposal ν) :=
  match cur with
  | some c => if p.isBetterThan c then some p else some c
  | none => some p

/-- One promise: priority zero is passed over, an arbiter is remembered apart. -/
def ChoiceState.observe (s : ChoiceState ν) (r : PromiseRecord ν) : ChoiceState ν :=
  if r.proposal.priority = 0 then s
  else if r.isArbiter then { s with arbBest := betterOf s.arbBest r.proposal }
  else
    { s with nonArbCount := s.nonArbCount + 1, chosen := betterOf s.chosen r.proposal }

/-- The value of the second phase. -/
def choosePhase2Value (promises : List (PromiseRecord ν)) : Phase2Value ν :=
  let s := promises.foldl ChoiceState.observe ⟨none, none, 0⟩
  match s.chosen with
  | none => .noNonZeroPriority
  | some value =>
    match s.arbBest with
    | some arb =>
      if s.nonArbCount ≤ 1 ∧ arb.isBetterThan value then .arbiterVeto else .value value
    | none => .value value

/-- The key by which candidates are ranked. -/
def Proposal.rank (p : Proposal ν) : ℕ ×ₗ ℕ ×ₗ ℕ ×ₗ ν :=
  toLex (p.dtvlsn, toLex (p.vlsn, toLex (p.priority, p.nodeName)))

theorem Proposal.isBetterThan_iff {p q : Proposal ν} :
    p.isBetterThan q = true ↔ q.rank < p.rank := by
  unfold isBetterThan rank
  simp only [beq_iff_eq, Ordering.then_eq_gt, compare_gt_iff_gt, compare_eq_iff_eq,
    Prod.Lex.toLex_lt_toLex]
  tauto

/-! ### The loop -/

/-- The loop over the promises picks the best of the candidates and the best of the
arbiters. -/
theorem foldl_observe (rs : List (PromiseRecord ν)) (s : ChoiceState ν) :
    rs.foldl ChoiceState.observe s =
      ⟨(candidates rs).foldl betterOf s.chosen, (arbiters rs).foldl betterOf s.arbBest,
        s.nonArbCount + (candidates rs).length⟩ := by
  induction rs generalizing s with
  | nil => rfl
  | cons r rs ih =>
    rw [List.foldl_cons, ih]
    by_cases hpri : r.proposal.priority = 0
    · simp [ChoiceState.observe, candidates, arbiters, hpri]
    · cases harb : r.isArbiter with
      | true => simp [ChoiceState.observe, candidates, arbiters, hpri, harb]
      | false =>
        simp [ChoiceState.observe, candidates, arbiters, hpri, harb, Nat.add_assoc,
          Nat.add_comm 1]

/-- The fold ends with a member that no other one is better than. -/
theorem foldl_betterOf (cs : List (Proposal ν)) (c : Proposal ν) :
    ∃ v, cs.foldl betterOf (some c) = some v ∧ v ∈ c :: cs ∧ ∀ d ∈ c :: cs, d.rank ≤ v.rank := by
  induction cs generalizing c with
  | nil => exact ⟨c, rfl, List.mem_cons_self, by simp⟩
  | cons p cs ih =>
    rw [List.foldl_cons]
    by_cases hlt : p.isBetterThan c
    · obtain ⟨v, hv, hmem, hbest⟩ := ih p
      refine ⟨v, by rw [betterOf, if_pos hlt, hv], List.mem_cons_of_mem _ hmem, ?_⟩
      refine List.forall_mem_cons.mpr ⟨?_, hbest⟩
      exact (Proposal.isBetterThan_iff.mp hlt).le.trans (hbest p List.mem_cons_self)
    · obtain ⟨v, hv, hmem, hbest⟩ := ih c
      have hle : p.rank ≤ c.rank := not_lt.mp fun h => hlt (Proposal.isBetterThan_iff.mpr h)
      refine ⟨v, by rw [betterOf, if_neg hlt, hv], ?_, ?_⟩
      · rcases List.mem_cons.mp hmem with rfl | hmem
        · exact List.mem_cons_self
        · exact List.mem_cons_of_mem _ (List.mem_cons_of_mem _ hmem)
      · have hc := hbest c List.mem_cons_self
        refine List.forall_mem_cons.mpr ⟨hc, List.forall_mem_cons.mpr ⟨hle.trans hc, ?_⟩⟩
        exact fun d hd => hbest d (List.mem_cons_of_mem _ hd)

/-- A first member that no other one is better than stays. -/
theorem foldl_betterOf_eq_self {cs : List (Proposal ν)} {c : Proposal ν}
    (h : ∀ d ∈ cs, d.rank ≤ c.rank) : cs.foldl betterOf (some c) = some c := by
  induction cs with
  | nil => rfl
  | cons p cs ih =>
    obtain ⟨hp, hcs⟩ := List.forall_mem_cons.mp h
    have hnot : ¬ p.isBetterThan c := fun hlt => (Proposal.isBetterThan_iff.mp hlt).not_ge hp
    rw [List.foldl_cons, betterOf, if_neg hnot]
    exact ih hcs

/-- The best of the arbiters is better than a value if any of them is. -/
theorem any_isBetterThan_foldl (as : List (Proposal ν)) (v : Proposal ν) :
    (as.foldl betterOf none).any (·.isBetterThan v) = as.any (·.isBetterThan v) := by
  cases as with
  | nil => rfl
  | cons a as =>
    obtain ⟨b, hb, hmem, hbest⟩ := foldl_betterOf as a
    rw [List.foldl_cons, betterOf, hb, Option.any_some, Bool.eq_iff_iff, List.any_eq_true]
    constructor
    · exact fun h => ⟨b, hmem, h⟩
    · rintro ⟨d, hd, h⟩
      exact Proposal.isBetterThan_iff.mpr
        ((Proposal.isBetterThan_iff.mp h).trans_le (hbest d hd))

theorem choosePhase2Value_of_nil (h : candidates rs = []) :
    choosePhase2Value rs = .noNonZeroPriority := by
  unfold choosePhase2Value
  rw [foldl_observe, h]
  rfl

/-- **The value chosen**, from the best candidate and the arbiters. -/
theorem choosePhase2Value_of_chosen {v : Proposal ν}
    (h : (candidates rs).foldl betterOf none = some v) :
    choosePhase2Value rs =
      if (candidates rs).length ≤ 1 ∧ (arbiters rs).any (·.isBetterThan v) then .arbiterVeto
      else .value v := by
  unfold choosePhase2Value
  rw [foldl_observe, ← any_isBetterThan_foldl]
  dsimp only
  rw [h, Nat.zero_add]
  cases (arbiters rs).foldl betterOf none with
  | none => simp
  | some arb => simp

/-- With a candidate there is a best one. -/
theorem exists_chosen {cs : List (Proposal ν)} (h : cs ≠ []) :
    ∃ v, cs.foldl betterOf none = some v ∧ v ∈ cs ∧ ∀ d ∈ cs, d.rank ≤ v.rank := by
  obtain ⟨c, cs, rfl⟩ := List.exists_cons_of_ne_nil h
  exact foldl_betterOf cs c

/-- **The value chosen is a candidate that no other one is better than.** -/
theorem mem_candidates_of_value {v : Proposal ν} (hv : choosePhase2Value rs = .value v) :
    v ∈ candidates rs ∧ ∀ c ∈ candidates rs, c.rank ≤ v.rank := by
  by_cases hnil : candidates rs = []
  · rw [choosePhase2Value_of_nil hnil] at hv
    cases hv
  · obtain ⟨w, hw, hmem, hbest⟩ := exists_chosen hnil
    rw [choosePhase2Value_of_chosen hw] at hv
    split at hv
    · cases hv
    · obtain rfl := Phase2Value.value.inj hv
      exact ⟨hmem, hbest⟩

/-! ### The order of the promises -/

section

variable {rs rs' : List (PromiseRecord ν)}

/-- What a node has of the log, durable and at all. -/
def Proposal.ranking (p : Proposal ν) : ℕ ×ₗ ℕ := toLex (p.dtvlsn, p.vlsn)

/-- The best candidate is one suggestion, not several that differ in term or time. -/
def TopsAgree (rs : List (PromiseRecord ν)) : Prop :=
  ∀ c ∈ candidates rs, ∀ d ∈ candidates rs, c.rank = d.rank →
    (∀ e ∈ candidates rs, e.rank ≤ c.rank) → c = d

/-- An only candidate finds a better arbiter with a priority exactly if some arbiter has more
of the log. -/
def VetoByRanking (rs : List (PromiseRecord ν)) : Prop :=
  ∀ c, candidates rs = [c] →
    ((∃ a ∈ rs, a.isArbiter ∧ a.proposal.priority ≠ 0 ∧ c.rank < a.proposal.rank) ↔
      ∃ a ∈ rs, a.isArbiter ∧ c.ranking < a.proposal.ranking)

theorem any_arbiters_iff {v : Proposal ν} :
    (arbiters rs).any (·.isBetterThan v) ↔
      ∃ a ∈ rs, a.isArbiter ∧ a.proposal.priority ≠ 0 ∧ v.rank < a.proposal.rank := by
  rw [List.any_eq_true]
  constructor
  · rintro ⟨p, hp, hlt⟩
    obtain ⟨a, ha, harb, hpri, rfl⟩ := mem_arbiters.mp hp
    exact ⟨a, ha, harb, hpri, Proposal.isBetterThan_iff.mp hlt⟩
  · rintro ⟨a, ha, harb, hpri, hlt⟩
    exact ⟨a.proposal, mem_arbiters.mpr ⟨a, ha, harb, hpri, rfl⟩,
      Proposal.isBetterThan_iff.mpr hlt⟩

/-- If the best candidate is one suggestion, the order of the promises plays no part. -/
theorem choosePhase2Value_perm (htops : TopsAgree rs) (h : rs'.Perm rs) :
    choosePhase2Value rs' = choosePhase2Value rs := by
  have hcs := candidates_perm h
  by_cases hnil : candidates rs = []
  · have hnil' : candidates rs' = [] := (hnil ▸ hcs).eq_nil
    rw [choosePhase2Value_of_nil hnil, choosePhase2Value_of_nil hnil']
  · have hnil' : candidates rs' ≠ [] := fun h' => hnil (h' ▸ hcs).nil_eq.symm
    obtain ⟨v, hv, hmem, hbest⟩ := exists_chosen hnil
    obtain ⟨v', hv', hmem', hbest'⟩ := exists_chosen hnil'
    have hle : v.rank ≤ v'.rank := hbest' v (hcs.mem_iff.mpr hmem)
    have hge : v'.rank ≤ v.rank := hbest v' (hcs.mem_iff.mp hmem')
    obtain rfl := htops v hmem v' (hcs.mem_iff.mp hmem') (le_antisymm hle hge) hbest
    rw [choosePhase2Value_of_chosen hv, choosePhase2Value_of_chosen hv', hcs.length_eq,
      (arbiters_perm h).any_eq]

/-- A best candidate that is not the only one is chosen if its promise comes first. -/
theorem exists_perm_value {c d : Proposal ν} (hc : c ∈ candidates rs) (hd : d ∈ candidates rs)
    (hne : c ≠ d) (hbest : ∀ e ∈ candidates rs, e.rank ≤ c.rank) :
    ∃ rs', rs'.Perm rs ∧ choosePhase2Value rs' = .value c := by
  obtain ⟨r, hr, ⟨harb, hpri⟩, rfl⟩ := mem_candidates.mp hc
  obtain ⟨front, back, rfl⟩ := List.append_of_mem hr
  have hperm : (r :: (front ++ back)).Perm (front ++ r :: back) := List.perm_middle.symm
  have hcs := candidates_perm hperm
  have hfirst : candidates (r :: (front ++ back)) = r.proposal :: candidates (front ++ back) := by
    simp [candidates, harb, hpri]
  refine ⟨_, hperm, ?_⟩
  have hchosen : (candidates (r :: (front ++ back))).foldl betterOf none = some r.proposal := by
    rw [hfirst]
    refine foldl_betterOf_eq_self fun e he => hbest e (hcs.mem_iff.mp ?_)
    rw [hfirst]
    exact List.mem_cons_of_mem _ he
  -- the other candidate keeps the arbiters out
  have hother : d ∈ candidates (front ++ back) := by
    have hd' := hcs.mem_iff.mpr hd
    rw [hfirst] at hd'
    exact (List.mem_cons.mp hd').resolve_left (Ne.symm hne)
  have hlen := List.length_pos_of_mem hother
  rw [choosePhase2Value_of_chosen hchosen, if_neg]
  rintro ⟨hle, -⟩
  rw [hfirst, List.length_cons] at hle
  omega

/-- When no value is chosen. -/
theorem forall_ne_value_iff :
    (∀ v, choosePhase2Value rs ≠ .value v) ↔
      candidates rs = [] ∨ ∃ c, candidates rs = [c] ∧
        ∃ a ∈ rs, a.isArbiter ∧ a.proposal.priority ≠ 0 ∧ c.rank < a.proposal.rank := by
  by_cases hnil : candidates rs = []
  · simp [choosePhase2Value_of_nil hnil, hnil]
  · obtain ⟨v, hv, hmem, -⟩ := exists_chosen hnil
    rw [choosePhase2Value_of_chosen hv, or_iff_right hnil]
    constructor
    · intro hrefused
      split at hrefused
      · next hveto =>
        obtain ⟨c, hc⟩ := List.length_eq_one_iff.mp
          (Nat.le_antisymm hveto.1 (List.length_pos_of_mem hmem))
        rw [hc] at hmem
        obtain rfl := List.mem_singleton.mp hmem
        exact ⟨v, hc, any_arbiters_iff.mp hveto.2⟩
      · exact absurd rfl (hrefused v)
    · rintro ⟨c, hc, hveto⟩
      rw [hc] at hmem
      obtain rfl := List.mem_singleton.mp hmem
      rw [if_pos ⟨by rw [hc, List.length_singleton], any_arbiters_iff.mpr hveto⟩]
      simp

/-- **When the choice is right**: it does not depend on the order of the promises, it is the
best candidate, and it is refused exactly if there is no candidate, or only one and an arbiter
with more of the log. -/
theorem choosePhase2Value_right_iff (rs : List (PromiseRecord ν)) :
    ((∀ rs', rs'.Perm rs → choosePhase2Value rs' = choosePhase2Value rs) ∧
      (∀ v, choosePhase2Value rs = .value v →
        v ∈ candidates rs ∧ ∀ c ∈ candidates rs, c.rank ≤ v.rank) ∧
      ((∀ v, choosePhase2Value rs ≠ .value v) ↔
        candidates rs = [] ∨ ∃ c, candidates rs = [c] ∧
          ∃ a ∈ rs, a.isArbiter ∧ c.ranking < a.proposal.ranking)) ↔
    TopsAgree rs ∧ VetoByRanking rs := by
  rw [forall_ne_value_iff]
  constructor
  · rintro ⟨hperm, -, hrefused⟩
    constructor
    · intro c hc d hd hrank hbest
      by_contra hne
      obtain ⟨rs₁, hp₁, hc'⟩ := exists_perm_value hc hd hne hbest
      obtain ⟨rs₂, hp₂, hd'⟩ := exists_perm_value hd hc (Ne.symm hne) (hrank ▸ hbest)
      rw [hperm rs₁ hp₁] at hc'
      rw [hperm rs₂ hp₂, hc'] at hd'
      exact hne (Phase2Value.value.inj hd')
    · intro c hc
      simpa [hc] using hrefused
  · rintro ⟨htops, hveto⟩
    refine ⟨fun rs' h => choosePhase2Value_perm htops h, fun v => mem_candidates_of_value,
      or_congr_right (exists_congr fun c => and_congr_right fun hc => hveto c hc)⟩

end

/-- An only candidate, and an arbiter that has as much of the log. -/
def evenPromises : List (PromiseRecord String) :=
  [⟨⟨"node1", 5, 9, 1, 3, 0⟩, false⟩, ⟨⟨"node2", 5, 9, 1, 3, 0⟩, true⟩]

/-- **An arbiter that has no more of the log forbids the only candidate** by its name. -/
theorem arbiter_vetoes_by_name :
    choosePhase2Value evenPromises = .arbiterVeto ∧
      ∀ c ∈ candidates evenPromises, ∀ a ∈ evenPromises, ¬ c.ranking < a.proposal.ranking := by
  decide

end Noxu
