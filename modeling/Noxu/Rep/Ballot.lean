import Mathlib.Data.Finset.Image
import Noxu.Library.Run
import Noxu.Rep.Choice
import Noxu.Rep.Election

/-!
# One Master per Term

Election rounds with arbitrary terms. A round has a channel of its own to every acceptor; an
acceptor writes its state to disk before it grants, and a crash brings back what is on disk.
The value of the second phase is the best candidate among the promises: a proposer does
**not** adopt a value that an acceptor has already accepted. So within one term only the
acceptors stand between two values, each of them keeping to the first one it accepted.

What has been granted is recorded as votes; the votes have no counterpart in the source.

## Main results

* `BallotInv.step`: every vote agrees with its acceptor and with a round;
* `one_master_per_term`: **if two quorums of the second phase share an acceptor, or no term
  is used by two rounds, then no term has two masters.**
-/

open Noxu.Library

namespace Noxu

variable {ν : Type*}

/-! ### Acceptors on disk -/

/-- How a flush of the acceptor's file ends. One that fails may have renamed the file. -/
inductive FlushResult
  | done
  | failed (renamed : Bool)
  deriving DecidableEq

/-- An acceptor and what is on its disk. -/
structure PersistentAcceptor (ν : Type*) where
  memory : Acceptor ν
  disk : Acceptor ν

namespace PersistentAcceptor

/-- The new state is granted only once it is on disk; otherwise memory is rolled back. -/
def flush (a : PersistentAcceptor ν) (new : Acceptor ν) : FlushResult → Bool × PersistentAcceptor ν
  | .done => (true, ⟨new, new⟩)
  | .failed renamed => (false, { a with disk := if renamed then new else a.disk })

/-- The process restarts. -/
def reload (a : PersistentAcceptor ν) : PersistentAcceptor ν := ⟨a.disk, a.disk⟩

variable [LinearOrder ν]

/-- `try_promise_proposal`. -/
def tryPromiseProposal (a : PersistentAcceptor ν) (t : ℕ) (proposer : ν) (result : FlushResult) :
    Bool × PersistentAcceptor ν :=
  match a.memory.tryPromise t proposer with
  | none => (false, a)
  | some new => a.flush new result

/-- `try_accept_proposal`. -/
def tryAcceptProposal (a : PersistentAcceptor ν) (t : ℕ) (proposer master : ν)
    (result : FlushResult) : Bool × PersistentAcceptor ν :=
  match a.memory.tryAccept t proposer master with
  | none => (false, a)
  | some new => a.flush new result

end PersistentAcceptor

/-! ### Rounds -/

/-- Is the policy safe for the number of electable nodes? -/
def QuorumPolicy.validate (policy : QuorumPolicy) (electable : ℕ) : Bool :=
  match policy with
  | .simpleMajority => true
  | .flexible phase1 phase2 => decide (electable < phase1 + phase2)
  | .expression _ _ => true

/-- The group: its members with their types and the quorum policy. -/
structure RepGroup (ν : Type*) where
  members : Finset ν
  nodeType : ν → NodeType
  quorumPolicy : QuorumPolicy

/-- The number of nodes that count for quorums. -/
def RepGroup.electableCount (g : RepGroup ν) : ℕ :=
  (g.members.filter fun n => (g.nodeType n).isElectable).card

/-- The record a promise leaves at the proposer; priority zero leaves one only for an
arbiter. The round reads no more than the name of the value it chooses, so the term and the
time of a suggestion are left at zero. -/
def promiseRecord (g : RepGroup ν) (c : ν) (dtvlsn vlsn priority : ℕ) :
    List (PromiseRecord ν) :=
  let proposal : Proposal ν := { nodeName := c, dtvlsn, vlsn, priority }
  if (g.nodeType c).canBeMaster ∧ priority ≠ 0 then [⟨proposal, false⟩]
  else if (g.nodeType c).isElectable ∧ (g.nodeType c).canBeMaster = false then
    [⟨proposal, true⟩]
  else []

/-- An election round at its proposer. -/
structure Round (ν : Type*) where
  term : ℕ
  selfVote : Bool
  promises : Finset ν
  records : List (PromiseRecord ν)
  winner : Option ν
  accepts : Finset ν

/-- A round with its proposer, and the master it has declared. -/
structure BallotRound (ν : Type*) extends Round ν where
  proposer : ν
  isOpen : Bool
  outcome : Option ν

/-- All acceptors and the rounds of all proposers. -/
structure Ballot (ν : Type*) where
  acceptors : ν → PersistentAcceptor ν
  rounds : List (BallotRound ν)
  /-- who has accepted which master at which term -/
  votes : Finset (ν × ℕ × ν)

/-- What happens in an election. The messages of a round reach an acceptor any number of
times, late or never, and so do its answers. -/
inductive BallotEvent (ν : Type*)
  | beginRound (p : ν) (t dtvlsn vlsn priority : ℕ) (result : FlushResult)
  | promise (i : ℕ) (c : ν) (dtvlsn vlsn priority : ℕ) (result : FlushResult) (reply : Bool)
  | choose (i : ℕ)
  | accept (i : ℕ) (c : ν) (result : FlushResult) (reply : Bool)
  | finish (i : ℕ) (result : FlushResult)
  | crash (c : ν)

namespace Ballot

/-- Before the first round. -/
def new : Ballot ν where
  acceptors _ := ⟨.new, .new⟩
  rounds := []
  votes := ∅

variable [LinearOrder ν] (g : RepGroup ν) (b : Ballot ν)

/-- Change one acceptor. -/
def setAcceptor (c : ν) (a : PersistentAcceptor ν) : Ballot ν :=
  { b with acceptors := Function.update b.acceptors c a }

/-- Change one round. -/
def setRound (i : ℕ) (r : BallotRound ν) : Ballot ν :=
  { b with rounds := b.rounds.set i r }

/-- The proposer asks its own acceptor first. -/
def beginRound (p : ν) (t dtvlsn vlsn priority : ℕ) (result : FlushResult) :
    Option (Ballot ν) :=
  if p ∈ g.members ∧ (g.nodeType p).canBeMaster ∧ priority ≠ 0 ∧
      g.quorumPolicy.phase1Quorum g.electableCount ≠ 0 ∧
      g.quorumPolicy.phase2Quorum g.electableCount ≠ 0 then
    let (selfVote, a) := (b.acceptors p).tryPromiseProposal t p result
    let round : BallotRound ν :=
      { term := t
        selfVote := selfVote
        promises := ∅
        records := [⟨{ nodeName := p, dtvlsn, vlsn, priority }, false⟩]
        winner := none
        accepts := ∅
        proposer := p
        isOpen := true
        outcome := none }
    some { b.setAcceptor p a with rounds := b.rounds ++ [round] }
  else none

/-- An acceptor handles the proposal of a round. -/
def promise (i : ℕ) (r : BallotRound ν) (c : ν) (dtvlsn vlsn priority : ℕ)
    (result : FlushResult) (reply : Bool) : Option (Ballot ν) :=
  if c ∈ g.members ∧ c ≠ r.proposer then
    let (granted, a) := (b.acceptors c).tryPromiseProposal r.term r.proposer result
    let b := b.setAcceptor c a
    if granted ∧ reply ∧ r.isOpen ∧ r.winner = none ∧ c ∉ r.promises then
      some (b.setRound i { r with
        promises := insert c r.promises
        records := r.records ++ promiseRecord g c dtvlsn vlsn priority })
    else some b
  else none

/-- The proposer closes the first phase. -/
def choose (i : ℕ) (r : BallotRound ν) : Option (Ballot ν) :=
  if r.isOpen ∧ r.winner = none then
    if g.quorumPolicy.phase1Quorum g.electableCount ≤ r.promises.card + r.selfVote.toNat then
      match (choosePhase2Value r.records).value? with
      | some v => some (b.setRound i { r with winner := some v.nodeName })
      | none => some (b.setRound i { r with isOpen := false })
    else some (b.setRound i { r with isOpen := false })
  else none

/-- An acceptor handles the result of a round. -/
def accept (i : ℕ) (r : BallotRound ν) (c : ν) (result : FlushResult) (reply : Bool) :
    Option (Ballot ν) :=
  match r.winner with
  | none => none
  | some w =>
    if c ∈ g.members ∧ c ≠ r.proposer then
      let (granted, a) := (b.acceptors c).tryAcceptProposal r.term r.proposer w result
      let b := b.setAcceptor c a
      if granted then
        let b := { b with votes := insert (c, r.term, w) b.votes }
        if reply ∧ r.isOpen ∧ c ∈ r.promises then
          some (b.setRound i { r with accepts := insert c r.accepts })
        else some b
      else some b
    else none

/-- The proposer asks its own acceptor, counts and declares a master. -/
def finish (i : ℕ) (r : BallotRound ν) (result : FlushResult) : Option (Ballot ν) :=
  match r.winner with
  | none => none
  | some w =>
    if r.isOpen then
      let (granted, a) :=
        if r.selfVote then
          (b.acceptors r.proposer).tryAcceptProposal r.term r.proposer w result
        else (false, b.acceptors r.proposer)
      let b := b.setAcceptor r.proposer a
      let accepts := if granted then insert r.proposer r.accepts else r.accepts
      let b :=
        if granted then { b with votes := insert (r.proposer, r.term, w) b.votes } else b
      some (b.setRound i { r with
        accepts := accepts
        isOpen := false
        outcome :=
          if g.quorumPolicy.phase2Quorum g.electableCount ≤ accepts.card then some w
          else none })
    else none

/-- An acceptor restarts from its disk. -/
def crash (c : ν) : Ballot ν :=
  { b.setAcceptor c (b.acceptors c).reload with
    rounds := b.rounds.map fun r => if r.proposer = c then { r with isOpen := false } else r }

/-- **One event.** -/
def step : BallotEvent ν → Option (Ballot ν)
  | .beginRound p t dtvlsn vlsn priority result =>
    b.beginRound g p t dtvlsn vlsn priority result
  | .promise i c dtvlsn vlsn priority result reply =>
    b.rounds[i]?.bind fun r => b.promise g i r c dtvlsn vlsn priority result reply
  | .choose i => b.rounds[i]?.bind fun r => b.choose g i r
  | .accept i c result reply => b.rounds[i]?.bind fun r => b.accept g i r c result reply
  | .finish i result => b.rounds[i]?.bind fun r => b.finish g i r result
  | .crash c => some (b.crash c)

end Ballot

/-- The members that have accepted the master at the term. -/
def Ballot.voters [DecidableEq ν] (g : RepGroup ν) (b : Ballot ν) (t : ℕ) (w : ν) : Finset ν :=
  g.members.filter fun c => (c, t, w) ∈ b.votes

/-- They are a quorum of the second phase. -/
def Ballot.Accepted [DecidableEq ν] (g : RepGroup ν) (b : Ballot ν) (t : ℕ) (w : ν) : Prop :=
  (b.voters g t w).Nonempty ∧
    g.quorumPolicy.phase2Quorum g.electableCount ≤ (b.voters g t w).card

instance [DecidableEq ν] (g : RepGroup ν) (b : Ballot ν) (t : ℕ) (w : ν) :
    Decidable (b.Accepted g t w) :=
  inferInstanceAs (Decidable (_ ∧ _))

/-! ### The condition -/

/-- Two quorums of the second phase share an acceptor. -/
def RepGroup.QuorumsMeet (g : RepGroup ν) : Prop :=
  g.members.card < 2 * g.quorumPolicy.phase2Quorum g.electableCount

instance (g : RepGroup ν) : Decidable g.QuorumsMeet :=
  inferInstanceAs (Decidable (_ < _))

/-- **A round begins at a term of its own**, unless the quorums meet. -/
def OwnTerm (g : RepGroup ν) (b : Ballot ν) : BallotEvent ν → Prop
  | .beginRound _ t _ _ _ _ => g.QuorumsMeet ∨ ∀ r ∈ b.rounds, r.term ≠ t
  | _ => True

instance (g : RepGroup ν) (b : Ballot ν) (e : BallotEvent ν) : Decidable (OwnTerm g b e) := by
  cases e <;> dsimp only [OwnTerm] <;> infer_instance

/-! ### The invariant -/

/-- An acceptor state agrees with the votes recorded for the acceptor. -/
def VotesOk (votes : Finset (ν × ℕ × ν)) (c : ν) (a : Acceptor ν) : Prop :=
  ∀ t w, (c, t, w) ∈ votes →
    t ≤ a.promisedTerm ∧
      (a.promisedTerm = t → a.acceptedTerm = t ∧ a.acceptedMaster = some w)

/-- So does what it would reload. -/
def PersistentOk (votes : Finset (ν × ℕ × ν)) (c : ν) (a : PersistentAcceptor ν) : Prop :=
  VotesOk votes c a.memory ∧ VotesOk votes c a.disk

/-- What every reachable state satisfies. -/
structure BallotInv (g : RepGroup ν) (b : Ballot ν) : Prop where
  acceptors : ∀ c, PersistentOk b.votes c (b.acceptors c)
  one : ∀ c t w w', (c, t, w) ∈ b.votes → (c, t, w') ∈ b.votes → w = w'
  backed : ∀ c t w, (c, t, w) ∈ b.votes → ∃ r ∈ b.rounds, r.term = t ∧ r.winner = some w
  apart : g.QuorumsMeet ∨ (b.rounds.map fun r => r.term).Nodup

theorem BallotInv.new (g : RepGroup ν) : BallotInv g Ballot.new where
  acceptors _ := ⟨nofun, nofun⟩
  one := nofun
  backed := nofun
  apart := .inr List.nodup_nil

section Acceptor

variable [LinearOrder ν] {votes : Finset (ν × ℕ × ν)} {c p m : ν} {t : ℕ}

section

variable {a a' : Acceptor ν}

theorem VotesOk.promise (h : VotesOk votes c a) (hp : a.tryPromise t p = some a') :
    VotesOk votes c a' := by
  obtain ⟨hle, rfl⟩ := Acceptor.tryPromise_eq_some hp
  intro u w hv
  obtain ⟨hu, hacc⟩ := h u w hv
  refine ⟨hu.trans hle, fun htu => hacc (le_antisymm ?_ hu)⟩
  exact hle.trans htu.le

theorem VotesOk.accept (h : VotesOk votes c a) (ha : a.tryAccept t p m = some a') :
    VotesOk votes c a' := by
  obtain ⟨hprom, hval, rfl⟩ := Acceptor.tryAccept_value ha
  intro u w hv
  obtain ⟨hu, hacc⟩ := h u w hv
  refine ⟨hu, fun htu => ?_⟩
  obtain ⟨hterm, hmaster⟩ := hacc htu
  obtain rfl : u = t := htu.symm.trans hprom
  exact ⟨rfl, (hval hterm).symm.trans hmaster⟩

/-- An acceptor that accepts a master has accepted no other one at the term. -/
theorem VotesOk.eq_of_accept (h : VotesOk votes c a) (ha : a.tryAccept t p m = some a')
    {w : ν} (hv : (c, t, w) ∈ votes) : w = m := by
  obtain ⟨hprom, hval, -⟩ := Acceptor.tryAccept_value ha
  obtain ⟨-, hacc⟩ := h t w hv
  obtain ⟨hterm, hmaster⟩ := hacc hprom
  exact Option.some.inj (hmaster.symm.trans (hval hterm))

/-- The vote of an acceptor is in the state it leaves. -/
theorem VotesOk.vote (h : VotesOk votes c a) (ha : a.tryAccept t p m = some a') :
    VotesOk (insert (c, t, m) votes) c a' := by
  intro u w hv
  obtain hv | hv := Finset.mem_insert.mp hv
  · obtain ⟨hprom, -, rfl⟩ := Acceptor.tryAccept_value ha
    cases hv
    exact ⟨hprom.ge, fun _ => ⟨rfl, rfl⟩⟩
  · exact h.accept ha u w hv

/-- It says nothing about the other acceptors. -/
theorem VotesOk.vote_ne (h : VotesOk votes c a) {d : ν} (hd : c ≠ d) :
    VotesOk (insert (d, t, m) votes) c a := by
  intro u w hv
  obtain hv | hv := Finset.mem_insert.mp hv
  · exact absurd (congrArg Prod.fst hv) hd
  · exact h u w hv

end

variable {a : PersistentAcceptor ν} {result : FlushResult}

omit [LinearOrder ν] in
theorem PersistentOk.flush (h : PersistentOk votes c a) {new : Acceptor ν}
    (hnew : VotesOk votes c new) (result : FlushResult) :
    PersistentOk votes c (a.flush new result).2 := by
  cases result with
  | done => exact ⟨hnew, hnew⟩
  | failed renamed =>
    refine ⟨h.1, ?_⟩
    cases renamed with
    | true => exact hnew
    | false => exact h.2

theorem PersistentOk.tryPromiseProposal (h : PersistentOk votes c a) (t : ℕ) (p : ν)
    (result : FlushResult) :
    PersistentOk votes c (a.tryPromiseProposal t p result).2 := by
  unfold PersistentAcceptor.tryPromiseProposal
  cases hp : a.memory.tryPromise t p with
  | none => exact h
  | some new => exact h.flush (h.1.promise hp) result

theorem PersistentOk.tryAcceptProposal (h : PersistentOk votes c a) :
    PersistentOk votes c (a.tryAcceptProposal t p m result).2 := by
  unfold PersistentAcceptor.tryAcceptProposal
  cases hp : a.memory.tryAccept t p m with
  | none => exact h
  | some new => exact h.flush (h.1.accept hp) result

/-- What is granted is on disk. -/
theorem PersistentAcceptor.tryAcceptProposal_granted
    (h : (a.tryAcceptProposal t p m result).1 = true) :
    ∃ new, a.memory.tryAccept t p m = some new ∧
      (a.tryAcceptProposal t p m result).2 = ⟨new, new⟩ := by
  unfold tryAcceptProposal at h ⊢
  cases hp : a.memory.tryAccept t p m with
  | none => simp [hp] at h
  | some new =>
    rw [hp] at h
    cases result with
    | done => exact ⟨new, rfl, rfl⟩
    | failed renamed => cases h

end Acceptor

/-! ### What the updates keep -/

section Updates

variable [LinearOrder ν] {g : RepGroup ν} {b : Ballot ν}

theorem BallotInv.setAcceptor (h : BallotInv g b) {c : ν} {a : PersistentAcceptor ν}
    (ha : PersistentOk b.votes c a) : BallotInv g (b.setAcceptor c a) where
  acceptors d := by
    obtain rfl | hd := eq_or_ne d c
    · simpa [Ballot.setAcceptor] using ha
    · simpa [Ballot.setAcceptor, hd] using h.acceptors d
  one := h.one
  backed := h.backed
  apart := h.apart

omit [LinearOrder ν] in
/-- A round keeps its term and a winner it has. -/
theorem BallotInv.setRound (h : BallotInv g b) {i : ℕ} {r r' : BallotRound ν}
    (hr : b.rounds[i]? = some r) (hterm : r'.term = r.term)
    (hwinner : ∀ w, r.winner = some w → r'.winner = some w) : BallotInv g (b.setRound i r') where
  acceptors := h.acceptors
  one := h.one
  backed c t w hv := by
    obtain ⟨q, hq, hqt, hqw⟩ := h.backed c t w hv
    obtain ⟨j, hj⟩ := List.mem_iff_getElem?.mp hq
    obtain rfl | hij := eq_or_ne i j
    · obtain rfl := Option.some.inj (hr.symm.trans hj)
      exact ⟨r', List.mem_iff_getElem?.mpr ⟨i, by
        simp [Ballot.setRound, (List.getElem?_eq_some_iff.mp hr).1]⟩, hterm.trans hqt,
        hwinner w hqw⟩
    · exact ⟨q, List.mem_iff_getElem?.mpr ⟨j, by simp [Ballot.setRound, hij, hj]⟩, hqt, hqw⟩
  apart := by
    refine h.apart.imp_right fun hnodup => ?_
    have hmap : (b.rounds.set i r').map (fun r => r.term) = b.rounds.map fun r => r.term := by
      obtain ⟨hi, rfl⟩ := List.getElem?_eq_some_iff.mp hr
      have hlen : i < (b.rounds.map fun r => r.term).length := by simpa
      have hset := List.set_getElem_self hlen
      rwa [List.getElem_map, ← hterm, ← List.map_set] at hset
    exact hmap.symm ▸ hnodup

/-- A round's winner is accepted and the acceptance is on disk. -/
theorem BallotInv.vote (h : BallotInv g b) {r : BallotRound ν} (hr : r ∈ b.rounds) {c w : ν}
    (hw : r.winner = some w) {new : Acceptor ν}
    (ha : (b.acceptors c).memory.tryAccept r.term r.proposer w = some new) :
    BallotInv g { b.setAcceptor c ⟨new, new⟩ with votes := insert (c, r.term, w) b.votes } where
  acceptors d := by
    obtain rfl | hd := eq_or_ne d c
    · have hnew := (h.acceptors d).1.vote ha
      simpa [Ballot.setAcceptor] using ⟨hnew, hnew⟩
    · have hd' := h.acceptors d
      simpa [Ballot.setAcceptor, hd] using ⟨hd'.1.vote_ne hd, hd'.2.vote_ne hd⟩
  one d t v v' hv hv' := by
    have hnew : ∀ u, (c, r.term, u) ∈ b.votes → u = w := fun u hu =>
      (h.acceptors c).1.eq_of_accept ha hu
    obtain hv | hv := Finset.mem_insert.mp hv <;> obtain hv' | hv' := Finset.mem_insert.mp hv'
    · cases hv
      cases hv'
      rfl
    · cases hv
      exact (hnew v' hv').symm
    · cases hv'
      exact hnew v hv
    · exact h.one d t v v' hv hv'
  backed d t v hv := by
    obtain hv | hv := Finset.mem_insert.mp hv
    · cases hv
      exact ⟨r, hr, rfl, hw⟩
    · exact h.backed d t v hv
  apart := h.apart

end Updates

/-! ### The steps -/

section Steps

variable [LinearOrder ν] {g : RepGroup ν} {b b' : Ballot ν} {i : ℕ} {r : BallotRound ν}

theorem BallotInv.beginRound (h : BallotInv g b) {p : ν} {t dtvlsn vlsn priority : ℕ}
    {result : FlushResult} (hok : g.QuorumsMeet ∨ ∀ r ∈ b.rounds, r.term ≠ t)
    (hb : b.beginRound g p t dtvlsn vlsn priority result = some b') : BallotInv g b' := by
  obtain ⟨-, hb⟩ := Option.ite_none_right_eq_some.mp hb
  obtain rfl := Option.some.inj hb
  have hset := h.setAcceptor ((h.acceptors p).tryPromiseProposal t p result)
  refine ⟨hset.acceptors, h.one, fun c u w hv => ?_, ?_⟩
  · obtain ⟨r, hr, hrw⟩ := h.backed c u w hv
    exact ⟨r, List.mem_append_left _ hr, hrw⟩
  · obtain hmeet | hfresh := hok
    · exact .inl hmeet
    · refine h.apart.imp_right fun hnodup => ?_
      rw [List.map_append, List.nodup_append]
      refine ⟨hnodup, List.nodup_singleton _, ?_⟩
      rintro x hx y hy rfl
      obtain ⟨r, hr, rfl⟩ := List.mem_map.mp hx
      exact hfresh r hr (List.mem_singleton.mp hy)

theorem BallotInv.promise (h : BallotInv g b) (hr : b.rounds[i]? = some r) {c : ν}
    {dtvlsn vlsn priority : ℕ} {result : FlushResult} {reply : Bool}
    (hb : b.promise g i r c dtvlsn vlsn priority result reply = some b') : BallotInv g b' := by
  obtain ⟨-, hb⟩ := Option.ite_none_right_eq_some.mp hb
  have hset := h.setAcceptor ((h.acceptors c).tryPromiseProposal r.term r.proposer result)
  dsimp only at hb
  split_ifs at hb
  · obtain rfl := Option.some.inj hb
    exact hset.setRound hr rfl fun _ hw => hw
  · obtain rfl := Option.some.inj hb
    exact hset

theorem BallotInv.choose (h : BallotInv g b) (hr : b.rounds[i]? = some r)
    (hb : b.choose g i r = some b') : BallotInv g b' := by
  obtain ⟨⟨-, hnone⟩, hb⟩ := Option.ite_none_right_eq_some.mp hb
  have hkeep : ∀ r' : BallotRound ν, r'.term = r.term → BallotInv g (b.setRound i r') :=
    fun r' hterm => h.setRound hr hterm fun w hw => by cases hnone.symm.trans hw
  split_ifs at hb
  · split at hb
    · obtain rfl := Option.some.inj hb
      exact hkeep _ rfl
    · obtain rfl := Option.some.inj hb
      exact hkeep _ rfl
  · obtain rfl := Option.some.inj hb
    exact hkeep _ rfl

/-- A round's winner is put to an acceptor, which may grant it. -/
theorem BallotInv.tryAccept (h : BallotInv g b) (hr : r ∈ b.rounds) {c w : ν}
    (hw : r.winner = some w) (result : FlushResult) :
    let answer := (b.acceptors c).tryAcceptProposal r.term r.proposer w result
    let b := b.setAcceptor c answer.2
    BallotInv g (if answer.1 then { b with votes := insert (c, r.term, w) b.votes } else b) := by
  dsimp only
  split
  next hgranted =>
    obtain ⟨new, ha, hdisk⟩ := PersistentAcceptor.tryAcceptProposal_granted hgranted
    rw [hdisk]
    exact h.vote hr hw ha
  next => exact h.setAcceptor (h.acceptors c).tryAcceptProposal

theorem BallotInv.accept (h : BallotInv g b) (hr : b.rounds[i]? = some r) {c : ν}
    {result : FlushResult} {reply : Bool} (hb : b.accept g i r c result reply = some b') :
    BallotInv g b' := by
  unfold Ballot.accept at hb
  split at hb
  · cases hb
  next w hw =>
    obtain ⟨-, hb⟩ := Option.ite_none_right_eq_some.mp hb
    have hset := h.tryAccept (c := c) (List.mem_of_getElem? hr) hw result
    dsimp only at hb hset
    split at hb
    next hgranted =>
      rw [if_pos hgranted] at hset
      split at hb
      · obtain rfl := Option.some.inj hb
        exact hset.setRound hr rfl fun _ hw => hw
      · obtain rfl := Option.some.inj hb
        exact hset
    next hgranted =>
      rw [if_neg hgranted] at hset
      obtain rfl := Option.some.inj hb
      exact hset

theorem BallotInv.finish (h : BallotInv g b) (hr : b.rounds[i]? = some r)
    {result : FlushResult} (hb : b.finish g i r result = some b') : BallotInv g b' := by
  unfold Ballot.finish at hb
  split at hb
  · cases hb
  next w hw =>
    obtain ⟨-, hb⟩ := Option.ite_none_right_eq_some.mp hb
    obtain rfl := Option.some.inj hb
    refine setRound ?_ (r := r) ?_ rfl fun _ hw => hw
    · cases hself : r.selfVote with
      | true => exact h.tryAccept (List.mem_of_getElem? hr) hw result
      | false => exact h.setAcceptor (h.acceptors r.proposer)
    · dsimp only
      split <;> exact hr

theorem BallotInv.crash (h : BallotInv g b) (c : ν) : BallotInv g (b.crash c) where
  acceptors := by
    have hreload : PersistentOk b.votes c (b.acceptors c).reload :=
      ⟨(h.acceptors c).2, (h.acceptors c).2⟩
    exact (h.setAcceptor hreload).acceptors
  one := h.one
  backed d t w hv := by
    obtain ⟨r, hr, hrt, hrw⟩ := h.backed d t w hv
    refine ⟨_, List.mem_map_of_mem hr, ?_, ?_⟩
    · split <;> exact hrt
    · split <;> exact hrw
  apart := by
    refine h.apart.imp_right fun hnodup => ?_
    rw [Ballot.crash, List.map_map]
    convert hnodup using 2
    funext r
    dsimp only [Function.comp]
    split <;> rfl

/-- **A step keeps every vote backed by its acceptor and by a round.** -/
theorem BallotInv.step (h : BallotInv g b) {e : BallotEvent ν} (hok : OwnTerm g b e)
    (hb : b.step g e = some b') : BallotInv g b' := by
  cases e with
  | beginRound p t dtvlsn vlsn priority result => exact h.beginRound hok hb
  | promise i c dtvlsn vlsn priority result reply =>
    obtain ⟨r, hr, hb⟩ := Option.bind_eq_some_iff.mp hb
    exact h.promise hr hb
  | choose i =>
    obtain ⟨r, hr, hb⟩ := Option.bind_eq_some_iff.mp hb
    exact h.choose hr hb
  | accept i c result reply =>
    obtain ⟨r, hr, hb⟩ := Option.bind_eq_some_iff.mp hb
    exact h.accept hr hb
  | finish i result =>
    obtain ⟨r, hr, hb⟩ := Option.bind_eq_some_iff.mp hb
    exact h.finish hr hb
  | crash c =>
    obtain rfl := Option.some.inj hb
    exact h.crash c

end Steps

/-! ### One master -/

section Master

variable [LinearOrder ν] {g : RepGroup ν} {b : Ballot ν}

omit [LinearOrder ν] in
/-- Where terms are not shared, one term has one round and so one winner. -/
theorem BallotInv.winner_unique (h : BallotInv g b) (hapart : ¬ g.QuorumsMeet) {c c' w w' : ν}
    {t : ℕ} (hv : (c, t, w) ∈ b.votes) (hv' : (c', t, w') ∈ b.votes) : w = w' := by
  obtain ⟨r, hr, hrt, hrw⟩ := h.backed c t w hv
  obtain ⟨r', hr', hrt', hrw'⟩ := h.backed c' t w' hv'
  have hnodup := h.apart.resolve_left hapart
  obtain rfl := List.inj_on_of_nodup_map hnodup hr hr' (hrt.trans hrt'.symm)
  exact Option.some.inj (hrw.symm.trans hrw')

/-- **In the runs where each round has a term of its own or two quorums of the second phase
share an acceptor, no term has two masters.** -/
theorem one_master_per_term (g : RepGroup ν) (es : List (BallotEvent ν))
    (hok : Meets (Ballot.step g) (OwnTerm g) Ballot.new es)
    (hrun : run (Ballot.step g) Ballot.new es = some b) :
    ∀ t w w', b.Accepted g t w → b.Accepted g t w' → w = w' := by
  have h : BallotInv g b := run_invariant (fun _ _ _ h => h.step) (.new g) hok hrun
  rintro t w w' ⟨⟨c, hc⟩, hcard⟩ ⟨⟨c', hc'⟩, hcard'⟩
  by_cases hmeet : g.QuorumsMeet
  · have hsum : g.members.card < (b.voters g t w).card + (b.voters g t w').card := by
      unfold RepGroup.QuorumsMeet at hmeet
      omega
    obtain ⟨d, hd, hd'⟩ :=
      exists_common_voter (Finset.filter_subset _ _) (Finset.filter_subset _ _) hsum
    exact h.one d t w w' (Finset.mem_filter.mp hd).2 (Finset.mem_filter.mp hd').2
  · exact h.winner_unique hmeet (Finset.mem_filter.mp hc).2 (Finset.mem_filter.mp hc').2

end Master

/-! ### Two runs -/

section Runs

/-- Electable nodes with the names `0` to `n - 1`. -/
def electableNodes (n : ℕ) (policy : QuorumPolicy) : RepGroup ℕ :=
  ⟨Finset.range n, fun _ => .electable, policy⟩

/-- Two proposers collide at term 1; node 1 crashes between its second promise and the second
result. -/
def collidingRounds : List (BallotEvent ℕ) :=
  [.beginRound 0 1 10 10 1 .done, .promise 0 1 5 5 1 .done true, .choose 0,
    .accept 0 1 .done true, .finish 0 .done,
    .beginRound 2 1 20 20 1 .done, .promise 1 1 5 5 1 .done true, .crash 1, .choose 1,
    .accept 1 1 .done true, .finish 1 .done]

/-- With a simple majority of three the second round finds its master refused. -/
theorem colliding_rounds_have_one_master :
    ∃ b, run (Ballot.step (electableNodes 3 .simpleMajority)) Ballot.new collidingRounds =
        some b ∧
      b.Accepted (electableNodes 3 .simpleMajority) 1 0 ∧
      ∀ t w w', b.Accepted (electableNodes 3 .simpleMajority) t w →
        b.Accepted (electableNodes 3 .simpleMajority) t w' → w = w' := by
  obtain ⟨b, hb, hacc⟩ := exists_run_of_any
    (P := fun b => b.Accepted (electableNodes 3 .simpleMajority) 1 0)
    (show (run (Ballot.step (electableNodes 3 .simpleMajority)) Ballot.new
      collidingRounds).any _ = true by decide +kernel)
  exact ⟨b, hb, hacc, one_master_per_term _ collidingRounds (by decide +kernel) hb⟩

/-- Four promises and two acceptances for the proposer `0`, then the same for `4`. -/
def flexibleRounds : List (BallotEvent ℕ) :=
  [.beginRound 0 1 10 10 1 .done, .promise 0 1 5 5 1 .done true, .promise 0 2 5 5 1 .done true,
    .promise 0 3 5 5 1 .done true, .choose 0, .accept 0 1 .done true, .finish 0 .done,
    .beginRound 4 1 10 10 1 .done, .promise 1 1 5 5 1 .done true,
    .promise 1 2 5 5 1 .done true, .promise 1 3 5 5 1 .done true, .choose 1,
    .accept 1 2 .done true, .accept 1 3 .done true, .finish 1 .done]

/-- **Five nodes with quorums of four and two elect two masters at term 1**, and both rounds
declare theirs. -/
theorem flexible_quorums_elect_two_masters :
    (electableNodes 5 (.flexible 4 2)).quorumPolicy.validate 5 = true ∧
      ∃ b, run (Ballot.step (electableNodes 5 (.flexible 4 2))) Ballot.new flexibleRounds =
          some b ∧
        b.Accepted (electableNodes 5 (.flexible 4 2)) 1 0 ∧
        b.Accepted (electableNodes 5 (.flexible 4 2)) 1 4 ∧
        b.rounds.map (fun r => (r.term, r.outcome)) = [(1, some 0), (1, some 4)] := by
  refine ⟨by decide, ?_⟩
  exact exists_run_of_any (show (run (Ballot.step (electableNodes 5 (.flexible 4 2)))
    Ballot.new flexibleRounds).any _ = true by decide +kernel)

end Runs

end Noxu
