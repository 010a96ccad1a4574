import Mathlib.Data.Finset.Card
import Noxu.Library.Run
import Noxu.Rep.Election
import Noxu.Rep.VlsnIndex

/-!
# Feeders and the Durable VLSN

A master keeps a feeder for each of its peers but monitors; the feeder holds the greatest VLSN that
the peer has acknowledged. From the feeders the master computes two things whenever an
acknowledgement arrives: the **durable VLSN**, which a majority of the ack group holds, and the
**floor** below which the cleaner may take log files.

The durable VLSN is raised to the least VLSN of the first feeders found above it that are enough
for a majority. The master counts itself, so half of the ack group is enough. An arbiter fills the
place of the second data node where there is none.

The node itself is not one of its peers. Next to the node stand the acknowledgements of each peer
since its feeder was made, the registrations of its index, and whether something has happened since
the floor was computed that it does not take into account.

## Main results

* `durableMin_spec`: what the scan over the feeders finds;
* `FeederInv.step`: every peer but a monitor has one feeder, which holds what the peer has
  acknowledged;
* `dtvlsn_follows_acks`: **the durable VLSN never falls, is raised only to what enough peers have,
  and is raised by the next acknowledgement if enough have more.**
-/

open Noxu.Library

namespace Noxu

variable {ν : Type}

/-! ### Feeders -/

/-- The master's record of a replica. -/
structure Feeder (ν : Type) where
  replicaName : ν
  ackedVlsn : ℕ
  lastActivity : ℕ
  deriving DecidableEq

namespace Feeder

/-- A feeder of a peer that has acknowledged nothing. -/
def new (name : ν) (now : ℕ) : Feeder ν := ⟨name, 0, now⟩

/-- `record_ack` of a feeder. -/
def recordAck (f : Feeder ν) (vlsn now : ℕ) : Feeder ν :=
  { f with ackedVlsn := max f.ackedVlsn vlsn, lastActivity := now }

/-- The peer has not been heard of for too long. -/
def isTimedOut (f : Feeder ν) (timeout now : ℕ) : Bool := decide (timeout < now - f.lastActivity)

end Feeder

/-- The first feeder of a name takes the acknowledgement. -/
def ackFirst [DecidableEq ν] (name : ν) (vlsn now : ℕ) : List (Feeder ν) → List (Feeder ν)
  | [] => []
  | f :: fs =>
    if f.replicaName = name then f.recordAck vlsn now :: fs else f :: ackFirst name vlsn now fs

/-- The scan for enough feeders above `curr`: the least of their VLSNs. -/
def durableMin (qualifies : ν → Bool) (curr need : ℕ) :
    List (Feeder ν) → Option ℕ → ℕ → Option ℕ
  | [], _, _ => none
  | f :: fs, low, count =>
    if !qualifies f.replicaName || decide (f.ackedVlsn ≤ curr) then
      durableMin qualifies curr need fs low count
    else
      let low := low.elim f.ackedVlsn (min f.ackedVlsn)
      if need ≤ count + 1 then some low
      else durableMin qualifies curr need fs (some low) (count + 1)

/-! ### The scan over the feeders -/

section Scan

variable {qualifies : ν → Bool} {curr need : ℕ}

/-- The feeders that the scan counts. -/
def aboveCurr (qualifies : ν → Bool) (curr : ℕ) (fs : List (Feeder ν)) : List (Feeder ν) :=
  fs.filter fun f => qualifies f.replicaName && decide (curr < f.ackedVlsn)

/-- **What the scan finds.** If it ends with a VLSN, that many feeders of the list are at or above
it and it is above `curr`; if not, there are not enough feeders. -/
theorem durableMin_spec (fs : List (Feeder ν)) (low : Option ℕ) (count : ℕ)
    (hlow : ∀ m ∈ low, curr < m) (hcount : count < need) :
    match durableMin qualifies curr need fs low count with
    | some d => curr < d ∧ (∀ m ∈ low, d ≤ m) ∧
        ∃ taken : List (Feeder ν), taken.Sublist (aboveCurr qualifies curr fs) ∧
          count + taken.length = need ∧ ∀ f ∈ taken, d ≤ f.ackedVlsn
    | none => count + (aboveCurr qualifies curr fs).length < need := by
  induction fs generalizing low count with
  | nil => exact hcount
  | cons f fs ih =>
    rw [durableMin]
    by_cases hskip : (!qualifies f.replicaName || decide (f.ackedVlsn ≤ curr)) = true
    · have heq : aboveCurr qualifies curr (f :: fs) = aboveCurr qualifies curr fs := by
        refine List.filter_cons_of_neg ?_
        simp only [Bool.or_eq_true, Bool.not_eq_true', decide_eq_true_eq] at hskip
        simp only [Bool.and_eq_true, decide_eq_true_eq]
        rintro ⟨hq, hlt⟩
        rcases hskip with h | h
        · rw [h] at hq
          cases hq
        · omega
      rw [if_pos hskip, heq]
      exact ih low count hlow hcount
    · have hcounts : qualifies f.replicaName = true ∧ curr < f.ackedVlsn := by
        simpa using hskip
      have heq : aboveCurr qualifies curr (f :: fs) = f :: aboveCurr qualifies curr fs :=
        List.filter_cons_of_pos (by simpa using hcounts)
      rw [if_neg hskip, heq]
      dsimp only
      have hmin : curr < low.elim f.ackedVlsn (min f.ackedVlsn) ∧
          low.elim f.ackedVlsn (min f.ackedVlsn) ≤ f.ackedVlsn ∧
          ∀ m ∈ low, low.elim f.ackedVlsn (min f.ackedVlsn) ≤ m := by
        cases low with
        | none => simpa using hcounts.2
        | some m =>
          have := hlow m rfl
          simp only [Option.elim_some, Option.mem_some_iff, forall_eq']
          omega
      split_ifs with hneed
      · exact ⟨hmin.1, hmin.2.2, [f], by simp, by simp; omega, by simpa using hmin.2.1⟩
      · have hrest := ih (some (low.elim f.ackedVlsn (min f.ackedVlsn))) (count + 1)
          (by simpa using hmin.1) (by omega)
        cases hd : durableMin qualifies curr need fs _ (count + 1) with
        | some d =>
          rw [hd] at hrest
          obtain ⟨hcurr, hle, taken, hsub, hlen, hall⟩ := hrest
          have hle := hle _ rfl
          refine ⟨hcurr, fun m hm => hle.trans (hmin.2.2 m hm), f :: taken,
            hsub.cons_cons f, by simp; omega, ?_⟩
          exact List.forall_mem_cons.mpr ⟨hle.trans hmin.2.1, hall⟩
        | none =>
          rw [hd] at hrest
          simp only [List.length_cons]
          omega

end Scan

/-! ### The node -/

/-- A node with its peers. -/
structure MasterNode (ν : Type) where
  /-- The names in the group. -/
  members : Finset ν
  /-- The types of the members. -/
  nodeType : ν → NodeType
  feeders : List (Feeder ν)
  dtvlsn : ℕ
  vlsnIndex : VlsnIndex
  isMaster : Bool
  /-- The floor handed to the file protector. -/
  replicationFloor : Option ℕ
  clock : ℕ
  /-- What each peer has acknowledged since its feeder was made. -/
  acknowledged : ν → ℕ
  /-- The registrations that have not been rolled back. -/
  logged : List (ℕ × LogPos)
  /-- Those of them that have not been cut off the head of the index. -/
  registered : List (ℕ × LogPos)
  /-- Since the floor was computed no feeder of an electable peer has been made, and nothing has
  been rolled back. -/
  settled : Bool

namespace MasterNode

/-- A master without peers. -/
def start (dtvlsn bucketStride : ℕ) : MasterNode ν where
  members := ∅
  nodeType := fun _ => .monitor
  feeders := []
  dtvlsn := dtvlsn
  vlsnIndex := .new bucketStride
  isMaster := true
  replicationFloor := none
  clock := 0
  acknowledged := fun _ => 0
  logged := []
  registered := []
  settled := true

variable [DecidableEq ν]

/-- The type of a member. -/
def getNode (s : MasterNode ν) (name : ν) : Option NodeType :=
  if name ∈ s.members then some (s.nodeType name) else none

/-- The number of members of a type. -/
def countType (s : MasterNode ν) (type : NodeType) : ℕ :=
  (s.members.filter fun n => s.nodeType n = type).card

/-- The size of the ack group: the data nodes, the master one of them, and an arbiter in the place
of the second. -/
def ackGroupSize (s : MasterNode ν) : ℕ :=
  let dataTotal := s.countType .electable + 1
  if 0 < s.countType .arbiter ∧ dataTotal < 2 then dataTotal + 1 else dataTotal

/-- `arbiter_substitutes_at_rf2`. -/
def arbiterSubstitutesAtRf2 (s : MasterNode ν) : Bool :=
  decide (0 < s.countType .arbiter) && decide (s.ackGroupSize = 2)

/-- The peers that make a majority together with the master. -/
def durableAckCount (s : MasterNode ν) : ℕ := s.ackGroupSize / 2

/-- Whether the acknowledgement of a peer counts. -/
def qualifies (s : MasterNode ν) (name : ν) : Bool :=
  match s.getNode name with
  | some .electable => true
  | some .arbiter => s.arbiterSubstitutesAtRf2
  | _ => false

/-- The master's own last VLSN. -/
def getCurrentVlsn (s : MasterNode ν) : ℕ := s.vlsnIndex.range.last

/-- The durable VLSN does not fall. -/
def updateDtvlsn (s : MasterNode ν) (candidate : ℕ) : MasterNode ν :=
  { s with dtvlsn := max s.dtvlsn candidate }

/-- `update_dtvlsn_from_feeders`. -/
def updateDtvlsnFromFeeders (s : MasterNode ν) : MasterNode ν :=
  if !s.isMaster then s
  else if s.durableAckCount = 0 then s.updateDtvlsn s.getCurrentVlsn
  else
    match durableMin s.qualifies s.dtvlsn s.durableAckCount s.feeders none 0 with
    | some low => s.updateDtvlsn low
    | none => s

/-- Whether a feeder holds the cleaner back. -/
def holdsFloor (s : MasterNode ν) (timeout : ℕ) (f : Feeder ν) : Bool :=
  decide (s.getNode f.replicaName = some .electable) && !f.isTimedOut timeout s.clock

/-- The least VLSN that a feeder of an electable peer has acknowledged, silent ones apart. -/
def computeCbvlsn (s : MasterNode ν) (timeout : ℕ) : Option ℕ :=
  if !s.isMaster then none
  else ((s.feeders.filter fun f => s.holdsFloor timeout f).map Feeder.ackedVlsn).min?

/-- Hand the floor to the file protector: the file of the position at or below the least VLSN. -/
def updateCleanerReplicaProtection (s : MasterNode ν) (timeout : ℕ) : MasterNode ν :=
  { s with
    replicationFloor :=
      (s.computeCbvlsn timeout).map fun cbvlsn =>
        if cbvlsn = 0 then 0 else ((s.vlsnIndex.getLsn cbvlsn).map Prod.fst).getD 0
    settled := true }

/-- `record_ack`. -/
def recordAck (s : MasterNode ν) (timeout vlsn : ℕ) (name : ν) (now : ℕ) : MasterNode ν :=
  let s :=
    { s with
      feeders := ackFirst name vlsn now s.feeders
      clock := now
      acknowledged :=
        if name ∈ s.members then
          Function.update s.acknowledged name (max (s.acknowledged name) vlsn)
        else s.acknowledged }
  s.updateDtvlsnFromFeeders.updateCleanerReplicaProtection timeout

/-- Add a peer, unless there is one of its name. -/
def addPeer (s : MasterNode ν) (name : ν) (type : NodeType) (now : ℕ) : MasterNode ν :=
  if name ∈ s.members then { s with clock := now }
  else
    { s with
      members := insert name s.members
      nodeType := Function.update s.nodeType name type
      feeders :=
        if s.isMaster ∧ type ≠ .monitor ∧ (s.feeders.all fun f => f.replicaName ≠ name) then
          s.feeders ++ [.new name now]
        else s.feeders
      clock := now
      settled := s.settled && !(s.isMaster && decide (type = .electable)) }

/-- `remove_peer`. -/
def removePeer (s : MasterNode ν) (timeout : ℕ) (name : ν) (now : ℕ) : MasterNode ν :=
  if name ∉ s.members then { s with clock := now }
  else
    { s with
      members := s.members.erase name
      feeders := s.feeders.filter fun f => f.replicaName ≠ name
      clock := now
      acknowledged := Function.update s.acknowledged name 0 }.updateCleanerReplicaProtection timeout

/-- Become the master, with a feeder for every peer of a listing but monitors. -/
def becomeMaster (s : MasterNode ν) (peers : List ν) (now : ℕ) : MasterNode ν :=
  { s with
    isMaster := true
    feeders := (peers.filter fun n => s.nodeType n ≠ .monitor).map fun n => .new n now
    clock := now
    acknowledged := fun _ => 0
    settled := s.settled && peers.all fun n => s.nodeType n ≠ .electable }

/-- Register a mapping. -/
def register (s : MasterNode ν) (sort : UnstableSort) (vlsn : ℕ) (pos : LogPos)
    (entryType : Option LogEntryType) : Option (MasterNode ν) :=
  (s.vlsnIndex.insert sort vlsn pos entryType).map fun index =>
    { s with
      vlsnIndex := index
      logged := (vlsn, pos) :: s.logged
      registered := (vlsn, pos) :: s.registered }

/-- Roll back what is behind a VLSN. -/
def truncateAfter (s : MasterNode ν) (vlsn : ℕ) : MasterNode ν :=
  { s with
    vlsnIndex := s.vlsnIndex.truncateAfter vlsn
    logged := s.logged.filter fun r => decide (r.1 ≤ vlsn)
    registered := s.registered.filter fun r => decide (r.1 ≤ vlsn)
    settled := s.settled && s.logged.all fun r => decide (r.1 ≤ vlsn) }

/-- Cut the head of the index, unless the index refuses. -/
def truncateFromHead (s : MasterNode ν) (deleteEnd : ℕ) : MasterNode ν :=
  { s with
    vlsnIndex := (s.vlsnIndex.truncateFromHead deleteEnd).1
    registered :=
      if (s.vlsnIndex.truncateFromHead deleteEnd).2 then
        s.registered.filter fun r => decide (deleteEnd < r.1)
      else s.registered }

end MasterNode

/-- What happens to the node. -/
inductive MasterEvent (ν : Type) where
  | recordAck (vlsn : ℕ) (name : ν) (now : ℕ)
  | addPeer (name : ν) (type : NodeType) (now : ℕ)
  | removePeer (name : ν) (now : ℕ)
  | register (vlsn : ℕ) (pos : LogPos) (entryType : Option LogEntryType)
  | truncateAfter (vlsn : ℕ)
  | truncateFromHead (deleteEnd : ℕ)
  | timer (now : ℕ)
  | becomeMaster (peers : List ν) (now : ℕ)
  | becomeReplica

/-- The time of an event, if it has one. -/
def MasterEvent.time? : MasterEvent ν → Option ℕ
  | .recordAck _ _ now | .addPeer _ _ now | .removePeer _ now | .timer now
  | .becomeMaster _ now => some now
  | .register .. | .truncateAfter _ | .truncateFromHead _ | .becomeReplica => none

namespace MasterNode

variable [DecidableEq ν]

/-- One event; the time does not go back. -/
def step (sort : UnstableSort) (timeout : ℕ) (s : MasterNode ν) (e : MasterEvent ν) :
    Option (MasterNode ν) :=
  if e.time?.any fun now => decide (now < s.clock) then none
  else
    match e with
    | .recordAck vlsn name now => some (s.recordAck timeout vlsn name now)
    | .addPeer name type now => some (s.addPeer name type now)
    | .removePeer name now => some (s.removePeer timeout name now)
    | .register vlsn pos entryType => s.register sort vlsn pos entryType
    | .truncateAfter vlsn => some (s.truncateAfter vlsn)
    | .truncateFromHead deleteEnd => some (s.truncateFromHead deleteEnd)
    | .timer now => some ({ s with clock := now }.updateCleanerReplicaProtection timeout)
    | .becomeMaster peers now =>
      if peers.Nodup ∧ peers.toFinset = s.members then some (s.becomeMaster peers now) else none
    | .becomeReplica =>
      some ({ s with isMaster := false }.updateCleanerReplicaProtection timeout)

/-- The peers that count and have acknowledged a VLSN. -/
def holders (s : MasterNode ν) (vlsn : ℕ) : Finset ν :=
  s.members.filter fun n => s.qualifies n = true ∧ vlsn ≤ s.acknowledged n

/-- What an event does to the durable VLSN: it does not fall; if it is raised, enough peers have
acknowledged it; and an acknowledgement raises it if enough peers have acknowledged a VLSN above
it, one of the master's own if none are needed. -/
def DurableIn (sort : UnstableSort) (timeout : ℕ) (s : MasterNode ν) (e : MasterEvent ν) : Prop :=
  ∀ s', s.step sort timeout e = some s' →
    s.dtvlsn ≤ s'.dtvlsn ∧
    (s.dtvlsn < s'.dtvlsn → s'.durableAckCount ≤ (s'.holders s'.dtvlsn).card) ∧
    ∀ vlsn name now, e = .recordAck vlsn name now → s.isMaster = true →
      ∀ d, s.dtvlsn < d → s'.durableAckCount ≤ (s'.holders d).card →
        (s'.durableAckCount = 0 → d ≤ s'.getCurrentVlsn) → s.dtvlsn < s'.dtvlsn

end MasterNode

/-! ### Feeders and what the peers have acknowledged -/

/-- Feeders have different names, all of them of members; each holds what its peer has acknowledged;
on a master every member but a monitor has one. -/
structure FeederInv (s : MasterNode ν) : Prop where
  nodup : (s.feeders.map Feeder.replicaName).Nodup
  member : ∀ f ∈ s.feeders, f.replicaName ∈ s.members
  acked : ∀ f ∈ s.feeders, f.ackedVlsn = s.acknowledged f.replicaName
  tracked : s.isMaster = true → ∀ n ∈ s.members, s.nodeType n ≠ .monitor →
    ∃ f ∈ s.feeders, f.replicaName = n
  fresh : ∀ n, n ∉ s.members → s.acknowledged n = 0

section Inv

variable {s s' : MasterNode ν} {e : MasterEvent ν} {sort : UnstableSort} {timeout : ℕ}

theorem feederInv_start (dtvlsn bucketStride : ℕ) :
    FeederInv (MasterNode.start dtvlsn bucketStride : MasterNode ν) where
  nodup := List.nodup_nil
  member := nofun
  acked := nofun
  tracked := fun _ n hn => absurd hn (Finset.notMem_empty n)
  fresh := fun _ _ => rfl

/-- The invariant reads only the peers and the feeders. -/
theorem FeederInv.congr (h : FeederInv s) (hmembers : s'.members = s.members)
    (htype : s'.nodeType = s.nodeType) (hfeeders : s'.feeders = s.feeders)
    (hacked : s'.acknowledged = s.acknowledged) (hmaster : s'.isMaster = true → s.isMaster = true) :
    FeederInv s' where
  nodup := hfeeders ▸ h.nodup
  member := by rw [hfeeders, hmembers]; exact h.member
  acked := by rw [hfeeders, hacked]; exact h.acked
  tracked := by
    rw [hmembers, htype, hfeeders]
    exact fun hm => h.tracked (hmaster hm)
  fresh := by rw [hmembers, hacked]; exact h.fresh

variable [DecidableEq ν]

theorem map_replicaName_ackFirst (name : ν) (vlsn now : ℕ) (fs : List (Feeder ν)) :
    (ackFirst name vlsn now fs).map Feeder.replicaName = fs.map Feeder.replicaName := by
  induction fs with
  | nil => rfl
  | cons f fs ih =>
    rw [ackFirst]
    split_ifs
    · rfl
    · rw [List.map_cons, List.map_cons, ih]

/-- A feeder after an acknowledgement: one of another name as it was, or the one of this name. -/
theorem mem_ackFirst {name : ν} {vlsn now : ℕ} {fs : List (Feeder ν)} {f : Feeder ν}
    (hnodup : (fs.map Feeder.replicaName).Nodup) (hf : f ∈ ackFirst name vlsn now fs) :
    f ∈ fs ∧ f.replicaName ≠ name ∨
      ∃ g ∈ fs, g.replicaName = name ∧ f = g.recordAck vlsn now := by
  induction fs with
  | nil => cases hf
  | cons g fs ih =>
    rw [List.map_cons, List.nodup_cons] at hnodup
    rw [ackFirst] at hf
    split_ifs at hf with hname
    · rcases List.mem_cons.mp hf with rfl | hf
      · exact .inr ⟨g, List.mem_cons_self, hname, rfl⟩
      · refine .inl ⟨List.mem_cons_of_mem _ hf, fun heq => hnodup.1 ?_⟩
        rw [hname, ← heq]
        exact List.mem_map_of_mem hf
    · rcases List.mem_cons.mp hf with rfl | hf
      · exact .inl ⟨List.mem_cons_self, hname⟩
      · refine (ih hnodup.2 hf).imp (.imp_left (List.mem_cons_of_mem _)) ?_
        rintro ⟨g', hg', h⟩
        exact ⟨g', List.mem_cons_of_mem _ hg', h⟩

/-- **An acknowledgement** reaches the feeder of its peer. -/
theorem FeederInv.ack (h : FeederInv s) (vlsn : ℕ) (name : ν) (now : ℕ) :
    FeederInv
      { s with
        feeders := ackFirst name vlsn now s.feeders
        clock := now
        acknowledged :=
          if name ∈ s.members then
            Function.update s.acknowledged name (max (s.acknowledged name) vlsn)
          else s.acknowledged } := by
  have hnames := map_replicaName_ackFirst name vlsn now s.feeders
  refine ⟨hnames ▸ h.nodup, fun f hf => ?_, fun f hf => ?_, fun hm n hn hmon => ?_, fun n hn => ?_⟩
  · rcases mem_ackFirst h.nodup hf with ⟨hf, -⟩ | ⟨g, hg, -, rfl⟩
    exacts [h.member f hf, h.member g hg]
  · dsimp only
    rcases mem_ackFirst h.nodup hf with ⟨hf, hne⟩ | ⟨g, hg, rfl, rfl⟩
    · split_ifs
      · rw [Function.update_of_ne hne, h.acked f hf]
      · exact h.acked f hf
    · rw [if_pos (h.member g hg), Feeder.recordAck, Function.update_self, h.acked g hg]
  · obtain ⟨f, hf, hfn⟩ := h.tracked hm n hn hmon
    have hmem : n ∈ (ackFirst name vlsn now s.feeders).map Feeder.replicaName := by
      rw [hnames, ← hfn]
      exact List.mem_map_of_mem hf
    obtain ⟨g, hg, hgn⟩ := List.mem_map.mp hmem
    exact ⟨g, hg, hgn⟩
  · dsimp only
    split_ifs with hname
    · have hne : n ≠ name := fun heq => hn (heq ▸ hname)
      rw [Function.update_of_ne hne, h.fresh n hn]
    · exact h.fresh n hn

/-- **A new peer** gets a feeder that has acknowledged nothing. -/
theorem FeederInv.addPeer (h : FeederInv s) (name : ν) (type : NodeType) (now : ℕ) :
    FeederInv (s.addPeer name type now) := by
  unfold MasterNode.addPeer
  split_ifs with hname hfeeder
  · exact h.congr rfl rfl rfl rfl id
  all_goals
    have hother : ∀ f ∈ s.feeders, f.replicaName ≠ name := fun f hf heq =>
      hname (heq ▸ h.member f hf)
    have hmember : ∀ f ∈ s.feeders, f.replicaName ∈ insert name s.members := fun f hf =>
      Finset.mem_insert_of_mem (h.member f hf)
    have hfresh : ∀ n, n ∉ insert name s.members → s.acknowledged n = 0 := fun n hn =>
      h.fresh n fun hmem => hn (Finset.mem_insert_of_mem hmem)
    have hold : s.isMaster = true → ∀ n ∈ s.members,
        Function.update s.nodeType name type n ≠ .monitor → ∃ f ∈ s.feeders, f.replicaName = n := by
      intro hm n hn hmon
      have hne : n ≠ name := fun heq => hname (heq ▸ hn)
      rw [Function.update_of_ne hne] at hmon
      exact h.tracked hm n hn hmon
  · refine ⟨?_, ?_, ?_, fun hm n hn hmon => ?_, hfresh⟩
    · rw [List.map_append, List.map_singleton, ← List.concat_eq_append, List.nodup_concat]
      refine ⟨fun hmem => ?_, h.nodup⟩
      obtain ⟨f, hf, hfn⟩ := List.mem_map.mp hmem
      exact hother f hf hfn
    · refine List.forall_mem_append.mpr ⟨hmember, List.forall_mem_singleton.mpr ?_⟩
      exact Finset.mem_insert_self name s.members
    · refine List.forall_mem_append.mpr ⟨h.acked, List.forall_mem_singleton.mpr ?_⟩
      exact (h.fresh name hname).symm
    · rcases Finset.mem_insert.mp hn with rfl | hn
      · exact ⟨_, List.mem_append_right _ List.mem_cons_self, rfl⟩
      · obtain ⟨f, hf, hfn⟩ := hold hm n hn hmon
        exact ⟨f, List.mem_append_left _ hf, hfn⟩
  · refine ⟨h.nodup, hmember, h.acked, fun hm n hn hmon => ?_, hfresh⟩
    rcases Finset.mem_insert.mp hn with rfl | hn
    · refine absurd ⟨hm, ?_, ?_⟩ hfeeder
      · dsimp only at hmon
        rwa [Function.update_self] at hmon
      · simpa using hother
    · exact hold hm n hn hmon

/-- **A peer that is removed** takes its feeder along. -/
theorem FeederInv.remove (h : FeederInv s) (name : ν) (now : ℕ) :
    FeederInv
      { s with
        members := s.members.erase name
        feeders := s.feeders.filter fun f => f.replicaName ≠ name
        clock := now
        acknowledged := Function.update s.acknowledged name 0 } := by
  have hkept : ∀ f ∈ s.feeders.filter (fun f => f.replicaName ≠ name),
      f ∈ s.feeders ∧ f.replicaName ≠ name := by
    intro f hf
    simpa using hf
  refine ⟨h.nodup.sublist (List.filter_sublist.map _), fun f hf => ?_, fun f hf => ?_,
    fun hm n hn hmon => ?_, fun n hn => ?_⟩
  · obtain ⟨hf, hne⟩ := hkept f hf
    exact Finset.mem_erase.mpr ⟨hne, h.member f hf⟩
  · obtain ⟨hf, hne⟩ := hkept f hf
    dsimp only
    rw [Function.update_of_ne hne, h.acked f hf]
  · obtain ⟨hne, hn⟩ := Finset.mem_erase.mp hn
    obtain ⟨f, hf, rfl⟩ := h.tracked hm n hn hmon
    exact ⟨f, List.mem_filter.mpr ⟨hf, by simpa using hne⟩, rfl⟩
  · dsimp only
    rcases eq_or_ne n name with rfl | hne
    · exact Function.update_self ..
    · rw [Function.update_of_ne hne]
      exact h.fresh n fun hmem => hn (Finset.mem_erase.mpr ⟨hne, hmem⟩)

theorem MasterNode.updateDtvlsnFromFeeders_eq (s : MasterNode ν) :
    s.updateDtvlsnFromFeeders = { s with dtvlsn := s.updateDtvlsnFromFeeders.dtvlsn } := by
  unfold MasterNode.updateDtvlsnFromFeeders
  split_ifs
  · rfl
  · rfl
  · split <;> rfl

/-- A new master has a feeder for every peer that is not a monitor. -/
theorem FeederInv.becomeMaster {peers : List ν} (hnodup : peers.Nodup)
    (hpeers : peers.toFinset = s.members) (now : ℕ) : FeederInv (s.becomeMaster peers now) where
  nodup := by
    have hnames : ((s.becomeMaster peers now).feeders.map Feeder.replicaName) =
        peers.filter fun n => s.nodeType n ≠ .monitor := by
      simp only [MasterNode.becomeMaster, List.map_map]
      exact List.map_id _
    exact hnames ▸ hnodup.filter _
  member := by
    intro f hf
    obtain ⟨n, hn, rfl⟩ := List.mem_map.mp hf
    exact hpeers ▸ List.mem_toFinset.mpr (List.mem_filter.mp hn).1
  acked := by
    intro f hf
    obtain ⟨n, -, rfl⟩ := List.mem_map.mp hf
    rfl
  tracked := by
    intro _ n hn hmon
    have hn := List.mem_toFinset.mp (hpeers ▸ hn)
    exact ⟨.new n now, List.mem_map_of_mem (List.mem_filter.mpr ⟨hn, decide_eq_true hmon⟩), rfl⟩
  fresh := fun _ _ => rfl

/-- **One event.** -/
theorem FeederInv.step (h : FeederInv s) (hstep : s.step sort timeout e = some s') :
    FeederInv s' := by
  obtain ⟨-, hstep⟩ := Option.ite_none_left_eq_some.mp hstep
  cases e with
  | recordAck vlsn name now =>
    obtain rfl := Option.some.inj hstep
    have hack := h.ack vlsn name now
    dsimp only [MasterNode.recordAck]
    rw [MasterNode.updateDtvlsnFromFeeders_eq]
    exact hack.congr rfl rfl rfl rfl id
  | addPeer name type now =>
    obtain rfl := Option.some.inj hstep
    exact h.addPeer name type now
  | removePeer name now =>
    obtain rfl := Option.some.inj hstep
    unfold MasterNode.removePeer
    split_ifs
    · exact (h.remove name now).congr rfl rfl rfl rfl id
    · exact h.congr rfl rfl rfl rfl id
  | register vlsn pos entryType =>
    obtain ⟨index, -, rfl⟩ := Option.map_eq_some_iff.mp hstep
    exact h.congr rfl rfl rfl rfl id
  | truncateAfter | truncateFromHead | timer =>
    obtain rfl := Option.some.inj hstep
    exact h.congr rfl rfl rfl rfl id
  | becomeMaster peers now =>
    obtain ⟨⟨hnodup, hpeers⟩, hstep⟩ := Option.ite_none_right_eq_some.mp hstep
    obtain rfl := Option.some.inj hstep
    exact .becomeMaster hnodup hpeers now
  | becomeReplica =>
    obtain rfl := Option.some.inj hstep
    exact h.congr rfl rfl rfl rfl nofun

/-! ### The durable VLSN -/

/-- A peer that counts is not a monitor. -/
theorem MasterNode.not_monitor_of_qualifies {n : ν} (hq : s.qualifies n = true) :
    s.nodeType n ≠ .monitor := by
  intro hmon
  unfold MasterNode.qualifies MasterNode.getNode at hq
  split_ifs at hq
  rw [hmon] at hq
  cases hq

/-- Feeders that count are as many peers. -/
theorem FeederInv.card_holders_ge (h : FeederInv s) {curr d : ℕ} {taken : List (Feeder ν)}
    (hsub : taken.Sublist (aboveCurr s.qualifies curr s.feeders))
    (hall : ∀ f ∈ taken, d ≤ f.ackedVlsn) : taken.length ≤ (s.holders d).card := by
  have hfeeders := hsub.trans List.filter_sublist
  have hnodup : (taken.map Feeder.replicaName).Nodup := h.nodup.sublist (hfeeders.map _)
  rw [← List.length_map Feeder.replicaName, ← List.toFinset_card_of_nodup hnodup]
  refine Finset.card_le_card fun n hn => ?_
  obtain ⟨f, hf, rfl⟩ := List.mem_map.mp (List.mem_toFinset.mp hn)
  have hmem := hfeeders.subset hf
  have hcounts := (List.mem_filter.mp (hsub.subset hf)).2
  rw [Bool.and_eq_true] at hcounts
  exact Finset.mem_filter.mpr ⟨h.member f hmem, hcounts.1, h.acked f hmem ▸ hall f hf⟩

/-- Peers that have acknowledged more are as many feeders that count. -/
theorem FeederInv.card_holders_le (h : FeederInv s) (hmaster : s.isMaster = true) {curr d : ℕ}
    (hd : curr < d) :
    (s.holders d).card ≤ (aboveCurr s.qualifies curr s.feeders).length := by
  have hsub : s.holders d ⊆
      ((aboveCurr s.qualifies curr s.feeders).map Feeder.replicaName).toFinset := by
    intro n hn
    obtain ⟨hn, hq, hack⟩ := Finset.mem_filter.mp hn
    obtain ⟨f, hf, rfl⟩ := h.tracked hmaster n hn (MasterNode.not_monitor_of_qualifies hq)
    refine List.mem_toFinset.mpr (List.mem_map_of_mem (List.mem_filter.mpr ⟨hf, ?_⟩))
    rw [hq, Bool.true_and, h.acked f hf]
    exact decide_eq_true (hd.trans_le hack)
  refine (Finset.card_le_card hsub).trans ((List.toFinset_card_le _).trans ?_)
  rw [List.length_map]

/-- **What the master computes from its feeders.** -/
theorem FeederInv.updateDtvlsnFromFeeders (h : FeederInv s) :
    s.dtvlsn ≤ s.updateDtvlsnFromFeeders.dtvlsn ∧
    (s.dtvlsn < s.updateDtvlsnFromFeeders.dtvlsn →
      s.durableAckCount ≤ (s.holders s.updateDtvlsnFromFeeders.dtvlsn).card) ∧
    (s.isMaster = true → ∀ d, s.dtvlsn < d → s.durableAckCount ≤ (s.holders d).card →
      (s.durableAckCount = 0 → d ≤ s.getCurrentVlsn) →
        s.dtvlsn < s.updateDtvlsnFromFeeders.dtvlsn) := by
  unfold MasterNode.updateDtvlsnFromFeeders
  split_ifs with hmaster hzero
  · exact ⟨le_rfl, fun hlt => absurd hlt (lt_irrefl _), fun hm => by simp [hm] at hmaster⟩
  · refine ⟨le_max_left _ _, fun _ => hzero ▸ Nat.zero_le _, fun _ d hd _ hcurrent => ?_⟩
    exact lt_max_of_lt_right (hd.trans_le (hcurrent hzero))
  · have hspec := @durableMin_spec ν s.qualifies s.dtvlsn s.durableAckCount s.feeders none 0 nofun
      (Nat.pos_of_ne_zero hzero)
    cases hlow : durableMin s.qualifies s.dtvlsn s.durableAckCount s.feeders none 0 with
    | none =>
      rw [hlow] at hspec
      refine ⟨le_rfl, fun hlt => absurd hlt (lt_irrefl _), fun hm d hd hcard => ?_⟩
      have := h.card_holders_le hm hd
      omega
    | some low =>
      rw [hlow] at hspec
      obtain ⟨hlt, -, taken, hsub, hlen, hall⟩ := hspec
      have hmax : max s.dtvlsn low = low := max_eq_right hlt.le
      simp only [MasterNode.updateDtvlsn, hmax]
      refine ⟨hlt.le, fun _ => ?_, fun _ _ _ _ _ => hlt⟩
      have := h.card_holders_ge hsub hall
      omega

theorem FeederInv.durableIn (h : FeederInv s) : s.DurableIn sort timeout e := by
  intro s' hstep
  obtain ⟨-, hstep⟩ := Option.ite_none_left_eq_some.mp hstep
  -- only an acknowledgement touches the durable VLSN
  have hsame : s'.dtvlsn = s.dtvlsn → (∀ vlsn name now, e ≠ .recordAck vlsn name now) →
      s.dtvlsn ≤ s'.dtvlsn ∧
      (s.dtvlsn < s'.dtvlsn → s'.durableAckCount ≤ (s'.holders s'.dtvlsn).card) ∧
      ∀ vlsn name now, e = .recordAck vlsn name now → s.isMaster = true →
        ∀ d, s.dtvlsn < d → s'.durableAckCount ≤ (s'.holders d).card →
          (s'.durableAckCount = 0 → d ≤ s'.getCurrentVlsn) → s.dtvlsn < s'.dtvlsn :=
    fun heq hne => ⟨heq.ge, fun hlt => absurd hlt heq.not_gt,
      fun vlsn name now he => absurd he (hne vlsn name now)⟩
  cases e with
  | recordAck vlsn name now =>
    obtain rfl := Option.some.inj hstep
    obtain ⟨hle, hsound, hprogress⟩ := (h.ack vlsn name now).updateDtvlsnFromFeeders
    dsimp only [MasterNode.recordAck]
    rw [MasterNode.updateDtvlsnFromFeeders_eq]
    exact ⟨hle, hsound, fun _ _ _ _ => hprogress⟩
  | addPeer name type now =>
    obtain rfl := Option.some.inj hstep
    refine hsame ?_ nofun
    unfold MasterNode.addPeer
    split_ifs <;> rfl
  | removePeer name now =>
    obtain rfl := Option.some.inj hstep
    refine hsame ?_ nofun
    unfold MasterNode.removePeer
    split_ifs <;> rfl
  | register vlsn pos entryType =>
    obtain ⟨index, -, rfl⟩ := Option.map_eq_some_iff.mp hstep
    exact hsame rfl nofun
  | becomeMaster peers now =>
    obtain ⟨-, hstep⟩ := Option.ite_none_right_eq_some.mp hstep
    obtain rfl := Option.some.inj hstep
    exact hsame rfl nofun
  | truncateAfter | truncateFromHead | timer | becomeReplica =>
    obtain rfl := Option.some.inj hstep
    exact hsame rfl nofun

end Inv

/-- **The durable VLSN follows the acknowledgements.** In every run of a master from any durable
VLSN on, with acknowledgements, peers of any type that come and go, changes of the role,
registrations and truncations. -/
theorem dtvlsn_follows_acks [DecidableEq ν] (sort : UnstableSort) (timeout dtvlsn bucketStride : ℕ)
    (events : List (MasterEvent ν)) :
    Meets (MasterNode.step sort timeout) (MasterNode.DurableIn sort timeout)
      (.start dtvlsn bucketStride) events := by
  refine meets_of_invariant (?_ : ∀ s e s', FeederInv s → _) ?_
    (feederInv_start dtvlsn bucketStride)
  · intro s e s' h hstep
    exact h.step hstep
  · intro s e h
    exact h.durableIn

/-- Four electable peers; peer 1 acknowledges VLSN 10, is removed and added again, and peer 2
acknowledges VLSN 10. -/
def peerAddedAgain : List (MasterEvent ℕ) :=
  [.addPeer 1 .electable 0, .addPeer 2 .electable 0, .addPeer 3 .electable 0,
    .addPeer 4 .electable 0, .recordAck 10 1 1, .removePeer 1 2, .addPeer 1 .electable 3,
    .recordAck 10 2 4]

/-- **An acknowledgement from before a removal does not count.** Two of the peers are enough, and
peers 1 and 2 are members that have acknowledged VLSN 10; the next acknowledgement raises
nothing. -/
theorem acks_forgotten_on_removal :
    ∃ s s', run (MasterNode.step insertionSorter 60) (.start 0 10) peerAddedAgain = some s ∧
      s.step insertionSorter 60 (.recordAck 10 2 5) = some s' ∧
      s'.durableAckCount = 2 ∧ s'.qualifies 1 = true ∧ s'.qualifies 2 = true ∧
      MasterEvent.recordAck 10 1 1 ∈ peerAddedAgain ∧
      MasterEvent.recordAck 10 2 4 ∈ peerAddedAgain ∧ s.dtvlsn = 0 ∧ s'.dtvlsn = 0 :=
  ⟨_, _, rfl, rfl, by decide, by decide, by decide, by simp [peerAddedAgain],
    by simp [peerAddedAgain], rfl, by decide⟩

end Noxu
