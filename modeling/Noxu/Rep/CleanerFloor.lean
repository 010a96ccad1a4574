import Noxu.Rep.Feeders

/-!
# The Floor of the Cleaner

A master hands the cleaner a floor: no log file at or above it may be deleted. It is the file of
the index's position at or below the least VLSN that a live electable feeder has acknowledged. If
the lookup answers with a registered position, a file that such a feeder still needs is at or above
the floor **when it is computed**.

It is computed with every acknowledgement, removal of a peer and tick of the timer, and not when a
feeder is made, nor when the tail of the index is rolled back. A new feeder has acknowledged nothing
and needs every file.

A roll-back leaves mappings behind in the bucket it cuts through. They are hidden by the range of
the index until it grows over them: a VLSN that is registered above one of them, before that one is
registered again, uncovers it.

## Main results

* `VlsnIndex.Backed.getLsn`: the lookup answers with a position registered at or below;
* `FloorInv.step`: the floor is the file of a VLSN that every live electable feeder has
  acknowledged, unless a feeder was made or something rolled back since;
* `floor_right_settled`: **the floor is right whenever it is computed, and stays right until a
  feeder of an electable peer is made or the tail is rolled back.**
-/

open Noxu.Library

namespace Noxu

variable {ν : Type}

/-! ### The floor -/

/-- The order of log positions. -/
def LogPos.Before (p q : LogPos) : Prop := p.1 < q.1 ∨ p.1 = q.1 ∧ p.2 < q.2

instance (p q : LogPos) : Decidable (p.Before q) := inferInstanceAs (Decidable (_ ∨ _))

theorem LogPos.Before.file_le {p q : LogPos} (h : p.Before q) : p.1 ≤ q.1 := by
  rcases h with h | h
  exacts [h.le, h.1.le]

namespace MasterNode

variable [DecidableEq ν]

/-- The floor is at or below the file of every VLSN that a live electable feeder has not
acknowledged; there is one if there is such a feeder. -/
structure FloorRight (timeout : ℕ) (s : MasterNode ν) : Prop where
  below : ∀ fl, s.replicationFloor = some fl → ∀ f ∈ s.feeders, s.holdsFloor timeout f = true →
    ∀ r ∈ s.registered, f.ackedVlsn < r.1 → fl ≤ r.2.1
  absent : s.replicationFloor = none → s.isMaster = true →
    ∀ f ∈ s.feeders, s.holdsFloor timeout f = false

/-- **Registrations have positions in the order of their VLSNs**, and neither they nor a roll-back
uncover a mapping that an earlier roll-back has left behind in the index. -/
def OrderedIn (s : MasterNode ν) : MasterEvent ν → Prop
  | .register vlsn pos _ =>
    (∀ r ∈ s.logged, (r.1 < vlsn → r.2.Before pos) ∧ (vlsn < r.1 → pos.Before r.2)) ∧
      s.vlsnIndex.ClearFor vlsn
  | .truncateAfter vlsn => s.vlsnIndex.ClearUpTo vlsn
  | _ => True

instance (s : MasterNode ν) : ∀ e, Decidable (s.OrderedIn e)
  | .register vlsn pos _ =>
    inferInstanceAs (Decidable ((∀ r ∈ s.logged,
      (r.1 < vlsn → r.2.Before pos) ∧ (vlsn < r.1 → pos.Before r.2)) ∧
        s.vlsnIndex.ClearFor vlsn))
  | .truncateAfter vlsn => inferInstanceAs (Decidable (s.vlsnIndex.ClearUpTo vlsn))
  | .recordAck .. | .addPeer .. | .removePeer .. | .truncateFromHead _
  | .timer _ | .becomeMaster .. | .becomeReplica => .isTrue trivial

/-- The events after which the floor is computed. -/
def Recomputes (s : MasterNode ν) : MasterEvent ν → Prop
  | .recordAck .. | .timer _ | .becomeReplica => True
  | .removePeer name _ => name ∈ s.members
  | _ => False

end MasterNode

/-! ### The registrations -/

section Log

variable {s s' : MasterNode ν} {sort : UnstableSort}

/-- What the registrations keep, apart from the floor. -/
structure LogInv (s : MasterNode ν) : Prop where
  index : s.vlsnIndex.Backed s.logged
  registered : s.registered ⊆ s.logged
  increasing : ∀ r ∈ s.logged, ∀ r' ∈ s.logged, r.1 < r'.1 → r.2.Before r'.2

theorem LogInv.congr (h : LogInv s) (hindex : s'.vlsnIndex = s.vlsnIndex)
    (hlogged : s'.logged = s.logged) (hreg : s'.registered = s.registered) : LogInv s' where
  index := by
    rw [hindex, hlogged]
    exact h.index
  registered := by
    rw [hreg, hlogged]
    exact h.registered
  increasing := by
    rw [hlogged]
    exact h.increasing

/-- **A registration.** -/
theorem LogInv.register (h : LogInv s) {vlsn : ℕ} {pos : LogPos}
    {entryType : Option LogEntryType} (hord : s.OrderedIn (.register vlsn pos entryType))
    (hreg : s.register sort vlsn pos entryType = some s') : LogInv s' := by
  obtain ⟨hord, hclear⟩ := hord
  obtain ⟨index, hins, rfl⟩ := Option.map_eq_some_iff.mp hreg
  refine ⟨h.index.insert hclear hins, List.cons_subset_cons _ h.registered, ?_⟩
  intro r hr r' hr' hlt
  rcases List.mem_cons.mp hr with rfl | hr <;> rcases List.mem_cons.mp hr' with rfl | hr'
  · exact absurd hlt (lt_irrefl _)
  · exact (hord r' hr').2 hlt
  · exact (hord r hr).1 hlt
  · exact h.increasing r hr r' hr' hlt

/-- **A roll-back.** -/
theorem LogInv.truncateAfter (h : LogInv s) {vlsn : ℕ} (hclear : s.vlsnIndex.ClearUpTo vlsn) :
    LogInv (s.truncateAfter vlsn) where
  index := h.index.truncateAfter hclear
  registered := fun _ hr =>
    List.mem_filter.mpr ⟨h.registered (List.mem_filter.mp hr).1, (List.mem_filter.mp hr).2⟩
  increasing := fun r hr r' hr' =>
    h.increasing r (List.mem_filter.mp hr).1 r' (List.mem_filter.mp hr').1

/-- **A cut of the head.** -/
theorem LogInv.truncateFromHead (h : LogInv s) (deleteEnd : ℕ) :
    LogInv (s.truncateFromHead deleteEnd) where
  index := h.index.truncateFromHead deleteEnd
  registered := by
    unfold MasterNode.truncateFromHead
    dsimp only
    split_ifs
    · exact fun _ hr => h.registered (List.mem_filter.mp hr).1
    · exact h.registered
  increasing := h.increasing

end Log

/-! ### The invariant -/

section Floor

variable [DecidableEq ν] {s s' : MasterNode ν} {e : MasterEvent ν} {sort : UnstableSort}
  {timeout : ℕ}

/-- What the runs keep: while nothing has happened that it does not take into account, the floor is
the file of a VLSN that every live electable feeder has acknowledged. -/
structure FloorInv (timeout : ℕ) (s : MasterNode ν) : Prop where
  feeders : FeederInv s
  log : LogInv s
  origin : s.settled = true → ∀ fl, s.replicationFloor = some fl →
    fl = 0 ∨ ∃ r ∈ s.logged, r.2.1 = fl ∧
      ∀ f ∈ s.feeders, s.holdsFloor timeout f = true → r.1 ≤ f.ackedVlsn
  absent : s.settled = true → s.replicationFloor = none → s.isMaster = true →
    ∀ f ∈ s.feeders, s.holdsFloor timeout f = false

theorem floorInv_start (dtvlsn : ℕ) {bucketStride : ℕ} (hstride : 0 < bucketStride) :
    FloorInv timeout (.start dtvlsn bucketStride : MasterNode ν) where
  feeders := feederInv_start dtvlsn bucketStride
  log := ⟨⟨nofun, hstride, fun _ => rfl, nofun⟩, nofun, nofun⟩
  origin := fun _ => nofun
  absent := fun _ _ _ => nofun

/-- **Where the floor comes from** when it is computed: the file of a VLSN that every live electable
feeder has acknowledged. -/
theorem MasterNode.updateCleanerReplicaProtection_origin
    (hindex : s.vlsnIndex.Backed s.logged) {fl : ℕ}
    (hfl : (s.updateCleanerReplicaProtection timeout).replicationFloor = some fl) :
    fl = 0 ∨ ∃ r ∈ s.logged, r.2.1 = fl ∧
      ∀ f ∈ s.feeders, s.holdsFloor timeout f = true → r.1 ≤ f.ackedVlsn := by
  obtain ⟨cbvlsn, hcb, hfl⟩ := Option.map_eq_some_iff.mp hfl
  obtain ⟨-, hcb⟩ := Option.ite_none_left_eq_some.mp hcb
  split_ifs at hfl with hzero
  · exact .inl hfl.symm
  cases hget : s.vlsnIndex.getLsn cbvlsn with
  | none =>
    rw [hget] at hfl
    exact .inl hfl.symm
  | some pos =>
    rw [hget] at hfl
    obtain ⟨v, hv, hreg⟩ := hindex.getLsn hget
    refine .inr ⟨(v, pos), hreg, hfl, fun f hf hlive => hv.trans ?_⟩
    exact (List.min?_eq_some_iff.mp hcb).2 _
      (List.mem_map_of_mem (List.mem_filter.mpr ⟨hf, hlive⟩))

/-- There is a floor if there is a live electable feeder. -/
theorem MasterNode.updateCleanerReplicaProtection_absent
    (hfl : (s.updateCleanerReplicaProtection timeout).replicationFloor = none)
    (hmaster : s.isMaster = true) : ∀ f ∈ s.feeders, s.holdsFloor timeout f = false := by
  have hcb := Option.map_eq_none_iff.mp hfl
  unfold MasterNode.computeCbvlsn at hcb
  rw [hmaster, Bool.not_true, if_neg Bool.false_ne_true, List.min?_eq_none_iff,
    List.map_eq_nil_iff, List.filter_eq_nil_iff] at hcb
  exact fun f hf => Bool.eq_false_iff.mpr (hcb f hf)

/-- **The floor has just been computed.** -/
theorem FloorInv.recompute (hfeeders : FeederInv s) (hlog : LogInv s) :
    FloorInv timeout (s.updateCleanerReplicaProtection timeout) where
  feeders := hfeeders.congr rfl rfl rfl rfl id
  log := hlog.congr rfl rfl rfl
  origin := fun _ _ hfl => MasterNode.updateCleanerReplicaProtection_origin hlog.index hfl
  absent := fun _ hnone hmaster =>
    MasterNode.updateCleanerReplicaProtection_absent hnone hmaster

/-- **A floor that takes everything into account is right.** -/
theorem FloorInv.floorRight (h : FloorInv timeout s) (hsettled : s.settled = true) :
    s.FloorRight timeout where
  below := by
    intro fl hfl f hf hlive r hr hlt
    rcases h.origin hsettled fl hfl with rfl | ⟨o, ho, rfl, hall⟩
    · exact Nat.zero_le _
    · have hbefore := h.log.increasing o ho r (h.log.registered hr) ((hall f hf hlive).trans_lt hlt)
      exact hbefore.file_le
  absent := h.absent hsettled

/-- A feeder that is live later is live now. -/
theorem MasterNode.holdsFloor_of_later {f : Feeder ν} (hlive : s'.holdsFloor timeout f = true)
    (hclock : s.clock ≤ s'.clock)
    (hnode : s'.getNode f.replicaName = some .electable →
      s.getNode f.replicaName = some .electable) : s.holdsFloor timeout f = true := by
  simp only [MasterNode.holdsFloor, Feeder.isTimedOut, Bool.and_eq_true, decide_eq_true_eq,
    Bool.not_eq_true', decide_eq_false_iff_not] at hlive ⊢
  exact ⟨hnode hlive.1, by omega⟩

/-- The floor stays; if it still takes everything into account, so do the registrations, and a live
feeder is one that was there. -/
theorem FloorInv.keep (h : FloorInv timeout s) (hfeeders : FeederInv s') (hlog : LogInv s')
    (hfloor : s'.replicationFloor = s.replicationFloor)
    (hsettled : s'.settled = true → s.settled = true ∧ s.logged ⊆ s'.logged)
    (hlive : s'.settled = true → ∀ f ∈ s'.feeders, s'.holdsFloor timeout f = true →
      f ∈ s.feeders ∧ s.holdsFloor timeout f = true ∧ (s'.isMaster = true → s.isMaster = true)) :
    FloorInv timeout s' where
  feeders := hfeeders
  log := hlog
  origin := by
    intro hset fl hfl
    obtain ⟨hold, hsub⟩ := hsettled hset
    refine (h.origin hold fl (hfloor ▸ hfl)).imp_right ?_
    rintro ⟨r, hr, hfile, hall⟩
    refine ⟨r, hsub hr, hfile, fun f hf hl => ?_⟩
    obtain ⟨hmem, hl, -⟩ := hlive hset f hf hl
    exact hall f hmem hl
  absent := by
    intro hset hnone hmaster f hf
    refine Bool.eq_false_iff.mpr fun hl => ?_
    obtain ⟨hmem, hl, hm⟩ := hlive hset f hf hl
    rw [h.absent (hsettled hset).1 (hfloor ▸ hnone) (hm hmaster) f hmem] at hl
    cases hl

/-- **A new peer**; that of an electable one on a master has to be taken into account. -/
theorem FloorInv.addPeer (h : FloorInv timeout s) (name : ν) (type : NodeType) {now : ℕ}
    (hclock : s.clock ≤ now) : FloorInv timeout (s.addPeer name type now) := by
  have hfeeders := h.feeders.addPeer name type now
  unfold MasterNode.addPeer at hfeeders ⊢
  split_ifs at hfeeders ⊢ with hname hnew
  · exact h.keep hfeeders (h.log.congr rfl rfl rfl) rfl
      (fun hset => ⟨hset, List.Subset.refl _⟩) fun _ f hf hl =>
      ⟨hf, MasterNode.holdsFloor_of_later hl hclock id, id⟩
  all_goals
    -- the types of the other peers stay
    have hold : ∀ f ∈ s.feeders,
        MasterNode.getNode
          { s with
            members := insert name s.members
            nodeType := Function.update s.nodeType name type } f.replicaName =
          s.getNode f.replicaName := by
      intro f hf
      have hmem := h.feeders.member f hf
      have hne : f.replicaName ≠ name := fun heq => hname (heq ▸ hmem)
      simp [MasterNode.getNode, hmem, hne]
  · refine h.keep hfeeders (h.log.congr rfl rfl rfl) rfl
      (fun hset => ⟨(Bool.and_eq_true_iff.mp hset).1, List.Subset.refl _⟩) fun hset f hf hl => ?_
    rcases List.mem_append.mp hf with hf | hf
    · exact ⟨hf, MasterNode.holdsFloor_of_later hl hclock (hold f hf ▸ ·), id⟩
    · -- the new feeder is not that of an electable peer
      obtain rfl := List.mem_singleton.mp hf
      have hother : type ≠ .electable := by simpa [hnew.1] using (Bool.and_eq_true_iff.mp hset).2
      simp [MasterNode.holdsFloor, MasterNode.getNode, Feeder.new, hother] at hl
  · exact h.keep hfeeders (h.log.congr rfl rfl rfl) rfl
      (fun hset => ⟨(Bool.and_eq_true_iff.mp hset).1, List.Subset.refl _⟩) fun _ f hf hl =>
      ⟨hf, MasterNode.holdsFloor_of_later hl hclock (hold f hf ▸ ·), id⟩

/-- **One event.** -/
theorem FloorInv.step (h : FloorInv timeout s) (hord : s.OrderedIn e)
    (hstep : s.step sort timeout e = some s') : FloorInv timeout s' := by
  have hfeeders := h.feeders.step hstep
  obtain ⟨htime, hstep⟩ := Option.ite_none_left_eq_some.mp hstep
  have hlog : LogInv s := h.log
  cases e with
  | recordAck vlsn name now =>
    obtain rfl := Option.some.inj hstep
    dsimp only [MasterNode.recordAck]
    rw [MasterNode.updateDtvlsnFromFeeders_eq]
    exact .recompute ((h.feeders.ack vlsn name now).congr rfl rfl rfl rfl id)
      (hlog.congr rfl rfl rfl)
  | addPeer name type now =>
    obtain rfl := Option.some.inj hstep
    exact h.addPeer name type (by simpa [MasterEvent.time?] using htime)
  | removePeer name now =>
    obtain rfl := Option.some.inj hstep
    unfold MasterNode.removePeer
    split_ifs
    · exact .recompute (h.feeders.remove name now) (hlog.congr rfl rfl rfl)
    · have hclock : s.clock ≤ now := by simpa [MasterEvent.time?] using htime
      exact h.keep (h.feeders.congr rfl rfl rfl rfl id) (hlog.congr rfl rfl rfl) rfl
        (fun hset => ⟨hset, List.Subset.refl _⟩) fun _ f hf hl =>
        ⟨hf, MasterNode.holdsFloor_of_later hl hclock id, id⟩
  | register vlsn pos entryType =>
    have hlog' := hlog.register hord hstep
    obtain ⟨index, hins, rfl⟩ := Option.map_eq_some_iff.mp hstep
    exact h.keep hfeeders hlog' rfl (fun hset => ⟨hset, List.subset_cons_self _ _⟩)
      fun _ f hf hl => ⟨hf, hl, id⟩
  | truncateAfter vlsn =>
    obtain rfl := Option.some.inj hstep
    refine h.keep hfeeders (hlog.truncateAfter hord) rfl (fun hset => ?_) fun _ f hf hl =>
      ⟨hf, hl, id⟩
    -- nothing is rolled back if the floor is to be as it was
    obtain ⟨hset, hall⟩ := Bool.and_eq_true_iff.mp hset
    exact ⟨hset, fun r hr => List.mem_filter.mpr ⟨hr, List.all_eq_true.mp hall r hr⟩⟩
  | truncateFromHead deleteEnd =>
    obtain rfl := Option.some.inj hstep
    exact h.keep hfeeders (hlog.truncateFromHead deleteEnd) rfl
      (fun hset => ⟨hset, List.Subset.refl _⟩) fun _ f hf hl => ⟨hf, hl, id⟩
  | timer now =>
    obtain rfl := Option.some.inj hstep
    exact .recompute (h.feeders.congr rfl rfl rfl rfl id) (hlog.congr rfl rfl rfl)
  | becomeMaster peers now =>
    obtain ⟨⟨hnodup, hpeers⟩, hstep⟩ := Option.ite_none_right_eq_some.mp hstep
    obtain rfl := Option.some.inj hstep
    refine h.keep hfeeders (hlog.congr rfl rfl rfl) rfl (fun hset => ?_) fun hset f hf hl => ?_
    · exact ⟨(Bool.and_eq_true_iff.mp hset).1, List.Subset.refl _⟩
    · -- none of the peers is electable
      obtain ⟨n, hn, rfl⟩ := List.mem_map.mp hf
      have hother := List.all_eq_true.mp (Bool.and_eq_true_iff.mp hset).2 n
        (List.mem_filter.mp hn).1
      have helectable := of_decide_eq_true (Bool.and_eq_true_iff.mp hl).1
      obtain ⟨-, htype⟩ := Option.ite_none_right_eq_some.mp helectable
      exact absurd (Option.some.inj htype) (of_decide_eq_true hother)
  | becomeReplica =>
    obtain rfl := Option.some.inj hstep
    exact .recompute (h.feeders.congr rfl rfl rfl rfl nofun) (hlog.congr rfl rfl rfl)

/-- **An event after which the floor is computed** takes everything into account. -/
theorem MasterNode.settled_of_recomputes (he : s.Recomputes e)
    (hstep : s.step sort timeout e = some s') : s'.settled = true := by
  obtain ⟨-, hstep⟩ := Option.ite_none_left_eq_some.mp hstep
  cases e with
  | recordAck | timer | becomeReplica =>
    obtain rfl := Option.some.inj hstep
    rfl
  | removePeer name now =>
    obtain rfl := Option.some.inj hstep
    have hmem : name ∈ s.members := he
    unfold MasterNode.removePeer
    rw [if_neg (not_not.mpr hmem)]
    rfl
  | addPeer | register | truncateAfter | truncateFromHead | becomeMaster => exact he.elim

/-- A feeder that has acknowledged nothing needs every registered file. -/
theorem MasterNode.FloorRight.open_of_waiting (h : s.FloorRight timeout)
    (hmaster : s.isMaster = true) {f : Feeder ν}
    (hf : f ∈ s.feeders) (hlive : s.holdsFloor timeout f = true) (hzero : f.ackedVlsn = 0) :
    ∃ fl, s.replicationFloor = some fl ∧ ∀ r ∈ s.registered, 0 < r.1 → fl ≤ r.2.1 := by
  cases hfl : s.replicationFloor with
  | none =>
    rw [h.absent hfl hmaster f hf] at hlive
    cases hlive
  | some fl => exact ⟨fl, rfl, fun r hr hpos => h.below fl hfl f hf hlive r hr (hzero ▸ hpos)⟩

end Floor

/-- **When the floor is right.** In every run whose registrations are in the order of the log and
uncover nothing that a roll-back has left in the index, the floor is right after every event after
which it is computed, and in every state in which no feeder of an electable peer has been made and
nothing has been rolled back since. While there is a live feeder that has acknowledged nothing, it
is right only if no registered file is below it. -/
theorem floor_right_settled [DecidableEq ν] (sort : UnstableSort)
    (timeout dtvlsn bucketStride : ℕ) (hstride : 0 < bucketStride) (events : List (MasterEvent ν))
    (s : MasterNode ν)
    (hord : Meets (MasterNode.step sort timeout) MasterNode.OrderedIn (.start dtvlsn bucketStride)
      events)
    (hrun : run (MasterNode.step sort timeout) (.start dtvlsn bucketStride) events = some s) :
    (s.settled = true → s.FloorRight timeout) ∧
    (∀ e s', s.OrderedIn e → s.Recomputes e → s.step sort timeout e = some s' →
      s'.FloorRight timeout) ∧
    (s.FloorRight timeout → s.isMaster = true → ∀ f ∈ s.feeders,
      s.holdsFloor timeout f = true → f.ackedVlsn = 0 →
      ∃ fl, s.replicationFloor = some fl ∧ ∀ r ∈ s.registered, 0 < r.1 → fl ≤ r.2.1) := by
  have h : FloorInv timeout s :=
    run_invariant (fun _ _ _ h hok hstep => h.step hok hstep) (floorInv_start dtvlsn hstride)
      hord hrun
  refine ⟨h.floorRight, fun e s' hok he hstep => ?_,
    fun hright hmaster f hf hlive hzero => hright.open_of_waiting hmaster hf hlive hzero⟩
  exact (h.step hok hstep).floorRight (MasterNode.settled_of_recomputes he hstep)

/-- Two VLSNs in files 0 and 5, both acknowledged by a peer, then a second peer. -/
def lateJoiner : List (MasterEvent ℕ) :=
  [.addPeer 0 .electable 0, .register 1 (0, 10) none, .register 2 (5, 10) none, .recordAck 2 0 1,
    .addPeer 1 .electable 2]

/-- A roll-back behind VLSN 1 leaves the mappings of VLSNs 11 and 20 behind; VLSN 15 is registered
before VLSN 11 is again. -/
def rolledBack : List (MasterEvent ℕ) :=
  [.addPeer 0 .electable 0, .register 1 (0, 10) none, .register 11 (5, 10) none,
    .register 20 (9, 10) none, .truncateAfter 1, .register 15 (0, 20) none,
    .register 16 (0, 30) none, .recordAck 15 0 1]

/-- The acknowledgement of the second peer brings the floor down. -/
theorem floor_right_after_ack :
    ∃ s, run (MasterNode.step insertionSorter 60) (.start 0 10)
        (lateJoiner ++ [.recordAck 1 1 3]) = some s ∧
      s.replicationFloor = some 0 ∧ s.FloorRight 60 :=
  ⟨_, rfl, rfl, (floor_right_settled insertionSorter 60 0 10 (by decide)
    (lateJoiner ++ [.recordAck 1 1 3]) _ (by decide) rfl).1 rfl⟩

/-- **The floor is above a file that is needed.** In the first run the second peer needs file 0, and
the floor is at file 5. In the second the peer has acknowledged VLSN 15 and needs VLSN 16 in file 0,
and the floor has just been computed from the position of VLSN 11 before the roll-back. -/
theorem floor_above_needed_file :
    (∃ s, run (MasterNode.step insertionSorter 60) (.start 0 10) lateJoiner = some s ∧
      s.isMaster = true ∧ s.replicationFloor = some 5 ∧ (1, (0, 10)) ∈ s.registered ∧
      ¬ s.FloorRight 60) ∧
    ∃ s, run (MasterNode.step insertionSorter 60) (.start 0 10) rolledBack = some s ∧
      s.isMaster = true ∧ s.replicationFloor = some 5 ∧ (16, (0, 30)) ∈ s.registered ∧
      ¬ s.FloorRight 60 := by
  refine ⟨⟨_, rfl, rfl, rfl, by decide, fun hright => ?_⟩,
    ⟨_, rfl, rfl, rfl, by decide, fun hright => ?_⟩⟩
  · have hle := hright.below 5 rfl (.new 1 2) (by decide) (by decide) (1, (0, 10)) (by decide)
      (by decide)
    exact absurd hle (by decide)
  · have hle := hright.below 5 rfl ((Feeder.new 0 0).recordAck 15 1) (by decide) (by decide)
      (16, (0, 30)) (by decide) (by decide)
    exact absurd hle (by decide)

end Noxu
