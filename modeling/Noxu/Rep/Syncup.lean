import Noxu.Rep.SyncupLog
import Noxu.Rep.VlsnIndex

/-!
# Syncup

A replica that connects to a feeder looks for the matchpoint, the last sync point on which both
logs agree, and rolls its own log back to it. Three gates may refuse: the table of the last
transaction end that the VLSN index knows, the transaction ends that the scan of the log has
passed, and the types of the entries behind the matchpoint. The rollback logs its start, makes the
entries invisible, logs its end and truncates the index.

**The writes to the log are skipped when there is no matchpoint**, and only the entries of the
view are made invisible, not those that a later entry with the same VLSN has replaced there. If
the log cannot be scanned, the index takes the place of the view, and the types are not looked at.

## Main results

* `syncup_safe_iff`: when a rollback is safe and complete;
* `syncup_leaves_log`: a rollback without a matchpoint leaves the log as it was.
-/

open Noxu.Library

namespace Noxu

/-! ### The matchpoint -/

/-- What the search reads of an entry. -/
structure VlsnEntry where
  lsn : LogPos
  fingerprint : ℕ
  isSync : Bool
  deriving DecidableEq

/-- What the search reads of a node; 0 is the null VLSN. -/
structure SyncupView where
  lastSync : ℕ
  firstVlsn : ℕ
  entry : ℕ → Option VlsnEntry

/-- The log as a view. -/
def SyncupLogView.toView (crc : List UInt8 → UInt32) (v : SyncupLogView) : SyncupView where
  lastSync := v.lastSync
  firstVlsn := v.first
  entry := fun vlsn =>
    (v.entries.find? fun e => e.vlsn == vlsn).map fun e => ⟨e.pos, e.fingerprint crc, e.isSync⟩

/-- The index as a view; the position takes the place of the fingerprint. -/
def VlsnIndex.toView (ix : VlsnIndex) : SyncupView where
  lastSync := ix.range.syncVlsn
  firstVlsn := ix.range.first
  entry := fun vlsn =>
    (ix.getLsn vlsn).map fun pos =>
      ⟨pos, makeLsn pos.1 pos.2, decide (vlsn ≤ ix.range.syncVlsn)⟩

/-- The result of the search. -/
inductive Matchpoint where
  | found (vlsn : ℕ) (lsn : LogPos)
  | none
  deriving DecidableEq

namespace Matchpoint

/-- The VLSN, or the null one. -/
def vlsn : Matchpoint → ℕ
  | found vlsn _ => vlsn
  | none => 0

/-- The position, or none. -/
def lsn : Matchpoint → LogPos
  | found _ lsn => lsn
  | none => noOffset

end Matchpoint

/-- Compare an entry with the one of the feeder. -/
def sameRecord (feeder : ℕ → Option VlsnEntry) (vlsn : ℕ) (e : VlsnEntry) : Bool :=
  (feeder vlsn).any fun f => f.fingerprint == e.fingerprint

/-- Go down through the sync points at or below a VLSN. -/
def searchDown (replica : SyncupView) (feeder : ℕ → Option VlsnEntry) : ℕ → Matchpoint
  | 0 => .none
  | v + 1 =>
    if v + 1 < replica.firstVlsn then .none
    else
      match (replica.entry (v + 1)).filter VlsnEntry.isSync with
      | some e =>
        if sameRecord feeder (v + 1) e then .found (v + 1) e.lsn
        else searchDown replica feeder v
      | none => searchDown replica feeder v

/-- The last sync point on which the replica and the feeder agree. -/
def findMatchpoint (replica : SyncupView) (feeder : ℕ → Option VlsnEntry) : Matchpoint :=
  if replica.lastSync = 0 then .none
  else
    match replica.entry replica.lastSync with
    | some e =>
      if sameRecord feeder replica.lastSync e then .found replica.lastSync e.lsn
      else searchDown replica feeder (replica.lastSync - 1)
    | none => .none

/-! ### The gates -/

/-- What the replica does next. -/
inductive RollbackDecision where
  | rollbackToMatchpoint (matchpointVlsn startVlsn : ℕ)
  | hardRecovery (matchpointVlsn lastTxnEnd : ℕ)
  | networkRestore
  deriving DecidableEq

/-- Roll back to a VLSN and go on behind it. -/
def rollbackTo (matchpointVlsn : ℕ) : RollbackDecision :=
  .rollbackToMatchpoint matchpointVlsn (matchpointVlsn + 1)

/-- The table of the last transaction end and the matchpoint. -/
def verifyRollback (matchpointVlsn lastTxnEnd lastSync numPassedCommits : ℕ) :
    RollbackDecision :=
  if lastTxnEnd = 0 then
    if lastSync = 0 ∧ matchpointVlsn ≠ 0 then .networkRestore else rollbackTo matchpointVlsn
  else if matchpointVlsn = 0 then .networkRestore
  else if lastTxnEnd ≤ matchpointVlsn ∧ numPassedCommits = 0 then rollbackTo matchpointVlsn
  else .hardRecovery matchpointVlsn lastTxnEnd

namespace LogEntryType

/-- The types that belong to a transaction. -/
def isTransactional : LogEntryType → Bool
  | insertLNTxn | updateLNTxn | deleteLNTxn | nameLNTxn | txnCommit | txnAbort | txnPrepare => true
  | _ => false

end LogEntryType

/-- Why a tail is not discarded: each text of the source with what it names. -/
inductive RefuseReason where
  | unrecognisedType (vlsn : ℕ)
  | transactionEnd (entryType : LogEntryType) (vlsn : ℕ)
  | nonTransactionalLn (entryType : LogEntryType) (vlsn : ℕ)
  | structuralEntry (entryType : LogEntryType) (vlsn : ℕ)
  deriving DecidableEq

/-- Whether an entry of the tail forbids to discard it. -/
def refuseEntry (vlsn : ℕ) : Option LogEntryType → Option RefuseReason
  | none => some (.unrecognisedType vlsn)
  | some t =>
    if t.isTxnEnd then some (.transactionEnd t vlsn)
    else if t.isLnType && t.isTransactional then none
    else if t.isLnType then some (.nonTransactionalLn t vlsn)
    else some (.structuralEntry t vlsn)

/-- The first reason not to discard the tail. -/
def classifyTail (tail : List (ℕ × Option LogEntryType)) : Option RefuseReason :=
  tail.findSome? fun e => refuseEntry e.1 e.2

/-! ### The rollback -/

/-- A replica: whether it has a log manager, whether its log can be opened and listed, its log and
its VLSN index. -/
structure SyncupNode where
  logManager : Bool
  scannable : Bool
  log : ReplicaLog
  index : VlsnIndex

/-- An entry that the rollback logs, and whether it goes to a new file. -/
structure RollbackWrite where
  payload : List UInt8
  newFile : Bool

/-- Where the writes of a rollback fail. -/
inductive RollbackFault where
  | start
  /-- with the entries that were already marked -/
  | makeInvisible (marked : List LogPos)
  | force
  | finish

/-- What the writes of a rollback depend on. -/
structure RollbackIo where
  start : RollbackWrite
  finish : RollbackWrite
  fault : Option RollbackFault

/-- The log entry of a write. -/
def rollbackEntry (entryType : LogEntryType) (w : RollbackWrite) : RawEntry :=
  ⟨entryType.typeNum, 0, 0, w.payload⟩

/-- Log a write. -/
def ReplicaLog.logRollback (log : ReplicaLog) (entryType : LogEntryType) (w : RollbackWrite) :
    ReplicaLog :=
  log.append w.newFile (rollbackEntry entryType w)

/-- The log after the steps of a rollback, and whether all of them succeeded. -/
def rollback (io : RollbackIo) (log : ReplicaLog) (lsns : List LogPos) : ReplicaLog × Bool :=
  let started := log.logRollback .rollbackStart io.start
  match io.fault with
  | some .start => (log, false)
  | some (.makeInvisible marked) => (started.makeInvisible marked, false)
  | some .force | some .finish => (started.makeInvisible lsns, false)
  | none => ((started.makeInvisible lsns).logRollback .rollbackEnd io.finish, true)

/-- What a syncup comes to. -/
inductive SyncupAction where
  | rolledBack (matchpointVlsn startVlsn : ℕ)
  | divergedRefused (matchpointVlsn tailLen : ℕ) (reason : RefuseReason)
  | needsRestore
  deriving DecidableEq

namespace SyncupNode

variable (crc : List UInt8 → UInt32) (sort : UnstableSort) (n : SyncupNode)
  (feeder : ℕ → Option VlsnEntry)

/-- The log as the scan shows it, if it can be scanned. -/
def logView : Option SyncupLogView := if n.scannable then some (.ofScan n.log.scan) else none

/-- The view of the log, or of the index in its place. -/
def replicaView : SyncupView :=
  match n.logView with
  | some v => v.toView crc
  | none => n.index.toView

/-- The matchpoint of the views. -/
def matchpoint : Matchpoint := findMatchpoint (n.replicaView crc) feeder

/-- The transaction ends of the view behind the matchpoint. -/
def numPassedCommits : ℕ :=
  match n.logView, n.matchpoint crc feeder with
  | some v, .found vlsn _ => v.txnEndVlsns.countP fun u => decide (vlsn < u)
  | _, _ => 0

/-- What the gates make of it. -/
def decision : RollbackDecision :=
  verifyRollback (n.matchpoint crc feeder).vlsn n.index.range.commitVlsn n.index.range.syncVlsn
    (n.numPassedCommits crc feeder)

/-- The types of the entries of the view behind a VLSN. -/
def tailTypes (matchpointVlsn : ℕ) : List (ℕ × Option LogEntryType) :=
  match n.logView with
  | some v =>
    (v.entries.filter fun e => decide (matchpointVlsn < e.vlsn)).map fun e => (e.vlsn, e.type?)
  | none => []

/-- The positions behind a VLSN, of the view or, sparsely, of the index. -/
def rollbackLsns (matchpointVlsn : ℕ) : List LogPos :=
  match n.logView with
  | some v => (v.entries.filter fun e => decide (matchpointVlsn < e.vlsn)).map ScannedEntry.pos
  | none =>
    ((n.index.snapshotEntries sort).filter fun e => decide (matchpointVlsn < e.1)).map Prod.snd

/-- Roll back the log, if there are a log manager and a matchpoint, and the index; reports whether
the writes succeeded. -/
def executeRollback (io : RollbackIo) (matchpointVlsn : ℕ) (matchpointLsn : LogPos)
    (lsns : List LogPos) : SyncupNode × Bool :=
  if n.logManager ∧ matchpointLsn ≠ noOffset then
    match rollback io n.log lsns with
    | (log, true) => ({ n with log := log, index := n.index.truncateAfter matchpointVlsn }, true)
    | (log, false) => ({ n with log := log }, false)
  else ({ n with index := n.index.truncateAfter matchpointVlsn }, true)

/-- Bring the replica into line with the feeder; no action stands for an error of the rollback. -/
def syncupWithFeeder (io : RollbackIo) : SyncupNode × Option SyncupAction :=
  match n.decision crc feeder with
  | .rollbackToMatchpoint matchpointVlsn startVlsn =>
    let tail := n.tailTypes matchpointVlsn
    match classifyTail tail with
    | some reason => (n, some (.divergedRefused matchpointVlsn tail.length reason))
    | none =>
      match n.executeRollback io matchpointVlsn (n.matchpoint crc feeder).lsn
          (n.rollbackLsns sort matchpointVlsn) with
      | (n', true) => (n', some (.rolledBack matchpointVlsn startVlsn))
      | (n', false) => (n', none)
  | .hardRecovery _ _ | .networkRestore => (n, some .needsRestore)

end SyncupNode

/-! ### Safe and complete rollbacks -/

/-- A transactional LN: the replica buffers it until its commit. -/
def ScannedEntry.TransactionalLn (e : ScannedEntry) : Prop :=
  ∃ t, e.type? = some t ∧ t.isLnType = true ∧ t.isTransactional = true

/-- The index reports no VLSN above one. -/
def VlsnIndex.EndsAt (ix : VlsnIndex) (vlsn : ℕ) : Prop :=
  (ix.range.isEmpty = true ∨ ix.range.last ≤ vlsn) ∧
    ∀ v, vlsn < v → ix.getLsn v = none ∧ ix.getExactLsn v = none ∧ ix.getGteLsn v = none

/-- What a replica may rely on: a rollback leaves nothing behind the matchpoint and has dropped
nothing but transactional LNs, and when there is no rollback, nothing has changed. -/
def SyncupSafe (n n' : SyncupNode) : Option SyncupAction → Prop
  | some (.rolledBack m _) =>
    (∀ e ∈ n.log.scan, m < e.vlsn → e.isTxnEnd = false ∧ e.TransactionalLn) ∧
      (∀ e ∈ n'.log.scan, e.vlsn ≤ m) ∧ n'.index.EndsAt m
  | some (.divergedRefused _ _ _) | some .needsRestore => n' = n
  | none => True

namespace SyncupNode

variable (crc : List UInt8 → UInt32) (sort : UnstableSort) (n : SyncupNode)
  (feeder : ℕ → Option VlsnEntry)

/-- The gates let the replica roll back to a VLSN. -/
def MayRollBackTo (m : ℕ) : Prop :=
  n.decision crc feeder = rollbackTo m ∧ classifyTail (n.tailTypes m) = none

/-- The marking reaches every visible entry above a VLSN: none of them is replaced in the view
by one with the same VLSN or, if there is no view, each is a transactional LN at a position that
the index has stored. -/
def Reaches (m : ℕ) : Prop :=
  if n.scannable then
    ∀ e₁ ∈ n.log.scan, ∀ e₂ ∈ n.log.scan, m < e₁.vlsn → e₁.vlsn = e₂.vlsn → e₁ = e₂
  else
    ∀ e ∈ n.log.scan, m < e.vlsn →
      e.TransactionalLn ∧ ∃ u, m < u ∧ (u, e.pos) ∈ n.index.snapshotEntries sort

end SyncupNode

section Gates

variable {t : LogEntryType} {tail : List (ℕ × Option LogEntryType)}

theorem isTxnEnd_eq_false_of_isLnType (h : t.isLnType = true) : t.isTxnEnd = false := by
  cases t <;> first | rfl | cases h

theorem refuseEntry_eq_none_iff {vlsn : ℕ} {t? : Option LogEntryType} :
    refuseEntry vlsn t? = none ↔
      ∃ t, t? = some t ∧ t.isLnType = true ∧ t.isTransactional = true := by
  cases t? with
  | none => simp [refuseEntry]
  | some t =>
    by_cases hln : t.isLnType = true
    · have hend := isTxnEnd_eq_false_of_isLnType hln
      by_cases htxn : t.isTransactional = true <;> simp [refuseEntry, hend, hln, htxn]
    · simp only [Bool.not_eq_true] at hln
      by_cases hend : t.isTxnEnd = true <;> simp [refuseEntry, hend, hln]

/-- **The tail is discarded** if all of its entries are transactional LNs. -/
theorem classifyTail_eq_none_iff :
    classifyTail tail = none ↔
      ∀ e ∈ tail, ∃ t, e.2 = some t ∧ t.isLnType = true ∧ t.isTransactional = true := by
  rw [classifyTail, List.findSome?_eq_none_iff]
  exact forall₂_congr fun e _ => refuseEntry_eq_none_iff

theorem ScannedEntry.TransactionalLn.isTxnEnd {e : ScannedEntry} (h : e.TransactionalLn) :
    e.isTxnEnd = false := by
  obtain ⟨t, ht, hln, -⟩ := h
  rw [ScannedEntry.isTxnEnd, ht]
  exact isTxnEnd_eq_false_of_isLnType hln

end Gates

/-- **A truncated index ends at the VLSN.** -/
theorem VlsnIndex.endsAt_truncateAfter (ix : VlsnIndex) (vlsn : ℕ) :
    (ix.truncateAfter vlsn).EndsAt vlsn := by
  have hrange : (ix.truncateAfter vlsn).range.isEmpty = true ∨
      (ix.truncateAfter vlsn).range.last ≤ vlsn := by
    show (ix.range.truncateAfter vlsn).isEmpty = true ∨ (ix.range.truncateAfter vlsn).last ≤ vlsn
    unfold VlsnRange.truncateAfter
    split
    · exact Or.inl rfl
    · split
      · next hfirst => exact Or.inl (by simp [VlsnRange.isEmpty, hfirst])
      · exact Or.inr le_rfl
  refine ⟨hrange, fun v hv => ?_⟩
  set ix' := ix.truncateAfter vlsn
  have hcontains : ix'.range.contains v = false := by
    rw [Bool.eq_false_iff, Ne, VlsnRange.contains_iff]
    rintro ⟨hfirst, -, hle⟩
    rcases hrange with hempty | hlast
    · exact hfirst (by simpa [VlsnRange.isEmpty] using hempty)
    · omega
  have hgte : (ix'.range.isEmpty || decide (ix'.range.last < v)) = true := by
    rcases hrange with hempty | hlast
    · rw [hempty, Bool.true_or]
    · rw [decide_eq_true (by omega), Bool.or_true]
  have hne : v ≠ 0 := by omega
  refine ⟨?_, ?_, ?_⟩
  · rw [VlsnIndex.getLsn, if_neg hne, if_pos (by rw [hcontains]; rfl)]
  · rw [VlsnIndex.getExactLsn, if_neg hne, if_pos (by rw [hcontains]; rfl)]
  · rw [VlsnIndex.getGteLsn, if_neg hne, if_pos hgte]

/-- The entries of a rollback carry no VLSN. -/
theorem scan_logRollback (log : ReplicaLog) (t : LogEntryType) (w : RollbackWrite) :
    (log.logRollback t w).scan = log.scan := by
  refine log.scan_append w.newFile ?_
  simp [rollbackEntry, RawEntry.visibleVlsn, invisibleFlag, vlsnPresent]

/-- A scan after a rollback that succeeds finds the entries that it has not marked. -/
theorem scan_rollback {io : RollbackIo} (h : io.fault = none) (log : ReplicaLog)
    (lsns : List LogPos) :
    (rollback io log lsns).2 = true ∧
      (rollback io log lsns).1.scan = log.scan.filter fun x => decide (x.pos ∉ lsns) := by
  unfold rollback
  simp only [h, true_and]
  rw [scan_logRollback, ReplicaLog.scan_makeInvisible, scan_logRollback]

theorem rollback_fails {io : RollbackIo} (h : io.fault ≠ none) (log : ReplicaLog)
    (lsns : List LogPos) : (rollback io log lsns).2 = false := by
  unfold rollback
  split <;> first | rfl | exact absurd (by assumption) h

section Exact

variable {crc : List UInt8 → UInt32} {sort : UnstableSort} {n : SyncupNode}
  {feeder : ℕ → Option VlsnEntry} {m : ℕ}

open SyncupNode

/-- With a view, the marking reaches an entry if it is the one of the view. -/
theorem mem_rollbackLsns_iff (hscan : n.scannable = true) {e : ScannedEntry}
    (he : e ∈ n.log.scan) (hm : m < e.vlsn) :
    e.pos ∈ n.rollbackLsns sort m ↔ e ∈ viewEntries n.log.scan := by
  simp only [rollbackLsns, logView, hscan, if_true, SyncupLogView.ofScan, List.mem_map,
    List.mem_filter, decide_eq_true_eq]
  constructor
  · rintro ⟨x, ⟨hx, -⟩, hpos⟩
    rwa [← ReplicaLog.pos_inj (mem_of_mem_viewEntries hx) he hpos]
  · exact fun h => ⟨e, ⟨h, hm⟩, rfl⟩

/-- With a view, the gate looks at the entries of the view. -/
theorem transactionalLn_of_view (hscan : n.scannable = true)
    (hgate : classifyTail (n.tailTypes m) = none) {e : ScannedEntry}
    (he : e ∈ viewEntries n.log.scan) (hm : m < e.vlsn) : e.TransactionalLn := by
  refine classifyTail_eq_none_iff.1 hgate (e.vlsn, e.type?) ?_
  simp only [tailTypes, logView, hscan, if_true, SyncupLogView.ofScan]
  exact List.mem_map.2 ⟨e, List.mem_filter.2 ⟨he, decide_eq_true hm⟩, rfl⟩

/-- **What the marking has to reach** for the rollback to be safe and complete. -/
theorem reaches_iff (hgate : classifyTail (n.tailTypes m) = none) :
    ((∀ e ∈ n.log.scan, m < e.vlsn → e.isTxnEnd = false ∧ e.TransactionalLn) ∧
      ∀ e ∈ n.log.scan.filter fun x => decide (x.pos ∉ n.rollbackLsns sort m), e.vlsn ≤ m) ↔
      n.Reaches sort m := by
  have hmarked : (∀ e ∈ n.log.scan.filter fun x => decide (x.pos ∉ n.rollbackLsns sort m),
      e.vlsn ≤ m) ↔ ∀ e ∈ n.log.scan, m < e.vlsn → e.pos ∈ n.rollbackLsns sort m := by
    simp only [List.mem_filter, decide_eq_true_eq, and_imp, ← Nat.not_lt]
    exact forall₂_congr fun e _ => not_imp_not
  rw [hmarked]
  unfold SyncupNode.Reaches
  split
  · next hscan =>
    constructor
    · rintro ⟨-, hall⟩ e₁ h₁ e₂ h₂ hm heq
      have hview := fun e he hm => (mem_rollbackLsns_iff hscan he hm).1 (hall e he hm)
      exact viewEntries_inj (hview e₁ h₁ hm) (hview e₂ h₂ (heq ▸ hm)) heq
    · intro hone
      have hview : ∀ e ∈ n.log.scan, m < e.vlsn → e ∈ viewEntries n.log.scan := by
        intro e he hm
        obtain ⟨x, hx, heq⟩ := exists_mem_viewEntries he
        rwa [hone e he x (mem_of_mem_viewEntries hx) hm heq.symm]
      refine ⟨fun e he hm => ?_, fun e he hm =>
        (mem_rollbackLsns_iff hscan he hm).2 (hview e he hm)⟩
      have hln := transactionalLn_of_view hscan hgate (hview e he hm) hm
      exact ⟨hln.isTxnEnd, hln⟩
  · next hscan =>
    have hlsns : ∀ pos, pos ∈ n.rollbackLsns sort m ↔
        ∃ u, m < u ∧ (u, pos) ∈ n.index.snapshotEntries sort := by
      intro pos
      simp [rollbackLsns, logView, hscan, and_comm]
    constructor
    · rintro ⟨hln, hall⟩ e he hm
      exact ⟨(hln e he hm).2, (hlsns e.pos).1 (hall e he hm)⟩
    · intro h
      refine ⟨fun e he hm => ?_, fun e he hm => (hlsns e.pos).2 (h e he hm).2⟩
      exact ⟨(h e he hm).1.isTxnEnd, (h e he hm).1⟩

/-- Every rollback starts the stream right behind the matchpoint. -/
theorem eq_rollbackTo {a b c d start : ℕ}
    (h : verifyRollback a b c d = .rollbackToMatchpoint m start) :
    verifyRollback a b c d = rollbackTo m := by
  unfold verifyRollback rollbackTo at *
  split_ifs at h ⊢ <;> grind

/-- When the gates refuse, nothing changes. -/
theorem syncupSafe_of_refused {io : RollbackIo} (h : ∀ m, ¬n.MayRollBackTo crc feeder m) :
    SyncupSafe n (n.syncupWithFeeder crc sort feeder io).1
      (n.syncupWithFeeder crc sort feeder io).2 := by
  unfold syncupWithFeeder
  split
  · next m start hdec =>
    dsimp only
    split
    · exact rfl
    · next hgate => exact absurd ⟨eq_rollbackTo hdec, hgate⟩ (h m)
  · exact rfl
  · exact rfl

theorem syncup_of_mayRollBackTo {io : RollbackIo} (h : n.MayRollBackTo crc feeder m) :
    n.syncupWithFeeder crc sort feeder io =
      match n.executeRollback io m (n.matchpoint crc feeder).lsn (n.rollbackLsns sort m) with
      | (n', true) => (n', some (.rolledBack m (m + 1)))
      | (n', false) => (n', none) := by
  unfold syncupWithFeeder
  rw [h.1]
  dsimp only [rollbackTo]
  rw [h.2]

theorem eq_of_mayRollBackTo {m' : ℕ} (h : n.MayRollBackTo crc feeder m)
    (h' : n.MayRollBackTo crc feeder m') : m' = m := by
  have heq := h'.1.symm.trans h.1
  unfold rollbackTo at heq
  injection heq

section Execute

variable {io : RollbackIo} {lsn : LogPos} (m : ℕ) (lsns : List LogPos)

/-- The writes to the log succeed. -/
theorem executeRollback_ok (h : n.logManager = true ∧ lsn ≠ noOffset) (hio : io.fault = none) :
    ∃ log : ReplicaLog,
      n.executeRollback io m lsn lsns =
        ({ n with log := log, index := n.index.truncateAfter m }, true) ∧
      log.scan = n.log.scan.filter fun x => decide (x.pos ∉ lsns) := by
  obtain ⟨hok, hscan⟩ := scan_rollback hio n.log lsns
  refine ⟨(rollback io n.log lsns).1, ?_, hscan⟩
  rw [executeRollback, if_pos h]
  generalize rollback io n.log lsns = r at hok
  obtain ⟨log, ok⟩ := r
  obtain rfl : ok = true := hok
  rfl

theorem executeRollback_fails (h : n.logManager = true ∧ lsn ≠ noOffset)
    (hio : io.fault ≠ none) : ∃ n', n.executeRollback io m lsn lsns = (n', false) := by
  have hfails := rollback_fails hio n.log lsns
  rw [executeRollback, if_pos h]
  generalize rollback io n.log lsns = r at hfails
  obtain ⟨log, ok⟩ := r
  obtain rfl : ok = false := hfails
  exact ⟨_, rfl⟩

end Execute

/-- **A syncup is safe and complete** exactly if, when the gates let it roll back, there is nothing
visible behind the matchpoint, or there are a log manager and a matchpoint and the marking reaches
every visible entry behind it. -/
theorem syncup_safe_iff (crc : List UInt8 → UInt32) (sort : UnstableSort) (n : SyncupNode)
    (feeder : ℕ → Option VlsnEntry) (io : RollbackIo) :
    SyncupSafe n (n.syncupWithFeeder crc sort feeder io).1
        (n.syncupWithFeeder crc sort feeder io).2 ↔
      ∀ m, n.MayRollBackTo crc feeder m →
        (∀ e ∈ n.log.scan, e.vlsn ≤ m) ∨
          n.logManager = true ∧ (n.matchpoint crc feeder).lsn ≠ noOffset ∧
            (io.fault ≠ none ∨ n.Reaches sort m) := by
  by_cases hroll : ∃ m, n.MayRollBackTo crc feeder m
  swap
  · have hnone : ∀ m, ¬n.MayRollBackTo crc feeder m := fun m hm => hroll ⟨m, hm⟩
    exact iff_of_true (syncupSafe_of_refused hnone) fun m hm => absurd hm (hnone m)
  obtain ⟨m, hm⟩ := hroll
  have hone : ∀ {P : ℕ → Prop}, (∀ m', n.MayRollBackTo crc feeder m' → P m') ↔ P m :=
    ⟨fun h => h m hm, fun h m' hm' => eq_of_mayRollBackTo hm hm' ▸ h⟩
  rw [hone, syncup_of_mayRollBackTo hm]
  by_cases hdurable : n.logManager = true ∧ (n.matchpoint crc feeder).lsn ≠ noOffset
  · by_cases hio : io.fault = none
    · obtain ⟨log, hexec, hscan⟩ := executeRollback_ok m (n.rollbackLsns sort m) hdurable hio
      rw [hexec]
      simp only [SyncupSafe, hscan, n.index.endsAt_truncateAfter m, and_true]
      rw [reaches_iff hm.2]
      constructor
      · exact fun h => Or.inr ⟨hdurable.1, hdurable.2, Or.inr h⟩
      · rintro (hnothing | ⟨-, -, hfault | hreach⟩)
        · refine (reaches_iff hm.2).1 ⟨fun e he hlt => ?_, fun e he => ?_⟩
          · exact absurd (hnothing e he) (Nat.not_le.2 hlt)
          · exact hnothing e (List.mem_filter.1 he).1
        · exact absurd hio hfault
        · exact hreach
    · obtain ⟨n', hexec⟩ := executeRollback_fails m (n.rollbackLsns sort m) hdurable hio
      rw [hexec]
      exact iff_of_true trivial (Or.inr ⟨hdurable.1, hdurable.2, Or.inl hio⟩)
  · rw [executeRollback, if_neg hdurable]
    simp only [SyncupSafe, n.index.endsAt_truncateAfter m, and_true]
    constructor
    · exact fun h => Or.inl h.2
    · rintro (hnothing | ⟨hmanager, hlsn, -⟩)
      · exact ⟨fun e he hlt => absurd (hnothing e he) (Nat.not_le.2 hlt), hnothing⟩
      · exact absurd ⟨hmanager, hlsn⟩ hdurable

end Exact

/-! ### A rollback without a matchpoint -/

/-- A replica that has logged one insertion of an open transaction. -/
def openInsertion : SyncupNode where
  logManager := true
  scannable := true
  log := ⟨[⟨0, fileHeaderSize, [.entry ⟨LogEntryType.insertLNTxn.typeNum, 0x08, 1, []⟩]⟩],
    List.pairwise_singleton _ _⟩
  index := ((VlsnIndex.new 10).insert insertionSorter 1 (0, 36) (some .insertLNTxn)).getD (.new 10)

/-- Two markers with an empty payload. -/
def emptyMarkers : RollbackIo := ⟨⟨[], false⟩, ⟨[], false⟩, none⟩

/-- The syncup of the replica with a feeder that has none of its entries. -/
def syncupOpenInsertion : SyncupNode × Option SyncupAction :=
  openInsertion.syncupWithFeeder (fun _ => 0) insertionSorter (fun _ => none) emptyMarkers

/-- The insertion is **still visible in the log** after the replica has been rolled back to the
null VLSN, and is gone from the index. -/
theorem syncup_leaves_log :
    syncupOpenInsertion.2 = some (.rolledBack 0 1) ∧
      syncupOpenInsertion.1.log.scan.map ScannedEntry.vlsn = [1] ∧
      syncupOpenInsertion.1.index.range.isEmpty = true ∧
      ¬SyncupSafe openInsertion syncupOpenInsertion.1 syncupOpenInsertion.2 := by
  have haction : syncupOpenInsertion.2 = some (.rolledBack 0 1) := by decide +kernel
  have hscan : syncupOpenInsertion.1.log.scan.map ScannedEntry.vlsn = [1] := by decide +kernel
  refine ⟨haction, hscan, by decide +kernel, fun hsafe => ?_⟩
  rw [haction] at hsafe
  obtain ⟨e, he, hone⟩ := List.mem_map.1 (hscan ▸ List.mem_singleton_self 1)
  have := hsafe.2.1 e he
  omega

end Noxu
