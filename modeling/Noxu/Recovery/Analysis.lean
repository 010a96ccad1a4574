import Mathlib.Data.Finset.Basic
import Mathlib.Logic.Function.Basic
import Noxu.Recovery.Redo

/-!
# The Analysis Pass

The log as recovery reads it, and the forward scan that collects what the later passes
need: the fate of each transaction, the boundaries of the last checkpoint, the databases
that have records, and the catalog of database names.

## Main results

* `AnalysisResult.process_fates`: which entries change what the pass knows of transactions;
* `runAnalysis_committed`: the commits the scan finds are those the log records.
-/

namespace Noxu

/-! ### The log -/

/-- A record of the name catalog: a database name bound to an identifier, or removed. -/
structure NameLnRecord where
  /-- The database name. -/
  name : String
  /-- The identifier the name is bound to. -/
  dbId : ℕ
  /-- The name is removed. -/
  isDeleted : Bool
  /-- The writing transaction, if any. -/
  txnId : Option ℕ
deriving DecidableEq, Repr

/-- The end of a checkpoint. -/
structure CkptEndRecord where
  /-- Where the checkpoint started. -/
  checkpointStartLsn : Lsn
  /-- The first record of a transaction active at the start. -/
  firstActiveLsn : Lsn
  /-- The root logged for each open database. -/
  perDbRoots : List (ℕ × Lsn)
deriving DecidableEq, Repr

/-- An entry of the log. -/
inductive LogEntry where
  | ln (rec : LnRecord)
  | txnCommit (txnId : ℕ)
  | txnAbort (txnId : ℕ)
  | txnPrepare (txnId : ℕ)
  | ckptStart
  | ckptEnd (rec : CkptEndRecord)
  | nameLn (rec : NameLnRecord)
deriving DecidableEq, Repr

/-- An entry at its position. -/
structure PositionedEntry where
  /-- The position. -/
  lsn : Lsn
  /-- The entry. -/
  entry : LogEntry
deriving DecidableEq, Repr

/-- The forward scan from a position to the end of the log. -/
def scanForward (log : List PositionedEntry) (start : Lsn) : List PositionedEntry :=
  log.filter fun e => decide (start ≤ e.lsn)

/-! ### The result of the analysis -/

/-- What the analysis pass collects. -/
structure AnalysisResult where
  /-- Start of the last checkpoint. -/
  checkpointStartLsn : Lsn
  /-- End of the last checkpoint. -/
  checkpointEndLsn : Lsn
  /-- Where the scans begin. -/
  firstActiveLsn : Lsn
  /-- The roots of the last checkpoint. -/
  perDbRoots : List (ℕ × Lsn)
  /-- Committed transactions with the position of the commit. -/
  committedTxns : ℕ → Option Lsn
  /-- Aborted transactions. -/
  abortedTxns : Finset ℕ
  /-- Writers whose fate was not seen. -/
  activeTxnIds : Finset ℕ
  /-- Prepared transactions whose fate was not seen. -/
  preparedTxns : Finset ℕ
  /-- Databases with records. -/
  perDbRedo : Finset ℕ
  /-- The catalog. -/
  recoveredDbNames : String → Option ℕ
  /-- The transaction that bound a name. -/
  recoveredDbTxnIds : String → Option ℕ
  /-- Where a transaction bound a name. -/
  recoveredDbNameLsns : String → Option Lsn
  /-- The transaction of a removal yet to be decided. -/
  pendingNameDeletes : String → Option ℕ

namespace AnalysisResult

/-- Nothing found yet. -/
def new : AnalysisResult where
  checkpointStartLsn := nullLsn
  checkpointEndLsn := nullLsn
  firstActiveLsn := nullLsn
  perDbRoots := []
  committedTxns := fun _ => none
  abortedTxns := ∅
  activeTxnIds := ∅
  preparedTxns := ∅
  perDbRedo := ∅
  recoveredDbNames := fun _ => none
  recoveredDbTxnIds := fun _ => none
  recoveredDbNameLsns := fun _ => none
  pendingNameDeletes := fun _ => none

/-- A transaction committed. -/
def recordCommit (a : AnalysisResult) (txnId : ℕ) (lsn : Lsn) : AnalysisResult :=
  { a with
    committedTxns := Function.update a.committedTxns txnId (some lsn)
    activeTxnIds := a.activeTxnIds.erase txnId
    preparedTxns := a.preparedTxns.erase txnId }

/-- A transaction aborted. -/
def recordAbort (a : AnalysisResult) (txnId : ℕ) : AnalysisResult :=
  { a with
    abortedTxns := insert txnId a.abortedTxns
    activeTxnIds := a.activeTxnIds.erase txnId
    preparedTxns := a.preparedTxns.erase txnId }

/-- A transaction was prepared. -/
def recordPrepare (a : AnalysisResult) (txnId : ℕ) : AnalysisResult :=
  { a with
    activeTxnIds := a.activeTxnIds.erase txnId
    preparedTxns := insert txnId a.preparedTxns }

/-- A transaction wrote a record; one whose fate is known stays as it is. -/
def recordActiveTxn (a : AnalysisResult) (txnId : ℕ) : AnalysisResult :=
  if (a.committedTxns txnId).isSome ∨ txnId ∈ a.abortedTxns then a
  else { a with activeTxnIds := insert txnId a.activeTxnIds }

/-- The transaction committed. -/
def isCommitted (a : AnalysisResult) (txnId : ℕ) : Bool := (a.committedTxns txnId).isSome

/-- The transaction is prepared and undecided. -/
def isPrepared (a : AnalysisResult) (txnId : ℕ) : Bool := decide (txnId ∈ a.preparedTxns)

/-- One event of the name catalog. The removal of a name in a transaction is deferred; a
new binding supersedes it. -/
def recordName (a : AnalysisResult) (lsn : Lsn) (rec : NameLnRecord) : AnalysisResult :=
  if rec.isDeleted then
    match rec.txnId with
    | some tid =>
      { a with pendingNameDeletes := Function.update a.pendingNameDeletes rec.name (some tid) }
    | none =>
      { a with
        recoveredDbNames := Function.update a.recoveredDbNames rec.name none
        recoveredDbTxnIds := Function.update a.recoveredDbTxnIds rec.name none
        recoveredDbNameLsns := Function.update a.recoveredDbNameLsns rec.name none }
  else
    { a with
      pendingNameDeletes := Function.update a.pendingNameDeletes rec.name none
      recoveredDbNames := Function.update a.recoveredDbNames rec.name (some rec.dbId)
      recoveredDbTxnIds := Function.update a.recoveredDbTxnIds rec.name rec.txnId
      recoveredDbNameLsns :=
        Function.update a.recoveredDbNameLsns rec.name (rec.txnId.map fun _ => lsn) }

/-- The analysis of one entry. -/
def process (a : AnalysisResult) (e : PositionedEntry) : AnalysisResult :=
  match e.entry with
  | .ln rec =>
    let a := { a with perDbRedo := insert rec.dbId a.perDbRedo }
    match rec.txnId with
    | some txnId => a.recordActiveTxn txnId
    | none => a
  | .txnCommit txnId => a.recordCommit txnId e.lsn
  | .txnAbort txnId => a.recordAbort txnId
  | .txnPrepare txnId => a.recordPrepare txnId
  | .ckptStart => a
  | .ckptEnd rec =>
    if a.checkpointEndLsn = nullLsn ∨ a.checkpointEndLsn ≤ e.lsn then
      { a with
        checkpointEndLsn := e.lsn
        checkpointStartLsn := rec.checkpointStartLsn
        firstActiveLsn := rec.firstActiveLsn
        perDbRoots := rec.perDbRoots }
    else a
  | .nameLn rec => a.recordName e.lsn rec

/-- Where the scans begin: at the first active record, else at the checkpoint, else at the
start of the log. -/
def scanStart (a : AnalysisResult) : Lsn :=
  if a.firstActiveLsn ≠ nullLsn then a.firstActiveLsn
  else if a.checkpointStartLsn ≠ nullLsn then a.checkpointStartLsn
  else 0

end AnalysisResult

/-- The boundaries of the last completed checkpoint. -/
def findLastCheckpoint (log : List PositionedEntry) : AnalysisResult :=
  match log.reverse.findSome? fun e =>
      match e.entry with
      | .ckptEnd rec => some (e.lsn, rec)
      | _ => none with
  | some (lsn, rec) =>
    { AnalysisResult.new with
      checkpointEndLsn := lsn
      checkpointStartLsn := rec.checkpointStartLsn
      firstActiveLsn := rec.firstActiveLsn }
  | none => AnalysisResult.new

/-- The analysis pass. -/
def runAnalysis (log : List PositionedEntry) : AnalysisResult :=
  let info := findLastCheckpoint log
  (scanForward log info.scanStart).foldl AnalysisResult.process info

/-! ### Fates of transactions -/

/-- The transaction an entry belongs to. -/
def LogEntry.txn : LogEntry → Option ℕ
  | .ln rec => rec.txnId
  | .txnCommit txnId => some txnId
  | .txnAbort txnId => some txnId
  | .txnPrepare txnId => some txnId
  | .ckptStart => none
  | .ckptEnd _ => none
  | .nameLn rec => rec.txnId

/-- The entry commits or aborts a transaction. -/
def LogEntry.ends (e : LogEntry) (txnId : ℕ) : Prop :=
  e = .txnCommit txnId ∨ e = .txnAbort txnId

/-- The log commits a transaction. -/
def Committed (log : List PositionedEntry) (txnId : ℕ) : Prop :=
  ∃ e ∈ log, e.entry = .txnCommit txnId

/-- Each transaction ends once, after everything it wrote, and writes nothing once
prepared. -/
structure TxnOrder (log : List PositionedEntry) : Prop where
  ended : log.Pairwise fun a b => ∀ txnId, a.entry.ends txnId → b.entry.txn ≠ some txnId
  prepared : log.Pairwise fun a b => ∀ txnId, a.entry = .txnPrepare txnId →
    b.entry.txn = some txnId → b.entry.ends txnId

/-! ### What one entry changes -/

namespace AnalysisResult

variable (a : AnalysisResult)

/-- A record changes the databases and the active writers; an undecided writer becomes
active. -/
theorem process_ln (lsn : Lsn) (rec : LnRecord) :
    ∃ active, a.process ⟨lsn, .ln rec⟩ = { a with
        perDbRedo := insert rec.dbId a.perDbRedo
        activeTxnIds := active } ∧ a.activeTxnIds ⊆ active ∧
      ∀ txnId, rec.txnId = some txnId → a.committedTxns txnId = none →
        txnId ∉ a.abortedTxns → txnId ∈ active := by
  cases ht : rec.txnId with
  | none => exact ⟨a.activeTxnIds, by simp [process, ht], subset_rfl, by simp⟩
  | some t =>
    by_cases hfate : (a.committedTxns t).isSome ∨ t ∈ a.abortedTxns
    · refine ⟨a.activeTxnIds, by simp [process, ht, recordActiveTxn, hfate], subset_rfl, ?_⟩
      rintro _ ⟨⟩ hc hab
      simp [hc, hab] at hfate
    · refine ⟨insert t a.activeTxnIds, by simp [process, ht, recordActiveTxn, hfate],
        Finset.subset_insert _ _, ?_⟩
      rintro _ ⟨⟩ _ _
      exact Finset.mem_insert_self _ _

/-- The end of a checkpoint changes the boundaries only. -/
theorem process_ckptEnd (lsn : Lsn) (rec : CkptEndRecord) :
    ∃ ckptEnd ckptStart firstActive roots, a.process ⟨lsn, .ckptEnd rec⟩ = { a with
      checkpointEndLsn := ckptEnd
      checkpointStartLsn := ckptStart
      firstActiveLsn := firstActive
      perDbRoots := roots } := by
  simp only [process]
  split
  · exact ⟨_, _, _, _, rfl⟩
  · exact ⟨a.checkpointEndLsn, a.checkpointStartLsn, a.firstActiveLsn, a.perDbRoots, rfl⟩

/-- An event of a name changes the catalog only. -/
theorem process_nameLn (lsn : Lsn) (rec : NameLnRecord) :
    ∃ names txnIds lsns deletes, a.process ⟨lsn, .nameLn rec⟩ = { a with
      recoveredDbNames := names
      recoveredDbTxnIds := txnIds
      recoveredDbNameLsns := lsns
      pendingNameDeletes := deletes } := by
  simp only [process, recordName]
  split
  · split
    · exact ⟨a.recoveredDbNames, a.recoveredDbTxnIds, a.recoveredDbNameLsns, _, rfl⟩
    · exact ⟨_, _, _, a.pendingNameDeletes, rfl⟩
  · exact ⟨_, _, _, _, rfl⟩

variable (e : PositionedEntry)

/-- Only the end of a transaction and its preparation change the fates of transactions, and only
a record changes the databases. -/
theorem process_fates :
    ((a.process e).committedTxns = match e.entry with
      | .txnCommit txnId => Function.update a.committedTxns txnId (some e.lsn)
      | _ => a.committedTxns) ∧
    ((a.process e).abortedTxns = match e.entry with
      | .txnAbort txnId => insert txnId a.abortedTxns
      | _ => a.abortedTxns) ∧
    ((a.process e).preparedTxns = match e.entry with
      | .txnCommit txnId => a.preparedTxns.erase txnId
      | .txnAbort txnId => a.preparedTxns.erase txnId
      | .txnPrepare txnId => insert txnId a.preparedTxns
      | _ => a.preparedTxns) ∧
    ((a.process e).perDbRedo = match e.entry with
      | .ln rec => insert rec.dbId a.perDbRedo
      | _ => a.perDbRedo) := by
  obtain ⟨lsn, entry⟩ := e
  cases entry with
  | ln rec =>
    obtain ⟨_, h, -⟩ := a.process_ln lsn rec
    rw [h]
    exact ⟨rfl, rfl, rfl, rfl⟩
  | ckptEnd rec =>
    obtain ⟨_, _, _, _, h⟩ := a.process_ckptEnd lsn rec
    rw [h]
    exact ⟨rfl, rfl, rfl, rfl⟩
  | nameLn rec =>
    obtain ⟨_, _, _, _, h⟩ := a.process_nameLn lsn rec
    rw [h]
    exact ⟨rfl, rfl, rfl, rfl⟩
  | _ => exact ⟨rfl, rfl, rfl, rfl⟩

end AnalysisResult

section Fates

variable {log es : List PositionedEntry} {a : AnalysisResult} {txnId : ℕ}

theorem committed_snoc {e : PositionedEntry} :
    Committed (es ++ [e]) txnId ↔ Committed es txnId ∨ e.entry = .txnCommit txnId := by
  simp [Committed, or_and_right, exists_or]

/-- The commits the scan has seen. -/
theorem foldl_process_committed (ha : a.committedTxns = fun _ => none) :
    ((es.foldl AnalysisResult.process a).committedTxns txnId).isSome = true ↔
      Committed es txnId := by
  induction es using List.reverseRecOn with
  | nil => simp [ha, Committed]
  | append_singleton es e ih =>
    rw [List.foldl_append, committed_snoc, ← ih, List.foldl_cons, List.foldl_nil,
      (AnalysisResult.process_fates _ _).1]
    cases he : e.entry with
    | txnCommit t =>
      by_cases ht : txnId = t
      · simp [ht]
      · simp [Function.update_of_ne ht, Ne.symm ht]
    | _ => simp

/-- The commit position the scan keeps is that of a commit. -/
theorem foldl_process_commit_lsn (ha : a.committedTxns = fun _ => none) {lsn : Lsn}
    (h : (es.foldl AnalysisResult.process a).committedTxns txnId = some lsn) :
    ⟨lsn, .txnCommit txnId⟩ ∈ es := by
  refine List.foldlRecOn (motive := fun a : AnalysisResult =>
    a.committedTxns txnId = some lsn → ⟨lsn, .txnCommit txnId⟩ ∈ es) es _ (by simp [ha])
    (fun a ih e he h => ?_) h
  rw [(AnalysisResult.process_fates _ _).1] at h
  obtain ⟨l, entry⟩ := e
  cases entry with
  | txnCommit t =>
    by_cases ht : txnId = t
    · simp only [ht, Function.update_self, Option.some.injEq] at h
      rwa [ht, ← h]
    · simp only [Function.update_of_ne ht] at h
      exact ih h
  | _ => exact ih h

end Fates

/-! ### The whole pass -/

/-- Every checkpoint records the start of the log as its first active position, as the
checkpointer writes it. -/
def ScansWholeLog (log : List PositionedEntry) : Prop :=
  ∀ e ∈ log, ∀ rec, e.entry = .ckptEnd rec → rec.firstActiveLsn = 0

section Pass

variable {log : List PositionedEntry} {txnId : ℕ}

/-- The search for the last checkpoint finds its boundaries, or nothing. -/
theorem findLastCheckpoint_cases (log : List PositionedEntry) :
    findLastCheckpoint log = AnalysisResult.new ∨
      ∃ lsn rec, ⟨lsn, .ckptEnd rec⟩ ∈ log ∧ findLastCheckpoint log = { AnalysisResult.new with
        checkpointEndLsn := lsn
        checkpointStartLsn := rec.checkpointStartLsn
        firstActiveLsn := rec.firstActiveLsn } := by
  unfold findLastCheckpoint
  split
  · rename_i lsn rec h
    obtain ⟨⟨l, entry⟩, hmem, he⟩ := List.exists_of_findSome?_eq_some h
    cases entry with
    | ckptEnd r =>
      simp only [Option.some.injEq, Prod.mk.injEq] at he
      obtain ⟨rfl, rfl⟩ := he
      exact .inr ⟨l, r, List.mem_reverse.mp hmem, rfl⟩
    | _ => simp at he
  · exact .inl rfl

/-- The search records no fate of a transaction. -/
theorem findLastCheckpoint_fates (log : List PositionedEntry) :
    (findLastCheckpoint log).committedTxns = (fun _ => none) ∧
      (findLastCheckpoint log).abortedTxns = ∅ ∧ (findLastCheckpoint log).preparedTxns = ∅ := by
  rcases findLastCheckpoint_cases log with heq | ⟨_, _, _, heq⟩ <;> rw [heq] <;>
    exact ⟨rfl, rfl, rfl⟩

theorem findLastCheckpoint_scanStart (h : ScansWholeLog log) :
    (findLastCheckpoint log).scanStart = 0 := by
  rcases findLastCheckpoint_cases log with heq | ⟨lsn, rec, hmem, heq⟩
  · rw [heq]
    rfl
  · rw [heq]
    simp only [AnalysisResult.scanStart, h _ hmem rec rfl]
    rfl

/-- The pass reads every entry of the log. -/
theorem runAnalysis_eq (h : ScansWholeLog log) :
    runAnalysis log = log.foldl AnalysisResult.process (findLastCheckpoint log) := by
  simp [runAnalysis, findLastCheckpoint_scanStart h, scanForward]

/-- **The pass finds the commits of the log.** -/
theorem runAnalysis_committed (h : ScansWholeLog log) :
    (runAnalysis log).isCommitted txnId = true ↔ Committed log txnId := by
  rw [runAnalysis_eq h]
  exact foldl_process_committed (findLastCheckpoint_fates log).1

/-- The pass keeps the position of a commit. -/
theorem runAnalysis_commit_lsn (h : ScansWholeLog log) {lsn : Lsn}
    (hc : (runAnalysis log).committedTxns txnId = some lsn) :
    ⟨lsn, .txnCommit txnId⟩ ∈ log := by
  rw [runAnalysis_eq h] at hc
  exact foldl_process_commit_lsn (findLastCheckpoint_fates log).1 hc

end Pass

/-! ### Well-formed logs -/

/-- The log recovery is given: positions ascend, each transaction ends once and after all
it wrote, and the checkpoints let the scans begin at the start of the log. -/
structure LogWF (log : List PositionedEntry) : Prop where
  ascending : log.Pairwise fun a b => a.lsn < b.lsn
  txns : TxnOrder log
  whole : ScansWholeLog log

/-- The commit of a transaction comes after each of its events. -/
theorem LogWF.lt_commit {log : List PositionedEntry} (h : LogWF log)
    {lsn commitLsn : Lsn} {entry : LogEntry} {txnId : ℕ}
    (hmem : ⟨lsn, entry⟩ ∈ log) (ht : entry.txn = some txnId)
    (hend : ¬ entry.ends txnId) (hc : ⟨commitLsn, .txnCommit txnId⟩ ∈ log) :
    lsn < commitLsn := by
  obtain ⟨l₁, l₂, rfl⟩ := List.append_of_mem hc
  rcases List.mem_append.mp hmem with hmem | hmem
  · exact (List.pairwise_append.mp h.ascending).2.2 _ hmem _ List.mem_cons_self
  · rcases List.mem_cons.mp hmem with heq | hmem
    · obtain ⟨rfl, rfl⟩ := PositionedEntry.mk.injEq .. ▸ heq
      exact absurd (.inl rfl) hend
    · have hord := (List.pairwise_append.mp h.txns.ended).2.1
      exact absurd ht ((List.pairwise_cons.mp hord).1 _ hmem txnId (.inl rfl))

end Noxu
