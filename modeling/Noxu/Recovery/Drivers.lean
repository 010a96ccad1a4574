import Noxu.Recovery.TxnChain

/-!
# The Two Recovery Drivers

Recovery of one tree (`recover`) and of the trees of all databases (`recoverWithAll`) over logs
that also hold rollback records, replication sequence numbers and entries marked invisible.
Both analyse the log, replay the logged inner nodes, redo and undo; they are written twice in
the source. The undo passes differ only in how they reach the tree of a record, which is
`TreeAccess`. The redo pass of one tree skips a record whose sequence number does not
increase; that of all trees does not.

The replay of logged inner nodes is the same function in both and is left open (`inRedo`); it
replaces the nodes of a tree and not its parameters.

## Main results

* `redo_agrees`, `undo_agrees`: the passes of the two drivers, one by one;
* `drivers_agree`: **the drivers recover the same tree** from the log of one database whose
  sequence numbers increase and which no checkpoint root is read for.
-/

open Noxu.Library

namespace Noxu

/-! ### The log as the scanner returns it -/

/-- An entry with the data the drivers look at: the sequence number of a record and its mark,
or the bounds of a rollback. -/
inductive RecoveryEntry where
  | plain (e : LogEntry) (vlsn : Option ℕ) (isInvisible : Bool)
  | rollbackStart (lsn matchpoint : Lsn) (activeTxnIds : List ℤ)
  | rollbackEnd (lsn matchpoint : Lsn)
deriving DecidableEq

/-- An entry of the log, as the scan hands it over. -/
structure Scanned where
  lsn : Lsn
  entry : RecoveryEntry
deriving DecidableEq

/-- The entries other than rollback records. -/
def plainLog (log : List Scanned) : List PositionedEntry :=
  log.filterMap fun e =>
    match e.entry with
    | .plain p _ _ => some ⟨e.lsn, p⟩
    | _ => none

/-- Where the analysis starts from. -/
def startInfo (useCheckpoint : Bool) (log : List PositionedEntry) : AnalysisResult :=
  if useCheckpoint then findLastCheckpoint log
  else { AnalysisResult.new with firstActiveLsn := 0 }

/-- The analysis pass, with or without the last checkpoint. -/
def analyse (useCheckpoint : Bool) (log : List PositionedEntry) : AnalysisResult :=
  let info := startInfo useCheckpoint log
  (scanForward log info.scanStart).foldl AnalysisResult.process info

/-- The rollback records the analysis registers. -/
def trackRollbacks (start : Lsn) (log : List Scanned) : RollbackTracker :=
  (log.filter fun e => decide (start ≤ e.lsn)).foldl (fun t e =>
    match e.entry with
    | .rollbackStart lsn matchpoint txns =>
      t.registerRollbackStartWithTxns matchpoint lsn txns
    | .rollbackEnd lsn matchpoint => t.registerRollbackEnd matchpoint lsn
    | .plain .. => t) .new

/-! ### Redo -/

/-- A record is redone if it is visible, outside every rollback period, and eligible. -/
def eligibleScanned (tracker : RollbackTracker) (a : AnalysisResult) (seeded : Finset ℕ)
    (lsn : Lsn) (rec : LnRecord) (isInvisible : Bool) : Option Bool :=
  if isInvisible then some false
  else (tracker.isInRollbackPeriod lsn).map fun inPeriod =>
    !inPeriod && eligibleForRedo a seeded lsn rec

/-- The redo of one entry into one tree, with the last sequence number that was redone: a
record whose number does not exceed it is skipped. -/
def redoSingle (tracker : RollbackTracker) (a : AnalysisResult) (s : Tree × Option ℕ)
    (e : Scanned) : Option (Tree × Option ℕ) :=
  match e.entry with
  | .plain (.ln rec) vlsn isInvisible =>
    (eligibleScanned tracker a ∅ e.lsn rec isInvisible).bind fun eligible =>
      if !eligible then some s
      else
        match vlsn with
        | some curr =>
          if s.2.any fun prev => decide (curr ≤ prev) then some s
          else (applyRedoLn s.1 rec e.lsn).map fun t => (t, some curr)
        | none => (applyRedoLn s.1 rec e.lsn).map fun t => (t, s.2)
  | _ => some s

/-- The redo of one entry into the tree of its database. -/
def redoScanned (tracker : RollbackTracker) (a : AnalysisResult) (seeded : Finset ℕ)
    (trees : Trees) (e : Scanned) : Option Trees :=
  match e.entry with
  | .plain (.ln rec) _ isInvisible =>
    (eligibleScanned tracker a seeded e.lsn rec isInvisible).bind fun eligible =>
      if !eligible then some trees
      else
        match trees rec.dbId with
        | some t => (applyRedoLn t rec e.lsn).map fun t =>
          Function.update trees rec.dbId (some t)
        | none => some trees
  | _ => some trees

/-- The entries the redo pass visits. -/
def redoEntries (a : AnalysisResult) (log : List Scanned) : List Scanned :=
  log.filter fun e => decide (a.scanStart ≤ e.lsn)

/-! ### Chains of rolled-back transactions -/

/-- The chains by matchpoint and transaction. -/
abbrev Chains := List ((Lsn × ℤ) × TxnChain)

/-- The chain under a key. -/
def Chains.get? (chains : Chains) (key : Lsn × ℤ) : Option TxnChain :=
  (chains.find? fun c => decide (c.1 = key)).map Prod.snd

/-- Put a chain under a key. -/
def Chains.insert (chains : Chains) (key : Lsn × ℤ) (c : TxnChain) : Chains :=
  (chains.filter fun c => decide (c.1 ≠ key)) ++ [(key, c)]

/-- The records of a transaction up to the start of a rollback. -/
def periodRecords (log : List Scanned) (counts : LnRecord → Bool) (p : RollbackPeriod)
    (txnId : ℤ) : List Logged :=
  (records (plainLog log)).filter fun x =>
    decide (x.2 < p.rollbackStartLsn ∧ x.1.txnId.map (Nat.cast : ℕ → ℤ) = some txnId) &&
      counts x.1

/-- The chains of one period. -/
def periodChains (log : List Scanned) (counts : LnRecord → Bool)
    (order : List Logged → KeyOrder) (chains : Chains) (p : RollbackPeriod) : Option Chains :=
  if p.rollbackStartLsn = nullLsn ∨ p.activeTxnIds = [] then some chains
  else p.activeTxnIds.dedup.foldlM (fun chains txnId =>
    match periodRecords log counts p txnId with
    | [] => some chains
    | x :: recs =>
      (TxnChain.build (x :: recs) p.matchpointLsn (order (x :: recs)).compare).map
        (chains.insert (p.matchpointLsn, txnId))) chains

/-- The chains of all periods. -/
def chainsOf (log : List Scanned) (tracker : RollbackTracker) (counts : LnRecord → Bool)
    (order : List Logged → KeyOrder) : Option Chains :=
  (tracker.rollbackPeriods ++ tracker.pendingPeriods).foldlM (periodChains log counts order) []

/-- The comparator of a tree, if it has one. -/
def Tree.comparator (t : Tree) : Option KeyOrder :=
  t.config.keyComparator.map fun c => ⟨c.compare, c.trans⟩

/-- The chains for all trees: the comparator is that of the first record's tree. -/
def buildRollbackChains (log : List Scanned) (tracker : RollbackTracker) (trees : Trees) :
    Option Chains :=
  chainsOf log tracker (fun _ => true) (chainOrder fun db => (trees db).bind Tree.comparator)

/-- The chains for one tree: only the records of its database, with its comparator. -/
def buildSingleTreeChains (log : List Scanned) (tracker : RollbackTracker) (t : Tree) :
    Option Chains :=
  chainsOf log tracker (fun rec => decide (rec.dbId = t.config.databaseId)) fun _ =>
    t.comparator.getD .bytes

/-! ### Undo -/

/-- What undo does with an entry: leave it, undo the record, or revert it to the version its
chain names. -/
inductive UndoStep where
  | skip
  | undo (rec : LnRecord) (lsn : Lsn)
  | revert (rec : LnRecord) (lsn : Lsn) (ri : RevertInfo)

/-- The decision for an entry, and the chains after it. Records in a rollback period of their
transaction are reverted, the others of the period and the earlier ones of such transactions
stay; of the rest those of transactions that neither committed nor are prepared are undone. -/
def undoDecision (a : AnalysisResult) (tracker : RollbackTracker) (chains : Chains)
    (e : Scanned) : Option (UndoStep × Chains) :=
  match e.entry with
  | .plain (.ln rec) _ _ =>
    match rec.txnId with
    | none => some (.skip, chains)
    | some txnId =>
      (tracker.findPeriodForLn e.lsn txnId).bind fun period =>
        match period with
        | some p =>
          match (chains.get? (p.matchpointLsn, txnId)).bind TxnChain.pop with
          | some (ri, c) =>
            some (.revert rec e.lsn ri, chains.insert (p.matchpointLsn, txnId) c)
          | none => some (.skip, chains)
        | none =>
          (tracker.isInRollbackPeriod e.lsn).bind fun inPeriod =>
            if inPeriod then some (.skip, chains)
            else if tracker.isRollbackActiveTxn txnId then some (.skip, chains)
            else if a.isCommitted txnId then some (.skip, chains)
            else if a.isPrepared txnId then some (.skip, chains)
            else some (.undo rec e.lsn, chains)
  | _ => some (.skip, chains)

/-- The step on the tree of its record. -/
def UndoStep.apply (log : List PositionedEntry) (t : Tree) : UndoStep → Option Tree
  | .skip => some t
  | .undo rec lsn => undoLn log t rec lsn
  | .revert rec lsn ri => applyRevertInfo log t rec lsn ri

/-- The record of a step. -/
def UndoStep.rec? : UndoStep → Option Logged
  | .skip => none
  | .undo rec lsn => some (rec, lsn)
  | .revert rec lsn _ => some (rec, lsn)

/-- How a pass reaches the tree of a database. -/
structure TreeAccess (σ : Type) where
  get : σ → ℕ → Option Tree
  set : σ → ℕ → Tree → σ

/-- The tree of each database. -/
def TreeAccess.all : TreeAccess Trees where
  get trees db := trees db
  set trees db t := Function.update trees db (some t)

/-- One tree, for the records of its own database. -/
def TreeAccess.single : TreeAccess Tree where
  get t db := if t.config.databaseId = db then some t else none
  set _ _ t := t

/-- The undo of one entry. -/
def undoScanned {σ : Type} (access : TreeAccess σ) (log : List PositionedEntry)
    (a : AnalysisResult) (tracker : RollbackTracker) (s : σ × Chains) (e : Scanned) :
    Option (σ × Chains) :=
  (undoDecision a tracker s.2 e).bind fun d =>
    match d.1.rec? with
    | none => some (s.1, d.2)
    | some x =>
      match access.get s.1 x.1.dbId with
      | some t => (d.1.apply log t).map fun t => (access.set s.1 x.1.dbId t, d.2)
      | none => some (s.1, d.2)

/-- The entries the undo pass visits: none if there is nothing to take back. -/
def undoVisits (log : List Scanned) (a : AnalysisResult) (chains : Chains) : List Scanned :=
  match log.getLast? with
  | none => []
  | some last =>
    if a.activeTxnIds = ∅ ∧ a.abortedTxns = ∅ ∧ chains = [] then []
    else (log.filter fun e => decide
      ((if a.firstActiveLsn = nullLsn then 0 else a.firstActiveLsn) ≤ e.lsn ∧
        e.lsn ≤ last.lsn)).reverse

/-- The undo pass over all trees. -/
def undoAllTrees (log : List Scanned) (a : AnalysisResult) (tracker : RollbackTracker)
    (trees : Trees) : Option Trees :=
  (buildRollbackChains log tracker trees).bind fun chains =>
    ((undoVisits log a chains).foldlM
      (undoScanned TreeAccess.all (plainLog log) a tracker) (trees, chains)).map Prod.fst

/-- The undo pass over one tree. -/
def runUndo (log : List Scanned) (a : AnalysisResult) (tracker : RollbackTracker) (t : Tree) :
    Option Tree :=
  (buildSingleTreeChains log tracker t).bind fun chains =>
    ((undoVisits log a chains).foldlM
      (undoScanned TreeAccess.single (plainLog log) a tracker) (t, chains)).map Prod.fst

/-! ### Recovery -/

/-- The root of a tree. -/
abbrev TreeRoot := Option (Σ h, TreeNode h)

/-- A tree after the replay of its logged inner nodes. -/
def Tree.replayed (inRedo : TreeRoot → TreeRoot) (t : Tree) : Tree :=
  { t with root := inRedo t.root }

/-- Recovery of one tree. -/
def recover (inRedo : TreeRoot → TreeRoot) (useCheckpoint : Bool) (log : List Scanned)
    (t : Tree) : Option Tree :=
  let a := analyse useCheckpoint (plainLog log)
  let tracker := trackRollbacks (startInfo useCheckpoint (plainLog log)).scanStart log
  ((redoEntries a log).foldlM (redoSingle tracker a) (t.replayed inRedo, none)).bind fun s =>
    runUndo log a tracker s.1

/-- Seed the trees of the last checkpoint if there is a log manager to read them with. -/
def seedScanned (images : Option Images) (a : AnalysisResult) (trees : Trees) :
    Trees × Finset ℕ :=
  match images with
  | some images => seedRoots images a.perDbRoots (openTrees a trees)
  | none => (openTrees a trees, ∅)

/-- Recovery of all trees. -/
def recoverWithAll (inRedo : TreeRoot → TreeRoot) (images : Option Images)
    (useCheckpoint : Bool) (log : List Scanned) (trees : Trees) : Option Trees :=
  let a := analyse useCheckpoint (plainLog log)
  let tracker := trackRollbacks (startInfo useCheckpoint (plainLog log)).scanStart log
  let seeded := seedScanned images a trees
  let a := runMappingTreeUndoPass a
  ((redoEntries a log).foldlM (redoScanned tracker a seeded.2) fun db =>
    (seeded.1 db).map (Tree.replayed inRedo)).bind fun trees => undoAllTrees log a tracker trees

/-! ### Operations keep the parameters of a tree -/

section Config

variable {t t' : Tree}

theorem Tree.config_updateBin {β : Type} (t : Tree) (floor : List Key → Key → ℕ) (dflt : β)
    (f : BinStub → BinStub × β) (key : Key) :
    (t.updateBin floor dflt f key).1.config = t.config := by
  unfold Tree.updateBin
  split <;> rfl

theorem Tree.config_updateKeyExpiration (resident : ℕ → Bool) (t : Tree) (key : Key)
    (expiration : ℕ) : (t.updateKeyExpiration resident key expiration).1.config = t.config := by
  unfold Tree.updateKeyExpiration
  split
  · exact Tree.config_updateBin ..
  · rfl

theorem Tree.config_insertFromRoot {root : Σ h, TreeNode h} {lsn : Lsn}
    {descent : ℕ → (h : ℕ) → TreeNode h → Bool → Bool → ℕ → Option (TreeNode h × Bool × ℕ)}
    {flag : Bool} (h : t.insertFromRoot root lsn descent = some (t', flag)) :
    t'.config = t.config := by
  obtain ⟨r, -, h⟩ := Option.bind_eq_some_iff.mp h
  obtain ⟨d, -, h⟩ := Option.map_eq_some_iff.mp h
  obtain ⟨rfl, -⟩ := Prod.mk.inj h
  rfl

theorem Tree.config_insert {isLocked : Option (Lsn → Bool)} {k : Key} {data : List UInt8}
    {lsn : Lsn} (h : (t.insert isLocked k data lsn).map Prod.fst = some t') :
    t'.config = t.config := by
  obtain ⟨⟨t₁, flag⟩, hins, rfl⟩ := Option.map_eq_some_iff.mp h
  unfold Tree.insert at hins
  split at hins
  · obtain ⟨rfl, -⟩ := Prod.mk.inj (Option.some.inj hins)
    rfl
  · exact Tree.config_insertFromRoot hins

theorem Tree.config_redoInsert {k : Key} {data : List UInt8} {lsn : Lsn} {flag : Bool}
    (h : t.redoInsert k data lsn = some (t', flag)) : t'.config = t.config := by
  unfold Tree.redoInsert at h
  dsimp only at h
  split at h
  · obtain ⟨rfl, -⟩ := Prod.mk.inj (Option.some.inj h)
    rfl
  · exact Tree.config_insertFromRoot h

theorem applyRedoLn_config {rec : LnRecord} {lsn : Lsn} (h : applyRedoLn t rec lsn = some t') :
    t'.config = t.config := by
  have hput : ((t.redoInsert rec.key (rec.data.getD []) lsn).map fun r =>
      if rec.expiration ≠ 0 then
        (r.1.updateKeyExpiration (fun _ => true) rec.key rec.slotExpiration).1
      else r.1) = some t' → t'.config = t.config := by
    intro h
    obtain ⟨⟨t₁, flag⟩, hins, rfl⟩ := Option.map_eq_some_iff.mp h
    have hconfig := Tree.config_redoInsert hins
    split
    · exact (Tree.config_updateKeyExpiration ..).trans hconfig
    · exact hconfig
  unfold applyRedoLn at h
  split at h
  · obtain rfl := Option.some.inj h
    rfl
  · split at h
    · exact hput h
    · exact hput h
    · split at h
      · split at h
        · obtain rfl := Option.some.inj h
          exact Tree.config_updateBin ..
        · obtain rfl := Option.some.inj h
          rfl
      · obtain rfl := Option.some.inj h
        exact Tree.config_updateBin ..
      · obtain rfl := Option.some.inj h
        rfl

/-- Undo and revert keep the parameters. -/
theorem UndoStep.apply_config {log : List PositionedEntry} {step : UndoStep}
    (h : step.apply log t = some t') : t'.config = t.config := by
  cases step with
  | skip =>
    obtain rfl := Option.some.inj h
    rfl
  | undo rec lsn =>
    rw [UndoStep.apply, undoLn_eq] at h
    split at h
    · split at h
      · exact Tree.config_insert h
      · obtain rfl := Option.some.inj h
        exact Tree.config_updateBin ..
    · obtain rfl := Option.some.inj h
      rfl
  | revert rec lsn ri =>
    rw [UndoStep.apply, applyRevertInfo_eq log t (rec, lsn) ri] at h
    split at h
    · split at h
      · obtain rfl := Option.some.inj h
        exact Tree.config_updateBin ..
      · obtain rfl := Option.some.inj h
        exact Tree.config_updateBin ..
      · exact Tree.config_insert h
    · obtain rfl := Option.some.inj h
      rfl

end Config

/-! ### The redo passes -/

/-- The sequence numbers of the records that are eligible for redo, in log order. -/
def redoneVlsns (tracker : RollbackTracker) (a : AnalysisResult) (entries : List Scanned) :
    List ℕ :=
  entries.filterMap fun e =>
    match e.entry with
    | .plain (.ln rec) vlsn isInvisible =>
      if eligibleScanned tracker a ∅ e.lsn rec isInvisible = some true then vlsn else none
    | _ => none

/-- The log has records of one database only. -/
def OneDatabase (db : ℕ) (log : List Scanned) : Prop :=
  ∀ e ∈ log, ∀ rec vlsn isInvisible, e.entry = .plain (.ln rec) vlsn isInvisible → rec.dbId = db

section Redo

variable {tracker : RollbackTracker} {a : AnalysisResult} {seeded : Finset ℕ} {db : ℕ}
  {t : Tree} {trees : Trees} {last : Option ℕ}

/-- A database that was not seeded is not gated. -/
theorem eligibleScanned_of_not_mem (hdb : db ∉ seeded) {rec : LnRecord} (hrec : rec.dbId = db)
    (lsn : Lsn) (isInvisible : Bool) :
    eligibleScanned tracker a seeded lsn rec isInvisible =
      eligibleScanned tracker a ∅ lsn rec isInvisible := by
  have hel : eligibleForRedo a seeded lsn rec = eligibleForRedo a ∅ lsn rec := by
    simp [eligibleForRedo, hrec, hdb]
  rw [eligibleScanned, eligibleScanned, hel]

theorem redoneVlsns_cons (e : Scanned) (entries : List Scanned) :
    redoneVlsns tracker a (e :: entries) =
      redoneVlsns tracker a [e] ++ redoneVlsns tracker a entries := by
  rw [← List.singleton_append, redoneVlsns, List.filterMap_append]
  rfl

/-- One entry for both redo passes: `trees` holds the tree of the other pass, and the sequence
number of the entry is above the last one. -/
theorem redo_step (e : Scanned) (hone : OneDatabase db [e]) (hseed : db ∉ seeded)
    (ht : trees db = some t)
    (hlast : ∀ prev, last = some prev → ∀ v ∈ redoneVlsns tracker a [e], prev < v) :
    (redoScanned tracker a seeded trees e = none ∧
      redoSingle tracker a (t, last) e = none) ∨
    ∃ trees' t' last', redoScanned tracker a seeded trees e = some trees' ∧
      redoSingle tracker a (t, last) e = some (t', last') ∧ trees' db = some t' ∧
      t'.config = t.config ∧
      (last' = last ∨ ∃ v ∈ redoneVlsns tracker a [e], last' = some v) := by
  obtain ⟨lsn, entry⟩ := e
  cases entry with
  | plain p vlsn inv =>
    cases p with
    | ln rec =>
      have hrec : rec.dbId = db := hone _ (List.mem_singleton_self _) rec vlsn inv rfl
      have hel : eligibleScanned tracker a seeded lsn rec inv =
          eligibleScanned tracker a ∅ lsn rec inv :=
        eligibleScanned_of_not_mem hseed hrec lsn inv
      simp only [redoScanned, redoSingle, hel, hrec, ht]
      cases hcase : eligibleScanned tracker a ∅ lsn rec inv with
      | none => exact .inl ⟨rfl, rfl⟩
      | some eligible =>
        cases eligible with
        | false => exact .inr ⟨trees, t, last, rfl, rfl, ht, rfl, .inl rfl⟩
        | true =>
          simp only [Option.bind_some, Bool.not_true, Bool.false_eq_true, if_false]
          have hnew : ∀ {v}, vlsn = some v →
              v ∈ redoneVlsns tracker a [⟨lsn, .plain (.ln rec) vlsn inv⟩] := by
            rintro v rfl
            simp [redoneVlsns, hcase]
          have hgo : ∀ v, vlsn = some v →
              (last.any fun prev => decide (v ≤ prev)) = false := by
            rintro v hv
            cases last with
            | none => rfl
            | some prev => simpa using hlast prev rfl v (hnew hv)
          cases hredo : applyRedoLn t rec lsn with
          | none =>
            refine .inl ⟨rfl, ?_⟩
            cases vlsn with
            | none => rfl
            | some v => simp [hgo v rfl]
          | some t' =>
            refine .inr ⟨_, t', vlsn.or last, rfl, ?_, by simp,
              applyRedoLn_config hredo, ?_⟩
            · cases vlsn with
              | none => rfl
              | some v => simp [hgo v rfl]
            · cases vlsn with
              | none => exact .inl rfl
              | some v => exact .inr ⟨v, hnew rfl, rfl⟩
    | _ => exact .inr ⟨trees, t, last, rfl, rfl, ht, rfl, .inl rfl⟩
  | _ => exact .inr ⟨trees, t, last, rfl, rfl, ht, rfl, .inl rfl⟩

/-- **The redo passes agree** on a database that was not seeded, if its sequence numbers
increase. -/
theorem redo_agrees (entries : List Scanned) (hone : OneDatabase db entries)
    (hseed : db ∉ seeded) (ht : trees db = some t)
    (hvlsn : (redoneVlsns tracker a entries).Pairwise (· < ·))
    (hlast : ∀ prev, last = some prev → ∀ v ∈ redoneVlsns tracker a entries, prev < v) :
    (entries.foldlM (redoScanned tracker a seeded) trees = none ∧
      entries.foldlM (redoSingle tracker a) (t, last) = none) ∨
    ∃ trees' t' last', entries.foldlM (redoScanned tracker a seeded) trees = some trees' ∧
      entries.foldlM (redoSingle tracker a) (t, last) = some (t', last') ∧
      trees' db = some t' ∧ t'.config = t.config := by
  induction entries generalizing t trees last with
  | nil => exact .inr ⟨trees, t, last, rfl, rfl, ht, rfl⟩
  | cons e entries ih =>
    rw [redoneVlsns_cons] at hvlsn hlast
    obtain ⟨-, hrest, hcross⟩ := List.pairwise_append.mp hvlsn
    have hstep := redo_step e (fun e' he' => hone e' (by simp [List.mem_singleton.mp he'])) hseed
      ht fun prev hprev v hv => hlast prev hprev v (List.mem_append_left _ hv)
    simp only [List.foldlM_cons, Option.bind_eq_bind]
    rcases hstep with ⟨h₁, h₂⟩ | ⟨trees', t', last', h₁, h₂, ht', hconfig, hnew⟩
    · exact .inl ⟨by rw [h₁]; rfl, by rw [h₂]; rfl⟩
    · have hlast' : ∀ prev, last' = some prev → ∀ v ∈ redoneVlsns tracker a entries,
          prev < v := by
        intro prev hprev v hv
        rcases hnew with rfl | ⟨w, hw, rfl⟩
        · exact hlast prev hprev v (List.mem_append_right _ hv)
        · obtain rfl := Option.some.inj hprev
          exact hcross _ hw v hv
      rw [h₁, h₂, Option.bind_some, Option.bind_some, ← hconfig]
      exact ih (fun e' he' => hone e' (by simp [he'])) ht' hrest hlast'

end Redo

/-! ### The undo passes -/

section Undo

variable {tracker : RollbackTracker} {a : AnalysisResult} {db : ℕ} {t : Tree} {trees : Trees}
  {chains : Chains} {log : List Scanned}

/-- A step is about the record of its entry. -/
theorem undoDecision_rec {e : Scanned} {d : UndoStep × Chains} {x : Logged}
    (h : undoDecision a tracker chains e = some d) (hx : d.1.rec? = some x) :
    ∃ vlsn isInvisible, e.entry = .plain (.ln x.1) vlsn isInvisible ∧ e.lsn = x.2 := by
  have hskip : some ((UndoStep.skip, chains) : UndoStep × Chains) = some d → False := by
    rintro ⟨⟩
    cases hx
  unfold undoDecision at h
  split at h
  · rename_i rec vlsn isInvisible hentry
    split at h
    · exact (hskip h).elim
    · obtain ⟨period, -, h⟩ := Option.bind_eq_some_iff.mp h
      split at h
      · split at h
        · obtain rfl := Option.some.inj h
          obtain rfl := Option.some.inj hx
          exact ⟨vlsn, isInvisible, hentry, rfl⟩
        · exact (hskip h).elim
      · obtain ⟨inPeriod, -, h⟩ := Option.bind_eq_some_iff.mp h
        iterate 4
          split at h
          · exact (hskip h).elim
        obtain rfl := Option.some.inj h
        obtain rfl := Option.some.inj hx
        exact ⟨vlsn, isInvisible, hentry, rfl⟩
  · exact (hskip h).elim

/-- One entry for both undo passes. -/
theorem undo_step (plain : List PositionedEntry) (e : Scanned) (hone : OneDatabase db [e])
    (ht : trees db = some t) (hdb : t.config.databaseId = db) :
    (undoScanned TreeAccess.all plain a tracker (trees, chains) e = none ∧
      undoScanned TreeAccess.single plain a tracker (t, chains) e = none) ∨
    ∃ trees' t' chains',
      undoScanned TreeAccess.all plain a tracker (trees, chains) e = some (trees', chains') ∧
      undoScanned TreeAccess.single plain a tracker (t, chains) e = some (t', chains') ∧
      trees' db = some t' ∧ t'.config.databaseId = db := by
  unfold undoScanned
  cases hd : undoDecision a tracker chains e with
  | none => exact .inl ⟨rfl, rfl⟩
  | some d =>
    simp only [Option.bind_some]
    cases hx : d.1.rec? with
    | none => exact .inr ⟨trees, t, d.2, rfl, rfl, ht, hdb⟩
    | some x =>
      obtain ⟨vlsn, inv, hentry, -⟩ := undoDecision_rec hd hx
      have hrec : x.1.dbId = db := hone e (List.mem_singleton_self _) _ _ _ hentry
      simp only [TreeAccess.all, TreeAccess.single, hrec, ht, hdb, if_true]
      cases happly : d.1.apply plain t with
      | none => exact .inl ⟨rfl, rfl⟩
      | some t' =>
        refine .inr ⟨_, t', d.2, rfl, rfl, by simp, ?_⟩
        rw [UndoStep.apply_config happly, hdb]

/-- **The undo passes agree** on a log of one database, from the same chains. -/
theorem undo_agrees (plain : List PositionedEntry) (entries : List Scanned)
    (hone : OneDatabase db entries) (ht : trees db = some t) (hdb : t.config.databaseId = db) :
    ((entries.foldlM (undoScanned TreeAccess.all plain a tracker) (trees, chains)).map
        Prod.fst).map (fun trees => trees db) =
      ((entries.foldlM (undoScanned TreeAccess.single plain a tracker) (t, chains)).map
        Prod.fst).map some := by
  induction entries generalizing trees t chains with
  | nil => simp [ht]
  | cons e entries ih =>
    simp only [List.foldlM_cons, Option.bind_eq_bind]
    rcases undo_step plain e (fun e' he' => hone e' (by simp [List.mem_singleton.mp he'])) ht hdb
      with ⟨h₁, h₂⟩ | ⟨trees', t', chains', h₁, h₂, ht', hdb'⟩
    · rw [h₁, h₂]
      rfl
    · rw [h₁, h₂]
      exact ih (fun e' he' => hone e' (by simp [he'])) ht' hdb'

theorem OneDatabase.of_mem_records (h : OneDatabase db log) {x : Logged}
    (hx : x ∈ records (plainLog log)) : x.1.dbId = db := by
  have hmem := mem_records.mp hx
  obtain ⟨e, he, heq⟩ := List.mem_filterMap.mp hmem
  obtain ⟨lsn, entry⟩ := e
  cases entry with
  | plain p vlsn inv =>
    simp only [Option.some.injEq, PositionedEntry.mk.injEq] at heq
    exact h _ he x.1 vlsn inv (by rw [← heq.2])
  | _ => cases heq

/-- The chains of a log of one database are the same for both passes. -/
theorem chains_agree (hone : OneDatabase db log) (ht : trees db = some t)
    (hdb : t.config.databaseId = db) :
    buildRollbackChains log tracker trees = buildSingleTreeChains log tracker t := by
  have hrecs : ∀ p txnId, periodRecords log (fun _ => true) p txnId =
      periodRecords log (fun rec => decide (rec.dbId = t.config.databaseId)) p txnId := by
    intro p txnId
    refine List.filter_congr fun x hx => ?_
    simp [hone.of_mem_records hx, hdb]
  have horder : ∀ p txnId x recs,
      periodRecords log (fun rec => decide (rec.dbId = t.config.databaseId)) p txnId =
        x :: recs →
      chainOrder (fun db => (trees db).bind Tree.comparator) (x :: recs) =
        t.comparator.getD .bytes := by
    intro p txnId x recs h
    have hx : x ∈ records (plainLog log) :=
      (List.mem_filter.mp (show x ∈ periodRecords log _ p txnId by rw [h]; simp)).1
    simp [chainOrder, hone.of_mem_records hx, ht]
  have hstep : periodChains log (fun _ => true)
        (chainOrder fun db => (trees db).bind Tree.comparator) =
      periodChains log (fun rec => decide (rec.dbId = t.config.databaseId)) fun _ =>
        t.comparator.getD .bytes := by
    funext chains p
    unfold periodChains
    split
    · rfl
    · congr 1
      funext chains txnId
      rw [hrecs]
      split
      · rfl
      · rename_i x recs h
        rw [horder p txnId x recs h]
  rw [buildRollbackChains, buildSingleTreeChains, chainsOf, chainsOf, hstep]

end Undo

/-! ### Both drivers -/

section Agree

variable {db : ℕ} {images : Option Images} {a : AnalysisResult} {trees : Trees}

/-- No root of the last checkpoint is read for the database. -/
def NotSeeded (images : Option Images) (a : AnalysisResult) (db : ℕ) : Prop :=
  images = none ∨ ∀ root ∈ a.perDbRoots, root.1 = db → root.2 = nullLsn

theorem seedRoots_of_not_seeded (images : Images) (trees : Trees) {roots : List (ℕ × Lsn)}
    (h : ∀ root ∈ roots, root.1 = db → root.2 = nullLsn) :
    (seedRoots images roots trees).1 db = trees db ∧ db ∉ (seedRoots images roots trees).2 := by
  refine List.foldlRecOn (motive := fun s : Trees × Finset ℕ => s.1 db = trees db ∧ db ∉ s.2)
    roots _ ⟨rfl, by simp⟩ fun s ih root hroot => ?_
  rw [seedRoot]
  split
  · exact ih
  · rename_i hnull
    have hne : db ≠ root.1 := fun heq => hnull (h root hroot heq.symm)
    exact ⟨by simp [Function.update_of_ne hne, ih.1], by simp [hne, ih.2]⟩

/-- A database that is not seeded starts from the tree it is given. -/
theorem seedScanned_of_not_seeded (h : NotSeeded images a db) {t : Tree}
    (ht : trees db = some t) :
    (seedScanned images a trees).1 db = some t ∧ db ∉ (seedScanned images a trees).2 := by
  have hopen : openTrees a trees db = some t := by simp [openTrees, ht]
  cases images with
  | none => exact ⟨hopen, by simp [seedScanned]⟩
  | some images =>
    rcases h with h | h
    · cases h
    · obtain ⟨h₁, h₂⟩ := seedRoots_of_not_seeded images (openTrees a trees) h
      exact ⟨h₁.trans hopen, h₂⟩

/-- **The drivers agree**: from a log with records of one database, whose sequence numbers
increase where records are redone, and for which no checkpoint root is read, both recover the
same tree or both fail. -/
theorem drivers_agree (inRedo : TreeRoot → TreeRoot) (images : Option Images)
    (useCheckpoint : Bool) (log : List Scanned) (t : Tree) (trees : Trees)
    (ht : trees t.config.databaseId = some t)
    (hone : OneDatabase t.config.databaseId log)
    (hvlsn : (redoneVlsns
        (trackRollbacks (startInfo useCheckpoint (plainLog log)).scanStart log)
        (analyse useCheckpoint (plainLog log))
        (redoEntries (analyse useCheckpoint (plainLog log)) log)).Pairwise (· < ·))
    (hseed : NotSeeded images (analyse useCheckpoint (plainLog log)) t.config.databaseId) :
    (recoverWithAll inRedo images useCheckpoint log trees).map
        (fun trees => trees t.config.databaseId) =
      (recover inRedo useCheckpoint log t).map some := by
  obtain ⟨hseeded, hnot⟩ := seedScanned_of_not_seeded hseed ht
  have hsub : ∀ {l : List Scanned}, (∀ e ∈ l, e ∈ log) → OneDatabase t.config.databaseId l :=
    fun hl e he => hone e (hl e he)
  unfold recoverWithAll recover
  generalize trackRollbacks (startInfo useCheckpoint (plainLog log)).scanStart log = tracker at *
  generalize analyse useCheckpoint (plainLog log) = a at *
  -- the catalog pass changes nothing the other passes look at
  have hentries : redoEntries (runMappingTreeUndoPass a) log = redoEntries a log := rfl
  have hscan : redoScanned tracker (runMappingTreeUndoPass a) = redoScanned tracker a := rfl
  have hundo : undoAllTrees log (runMappingTreeUndoPass a) = undoAllTrees log a := rfl
  simp only [hentries, hscan, hundo]
  have hstart : ((seedScanned images a trees).1 t.config.databaseId).map (Tree.replayed inRedo) =
      some (t.replayed inRedo) := by
    rw [hseeded, Option.map_some]
  rcases @redo_agrees _ _ _ _ _ (fun db => ((seedScanned images a trees).1 db).map
      (Tree.replayed inRedo)) none (redoEntries a log)
      (hsub fun e he => (List.mem_filter.mp he).1) hnot hstart hvlsn (by simp)
    with ⟨h₁, h₂⟩ | ⟨trees', t', last', h₁, h₂, ht', hconfig⟩
  · rw [h₁, h₂]
    rfl
  · have hdb : t'.config.databaseId = t.config.databaseId := by rw [hconfig]; rfl
    rw [h₁, h₂, Option.bind_some, Option.bind_some, undoAllTrees, runUndo,
      chains_agree hone ht' hdb]
    cases buildSingleTreeChains log tracker t' with
    | none => rfl
    | some chains =>
      refine undo_agrees _ _ (hsub fun e he => ?_) ht' hdb
      unfold undoVisits at he
      split at he
      · cases he
      · split at he
        · cases he
        · exact (List.mem_filter.mp (List.mem_reverse.mp he)).1

end Agree

/-- Two insertions into database 1; the sequence number of the first one is 5. -/
def twoVlsnLog (second : ℕ) : List Scanned :=
  [⟨1, .plain (.ln (plainRecord .insert [1] [7] 0)) (some 5) false⟩,
    ⟨2, .plain (.ln (plainRecord .insert [2] [8] 0)) (some second) false⟩]

theorem oneDatabase_twoVlsnLog (second : ℕ) : OneDatabase 1 (twoVlsnLog second) := by
  intro e he rec vlsn inv heq
  rcases List.mem_cons.mp he with rfl | he
  · cases heq
    rfl
  · rw [List.mem_singleton.mp he] at heq
    cases heq
    rfl

/-- Two records of one database with increasing sequence numbers. -/
theorem drivers_agree_on_increasing_vlsns :
    (recoverWithAll id none true (twoVlsnLog 6)
        (Function.update (fun _ => none) 1 (some (Tree.new (recoveryConfig 1))))).map
          (fun trees => trees 1) =
      (recover id true (twoVlsnLog 6) (Tree.new (recoveryConfig 1))).map some :=
  drivers_agree id none true (twoVlsnLog 6) (Tree.new (recoveryConfig 1)) _
    (Function.update_self ..) (oneDatabase_twoVlsnLog 6) (by decide +kernel) (.inl rfl)

/-- Two records with the same sequence number: the recovery of one tree leaves out the second,
that of all trees does not. -/
theorem drivers_disagree_on_repeated_vlsn :
    (recoverWithAll id none true (twoVlsnLog 5)
        (Function.update (fun _ => none) 1 (some (Tree.new (recoveryConfig 1))))).map
          (fun trees => trees 1) ≠
      (recover id true (twoVlsnLog 5) (Tree.new (recoveryConfig 1))).map some := by
  intro h
  have hslot := congrArg (fun o : Option (Option Tree) =>
    o.map fun o => o.any fun t => (t.slotOf [2]).isSome) h
  exact absurd hslot (by decide +kernel)

end Noxu
