import Noxu.Recovery.Catalog
import Noxu.Tree.Contents

/-!
# The Undo of a Record

What every recovery driver shares: the trees it works on, the roots of the last checkpoint they
start from, the records that are redone, and the undo of one record. The slot of a record's key is
taken back only while it still holds the version of that record: it is removed, or the before-image
is written back, from the record itself or from the log.

## Main results

* `undoLn_eq`: the undo of a record removes its key or writes one key;
* `undoLn_spec`: **the undo of a record returns**, and what it does to the slots of the tree.
-/

open Noxu.Library

namespace Noxu

/-! ### The trees recovery starts from -/

/-- The trees recovery works on, by database. -/
abbrev Trees := ℕ → Option Tree

/-- The trees the log manager can read back, by the position of their root. -/
abbrev Images := Lsn → Option (Σ h, TreeNode h)

/-- The entry at a position. -/
def readAtLsn (log : List PositionedEntry) (lsn : Lsn) : Option LogEntry :=
  (log.find? fun e => decide (e.lsn = lsn)).map PositionedEntry.entry

/-- A tree for every database with records. -/
def openTrees (a : AnalysisResult) (trees : Trees) : Trees := fun db =>
  match trees db with
  | some t => some t
  | none => if db ∈ a.perDbRedo then some (Tree.new (recoveryConfig db)) else none

/-- Point the tree of a database at its checkpointed root; a root that is in memory stays. -/
def seedRoot (images : Images) (opened : Trees) (s : Trees × Finset ℕ) (root : ℕ × Lsn) :
    Trees × Finset ℕ :=
  if root.2 = nullLsn then s
  else
    let t := (opened root.1).getD (Tree.new (recoveryConfig root.1))
    (Function.update s.1 root.1 (some { t with root := t.root.or (images root.2) }),
      insert root.1 s.2)

/-- Seed the trees of a checkpoint, and remember which they are. -/
def seedRoots (images : Images) (roots : List (ℕ × Lsn)) (trees : Trees) : Trees × Finset ℕ :=
  roots.foldl (seedRoot images trees) (trees, ∅)

/-- A record is redone if it is to stay and the checkpoint does not cover it; the records
of prepared transactions always are. -/
def eligibleForRedo (a : AnalysisResult) (seeded : Finset ℕ) (lsn : Lsn) (rec : LnRecord) :
    Bool :=
  let gateActive := decide (a.checkpointStartLsn ≠ nullLsn ∧ lsn < a.checkpointStartLsn ∧
    rec.dbId ∈ seeded)
  match rec.txnId with
  | none => !gateActive
  | some txnId =>
    if a.isPrepared txnId then true
    else if a.isCommitted txnId then !gateActive
    else false

/-! ### Records of the log -/

/-- The records of a log with their positions. -/
def records (log : List PositionedEntry) : List Logged :=
  log.filterMap fun e =>
    match e.entry with
    | .ln rec => some (rec, e.lsn)
    | _ => none

theorem mem_records {log : List PositionedEntry} {x : Logged} :
    x ∈ records log ↔ ⟨x.2, .ln x.1⟩ ∈ log := by
  refine ⟨fun h => ?_, fun h => List.mem_filterMap.mpr ⟨_, h, rfl⟩⟩
  obtain ⟨⟨lsn, entry⟩, hmem, hx⟩ := List.mem_filterMap.mp h
  cases entry with
  | ln rec =>
    obtain rfl := Option.some.inj hx
    exact hmem
  | _ => simp at hx

/-! ### The undo of one record -/

/-- The slot of a key, deleted or not, holds the version logged at a position. -/
def undoSlotIsCurrent (t : Tree) (key : Key) (lsn : Lsn) : Bool :=
  match t.slotLsnAny key with
  | some (slotLsn, _) => slotLsn == lsn
  | none => false

/-- The undo of one record, if the slot of its key still holds its version: the key is
removed, or its before-image is written back. -/
def undoLn (log : List PositionedEntry) (t : Tree) (rec : LnRecord) (lsn : Lsn) :
    Option Tree :=
  if !undoSlotIsCurrent t rec.key lsn then some t
  else if rec.abortLsn = nullLsn then some (t.delete rec.key).1
  else if rec.abortKnownDeleted then some (t.delete rec.key).1
  else
    match rec.abortData with
    | some data =>
      (t.insert none (rec.abortKey.getD rec.key) data rec.abortLsn).map Prod.fst
    | none =>
      match readAtLsn log rec.abortLsn with
      | some (.ln before) =>
        match before.data with
        | some data =>
          (t.insert none (before.abortKey.getD before.key) data rec.abortLsn).map Prod.fst
        | none => some (t.delete rec.key).1
      | _ => some (t.delete rec.key).1

/-- The key and value the undo of a record writes back; none if it removes the key. -/
def restored (log : List PositionedEntry) (r : LnRecord) : Option (Key × List UInt8) :=
  if r.abortLsn = nullLsn ∨ r.abortKnownDeleted = true then none
  else
    match r.abortData with
    | some data => some (r.abortKey.getD r.key, data)
    | none =>
      match readAtLsn log r.abortLsn with
      | some (.ln before) =>
        before.data.map fun data => (before.abortKey.getD before.key, data)
      | _ => none

/-- The undo of a record removes its key or writes one key. -/
theorem undoLn_eq (log : List PositionedEntry) (t : Tree) (rec : LnRecord) (lsn : Lsn) :
    undoLn log t rec lsn =
      if undoSlotIsCurrent t rec.key lsn then
        match restored log rec with
        | some (k, data) => (t.insert none k data rec.abortLsn).map Prod.fst
        | none => some (t.delete rec.key).1
      else some t := by
  unfold undoLn restored
  cases undoSlotIsCurrent t rec.key lsn with
  | false => rfl
  | true =>
    by_cases hnull : rec.abortLsn = nullLsn
    · simp [hnull]
    by_cases hkd : rec.abortKnownDeleted = true
    · simp [hkd]
    simp only [Bool.not_true, Bool.false_eq_true, if_false, hnull, hkd, or_self, if_true]
    cases rec.abortData with
    | some data => rfl
    | none =>
      cases readAtLsn log rec.abortLsn with
      | none => rfl
      | some entry =>
        cases entry with
        | ln before =>
          dsimp only
          cases before.data <;> rfl
        | _ => rfl

section Step

variable {log : List PositionedEntry} {t t' : Tree} {x : Logged} {db : ℕ} {k : Key}

/-- What the undo of a record does to the slots of a tree: nothing, if the slot of its key holds
another version; or the slot is removed; or one key is written, after its leaf made room. -/
inductive UndoEffect (log : List PositionedEntry) (x : Logged) (t t' : Tree) : Prop
  | stale (hcur : undoSlotIsCurrent t x.1.key x.2 = false) (heq : t' = t)
  | removed (hcur : undoSlotIsCurrent t x.1.key x.2 = true) (hr : restored log x.1 = none)
      (edits : TreeEdits t t' x.1.key fun _ => none)
  | written (hcur : undoSlotIsCurrent t x.1.key x.2 = true) (k : Key) (data : List UInt8)
      (hr : restored log x.1 = some (k, data)) (l : List BinSlot)
      (hl : t.Drains none k t.slots l)
      (here : ∃ s, t'.slotOf k = some s ∧ s.lsn = x.1.abortLsn ∧ s.isDeleted = false ∧
        s.data = some data)
      (elsewhere : ∀ k', keyCmp t.config.keyComparator k k' ≠ .eq →
        t'.slotOf k' = lookup (keyCmp t.config.keyComparator) BinSlot.key k' l)

/-- **The undo of a record returns**, and has an effect. -/
theorem undoLn_spec (log : List PositionedEntry) (ht : TreeWF t)
    (hmax : 2 ≤ t.config.maxEntriesPerNode) (x : Logged) :
    ∃ t', undoLn log t x.1 x.2 = some t' ∧ TreeWF t' ∧ t'.config = t.config ∧
      UndoEffect log x t t' := by
  rw [undoLn_eq]
  cases hcur : undoSlotIsCurrent t x.1.key x.2 with
  | false => exact ⟨t, rfl, ht, rfl, .stale hcur rfl⟩
  | true =>
    rw [if_pos rfl]
    cases hr : restored log x.1 with
    | none =>
      have hdel := (Tree.delete_spec ht x.1.key).1
      exact ⟨_, rfl, hdel.wf, hdel.config, .removed hcur hr hdel⟩
    | some r =>
      obtain ⟨k, data⟩ := r
      obtain ⟨t', flag, l, heq, hins⟩ := Tree.insert_spec ht hmax none k data x.1.abortLsn
      refine ⟨t', by simp [heq], hins.wf, hins.config,
        .written hcur k data hr l hins.before ?_ fun k' hk' => ?_⟩
      · have hhere := hins.edits.here
        unfold Tree.slotOf
        rw [hins.config, hhere]
        unfold Tree.upsert
        split
        · exact ⟨_, rfl, rfl, rfl, rfl⟩
        · unfold upsertSlot
          cases lookup (keyCmp t.config.keyComparator) BinSlot.key k l with
          | none => exact ⟨_, rfl, rfl, rfl, rfl⟩
          | some s => exact ⟨_, rfl, rfl, rfl, rfl⟩
      · unfold Tree.slotOf
        rw [hins.config]
        exact hins.edits.elsewhere k' hk'

end Step

end Noxu
