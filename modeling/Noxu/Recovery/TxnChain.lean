import Mathlib.Data.List.Sort
import Noxu.Library.PairList
import Noxu.Recovery.RollbackTracker
import Noxu.Recovery.Undo

/-!
# The Chain of a Rolled-Back Transaction

A rollback takes a transaction back to a matchpoint: each of its records above the matchpoint
is reverted to the version before it, which is an earlier record of the transaction or else
what its before-image describes. `TxnChain.build` finds these versions in one pass over the
records from the newest to the oldest: it keeps the newest record seen of each slot, patches
it when the next older one is met, and forgets the slot at the first record that is preserved.

Slots are compared by database and key. **One comparator serves all databases**: the chain is
built with that of the database of the transaction's first record.

The undo pass reverts each record to the version its chain names, as long as the slot still holds
the record: the slot is removed, marked deleted, or written back with data from the chain or from
the log.

## Main results

* `applyRevertInfo_eq`: reverting removes, marks or writes one key.
-/

open Std Noxu.Library

namespace Noxu

/-! ### Slots -/

/-- A comparison of keys under which different keys may be the same. -/
structure KeyOrder where
  compare : Key → Key → Ordering
  trans : TransCmp compare

/-- The unsigned byte order. -/
def KeyOrder.bytes : KeyOrder := ⟨Ord.compare, inferInstance⟩

/-- The slot of a record: its database and its key. -/
structure CompareSlot where
  dbId : ℕ
  key : Key

/-- Slots compare by database, then by key. -/
def CompareSlot.cmpWith (a b : CompareSlot) (cmp : Key → Key → Ordering) : Ordering :=
  match compare a.dbId b.dbId with
  | .eq => cmp a.key b.key
  | o => o

/-- The slot of a record. -/
def CompareSlot.of (x : Logged) : CompareSlot := ⟨x.1.dbId, x.1.key⟩

/-! ### The chain -/

/-- The version to revert a record to. -/
structure RevertInfo where
  /-- Its position, null if there is none. -/
  revertLsn : Lsn
  /-- The slot was known deleted. -/
  revertKd : Bool
  /-- The version is a deletion. -/
  revertPd : Bool
  /-- Its key, if it is not that of the record. -/
  revertKey : Option Key
  /-- Its data, if it need not be read from the log. -/
  revertData : Option (List UInt8)
deriving DecidableEq

/-- The version before the transaction. -/
def RevertInfo.fromAbort (r : LnRecord) : RevertInfo :=
  ⟨r.abortLsn, r.abortKnownDeleted, false, r.abortKey, r.abortData⟩

/-- The version of an earlier record of the transaction. -/
def RevertInfo.pointAt (x : Logged) : RevertInfo :=
  ⟨x.2, false, decide (x.1.operation = .delete), some x.1.key, x.1.data⟩

/-- The chain while it is built: the slots with the index of their newest record, the versions
so far and the preserved records. -/
structure ChainBuild where
  recordsMap : List (CompareSlot × ℕ)
  revertList : List RevertInfo
  remainingLockedNodes : List Lsn

/-- One record of the backward walk. -/
def ChainBuild.visit (cmp : Key → Key → Ordering) (matchpoint : Lsn) (s : ChainBuild)
    (x : Logged) : Option ChainBuild :=
  let recId := CompareSlot.of x
  let existing := s.recordsMap.findIdx? fun e => e.1.cmpWith recId cmp == .eq
  let revertList :=
    match existing.bind fun pos => s.recordsMap[pos]? with
    | some e => s.revertList.modify e.2 fun _ => .pointAt x
    | none => s.revertList
  (lsnLt matchpoint x.2).map fun above =>
    if above then
      { recordsMap :=
          match existing with
          | some pos => s.recordsMap.modify pos fun e => (e.1, revertList.length)
          | none => s.recordsMap ++ [(recId, revertList.length)]
        revertList := revertList ++ [.fromAbort x.1]
        remainingLockedNodes := s.remainingLockedNodes }
    else
      { recordsMap :=
          match existing with
          | some pos => swapRemove s.recordsMap pos
          | none => s.recordsMap
        revertList := revertList
        remainingLockedNodes := s.remainingLockedNodes ++ [x.2] }

/-- The records from the newest to the oldest. -/
def newestFirst (logrecs : List Logged) : List Logged :=
  logrecs.insertionSort fun x y => y.2 ≤ x.2

/-- The versions to revert to, in the order of the walk, and the preserved records. -/
structure TxnChain where
  revertList : List RevertInfo
  remainingLockedNodes : List Lsn

namespace TxnChain

/-- Build the chain of a transaction; comparing with a null position is a panic. -/
def build (logrecs : List Logged) (matchpoint : Lsn) (cmp : Key → Key → Ordering) :
    Option TxnChain :=
  ((newestFirst logrecs).foldlM (ChainBuild.visit cmp matchpoint) ⟨[], [], []⟩).map fun s =>
    ⟨s.revertList, s.remainingLockedNodes⟩

/-- Take the next version off the chain. -/
def pop (c : TxnChain) : Option (RevertInfo × TxnChain) :=
  match c.revertList with
  | [] => none
  | ri :: rest => some (ri, { c with revertList := rest })

end TxnChain

/-- The comparator a chain is built with: that of the tree of the first record. -/
def chainOrder (comparators : ℕ → Option KeyOrder) (logrecs : List Logged) : KeyOrder :=
  (logrecs.head?.bind fun x => comparators x.1.dbId).getD .bytes

/-! ### Reverting in a tree -/

/-- Revert a slot to a deletion: without a position to revert to it is removed. -/
def revertToDeleted (t : Tree) (key : Key) (revertLsn : Lsn) : Tree :=
  if revertLsn = nullLsn then (t.delete key).1 else (t.markDeleted key revertLsn false).1

/-- Revert a record to the version its chain names, if the slot of its key still holds it. -/
def applyRevertInfo (log : List PositionedEntry) (t : Tree) (rec : LnRecord) (logLsn : Lsn)
    (ri : RevertInfo) : Option Tree :=
  if !undoSlotIsCurrent t rec.key logLsn then some t
  else if ri.revertKd || ri.revertPd then some (revertToDeleted t rec.key ri.revertLsn)
  else
    match ri.revertData with
    | some data =>
      (t.insert none (ri.revertKey.getD rec.key) data ri.revertLsn).map Prod.fst
    | none =>
      if ri.revertLsn = nullLsn then some (t.delete rec.key).1
      else
        match readAtLsn log ri.revertLsn with
        | some (.ln prev) =>
          match prev.data with
          | some data =>
            (t.insert none (ri.revertKey.getD prev.key) data ri.revertLsn).map Prod.fst
          | none => some (revertToDeleted t rec.key ri.revertLsn)
        | _ => some (t.delete rec.key).1

/-! ### The action on a slot -/

/-- What reverting does to a slot. -/
inductive RevertAction where
  | remove
  | mark (lsn : Lsn)
  | write (key : Key) (data : List UInt8) (lsn : Lsn)

/-- Revert to a deletion. -/
def RevertAction.toDeleted (lsn : Lsn) : RevertAction :=
  if lsn = nullLsn then .remove else .mark lsn

/-- What the version named by a chain asks for. -/
def RevertInfo.action (log : List PositionedEntry) (rec : LnRecord) (ri : RevertInfo) :
    RevertAction :=
  if ri.revertKd || ri.revertPd then .toDeleted ri.revertLsn
  else
    match ri.revertData with
    | some data => .write (ri.revertKey.getD rec.key) data ri.revertLsn
    | none =>
      if ri.revertLsn = nullLsn then .remove
      else
        match readAtLsn log ri.revertLsn with
        | some (.ln prev) =>
          match prev.data with
          | some data => .write (ri.revertKey.getD prev.key) data ri.revertLsn
          | none => .toDeleted ri.revertLsn
        | _ => .remove

/-- Reverting removes, marks or writes one key. -/
theorem applyRevertInfo_eq (log : List PositionedEntry) (t : Tree) (x : Logged)
    (ri : RevertInfo) :
    applyRevertInfo log t x.1 x.2 ri =
      if undoSlotIsCurrent t x.1.key x.2 then
        match ri.action log x.1 with
        | .remove => some (t.delete x.1.key).1
        | .mark lsn => some (t.markDeleted x.1.key lsn false).1
        | .write k data lsn => (t.insert none k data lsn).map Prod.fst
      else some t := by
  unfold applyRevertInfo RevertInfo.action RevertAction.toDeleted revertToDeleted
  cases undoSlotIsCurrent t x.1.key x.2 with
  | false => rfl
  | true =>
    simp only [Bool.not_true, Bool.false_eq_true, if_false, if_true]
    by_cases hdel : (ri.revertKd || ri.revertPd) = true
    · by_cases hnull : ri.revertLsn = nullLsn <;> simp [hdel, hnull]
    · rw [if_neg hdel, if_neg hdel]
      cases ri.revertData with
      | some data => rfl
      | none =>
        by_cases hnull : ri.revertLsn = nullLsn
        · simp [hnull]
        · simp only [hnull, if_false]
          cases readAtLsn log ri.revertLsn with
          | none => rfl
          | some entry =>
            cases entry with
            | ln prev =>
              dsimp only
              cases prev.data <;> rfl
            | _ => rfl

end Noxu
