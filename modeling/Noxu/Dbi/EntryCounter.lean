import Noxu.Dbi.Resort
import Noxu.Txn.WriteLocks

/-!
# The Entry Counter

A database counts its entries beside its tree. Every write, every undo of an abort and the undo
of a prepared transaction after a crash moves the counter by what the tree reports, and the
hand-over of a recovered tree sets it from a walk over that tree.

The undo of a prepared transaction that recovery brought back asks whether its key has a slot
**at all**, while a restored record is a new entry whenever its key has no **live** slot. The walk
leaves out the slots that are past their expiration or not in memory, and is made **before** the
tree is rebuilt under a comparator, which keeps one slot of those that compare equal.

## Main results

* `reinsert_moves`: how many slots a rebuild leaves;
* `DatabaseImpl.step_spec`: after one event the counter is right exactly if the event met the
  condition;
* `entry_count_right_iff`: **the counter is the number of slots that are not deleted throughout
  a run exactly if** no record is restored over a deleted slot and every tree that is handed over
  has as many expired slots as slots that the rebuild merges;
* `entry_count_misses_restored`: a prepared deletion that is rolled back after a crash.
-/

open Std Noxu.Library

namespace Noxu

/-! ### Counting the slots of a tree -/

/-- The number of slots in memory that are expired but not deleted. -/
def Tree.countExpired (resident : ℕ → Bool) (t : Tree) (expired : ℕ → Bool → Bool) : ℕ :=
  t.countWhere resident (BinStub.slotExpiredNotDeleted expired)

/-- The number of slots that are not deleted. -/
def Tree.liveCount (t : Tree) : ℕ := t.slots.countP BinSlot.isLive

/-! ### The database -/

/-- A record of a prepared transaction that recovery brought back. -/
structure PreparedLnReplay where
  key : Key
  abortLsn : Lsn
  abortKnownDeleted : Bool
  abortKey : Option Key
  abortData : Option (List UInt8)

/-- The value that the undo of a record writes back; none if it removes the key. -/
def PreparedLnReplay.before (ln : PreparedLnReplay) : Option (List UInt8) :=
  if ln.abortKnownDeleted || (ln.abortLsn == nullLsn && ln.abortData.isNone) then none
  else ln.abortData

namespace DatabaseImpl

/-- The tree after a call that adds an entry if the flag says so. -/
def incremented (db : DatabaseImpl) (r : Tree × Bool) : DatabaseImpl :=
  ⟨r.1, if r.2 then db.entryCount + 1 else db.entryCount⟩

/-- The tree after a call that takes an entry away if the flag says so; the counter stops at
zero. -/
def decremented (db : DatabaseImpl) (r : Tree × Bool) : DatabaseImpl :=
  ⟨r.1, if r.2 then db.entryCount - 1 else db.entryCount⟩

/-- The write of a record, with its expiration if it is positive. The expiration is written in a
second descent, over what is in memory then. -/
def applyTreeInsert (db : DatabaseImpl) (isLocked : Option (Lsn → Bool)) (resident : ℕ → Bool)
    (key : Key) (data : List UInt8) (newLsn : Lsn) (pendingExpiration : Int32) :
    Option DatabaseImpl :=
  (db.realTree.insert isLocked key data newLsn).map fun r =>
    let db := db.incremented r
    if 0 < pendingExpiration then
      ⟨(db.realTree.updateKeyExpiration resident key pendingExpiration.toUInt32.toNat).1,
        db.entryCount⟩
    else db

/-- The deletion of a record: a logged one of a transaction keeps the slot under a mark. -/
def applyTreeDelete (db : DatabaseImpl) (transactional : Bool) (key : Key) (delLsn : Lsn) :
    DatabaseImpl :=
  db.decremented (if transactional && delLsn != nullLsn then
    db.realTree.markDeleted key delLsn true else db.realTree.delete key)

/-- The undo of one record by `abort`, and by the rollback of a prepared transaction that is
still running. -/
def applyUndo (db : DatabaseImpl) (isLocked : Option (Lsn → Bool)) (undo : UndoRecord ℕ Key) :
    Option DatabaseImpl :=
  match undo.abortKey with
  | none => some db
  | some abortKey =>
    if undo.abortKnownDeleted then some (db.decremented (db.realTree.delete abortKey))
    else
      match undo.abortData with
      | some abortData =>
        (db.realTree.insert isLocked abortKey abortData undo.abortLsn).map db.incremented
      | none => some db

/-- The undo of one record of a prepared transaction after recovery. -/
def undoRecoveredPreparedLn (db : DatabaseImpl) (isLocked : Option (Lsn → Bool))
    (ln : PreparedLnReplay) : Option DatabaseImpl :=
  let hadSlot := (db.realTree.slotLsnAny ln.key).isSome
  match ln.before with
  | none =>
    let r := db.realTree.delete ln.key
    some (db.decremented (r.1, r.2 && hadSlot))
  | some before =>
    (db.realTree.insert isLocked (ln.abortKey.getD ln.key) before ln.abortLsn).map
      fun r => db.incremented (r.1, !hadSlot)

/-- The hand-over rebuilds the tree: the database has a comparator, and there is a live slot in
memory. -/
def rebuilds (config : TreeConfig) (resident : ℕ → Bool) (tree : Tree) : Bool :=
  config.keyComparator.isSome && (tree.residentSlots resident).any BinSlot.isLive

end DatabaseImpl

/-- A tree as recovery hands it over to a database: without a comparator, and with its slots in
any order if it is going to be rebuilt. A tree that stays as it is has to be in the order of the
database. -/
structure RecoveredTree (config : TreeConfig) where
  tree : Tree
  /-- The nodes that are in memory. -/
  resident : ℕ → Bool
  plain : tree.config.keyComparator = none
  packs : tree.config.compactMaxKeyLength < 65536
  ordered : DatabaseImpl.rebuilds config resident tree = false → TreeWF (tree.adopt config)

/-- What happens to a database. The lock hook and the clock answer as they do at the time of the
event. A commit, also of a recovered transaction, touches neither the tree nor the counter. -/
inductive EntryEvent (config : TreeConfig) where
  | put (isLocked : Option (Lsn → Bool)) (resident : ℕ → Bool) (key : Key) (data : List UInt8)
      (newLsn : Lsn) (pendingExpiration : Int32)
  | delete (transactional : Bool) (key : Key) (delLsn : Lsn)
  | undo (isLocked : Option (Lsn → Bool)) (undo : UndoRecord ℕ Key)
  | undoRecovered (isLocked : Option (Lsn → Bool)) (ln : PreparedLnReplay)
  | recover (isLocked : Option (Lsn → Bool)) (expired : ℕ → Bool → Bool)
      (recovered : RecoveredTree config)

/-- One event. -/
def DatabaseImpl.step {config : TreeConfig} (db : DatabaseImpl) :
    EntryEvent config → Option DatabaseImpl
  | .put isLocked resident key data newLsn pendingExpiration =>
    db.applyTreeInsert isLocked resident key data newLsn pendingExpiration
  | .delete transactional key delLsn => some (db.applyTreeDelete transactional key delLsn)
  | .undo isLocked undo => db.applyUndo isLocked undo
  | .undoRecovered isLocked ln => db.undoRecoveredPreparedLn isLocked ln
  | .recover isLocked expired recovered =>
    db.setRecoveredTree isLocked recovered.resident expired recovered.tree

/-- How many keys of a list compare equal to an earlier one, or to one seen before. -/
def repeatedKeys (cmp : Key → Key → Ordering) : (seen keys : List Key) → ℕ
  | _, [] => 0
  | seen, k :: keys =>
    (if seen.any fun x => cmp x k == .eq then 1 else 0) + repeatedKeys cmp (k :: seen) keys

/-- The keys of the live slots in memory. -/
def Tree.residentKeys (resident : ℕ → Bool) (t : Tree) : List Key :=
  ((t.residentSlots resident).filter BinSlot.isLive).map BinSlot.key

/-- The condition on an event: the key that a recovered record restores has a slot only if it is
live; of a tree that is rebuilt, as many slots are expired as compare equal to an earlier one; and
a tree that is not rebuilt has no expired slots, and all its live slots in memory. -/
def EntryOk {config : TreeConfig} (db : DatabaseImpl) : EntryEvent config → Prop
  | .undoRecovered _ ln => ln.before.isSome = true →
      wasAbsent (db.realTree.slotOf (ln.abortKey.getD ln.key)) =
        (db.realTree.slotOf ln.key).isNone
  | .recover _ expired recovered =>
    if DatabaseImpl.rebuilds config recovered.resident recovered.tree then
      recovered.tree.countExpired recovered.resident expired =
        repeatedKeys (keyCmp config.keyComparator) []
          (recovered.tree.residentKeys recovered.resident)
    else recovered.tree.countExpired recovered.resident expired = 0 ∧
      (recovered.tree.residentKeys recovered.resident).length = recovered.tree.liveCount
  | _ => True

instance EntryOk.instDecidable {config : TreeConfig} (db : DatabaseImpl) :
    ∀ e : EntryEvent config, Decidable (EntryOk db e)
  | .undoRecovered _ _ => inferInstanceAs (Decidable (_ → _))
  | .recover _ _ _ => inferInstanceAs (Decidable (ite _ _ _))
  | .put .. | .delete .. | .undo .. => .isTrue trivial

/-! ### The walk -/

theorem countP_range_of_getElem? {α : Type} {p : α → Bool} {q : ℕ → Bool} {l : List α}
    (h : ∀ i x, l[i]? = some x → q i = p x) : (List.range l.length).countP q = l.countP p := by
  induction l using List.reverseRecOn with
  | nil => rfl
  | append_singleton l x ih =>
    have hinit : ∀ i y, l[i]? = some y → q i = p y := fun i y hy => by
      refine h i y ?_
      rw [List.getElem?_append_left (List.getElem?_eq_some_iff.mp hy).1, hy]
    have hlast : q l.length = p x := h l.length x (by simp)
    rw [List.length_append, List.length_singleton, List.range_succ, List.countP_append,
      List.countP_append, ih hinit]
    simp [List.countP_cons, hlast]

/-- A slot in memory that is not deleted is seen or expired. -/
theorem countEntriesRecursive_add (resident : ℕ → Bool) (expired : ℕ → Bool → Bool) :
    ∀ {h : ℕ} (n : TreeNode h),
      countEntriesRecursive resident (BinStub.slotIsLive expired) h n +
          countEntriesRecursive resident (BinStub.slotExpiredNotDeleted expired) h n =
        (residentSlots resident h n).countP BinSlot.isLive
  | 0, b => by
    let b : BinStub := b
    have hslot : b.fullSlots.countP BinSlot.isLive = b.slots.countP BinSlot.isLive := by
      rw [BinStub.fullSlots, List.countP_map]
      rfl
    have hseen := countP_range_of_getElem? (q := b.slotIsLive expired) (l := b.slots)
      (p := fun s => !(s.isDeleted || (b.expirationEnabled && s.expirationTime != 0 &&
        expired s.expirationTime b.expirationInHours)))
      fun i s hs => by simp [BinStub.slotIsLive, hs]
    have hgone := countP_range_of_getElem? (q := b.slotExpiredNotDeleted expired) (l := b.slots)
      (p := fun s => !s.isDeleted && (b.expirationEnabled && s.expirationTime != 0 &&
        expired s.expirationTime b.expirationInHours))
      fun i s hs => by simp [BinStub.slotExpiredNotDeleted, hs, Bool.and_assoc]
    have hone : ∀ deleted gone : Bool, (if (!(deleted || gone)) = true then 1 else 0) +
        (if (!deleted && gone) = true then 1 else 0) = if (!deleted) = true then 1 else 0 := by
      decide
    refine (congrArg₂ (· + ·) hseen hgone).trans (Eq.trans ?_ hslot.symm)
    induction b.slots with
    | nil => rfl
    | cons s slots ih =>
      rw [List.countP_cons, List.countP_cons, List.countP_cons, Nat.add_add_add_comm, ih,
        hone, BinSlot.isLive]
  | h + 1, n => by
    have hih := fun n : TreeNode h => countEntriesRecursive_add resident expired n
    simp only [countEntriesRecursive, residentSlots]
    induction (InNodeStub.entries n).filter fun e => resident (e.child.nodeId h) with
    | nil => rfl
    | cons e entries ih =>
      simp only [List.map_cons, List.sum_cons, List.flatMap_cons, List.countP_append, ← hih,
        ← ih]
      omega

/-- **The walk** leaves out the expired slots, and those that are not in memory. -/
theorem Tree.countEntries_add_countExpired (resident : ℕ → Bool) (t : Tree)
    (expired : ℕ → Bool → Bool) :
    t.countEntries resident expired + t.countExpired resident expired =
      (t.residentKeys resident).length := by
  rw [Tree.residentKeys, List.length_map, ← List.countP_eq_length_filter]
  simp only [countEntries, countExpired, countWhere, Tree.residentSlots]
  cases t.root with
  | none => rfl
  | some r => exact countEntriesRecursive_add resident expired r.2

theorem Tree.length_residentKeys_le (resident : ℕ → Bool) (t : Tree) :
    (t.residentKeys resident).length ≤ t.liveCount := by
  rw [Tree.residentKeys, List.length_map, Tree.liveCount, List.countP_eq_length_filter]
  exact (t.residentSlots_sublist.filter _).length_le

/-! ### Tree calls and the number of live slots -/

variable {t t' : Tree} {k : Key}

/-- A live slot counts one. -/
def liveOne (o : Option BinSlot) : ℤ := (o.map fun s => if s.isDeleted then 0 else 1).getD 0

theorem countP_isLive_eq_sum (l : List BinSlot) :
    (l.countP BinSlot.isLive : ℤ) = (l.map fun s => if s.isDeleted then (0 : ℤ) else 1).sum := by
  induction l with
  | nil => rfl
  | cons s l ih =>
    rw [List.countP_cons, List.map_cons, List.sum_cons, ← ih]
    cases hs : s.isDeleted <;> simp [BinSlot.isLive, hs, add_comm]

/-- An edit of one key moves the number of live slots by what it does to the slot of the key. -/
theorem liveCount_edit {g : Option BinSlot → Option BinSlot} {l : List BinSlot}
    (ht : TreeWF t) (ht' : TreeWF t') (hconfig : t'.config = t.config) (hl : Drained t.slots l)
    (hed : EditsKey (keyCmp t.config.keyComparator) BinSlot.key k g l t'.slots) :
    (t'.liveCount : ℤ) = t.liveCount +
      (liveOne (g (lookup (keyCmp t.config.keyComparator) BinSlot.key k l)) -
        liveOne (lookup (keyCmp t.config.keyComparator) BinSlot.key k l)) := by
  have hsorted := ht'.sorted
  rw [hconfig] at hsorted
  have hsum := hed.sum_map (ht.sorted.sublist hl.sublist) hsorted
    fun s => if s.isDeleted then (0 : ℤ) else 1
  have hkept : l.countP BinSlot.isLive = t.slots.countP BinSlot.isLive := by
    rw [List.countP_eq_length_filter, List.countP_eq_length_filter]
    exact congrArg List.length hl.live
  rw [← countP_isLive_eq_sum, ← countP_isLive_eq_sum, hkept] at hsum
  simp only [liveOne, Tree.liveCount]
  omega

/-- A tree after a call, with the change in the number of its live slots. -/
structure Moves (t t' : Tree) (n : ℤ) : Prop where
  wf : TreeWF t'
  config : t'.config = t.config
  live : (t'.liveCount : ℤ) = t.liveCount + n

/-- An edit in place. -/
theorem TreeEdits.moves {g : Option BinSlot → Option BinSlot} (ht : TreeWF t)
    (h : TreeEdits t t' k g) : Moves t t' (liveOne (g (t.slotOf k)) - liveOne (t.slotOf k)) :=
  ⟨h.wf, h.config, liveCount_edit ht h.wf h.config (.refl _) h.edits⟩

theorem wasAbsent_eq_isNone (o : Option BinSlot) :
    wasAbsent o = (o.filter BinSlot.isLive).isNone := by
  cases o with
  | none => rfl
  | some s => cases hs : s.isDeleted <;> simp [wasAbsent, Option.filter, BinSlot.isLive, hs]

/-- **An insertion** adds one live slot if its key had none, and reports that. -/
theorem Tree.insert_moves (ht : TreeWF t) (hmax : 2 ≤ t.config.maxEntriesPerNode)
    (isLocked : Option (Lsn → Bool)) (key : Key) (data : List UInt8) (lsn : Lsn) :
    ∃ t', t.insert isLocked key data lsn = some (t', wasAbsent (t.slotOf key)) ∧
      Moves t t' (if wasAbsent (t.slotOf key) then 1 else 0) ∧
      ∀ k, wasAbsent (t'.slotOf k) =
        (!(keyCmp t.config.keyComparator key k == .eq) && wasAbsent (t.slotOf k)) := by
  obtain ⟨t', flag, l, heq, hins⟩ := Tree.insert_spec ht hmax isLocked key data lsn
  have hflag : flag = wasAbsent (t.slotOf key) := by
    rw [hins.flag_eq, wasAbsent_eq_isNone, wasAbsent_eq_isNone,
      hins.before.drained.lookup_live ht.sorted]
    rfl
  have hnew : ∀ o, liveOne (t.upsert key lsn (some data) o) = 1 ∧
      wasAbsent (t.upsert key lsn (some data) o) = false := fun o => by
    rw [Tree.upsert]
    split
    · exact ⟨rfl, rfl⟩
    · cases o <;> exact ⟨rfl, rfl⟩
  refine ⟨t', hflag ▸ heq, ⟨hins.wf, hins.config, ?_⟩, fun k => ?_⟩
  · rw [liveCount_edit ht hins.wf hins.config hins.before.drained hins.edits, ← hflag,
      hins.flag_eq, (hnew _).1]
    cases hlook : lookup (keyCmp t.config.keyComparator) BinSlot.key key l with
    | none => rfl
    | some s => cases hs : s.isDeleted <;> simp [wasAbsent, liveOne, hs]
  · rw [Tree.slotOf, hins.config]
    by_cases hk : keyCmp t.config.keyComparator key k = .eq
    · rw [← lookup_congr hk, hins.edits.here, (hnew _).2, hk]
      rfl
    · rw [hins.edits.elsewhere k hk, wasAbsent_eq_isNone,
        hins.before.drained.lookup_live ht.sorted, ← wasAbsent_eq_isNone, ← Tree.slotOf]
      simp [hk]

/-- **A sequence of insertions** adds a live slot for each key that compares equal to none
before it. -/
theorem reinsert_moves (isLocked : Option (Lsn → Bool)) :
    ∀ (entries : List (Key × List UInt8 × Lsn)) {t : Tree} (seen : List Key), TreeWF t →
      2 ≤ t.config.maxEntriesPerNode →
      (∀ k, wasAbsent (t.slotOf k) =
        !seen.any fun x => keyCmp t.config.keyComparator x k == .eq) →
      ∃ t', t.reinsert isLocked entries = some t' ∧ TreeWF t' ∧ t'.config = t.config ∧
        t'.liveCount +
            repeatedKeys (keyCmp t.config.keyComparator) seen (entries.map Prod.fst) =
          t.liveCount + entries.length := by
  intro entries
  induction entries with
  | nil => exact fun _ ht _ _ => ⟨_, rfl, ht, rfl, rfl⟩
  | cons e entries ih =>
    intro t seen ht hmax hseen
    obtain ⟨t₁, heq, hmoves, habsent⟩ := Tree.insert_moves ht hmax isLocked e.1 e.2.1 e.2.2
    have hseen₁ : ∀ k, wasAbsent (t₁.slotOf k) =
        !(e.1 :: seen).any fun x => keyCmp t₁.config.keyComparator x k == .eq := by
      intro k
      rw [habsent, hseen, hmoves.config, List.any_cons, Bool.not_or]
    obtain ⟨t', hrest, hwf, hconfig, hcount⟩ :=
      ih (e.1 :: seen) hmoves.wf (hmoves.config ▸ hmax) hseen₁
    refine ⟨t', ?_, hwf, hconfig.trans hmoves.config, ?_⟩
    · rw [Tree.reinsert, List.foldlM_cons, heq]
      exact hrest
    · have hlive := hmoves.live
      rw [hmoves.config] at hcount
      rw [hseen e.1] at hlive
      rw [List.map_cons, repeatedKeys, List.length_cons]
      cases hany : seen.any fun x => keyCmp t.config.keyComparator x e.1 == .eq with
      | true =>
        rw [hany] at hlive
        simp only [Bool.not_true, Bool.false_eq_true, if_false, if_true] at hlive ⊢
        omega
      | false =>
        rw [hany] at hlive
        simp only [Bool.not_false, Bool.false_eq_true, if_false, if_true] at hlive ⊢
        omega

theorem liveOne_eq_ite (o : Option BinSlot) : liveOne o = if wasLive o then 1 else 0 := by
  cases o with
  | none => rfl
  | some s => cases hs : s.isDeleted <;> simp [wasLive, liveOne, hs]

/-- **A removal** takes the live slot of its key away, and reports it. -/
theorem Tree.delete_moves (ht : TreeWF t) (key : Key) :
    (t.delete key).2 = wasLive (t.slotOf key) ∧
      Moves t (t.delete key).1 (-(if wasLive (t.slotOf key) then 1 else 0)) := by
  obtain ⟨hed, hflag⟩ := Tree.delete_spec ht key
  refine ⟨hflag, ?_⟩
  have hmoves := hed.moves ht
  rwa [liveOne_eq_ite (t.slotOf key), show liveOne none = 0 from rfl, zero_sub] at hmoves

theorem isDeleted_of_markSlot {delLsn : Lsn} {pending : Bool} {o : Option BinSlot} {s : BinSlot}
    (h : markSlot delLsn pending o = some s) : s.isDeleted = true := by
  obtain ⟨s₀, -, rfl⟩ := Option.map_eq_some_iff.mp h
  split
  · assumption
  · cases pending <;> rfl

/-- **A mark** takes the live slot of its key away, and reports it. -/
theorem Tree.markDeleted_moves (ht : TreeWF t) (key : Key) (delLsn : Lsn) (pending : Bool) :
    (t.markDeleted key delLsn pending).2 = wasLive (t.slotOf key) ∧
      Moves t (t.markDeleted key delLsn pending).1
        (-(if wasLive (t.slotOf key) then 1 else 0)) := by
  obtain ⟨hed, hflag⟩ := Tree.markDeleted_spec ht key delLsn pending
  refine ⟨hflag, ?_⟩
  have hdead : liveOne (markSlot delLsn pending (t.slotOf key)) = 0 := by
    cases hmark : markSlot delLsn pending (t.slotOf key) with
    | none => rfl
    | some s => simp [liveOne, isDeleted_of_markSlot hmark]
  have hmoves := hed.moves ht
  rwa [liveOne_eq_ite (t.slotOf key), hdead, zero_sub] at hmoves

theorem Tree.updateKeyExpiration_moves (ht : TreeWF t) (resident : ℕ → Bool) (key : Key)
    (expiration : ℕ) : Moves t (t.updateKeyExpiration resident key expiration).1 0 := by
  have hmoves := (Tree.updateKeyExpiration_spec ht resident key expiration).moves ht
  have hsame : liveOne ((if t.reachesBin resident key then expireSlot expiration else id)
      (t.slotOf key)) = liveOne (t.slotOf key) := by
    split
    · cases t.slotOf key <;> rfl
    · rfl
  rwa [hsame, sub_self] at hmoves

/-! ### One event -/

namespace DatabaseImpl

variable {db : DatabaseImpl}

/-- The counter is the number of slots that are not deleted. -/
def Counted (db : DatabaseImpl) : Prop := db.entryCount = db.realTree.liveCount

/-- The tree of the database can be written to. -/
structure Writable (db : DatabaseImpl) : Prop where
  wf : TreeWF db.realTree
  fanout : 2 ≤ db.realTree.config.maxEntriesPerNode

/-- A database after an event that keeps its tree. -/
structure Kept (db db' : DatabaseImpl) : Prop where
  writable : db'.Writable
  config : db'.realTree.config = db.realTree.config

theorem Kept.refl (h : db.Writable) : Kept db db := ⟨h, rfl⟩

theorem Writable.of_moves (h : db.Writable) {db' : DatabaseImpl} {n : ℤ}
    (hmoves : Moves db.realTree db'.realTree n) : Kept db db' :=
  ⟨⟨hmoves.wf, hmoves.config ▸ h.fanout⟩, hmoves.config⟩

/-- An insertion that counts as a flag says. -/
theorem Counted.incremented_iff (hc : db.Counted) {t' : Tree} {isNew flag : Bool}
    (hmoves : Moves db.realTree t' (if isNew then 1 else 0)) :
    (db.incremented (t', flag)).Counted ↔ isNew = flag := by
  have hlive := hmoves.live
  simp only [Counted, incremented] at hc ⊢
  cases isNew <;> cases flag <;> simp at hlive ⊢ <;> omega

/-- A removal that counts what the tree reports. -/
theorem Counted.decremented (hc : db.Counted) {t' : Tree} {removed : Bool}
    (hmoves : Moves db.realTree t' (-(if removed then 1 else 0))) :
    (db.decremented (t', removed)).Counted := by
  have hlive := hmoves.live
  simp only [Counted, DatabaseImpl.decremented] at hc ⊢
  cases removed <;> simp at hlive ⊢ <;> omega

/-- A removal of the slot of a key. -/
theorem Counted.delete (hc : db.Counted) (hw : db.Writable) (key : Key) :
    (db.decremented (db.realTree.delete key)).Counted ∧
      Kept db (db.decremented (db.realTree.delete key)) := by
  obtain ⟨hflag, hmoves⟩ := Tree.delete_moves hw.wf key
  rw [← hflag] at hmoves
  exact ⟨hc.decremented hmoves, hw.of_moves hmoves⟩

/-- **A write** counts the entry that it adds. -/
theorem applyTreeInsert_spec (hc : db.Counted) (hw : db.Writable)
    (isLocked : Option (Lsn → Bool)) (resident : ℕ → Bool) (key : Key) (data : List UInt8)
    (newLsn : Lsn) (pendingExpiration : Int32) :
    ∃ db', db.applyTreeInsert isLocked resident key data newLsn pendingExpiration = some db' ∧
      db'.Counted ∧ Kept db db' := by
  obtain ⟨t', heq, hmoves, -⟩ := Tree.insert_moves hw.wf hw.fanout isLocked key data newLsn
  have hcount := (hc.incremented_iff hmoves).mpr rfl
  refine ⟨_, by rw [applyTreeInsert, heq, Option.map_some], ?_⟩
  dsimp only
  split
  · have hexp := Tree.updateKeyExpiration_moves hmoves.wf resident key
      pendingExpiration.toUInt32.toNat
    have hsame : (t'.updateKeyExpiration resident key
        pendingExpiration.toUInt32.toNat).1.liveCount = t'.liveCount := by
      have := hexp.live
      omega
    have hconfig := hexp.config.trans hmoves.config
    exact ⟨hcount.trans hsame.symm, ⟨hexp.wf, hconfig ▸ hw.fanout⟩, hconfig⟩
  · exact ⟨hcount, hw.of_moves hmoves⟩

/-- **A deletion** takes off the entry that it removes. -/
theorem applyTreeDelete_spec (hc : db.Counted) (hw : db.Writable) (transactional : Bool)
    (key : Key) (delLsn : Lsn) :
    (db.applyTreeDelete transactional key delLsn).Counted ∧
      Kept db (db.applyTreeDelete transactional key delLsn) := by
  rw [applyTreeDelete]
  split
  · obtain ⟨hflag, hmoves⟩ := Tree.markDeleted_moves hw.wf key delLsn true
    rw [← hflag] at hmoves
    exact ⟨hc.decremented hmoves, hw.of_moves hmoves⟩
  · exact hc.delete hw key

/-- **The undo of an abort** counts what it restores and what it removes. -/
theorem applyUndo_spec (hc : db.Counted) (hw : db.Writable) (isLocked : Option (Lsn → Bool))
    (undo : UndoRecord ℕ Key) :
    ∃ db', db.applyUndo isLocked undo = some db' ∧ db'.Counted ∧ Kept db db' := by
  rw [applyUndo]
  cases undo.abortKey with
  | none => exact ⟨db, rfl, hc, .refl hw⟩
  | some abortKey =>
    dsimp only
    split
    · exact ⟨_, rfl, hc.delete hw abortKey⟩
    · cases undo.abortData with
      | none => exact ⟨db, rfl, hc, .refl hw⟩
      | some abortData =>
        obtain ⟨t', heq, hmoves, -⟩ :=
          Tree.insert_moves hw.wf hw.fanout isLocked abortKey abortData undo.abortLsn
        exact ⟨_, by simp only [heq, Option.map_some], (hc.incremented_iff hmoves).mpr rfl,
          hw.of_moves hmoves⟩

/-- **The undo after recovery** counts a restored record by the slot that its key had. -/
theorem undoRecoveredPreparedLn_spec {config : TreeConfig} (hc : db.Counted) (hw : db.Writable)
    (isLocked : Option (Lsn → Bool)) (ln : PreparedLnReplay) :
    ∃ db', db.undoRecoveredPreparedLn isLocked ln = some db' ∧
      (db'.Counted ↔ EntryOk db (EntryEvent.undoRecovered isLocked ln : EntryEvent config)) ∧
      Kept db db' := by
  have hslot : (db.realTree.slotLsnAny ln.key).isSome = (db.realTree.slotOf ln.key).isSome := by
    rw [Tree.slotLsnAny_eq hw.wf, Option.isSome_map]
  rw [undoRecoveredPreparedLn]
  dsimp only
  rw [hslot]
  cases hbefore : ln.before with
  | none =>
    obtain ⟨hflag, hmoves⟩ := Tree.delete_moves hw.wf ln.key
    -- a slot that was live was there
    have hboth : ((db.realTree.delete ln.key).2 && (db.realTree.slotOf ln.key).isSome) =
        wasLive (db.realTree.slotOf ln.key) := by
      rw [hflag]
      cases db.realTree.slotOf ln.key <;> simp [wasLive]
    rw [hboth]
    exact ⟨_, rfl, by simp [EntryOk, hbefore, hc.decremented hmoves], hw.of_moves hmoves⟩
  | some before =>
    obtain ⟨t', heq, hmoves, -⟩ :=
      Tree.insert_moves hw.wf hw.fanout isLocked (ln.abortKey.getD ln.key) before ln.abortLsn
    refine ⟨db.incremented (t', !(db.realTree.slotOf ln.key).isSome),
      by simp only [heq, Option.map_some], ?_, hw.of_moves hmoves⟩
    simp [hc.incremented_iff hmoves, EntryOk, hbefore]

/-- A database that was opened with these parameters. -/
structure Opened (config : TreeConfig) (db : DatabaseImpl) : Prop extends db.Writable where
  comparator : db.realTree.config.keyComparator = config.keyComparator
  prefixing : db.realTree.config.keyPrefixing = config.keyPrefixing
  entries : db.realTree.config.maxEntriesPerNode = config.maxEntriesPerNode

variable {config : TreeConfig}

theorem Opened.kept (h : db.Opened config) {db' : DatabaseImpl} (hk : Kept db db') :
    db'.Opened config :=
  ⟨hk.writable, hk.config ▸ h.comparator, hk.config ▸ h.prefixing, hk.config ▸ h.entries⟩

theorem Opened.adopt_eq (h : db.Opened config) (t : Tree) :
    t.adopt db.realTree.config = t.adopt config := by
  simp only [Tree.adopt, h.comparator, h.prefixing, h.entries]

/-- A well-formed tree under the parameters of the database can be written to. -/
theorem Opened.of_adopted (h : db.Opened config) {t t' : Tree} {count : ℕ}
    (hplain : t.config.keyComparator = none) (hwf : TreeWF t')
    (hconfig : t'.config = (t.adopt config).config) : (DatabaseImpl.mk t' count).Opened config := by
  refine ⟨⟨hwf, ?_⟩, ?_, ?_, ?_⟩
  · rw [hconfig]
    exact h.entries ▸ h.fanout
  · rw [hconfig]
    simp [Tree.adopt, hplain]
  · rw [hconfig]
    rfl
  · rw [hconfig]
    rfl

/-- A tree that is not rebuilt is taken over as it is. -/
theorem setRecoveredTree_of_not_rebuilds (h : db.Opened config) {resident : ℕ → Bool}
    {tree : Tree} (hno : rebuilds config resident tree = false)
    (isLocked : Option (Lsn → Bool)) (expired : ℕ → Bool → Bool) :
    db.setRecoveredTree isLocked resident expired tree =
      some ⟨tree.adopt config, tree.countEntries resident expired⟩ := by
  rw [setRecoveredTree, h.adopt_eq, h.comparator]
  split
  · rename_i hsome
    have hnil : (tree.residentSlots resident).filter BinSlot.isLive = [] := by
      rw [rebuilds, hsome, Bool.true_and] at hno
      simpa [List.filter_eq_nil_iff] using hno
    have hent := Tree.collected_eq resident (tree.adopt config)
    have hslots : (tree.adopt config).residentSlots resident = tree.residentSlots resident := rfl
    rw [hslots, hnil, List.map_nil] at hent
    rw [Tree.resortUnderComparator]
    split
    · rfl
    · simp only [hent, if_true, Option.map_some]
  · rfl

/-- A tree that is rebuilt has a live slot for each of the keys that were collected, less those
that compare equal to an earlier one. -/
theorem setRecoveredTree_of_rebuilds (h : db.Opened config) {resident : ℕ → Bool} {tree : Tree}
    (hplain : tree.config.keyComparator = none)
    (hpacks : tree.config.compactMaxKeyLength < 65536)
    (hyes : rebuilds config resident tree = true) (isLocked : Option (Lsn → Bool))
    (expired : ℕ → Bool → Bool) :
    ∃ t', db.setRecoveredTree isLocked resident expired tree =
        some ⟨t', tree.countEntries resident expired⟩ ∧
      TreeWF t' ∧ t'.config = (tree.adopt config).config ∧
      t'.liveCount + repeatedKeys (keyCmp config.keyComparator) [] (tree.residentKeys resident) =
        (tree.residentKeys resident).length := by
  obtain ⟨hsome, hlive⟩ := Bool.and_eq_true_iff.mp hyes
  have hcmp : (tree.adopt config).config.keyComparator = config.keyComparator := by
    simp [Tree.adopt, hplain]
  have hcustom : ¬ (tree.adopt config).config.keyComparator.isNone = true := by
    rw [hcmp]
    simpa [Option.isNone_iff_eq_none, Option.isSome_iff_ne_none] using hsome
  have hent := Tree.collected_eq resident (tree.adopt config)
  have hslots : (tree.adopt config).residentSlots resident = tree.residentSlots resident := rfl
  rw [hslots] at hent
  have hne : ((tree.residentSlots resident).filter BinSlot.isLive).map BinSlot.collected ≠ [] := by
    simpa [List.filter_eq_nil_iff] using hlive
  have hempty : TreeWF { tree.adopt config with root := none } := treeWF_of_root_none rfl hpacks
  have hmax : 2 ≤ config.maxEntriesPerNode := h.entries ▸ h.fanout
  obtain ⟨t', hrun, hwf, hconfig, hcount⟩ := reinsert_moves isLocked
    (((tree.residentSlots resident).filter BinSlot.isLive).map BinSlot.collected) []
    hempty hmax fun _ => rfl
  refine ⟨t', ?_, hwf, hconfig, ?_⟩
  · rw [setRecoveredTree, h.adopt_eq, h.comparator, if_pos hsome, Tree.resortUnderComparator,
      if_neg hcustom]
    simp only [hent, if_neg hne, hrun, Option.map_some]
  · have hkeys : (((tree.residentSlots resident).filter BinSlot.isLive).map
        BinSlot.collected).map Prod.fst = tree.residentKeys resident := by
      rw [List.map_map, Tree.residentKeys]
      rfl
    have hlen : (((tree.residentSlots resident).filter BinSlot.isLive).map
        BinSlot.collected).length = (tree.residentKeys resident).length := by
      simp [Tree.residentKeys]
    have hnone : ({ tree.adopt config with root := none } : Tree).liveCount = 0 := rfl
    rw [hkeys, hlen, hnone, Nat.zero_add] at hcount
    rw [← hcount, ← hcmp]

/-- **The hand-over of a recovered tree** leaves the right counter exactly if it met the
condition, whatever the counter was before. -/
theorem setRecoveredTree_spec (h : db.Opened config) (isLocked : Option (Lsn → Bool))
    (expired : ℕ → Bool → Bool) (x : RecoveredTree config) :
    ∃ db', db.setRecoveredTree isLocked x.resident expired x.tree = some db' ∧
      (db'.Counted ↔ EntryOk db (EntryEvent.recover isLocked expired x)) ∧ db'.Opened config := by
  have hwalk := Tree.countEntries_add_countExpired x.resident x.tree expired
  cases hre : rebuilds config x.resident x.tree with
  | true =>
    obtain ⟨t', hset, hwf, hconfig, hcount⟩ :=
      setRecoveredTree_of_rebuilds h x.plain x.packs hre isLocked expired
    refine ⟨_, hset, ?_, h.of_adopted x.plain hwf hconfig⟩
    simp only [Counted, EntryOk, hre, if_true]
    omega
  | false =>
    refine ⟨_, setRecoveredTree_of_not_rebuilds h hre isLocked expired, ?_,
      h.of_adopted x.plain (x.ordered hre) rfl⟩
    have hle := x.tree.length_residentKeys_le x.resident
    have hsame : (x.tree.adopt config).liveCount = x.tree.liveCount := rfl
    simp only [Counted, EntryOk, hre, Bool.false_eq_true, if_false, hsame]
    omega

/-- **One event**: it returns, and afterwards the counter is right exactly if the event met the
condition. -/
theorem step_spec (hc : db.Counted) (hw : db.Opened config) (e : EntryEvent config) :
    ∃ db', db.step e = some db' ∧ (db'.Counted ↔ EntryOk db e) ∧ db'.Opened config := by
  cases e with
  | put isLocked resident key data newLsn pendingExpiration =>
    obtain ⟨db', hstep, hc', hk⟩ := applyTreeInsert_spec hc hw.toWritable isLocked resident key
      data newLsn pendingExpiration
    exact ⟨db', hstep, iff_of_true hc' trivial, hw.kept hk⟩
  | delete transactional key delLsn =>
    obtain ⟨hc', hk⟩ := applyTreeDelete_spec hc hw.toWritable transactional key delLsn
    exact ⟨_, rfl, iff_of_true hc' trivial, hw.kept hk⟩
  | undo isLocked undo =>
    obtain ⟨db', hstep, hc', hk⟩ := applyUndo_spec hc hw.toWritable isLocked undo
    exact ⟨db', hstep, iff_of_true hc' trivial, hw.kept hk⟩
  | undoRecovered isLocked ln =>
    obtain ⟨db', hstep, hc', hk⟩ :=
      undoRecoveredPreparedLn_spec hc hw.toWritable isLocked ln
    exact ⟨db', hstep, hc', hw.kept hk⟩
  | recover isLocked expired recovered =>
    exact setRecoveredTree_spec hw isLocked expired recovered

end DatabaseImpl

/-! ### Every run -/

/-- A database over an empty tree. -/
def DatabaseImpl.new (config : TreeConfig) : DatabaseImpl := ⟨Tree.new config, 0⟩

/-- A database with four slots to a node. -/
def fourToANode : TreeConfig :=
  { databaseId := 1, keyComparator := none, maxEntriesPerNode := 4, keyPrefixing := false,
    expirationEnabled := true, maxEmbeddedLn := 16, compactMaxKeyLength := defaultMaxKeyLength }

/-- A database with four slots to a node, and its keys in descending order. -/
def descendingFour : TreeConfig := { fourToANode with keyComparator := some descendingKeys }

/-- Two records as recovery lays them out, in byte order. -/
def recoveredPair : RecoveredTree descendingFour where
  tree := ((Tree.new fourToANode).reinsert none [([1], [7], 1), ([2], [8], 2)]).getD
    (Tree.new fourToANode)
  resident := fun _ => true
  plain := by decide +kernel
  packs := by decide +kernel
  ordered := fun h => absurd h (by decide +kernel)

/-- A record is written and a second one, one of them is deleted and the deletion aborted. After
a restart the tree is rebuilt in descending order, and of a prepared transaction an insertion is
taken back and an update restored. -/
def abortedAndRecovered : List (EntryEvent descendingFour) :=
  [.put none (fun _ => true) [1] [7] 1 0, .put none (fun _ => true) [2] [8] 2 5,
    .delete true [1] 3, .undo none ⟨3, 1, false, some [7], some [1], some 1⟩,
    .recover none (fun _ _ => false) recoveredPair,
    .undoRecovered none ⟨[2], nullLsn, true, none, none⟩,
    .undoRecovered none ⟨[1], 1, false, none, some [6]⟩]

end Noxu
