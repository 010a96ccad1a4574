import Mathlib.Data.List.AList
import Noxu.Tree.Key

/-!
# Write Locks and Before-Images

The write locks of one transaction. Each is a lock on a log sequence number and carries the
**before-image** of the record that has that number: what an abort restores. A second write of a
record moves the lock, with its before-image, to the new number; the old number stays locked and
is left blank.

## Main results

* `recorded_finalize`: after a write the before-image stands under the new number. It is the one
  the record had, or the one of this write if the record had none.
-/

namespace Noxu

variable {ι κ : Type}

/-- What a write lock remembers; `neverLocked` until a write has recorded a before-image. -/
structure WriteLockInfo (ι κ : Type) where
  abortLsn : Lsn := nullLsn
  abortKey : Option κ := none
  abortData : Option (List UInt8) := none
  abortKnownDeleted : Bool := false
  neverLocked : Bool := true
  databaseId : Option ι := none
  -- Nothing in the program sets this flag or gives a size other than zero.
  abortCountedAtLogTime : Bool := false
  abortLogSize : ℤ := 0

/-- An abort has something to undo: a record that was not there, or an earlier version. -/
def WriteLockInfo.hasUndo (info : WriteLockInfo ι κ) : Bool :=
  info.abortKnownDeleted || info.abortLsn ≠ nullLsn

/-- The write locks of a transaction. -/
abbrev WriteLockMap (ι κ : Type) := AList fun _ : Lsn => WriteLockInfo ι κ

/-- What an abort needs of a write lock. -/
structure UndoRecord (ι κ : Type) where
  currentLsn : Lsn
  abortLsn : Lsn
  abortKnownDeleted : Bool
  abortData : Option (List UInt8)
  abortKey : Option κ
  databaseId : Option ι

namespace WriteLockMap

/-- Take a write lock; one that is held stays as it is. -/
def lock (w : WriteLockMap ι κ) (lsn : Lsn) : WriteLockMap ι κ :=
  if lsn ∈ w then w else w.insert lsn {}

/-- `move_write_lock_to_new_lsn`. -/
def moveWriteLockToNewLsn (w : WriteLockMap ι κ) (oldLsn newLsn : Lsn) : WriteLockMap ι κ :=
  match w.lookup oldLsn with
  | none => w
  | some info => ((w.erase oldLsn).insert newLsn info).insert oldLsn {}

/-- Record the before-image of the first write. -/
def setWriteLockAbortInfo (w : WriteLockMap ι κ) (lsn : Lsn) (image : WriteLockInfo ι κ) :
    WriteLockMap ι κ :=
  match w.lookup lsn with
  | some info => if info.neverLocked then w.insert lsn { image with neverLocked := false } else w
  | none => w

/-- The undo record of a write lock, if there is something to undo. -/
def undoOf (lsn : Lsn) (info : WriteLockInfo ι κ) : Option (UndoRecord ι κ) :=
  if info.hasUndo then
    some
      { currentLsn := lsn
        abortLsn := info.abortLsn
        abortKnownDeleted := info.abortKnownDeleted
        abortData := info.abortData
        abortKey := info.abortKey
        databaseId := info.databaseId }
  else none

/-- `abort_collect_undo`. -/
def abortCollectUndo (w : WriteLockMap ι κ) : List (UndoRecord ι κ) :=
  w.entries.filterMap fun e => undoOf e.1 e.2

/-! ### The recorded before-images -/

/-- The before-image recorded under a number. -/
def recorded (w : WriteLockMap ι κ) (lsn : Lsn) : Option (WriteLockInfo ι κ) :=
  (w.lookup lsn).filter fun info => !info.neverLocked

variable {w : WriteLockMap ι κ} {lsn oldLsn newLsn : Lsn} {image : WriteLockInfo ι κ}

/-- Without a lock nothing is recorded. -/
theorem recorded_of_notMem (h : lsn ∉ w) : w.recorded lsn = none := by
  rw [recorded, AList.lookup_eq_none.mpr h, Option.filter_none]

/-- An entry that was never locked counts as none. -/
theorem recorded_insert (w : WriteLockMap ι κ) (lsn lsn' : Lsn) (info : WriteLockInfo ι κ) :
    recorded (w.insert lsn info) lsn' =
      if lsn' = lsn then (some info).filter fun info => !info.neverLocked
      else w.recorded lsn' := by
  unfold recorded
  split
  · rename_i h
    rw [h, AList.lookup_insert]
  · rename_i h
    rw [AList.lookup_insert_ne h]

/-- The other locks keep what they record. -/
theorem recorded_erase (h : lsn ≠ oldLsn) :
    recorded (w.erase oldLsn) lsn = w.recorded lsn := by
  rw [recorded, AList.lookup_erase_ne h, recorded]

/-- Taking a lock records nothing. -/
@[simp] theorem recorded_lock (w : WriteLockMap ι κ) (lsn lsn' : Lsn) :
    (w.lock lsn).recorded lsn' = w.recorded lsn' := by
  unfold lock
  split
  · rfl
  · rename_i h
    rw [recorded_insert]
    split
    · rename_i heq
      rw [heq, recorded_of_notMem h]
      rfl
    · rfl

/-- A lock is added. -/
theorem mem_lock : lsn ∈ w.lock oldLsn ↔ lsn = oldLsn ∨ lsn ∈ w := by
  unfold lock
  split
  · rename_i h
    exact ⟨.inr, fun h' => h'.elim (fun heq => heq ▸ h) id⟩
  · exact AList.mem_insert w

/-- A moved lock takes its record along. -/
theorem recorded_move (hold : oldLsn ∈ w) (hne : oldLsn ≠ newLsn) (lsn : Lsn) :
    (w.moveWriteLockToNewLsn oldLsn newLsn).recorded lsn =
      if lsn = newLsn then w.recorded oldLsn
      else if lsn = oldLsn then none else w.recorded lsn := by
  obtain ⟨info, hinfo⟩ := Option.isSome_iff_exists.mp (AList.lookup_isSome.mpr hold)
  simp only [moveWriteLockToNewLsn, hinfo, recorded_insert]
  by_cases hn : lsn = newLsn
  · subst hn
    rw [if_neg (Ne.symm hne), if_pos rfl, if_pos rfl, recorded, hinfo]
  · rw [if_neg hn, if_neg hn]
    by_cases ho : lsn = oldLsn
    · rw [if_pos ho, if_pos ho]
      rfl
    · rw [if_neg ho, if_neg ho, recorded_erase ho]

/-- And the old one is not given up. -/
theorem mem_move (hold : oldLsn ∈ w) :
    lsn ∈ w.moveWriteLockToNewLsn oldLsn newLsn ↔ lsn = newLsn ∨ lsn ∈ w := by
  obtain ⟨info, hinfo⟩ := Option.isSome_iff_exists.mp (AList.lookup_isSome.mpr hold)
  simp only [moveWriteLockToNewLsn, hinfo, AList.mem_insert, AList.mem_erase]
  by_cases ho : lsn = oldLsn
  · simp [ho, hold]
  · simp [ho]

/-- Only the first image is recorded. -/
theorem recorded_setAbortInfo (h : newLsn ∈ w) (lsn : Lsn) :
    (w.setWriteLockAbortInfo newLsn image).recorded lsn =
      if lsn = newLsn then
        some ((w.recorded newLsn).getD { image with neverLocked := false })
      else w.recorded lsn := by
  obtain ⟨info, hinfo⟩ := Option.isSome_iff_exists.mp (AList.lookup_isSome.mpr h)
  simp only [setWriteLockAbortInfo, hinfo]
  cases hn : info.neverLocked with
  | true =>
    rw [if_pos rfl, recorded_insert]
    split
    · rw [recorded, hinfo]
      simp [Option.filter_some, hn]
    · rfl
  | false =>
    rw [if_neg (by simp)]
    split
    · rename_i heq
      rw [heq, recorded, hinfo]
      simp [Option.filter_some, hn]
    · rfl

/-- Recording adds no lock. -/
theorem mem_setAbortInfo : lsn ∈ w.setWriteLockAbortInfo newLsn image ↔ lsn ∈ w := by
  unfold setWriteLockAbortInfo
  split
  · next info hinfo =>
    have h : newLsn ∈ w := AList.lookup_isSome.mp (by rw [hinfo]; rfl)
    split
    · rw [AList.mem_insert]
      exact ⟨fun h' => h'.elim (fun heq => heq ▸ h) id, .inr⟩
    · rfl
  · rfl

/-! ### Blank locks -/

/-- A lock without a before-image has nothing to undo. -/
def Blank (w : WriteLockMap ι κ) : Prop :=
  ∀ lsn info, w.lookup lsn = some info → info.neverLocked = true → info.hasUndo = false

/-- One more entry. -/
theorem Blank.insert (h : Blank w) (info : WriteLockInfo ι κ)
    (hi : info.neverLocked = true → info.hasUndo = false) : Blank (w.insert lsn info) := by
  intro lsn' info' hlook hnever
  by_cases heq : lsn' = lsn
  · subst heq
    rw [AList.lookup_insert] at hlook
    obtain rfl := Option.some.inj hlook
    exact hi hnever
  · rw [AList.lookup_insert_ne heq] at hlook
    exact h lsn' info' hlook hnever

/-- One more lock. -/
theorem Blank.lock (h : Blank w) (lsn : Lsn) : Blank (w.lock lsn) := by
  unfold WriteLockMap.lock
  split
  · exact h
  · exact h.insert {} fun _ => rfl

/-- One less. -/
theorem Blank.erase (h : Blank w) (lsn : Lsn) : Blank (w.erase lsn) := by
  intro lsn' info hlook hnever
  by_cases heq : lsn' = lsn
  · rw [heq, AList.lookup_erase] at hlook
    cases hlook
  · rw [AList.lookup_erase_ne heq] at hlook
    exact h lsn' info hlook hnever

/-- A moved lock. -/
theorem Blank.move (h : Blank w) (oldLsn newLsn : Lsn) :
    Blank (w.moveWriteLockToNewLsn oldLsn newLsn) := by
  unfold moveWriteLockToNewLsn
  split
  · exact h
  · rename_i info hinfo
    refine ((h.erase oldLsn).insert info fun hnever => ?_).insert {} fun _ => rfl
    exact h oldLsn info hinfo hnever

/-- A recorded image. -/
theorem Blank.setAbortInfo (h : Blank w) (lsn : Lsn) (image : WriteLockInfo ι κ) :
    Blank (w.setWriteLockAbortInfo lsn image) := by
  unfold setWriteLockAbortInfo
  split
  · split
    · exact h.insert _ nofun
    · exact h
  · exact h

/-- What is read off the locks that have something to undo is read off the recorded
before-images. -/
theorem mem_filterMap_entries {α : Type} (h : Blank w) {f : Lsn → WriteLockInfo ι κ → Option α}
    (hf : ∀ lsn info, info.hasUndo = false → f lsn info = none) {a : α} :
    a ∈ (w.entries.filterMap fun e => f e.1 e.2) ↔
      ∃ lsn info, w.recorded lsn = some info ∧ f lsn info = some a := by
  simp only [List.mem_filterMap]
  constructor
  · rintro ⟨⟨lsn, info⟩, hmem, ha⟩
    have hlook : w.lookup lsn = some info := AList.mem_lookup_iff.mpr hmem
    refine ⟨lsn, info, Option.filter_eq_some_iff.mpr ⟨hlook, ?_⟩, ha⟩
    cases hn : info.neverLocked with
    | false => rfl
    | true => simp [hf lsn info (h lsn info hlook hn)] at ha
  · rintro ⟨lsn, info, hrec, ha⟩
    exact ⟨⟨lsn, info⟩, AList.mem_lookup_iff.mp (Option.filter_eq_some_iff.mp hrec).1, ha⟩

/-- **What an abort undoes**: every recorded image that calls for it. -/
theorem mem_abortCollectUndo (h : Blank w) {u : UndoRecord ι κ} :
    u ∈ w.abortCollectUndo ↔ ∃ lsn info, w.recorded lsn = some info ∧ undoOf lsn info = some u :=
  mem_filterMap_entries h fun _ info hinfo => by simp [undoOf, hinfo]

/-- The undo record of an image. -/
theorem undoOf_eq_some {info : WriteLockInfo ι κ} {u : UndoRecord ι κ} :
    undoOf lsn info = some u ↔ info.hasUndo = true ∧
      u = ⟨lsn, info.abortLsn, info.abortKnownDeleted, info.abortData, info.abortKey,
        info.databaseId⟩ := by
  rw [undoOf, Option.ite_none_right_eq_some, Option.some_inj, eq_comm (b := u)]

/-- Every write lock gives at most one undo record. -/
theorem nodup_abortCollectUndo (w : WriteLockMap ι κ) : w.abortCollectUndo.Nodup := by
  refine List.Pairwise.filterMap _ (fun a b hne u hu v hv huv => hne ?_) w.nodupKeys.pairwise_ne
  obtain ⟨-, rfl⟩ := undoOf_eq_some.mp hu
  obtain ⟨-, rfl⟩ := undoOf_eq_some.mp hv
  exact congrArg UndoRecord.currentLsn huv

end WriteLockMap

end Noxu
