import Noxu.Library.PairList
import Noxu.Txn.WriteLocks

/-!
# The Versions a Transaction Replaces

A transaction writes records in any order, each as often as it likes. A write locks the version
it replaces, records it as the before-image and moves the lock to the new version. From the locks
that are held at the end an abort finds what to restore and a commit finds the versions that have
become obsolete.

## Main results

* `WriteInv.write`, `writeInv_writeAll`: what one write, and a whole transaction, leaves in the
  write locks;
* `undo_and_obsolete_exact`: the undo list has one entry for each written record, at its current
  version and with the before-image of its first write. A commit reports the versions that were
  there before the transaction. Those are not all that it has superseded: one that it wrote and
  replaced itself is known as such when it is replaced.
-/

namespace Noxu

open Library

variable {ρ ι κ : Type} [DecidableEq ρ]

namespace WriteLockMap

/-- What a commit reports of a write lock: the version that is reclaimable. -/
def obsoleteOf (info : WriteLockInfo ι κ) : Option (Lsn × Option ι × ℤ) :=
  if info.abortLsn = nullLsn ∨ info.abortKnownDeleted = true then none
  else if info.abortCountedAtLogTime then none
  else some (info.abortLsn, info.databaseId, info.abortLogSize)

/-- The versions a commit reports, each once; none without a log manager. -/
def collectObsoleteAbortLsns (w : WriteLockMap ι κ) (logManager : Bool) :
    List (Lsn × Option ι × ℤ) :=
  if logManager then keepFirst Prod.fst (w.entries.filterMap fun e => obsoleteOf e.2) else []

/-- The lock at this number has a before-image. -/
def writeLockAbortRecorded (w : WriteLockMap ι κ) (lsn : Lsn) : Bool :=
  ((w.lookup lsn).map fun info => !info.neverLocked).getD false

end WriteLockMap

/-! ### Writes of records -/

/-- One write: the number of the new version, and what the writer found of the old one. -/
structure RecordWrite (ρ ι κ : Type) where
  record : ρ
  newLsn : Lsn
  abortKey : Option κ
  abortData : Option (List UInt8)
  abortKnownDeleted : Bool
  databaseId : ι

/-- The before-image of a write that replaces `old`; without an old version the record was not
there. -/
def RecordWrite.image (x : RecordWrite ρ ι κ) (old : Option Lsn) : WriteLockInfo ι κ where
  abortLsn := old.getD nullLsn
  abortKey := x.abortKey
  abortData := x.abortData
  abortKnownDeleted := old.isNone || x.abortKnownDeleted
  databaseId := some x.databaseId

/-- The write locks of the transaction and the current version of each record. -/
structure WriteState (ρ ι κ : Type) where
  locks : WriteLockMap ι κ
  current : ρ → Option Lsn

namespace WriteState

/-- Lock the old version, record it and move the lock; a new record is locked where it stands. -/
def write (s : WriteState ρ ι κ) (x : RecordWrite ρ ι κ) : WriteState ρ ι κ where
  locks :=
    match s.current x.record with
    | some old =>
      ((s.locks.lock old).setWriteLockAbortInfo old (x.image (some old))).moveWriteLockToNewLsn
        old x.newLsn
    | none => (s.locks.lock x.newLsn).setWriteLockAbortInfo x.newLsn (x.image none)
  current := Function.update s.current x.record (some x.newLsn)

/-- A transaction that has written nothing, over the versions it finds. -/
def start (versions : ρ → Option Lsn) : WriteState ρ ι κ := ⟨∅, versions⟩

/-- Several writes. -/
def writeAll (s : WriteState ρ ι κ) (xs : List (RecordWrite ρ ι κ)) : WriteState ρ ι κ :=
  xs.foldl write s

/-- The versions the writes replace, each with whether the transaction had written it itself,
as the locks say it when it is replaced. -/
def superseded (s : WriteState ρ ι κ) : List (RecordWrite ρ ι κ) → List (Lsn × Bool)
  | [] => []
  | x :: xs =>
    ((s.current x.record).map fun old => (old, s.locks.writeLockAbortRecorded old)).toList ++
      (s.write x).superseded xs

end WriteState

/-- All versions have numbers of their own: those before the transaction and those it writes. -/
structure Distinct (versions : ρ → Option Lsn) (xs : List (RecordWrite ρ ι κ)) : Prop where
  inj : ∀ {r r' lsn}, versions r = some lsn → versions r' = some lsn → r = r'
  notNull : ∀ r, versions r ≠ some nullLsn
  nodup : (xs.map RecordWrite.newLsn).Nodup
  new : ∀ x ∈ xs, ∀ r, versions r ≠ some x.newLsn

/-- The write that first touched each record. -/
def firstWrites (xs : List (RecordWrite ρ ι κ)) : List (RecordWrite ρ ι κ) :=
  keepFirst RecordWrite.record xs

/-- What the writes `xs` leave behind. A lock has a before-image when it is at the current
version of a written record, and it is the one its first write found. -/
structure WriteInv (versions : ρ → Option Lsn) (xs : List (RecordWrite ρ ι κ))
    (s : WriteState ρ ι κ) : Prop where
  blank : s.locks.Blank
  used_locks : ∀ {lsn}, lsn ∈ s.locks → (∃ r, versions r = some lsn) ∨ lsn ∈ xs.map (·.newLsn)
  used_current : ∀ {r lsn}, s.current r = some lsn →
    (∃ r, versions r = some lsn) ∨ lsn ∈ xs.map (·.newLsn)
  inj : ∀ {r r' lsn}, s.current r = some lsn → s.current r' = some lsn → r = r'
  unwritten : ∀ r, r ∉ xs.map (·.record) → s.current r = versions r
  written : ∀ x ∈ firstWrites xs, ∃ lsn ∈ xs.map (·.newLsn), s.current x.record = some lsn ∧
    s.locks.recorded lsn = some { x.image (versions x.record) with neverLocked := false }
  recorded : ∀ {lsn info}, s.locks.recorded lsn = some info →
    ∃ x ∈ firstWrites xs, s.current x.record = some lsn

variable {versions : ρ → Option Lsn}

theorem writeInv_start (h : Distinct versions ([] : List (RecordWrite ρ ι κ))) :
    WriteInv versions [] (WriteState.start versions : WriteState ρ ι κ) where
  blank := by
    intro lsn info hlook
    cases hlook
  used_locks hl := absurd hl (AList.notMem_empty _)
  used_current hl := .inl ⟨_, hl⟩
  inj := h.inj
  unwritten _ _ := rfl
  written _ hx := absurd hx List.not_mem_nil
  recorded hrec := by
    rw [WriteState.start, WriteLockMap.recorded_of_notMem (AList.notMem_empty _)] at hrec
    cases hrec

/-- **The before-images after a write**: the record's own, or the one of this write, now at the
new version; none at the old one. -/
theorem recorded_write {s : WriteState ρ ι κ} {x : RecordWrite ρ ι κ} (hnew : x.newLsn ∉ s.locks)
    (hne : s.current x.record ≠ some x.newLsn) (lsn : Lsn) :
    (s.write x).locks.recorded lsn =
      if lsn = x.newLsn then
        some (((s.current x.record).bind s.locks.recorded).getD
          { x.image (s.current x.record) with neverLocked := false })
      else if s.current x.record = some lsn then none else s.locks.recorded lsn := by
  unfold WriteState.write
  cases hcur : s.current x.record with
  | none =>
    simp only [WriteLockMap.recorded_setAbortInfo (WriteLockMap.mem_lock.mpr (.inl rfl)),
      WriteLockMap.recorded_lock, WriteLockMap.recorded_of_notMem hnew]
    rfl
  | some old =>
    have hold : old ∈ (s.locks.lock old).setWriteLockAbortInfo old (x.image (some old)) :=
      WriteLockMap.mem_setAbortInfo.mpr (WriteLockMap.mem_lock.mpr (.inl rfl))
    have hon : old ≠ x.newLsn := fun h => hne (by rw [hcur, h])
    simp only [WriteLockMap.recorded_move hold hon,
      WriteLockMap.recorded_setAbortInfo (WriteLockMap.mem_lock.mpr (.inl rfl)),
      WriteLockMap.recorded_lock, Option.some.injEq, if_true, Option.bind_some]
    split
    · rfl
    · by_cases ho : lsn = old
      · rw [if_pos ho, if_pos ho.symm]
      · rw [if_neg ho, if_neg ho, if_neg (Ne.symm ho)]

/-- A write locks the old version and the new one. -/
theorem mem_locks_write {s : WriteState ρ ι κ} {x : RecordWrite ρ ι κ} {lsn : Lsn} :
    lsn ∈ (s.write x).locks ↔
      lsn = x.newLsn ∨ s.current x.record = some lsn ∨ lsn ∈ s.locks := by
  unfold WriteState.write
  cases hcur : s.current x.record with
  | none => simp [WriteLockMap.mem_setAbortInfo, WriteLockMap.mem_lock]
  | some old =>
    have hold : old ∈ (s.locks.lock old).setWriteLockAbortInfo old (x.image (some old)) :=
      WriteLockMap.mem_setAbortInfo.mpr (WriteLockMap.mem_lock.mpr (.inl rfl))
    simp [WriteLockMap.mem_move hold, WriteLockMap.mem_setAbortInfo, WriteLockMap.mem_lock,
      eq_comm]

namespace WriteInv

variable {versions : ρ → Option Lsn} {xs : List (RecordWrite ρ ι κ)} {s : WriteState ρ ι κ}
  {x : RecordWrite ρ ι κ}

omit [DecidableEq ρ] in
/-- The number of the next version is not in use. -/
theorem not_used (hd : Distinct versions (xs ++ [x])) :
    ¬((∃ r, versions r = some x.newLsn) ∨ x.newLsn ∈ xs.map (·.newLsn)) := by
  rintro (⟨r, hr⟩ | hx)
  · exact hd.new x (by simp) r hr
  · have hnodup := hd.nodup
    rw [List.map_append, List.nodup_append] at hnodup
    exact hnodup.2.2 _ hx _ (by simp) rfl

/-- A record that was not written has no before-image. -/
theorem recorded_unwritten (h : WriteInv versions xs s) {r : ρ} (hr : r ∉ xs.map (·.record)) :
    (s.current r).bind s.locks.recorded = none := by
  cases hcur : s.current r with
  | none => rfl
  | some lsn =>
    cases hrec : s.locks.recorded lsn with
    | none => exact hrec
    | some info =>
      obtain ⟨y, hy, hycur⟩ := h.recorded hrec
      have : y.record = r := h.inj hycur hcur
      exact absurd (this ▸ List.mem_map_of_mem (mem_of_mem_keepFirst hy)) hr

/-- **One write** keeps the invariant. -/
theorem write (h : WriteInv versions xs s) (hd : Distinct versions (xs ++ [x])) :
    WriteInv versions (xs ++ [x]) (s.write x) := by
  have hfresh := not_used hd
  have hnew : x.newLsn ∉ s.locks := fun hl => hfresh (h.used_locks hl)
  have hne : ∀ r, s.current r ≠ some x.newLsn := fun r hr => hfresh (h.used_current hr)
  have hrec := recorded_write hnew (hne x.record)
  have hcur : ∀ {r}, r ≠ x.record → (s.write x).current r = s.current r := fun hr =>
    Function.update_of_ne hr _ _
  have hself : (s.write x).current x.record = some x.newLsn := Function.update_self _ _ _
  have hused : ∀ {lsn}, ((∃ r, versions r = some lsn) ∨ lsn ∈ xs.map (·.newLsn)) →
      (∃ r, versions r = some lsn) ∨ lsn ∈ (xs ++ [x]).map (·.newLsn) := fun hl =>
    hl.imp_right fun hm => by simpa using .inl (List.mem_map.mp hm)
  -- The lock of another record is neither the old version's nor the new one's.
  have hother : ∀ {r lsn}, r ≠ x.record → s.current r = some lsn →
      (s.write x).locks.recorded lsn = s.locks.recorded lsn := by
    intro r lsn hr hl
    have hl' : lsn ≠ x.newLsn := by
      rintro rfl
      exact hne r hl
    rw [hrec, if_neg hl', if_neg fun hx => hr (h.inj hl hx)]
  refine ⟨?_, ?_, ?_, ?_, ?_, ?_, ?_⟩
  · unfold WriteState.write
    cases s.current x.record with
    | none => exact (h.blank.lock _).setAbortInfo _ _
    | some old => exact ((h.blank.lock _).setAbortInfo _ _).move _ _
  · intro lsn hl
    rcases mem_locks_write.mp hl with rfl | hl | hl
    · exact .inr (by simp)
    · exact hused (h.used_current hl)
    · exact hused (h.used_locks hl)
  · intro r lsn hl
    by_cases hr : r = x.record
    · rw [hr, hself] at hl
      obtain rfl := Option.some.inj hl
      exact .inr (by simp)
    · rw [hcur hr] at hl
      exact hused (h.used_current hl)
  · intro r r' lsn hl hl'
    by_cases hr : r = x.record <;> by_cases hr' : r' = x.record
    · rw [hr, hr']
    · rw [hr, hself] at hl
      exact absurd (hl ▸ hcur hr' ▸ hl') (hne r')
    · rw [hr', hself] at hl'
      exact absurd (hl' ▸ hcur hr ▸ hl) (hne r)
    · exact h.inj (hcur hr ▸ hl) (hcur hr' ▸ hl')
  · intro r hr
    rw [List.map_append, List.mem_append, not_or] at hr
    have hne : r ≠ x.record := fun heq => hr.2 (by simp [heq])
    rw [hcur hne, h.unwritten r hr.1]
  · intro y hy
    rcases mem_keepFirst_concat.mp hy with hy | ⟨rfl, hy⟩
    · obtain ⟨lsn, hmem, hl, him⟩ := h.written y hy
      by_cases hyx : y.record = x.record
      · rw [hyx] at hl
        refine ⟨x.newLsn, by simp, hyx ▸ hself, ?_⟩
        rw [hrec, if_pos rfl, hl, Option.bind_some, him]
        rfl
      · refine ⟨lsn, ?_, (hcur hyx).trans hl, (hother hyx hl).trans him⟩
        rw [List.map_append]
        exact List.mem_append_left _ hmem
    · refine ⟨y.newLsn, by simp, hself, ?_⟩
      rw [hrec, if_pos rfl, h.recorded_unwritten hy, h.unwritten _ hy]
      rfl
  · intro lsn info hl
    rw [hrec] at hl
    split at hl
    · rename_i heq
      have hx : x.record ∈ (firstWrites (xs ++ [x])).map (·.record) :=
        mem_map_keepFirst.mpr (List.mem_map_of_mem (by simp))
      obtain ⟨y, hy, hyx⟩ := List.mem_map.mp hx
      exact ⟨y, hy, by rw [hyx, hself, heq]⟩
    · split at hl
      · cases hl
      · rename_i hold
        obtain ⟨y, hy, hycur⟩ := h.recorded hl
        have hyx : y.record ≠ x.record := fun heq => hold (heq ▸ hycur)
        exact ⟨y, mem_keepFirst_concat.mpr (.inl hy), (hcur hyx).trans hycur⟩

end WriteInv

omit [DecidableEq ρ] in
theorem Distinct.left {xs ys : List (RecordWrite ρ ι κ)}
    (h : Distinct versions (xs ++ ys)) : Distinct versions xs where
  inj := h.inj
  notNull := h.notNull
  nodup := by
    have := h.nodup
    rw [List.map_append] at this
    exact this.of_append_left
  new x hx := h.new x (List.mem_append_left _ hx)

/-- **A transaction's writes**, in any order. -/
theorem writeInv_writeAll {xs : List (RecordWrite ρ ι κ)} (h : Distinct versions xs) :
    WriteInv versions xs ((WriteState.start versions).writeAll xs) := by
  induction xs using List.reverseRecOn with
  | nil => exact writeInv_start h
  | append_singleton xs x ih =>
    rw [WriteState.writeAll, List.foldl_append]
    exact (ih h.left).write h

/-! ### What an abort restores -/

/-- The undo record of a record's first write, once the record has come to `current`. -/
def RecordWrite.undo (x : RecordWrite ρ ι κ) (old current : Option Lsn) : UndoRecord ι κ where
  currentLsn := current.getD nullLsn
  abortLsn := old.getD nullLsn
  abortKnownDeleted := old.isNone || x.abortKnownDeleted
  abortData := x.abortData
  abortKey := x.abortKey
  databaseId := some x.databaseId

section Results

variable {versions : ρ → Option Lsn} {xs : List (RecordWrite ρ ι κ)} {s : WriteState ρ ι κ}

omit [DecidableEq ρ] in
/-- Every first write has something to undo. -/
theorem hasUndo_image (h : Distinct versions xs) (x : RecordWrite ρ ι κ) :
    (x.image (versions x.record)).hasUndo = true := by
  cases hv : versions x.record with
  | none => rfl
  | some old =>
    have : old ≠ nullLsn := fun hn => h.notNull _ (hn ▸ hv)
    simp [RecordWrite.image, WriteLockInfo.hasUndo, this]

namespace WriteInv

theorem nodup_currents (h : WriteInv versions xs s) :
    ((firstWrites xs).map fun x => (s.current x.record).getD nullLsn).Nodup := by
  have hnodup := nodup_map_keepFirst RecordWrite.record xs
  refine List.Nodup.map_on ?_ hnodup.of_map
  intro x hx y hy heq
  obtain ⟨lsn, -, hl, -⟩ := h.written x hx
  obtain ⟨lsn', -, hl', -⟩ := h.written y hy
  rw [hl, hl'] at heq
  obtain rfl : lsn = lsn' := heq
  exact List.inj_on_of_nodup_map hnodup hx hy (h.inj hl hl')

/-- One undo record for each written record. -/
theorem abortCollectUndo_perm (h : WriteInv versions xs s) (hd : Distinct versions xs) :
    s.locks.abortCollectUndo.Perm
      ((firstWrites xs).map fun x => x.undo (versions x.record) (s.current x.record)) := by
  have hnodup : ((firstWrites xs).map fun x =>
      x.undo (versions x.record) (s.current x.record)).Nodup := by
    refine .of_map UndoRecord.currentLsn ?_
    rw [List.map_map]
    exact h.nodup_currents
  refine (List.perm_ext_iff_of_nodup (WriteLockMap.nodup_abortCollectUndo _) hnodup).mpr
    fun u => ?_
  rw [WriteLockMap.mem_abortCollectUndo h.blank, List.mem_map]
  constructor
  · rintro ⟨lsn, info, hrec, hu⟩
    obtain ⟨x, hx, hcur⟩ := h.recorded hrec
    obtain ⟨lsn', -, hcur', him⟩ := h.written x hx
    obtain rfl : lsn = lsn' := Option.some.inj (hcur.symm.trans hcur')
    obtain rfl := Option.some.inj (hrec.symm.trans him)
    obtain ⟨-, rfl⟩ := WriteLockMap.undoOf_eq_some.mp hu
    exact ⟨x, hx, by rw [hcur]; rfl⟩
  · rintro ⟨x, hx, rfl⟩
    obtain ⟨lsn, -, hcur, him⟩ := h.written x hx
    refine ⟨lsn, _, him, WriteLockMap.undoOf_eq_some.mpr ⟨hasUndo_image hd x, ?_⟩⟩
    rw [hcur]
    rfl

end WriteInv

/-! ### What a commit reports -/

/-- The version that a record's first write has made obsolete. -/
def RecordWrite.obsolete (x : RecordWrite ρ ι κ) (old : Option Lsn) :
    Option (Lsn × Option ι × ℤ) :=
  if x.abortKnownDeleted then none else old.map fun lsn => (lsn, some x.databaseId, 0)

omit [DecidableEq ρ] in
theorem RecordWrite.obsolete_eq_some {x : RecordWrite ρ ι κ} {old : Option Lsn}
    {o : Lsn × Option ι × ℤ} :
    x.obsolete old = some o ↔
      x.abortKnownDeleted = false ∧ ∃ lsn, old = some lsn ∧ (lsn, some x.databaseId, 0) = o := by
  cases hk : x.abortKnownDeleted <;> simp [RecordWrite.obsolete, hk]

omit [DecidableEq ρ] in
theorem obsoleteOf_image (h : Distinct versions xs) (x : RecordWrite ρ ι κ) :
    WriteLockMap.obsoleteOf { x.image (versions x.record) with neverLocked := false } =
      x.obsolete (versions x.record) := by
  cases hv : versions x.record with
  | none => simp [WriteLockMap.obsoleteOf, RecordWrite.image, RecordWrite.obsolete]
  | some old =>
    have : old ≠ nullLsn := fun hn => h.notNull _ (hn ▸ hv)
    simp [WriteLockMap.obsoleteOf, RecordWrite.image, RecordWrite.obsolete, this]

variable {lsn : Lsn}

/-- Two first writes that replace one version are one. -/
theorem firstWrites_inj (hd : Distinct versions xs) {x y : RecordWrite ρ ι κ}
    (hx : x ∈ firstWrites xs) (hy : y ∈ firstWrites xs)
    (hvx : versions x.record = some lsn) (hvy : versions y.record = some lsn) : x = y :=
  List.inj_on_of_nodup_map (nodup_map_keepFirst RecordWrite.record xs) hx hy (hd.inj hvx hvy)

theorem nodup_obsolete (hd : Distinct versions xs) :
    ((firstWrites xs).filterMap fun x => x.obsolete (versions x.record)).Nodup := by
  have hnodup := (nodup_map_keepFirst RecordWrite.record xs).of_map
  rw [List.Nodup, List.pairwise_filterMap]
  refine hnodup.imp_of_mem fun hx hy hne o ho o' ho' heq => hne ?_
  obtain ⟨-, lsn, hvx, rfl⟩ := RecordWrite.obsolete_eq_some.mp ho
  obtain ⟨-, lsn', hvy, rfl⟩ := RecordWrite.obsolete_eq_some.mp ho'
  obtain rfl : lsn = lsn' := congrArg Prod.fst heq
  exact firstWrites_inj hd hx hy hvx hvy

omit [DecidableEq ρ] in
/-- What a commit reports is read off the recorded before-images. -/
theorem WriteLockMap.Blank.mem_obsolete {w : WriteLockMap ι κ} (h : w.Blank)
    {o : Lsn × Option ι × ℤ} :
    o ∈ (w.entries.filterMap fun e => WriteLockMap.obsoleteOf e.2) ↔
      ∃ lsn info, w.recorded lsn = some info ∧ WriteLockMap.obsoleteOf info = some o := by
  refine WriteLockMap.mem_filterMap_entries (f := fun _ => WriteLockMap.obsoleteOf) h
    fun _ info hinfo => ?_
  have hnull : info.abortLsn = nullLsn := by
    simp only [WriteLockInfo.hasUndo, Bool.or_eq_false_iff, decide_eq_false_iff_not,
      not_not] at hinfo
    exact hinfo.2
  rw [WriteLockMap.obsoleteOf, if_pos (.inl hnull)]

/-- One report for each record that was there before. -/
theorem WriteInv.collectObsolete_perm (h : WriteInv versions xs s) (hd : Distinct versions xs) :
    (s.locks.collectObsoleteAbortLsns true).Perm
      ((firstWrites xs).filterMap fun x => x.obsolete (versions x.record)) := by
  have hnodup : (s.locks.collectObsoleteAbortLsns true).Nodup :=
    (nodup_map_keepFirst Prod.fst _).of_map
  have hentries : ∀ o, o ∈ (s.locks.entries.filterMap fun e => WriteLockMap.obsoleteOf e.2) ↔
      ∃ x ∈ firstWrites xs, x.obsolete (versions x.record) = some o := by
    intro o
    rw [h.blank.mem_obsolete]
    constructor
    · rintro ⟨lsn, info, hrec, ho⟩
      obtain ⟨x, hx, hcur⟩ := h.recorded hrec
      obtain ⟨lsn', -, hcur', him⟩ := h.written x hx
      obtain rfl : lsn = lsn' := Option.some.inj (hcur.symm.trans hcur')
      obtain rfl := Option.some.inj (hrec.symm.trans him)
      exact ⟨x, hx, (obsoleteOf_image hd x).symm.trans ho⟩
    · rintro ⟨x, hx, ho⟩
      obtain ⟨lsn, -, -, him⟩ := h.written x hx
      exact ⟨lsn, _, him, (obsoleteOf_image hd x).trans ho⟩
  refine (List.perm_ext_iff_of_nodup hnodup (nodup_obsolete hd)).mpr fun o => ?_
  rw [List.mem_filterMap, ← hentries]
  refine ⟨mem_of_mem_keepFirst, fun ho => ?_⟩
  -- Only one of the reports names this version.
  have hkey : o.1 ∈ (s.locks.collectObsoleteAbortLsns true).map Prod.fst :=
    mem_map_keepFirst.mpr (List.mem_map_of_mem ho)
  obtain ⟨o', ho', heq⟩ := List.mem_map.mp hkey
  obtain ⟨x, hx, hox⟩ := (hentries o).mp ho
  obtain ⟨y, hy, hoy⟩ := (hentries o').mp (mem_of_mem_keepFirst ho')
  obtain ⟨-, lsn, hvx, rfl⟩ := RecordWrite.obsolete_eq_some.mp hox
  obtain ⟨-, lsn', hvy, rfl⟩ := RecordWrite.obsolete_eq_some.mp hoy
  obtain rfl : lsn' = lsn := heq
  obtain rfl := firstWrites_inj hd hx hy hvx hvy
  exact ho'

/-! ### What is superseded -/

theorem WriteState.superseded_concat (s : WriteState ρ ι κ) (xs : List (RecordWrite ρ ι κ))
    (x : RecordWrite ρ ι κ) :
    s.superseded (xs ++ [x]) = s.superseded xs ++
      (((s.writeAll xs).current x.record).map fun old =>
        (old, (s.writeAll xs).locks.writeLockAbortRecorded old)).toList := by
  induction xs generalizing s with
  | nil => simp [WriteState.superseded, WriteState.writeAll]
  | cons y ys ih =>
    rw [List.cons_append, WriteState.superseded, ih, WriteState.superseded, List.append_assoc]
    rfl

omit [DecidableEq ρ] in
theorem writeLockAbortRecorded_eq {w : WriteLockMap ι κ} :
    w.writeLockAbortRecorded lsn = (w.recorded lsn).isSome := by
  rw [WriteLockMap.writeLockAbortRecorded, WriteLockMap.recorded]
  cases w.lookup lsn with
  | none => rfl
  | some info => cases hn : info.neverLocked <;> simp [Option.filter_some, hn]

/-- The locks tell the transaction's own versions from those it found. -/
theorem WriteInv.writeLockAbortRecorded_iff (h : WriteInv versions xs s) {r : ρ}
    (hcur : s.current r = some lsn) :
    s.locks.writeLockAbortRecorded lsn = true ↔ r ∈ xs.map (·.record) := by
  rw [writeLockAbortRecorded_eq]
  constructor
  · intro hrec
    obtain ⟨info, hinfo⟩ := Option.isSome_iff_exists.mp hrec
    obtain ⟨x, hx, hxcur⟩ := h.recorded hinfo
    exact h.inj hxcur hcur ▸ List.mem_map_of_mem (mem_of_mem_keepFirst hx)
  · intro hr
    obtain ⟨x, hx, rfl⟩ := List.mem_map.mp (mem_map_keepFirst.mpr hr)
    obtain ⟨lsn', -, hcur', him⟩ := h.written x hx
    obtain rfl : lsn = lsn' := Option.some.inj (hcur.symm.trans hcur')
    rw [him]
    rfl

/-- The superseded versions that are not the transaction's own are those its first writes
found. -/
theorem superseded_found (h : Distinct versions xs) :
    (((WriteState.start versions).superseded xs).filter fun v => !v.2).map Prod.fst =
      (firstWrites xs).filterMap fun x => versions x.record := by
  induction xs using List.reverseRecOn with
  | nil => rfl
  | append_singleton xs x ih =>
    have hinv := writeInv_writeAll h.left
    rw [WriteState.superseded_concat, List.filter_append, List.map_append, ih h.left, firstWrites,
      firstWrites, keepFirst_concat]
    split
    · rename_i hx
      have hx := mem_map_keepFirst.mp hx
      cases hcur : ((WriteState.start versions).writeAll xs).current x.record with
      | none => simp
      | some old => simp [(hinv.writeLockAbortRecorded_iff hcur).mpr hx]
    · rename_i hx
      have hx : x.record ∉ xs.map (·.record) := fun hm => hx (mem_map_keepFirst.mpr hm)
      rw [hinv.unwritten _ hx, List.filterMap_append]
      cases hv : versions x.record with
      | none => simp [hv]
      | some old =>
        have hown : ((WriteState.start versions).writeAll xs).locks.writeLockAbortRecorded old
            ≠ true := fun ht =>
          hx ((hinv.writeLockAbortRecorded_iff ((hinv.unwritten _ hx).trans hv)).mp ht)
        simp [hv, hown]

/-- The others are versions that it wrote. -/
theorem superseded_own (h : Distinct versions xs)
    (hl : (lsn, true) ∈ (WriteState.start versions).superseded xs) :
    lsn ∈ xs.map RecordWrite.newLsn := by
  induction xs using List.reverseRecOn with
  | nil => cases hl
  | append_singleton xs x ih =>
    have hinv := writeInv_writeAll h.left
    rw [List.map_append, List.mem_append]
    left
    rw [WriteState.superseded_concat, List.mem_append] at hl
    rcases hl with hl | hl
    · exact ih h.left hl
    · obtain ⟨old, hcur, heq⟩ := Option.map_eq_some_iff.mp (Option.mem_toList.mp hl)
      obtain ⟨rfl, hown⟩ := Prod.mk.inj heq
      have hx := mem_map_keepFirst.mpr ((hinv.writeLockAbortRecorded_iff hcur).mp hown)
      obtain ⟨y, hy, hyx⟩ := List.mem_map.mp hx
      obtain ⟨lsn, hmem, hl, -⟩ := hinv.written y hy
      rw [hyx, hcur] at hl
      exact Option.some.inj hl ▸ hmem

end Results

/-- **What abort and commit find**, for any writes of any records. The undo list has exactly one
entry for each written record, at its current version, with the before-image of its first write.
A commit reports exactly the versions those first writes found, unless deleted. They are the
superseded versions that the transaction had not written itself. -/
theorem undo_and_obsolete_exact (versions : ρ → Option Lsn) (xs : List (RecordWrite ρ ι κ))
    (h : Distinct versions xs) :
    let s := (WriteState.start versions).writeAll xs
    s.locks.abortCollectUndo.Perm
        ((firstWrites xs).map fun x => x.undo (versions x.record) (s.current x.record)) ∧
      (s.locks.collectObsoleteAbortLsns true).Perm
        ((firstWrites xs).filterMap fun x => x.obsolete (versions x.record)) ∧
      ((((WriteState.start versions).superseded xs).filter fun v => !v.2).map Prod.fst =
        (firstWrites xs).filterMap fun x => versions x.record) ∧
      ∀ lsn, (lsn, true) ∈ (WriteState.start versions).superseded xs →
        lsn ∈ xs.map RecordWrite.newLsn :=
  ⟨(writeInv_writeAll h).abortCollectUndo_perm h, (writeInv_writeAll h).collectObsolete_perm h,
    superseded_found h, fun _ => superseded_own h⟩

/-- One record, with its version at 1, written twice. -/
def rewrite : List (RecordWrite Unit ℕ ℕ) :=
  [⟨(), 2, none, some [7], false, 5⟩, ⟨(), 3, none, some [8], false, 5⟩]

theorem distinct_rewrite : Distinct (fun _ => some 1) rewrite where
  inj _ _ := rfl
  notNull _ := by decide
  nodup := by decide
  new := by simp [rewrite]

/-- The record's undo entry, and the one version that the commit reports. -/
theorem undo_and_obsolete_exact_rewrite :
    ((WriteState.start fun _ => some 1).writeAll rewrite).locks.abortCollectUndo.Perm
        [⟨3, 1, false, some [7], none, some 5⟩] ∧
      (((WriteState.start fun _ => some 1).writeAll rewrite).locks.collectObsoleteAbortLsns
        true).Perm [(1, some 5, 0)] :=
  let h := undo_and_obsolete_exact (fun _ => some 1) rewrite distinct_rewrite
  ⟨h.1, h.2.1⟩

/-- The version at 2 is superseded and not reported. -/
theorem own_version_not_reported :
    Distinct (fun _ => some 1) rewrite ∧
      ((WriteState.start fun _ => some 1).superseded rewrite).map Prod.fst = [1, 2] ∧
      (((WriteState.start fun _ => some 1).writeAll rewrite).locks.collectObsoleteAbortLsns
        true).map Prod.fst = [1] := by
  refine ⟨distinct_rewrite, ?_, ?_⟩
  · decide
  · decide

end Noxu
