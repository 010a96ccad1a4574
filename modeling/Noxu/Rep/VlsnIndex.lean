import Mathlib.Data.List.Destutter
import Mathlib.Data.List.Infix
import Mathlib.Data.List.Sort
import Noxu.Library.BinarySearch
import Noxu.Log.Entry

/-!
# The VLSN Index

The index maps VLSNs to log positions. It keeps a range and a list of buckets: a registration goes
to the last bucket if it is not below it, and else to a bucket of its own, after which the buckets
are sorted again. A truncation of the tail drops the buckets that start behind it and lowers the
range; one of the head drops the buckets in front and trims the one that straddles it.

A bucket covers the VLSNs from its first to its last one. It stores the log position of every VLSN
on the **stride grid** of its first VLSN that was registered, and the one of its last VLSN; the
position `(0, 0)` marks a grid slot without a mapping. The range of the index is kept apart from
its buckets.
-/

open Noxu.Library

namespace Noxu

/-! ### Buckets -/

/-- A log position: file number and offset. -/
abbrev LogPos := ℕ × ℕ

/-- The position of a grid slot without a mapping. -/
def noOffset : LogPos := (0, 0)

/-- A bucket of VLSN mappings. -/
structure VlsnBucket where
  /-- The first VLSN covered. -/
  firstVlsn : ℕ
  /-- The last VLSN covered. -/
  lastVlsn : ℕ
  /-- The distance between two grid slots. -/
  stride : ℕ
  /-- The positions on the grid, from the first VLSN on. -/
  offsets : List LogPos
  /-- The position of the last VLSN. -/
  lastLsn : Option LogPos
  deriving DecidableEq, Repr

namespace VlsnBucket

/-- A bucket that starts at a VLSN. -/
def new (firstVlsn stride : ℕ) : VlsnBucket where
  firstVlsn := firstVlsn
  lastVlsn := firstVlsn
  stride := stride
  offsets := [noOffset]
  lastLsn := none

/-- Whether a VLSN lies on the grid. -/
def isModulo (b : VlsnBucket) (vlsn : ℕ) : Bool := decide ((vlsn - b.firstVlsn) % b.stride = 0)

/-- The grid slot of a VLSN. -/
def getIndex (b : VlsnBucket) (vlsn : ℕ) : ℕ := (vlsn - b.firstVlsn) / b.stride

/-- Store a position in a grid slot; slots that were skipped are padded. -/
def setOffset (offsets : List LogPos) (index : ℕ) (pos : LogPos) : List LogPos :=
  if index < offsets.length then offsets.set index pos
  else offsets ++ List.replicate (index - offsets.length) noOffset ++ [pos]

/-- The grid with the position of a VLSN, if the VLSN lies on it. -/
def storeOffset (b : VlsnBucket) (vlsn : ℕ) (pos : LogPos) : List LogPos :=
  if b.isModulo vlsn then setOffset b.offsets (b.getIndex vlsn) pos else b.offsets

/-- Put a mapping into the bucket, or refuse a VLSN below its first one. -/
def put (b : VlsnBucket) (vlsn : ℕ) (pos : LogPos) : Option VlsnBucket :=
  if vlsn < b.firstVlsn then none
  else if b.lastVlsn ≤ vlsn then
    some { b with offsets := b.storeOffset vlsn pos, lastVlsn := vlsn, lastLsn := some pos }
  else some { b with offsets := b.storeOffset vlsn pos }

/-- Whether the bucket covers a VLSN. -/
def owns (b : VlsnBucket) (vlsn : ℕ) : Bool :=
  if vlsn = 0 ∨ b.firstVlsn = 0 then false
  else decide (b.firstVlsn ≤ vlsn) && decide (vlsn ≤ b.lastVlsn)

/-- The mapping in a grid slot. -/
def populated (b : VlsnBucket) (index : ℕ) : Option LogPos :=
  (b.offsets[index]?).filter fun pos => pos != noOffset

/-- The position of a VLSN or of the nearest lower grid slot with a mapping. -/
def getLsn (b : VlsnBucket) (vlsn : ℕ) : Option LogPos :=
  if !b.owns vlsn then none
  else if vlsn = b.lastVlsn then b.lastLsn
  else
    match if b.isModulo vlsn then b.populated (b.getIndex vlsn) else none with
    | some pos => some pos
    | none =>
      let index := min ((vlsn - b.firstVlsn) / b.stride) (b.offsets.length - 1)
      (b.offsets.take (index + 1)).reverse.find? fun pos => pos != noOffset

/-- The position stored for exactly this VLSN. -/
def getExactLsn (b : VlsnBucket) (vlsn : ℕ) : Option LogPos :=
  if vlsn = b.lastVlsn then b.lastLsn
  else if !b.isModulo vlsn then none
  else b.populated (b.getIndex vlsn)

/-- The first grid slot that is not below a VLSN. -/
def getGteIndex (b : VlsnBucket) (vlsn : ℕ) : ℕ :=
  if vlsn ≤ b.firstVlsn then 0 else (vlsn - b.firstVlsn + b.stride - 1) / b.stride

/-- The position of a VLSN or of the nearest later mapping. -/
def getGteLsn (b : VlsnBucket) (vlsn : ℕ) : Option LogPos :=
  if !b.owns vlsn then none
  else if vlsn = b.lastVlsn then b.lastLsn
  else if b.offsets.length ≤ b.getGteIndex vlsn then b.lastLsn
  else
    match (b.offsets.drop (b.getGteIndex vlsn)).find? fun pos => pos != noOffset with
    | some pos => some pos
    | none => b.lastLsn

/-- The stored mappings: the grid slots, and the last VLSN if it is off the grid. -/
def appendEntries (b : VlsnBucket) : List (ℕ × LogPos) :=
  (b.offsets.zipIdx.filterMap fun (pos, i) =>
    if pos ≠ noOffset ∧ b.firstVlsn + i * b.stride ≤ b.lastVlsn then
      some (b.firstVlsn + i * b.stride, pos)
    else none) ++
  match b.lastLsn with
  | some pos => if (b.lastVlsn - b.firstVlsn) % b.stride = 0 then [] else [(b.lastVlsn, pos)]
  | none => []

/-- Trim the head to the greatest grid slot that is not above `newFirst`. -/
def removeFromHead (b : VlsnBucket) (newFirst : ℕ) : VlsnBucket :=
  if newFirst ≤ b.firstVlsn then b
  else if b.lastVlsn < newFirst then
    { b with firstVlsn := newFirst, lastVlsn := newFirst, offsets := [noOffset], lastLsn := none }
  else
    let gridFirst := b.firstVlsn + (newFirst - b.firstVlsn) / b.stride * b.stride
    let drop := (gridFirst - b.firstVlsn) / b.stride
    let offsets :=
      if 0 < drop ∧ drop < b.offsets.length then b.offsets.drop drop
      else if b.offsets.length ≤ drop then [noOffset]
      else b.offsets
    { b with firstVlsn := gridFirst, offsets := offsets }

end VlsnBucket

/-! ### The range -/

/-- The range of the VLSNs of an index; 0 is the null VLSN. -/
structure VlsnRange where
  /-- The first VLSN; 0 if the range is empty. -/
  first : ℕ
  /-- The last VLSN. -/
  last : ℕ
  /-- The last commit or abort. -/
  commitVlsn : ℕ
  /-- The last sync point. -/
  syncVlsn : ℕ
  deriving DecidableEq, Repr

/-- An entry that syncup may take for a matchpoint. -/
def LogEntryType.isSyncPoint : LogEntryType → Bool
  | txnCommit | txnAbort | matchpoint => true
  | _ => false

/-- An entry that ends a transaction. -/
def LogEntryType.isTxnEnd : LogEntryType → Bool
  | txnCommit | txnAbort => true
  | _ => false

namespace VlsnRange

/-- The empty range. -/
def new : VlsnRange := ⟨0, 0, 0, 0⟩

/-- Whether the range is empty. -/
def isEmpty (r : VlsnRange) : Bool := r.first == 0

/-- Whether a VLSN lies in the range. -/
def contains (r : VlsnRange) (vlsn : ℕ) : Bool :=
  if r.first = 0 then false else decide (r.first ≤ vlsn) && decide (vlsn ≤ r.last)

/-- The range with one more VLSN. -/
def extend (r : VlsnRange) (vlsn : ℕ) : VlsnRange :=
  { r with
    first := if r.first = 0 ∨ vlsn < r.first then vlsn else r.first
    last := if r.last < vlsn then vlsn else r.last }

/-- The range with one more entry of a known type. -/
def updateForNewMapping (r : VlsnRange) (vlsn : ℕ) (entryType : LogEntryType) : VlsnRange :=
  let r := r.extend vlsn
  { r with
    syncVlsn := if entryType.isSyncPoint ∧ r.syncVlsn < vlsn then vlsn else r.syncVlsn
    commitVlsn := if entryType.isTxnEnd ∧ r.commitVlsn < vlsn then vlsn else r.commitVlsn }

/-- The range cut behind a VLSN. -/
def truncateAfter (r : VlsnRange) (vlsn : ℕ) : VlsnRange :=
  if vlsn = 0 ∨ 0 < r.first ∧ vlsn < r.first then new
  else if r.first = 0 then r
  else
    { r with
      last := vlsn
      commitVlsn := if vlsn < r.commitVlsn then vlsn else r.commitVlsn
      syncVlsn := if vlsn < r.syncVlsn then vlsn else r.syncVlsn }

/-- The range behind `deleteEnd`. -/
def shortenFromHead (r : VlsnRange) (deleteEnd : ℕ) : VlsnRange :=
  let newFirst := if deleteEnd = r.last then 0 else deleteEnd + 1
  { first := newFirst
    last := if deleteEnd = r.last then 0 else r.last
    commitVlsn := if newFirst ≠ 0 ∧ newFirst < r.commitVlsn then r.commitVlsn else 0
    syncVlsn := if newFirst = 0 then 0 else r.syncVlsn }

end VlsnRange

/-! ### The index -/

/-- A sort that may order elements of equal keys in any way. -/
structure UnstableSort where
  /-- The sort by a key. -/
  byKey : {α : Type} → (α → ℕ) → List α → List α
  perm : ∀ {α : Type} (f : α → ℕ) (l : List α), (byKey f l).Perm l
  sorted : ∀ {α : Type} (f : α → ℕ) (l : List α), (byKey f l).Pairwise fun a b => f a ≤ f b

/-- The sort by insertion, which keeps the order of equal keys. -/
def insertionSorter : UnstableSort where
  byKey f l := l.insertionSort fun a b => f a ≤ f b
  perm _ l := List.perm_insertionSort _ l
  sorted f l :=
    have : Std.Total fun a b => f a ≤ f b := ⟨fun a b => Nat.le_total (f a) (f b)⟩
    have : IsTrans _ fun a b => f a ≤ f b := ⟨fun _ _ _ => Nat.le_trans⟩
    List.pairwise_insertionSort _ l

/-- The VLSN index. -/
structure VlsnIndex where
  /-- The range. -/
  range : VlsnRange
  /-- The buckets, by their first VLSN. -/
  buckets : List VlsnBucket
  /-- The stride of new buckets. -/
  bucketStride : ℕ

namespace VlsnIndex

/-- An empty index. -/
def new (bucketStride : ℕ) : VlsnIndex := ⟨.new, [], bucketStride⟩

/-- The last bucket with a mapping put into it, if it takes it. -/
def putLast (buckets : List VlsnBucket) (vlsn : ℕ) (pos : LogPos) : Option VlsnBucket :=
  buckets.getLast?.bind fun b =>
    if b.owns vlsn || decide (b.lastVlsn < vlsn) then b.put vlsn pos else none

/-- The buckets with a mapping put into the last one, or into a new one. -/
def putBuckets (sort : UnstableSort) (ix : VlsnIndex) (vlsn : ℕ) (pos : LogPos) :
    List VlsnBucket :=
  match putLast ix.buckets vlsn pos with
  | some b => ix.buckets.dropLast ++ [b]
  | none =>
    let b := VlsnBucket.new vlsn ix.bucketStride
    sort.byKey VlsnBucket.firstVlsn (ix.buckets ++ [(b.put vlsn pos).getD b])

/-- Register a mapping; the null VLSN is a fault. -/
def insert (sort : UnstableSort) (ix : VlsnIndex) (vlsn : ℕ) (pos : LogPos)
    (entryType : Option LogEntryType) : Option VlsnIndex :=
  if vlsn = 0 then none
  else
    some { ix with
      buckets := ix.putBuckets sort vlsn pos
      range :=
        match entryType with
        | some et => ix.range.updateForNewMapping vlsn et
        | none => ix.range.extend vlsn }

/-- The last bucket that does not start behind a VLSN, and the ones behind it. -/
def split (ix : VlsnIndex) (vlsn : ℕ) : Option VlsnBucket × Option VlsnBucket :=
  let pos := partitionPoint (fun b : VlsnBucket => decide (b.firstVlsn ≤ vlsn)) ix.buckets
  (if pos = 0 then none else ix.buckets[pos - 1]?, ix.buckets[pos]?)

/-- The position at or below a VLSN. -/
def getLsn (ix : VlsnIndex) (vlsn : ℕ) : Option LogPos :=
  if vlsn = 0 then none
  else if !ix.range.contains vlsn then none
  else (ix.split vlsn).1.bind fun b => b.getLsn vlsn

/-- The position of exactly this VLSN. -/
def getExactLsn (ix : VlsnIndex) (vlsn : ℕ) : Option LogPos :=
  if vlsn = 0 then none
  else if !ix.range.contains vlsn then none
  else (ix.split vlsn).1.bind fun b => if !b.owns vlsn then none else b.getExactLsn vlsn

/-- The position at or above a VLSN. -/
def getGteLsn (ix : VlsnIndex) (vlsn : ℕ) : Option LogPos :=
  if vlsn = 0 then none
  else if ix.range.isEmpty || decide (ix.range.last < vlsn) then none
  else
    match (ix.split vlsn).1.filter fun b => b.owns vlsn with
    | some b => b.getGteLsn vlsn
    | none => (ix.split vlsn).2.bind fun next => next.getGteLsn next.firstVlsn

/-- Cut the tail behind a VLSN. -/
def truncateAfter (ix : VlsnIndex) (vlsn : ℕ) : VlsnIndex :=
  { ix with
    buckets := ix.buckets.filter fun b => decide (b.firstVlsn ≤ vlsn)
    range := ix.range.truncateAfter vlsn }

/-- Trim the bucket at the head if it straddles the new first VLSN. -/
def trimHead (buckets : List VlsnBucket) (newFirst : ℕ) : List VlsnBucket :=
  match buckets with
  | [] => []
  | b :: rest => (if b.firstVlsn < newFirst then b.removeFromHead newFirst else b) :: rest

/-- Cut the head up to a VLSN; reports whether the index was changed. -/
def truncateFromHead (ix : VlsnIndex) (deleteEnd : ℕ) : VlsnIndex × Bool :=
  if deleteEnd = 0 then (ix, false)
  else if ix.range.isEmpty then (ix, false)
  else if deleteEnd < ix.range.first then (ix, false)
  else if ix.range.syncVlsn ≠ 0 ∧ ix.range.syncVlsn < deleteEnd then (ix, false)
  else
    let range := ix.range.shortenFromHead deleteEnd
    if range.isEmpty then ({ ix with range := range, buckets := [] }, true)
    else
      let kept := ix.buckets.filter fun b => decide (range.first ≤ b.lastVlsn)
      ({ ix with range := range, buckets := trimHead kept range.first }, true)

/-- Every stored mapping, by VLSN. -/
def snapshotEntries (sort : UnstableSort) (ix : VlsnIndex) : List (ℕ × LogPos) :=
  (sort.byKey Prod.fst (ix.buckets.flatMap VlsnBucket.appendEntries)).destutter
    fun a b => a.1 ≠ b.1

end VlsnIndex

/-- What a grid slot holds after a store: the new position, or what it held before. -/
theorem getElem?_setOffset {offsets : List LogPos} {index i : ℕ} {pos p : LogPos}
    (hp : p ≠ noOffset) :
    (VlsnBucket.setOffset offsets index pos)[i]? = some p ↔
      i = index ∧ p = pos ∨ i ≠ index ∧ offsets[i]? = some p := by
  unfold VlsnBucket.setOffset
  by_cases hi : i = index
  · subst hi
    have hself : (if i < offsets.length then offsets.set i pos
        else offsets ++ List.replicate (i - offsets.length) noOffset ++ [pos])[i]? = some pos := by
      split_ifs with hlt
      · exact List.getElem?_set_self hlt
      · rw [List.getElem?_append_right (by simp; omega)]
        simp [Nat.add_sub_cancel' (Nat.le_of_not_lt hlt)]
    rw [hself]
    simp [eq_comm]
  · simp only [hi, false_and, ne_eq, not_false_eq_true, true_and, false_or]
    split_ifs with hlt
    · rw [List.getElem?_set_ne (Ne.symm hi)]
    · rw [List.append_assoc, List.getElem?_append]
      split_ifs with hlen
      · rfl
      · -- behind the old slots there is padding only
        refine iff_of_false (fun hpad => ?_) fun hold => hlen (List.getElem?_eq_some_iff.mp hold).1
        rw [List.getElem?_append] at hpad
        split_ifs at hpad with hrep
        · exact hp (List.eq_of_mem_replicate (List.mem_of_getElem? hpad))
        · rw [List.length_replicate] at hpad hrep
          rw [List.getElem?_singleton, Option.ite_none_right_eq_some] at hpad
          omega

/-- A bucket that is trimmed in the middle starts at the slot of the new first VLSN and has the
slots from there on. -/
theorem VlsnBucket.removeFromHead_eq {b : VlsnBucket} {newFirst : ℕ}
    (hfirst : b.firstVlsn < newFirst) (hlast : newFirst ≤ b.lastVlsn) :
    ∃ offsets, b.removeFromHead newFirst =
        { b with
          firstVlsn := b.firstVlsn + b.getIndex newFirst * b.stride
          offsets := offsets } ∧ offsets ≠ [] ∧
      ∀ i p, p ≠ noOffset →
        (offsets[i]? = some p ↔ b.offsets[b.getIndex newFirst + i]? = some p) := by
  have hdrop : (b.firstVlsn + b.getIndex newFirst * b.stride - b.firstVlsn) / b.stride =
      b.getIndex newFirst := by
    rw [Nat.add_sub_cancel_left]
    rcases Nat.eq_zero_or_pos b.stride with hz | hpos
    · rw [VlsnBucket.getIndex, hz, Nat.div_zero, Nat.div_zero]
    · exact Nat.mul_div_cancel _ hpos
  unfold VlsnBucket.removeFromHead
  rw [if_neg (Nat.not_le_of_lt hfirst), if_neg (Nat.not_lt_of_le hlast)]
  refine ⟨_, rfl, ?_⟩
  change (b.firstVlsn + (newFirst - b.firstVlsn) / b.stride * b.stride - b.firstVlsn) / b.stride =
    _ at hdrop
  rw [hdrop]
  split_ifs with hsome hall
  · exact ⟨fun hnil => Nat.not_le_of_lt hsome.2 (List.drop_eq_nil_iff.mp hnil),
      fun i p _ => by rw [List.getElem?_drop]⟩
  · refine ⟨nofun, fun i p hne => iff_of_false (fun h => hne ?_) fun h => ?_⟩
    · exact List.mem_singleton.mp (List.mem_of_getElem? h)
    · have hlt := (List.getElem?_eq_some_iff.mp h).1
      omega
  · have hzero : b.getIndex newFirst = 0 :=
      Nat.eq_zero_of_not_pos fun hpos => hsome ⟨hpos, Nat.lt_of_not_le hall⟩
    refine ⟨fun hnil => ?_, fun i p _ => by rw [hzero, Nat.zero_add]⟩
    rw [hnil] at hall
    exact hall (Nat.zero_le _)

theorem VlsnRange.contains_iff {r : VlsnRange} {v : ℕ} :
    r.contains v = true ↔ r.first ≠ 0 ∧ r.first ≤ v ∧ v ≤ r.last := by
  unfold VlsnRange.contains
  split <;> simp_all

/-! ### Stored mappings -/

/-- The mappings of a bucket: those of its grid slots and that of its last VLSN. -/
def VlsnBucket.stored (b : VlsnBucket) : List (ℕ × LogPos) :=
  (b.offsets.zipIdx.filterMap fun (pos, i) =>
    if pos = noOffset then none else some (b.firstVlsn + i * b.stride, pos)) ++
  (b.lastLsn.map fun pos => (b.lastVlsn, pos)).toList

/-- A bucket has a grid, and does not end before it starts. -/
structure VlsnBucket.Ok (b : VlsnBucket) : Prop where
  first : 0 < b.firstVlsn
  last : b.firstVlsn ≤ b.lastVlsn
  stride : 0 < b.stride

/-- **The index is backed by registrations**: every mapping that its range does not hide is one of
them. A cut of the tail leaves mappings behind that are above the range. -/
structure VlsnIndex.Backed (regs : List (ℕ × LogPos)) (ix : VlsnIndex) : Prop where
  ok : ∀ b ∈ ix.buckets, b.Ok
  stride : 0 < ix.bucketStride
  empty : ix.range.first = 0 → ix.range.last = 0
  stored : ∀ b ∈ ix.buckets, ∀ m ∈ b.stored, m.1 ≤ ix.range.last → m ∈ regs

/-- No mapping that a cut has left behind is at or below a VLSN. -/
def VlsnIndex.ClearUpTo (ix : VlsnIndex) (vlsn : ℕ) : Prop :=
  ∀ b ∈ ix.buckets, ∀ m ∈ b.stored, m.1 ≤ ix.range.last ∨ vlsn < m.1

instance (ix : VlsnIndex) (vlsn : ℕ) : Decidable (ix.ClearUpTo vlsn) :=
  inferInstanceAs (Decidable (∀ b ∈ ix.buckets, ∀ m ∈ b.stored, _))

/-- No mapping that a cut has left behind is at or below a VLSN, but for one of this very VLSN in
the last bucket, which a registration overwrites. -/
def VlsnIndex.ClearFor (ix : VlsnIndex) (vlsn : ℕ) : Prop :=
  (∀ b ∈ ix.buckets.dropLast, ∀ m ∈ b.stored, m.1 ≤ ix.range.last ∨ vlsn < m.1) ∧
    ∀ b ∈ ix.buckets.getLast?, ∀ m ∈ b.stored, m.1 ≤ ix.range.last ∨ vlsn ≤ m.1

instance (ix : VlsnIndex) (vlsn : ℕ) : Decidable (ix.ClearFor vlsn) :=
  inferInstanceAs (Decidable (_ ∧ _))

section Index

variable {regs : List (ℕ × LogPos)} {b b' : VlsnBucket} {ix ix' : VlsnIndex} {v vlsn : ℕ}
  {pos p : LogPos} {m : ℕ × LogPos}

theorem VlsnBucket.mem_stored :
    (v, pos) ∈ b.stored ↔
      (∃ i, b.offsets[i]? = some pos ∧ pos ≠ noOffset ∧ v = b.firstVlsn + i * b.stride) ∨
        b.lastLsn = some pos ∧ v = b.lastVlsn := by
  unfold VlsnBucket.stored
  rw [List.mem_append, List.mem_filterMap, Option.mem_toList, Option.map_eq_some_iff]
  refine or_congr ?_ ?_
  · constructor
    · rintro ⟨⟨q, i⟩, hmem, heq⟩
      obtain ⟨hne, heq⟩ := Option.ite_none_left_eq_some.mp heq
      obtain ⟨rfl, rfl⟩ := Prod.mk.inj (Option.some.inj heq)
      exact ⟨i, List.mk_mem_zipIdx_iff_getElem?.mp hmem, hne, rfl⟩
    · rintro ⟨i, hi, hne, rfl⟩
      exact ⟨(pos, i), List.mk_mem_zipIdx_iff_getElem?.mpr hi, if_neg hne⟩
  · constructor
    · rintro ⟨q, hq, heq⟩
      obtain ⟨rfl, rfl⟩ := Prod.mk.inj heq
      exact ⟨hq, rfl⟩
    · rintro ⟨hq, rfl⟩
      exact ⟨pos, hq, rfl⟩

/-- A bucket stores nothing below its first VLSN. -/
theorem VlsnBucket.Ok.le_of_stored (hok : b.Ok) (hm : m ∈ b.stored) : b.firstVlsn ≤ m.1 := by
  obtain ⟨i, -, -, hv⟩ | ⟨-, hv⟩ := VlsnBucket.mem_stored.mp hm
  · rw [hv]
    exact Nat.le_add_right _ _
  · rw [hv]
    exact hok.last

/-- Slots without a mapping do not matter. -/
theorem VlsnBucket.stored_empty {first last stride : ℕ} :
    VlsnBucket.stored ⟨first, last, stride, [noOffset], none⟩ = [] := by
  simp [VlsnBucket.stored]

/-- A slot of the grid after a registration. -/
theorem VlsnBucket.Ok.storeOffset (hok : b.Ok) (hle : b.firstVlsn ≤ vlsn) {i : ℕ}
    (hp : (b.storeOffset vlsn pos)[i]? = some p) (hne : p ≠ noOffset) :
    (b.firstVlsn + i * b.stride, p) = (vlsn, pos) ∨
      b.firstVlsn + i * b.stride ≠ vlsn ∧ b.offsets[i]? = some p := by
  have hindex : b.firstVlsn + i * b.stride = vlsn →
      b.isModulo vlsn = true ∧ i = b.getIndex vlsn := by
    rintro rfl
    simp [VlsnBucket.isModulo, VlsnBucket.getIndex, hok.stride.ne']
  unfold VlsnBucket.storeOffset at hp
  split_ifs at hp with hmod
  · have hgrid := Nat.div_mul_cancel (Nat.dvd_of_mod_eq_zero (of_decide_eq_true hmod))
    rcases (getElem?_setOffset hne).mp hp with ⟨rfl, rfl⟩ | ⟨hi, hold⟩
    · left
      unfold VlsnBucket.getIndex
      rw [Prod.mk.injEq]
      exact ⟨by omega, rfl⟩
    · exact .inr ⟨fun heq => hi (hindex heq).2, hold⟩
  · exact .inr ⟨fun heq => hmod (hindex heq).1, hp⟩

/-- **A registration in a bucket** overwrites what was stored for its VLSN. -/
theorem VlsnBucket.Ok.mem_stored_put (hok : b.Ok) (hput : b.put vlsn pos = some b')
    (hm : m ∈ b'.stored) : m = (vlsn, pos) ∨ m.1 ≠ vlsn ∧ m ∈ b.stored := by
  obtain ⟨v, p⟩ := m
  have hslot : ∀ i, b.firstVlsn ≤ vlsn → (b.storeOffset vlsn pos)[i]? = some p → p ≠ noOffset →
      v = b.firstVlsn + i * b.stride → (v, p) = (vlsn, pos) ∨ v ≠ vlsn ∧ (v, p) ∈ b.stored := by
    rintro i hle hi hne rfl
    refine (hok.storeOffset hle hi hne).imp_right fun ⟨hv, hold⟩ => ⟨hv, ?_⟩
    exact VlsnBucket.mem_stored.mpr (.inl ⟨i, hold, hne, rfl⟩)
  unfold VlsnBucket.put at hput
  split_ifs at hput with hlt hlast
  · obtain rfl := Option.some.inj hput
    obtain ⟨i, hi, hne, hv⟩ | ⟨hp, hv⟩ := VlsnBucket.mem_stored.mp hm
    · exact hslot i (Nat.le_of_not_lt hlt) hi hne hv
    · obtain rfl := Option.some.inj hp
      exact .inl (Prod.ext hv rfl)
  · obtain rfl := Option.some.inj hput
    obtain ⟨i, hi, hne, hv⟩ | ⟨hp, hv⟩ := VlsnBucket.mem_stored.mp hm
    · exact hslot i (Nat.le_of_not_lt hlt) hi hne hv
    · have hv : v = b.lastVlsn := hv
      exact .inr ⟨by omega, VlsnBucket.mem_stored.mpr (.inr ⟨hp, hv⟩)⟩

theorem VlsnBucket.Ok.put (hok : b.Ok) (hput : b.put vlsn pos = some b') : b'.Ok := by
  unfold VlsnBucket.put at hput
  split_ifs at hput with hlt hlast
  · obtain rfl := Option.some.inj hput
    exact ⟨hok.first, Nat.le_of_not_lt hlt, hok.stride⟩
  · obtain rfl := Option.some.inj hput
    exact ⟨hok.first, hok.last, hok.stride⟩

/-- Trimming the head stores nothing new. -/
theorem VlsnBucket.mem_stored_removeFromHead {newFirst : ℕ}
    (hm : m ∈ (b.removeFromHead newFirst).stored) : m ∈ b.stored := by
  rcases Nat.lt_or_ge b.firstVlsn newFirst with hfirst | hfirst
  · rcases Nat.lt_or_ge b.lastVlsn newFirst with hlast | hlast
    · unfold VlsnBucket.removeFromHead at hm
      rw [if_neg (Nat.not_le_of_lt hfirst), if_pos hlast, stored_empty] at hm
      cases hm
    · obtain ⟨offsets, heq, -, hslot⟩ := VlsnBucket.removeFromHead_eq hfirst hlast
      rw [heq] at hm
      obtain ⟨v, p⟩ := m
      obtain ⟨i, hi, hne, hv⟩ | hp := VlsnBucket.mem_stored.mp hm
      · refine VlsnBucket.mem_stored.mpr (.inl ⟨_, (hslot i p hne).mp hi, hne, ?_⟩)
        rw [hv, Nat.add_mul, ← Nat.add_assoc]
      · exact VlsnBucket.mem_stored.mpr (.inr hp)
  · unfold VlsnBucket.removeFromHead at hm
    rwa [if_pos hfirst] at hm

theorem VlsnBucket.Ok.removeFromHead (hok : b.Ok) (newFirst : ℕ) :
    (b.removeFromHead newFirst).Ok := by
  rcases Nat.lt_or_ge b.firstVlsn newFirst with hfirst | hfirst
  · rcases Nat.lt_or_ge b.lastVlsn newFirst with hlast | hlast
    · unfold VlsnBucket.removeFromHead
      rw [if_neg (Nat.not_le_of_lt hfirst), if_pos hlast]
      exact ⟨Nat.zero_lt_of_lt hfirst, le_rfl, hok.stride⟩
    · obtain ⟨offsets, heq, -⟩ := VlsnBucket.removeFromHead_eq hfirst hlast
      have hgrid : b.getIndex newFirst * b.stride ≤ newFirst - b.firstVlsn :=
        Nat.div_mul_le_self _ _
      rw [heq]
      refine ⟨Nat.add_pos_left hok.first _, ?_, hok.stride⟩
      dsimp only
      omega
  · unfold VlsnBucket.removeFromHead
    rwa [if_pos hfirst]

/-- A lookup answers with a mapping at or below. -/
theorem VlsnBucket.exists_stored_of_getLsn (hget : b.getLsn vlsn = some pos) :
    ∃ v ≤ vlsn, (v, pos) ∈ b.stored := by
  unfold VlsnBucket.getLsn at hget
  split_ifs at hget with howns hlast hmod
  · exact ⟨vlsn, le_rfl, VlsnBucket.mem_stored.mpr (.inr ⟨hget, hlast⟩)⟩
  all_goals
    have hfirst : b.firstVlsn ≤ vlsn := by
      simp only [VlsnBucket.owns] at howns
      split_ifs at howns <;> simp_all
    have hslot : ∀ i, i ≤ (vlsn - b.firstVlsn) / b.stride → b.firstVlsn + i * b.stride ≤ vlsn := by
      intro i hi
      have := (Nat.mul_le_mul_right b.stride hi).trans (Nat.div_mul_le_self _ _)
      omega
    have hback : ∀ n ≤ (vlsn - b.firstVlsn) / b.stride,
        ((b.offsets.take (n + 1)).reverse.find? fun pos => pos != noOffset) = some pos →
        ∃ v ≤ vlsn, (v, pos) ∈ b.stored := by
      intro n hn hfind
      have hmem := List.mem_reverse.mp (List.mem_of_find?_eq_some hfind)
      obtain ⟨i, hi⟩ := List.mem_iff_getElem?.mp hmem
      rw [List.getElem?_take] at hi
      obtain ⟨hlt, hi⟩ := Option.ite_none_right_eq_some.mp hi
      have hne : pos ≠ noOffset := by simpa using List.find?_some hfind
      exact ⟨_, hslot i (by omega), VlsnBucket.mem_stored.mpr (.inl ⟨i, hi, hne, rfl⟩)⟩
  · cases hpop : b.populated (b.getIndex vlsn) with
    | none =>
      rw [hpop] at hget
      exact hback _ (min_le_left _ _) hget
    | some p =>
      rw [hpop] at hget
      obtain rfl := Option.some.inj hget
      obtain ⟨hoff, hne⟩ := Option.filter_eq_some_iff.mp hpop
      exact ⟨_, hslot _ le_rfl,
        VlsnBucket.mem_stored.mpr (.inl ⟨_, hoff, by simpa using hne, rfl⟩)⟩
  · exact hback _ (min_le_left _ _) hget

/-- The range after a registration reaches as far as it did, or to the new VLSN. -/
theorem VlsnIndex.range_insert {sort : UnstableSort} {entryType : Option LogEntryType}
    (hins : ix.insert sort vlsn pos entryType = some ix') :
    0 < vlsn ∧ ix'.range.first ≠ 0 ∧ ix'.range.last = max ix.range.last vlsn ∧
      ix'.buckets = ix.putBuckets sort vlsn pos ∧ ix'.bucketStride = ix.bucketStride := by
  obtain ⟨hne, hins⟩ := Option.ite_none_left_eq_some.mp hins
  obtain rfl := Option.some.inj hins
  refine ⟨Nat.pos_of_ne_zero hne, ?_, ?_, rfl, rfl⟩
  · cases entryType <;> simp only [VlsnRange.updateForNewMapping, VlsnRange.extend] <;>
      split_ifs <;> omega
  · cases entryType <;> simp only [VlsnRange.updateForNewMapping, VlsnRange.extend] <;>
      split_ifs <;> omega

/-- A range that is cut is empty, was empty, or ends at the cut. -/
theorem VlsnRange.truncateAfter_cases (r : VlsnRange) (vlsn : ℕ) :
    r.truncateAfter vlsn = .new ∨ r.first = 0 ∧ r.truncateAfter vlsn = r ∨
      r.first ≠ 0 ∧ (r.truncateAfter vlsn).first = r.first ∧
        (r.truncateAfter vlsn).last = vlsn := by
  unfold VlsnRange.truncateAfter
  split_ifs with hnew hempty
  · exact .inl rfl
  · exact .inr (.inl ⟨hempty, rfl⟩)
  all_goals exact .inr (.inr ⟨hempty, rfl, rfl⟩)

/-- **A registration** that uncovers nothing left behind keeps the index backed. -/
theorem VlsnIndex.Backed.insert {sort : UnstableSort} {entryType : Option LogEntryType}
    (h : ix.Backed regs) (hclear : ix.ClearFor vlsn)
    (hins : ix.insert sort vlsn pos entryType = some ix') : ix'.Backed ((vlsn, pos) :: regs) := by
  obtain ⟨hpos, hfirst, hlast, hbuckets, hstride⟩ := VlsnIndex.range_insert hins
  -- a mapping of an old bucket, above or below the VLSN
  have hold : ∀ b ∈ ix.buckets, ∀ m ∈ b.stored, m.1 ≤ ix.range.last ∨ vlsn < m.1 →
      m.1 ≤ ix'.range.last → m ∈ (vlsn, pos) :: regs := by
    intro b hb m hm hside hle
    rw [hlast] at hle
    exact List.mem_cons_of_mem _ (h.stored b hb m hm (by omega))
  have hboth : ∀ b ∈ ix'.buckets, b.Ok ∧ ∀ m ∈ b.stored, m.1 ≤ ix'.range.last →
      m ∈ (vlsn, pos) :: regs := by
    intro b hb
    rw [hbuckets] at hb
    unfold VlsnIndex.putBuckets at hb
    split at hb
    next b' htake =>
      obtain ⟨c, hc, hput⟩ := Option.bind_eq_some_iff.mp htake
      obtain ⟨-, hput⟩ := Option.ite_none_right_eq_some.mp hput
      rcases List.mem_append.mp hb with hb | hb
      · have hmem := List.mem_of_mem_dropLast hb
        exact ⟨h.ok b hmem, fun m hm => hold b hmem m hm (hclear.1 b hb m hm)⟩
      · obtain rfl := List.mem_singleton.mp hb
        have hmem := List.mem_of_getLast? hc
        refine ⟨(h.ok c hmem).put hput, fun m hm hle => ?_⟩
        rcases (h.ok c hmem).mem_stored_put hput hm with rfl | ⟨hne, hm⟩
        · exact List.mem_cons_self
        · refine hold c hmem m hm ((hclear.2 c hc m hm).imp_right fun hge => ?_) hle
          exact lt_of_le_of_ne hge (Ne.symm hne)
    next htake =>
      rcases List.mem_append.mp ((sort.perm _ _).subset hb) with hb | hb
      · refine ⟨h.ok b hb, fun m hm => hold b hb m hm ?_⟩
        obtain ⟨c, hc⟩ : ∃ c, ix.buckets.getLast? = some c :=
          Option.isSome_iff_exists.mp (by simp [List.ne_nil_of_mem hb])
        rw [← List.dropLast_append_getLast? c hc, List.mem_append, List.mem_singleton] at hb
        rcases hb with hdrop | rfl
        · exact hclear.1 b hdrop m hm
        · -- the last bucket starts behind the VLSN, or it would have taken it
          have hok := h.ok b (List.mem_of_getLast? hc)
          refine .inr (lt_of_lt_of_le ?_ (hok.le_of_stored hm))
          by_contra hge
          have hfirst := hok.first
          have hput : ∃ b', b.put vlsn pos = some b' := by
            unfold VlsnBucket.put
            rw [if_neg hge]
            split_ifs
            exacts [⟨_, rfl⟩, ⟨_, rfl⟩]
          obtain ⟨b', hput⟩ := hput
          have htook : VlsnIndex.putLast ix.buckets vlsn pos = some b' := by
            unfold VlsnIndex.putLast
            rw [hc, Option.bind_some, if_pos, hput]
            unfold VlsnBucket.owns
            rw [if_neg (by omega)]
            simp only [Bool.or_eq_true, Bool.and_eq_true, decide_eq_true_eq]
            omega
          rw [htake] at htook
          cases htook
      · obtain rfl := List.mem_singleton.mp hb
        have hput : (VlsnBucket.new vlsn ix.bucketStride).put vlsn pos =
            some (((VlsnBucket.new vlsn ix.bucketStride).put vlsn pos).getD
              (.new vlsn ix.bucketStride)) := by
          simp [VlsnBucket.put, VlsnBucket.new]
        have hnew : (VlsnBucket.new vlsn ix.bucketStride).Ok := ⟨hpos, le_rfl, h.stride⟩
        refine ⟨hnew.put hput, fun m hm _ => ?_⟩
        rcases hnew.mem_stored_put hput hm with rfl | ⟨-, hm⟩
        · exact List.mem_cons_self
        · rw [VlsnBucket.new, VlsnBucket.stored_empty] at hm
          cases hm
  exact ⟨fun b hb => (hboth b hb).1, hstride ▸ h.stride, fun hzero => absurd hzero hfirst,
    fun b hb => (hboth b hb).2⟩

/-- **A cut of the tail** that uncovers nothing left behind keeps the index backed by the
registrations up to it. -/
theorem VlsnIndex.Backed.truncateAfter (h : ix.Backed regs) (hclear : ix.ClearUpTo vlsn) :
    (ix.truncateAfter vlsn).Backed (regs.filter fun r => decide (r.1 ≤ vlsn)) := by
  refine ⟨fun b hb => h.ok b (List.mem_filter.mp hb).1, h.stride, ?_, fun b hb m hm hle => ?_⟩
  · intro hzero
    rcases ix.range.truncateAfter_cases vlsn with hnew | ⟨hempty, hsame⟩ | ⟨hne, hfirst, -⟩
    · exact congrArg VlsnRange.last hnew
    · exact (congrArg VlsnRange.last hsame).trans (h.empty hempty)
    · exact absurd (hfirst.symm.trans hzero) hne
  · have hmem := (List.mem_filter.mp hb).1
    have hge := (h.ok b hmem).le_of_stored hm
    have hpos := (h.ok b hmem).first
    have hlast : m.1 ≤ ix.range.last ∧ m.1 ≤ vlsn := by
      have hle : m.1 ≤ (ix.range.truncateAfter vlsn).last := hle
      rcases ix.range.truncateAfter_cases vlsn with hnew | ⟨hempty, hsame⟩ | ⟨-, -, hlast⟩
      · rw [hnew] at hle
        have hle : m.1 ≤ 0 := hle
        omega
      · rw [hsame, h.empty hempty] at hle
        omega
      · rw [hlast] at hle
        exact ⟨(hclear b hmem m hm).resolve_right (Nat.not_lt.mpr hle), hle⟩
    exact List.mem_filter.mpr ⟨h.stored b hmem m hm hlast.1, decide_eq_true hlast.2⟩

/-- **A cut of the head** keeps the index backed. -/
theorem VlsnIndex.Backed.truncateFromHead (h : ix.Backed regs) (deleteEnd : ℕ) :
    (ix.truncateFromHead deleteEnd).1.Backed regs := by
  unfold VlsnIndex.truncateFromHead
  dsimp only
  split_ifs with _ _ _ _ hempty
  any_goals exact h
  · refine ⟨nofun, h.stride, fun _ => ?_, nofun⟩
    unfold VlsnRange.isEmpty VlsnRange.shortenFromHead at hempty
    dsimp only at hempty
    unfold VlsnRange.shortenFromHead
    split_ifs at hempty ⊢
    · rfl
    · simp at hempty
  · have hkept : ∀ c ∈ ix.buckets.filter fun b =>
        decide ((ix.range.shortenFromHead deleteEnd).first ≤ b.lastVlsn), c ∈ ix.buckets :=
      fun c hc => (List.mem_filter.mp hc).1
    have hlast : (ix.range.shortenFromHead deleteEnd).last ≤ ix.range.last := by
      unfold VlsnRange.shortenFromHead
      dsimp only
      split_ifs <;> omega
    have hboth : ∀ b ∈ VlsnIndex.trimHead (ix.buckets.filter fun b =>
        decide ((ix.range.shortenFromHead deleteEnd).first ≤ b.lastVlsn))
        (ix.range.shortenFromHead deleteEnd).first, b.Ok ∧ ∀ m ∈ b.stored,
          m.1 ≤ ix.range.last → m ∈ regs := by
      intro b hb
      unfold VlsnIndex.trimHead at hb
      split at hb
      next => cases hb
      next c rest heq =>
        rw [heq] at hkept
        rcases List.mem_cons.mp hb with rfl | hb
        · have hc := hkept c List.mem_cons_self
          split_ifs
          · exact ⟨(h.ok c hc).removeFromHead _, fun m hm =>
              h.stored c hc m (VlsnBucket.mem_stored_removeFromHead hm)⟩
          · exact ⟨h.ok c hc, h.stored c hc⟩
        · have hc := hkept b (List.mem_cons_of_mem _ hb)
          exact ⟨h.ok b hc, h.stored b hc⟩
    refine ⟨fun b hb => (hboth b hb).1, h.stride, fun hzero => ?_,
      fun b hb m hm hle => (hboth b hb).2 m hm (hle.trans hlast)⟩
    exact absurd (by simpa [VlsnRange.isEmpty] using hzero) hempty

/-- **A lookup of the index** answers with a position registered at or below the VLSN. -/
theorem VlsnIndex.Backed.getLsn (h : ix.Backed regs) (hget : ix.getLsn vlsn = some pos) :
    ∃ v ≤ vlsn, (v, pos) ∈ regs := by
  unfold VlsnIndex.getLsn at hget
  split_ifs at hget with hzero hrange
  obtain ⟨b, hb, hget⟩ := Option.bind_eq_some_iff.mp hget
  obtain ⟨v, hv, hstored⟩ := VlsnBucket.exists_stored_of_getLsn hget
  have hmem : b ∈ ix.buckets := by
    unfold VlsnIndex.split at hb
    dsimp only at hb
    obtain ⟨-, hb⟩ := Option.ite_none_left_eq_some.mp hb
    exact List.mem_of_getElem? hb
  have hle := (VlsnRange.contains_iff.mp (by simpa using hrange)).2.2
  exact ⟨v, hv, h.stored b hmem _ hstored (hv.trans hle)⟩

end Index

end Noxu
