import Mathlib.Tactic.NormNum
import Noxu.Library.KeyRange
import Noxu.Rep.VlsnIndex

/-!
# The Log as Syncup Reads It

Before a replica streams from a feeder it reads its own log once from the first file on. Of every
entry with a VLSN that a rollback has not made invisible it notes the position, the type and the
payload; a file is read up to the first position where there is no entry. The view that it builds
from them is ordered by VLSN, and **an entry replaces an earlier one with the same VLSN**.

A rollback appends two entries without a VLSN and sets the invisible bit of entries at given
positions.

## Main results

* `scan_makeInvisible`: after the marking a scan finds the entries at the other positions;
* `scan_append`: an entry without a VLSN does not show in a scan;
* `exists_mem_viewEntries`, `viewEntries_inj`: the view has one entry for every VLSN of the scan.
-/

open Std Noxu.Library

namespace Noxu

/-! ### Entries and files -/

/-- A larger item is not read. -/
def maxItemSize : ℕ := 100 * 1024 * 1024

/-- The VLSN in the eight bytes of a header; zero and what is negative as a signed number is
none. -/
def plausibleVlsn (raw : ℕ) : Option ℕ := if 0 < raw ∧ raw < 2 ^ 63 then some raw else none

/-- An entry as a reader finds it; its type may be unknown. -/
structure RawEntry where
  entryType : UInt8
  flags : UInt8
  rawVlsn : ℕ
  payload : List UInt8
  deriving DecidableEq

namespace RawEntry

/-- The bytes of an entry. -/
def size (e : RawEntry) : ℕ :=
  (if vlsnPresent e.flags then maxHeaderSize else minHeaderSize) + e.payload.length

/-- The VLSN of an entry that has not been made invisible. -/
def visibleVlsn (e : RawEntry) : Option ℕ :=
  if invisibleFlag e.flags then none
  else if vlsnPresent e.flags then plausibleVlsn e.rawVlsn else none

/-- Set the invisible bit. -/
def makeInvisible (e : RawEntry) : RawEntry := { e with flags := e.flags ||| 0x10 }

end RawEntry

/-- What there is at a position of a file. -/
inductive LogSlot where
  | entry (e : RawEntry)
  /-- bytes that are not an entry -/
  | unreadable (length : ℕ)
  deriving DecidableEq

/-- A file of the log. -/
structure ReplicaFile where
  number : ℕ
  headerSize : ℕ
  slots : List LogSlot
  deriving DecidableEq

/-- The files of a log in the order of their numbers. -/
structure ReplicaLog where
  files : List ReplicaFile
  ascending : files.Pairwise fun f g => f.number < g.number

/-! ### The scan -/

/-- What the scan notes of an entry. -/
structure ScannedEntry where
  vlsn : ℕ
  pos : LogPos
  entryType : UInt8
  payload : List UInt8
  deriving DecidableEq

namespace ScannedEntry

/-- The type of an entry, if it is known. -/
def type? (e : ScannedEntry) : Option LogEntryType := LogEntryType.fromTypeNum e.entryType

/-- The entry is a sync point. -/
def isSync (e : ScannedEntry) : Bool := e.type?.any LogEntryType.isSyncPoint

/-- The entry ends a transaction. -/
def isTxnEnd (e : ScannedEntry) : Bool := e.type?.any LogEntryType.isTxnEnd

/-- The checksum of the payload, mixed with the type. -/
def fingerprint (crc : List UInt8 → UInt32) (e : ScannedEntry) : ℕ :=
  (crc e.payload).toNat ^^^ e.entryType.toNat

end ScannedEntry

/-- What the scan notes at a position. -/
def noteEntry (pos : LogPos) (e : RawEntry) : Option ScannedEntry :=
  e.visibleVlsn.map fun vlsn => ⟨vlsn, pos, e.entryType, e.payload⟩

/-- Read a file from an offset on. -/
def scanSlots (file : ℕ) : ℕ → List LogSlot → List ScannedEntry
  | _, [] => []
  | _, .unreadable _ :: _ => []
  | offset, .entry e :: rest =>
    -- a zero type is the zero fill behind the last entry, an implausible size is not read
    if e.entryType = 0 ∨ maxItemSize < e.payload.length then []
    else (noteEntry (file, offset) e).toList ++ scanSlots file (offset + e.size) rest

/-- The entries of a file. -/
def ReplicaFile.scan (f : ReplicaFile) : List ScannedEntry :=
  scanSlots f.number f.headerSize f.slots

/-- The visible entries that a scan of the log finds. -/
def ReplicaLog.scan (log : ReplicaLog) : List ScannedEntry := log.files.flatMap ReplicaFile.scan

/-! ### The writes of a rollback -/

/-- Set the invisible bit of the entries at the positions. -/
def markSlots (marked : List LogPos) (file : ℕ) : ℕ → List LogSlot → List LogSlot
  | _, [] => []
  | offset, .unreadable n :: rest => .unreadable n :: markSlots marked file (offset + n) rest
  | offset, .entry e :: rest =>
    .entry (if (file, offset) ∈ marked then e.makeInvisible else e) ::
      markSlots marked file (offset + e.size) rest

/-- Mark entries of a file. -/
def ReplicaFile.makeInvisible (marked : List LogPos) (f : ReplicaFile) : ReplicaFile :=
  { f with slots := markSlots marked f.number f.headerSize f.slots }

/-- Mark entries of the log. -/
def ReplicaLog.makeInvisible (log : ReplicaLog) (marked : List LogPos) : ReplicaLog where
  files := log.files.map (ReplicaFile.makeInvisible marked)
  ascending := List.pairwise_map.2 log.ascending

/-- An entry at the end of the last file. -/
def appendLast (e : RawEntry) : List ReplicaFile → List ReplicaFile
  | [] => []
  | [f] => [{ f with slots := f.slots ++ [.entry e] }]
  | f :: g :: fs => f :: appendLast e (g :: fs)

/-- The number of the next file. -/
def nextFileNumber (files : List ReplicaFile) : ℕ :=
  (files.getLast?.map fun f => f.number + 1).getD 0

theorem map_number_appendLast (e : RawEntry) (files : List ReplicaFile) :
    (appendLast e files).map ReplicaFile.number = files.map ReplicaFile.number := by
  induction files with
  | nil => rfl
  | cons f fs ih =>
    cases fs with
    | nil => rfl
    | cons g fs => exact congrArg (f.number :: ·) ih

theorem lt_nextFileNumber {files : List ReplicaFile}
    (h : files.Pairwise fun f g => f.number < g.number) {f : ReplicaFile} (hf : f ∈ files) :
    f.number < nextFileNumber files := by
  obtain rfl | ⟨front, last, rfl⟩ := List.eq_nil_or_concat' files
  · cases hf
  · have hnext : nextFileNumber (front ++ [last]) = last.number + 1 := by simp [nextFileNumber]
    rw [hnext]
    rcases List.mem_append.1 hf with hf | hf
    · have := (List.pairwise_append.1 h).2.2 f hf last (List.mem_singleton_self last)
      omega
    · obtain rfl := List.mem_singleton.1 hf
      exact Nat.lt_succ_self _

/-- Log an entry, in a new file if the last one is full. -/
def ReplicaLog.append (log : ReplicaLog) (newFile : Bool) (e : RawEntry) : ReplicaLog where
  files :=
    if newFile ∨ log.files = [] then
      log.files ++ [⟨nextFileNumber log.files, fileHeaderSize, [.entry e]⟩]
    else appendLast e log.files
  ascending := by
    split
    · refine List.pairwise_append.2 ⟨log.ascending, List.pairwise_singleton _ _, ?_⟩
      intro f hf g hg
      obtain rfl := List.mem_singleton.1 hg
      exact lt_nextFileNumber log.ascending hf
    · rw [← List.pairwise_map, map_number_appendLast, List.pairwise_map]
      exact log.ascending

/-! ### The view -/

/-- Note an entry under its VLSN. -/
def viewInsert (entries : List ScannedEntry) (e : ScannedEntry) : List ScannedEntry :=
  alterKey compare ScannedEntry.vlsn e.vlsn (fun _ => some e) entries

/-- The entries by VLSN. -/
def viewEntries (scanned : List ScannedEntry) : List ScannedEntry := scanned.foldl viewInsert []

/-- The lower end of the run that goes down from a VLSN without a gap. -/
def runLow : ℕ → List ℕ → ℕ
  | low, [] => low
  | low, v :: vs => if v + 1 = low then runLow v vs else low

/-- What the search for a matchpoint reads of the log; 0 is the null VLSN. -/
structure SyncupLogView where
  entries : List ScannedEntry
  txnEndVlsns : List ℕ
  lastSync : ℕ
  first : ℕ

/-- `scan_with_manager`: the view of a scan. -/
def SyncupLogView.ofScan (scanned : List ScannedEntry) : SyncupLogView where
  entries := viewEntries scanned
  txnEndVlsns := ((scanned.filter ScannedEntry.isTxnEnd).map ScannedEntry.vlsn).dedup
  lastSync := ((scanned.filter ScannedEntry.isSync).map ScannedEntry.vlsn).foldl max 0
  first :=
    match ((viewEntries scanned).map ScannedEntry.vlsn).reverse with
    | [] => 0
    | top :: rest => runLow top rest

/-! ### Reading the bytes -/

/-- The invisible bit is not one of those that say that a header has a VLSN. -/
theorem vlsnPresent_or (flags : UInt8) : vlsnPresent (flags ||| 0x10) = vlsnPresent flags := by
  have h : ∀ c : UInt8, 0x10 &&& c = 0 → (flags ||| 0x10) &&& c = flags &&& c := fun c hc => by
    have hor : (flags ||| 0x10) &&& c = flags &&& c ||| 0x10 &&& c :=
      UInt8.toNat_inj.1 (Nat.and_or_distrib_right _ _ _)
    rw [hor, hc, UInt8.or_zero]
  unfold vlsnPresent
  rw [h 0x08 rfl, h 0x20 rfl]

theorem invisibleFlag_or (flags : UInt8) : invisibleFlag (flags ||| 0x10) = true := by
  have h : (flags ||| 0x10) &&& 0x10 = 0x10 := by
    refine UInt8.toNat_inj.1 (Nat.eq_of_testBit_eq fun i => ?_)
    rw [UInt8.toNat_and, UInt8.toNat_or, Nat.testBit_and, Nat.testBit_or]
    exact Bool.and_eq_right_iff_imp.2 fun hi => by rw [hi, Bool.or_true]
  unfold invisibleFlag
  rw [h]
  rfl

/-! ### Positions -/

section Positions

variable {file offset : ℕ} {slots : List LogSlot} {e : RawEntry} {x : ScannedEntry}

theorem RawEntry.size_pos (e : RawEntry) : 0 < e.size := by
  unfold RawEntry.size
  split <;> simp [minHeaderSize, maxHeaderSize]

theorem scanSlots_entry (h : ¬(e.entryType = 0 ∨ maxItemSize < e.payload.length)) :
    scanSlots file offset (.entry e :: slots) =
      (noteEntry (file, offset) e).toList ++ scanSlots file (offset + e.size) slots := by
  rw [scanSlots, if_neg h]

theorem pos_of_noteEntry {pos : LogPos} (h : x ∈ (noteEntry pos e).toList) : x.pos = pos := by
  obtain ⟨vlsn, -, rfl⟩ := Option.map_eq_some_iff.1 (Option.mem_toList.1 h)
  rfl

/-- A scan from an offset on finds entries from there on. -/
theorem pos_of_mem_scanSlots (h : x ∈ scanSlots file offset slots) :
    x.pos.1 = file ∧ offset ≤ x.pos.2 := by
  induction slots generalizing offset with
  | nil => cases h
  | cons slot slots ih =>
    cases slot with
    | unreadable n => cases h
    | entry e =>
      by_cases hstop : e.entryType = 0 ∨ maxItemSize < e.payload.length
      · rw [scanSlots, if_pos hstop] at h
        cases h
      · rw [scanSlots_entry hstop] at h
        rcases List.mem_append.1 h with h | h
        · rw [pos_of_noteEntry h]
          exact ⟨rfl, le_rfl⟩
        · obtain ⟨hfile, hle⟩ := ih h
          exact ⟨hfile, by omega⟩

theorem pairwise_scanSlots :
    (scanSlots file offset slots).Pairwise fun x y => x.pos ≠ y.pos := by
  induction slots generalizing offset with
  | nil => exact List.Pairwise.nil
  | cons slot slots ih =>
    cases slot with
    | unreadable n => exact List.Pairwise.nil
    | entry e =>
      by_cases hstop : e.entryType = 0 ∨ maxItemSize < e.payload.length
      · rw [scanSlots, if_pos hstop]
        exact List.Pairwise.nil
      · rw [scanSlots_entry hstop]
        refine List.pairwise_append.2 ⟨?_, ih, fun x hx y hy heq => ?_⟩
        · cases noteEntry (file, offset) e with
          | none => exact List.Pairwise.nil
          | some x => exact List.pairwise_singleton _ _
        · have hle := (pos_of_mem_scanSlots hy).2
          rw [← heq, pos_of_noteEntry hx] at hle
          have := e.size_pos
          exact absurd hle (by simp only; omega)

/-- **No two entries of a scan have the same position.** -/
theorem ReplicaLog.pos_inj {log : ReplicaLog} {x y : ScannedEntry} (hx : x ∈ log.scan)
    (hy : y ∈ log.scan) (h : x.pos = y.pos) : x = y := by
  have hpair : log.scan.Pairwise fun x y => x.pos ≠ y.pos := by
    refine List.pairwise_flatMap.2 ⟨fun f _ => pairwise_scanSlots, ?_⟩
    refine log.ascending.imp fun {f g} hlt x hx y hy heq => ?_
    have hfile := (pos_of_mem_scanSlots hx).1
    rw [heq, (pos_of_mem_scanSlots hy).1] at hfile
    omega
  exact List.inj_on_of_nodup_map (List.pairwise_map.2 hpair) hx hy h

/-! ### After the writes -/

variable {marked : List LogPos}

theorem RawEntry.size_makeInvisible (e : RawEntry) : e.makeInvisible.size = e.size := by
  simp only [RawEntry.size, RawEntry.makeInvisible, vlsnPresent_or]

theorem RawEntry.visibleVlsn_makeInvisible (e : RawEntry) : e.makeInvisible.visibleVlsn = none :=
  if_pos (invisibleFlag_or e.flags)

theorem noteEntry_mark (pos : LogPos) (e : RawEntry) :
    (noteEntry pos (if pos ∈ marked then e.makeInvisible else e)).toList =
      (noteEntry pos e).toList.filter fun x => decide (x.pos ∉ marked) := by
  split
  · next hmem =>
    rw [noteEntry, RawEntry.visibleVlsn_makeInvisible]
    refine (List.filter_eq_nil_iff.2 fun x hx => ?_).symm
    rw [pos_of_noteEntry hx]
    simpa using hmem
  · next hmem =>
    refine (List.filter_eq_self.2 fun x hx => ?_).symm
    rw [pos_of_noteEntry hx]
    simpa using hmem

theorem scanSlots_markSlots :
    scanSlots file offset (markSlots marked file offset slots) =
      (scanSlots file offset slots).filter fun x => decide (x.pos ∉ marked) := by
  induction slots generalizing offset with
  | nil => rfl
  | cons slot slots ih =>
    cases slot with
    | unreadable n => rfl
    | entry e =>
      set e' := if (file, offset) ∈ marked then e.makeInvisible else e with he'
      have htype : e'.entryType = e.entryType := by rw [he']; split <;> rfl
      have hpayload : e'.payload = e.payload := by rw [he']; split <;> rfl
      have hsize : e'.size = e.size := by
        rw [he']
        split
        · exact e.size_makeInvisible
        · rfl
      rw [markSlots]
      by_cases hstop : e.entryType = 0 ∨ maxItemSize < e.payload.length
      · rw [scanSlots, scanSlots, if_pos hstop, if_pos (by rwa [htype, hpayload])]
        rfl
      · rw [scanSlots_entry hstop, scanSlots_entry (by rwa [htype, hpayload]), hsize, ih,
          List.filter_append, ← noteEntry_mark]

/-- **A scan after the marking** finds the entries at the other positions. -/
theorem ReplicaLog.scan_makeInvisible (log : ReplicaLog) (marked : List LogPos) :
    (log.makeInvisible marked).scan = log.scan.filter fun x => decide (x.pos ∉ marked) := by
  rw [ReplicaLog.scan, ReplicaLog.scan, ReplicaLog.makeInvisible, List.flatMap_map,
    List.filter_flatMap]
  exact List.flatMap_congr fun f _ => scanSlots_markSlots

theorem scanSlots_concat (he : e.visibleVlsn = none) :
    scanSlots file offset (slots ++ [.entry e]) = scanSlots file offset slots := by
  induction slots generalizing offset with
  | nil => simp [scanSlots, noteEntry, he]
  | cons slot slots ih =>
    cases slot with
    | unreadable n => rfl
    | entry e =>
      rw [List.cons_append, scanSlots, scanSlots, ih]

theorem flatMap_scan_appendLast (he : e.visibleVlsn = none) (files : List ReplicaFile) :
    (appendLast e files).flatMap ReplicaFile.scan = files.flatMap ReplicaFile.scan := by
  induction files with
  | nil => rfl
  | cons f fs ih =>
    cases fs with
    | nil => simp [appendLast, ReplicaFile.scan, scanSlots_concat he]
    | cons g fs =>
      rw [appendLast, List.flatMap_cons, List.flatMap_cons, ih]

/-- **An entry without a VLSN** does not show in a scan. -/
theorem ReplicaLog.scan_append (log : ReplicaLog) (newFile : Bool) (he : e.visibleVlsn = none) :
    (log.append newFile e).scan = log.scan := by
  unfold ReplicaLog.scan ReplicaLog.append
  dsimp only
  split
  · simp [ReplicaFile.scan, scanSlots, noteEntry, he]
  · exact flatMap_scan_appendLast he log.files

end Positions

/-! ### The entries of the view -/

section View

variable {entries scanned : List ScannedEntry} {e x : ScannedEntry}

theorem atKey_const (e : ScannedEntry) :
    AtKey compare ScannedEntry.vlsn e.vlsn fun _ => some e := by
  intro o ho t ht
  obtain rfl := Option.some.inj ht
  exact ReflCmp.compare_self

theorem viewInsert_sorted (h : SortedBy compare ScannedEntry.vlsn entries) :
    SortedBy compare ScannedEntry.vlsn (viewInsert entries e) :=
  alterKey_sorted (atKey_const e) h

theorem mem_viewInsert (h : SortedBy compare ScannedEntry.vlsn entries) :
    x ∈ viewInsert entries e ↔ x = e ∨ x ∈ entries ∧ x.vlsn ≠ e.vlsn := by
  obtain ⟨pre, o, post, hcut, halter, hpre, ho, hpost⟩ := alterKey_cut e.vlsn (fun _ => some e) h
  have hpre' : ∀ a ∈ pre, a.vlsn ≠ e.vlsn := fun a ha => (compare_lt_iff_lt.1 (hpre a ha)).ne
  have hpost' : ∀ a ∈ post, a.vlsn ≠ e.vlsn := fun a ha => (compare_gt_iff_gt.1 (hpost a ha)).ne'
  have ho' : ∀ a ∈ o, a.vlsn = e.vlsn := fun a ha => LawfulEqCmp.eq_of_compare (ho a ha)
  rw [viewInsert, halter, hcut]
  simp only [Option.toList_some, List.mem_append, List.mem_singleton, Option.mem_toList]
  constructor
  · rintro (hx | hx | hx)
    · exact Or.inr ⟨Or.inl hx, hpre' x hx⟩
    · exact Or.inl hx
    · exact Or.inr ⟨Or.inr (Or.inr hx), hpost' x hx⟩
  · rintro (rfl | ⟨hx | hx | hx, hne⟩)
    · exact Or.inr (Or.inl rfl)
    · exact Or.inl hx
    · exact absurd (ho' x hx) hne
    · exact Or.inr (Or.inr hx)

/-- The view stays ordered, keeps to what was read, and has every VLSN that was read. -/
theorem viewEntries_spec (scanned : List ScannedEntry) :
    SortedBy compare ScannedEntry.vlsn (viewEntries scanned) ∧
      (∀ x ∈ viewEntries scanned, x ∈ scanned) ∧
      ∀ e ∈ scanned, ∃ x ∈ viewEntries scanned, x.vlsn = e.vlsn := by
  induction scanned using List.reverseRecOn with
  | nil => exact ⟨List.Pairwise.nil, fun x hx => hx, fun e he => by cases he⟩
  | append_singleton scanned a ih =>
    obtain ⟨hsorted, hsub, hall⟩ := ih
    have hview : viewEntries (scanned ++ [a]) = viewInsert (viewEntries scanned) a := by
      rw [viewEntries, List.foldl_append]
      rfl
    rw [hview]
    refine ⟨viewInsert_sorted hsorted, fun x hx => ?_, fun e he => ?_⟩
    · rcases (mem_viewInsert hsorted).1 hx with rfl | ⟨hx, -⟩
      · exact List.mem_append_right _ (List.mem_singleton_self _)
      · exact List.mem_append_left _ (hsub x hx)
    · by_cases hv : e.vlsn = a.vlsn
      · exact ⟨a, (mem_viewInsert hsorted).2 (Or.inl rfl), hv.symm⟩
      · rcases List.mem_append.1 he with he | he
        · obtain ⟨x, hx, hxe⟩ := hall e he
          exact ⟨x, (mem_viewInsert hsorted).2 (Or.inr ⟨hx, hxe ▸ hv⟩), hxe⟩
        · obtain rfl := List.mem_singleton.1 he
          exact absurd rfl hv

theorem mem_of_mem_viewEntries (h : x ∈ viewEntries scanned) : x ∈ scanned :=
  (viewEntries_spec scanned).2.1 x h

/-- **Every VLSN of a scan is in the view.** -/
theorem exists_mem_viewEntries (h : e ∈ scanned) : ∃ x ∈ viewEntries scanned, x.vlsn = e.vlsn :=
  (viewEntries_spec scanned).2.2 e h

/-- **The view has one entry for a VLSN.** -/
theorem viewEntries_inj (hx : x ∈ viewEntries scanned) (he : e ∈ viewEntries scanned)
    (h : x.vlsn = e.vlsn) : x = e := by
  have hlt : (viewEntries scanned).Pairwise fun a b => a.vlsn ≠ b.vlsn :=
    (viewEntries_spec scanned).1.imp fun hab => (compare_lt_iff_lt.1 hab).ne
  exact List.inj_on_of_nodup_map (List.pairwise_map.2 hlt) hx he h

end View

end Noxu
