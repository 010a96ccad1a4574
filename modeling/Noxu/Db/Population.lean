import Mathlib.Data.List.Nodup

/-!
# Populating a Secondary Index

Opening a secondary database with population allowed fills an empty index from the primary
(noxu-db, `secondary_database.rs`). The primary is scanned with a bare cursor: it has no locker and
no lock manager, so it takes a slot as it stands, and no log manager, so leaf data that was evicted
reads as empty. Every pair of a secondary and a primary key is inserted on its own, without
expiration; a slot of the pair that is deleted or expired is taken over with its expiration.

An index is taken for empty if no live slot of it is in a leaf in memory. What else it has stays.

The primary is the list of its slots; a slot that an open transaction has written also has the
record that was committed before. The index is the list of its slots.

## Main results

* `insertAll_shows`, `openSecondary_ok`: the index after an open that returns `Ok`;
* `population_right_iff`: when that index is the image of the committed records.
-/

namespace Noxu.Population

variable {S : Type}

/-- A key or the data of a record. -/
abbrev Bytes := List UInt8

/-- A slot of the primary, with the version it holds. -/
structure Slot where
  key : Bytes
  /-- The leaf data in memory, if it was not evicted. -/
  resident : Option Bytes
  /-- The leaf data in the log. -/
  logged : Bytes
  cached : ∀ d ∈ resident, d = logged
  knownDeleted : Bool
  pendingDeleted : Bool
  /-- The expiration of the record, 0 for none, and whether it is past. -/
  expiration : ℕ
  expired : Bool
  never : expiration = 0 → expired = false
  /-- The record committed before, if an open transaction has written the slot: its data, its
  expiration and whether that is past. -/
  uncommitted : Option (Option (Bytes × ℕ × Bool))

namespace Slot

/-- What the bare cursor reads: `slot_scan_skippable` passes over the slot, a slot that is pending
deletion is read again and found gone, and there is no log to fetch evicted data from. -/
def bareRead (slot : Slot) : Option Bytes :=
  if slot.knownDeleted || slot.expired then none
  else if slot.pendingDeleted then none
  else some (slot.resident.getD [])

/-- The committed record: its data and expiration. -/
def committed (slot : Slot) : Option (Bytes × ℕ) :=
  match slot.uncommitted with
  | some before => before.bind fun (data, expiration, past) =>
    if past then none else some (data, expiration)
  | none =>
    if slot.knownDeleted || slot.pendingDeleted || slot.expired then none
    else some (slot.logged, slot.expiration)

end Slot

/-- The primary: no two slots have the same key. -/
structure Primary where
  slots : List Slot
  readOnly : Bool
  distinct : (slots.map (·.key)).Nodup

/-- A slot of an index: a pair of a secondary and a primary key. -/
structure Entry (S : Type) where
  pair : S × Bytes
  /-- Known deleted or pending deletion. -/
  deleted : Bool
  /-- The expiration of the pair, 0 for none, and whether it is past. -/
  expiration : ℕ
  expired : Bool
  deriving DecidableEq

/-- `slot_is_live`. -/
def Entry.live (e : Entry S) : Bool := !(e.deleted || e.expired)

/-- The slots of an index. -/
abbrev Index (S : Type) := List (Entry S)

/-- What of a configuration the opening reads. -/
structure SecondaryConfig (S : Type) where
  keyCreator : Option (Bytes → Bytes → Option S)
  multiKeyCreator : Option (Bytes → Bytes → List S)
  /-- The keys of the foreign database, if its handle is given. -/
  foreignKeyDatabase : Option (S → Bool)
  foreignKeyDatabaseName : Bool
  foreignKeyNullifier : Bool
  foreignMultiKeyNullifier : Bool
  nullifyOnDelete : Bool
  /-- The configuration of the index. -/
  sortedDuplicates : Bool
  allowPopulate : Bool

/-- The errors of an opening. -/
inductive OpenError where
  | bothCreators
  | bothNullifiers
  | noNullifier
  | nullifierWithMultiKeys
  | noCreator
  | notSortedDuplicates
  | foreignNameWithoutHandle
  | nullifierWithoutHandle
  | foreignConstraintViolation
  | secondaryIntegrity
  | put
  deriving DecidableEq, Repr

/-- The checks of `SecondaryConfig::validate` and of `SecondaryDatabase::open`. -/
def SecondaryConfig.validate (config : SecondaryConfig S) (primaryReadOnly : Bool) :
    Except OpenError Unit :=
  if config.keyCreator.isSome && config.multiKeyCreator.isSome then .error .bothCreators
  else if config.foreignKeyNullifier && config.foreignMultiKeyNullifier then
    .error .bothNullifiers
  else if config.nullifyOnDelete && !config.foreignKeyNullifier &&
      !config.foreignMultiKeyNullifier then .error .noNullifier
  else if config.foreignKeyNullifier && config.multiKeyCreator.isSome then
    .error .nullifierWithMultiKeys
  else if !primaryReadOnly && config.keyCreator.isNone && config.multiKeyCreator.isNone then
    .error .noCreator
  else if !config.sortedDuplicates then .error .notSortedDuplicates
  else if config.foreignKeyDatabaseName && config.foreignKeyDatabase.isNone then
    .error .foreignNameWithoutHandle
  else if (config.foreignKeyNullifier || config.foreignMultiKeyNullifier) &&
      config.foreignKeyDatabase.isNone then .error .nullifierWithoutHandle
  else .ok ()

/-- The keys that the configured creator makes. -/
def SecondaryConfig.keys (config : SecondaryConfig S) (key data : Bytes) : List S :=
  match config.keyCreator with
  | some create => (create key data).toList
  | none => match config.multiKeyCreator with
    | some create => create key data
    | none => []

/-! ### Opening -/

section Opening

variable [DecidableEq S]

/-- `Database::count`, of which `Tree::count_entries` sees the leaves in memory only. -/
def Index.count (inMemory : S × Bytes → Bool) (index : Index S) : ℕ :=
  index.countP fun e => inMemory e.pair && e.live

/-- `insert_sec_key` without an expiration; the index passes for fully populated from the start. A
put that fails for a reason of its own depends on the index it is made on. -/
def insertSecKey (config : SecondaryConfig S) (putFails : Index S → Bool) (index : Index S)
    (pair : S × Bytes) : Except OpenError (Index S) :=
  if config.foreignKeyDatabase.any fun has => !has pair.1 then
    .error .foreignConstraintViolation
  else if putFails index then .error .put
  else if index.any fun e => e.pair = pair && e.live then .error .secondaryIntegrity
  else if pair ∈ index.map (·.pair) then
    .ok (index.map fun e => if e.pair = pair then { e with deleted := false } else e)
  else .ok (index ++ [⟨pair, false, 0, false⟩])

/-- The pairs of a slot, as the scan makes them. -/
def slotEntries (config : SecondaryConfig S) (slot : Slot) : List (S × Bytes) :=
  match slot.bareRead with
  | none => []
  | some data => (config.keys slot.key data).map (·, slot.key)

/-- Insert pairs up to the first error; what was inserted before it stays. -/
def insertAll (config : SecondaryConfig S) (putFails : Index S → Bool) :
    Index S → List (S × Bytes) → Index S × Option OpenError
  | index, [] => (index, none)
  | index, pair :: pairs =>
    match insertSecKey config putFails index pair with
    | .error e => (index, some e)
    | .ok index => insertAll config putFails index pairs

/-- The scan of the primary, slot after slot. -/
def populateFromPrimaryScan (config : SecondaryConfig S) (putFails : Index S → Bool)
    (primary : Primary) (index : Index S) : Index S × Option OpenError :=
  insertAll config putFails index (primary.slots.flatMap (slotEntries config))

/-- An index with a live slot in memory is left as it is. -/
def populateIfEmpty (config : SecondaryConfig S) (inMemory : S × Bytes → Bool)
    (putFails : Index S → Bool) (primary : Primary) (index : Index S) :
    Index S × Option OpenError :=
  if 0 < index.count inMemory then (index, none)
  else populateFromPrimaryScan config putFails primary index

/-- `SecondaryDatabase::open` of an index. -/
def openSecondary (config : SecondaryConfig S) (inMemory : S × Bytes → Bool)
    (putFails : Index S → Bool) (primary : Primary) (index : Index S) :
    Index S × Option OpenError :=
  match config.validate primary.readOnly with
  | .error e => (index, some e)
  | .ok () =>
    if config.allowPopulate then populateIfEmpty config inMemory putFails primary index
    else (index, none)

end Opening

/-! ### What is in the index afterwards -/

variable {config : SecondaryConfig S} {inMemory : S × Bytes → Bool} {putFails : Index S → Bool}
  {primary : Primary} {index index' : Index S} {pair q : S × Bytes} {e : ℕ}

/-- The index has the pair, until this expiration. -/
def Index.Shows (index : Index S) (pair : S × Bytes) (e : ℕ) : Prop :=
  ∃ entry ∈ index, entry.pair = pair ∧ entry.live = true ∧ entry.expiration = e

/-- The pair is shown until this expiration once it is put: without one if it has no slot, and else
with that of its slot, unless it is past. -/
def Index.Lands (index : Index S) (pair : S × Bytes) (e : ℕ) : Prop :=
  (pair ∉ index.map (·.pair) ∧ e = 0) ∨
    ∃ entry ∈ index, entry.pair = pair ∧ entry.expired = false ∧ entry.expiration = e

section Inserted

variable [DecidableEq S]

/-- **One insertion**: the pair lands, and where any pair would land is as before. -/
theorem insertSecKey_ok (h : insertSecKey config putFails index pair = .ok index') :
    (∀ q e, index'.Shows q e ↔ index.Shows q e ∨ q = pair ∧ index.Lands q e) ∧
      ∀ q e, index'.Lands q e ↔ index.Lands q e := by
  unfold insertSecKey at h
  split_ifs at h with hforeign hput hlive hslot
  · -- a slot that is not live is taken over
    obtain rfl := Except.ok.inj h
    have hdead : ∀ entry ∈ index, entry.pair = pair → entry.live = false := by
      simpa using hlive
    refine ⟨fun q e => ?_, fun q e => ?_⟩
    · simp only [Index.Shows, Index.Lands, List.mem_map]
      constructor
      · rintro ⟨entry', ⟨entry, hentry, rfl⟩, hpair, hl, hexp⟩
        split_ifs at hpair hl hexp with hsame
        · refine .inr ⟨hpair.symm.trans hsame, .inr ⟨entry, hentry, hpair, ?_, hexp⟩⟩
          simpa [Entry.live] using hl
        · exact .inl ⟨entry, hentry, hpair, hl, hexp⟩
      · rintro (⟨entry, hentry, hpair, hl, hexp⟩ | ⟨rfl, hland⟩)
        · refine ⟨entry, ⟨entry, hentry, if_neg fun hsame => ?_⟩, hpair, hl, hexp⟩
          rw [hdead entry hentry hsame] at hl
          cases hl
        · rcases hland with ⟨hno, -⟩ | ⟨entry, hentry, hpair, hexpired, hexp⟩
          · exact absurd (List.mem_map.mp hslot) hno
          · refine ⟨_, ⟨entry, hentry, rfl⟩, ?_⟩
            simp [hpair, Entry.live, hexpired, hexp]
    · have hpairs : (index.map fun e =>
          if e.pair = pair then { e with deleted := false } else e).map (·.pair) =
            index.map (·.pair) := by
        rw [List.map_map]
        refine List.map_congr_left fun entry _ => ?_
        simp only [Function.comp_apply]
        split_ifs <;> rfl
      simp only [Index.Lands, hpairs]
      refine or_congr_right ⟨?_, ?_⟩
      · rintro ⟨entry', hmem, hpair, hexpired, hexp⟩
        obtain ⟨entry, hentry, rfl⟩ := List.mem_map.mp hmem
        split_ifs at hpair hexpired hexp <;> exact ⟨entry, hentry, hpair, hexpired, hexp⟩
      · rintro ⟨entry, hentry, hpair, hexpired, hexp⟩
        refine ⟨_, List.mem_map_of_mem hentry, ?_⟩
        split_ifs <;> exact ⟨hpair, hexpired, hexp⟩
  · -- a new slot
    obtain rfl := Except.ok.inj h
    have hnone : ∀ entry ∈ index, entry.pair ≠ pair := by
      simpa using hslot
    refine ⟨fun q e => ?_, fun q e => ?_⟩
    · simp only [Index.Shows, Index.Lands, List.mem_append, List.mem_singleton]
      constructor
      · rintro ⟨entry, hentry | rfl, hpair, hl, hexp⟩
        · exact .inl ⟨entry, hentry, hpair, hl, hexp⟩
        · exact .inr ⟨hpair.symm, .inl ⟨hpair ▸ hslot, hexp.symm⟩⟩
      · rintro (⟨entry, hentry, hpair, hl, hexp⟩ | ⟨rfl, ⟨-, rfl⟩ | ⟨entry, hentry, hpair, -⟩⟩)
        · exact ⟨entry, .inl hentry, hpair, hl, hexp⟩
        · exact ⟨_, .inr rfl, rfl, rfl, rfl⟩
        · exact absurd hpair (hnone entry hentry)
    · by_cases hq : q = pair
      · subst hq
        simp only [Index.Lands, List.map_append, List.mem_append, List.map_cons, List.map_nil,
          List.mem_singleton, or_true, not_true_eq_false, false_and, false_or, hslot,
          not_false_eq_true, true_and]
        constructor
        · rintro ⟨entry, hentry | rfl, hpair, -, hexp⟩
          · exact absurd hpair (hnone entry hentry)
          · exact .inl hexp.symm
        · rintro (rfl | ⟨entry, hentry, hpair, -⟩)
          · exact ⟨_, .inr rfl, rfl, rfl, rfl⟩
          · exact absurd hpair (hnone entry hentry)
      · simp only [Index.Lands, List.map_append, List.mem_append, List.map_cons, List.map_nil,
          List.mem_singleton, hq, or_false]
        refine or_congr_right (exists_congr fun entry => ?_)
        constructor
        · rintro ⟨hentry | rfl, hpair, hrest⟩
          · exact ⟨hentry, hpair, hrest⟩
          · exact absurd hpair.symm hq
        · rintro ⟨hentry, hrest⟩
          exact ⟨.inl hentry, hrest⟩

/-- **Insertions that all succeed**: each of the pairs lands. -/
theorem insertAll_shows {pairs : List (S × Bytes)}
    (h : insertAll config putFails index pairs = (index', none)) :
    index'.Shows q e ↔ index.Shows q e ∨ q ∈ pairs ∧ index.Lands q e := by
  induction pairs generalizing index with
  | nil =>
    obtain rfl := (Prod.mk.inj h).1
    simp
  | cons pair pairs ih =>
    rw [insertAll] at h
    cases hins : insertSecKey config putFails index pair with
    | error e =>
      rw [hins] at h
      cases h
    | ok next =>
      rw [hins] at h
      obtain ⟨hshows, hlands⟩ := insertSecKey_ok hins
      rw [ih h, hshows, hlands, List.mem_cons, or_and_right, or_assoc]

/-- **The index after an open that returns `Ok`**: as it was, or with what the scan makes. -/
theorem openSecondary_ok (hallow : config.allowPopulate = true)
    (h : openSecondary config inMemory putFails primary index = (index', none)) :
    if 0 < index.count inMemory then index' = index
    else ∀ q e, index'.Shows q e ↔ index.Shows q e ∨
      q ∈ primary.slots.flatMap (slotEntries config) ∧ index.Lands q e := by
  rw [openSecondary] at h
  split at h
  · cases h
  · rw [if_pos hallow, populateIfEmpty] at h
    split_ifs at h ⊢
    · exact (Prod.mk.inj h).1.symm
    · exact fun q e => insertAll_shows h

end Inserted

/-- The committed record of the slot gives the key, until this expiration. -/
def Slot.Gives (config : SecondaryConfig S) (slot : Slot) (s : S) (e : ℕ) : Prop :=
  ∃ data, slot.committed = some (data, e) ∧ s ∈ config.keys slot.key data

/-- The index is the image of the committed records. -/
def IsImage (config : SecondaryConfig S) (primary : Primary) (index : Index S) : Prop :=
  ∀ (s : S) (p : Bytes) (e : ℕ), index.Shows (s, p) e ↔
    ∃ slot ∈ primary.slots, slot.key = p ∧ slot.Gives config s e

/-- The version in the slot is neither deleted nor expired. -/
def Slot.Live (slot : Slot) : Prop :=
  slot.knownDeleted = false ∧ slot.pendingDeleted = false ∧ slot.expired = false

instance (slot : Slot) : Decidable slot.Live := inferInstanceAs (Decidable (_ ∧ _))

/-- The keys of the data that a live slot has in memory, or of no data if it was evicted, land as
the committed record gives them, and what it gives is in the index or lands. -/
structure SlotRight (config : SecondaryConfig S) (index : Index S) (slot : Slot) : Prop where
  added : slot.Live → ∀ s ∈ config.keys slot.key (slot.resident.getD []), ∀ e,
    index.Lands (s, slot.key) e → slot.Gives config s e
  covered : ∀ s e, slot.Gives config s e → index.Shows (s, slot.key) e ∨
    slot.Live ∧ s ∈ config.keys slot.key (slot.resident.getD []) ∧ index.Lands (s, slot.key) e

/-- **A slot of which a new index gets the right keys.** If nobody is writing it and it is live, it
has no expiration, or no keys; and if its data was evicted, no data has the same keys. If a
transaction is writing it, the version before has the same keys and no expiration, or no keys. -/
structure SlotPlain (config : SecondaryConfig S) (slot : Slot) : Prop where
  unexpiring : slot.uncommitted = none → slot.Live →
    slot.expiration = 0 ∨ ∀ s, s ∉ config.keys slot.key slot.logged
  evicted : slot.uncommitted = none → slot.Live → slot.resident = none →
    ∀ s, s ∈ config.keys slot.key [] ↔ s ∈ config.keys slot.key slot.logged
  written : ∀ before, slot.uncommitted = some before → slot.Live → ∀ s,
    s ∈ config.keys slot.key (slot.resident.getD []) ↔
      ∃ data e, before = some (data, e, false) ∧ s ∈ config.keys slot.key data
  before : ∀ data e, slot.uncommitted = some (some (data, e, false)) →
    slot.Live ∧ e = 0 ∨ ∀ s, s ∉ config.keys slot.key data

/-- What the bare cursor makes of a slot. -/
theorem mem_slotEntries {slot : Slot} {s : S} {p : Bytes} :
    (s, p) ∈ slotEntries config slot ↔ slot.key = p ∧ slot.Live ∧
      s ∈ config.keys slot.key (slot.resident.getD []) := by
  have hread : slot.bareRead = if slot.Live then some (slot.resident.getD []) else none := by
    cases hk : slot.knownDeleted <;> cases hp : slot.pendingDeleted <;>
      cases he : slot.expired <;> simp [Slot.bareRead, Slot.Live, hk, hp, he]
  rw [slotEntries, hread]
  split_ifs with hlive
  · simp [hlive, and_comm]
  · simp [hlive]

/-- A statement about the slots of a key is one about the only slot of it. -/
theorem exists_slot_iff {slot : Slot} (hslot : slot ∈ primary.slots) {P : Slot → Prop} :
    (∃ other ∈ primary.slots, other.key = slot.key ∧ P other) ↔ P slot := by
  constructor
  · rintro ⟨other, hother, hkey, hP⟩
    obtain rfl := List.inj_on_of_nodup_map primary.distinct hother hslot hkey
    exact hP
  · intro hP
    exact ⟨slot, hslot, rfl, hP⟩

/-- The pairs that a scan inserts. -/
theorem mem_scan {s : S} {p : Bytes} :
    (s, p) ∈ primary.slots.flatMap (slotEntries config) ↔ ∃ slot ∈ primary.slots,
      slot.key = p ∧ slot.Live ∧ s ∈ config.keys slot.key (slot.resident.getD []) := by
  simp only [List.mem_flatMap, mem_slotEntries]

/-- **After a scan the index is the image** exactly if what it had before is in the image, and every
slot is right. -/
theorem isImage_scan_iff
    (h : ∀ q e, index'.Shows q e ↔ index.Shows q e ∨
      q ∈ primary.slots.flatMap (slotEntries config) ∧ index.Lands q e) :
    IsImage config primary index' ↔
      (∀ s p e, index.Shows (s, p) e → ∃ slot ∈ primary.slots, slot.key = p ∧
        slot.Gives config s e) ∧ ∀ slot ∈ primary.slots, SlotRight config index slot := by
  constructor
  · intro himage
    have hshows : ∀ s p e, _ := fun s p e => (h (s, p) e).symm.trans (himage s p e)
    refine ⟨fun s p e hold => (hshows s p e).mp (.inl hold), fun slot hslot => ⟨?_, ?_⟩⟩
    · intro hlive s hs e hland
      exact (exists_slot_iff hslot).mp ((hshows s slot.key e).mp
        (.inr ⟨mem_scan.mpr ⟨slot, hslot, rfl, hlive, hs⟩, hland⟩))
    · intro s e hgives
      refine ((hshows s slot.key e).mpr ⟨slot, hslot, rfl, hgives⟩).imp_right ?_
      rintro ⟨hscan, hland⟩
      rw [mem_scan, exists_slot_iff hslot] at hscan
      exact ⟨hscan.1, hscan.2, hland⟩
  · rintro ⟨hold, hslots⟩ s p e
    rw [h]
    constructor
    · rintro (hshown | ⟨hscan, hland⟩)
      · exact hold s p e hshown
      · obtain ⟨slot, hslot, rfl, hlive, hs⟩ := mem_scan.mp hscan
        exact ⟨slot, hslot, rfl, (hslots slot hslot).added hlive s hs e hland⟩
    · rintro ⟨slot, hslot, rfl, hgives⟩
      refine ((hslots slot hslot).covered s e hgives).imp_right ?_
      rintro ⟨hlive, hs, hland⟩
      exact ⟨mem_scan.mpr ⟨slot, hslot, rfl, hlive, hs⟩, hland⟩

/-- What the committed record gives, if nobody is writing the slot. -/
theorem gives_of_none {slot : Slot} (hnone : slot.uncommitted = none) {s : S} {e : ℕ} :
    slot.Gives config s e ↔ slot.Live ∧ e = slot.expiration ∧
      s ∈ config.keys slot.key slot.logged := by
  simp only [Slot.Gives, Slot.committed, hnone, Slot.Live]
  cases slot.knownDeleted <;> cases slot.pendingDeleted <;> cases slot.expired <;>
    simp [eq_comm, and_comm]

/-- What the committed record gives, if a transaction is writing the slot. -/
theorem gives_of_some {slot : Slot} {before : Option (Bytes × ℕ × Bool)}
    (hsome : slot.uncommitted = some before) {s : S} {e : ℕ} :
    slot.Gives config s e ↔ ∃ data, before = some (data, e, false) ∧
      s ∈ config.keys slot.key data := by
  simp only [Slot.Gives, Slot.committed, hsome]
  refine exists_congr fun data => and_congr_left fun _ => ?_
  rcases before with _ | ⟨d, x, past⟩
  · simp
  · cases past <;> simp

/-- In an index without slots a pair lands without an expiration. -/
theorem lands_nil : Index.Lands ([] : Index S) pair e ↔ e = 0 := by
  simp [Index.Lands]

/-- **For an index without slots**, the slots are right exactly if they are plain. -/
theorem slotRight_nil_iff {slot : Slot} : SlotRight config [] slot ↔ SlotPlain config slot := by
  have hshows : ∀ q e, ¬ Index.Shows ([] : Index S) q e := by simp [Index.Shows]
  constructor
  · rintro ⟨hadded, hcovered⟩
    simp only [lands_nil, hshows, false_or, forall_eq] at hadded hcovered
    refine ⟨fun hnone hlive => ?_, fun hnone hlive hres s => ?_, fun before hsome hlive s => ?_,
      fun data e hsome => ?_⟩
    · refine or_iff_not_imp_right.mpr fun hsome => ?_
      obtain ⟨s, hs⟩ := not_forall_not.mp hsome
      exact (hcovered s _ ((gives_of_none hnone).mpr ⟨hlive, rfl, hs⟩)).2.2
    · have hread : slot.resident.getD [] = [] := by rw [hres]; rfl
      rw [hread] at hadded hcovered
      refine ⟨fun hs => ((gives_of_none hnone).mp (hadded hlive s hs)).2.2, fun hs => ?_⟩
      exact (hcovered s _ ((gives_of_none hnone).mpr ⟨hlive, rfl, hs⟩)).2.1
    · refine ⟨fun hs => ?_, ?_⟩
      · obtain ⟨data, hbefore, hdata⟩ := (gives_of_some hsome).mp (hadded hlive s hs)
        exact ⟨data, 0, hbefore, hdata⟩
      · rintro ⟨data, e, rfl, hs⟩
        exact (hcovered s e ((gives_of_some hsome).mpr ⟨data, rfl, hs⟩)).2.1
    · refine or_iff_not_imp_right.mpr fun hkeys => ?_
      obtain ⟨s, hs⟩ := not_forall_not.mp hkeys
      obtain ⟨hlive, -, hzero⟩ := hcovered s e ((gives_of_some hsome).mpr ⟨data, rfl, hs⟩)
      exact ⟨hlive, hzero⟩
  · intro h
    cases hwriter : slot.uncommitted with
    | none =>
      -- the data in memory is the data of the record
      have hsame : slot.Live → ∀ s, s ∈ config.keys slot.key (slot.resident.getD []) ↔
          s ∈ config.keys slot.key slot.logged := by
        intro hlive s
        cases hres : slot.resident with
        | none => exact h.evicted hwriter hlive hres s
        | some d => rw [Option.getD_some, slot.cached d hres]
      refine ⟨fun hlive s hs e he => ?_, fun s e hgives => .inr ?_⟩
      · rw [lands_nil] at he
        have hkey := (hsame hlive s).mp hs
        have hzero := (h.unexpiring hwriter hlive).resolve_right fun hno => hno s hkey
        exact (gives_of_none hwriter).mpr ⟨hlive, he.trans hzero.symm, hkey⟩
      · obtain ⟨hlive, rfl, hkey⟩ := (gives_of_none hwriter).mp hgives
        have hzero := (h.unexpiring hwriter hlive).resolve_right fun hno => hno s hkey
        exact ⟨hlive, (hsame hlive s).mpr hkey, lands_nil.mpr hzero⟩
    | some before =>
      refine ⟨fun hlive s hs e he => ?_, fun s e hgives => .inr ?_⟩
      · rw [lands_nil] at he
        obtain ⟨data, x, rfl, hkey⟩ := (h.written before hwriter hlive s).mp hs
        obtain ⟨-, rfl⟩ := (h.before data x hwriter).resolve_right fun hno => hno s hkey
        exact (gives_of_some hwriter).mpr ⟨data, he ▸ rfl, hkey⟩
      · obtain ⟨data, rfl, hkey⟩ := (gives_of_some hwriter).mp hgives
        obtain ⟨hlive, hzero⟩ := (h.before data e hwriter).resolve_right fun hno => hno s hkey
        exact ⟨hlive, (h.written _ hwriter hlive s).mpr ⟨data, e, rfl, hkey⟩,
          lands_nil.mpr hzero⟩

/-- **Opening gives the image of the primary exactly if** an index with a live slot in memory was
the image already; or what an index had out of memory belongs to the image, and every slot of the
primary is right. With no slots in the index, these are the plain ones. -/
theorem population_right_iff [DecidableEq S] (hallow : config.allowPopulate = true)
    (h : openSecondary config inMemory putFails primary index = (index', none)) :
    (IsImage config primary index' ↔
      if 0 < index.count inMemory then IsImage config primary index
      else (∀ s p e, index.Shows (s, p) e → ∃ slot ∈ primary.slots, slot.key = p ∧
        slot.Gives config s e) ∧ ∀ slot ∈ primary.slots, SlotRight config index slot) ∧
    (index = [] →
      (IsImage config primary index' ↔ ∀ slot ∈ primary.slots, SlotPlain config slot)) := by
  have hindex := openSecondary_ok hallow h
  refine ⟨?_, ?_⟩
  · split_ifs at hindex ⊢
    · rw [hindex]
    · exact isImage_scan_iff hindex
  · rintro rfl
    rw [if_neg (by simp [Index.count])] at hindex
    rw [isImage_scan_iff hindex]
    simp only [slotRight_nil_iff]
    exact and_iff_right (by simp [Index.Shows])

/-- A configuration whose secondary key is the data. -/
private def byData : SecondaryConfig Bytes where
  keyCreator := some fun _ data => some data
  multiKeyCreator := none
  foreignKeyDatabase := none
  foreignKeyDatabaseName := false
  foreignKeyNullifier := false
  foreignMultiKeyNullifier := false
  nullifyOnDelete := false
  sortedDuplicates := true
  allowPopulate := true

/-- A committed record in memory. -/
private def plain (key : UInt8) : Slot where
  key := [key]
  resident := some [7]
  logged := [7]
  cached := by simp
  knownDeleted := false
  pendingDeleted := false
  expiration := 0
  expired := false
  never := fun _ => rfl
  uncommitted := none

theorem population_right_plain :
    IsImage byData ⟨[plain 1], false, by simp⟩ [⟨([7], [1]), false, 0, false⟩] := by
  have hopen : openSecondary byData (fun _ => true) (fun _ => false)
      ⟨[plain 1], false, by simp⟩ [] = ([⟨([7], [1]), false, 0, false⟩], none) := rfl
  refine ((population_right_iff rfl hopen).2 rfl).mpr fun slot hslot => ?_
  obtain rfl := List.mem_singleton.mp hslot
  exact ⟨fun _ _ => .inl rfl, fun _ _ => nofun, nofun, nofun⟩

/-- A record that is not in memory. -/
private def evicted : Slot := { plain 1 with resident := none, cached := nofun }

/-- A record with an expiration. -/
private def expiring : Slot := { plain 1 with expiration := 5, never := nofun }

/-- A record that is not committed. -/
private def inserting : Slot := { plain 1 with uncommitted := some none }

/-- Evicted data reads as empty, an expiration is dropped, an insertion that may yet abort is
indexed; an index of which only one entry was written before a failure is left like that; and a pair
that is put over an expired slot is not shown. -/
theorem population_wrong :
    (evicted.committed = some ([7], 0) ∧ openSecondary byData (fun _ => true) (fun _ => false)
      ⟨[evicted], false, by simp⟩ [] = ([⟨([], [1]), false, 0, false⟩], none)) ∧
    (expiring.committed = some ([7], 5) ∧ openSecondary byData (fun _ => true) (fun _ => false)
      ⟨[expiring], false, by simp⟩ [] = ([⟨([7], [1]), false, 0, false⟩], none)) ∧
    (inserting.committed = none ∧ openSecondary byData (fun _ => true) (fun _ => false)
      ⟨[inserting], false, by simp⟩ [] = ([⟨([7], [1]), false, 0, false⟩], none)) ∧
    (openSecondary byData (fun _ => true) (0 < ·.length)
        ⟨[plain 1, plain 2], false, by simp [plain]⟩ [] =
        ([⟨([7], [1]), false, 0, false⟩], some .put) ∧
      openSecondary byData (fun _ => true) (fun _ => false)
        ⟨[plain 1, plain 2], false, by simp [plain]⟩ [⟨([7], [1]), false, 0, false⟩] =
        ([⟨([7], [1]), false, 0, false⟩], none)) ∧
    openSecondary byData (fun _ => true) (fun _ => false) ⟨[plain 1], false, by simp⟩
      [⟨([7], [1]), false, 5, true⟩] = ([⟨([7], [1]), false, 5, true⟩], none) :=
  ⟨⟨rfl, rfl⟩, ⟨rfl, rfl⟩, ⟨rfl, rfl⟩, ⟨rfl, rfl⟩, rfl⟩

end Noxu.Population
