import Noxu.Library.Decode
import Noxu.Tree.Image

/-!
# Decoding Node Images

The decoders of node images as the code walks over the bytes: every length is checked before
the bytes are sliced, and a slice past the end would panic. For a full image of a bottom node
the decoder follows the reader of `Noxu.Tree.Image`, so it never panics; but it reserves room
for as many slots as the count field says before it looks at the first of them, and what it
builds has no expiration times, which the image does not keep.

An upper node is logged with the length of each key in two bytes. Its decoder asks for
thirteen bytes and then slices sixteen, and reserves room in the same way.

## Main results

* `deserializeFull_restores`: which nodes a full image restores, and which byte strings are
  decoded without reserving more than they can hold;
* `deserializeUpperIn_restores`: which upper nodes are restored, and which byte strings are
  decoded without a panic and without reserving more than they can hold.
-/

open Noxu.Library Noxu.Library.Decoder

namespace Noxu

/-! ### Full images of bottom nodes -/

/-- Decode the data of a slot. -/
def decodeData : Decoder (Option Bytes) := do
  let hasData ← (do let bs ← field 1; pure (bs.headD 0))
  if hasData != 0 then do
    let dataLen ← fieldBe 4
    let d ← field dataLen
    pure (some d)
  else pure none

/-- Decode a slot. -/
def decodeSlot : Decoder SlotImage := do
  let keyLen ← fieldBe 4
  let key ← field keyLen
  let lsn ← fieldBe 8
  let data ← decodeData
  let byte ← (do let bs ← field 1; pure (bs.headD 0))
  pure ⟨key, Fin.ofNat _ lsn, data, (decodeDeletedStateByte byte).1,
    (decodeDeletedStateByte byte).2⟩

/-- Decode a full image. The three reservations are those of the slot states, the LSNs and the
keys. -/
def BinStub.decodeFull : Decoder BinStub := do
  ensure 12
  let nodeId ← sliceBe 8
  let numEntries ← sliceBe 4
  reserve numEntries
  reserve numEntries
  reserve numEntries
  let slots ← many decodeSlot numEntries
  pure (BinStub.binOfFull nodeId slots)

/-- The least number of bytes a slot takes: two lengths or flags, an LSN and a mark. -/
def minSlotSize : ℕ := 14

/-- The count field of a full image. -/
def countField (bytes : Bytes) : ℕ := beNat ((bytes.drop 8).take 4)

/-- All room the decoder reserved could have been filled from the bytes left. -/
def RoomBacked (slotSize : ℕ) (s : DecodeState) : Prop := ∀ r ∈ s.reserved, r.1 * slotSize ≤ r.2

theorem follows_decodeData : Follows decodeData readData := by
  refine follows_fieldByte.bind fun hasData => ?_
  split
  · exact (follows_fieldBe 4).bind fun dataLen => (follows_field dataLen).map some
  · exact follows_pure none

theorem follows_decodeSlot : Follows decodeSlot readSlot :=
  (follows_fieldBe 4).bind fun keyLen => (follows_field keyLen).bind fun _ =>
    (follows_fieldBe 8).bind fun _ => follows_decodeData.bind fun _ =>
      follows_fieldByte.bind fun _ => follows_pure _

section Full

variable {bytes : Bytes}

/-- What the decoder returns for what the reader of the image returns. -/
def outcome {α : Type} : Option α → Except Failure α
  | none => .error .malformed
  | some a => .ok a

theorem readFull_apply (bytes : Bytes) :
    BinStub.readFull bytes = (readBe 8 bytes).bind fun x => (readBe 4 x.2).bind fun y =>
      (readMany readSlot y.1 y.2).bind fun z => some ((x.1, z.1), z.2) := rfl

/-- The two fields in front of the slots are read, and the slots follow. -/
theorem deserializeFull_eq (h : 12 ≤ bytes.length) :
    BinStub.deserializeFull bytes =
      (readMany readSlot (countField bytes) (bytes.drop 12)).map fun r =>
        BinStub.binOfFull (beNat (bytes.take 8)) r.1 := by
  have hcount : readBe 4 (bytes.drop 8) = some (countField bytes, bytes.drop 12) := by
    rw [readBe_of_le (by rw [List.length_drop]; omega), List.drop_drop]
    rfl
  rw [BinStub.deserializeFull, readFull_apply, readBe_of_le (by omega), Option.bind_some,
    hcount, Option.bind_some]
  cases readMany readSlot (countField bytes) (bytes.drop 12) <;> rfl

theorem deserializeFull_of_lt (h : bytes.length < 12) :
    BinStub.deserializeFull bytes = none := by
  rw [BinStub.deserializeFull, readFull_apply]
  rcases Nat.lt_or_ge bytes.length 8 with h8 | h8
  · rw [readBe_of_lt h8]
    rfl
  · have hshort : (bytes.drop 8).length < 4 := by rw [List.length_drop]; omega
    rw [readBe_of_le h8, Option.bind_some, readBe_of_lt hshort]
    rfl

theorem run_decodeFull_of_lt (h : bytes.length < 12) :
    BinStub.decodeFull.run bytes = (.error .malformed, ⟨0, []⟩) :=
  bind_error (if_pos h)

/-- The decoder returns what the reader returns, and reserves what the count field says. -/
theorem run_decodeFull_of_le (h : 12 ≤ bytes.length) :
    ∃ pos, BinStub.decodeFull.run bytes = (outcome (BinStub.deserializeFull bytes),
      ⟨pos, List.replicate 3 (countField bytes, bytes.length - 12)⟩) := by
  set s : DecodeState := ⟨12, List.replicate 3 (countField bytes, bytes.length - 12)⟩ with hs
  have hhead : BinStub.decodeFull.run bytes =
      (do let slots ← many decodeSlot (countField bytes)
          pure (BinStub.binOfFull (beNat (bytes.take 8)) slots) : Decoder BinStub) bytes s := by
    rw [Decoder.run, BinStub.decodeFull, bind_ok (if_neg (by simpa using h))]
    rw [bind_ok (sliceBe_of_le (by omega)), bind_ok (sliceBe_of_le (by omega))]
    rfl
  have hfollow := (follows_many follows_decodeSlot (countField bytes)).map
    (BinStub.binOfFull (beNat (bytes.take 8))) bytes s (by rw [hs]; exact h)
  have hmap : (BinStub.binOfFull (beNat (bytes.take 8)) <$>
        readMany readSlot (countField bytes)) (bytes.drop 12) =
      (readMany readSlot (countField bytes) (bytes.drop 12)).map fun r =>
        (BinStub.binOfFull (beNat (bytes.take 8)) r.1, r.2) := by
    simp only [Functor.map, StateT.map]
    cases readMany readSlot (countField bytes) (bytes.drop 12) <;> rfl
  rw [hhead, deserializeFull_eq h]
  rw [show s.pos = 12 from rfl, hmap] at hfollow
  cases hmany : readMany readSlot (countField bytes) (bytes.drop 12) with
  | none =>
    obtain ⟨pos, hpos⟩ := hfollow.1 (by rw [hmany]; rfl)
    exact ⟨pos, hpos⟩
  | some r =>
    obtain ⟨pos, -, hpos, -⟩ := hfollow.2 _ r.2 (by rw [hmany]; rfl)
    exact ⟨pos, hpos⟩

/-- **The decoder returns what the reader of the image returns.** -/
theorem run_decodeFull_fst :
    (BinStub.decodeFull.run bytes).1 = outcome (BinStub.deserializeFull bytes) := by
  rcases Nat.lt_or_ge bytes.length 12 with h | h
  · rw [run_decodeFull_of_lt h, deserializeFull_of_lt h]
    rfl
  · obtain ⟨pos, hrun⟩ := run_decodeFull_of_le h
    rw [hrun]

/-- The decoder reserves no more than the bytes can hold if the count field says no more. -/
theorem roomBacked_run_decodeFull_iff :
    RoomBacked minSlotSize (BinStub.decodeFull.run bytes).2 ↔
      bytes.length < 12 ∨ countField bytes * minSlotSize ≤ bytes.length - 12 := by
  rcases Nat.lt_or_ge bytes.length 12 with h | h
  · rw [run_decodeFull_of_lt h]
    simp [RoomBacked, h]
  · obtain ⟨pos, hrun⟩ := run_decodeFull_of_le h
    rw [hrun]
    simp [RoomBacked, Nat.not_lt.mpr h]

end Full

/-! ### What a full image restores -/

/-- What the slots of a node hold, expiration times included. -/
def BinStub.records (b : BinStub) : List (SlotImage × ℕ) :=
  b.fullSlots.map fun s => (s.toImage, s.expirationTime)

/-- What the slots of a node hold, with the data that are embedded in its image. -/
def BinStub.embeddedRecords (b : BinStub) : List (SlotImage × ℕ) :=
  b.fullSlots.map fun s => (s.embedded b.maxEmbeddedLn, s.expirationTime)

/-- A full image keeps everything but the expiration times. -/
theorem records_deserializeFull {b : BinStub} (h : b.serializeFull.length < 2 ^ 32) :
    ∃ b', (BinStub.decodeFull.run b.serializeFull).1 = .ok b' ∧
      b'.records = b.embeddedRecords.map fun r => (r.1, 0) := by
  obtain ⟨b', hdes, hslots, -⟩ := deserializeFull_serializeFull h
  refine ⟨b', by rw [run_decodeFull_fst, hdes]; rfl, ?_⟩
  rw [BinStub.records, hslots, BinStub.images, BinStub.embeddedRecords]
  simp only [List.map_map]
  rfl

/-- **Full images.** A node whose image fits a log entry is restored from it exactly if no
slot has an expiration time. The decoder panics on no byte string, and it reserves no more
slots than the bytes left can hold exactly if the count field says no more. -/
theorem deserializeFull_restores (b : BinStub) (bytes : Bytes) :
    (28 + b.serializeFull.length < 2 ^ 32 →
      ((∃ b', (BinStub.decodeFull.run b.serializeFull).1 = .ok b' ∧
          b'.records = b.embeddedRecords) ↔ ∀ s ∈ b.slots, s.expirationTime = 0)) ∧
      (BinStub.decodeFull.run bytes).1 ≠ .error .panicked ∧
      (RoomBacked minSlotSize (BinStub.decodeFull.run bytes).2 ↔
        bytes.length < 12 ∨ countField bytes * minSlotSize ≤ bytes.length - 12) := by
  refine ⟨fun hb => ?_, ?_, roomBacked_run_decodeFull_iff⟩
  · obtain ⟨b', hrun, hrecords⟩ := records_deserializeFull (b := b) (by omega)
    have hzero : b.embeddedRecords.map (fun r => (r.1, 0)) = b.embeddedRecords ↔
        ∀ s ∈ b.slots, s.expirationTime = 0 := by
      simp [BinStub.embeddedRecords, BinStub.fullSlots, BinSlot.withPrefix, eq_comm]
    rw [← hzero]
    constructor
    · rintro ⟨b'', hrun', hrecords'⟩
      rw [hrun] at hrun'
      obtain rfl := Except.ok.inj hrun'
      rw [← hrecords, hrecords']
    · intro h
      exact ⟨b', hrun, by rw [hrecords, h]⟩
  · rw [run_decodeFull_fst]
    cases BinStub.deserializeFull bytes <;> simp [outcome]

/-- A node of one slot. -/
def leafOfSlot (slot : BinSlot) : BinStub :=
  { BinStub.binOfFull 7 [] with
    slots := [slot] }

/-- A node without expiration times is restored, also a deletion without data beside its empty
twin. -/
theorem deserializeFull_restores_plain :
    (∃ b', (BinStub.decodeFull.run (leafOfSlot (.fresh [1, 2] 5 (some []))).serializeFull).1 =
        .ok b' ∧ b'.records = (leafOfSlot (.fresh [1, 2] 5 (some []))).embeddedRecords) :=
  ((deserializeFull_restores (leafOfSlot (.fresh [1, 2] 5 (some []))) []).1 (by decide)).mpr
    (by decide)

/-- The expiration time of a slot is lost, and twelve bytes make the decoder reserve room for
more than four billion slots. -/
theorem deserializeFull_loses_expiration :
    (¬ ∃ b', (BinStub.decodeFull.run
          (leafOfSlot { BinSlot.fresh [1, 2] 5 (some [9]) with
            expirationTime := 480000 }).serializeFull).1 = .ok b' ∧
        b'.records = (leafOfSlot { BinSlot.fresh [1, 2] 5 (some [9]) with
            expirationTime := 480000 }).embeddedRecords) ∧
      (BinStub.decodeFull.run (List.replicate 12 255)).2.reserved =
        List.replicate 3 (2 ^ 32 - 1, 0) := by
  constructor
  · rintro ⟨b', hrun, hrecords⟩
    obtain ⟨b'', hrun', hrecords'⟩ := records_deserializeFull
      (b := leafOfSlot { BinSlot.fresh [1, 2] 5 (some [9]) with
        expirationTime := 480000 }) (by decide)
    rw [hrun] at hrun'
    obtain rfl := Except.ok.inj hrun'
    rw [hrecords] at hrecords'
    revert hrecords'
    decide
  · obtain ⟨pos, hrun⟩ := run_decodeFull_of_le
      (show 12 ≤ (List.replicate 12 (255 : UInt8)).length by decide)
    rw [hrun]
    show List.replicate 3 (countField (List.replicate 12 255), 12 - 12) = _
    decide

/-! ### Upper nodes -/

/-- An upper node as it is logged. -/
structure UpperIn where
  /-- Node identifier. -/
  nodeId : Fin (2 ^ 64)
  /-- The level, a signed number of 32 bits. -/
  level : BitVec 32
  /-- The key and the child LSN of each slot. -/
  entries : List (Key × Lsn)
  /-- The node changed since it was last logged. -/
  dirty : Bool
  deriving DecidableEq, Repr

/-- The bytes of a slot of an upper node: the length of the key has two bytes. -/
def writeUpperEntry (e : Key × Lsn) : Bytes :=
  beBytes 2 e.1.length ++ (e.1 ++ beBytes 8 e.2.val)

/-- Decode a slot of an upper node. -/
def decodeUpperEntry : Decoder (Key × Lsn) := do
  let keyLen ← fieldBe 2
  let key ← field keyLen
  let lsn ← fieldBe 8
  pure (key, Fin.ofNat _ lsn)

/-- The reader the decoder of a slot follows. -/
def readUpperEntry : Reader (Key × Lsn) := do
  let keyLen ← readBe 2
  let key ← readBytes keyLen
  let lsn ← readBe 8
  pure (key, Fin.ofNat _ lsn)

namespace UpperIn

/-- The size a node announces before it is written. -/
def logSize (n : UpperIn) : ℕ :=
  8 + 4 + 4 + 1 + (n.entries.map fun e => 2 + e.1.length + 8).sum

/-- The bytes of a node. -/
def writeToBytes (n : UpperIn) : Bytes :=
  beBytes 8 n.nodeId.val ++ (beBytes 4 n.level.toNat ++ (beBytes 4 n.entries.length ++
    ((if n.dirty then 1 else 0) :: n.entries.flatMap writeUpperEntry)))

/-- Decode a node. Thirteen bytes are asked for in front of the three fields, which take
sixteen. The two reservations are those of the entries and the LSNs. -/
def deserializeUpperIn : Decoder UpperIn := do
  ensure 13
  let nodeId ← sliceBe 8
  let level ← sliceBe 4
  let nEntries ← sliceBe 4
  let _dirty ← field 1
  reserve nEntries
  reserve nEntries
  let entries ← many decodeUpperEntry nEntries
  pure ⟨Fin.ofNat _ nodeId, BitVec.ofNat 32 level, entries, false⟩

/-- The least number of bytes a slot of an upper node takes: a length and an LSN. -/
def minEntrySize : ℕ := 10

/-- The count field of an upper node. -/
def countField (bytes : Bytes) : ℕ := beNat ((bytes.drop 12).take 4)

/-- The node that is decoded from the first fields of a byte string and some entries. -/
def ofEntries (bytes : Bytes) (entries : List (Key × Lsn)) : UpperIn :=
  ⟨Fin.ofNat _ (beNat (bytes.take 8)), BitVec.ofNat 32 (beNat ((bytes.drop 8).take 4)), entries,
    false⟩

/-- The announced size is the number of bytes written. -/
theorem logSize_eq (n : UpperIn) : n.logSize = n.writeToBytes.length := by
  have hentries : (n.entries.flatMap writeUpperEntry).length =
      (n.entries.map fun e => 2 + e.1.length + 8).sum := by
    rw [List.length_flatMap]
    congr 1
    refine List.map_congr_left fun e _ => ?_
    simp only [writeUpperEntry, List.length_append, length_beBytes]
    omega
  simp only [logSize, writeToBytes, List.length_append, List.length_cons, length_beBytes,
    hentries]
  omega

end UpperIn

theorem follows_decodeUpperEntry : Follows decodeUpperEntry readUpperEntry :=
  (follows_fieldBe 2).bind fun keyLen => (follows_field keyLen).bind fun _ =>
    (follows_fieldBe 8).bind fun _ => follows_pure _

/-- A slot whose key length fits two bytes is read back. -/
theorem reads_readUpperEntry {e : Key × Lsn} (h : e.1.length < 2 ^ 16) :
    Reads readUpperEntry (writeUpperEntry e) e := by
  have hkey : e.1.length < 256 ^ 2 := h
  have hlsn : e.2.val < 256 ^ 8 := e.2.isLt
  refine (reads_readBe hkey).bind ((reads_readBytes e.1).bind ((reads_readBe hlsn).bind_nil ?_))
  simp only [Fin.ofNat_val_eq_self]
  exact reads_pure e

/-- The fields of a slot that is read. -/
theorem readUpperEntry_eq_some {bs rest : Bytes} {e : Key × Lsn}
    (h : readUpperEntry bs = some (e, rest)) :
    ∃ keyLen bs₁ bs₂ lsn, readBe 2 bs = some (keyLen, bs₁) ∧
      readBytes keyLen bs₁ = some (e.1, bs₂) ∧ readBe 8 bs₂ = some (lsn, rest) := by
  obtain ⟨⟨keyLen, bs₁⟩, hlen, h⟩ := Option.bind_eq_some_iff.mp
    (show (readBe 2 bs).bind (fun x => (readBytes x.1 x.2).bind fun y =>
      (readBe 8 y.2).bind fun z => some ((y.1, Fin.ofNat _ z.1), z.2)) = some (e, rest) from h)
  obtain ⟨⟨key, bs₂⟩, hkey, h⟩ := Option.bind_eq_some_iff.mp h
  obtain ⟨⟨lsn, bs₃⟩, hlsn, h⟩ := Option.bind_eq_some_iff.mp h
  obtain ⟨rfl, rfl⟩ := Prod.mk.inj (Option.some.inj h)
  exact ⟨keyLen, bs₁, bs₂, lsn, hlen, hkey, hlsn⟩

/-- A slot that is read has a key whose length fits two bytes. -/
theorem readUpperEntry_lt (bs : Bytes) (e : Key × Lsn) (rest : Bytes)
    (h : readUpperEntry bs = some (e, rest)) : e.1.length < 2 ^ 16 := by
  obtain ⟨keyLen, bs₁, bs₂, lsn, hlen, hkey, -⟩ := readUpperEntry_eq_some h
  have hlt := readBe_lt hlen
  rw [readBytes, Option.ite_none_left_eq_some] at hkey
  obtain ⟨-, hkey⟩ := hkey
  rw [← (Prod.mk.inj (Option.some.inj hkey)).1, List.length_take]
  omega

section Upper

variable {bytes : Bytes} {n : UpperIn}

theorem run_deserializeUpperIn_of_lt (h : bytes.length < 13) :
    UpperIn.deserializeUpperIn.run bytes = (.error .malformed, ⟨0, []⟩) :=
  bind_error (if_pos (by omega))

/-- From thirteen to fifteen bytes the third field is sliced past the end. -/
theorem run_deserializeUpperIn_panics (h : 13 ≤ bytes.length) (h' : bytes.length < 16) :
    (UpperIn.deserializeUpperIn.run bytes).1 = .error .panicked := by
  have hcount : sliceBe 4 bytes ⟨12, []⟩ = (.error .panicked, ⟨12, []⟩) :=
    bind_error (if_pos (show bytes.length < 12 + 4 by omega))
  rw [Decoder.run, UpperIn.deserializeUpperIn,
    bind_ok (if_neg (show ¬ bytes.length < 0 + 13 by omega)), bind_ok (sliceBe_of_le (by omega)),
    bind_ok (sliceBe_of_le (by omega)), bind_error hcount]

/-- With sixteen bytes the first fields are there, and the mark behind them is not. -/
theorem run_deserializeUpperIn_of_eq (h : bytes.length = 16) :
    UpperIn.deserializeUpperIn.run bytes = (.error .malformed, ⟨16, []⟩) := by
  have hdirty : field 1 bytes ⟨16, []⟩ = (.error .malformed, ⟨16, []⟩) :=
    bind_error (if_pos (show bytes.length < 16 + 1 by omega))
  rw [Decoder.run, UpperIn.deserializeUpperIn,
    bind_ok (if_neg (show ¬ bytes.length < 0 + 13 by omega)), bind_ok (sliceBe_of_le (by omega)),
    bind_ok (sliceBe_of_le (by omega)), bind_ok (sliceBe_of_le (by omega)), bind_error hdirty]

/-- With more bytes the decoder reserves what the count field says, and returns what the reader of
the entries returns. -/
theorem run_deserializeUpperIn_of_le (h : 17 ≤ bytes.length) :
    ∃ pos, UpperIn.deserializeUpperIn.run bytes =
      (outcome ((readMany readUpperEntry (UpperIn.countField bytes) (bytes.drop 17)).map fun r =>
          UpperIn.ofEntries bytes r.1),
        ⟨pos, List.replicate 2 (UpperIn.countField bytes, bytes.length - 17)⟩) := by
  set s : DecodeState :=
    ⟨17, List.replicate 2 (UpperIn.countField bytes, bytes.length - 17)⟩ with hs
  have hdirty : field 1 bytes ⟨16, []⟩ = (.ok ((bytes.drop 16).take 1), ⟨17, []⟩) := by
    rw [field, bind_ok (if_neg (show ¬ bytes.length < 16 + 1 by omega))]
    exact if_neg (show ¬ bytes.length < 16 + 1 by omega)
  have hhead : UpperIn.deserializeUpperIn.run bytes =
      (do let entries ← many decodeUpperEntry (UpperIn.countField bytes)
          pure (UpperIn.ofEntries bytes entries) : Decoder UpperIn) bytes s := by
    rw [Decoder.run, UpperIn.deserializeUpperIn,
      bind_ok (if_neg (show ¬ bytes.length < 0 + 13 by omega)),
      bind_ok (sliceBe_of_le (by omega)), bind_ok (sliceBe_of_le (by omega)),
      bind_ok (sliceBe_of_le (by omega)), bind_ok hdirty]
    rfl
  obtain ⟨hnone, hsome⟩ := follows_many follows_decodeUpperEntry (UpperIn.countField bytes) bytes s
    (by rw [hs]; exact h)
  rw [hhead]
  cases hread : readMany readUpperEntry (UpperIn.countField bytes) (bytes.drop 17) with
  | none =>
    obtain ⟨pos, hpos⟩ := hnone hread
    exact ⟨pos, bind_error hpos⟩
  | some r =>
    obtain ⟨pos, -, hpos, -⟩ := hsome r.1 r.2 hread
    exact ⟨pos, bind_ok hpos⟩

/-- **The decoder ends** without a panic and without reserving more than the bytes can hold on
these byte strings only. -/
theorem run_deserializeUpperIn_ends_iff :
    ((UpperIn.deserializeUpperIn.run bytes).1 ≠ .error .panicked ∧
        RoomBacked UpperIn.minEntrySize (UpperIn.deserializeUpperIn.run bytes).2) ↔
      bytes.length < 13 ∨ bytes.length = 16 ∨ 17 ≤ bytes.length ∧
        UpperIn.countField bytes * UpperIn.minEntrySize ≤ bytes.length - 17 := by
  rcases Nat.lt_or_ge bytes.length 13 with h | h
  · rw [run_deserializeUpperIn_of_lt h]
    simp [RoomBacked, h]
  rcases Nat.lt_trichotomy bytes.length 16 with h' | h' | h'
  · rw [run_deserializeUpperIn_panics h h']
    refine iff_of_false (fun hends => hends.1 rfl) ?_
    omega
  · rw [run_deserializeUpperIn_of_eq h']
    simp [RoomBacked, h']
  · obtain ⟨pos, hrun⟩ := run_deserializeUpperIn_of_le h'
    have hok : ∀ o : Option UpperIn, outcome o ≠ .error .panicked := fun o => by
      cases o <;> simp [outcome]
    rw [hrun]
    simp only [hok, ne_eq, not_false_eq_true, true_and, RoomBacked, List.mem_replicate]
    constructor
    · intro hall
      exact .inr (.inr ⟨h', hall (UpperIn.countField bytes, _) ⟨two_ne_zero, rfl⟩⟩)
    · rintro hcount r ⟨-, rfl⟩
      dsimp only
      omega

/-- What the decoder makes of the bytes of a node: the count is known up to its width. -/
theorem run_deserializeUpperIn_writeToBytes (n : UpperIn) :
    (UpperIn.deserializeUpperIn.run n.writeToBytes).1 =
      outcome ((readMany readUpperEntry (n.entries.length % 2 ^ 32)
        (n.entries.flatMap writeUpperEntry)).map fun r =>
          { n with
            entries := r.1
            dirty := false }) := by
  set tail := (if n.dirty then (1 : UInt8) else 0) :: n.entries.flatMap writeUpperEntry with htail
  have hbytes : n.writeToBytes = beBytes 8 n.nodeId.val ++ (beBytes 4 n.level.toNat ++
      (beBytes 4 n.entries.length ++ tail)) := rfl
  have hlen : 17 ≤ n.writeToBytes.length := by
    rw [← n.logSize_eq, UpperIn.logSize]
    omega
  have hdrop8 : n.writeToBytes.drop 8 = beBytes 4 n.level.toNat ++
      (beBytes 4 n.entries.length ++ tail) := by
    rw [hbytes, List.drop_left' (length_beBytes _ _)]
  have hdrop12 : n.writeToBytes.drop 12 = beBytes 4 n.entries.length ++ tail := by
    rw [show 12 = 8 + 4 from rfl, ← List.drop_drop, hdrop8, List.drop_left' (length_beBytes _ _)]
  have hdrop17 : n.writeToBytes.drop 17 = n.entries.flatMap writeUpperEntry := by
    rw [show 17 = 12 + 4 + 1 from rfl, ← List.drop_drop, ← List.drop_drop, hdrop12,
      List.drop_left' (length_beBytes _ _), htail]
    rfl
  have hid : beNat (n.writeToBytes.take 8) = n.nodeId.val := by
    rw [hbytes, List.take_left' (length_beBytes _ _), beNat_beBytes_of_lt n.nodeId.isLt]
  have hlevel : beNat ((n.writeToBytes.drop 8).take 4) = n.level.toNat := by
    rw [hdrop8, List.take_left' (length_beBytes _ _), beNat_beBytes_of_lt n.level.isLt]
  have hcount : UpperIn.countField n.writeToBytes = n.entries.length % 2 ^ 32 := by
    rw [UpperIn.countField, hdrop12, List.take_left' (length_beBytes _ _)]
    simp [beNat, beBytes, leNat_leBytes]
  obtain ⟨pos, hrun⟩ := run_deserializeUpperIn_of_le hlen
  rw [hrun, hcount, hdrop17]
  refine congrArg outcome (Option.map_congr fun r _ => ?_)
  rw [UpperIn.ofEntries, hid, hlevel]
  simp

/-- Only a node with few enough slots and short enough keys is restored. -/
theorem bounds_of_restored {n' : UpperIn}
    (hrun : (UpperIn.deserializeUpperIn.run n.writeToBytes).1 = .ok n')
    (hentries : n'.entries = n.entries) :
    n.entries.length < 2 ^ 32 ∧ ∀ e ∈ n.entries, e.1.length < 2 ^ 16 := by
  rw [run_deserializeUpperIn_writeToBytes] at hrun
  cases hread : readMany readUpperEntry (n.entries.length % 2 ^ 32)
      (n.entries.flatMap writeUpperEntry) with
  | none =>
    rw [hread] at hrun
    cases hrun
  | some r =>
    rw [hread] at hrun
    obtain rfl := Except.ok.inj hrun
    obtain ⟨hcount, hkeys⟩ := readMany_spec readUpperEntry_lt hread
    rw [show r.1 = n.entries from hentries] at hcount hkeys
    exact ⟨by omega, hkeys⟩

/-- A node with few enough slots and short enough keys is restored. -/
theorem run_deserializeUpperIn_of_bounds (hcount : n.entries.length < 2 ^ 32)
    (hkeys : ∀ e ∈ n.entries, e.1.length < 2 ^ 16) :
    (UpperIn.deserializeUpperIn.run n.writeToBytes).1 = .ok { n with dirty := false } := by
  have hread := reads_readMany n.entries fun e he => reads_readUpperEntry (hkeys e he)
  have hrun := hread []
  rw [List.append_nil, List.map_id'] at hrun
  rw [run_deserializeUpperIn_writeToBytes, Nat.mod_eq_of_lt hcount, hrun]
  rfl

/-- **Upper nodes.** A node is restored from its bytes exactly if it has fewer than `2 ^ 32`
slots and every key fits the two bytes of its length; the announced size is the number of
bytes; and the decoder ends, without a panic and without reserving room for more entries than the
bytes can hold, exactly if there are less than thirteen bytes, or sixteen, or more and the count
field says no more than the bytes behind it can hold. -/
theorem deserializeUpperIn_restores (n : UpperIn) (bytes : Bytes) :
    ((∃ n', (UpperIn.deserializeUpperIn.run n.writeToBytes).1 = .ok n' ∧
        n'.nodeId = n.nodeId ∧ n'.level = n.level ∧ n'.entries = n.entries) ↔
      n.entries.length < 2 ^ 32 ∧ ∀ e ∈ n.entries, e.1.length < 2 ^ 16) ∧
    n.logSize = n.writeToBytes.length ∧
    (((UpperIn.deserializeUpperIn.run bytes).1 ≠ .error .panicked ∧
        RoomBacked UpperIn.minEntrySize (UpperIn.deserializeUpperIn.run bytes).2) ↔
      bytes.length < 13 ∨ bytes.length = 16 ∨ 17 ≤ bytes.length ∧
        UpperIn.countField bytes * UpperIn.minEntrySize ≤ bytes.length - 17) := by
  refine ⟨?_, n.logSize_eq, run_deserializeUpperIn_ends_iff⟩
  constructor
  · rintro ⟨n', hrun, -, -, hentries⟩
    exact bounds_of_restored hrun hentries
  · rintro ⟨hcount, hkeys⟩
    exact ⟨_, run_deserializeUpperIn_of_bounds hcount hkeys, rfl, rfl, rfl⟩

/-- Thirteen bytes make the decoder panic, seventeen make it reserve room for more than four
billion entries, and a slot with a key of `2 ^ 16` bytes is not restored. -/
theorem deserializeUpperIn_long_key :
    (UpperIn.deserializeUpperIn.run (List.replicate 13 0)).1 = .error .panicked ∧
      (UpperIn.deserializeUpperIn.run (List.replicate 17 255)).2.reserved =
        List.replicate 2 (2 ^ 32 - 1, 0) ∧
      ¬ ∃ n', (UpperIn.deserializeUpperIn.run (UpperIn.writeToBytes
          ⟨3, 2, [(List.replicate (2 ^ 16) 7, 5)], true⟩)).1 = .ok n' ∧
        n'.entries = [(List.replicate (2 ^ 16) 7, 5)] := by
  refine ⟨run_deserializeUpperIn_panics (by decide) (by decide), ?_, ?_⟩
  · obtain ⟨pos, hrun⟩ := run_deserializeUpperIn_of_le
      (show 17 ≤ (List.replicate 17 (255 : UInt8)).length by decide)
    rw [hrun]
    show List.replicate 2 (UpperIn.countField (List.replicate 17 255), 17 - 17) = _
    decide
  rintro ⟨n', hrun, hentries⟩
  have hlt := (bounds_of_restored hrun hentries).2 _ (List.mem_singleton_self _)
  rw [List.length_replicate] at hlt
  exact absurd hlt (lt_irrefl _)

end Upper

end Noxu
