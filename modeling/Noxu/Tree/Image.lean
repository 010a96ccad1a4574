import Noxu.Library.Bytes
import Noxu.Log.Entry
import Noxu.Tree.BinSpec

/-!
# Images of the Bottom Node

The bytes a bottom node is logged as in full, and the readers that take them apart. An image
keeps of a slot its full key, its LSN, its two deletion marks and its data, unless the data are
longer than the node embeds: those stay in the log at the LSN of the slot.

## Main results

* `deserializeFull_serializeFull`: a full image is read back as the slots of the node.
-/

open Std Noxu.Library

namespace Noxu

/-! ### What an image keeps -/

/-- A slot as an image keeps it. -/
structure SlotImage where
  /-- The full key. -/
  key : Key
  /-- The LSN of the version. -/
  lsn : Lsn
  /-- The data, if they are in the image. -/
  data : Option Bytes
  /-- The slot is a committed deletion. -/
  knownDeleted : Bool
  /-- The slot is a deletion whose transaction is open. -/
  pendingDeleted : Bool
  deriving DecidableEq, Repr

/-- What an image can keep of a slot. -/
def BinSlot.toImage (s : BinSlot) : SlotImage :=
  ⟨s.key, s.lsn, s.data, s.knownDeleted, s.pendingDeleted⟩

/-- What the image of a node keeps of a slot: data longer than the limit stay in the log. -/
def BinSlot.embedded (maxEmbeddedLn : ℤ) (s : BinSlot) : SlotImage :=
  { s.toImage with data := s.data.filter fun d => decide ((d.length : ℤ) ≤ maxEmbeddedLn) }

/-- The slots of a node as its image keeps them. -/
def BinStub.images (b : BinStub) : List SlotImage :=
  b.fullSlots.map (BinSlot.embedded b.maxEmbeddedLn)

/-! ### Slots -/

/-- The byte of the two deletion marks. -/
def deletedStateByte (knownDeleted pendingDeleted : Bool) : UInt8 :=
  (if knownDeleted then 0x01 else 0) ||| (if pendingDeleted then 0x08 else 0)

/-- The two deletion marks of a byte; an unknown byte other than zero is a known deletion. -/
def decodeDeletedStateByte (byte : UInt8) : Bool × Bool :=
  let knownDeleted := byte &&& 0x01 != 0
  let pendingDeleted := byte &&& 0x08 != 0
  if !knownDeleted && !pendingDeleted && byte != 0 then (true, false)
  else (knownDeleted, pendingDeleted)

@[simp] theorem decodeDeletedStateByte_deletedStateByte (kd pd : Bool) :
    decodeDeletedStateByte (deletedStateByte kd pd) = (kd, pd) := by
  revert kd pd
  decide

/-- The bytes of the data of a slot: a flag, and the data if they are embedded. -/
def serializeData (maxEmbeddedLn : ℤ) : Option Bytes → Bytes
  | some d => if (d.length : ℤ) ≤ maxEmbeddedLn then 1 :: (beBytes 4 d.length ++ d) else [0]
  | none => [0]

/-- The bytes of a slot that has its full key. -/
def serializeSlot (maxEmbeddedLn : ℤ) (s : BinSlot) : Bytes :=
  beBytes 4 s.key.length ++ (s.key ++ (beBytes 8 s.lsn.val ++
    (serializeData maxEmbeddedLn s.data ++ [deletedStateByte s.knownDeleted s.pendingDeleted])))

/-- The reader of the data of a slot. -/
def readData : Reader (Option Bytes) := do
  let hasData ← readByte
  if hasData != 0 then do
    let dataLen ← readBe 4
    some <$> readBytes dataLen
  else pure none

/-- The reader of a slot. -/
def readSlot : Reader SlotImage := do
  let keyLen ← readBe 4
  let key ← readBytes keyLen
  let lsn ← readBe 8
  let data ← readData
  let byte ← readByte
  pure ⟨key, Fin.ofNat _ lsn, data, (decodeDeletedStateByte byte).1,
    (decodeDeletedStateByte byte).2⟩

section Slots

variable {m : ℤ} {s : BinSlot} {d : Option Bytes}

theorem reads_readData (h : (serializeData m d).length < 2 ^ 32) :
    Reads readData (serializeData m d)
      (d.filter fun d => decide ((d.length : ℤ) ≤ m)) := by
  cases d with
  | none => exact (reads_readByte 0).bind_nil (reads_pure none)
  | some d =>
    by_cases hd : (d.length : ℤ) ≤ m
    · have hser : serializeData m (some d) = [1] ++ (beBytes 4 d.length ++ d) := if_pos hd
      rw [hser] at h ⊢
      have hlen : d.length < 256 ^ 4 := by simp at h; omega
      have hfilter : Option.filter (fun d => decide ((d.length : ℤ) ≤ m)) (some d) = some d := by
        simp [hd]
      rw [hfilter]
      exact (reads_readByte 1).bind ((reads_readBe hlen).bind ((reads_readBytes d).map some))
    · have hser : serializeData m (some d) = [0] := if_neg hd
      have hfilter : Option.filter (fun d => decide ((d.length : ℤ) ≤ m)) (some d) = none := by
        simpa using hd
      rw [hser, hfilter]
      exact (reads_readByte 0).bind_nil (reads_pure none)

theorem reads_readSlot (h : (serializeSlot m s).length < 2 ^ 32) :
    Reads readSlot (serializeSlot m s) (s.embedded m) := by
  simp only [serializeSlot, List.length_append, length_beBytes] at h
  have hkey : s.key.length < 256 ^ 4 := by omega
  have hdata : (serializeData m s.data).length < 2 ^ 32 := by omega
  have hlsn : s.lsn.val < 256 ^ 8 := s.lsn.isLt
  refine (reads_readBe hkey).bind ((reads_readBytes s.key).bind ((reads_readBe hlsn).bind
    ((reads_readData hdata).bind ((reads_readByte _).bind_nil ?_))))
  have hval : Fin.ofNat (2 ^ 64) s.lsn.val = s.lsn := by simp
  simp only [decodeDeletedStateByte_deletedStateByte, hval]
  exact reads_pure (s.embedded m)

end Slots

/-! ### Full images -/

namespace BinStub

/-- The bytes of a full image. -/
def serializeFull (b : BinStub) : Bytes :=
  beBytes 8 b.nodeId ++ (beBytes 4 b.slots.length ++
    b.fullSlots.flatMap (serializeSlot b.maxEmbeddedLn))

/-- The slot an image is read back as: clean and without expiration. -/
def slotOfImage (i : SlotImage) : BinSlot where
  key := i.key
  lsn := i.lsn
  data := i.data
  knownDeleted := i.knownDeleted
  pendingDeleted := i.pendingDeleted
  dirty := false
  expirationTime := 0

/-- The reader of a full image. -/
def readFull : Reader (ℕ × List SlotImage) := do
  let nodeId ← readBe 8
  let numEntries ← readBe 4
  let slots ← readMany readSlot numEntries
  pure (nodeId, slots)

/-- The node of the slots of a full image, not yet part of a tree. -/
def binOfFull (nodeId : ℕ) (slots : List SlotImage) : BinStub :=
  let bin : BinStub :=
    { nodeId := nodeId
      slots := slots.map slotOfImage
      keyWidth := none
      compactMaxKeyLength := defaultMaxKeyLength
      keyPrefix := []
      dirty := false
      isDelta := false
      lastFullLsn := nullLsn
      lastDeltaLsn := nullLsn
      expirationInHours := true
      cursorCount := 0
      prohibitNextDelta := false
      expirationEnabled := true
      maxEmbeddedLn := 16
      keyPrefixing := false }
  if 2 ≤ bin.slots.length then bin.recomputeKeyPrefix else bin.compactKeys

/-- The node of a full image. -/
def deserializeFull (bytes : Bytes) : Option BinStub :=
  (readFull bytes).map fun r => binOfFull r.1.1 r.1.2

end BinStub

section RoundTrips

variable {b : BinStub}

/-- What a slot list takes is at least what any of its slots takes. -/
theorem length_le_flatMap {γ : Type} (enc : γ → Bytes) {x : γ} {xs : List γ}
    (hx : x ∈ xs) : (enc x).length ≤ (xs.flatMap enc).length := by
  obtain ⟨pre, post, rfl⟩ := List.append_of_mem hx
  simp only [List.flatMap_append, List.flatMap_cons, List.length_append]
  omega

/-- Every slot takes at least one byte. -/
theorem length_le_length_flatMap {γ : Type} (enc : γ → Bytes) (xs : List γ)
    (h : ∀ x ∈ xs, 1 ≤ (enc x).length) : xs.length ≤ (xs.flatMap enc).length := by
  induction xs with
  | nil => simp
  | cons x xs ih =>
    have hx := h x List.mem_cons_self
    have hxs := ih fun y hy => h y (List.mem_cons_of_mem _ hy)
    simp only [List.flatMap_cons, List.length_append, List.length_cons]
    omega

theorem one_le_length_serializeSlot (m : ℤ) (s : BinSlot) : 1 ≤ (serializeSlot m s).length := by
  simp only [serializeSlot, List.length_append, length_beBytes]
  omega

theorem reads_readFull (h : b.serializeFull.length < 2 ^ 32) :
    Reads BinStub.readFull b.serializeFull (b.nodeId % 256 ^ 8, b.images) := by
  simp only [BinStub.serializeFull, List.length_append, length_beBytes] at h
  have hslots : ∀ s ∈ b.fullSlots, Reads readSlot (serializeSlot b.maxEmbeddedLn s)
      (s.embedded b.maxEmbeddedLn) := by
    intro s hs
    have hle := length_le_flatMap (serializeSlot b.maxEmbeddedLn) hs
    exact reads_readSlot (by omega)
  have hcount := length_le_length_flatMap (serializeSlot b.maxEmbeddedLn) b.fullSlots
    fun s _ => one_le_length_serializeSlot _ s
  have hlen : b.slots.length < 256 ^ 4 := by simp only [BinStub.length_fullSlots] at hcount; omega
  have hid : Reads (readBe 8) (beBytes 8 b.nodeId) (b.nodeId % 256 ^ 8) := by
    have hbytes := (reads_readBytes (beBytes 8 b.nodeId)).map beNat
    simpa [beNat, beBytes, leNat_leBytes, readBe] using hbytes
  have hmany := reads_readMany b.fullSlots hslots
  rw [BinStub.length_fullSlots] at hmany
  exact hid.bind ((reads_readBe hlen).bind (hmany.bind_nil (reads_pure _)))

theorem fullSlots_binOfFull (nodeId : ℕ) (slots : List SlotImage) :
    (BinStub.binOfFull nodeId slots).fullSlots = slots.map BinStub.slotOfImage := by
  rw [BinStub.binOfFull]
  have hexact : ∀ b : BinStub, b.keyWidth = none → b.compactMaxKeyLength = defaultMaxKeyLength →
      b.KeysExact := fun b hw hlimit => ⟨by simp [hw], by rw [hlimit]; decide⟩
  split
  · rw [BinStub.fullSlots_recomputeKeyPrefix (hexact _ rfl rfl)]
    simp [BinStub.fullSlots, BinSlot.withPrefix]
  · rw [BinStub.fullSlots, (hexact _ rfl rfl).compactKeys.2]
    exact (List.map_congr_left fun _ _ => rfl).trans (List.map_id _)

theorem keyPrefix_binOfFull (nodeId : ℕ) (slots : List SlotImage) :
    (BinStub.binOfFull nodeId slots).keyPrefix = [] := by
  have hplain : ∀ x : BinStub, x.keyPrefixing = false → x.recomputeKeyPrefix.keyPrefix = [] :=
    fun _ hx => BinStub.computeKeyPrefix_of_plain hx
  rw [BinStub.binOfFull]
  split
  · exact hplain _ rfl
  · rfl

/-- **A full image is read back as the slots of the node.** -/
theorem deserializeFull_serializeFull (h : b.serializeFull.length < 2 ^ 32) :
    ∃ b', BinStub.deserializeFull b.serializeFull = some b' ∧
      b'.fullSlots = b.images.map BinStub.slotOfImage ∧ b'.keyPrefix = [] := by
  have hread := reads_readFull h []
  rw [List.append_nil] at hread
  rw [BinStub.deserializeFull, hread, Option.map_some]
  exact ⟨_, rfl, fullSlots_binOfFull _ _, keyPrefix_binOfFull _ _⟩

end RoundTrips

end Noxu
