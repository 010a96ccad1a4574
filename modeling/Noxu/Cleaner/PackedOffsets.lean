import Mathlib.Algebra.Ring.Nat
import Mathlib.Data.List.Sort

/-!
# Packed Obsolete Offsets

The offsets of the obsolete entries of a log file are stored sorted, each as the difference
to the one before, in a variable-length code of seven bits a byte: the high bit of a byte says
that the number goes on.

## Main results

* `readVarint_write`: the reader takes exactly the bytes the writer wrote, whatever follows
  them;
* `unpack_pack`: packed offsets come back sorted, each as often as it was given.
-/

namespace Noxu

/-- The offsets of a file, packed (`PackedOffsets`). -/
structure PackedOffsets where
  /-- The differences, one after the other. -/
  data : List UInt8
  /-- The number of offsets. -/
  count : ℕ
  deriving DecidableEq, Repr

/-- The upper bits. -/
theorem toNat_shiftRight_seven (v : UInt32) : (v >>> 7).toNat = v.toNat / 128 := by
  rw [UInt32.toNat_shiftRight]
  exact Nat.shiftRight_eq_div_pow _ 7

/-- The bytes of a number (`write_varint`). -/
def writeVarint (value : UInt32) : List UInt8 :=
  let byte := (value &&& 0x7F).toUInt8
  if value >>> 7 = 0 then [byte] else (byte ||| 0x80) :: writeVarint (value >>> 7)
termination_by value.toNat
decreasing_by
  rename_i hrest
  have hshift := toNat_shiftRight_seven value
  have hpos : value.toNat / 128 ≠ 0 := fun h => hrest (UInt32.toNat_inj.mp (hshift.trans h))
  omega

/-- The loop of `read_varint`: the value so far, the shift of the next group and the number of
bytes read. -/
def readVarintLoop (value shift : UInt32) (pos : ℕ) : List UInt8 → UInt32 × ℕ
  | [] => (value, pos)
  | byte :: buffer =>
    let value := value ||| (byte &&& 0x7F).toUInt32 <<< shift
    if byte &&& 0x80 = 0 then (value, pos + 1)
    else readVarintLoop value (shift + 7) (pos + 1) buffer

/-- The number at the front of a buffer and the number of its bytes (`read_varint`). -/
def readVarint (buffer : List UInt8) : UInt32 × ℕ := readVarintLoop 0 0 0 buffer

namespace PackedOffsets

/-- The loop of `pack`: the differences of the offsets, from the offset before them on; `none`
if one of them is negative (a subtraction that overflows). -/
def writeDeltas (prev : UInt32) : List UInt32 → Option (List UInt8)
  | [] => some []
  | offset :: sorted =>
    if offset < prev then none
    else (writeDeltas offset sorted).map (writeVarint (offset - prev) ++ ·)

/-- Replace the offsets. -/
def pack (_self : PackedOffsets) (offsets : List UInt32) : Option PackedOffsets :=
  if offsets = [] then some ⟨[], 0⟩
  else
    let sorted := offsets.mergeSort
    (writeDeltas 0 sorted).map fun buffer => ⟨buffer, sorted.length⟩

/-- The loop of `unpack`: the last offset, and the bytes and the number of offsets that are
left. -/
def unpackLoop (current : UInt32) (data : List UInt8) : ℕ → List UInt32
  | 0 => []
  | left + 1 =>
    if data = [] then []
    else
      let (delta, bytesRead) := readVarint data
      (current + delta) :: unpackLoop (current + delta) (data.drop bytesRead) left

/-- The offsets. -/
def unpack (self : PackedOffsets) : List UInt32 := unpackLoop 0 self.data self.count

/-- The number of offsets. -/
def getCount (self : PackedOffsets) : ℕ := self.count

end PackedOffsets

/-! ### One number -/

/-- The lower seven bits. -/
theorem toNat_low_seven (v : UInt32) : ((v &&& 0x7F).toUInt8).toNat = v.toNat % 128 := by
  have hlow : (v &&& 0x7F).toNat = v.toNat % 128 := by
    rw [UInt32.toNat_and]
    exact Nat.and_two_pow_sub_one_eq_mod _ 7
  rw [UInt32.toNat_toUInt8, hlow]
  exact Nat.mod_eq_of_lt (by omega)

/-- The seven bits of a byte and its mark, for the two bytes the writer can build. -/
theorem group_bits (v : UInt32) :
    let byte := (v &&& 0x7F).toUInt8
    (byte &&& 0x80 = 0 ∧ byte &&& 0x7F = byte) ∧
      ((byte ||| 0x80) &&& 0x80 ≠ 0 ∧ (byte ||| 0x80) &&& 0x7F = byte) := by
  have hall : ∀ i : Fin 128,
      (UInt8.ofNat i &&& 0x80 = 0 ∧ UInt8.ofNat i &&& 0x7F = UInt8.ofNat i) ∧
      ((UInt8.ofNat i ||| 0x80) &&& 0x80 ≠ 0 ∧
        (UInt8.ofNat i ||| 0x80) &&& 0x7F = UInt8.ofNat i) := by decide
  have hlt : ((v &&& 0x7F).toUInt8).toNat < 128 :=
    (toNat_low_seven v).trans_lt (Nat.mod_lt _ (by omega))
  have hbyte := hall ⟨_, hlt⟩
  simp only [UInt8.ofNat_toNat] at hbyte
  exact hbyte

/-- The next group of bits goes above the value so far. -/
theorem toNat_or_group {v value shift : UInt32} (hvalue : value.toNat < 2 ^ shift.toNat)
    (hfit : v.toNat * 2 ^ shift.toNat < 2 ^ 32) (hshift : shift.toNat < 32) :
    (value ||| (v &&& 0x7F).toUInt8.toUInt32 <<< shift).toNat =
      value.toNat + v.toNat % 128 * 2 ^ shift.toNat := by
  have hle : v.toNat % 128 * 2 ^ shift.toNat ≤ v.toNat * 2 ^ shift.toNat :=
    Nat.mul_le_mul_right _ (Nat.mod_le _ _)
  rw [UInt32.toNat_or, UInt32.toNat_shiftLeft, UInt8.toNat_toUInt32, toNat_low_seven,
    Nat.mod_eq_of_lt hshift, Nat.shiftLeft_eq, Nat.mod_eq_of_lt (hle.trans_lt hfit), Nat.or_comm,
    Nat.mul_comm, ← Nat.two_pow_add_eq_or_of_lt hvalue, Nat.add_comm]

/-- The reader takes exactly the bytes the writer wrote, and adds the number at the shift it has
reached. -/
theorem readVarintLoop_write (v value shift : UInt32) (pos : ℕ) (rest : List UInt8)
    (hvalue : value.toNat < 2 ^ shift.toNat) (hfit : v.toNat * 2 ^ shift.toNat < 2 ^ 32)
    (hshift : shift.toNat < 32) :
    readVarintLoop value shift pos (writeVarint v ++ rest) =
      (UInt32.ofNat (value.toNat + v.toNat * 2 ^ shift.toNat), pos + (writeVarint v).length) := by
  -- along the groups of the writer
  induction v using writeVarint.induct generalizing value shift pos with
  | case1 v hlast =>
    obtain ⟨⟨hend, hlow⟩, -⟩ := group_bits v
    have hzero : v.toNat / 128 = 0 := (toNat_shiftRight_seven v).symm.trans (hlast ▸ rfl)
    have hor := toNat_or_group hvalue hfit hshift
    rw [Nat.mod_eq_of_lt (by omega)] at hor
    rw [writeVarint, if_pos hlast, List.singleton_append, readVarintLoop, if_pos hend, hlow]
    exact Prod.ext (UInt32.toNat_inj.mp (hor ▸ UInt32.ofNat_toNat.symm ▸ rfl)) rfl
  | case2 v hmore ih =>
    obtain ⟨-, hgoes, hlow⟩ := group_bits v
    have hdiv := toNat_shiftRight_seven v
    have hbig : v.toNat / 128 ≠ 0 := fun h0 => hmore (UInt32.toNat_inj.mp (hdiv.trans h0))
    have hsplit := Nat.div_add_mod v.toNat 128
    have hpow : 2 ^ (shift.toNat + 7) = 128 * 2 ^ shift.toNat := by
      rw [Nat.pow_add, Nat.mul_comm]
    have hsmall : shift.toNat + 7 < 32 := by
      refine (Nat.pow_lt_pow_iff_right (a := 2) (by omega)).mp ?_
      rw [hpow]
      exact (Nat.mul_le_mul_right _ (by omega)).trans_lt hfit
    have hnext : (shift + 7).toNat = shift.toNat + 7 := by
      rw [UInt32.toNat_add]
      exact Nat.mod_eq_of_lt (by have : (7 : UInt32).toNat = 7 := rfl; omega)
    have hor := toNat_or_group hvalue hfit hshift
    have hsum : v.toNat % 128 * 2 ^ shift.toNat + v.toNat / 128 * (128 * 2 ^ shift.toNat) =
        v.toNat * 2 ^ shift.toNat := by
      rw [← Nat.mul_assoc, ← Nat.add_mul, Nat.mul_comm _ 128, Nat.add_comm, hsplit]
    rw [writeVarint, if_neg hmore, List.cons_append, readVarintLoop, if_neg hgoes, hlow,
      ih _ _ _ ?_ ?_ (hnext.trans_lt hsmall), hor, hdiv, hnext, hpow, Nat.add_assoc, hsum,
      List.length_cons]
    · congr 1
      omega
    · -- the value so far fills the groups below
      have hlt : v.toNat % 128 * 2 ^ shift.toNat ≤ 127 * 2 ^ shift.toNat :=
        Nat.mul_le_mul_right _ (by omega)
      rw [hor, hnext, hpow]
      omega
    · rw [hdiv, hnext, hpow]
      omega

/-- **A written number is read back**, in exactly its bytes. -/
theorem readVarint_write (v : UInt32) (rest : List UInt8) :
    readVarint (writeVarint v ++ rest) = (v, (writeVarint v).length) := by
  have h0 : (0 : UInt32).toNat = 0 := rfl
  have hv := v.toNat_lt
  rw [readVarint, readVarintLoop_write v 0 0 0 rest (by decide) (by rw [h0]; omega) (by decide), h0]
  simp

/-- A number has at least one byte. -/
theorem writeVarint_ne_nil (v : UInt32) : writeVarint v ≠ [] := by
  rw [writeVarint]
  split <;> simp

/-! ### All offsets -/

namespace PackedOffsets

/-- The offsets ascend from the one before them on, so no difference is negative, and the loop
of `unpack` undoes the differences. -/
theorem unpackLoop_writeDeltas {prev : UInt32} {sorted : List UInt32}
    (hsorted : (prev :: sorted).Pairwise (· ≤ ·)) :
    ∃ buffer, writeDeltas prev sorted = some buffer ∧
      unpackLoop prev buffer sorted.length = sorted := by
  induction sorted generalizing prev with
  | nil => exact ⟨[], rfl, rfl⟩
  | cons offset sorted ih =>
    obtain ⟨hprev, hrest⟩ := List.pairwise_cons.mp hsorted
    obtain ⟨buffer, hwrite, hread⟩ := ih hrest
    have hle : ¬ offset < prev := UInt32.not_lt.mpr (hprev offset List.mem_cons_self)
    refine ⟨writeVarint (offset - prev) ++ buffer, ?_, ?_⟩
    · rw [writeDeltas, if_neg hle, hwrite, Option.map_some]
    · have hne : writeVarint (offset - prev) ++ buffer ≠ [] := fun h =>
        writeVarint_ne_nil _ (List.append_eq_nil_iff.mp h).1
      have hsum : prev + (offset - prev) = offset := by
        rw [UInt32.add_comm, UInt32.sub_add_cancel]
      rw [List.length_cons, unpackLoop, if_neg hne, readVarint_write]
      dsimp only
      rw [hsum, List.drop_left, hread]

/-- **Packed offsets come back sorted**, each as often as it was given, and are counted; whatever
the object held before. -/
theorem unpack_pack (self : PackedOffsets) (offsets : List UInt32) :
    ∃ packed, self.pack offsets = some packed ∧ packed.unpack.Pairwise (· ≤ ·) ∧
      packed.unpack.Perm offsets ∧ packed.getCount = offsets.length := by
  by_cases hnil : offsets = []
  · rw [hnil]
    exact ⟨⟨[], 0⟩, rfl, .nil, .nil, rfl⟩
  · have hsorted : offsets.mergeSort.Pairwise (· ≤ ·) := List.pairwise_mergeSort' _ _
    obtain ⟨buffer, hwrite, hread⟩ := unpackLoop_writeDeltas
      (List.pairwise_cons.mpr ⟨fun _ _ => UInt32.zero_le, hsorted⟩)
    refine ⟨⟨buffer, offsets.mergeSort.length⟩, ?_, ?_⟩
    · rw [pack, if_neg hnil]
      dsimp only
      rw [hwrite, Option.map_some]
    · have hunpack : unpack ⟨buffer, offsets.mergeSort.length⟩ = offsets.mergeSort := hread
      rw [hunpack]
      exact ⟨hsorted, List.mergeSort_perm _ _, List.length_mergeSort _⟩

end PackedOffsets

end Noxu
