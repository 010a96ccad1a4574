import Mathlib.Data.Int.Order.Lemmas
import Noxu.Library.ByteOrder

/-!
# Packed Integers

The two variable-length encodings of integers, in widths of four and eight bytes. The packed
one keeps the sign and the number of value bytes in its first byte and the magnitude behind it,
least significant byte first; the sorted one chooses the first byte and puts the most
significant byte first, so that encodings compare like the integers.

Every integer is read back. The readers **do not bound the number of value bytes by the width**,
and they add the bias in the width of the result, so that bytes which no writer produced can
overflow.

## Main results

* `readMagnitude_eq`, `readShifted_eq`: what the value bytes are read as;
* `readPacked_write`: every integer is read back, whatever follows;
* `readPacked_overflow_iff`: the bytes on which the reader overflows.
-/

open Noxu.Library

namespace Noxu

/-! ### Machine integers -/

/-- The least integer that a width of `w` bytes does not hold. -/
def halfRange (w : ℕ) : ℕ := 2 ^ (8 * w - 1)

/-- The integer fits a width of `w` bytes. -/
def FitsWidth (w : ℕ) (v : ℤ) : Prop := -(halfRange w : ℤ) ≤ v ∧ v < halfRange w

instance instDecidableFitsWidth (w : ℕ) (v : ℤ) : Decidable (FitsWidth w v) :=
  inferInstanceAs (Decidable (_ ∧ _))

/-- A byte as a signed byte. -/
def asI8 (b : UInt8) : ℤ := if b.toNat < 128 then b.toNat else b.toNat - 256

/-- The low byte of an integer. -/
def asU8 (v : ℤ) : UInt8 := UInt8.ofNat (v % 256).toNat

/-- The two's complement of an integer in `w` bytes. -/
def asUnsigned (w : ℕ) (v : ℤ) : ℕ := (v % (256 ^ w : ℕ)).toNat

/-- An unsigned number of `w` bytes as a signed one. -/
def asSigned (w n : ℕ) : ℤ := if n < halfRange w then n else n - (256 ^ w : ℕ)

/-! ### Readers that may overflow -/

/-- How a read ends badly. -/
inductive ReadFault where
  | unexpectedEof
  | overflow
deriving DecidableEq, Repr

/-- A reader of bytes. -/
abbrev PackedReader := StateT Bytes (Except ReadFault)

/-- Take one byte. -/
def readExactByte : PackedReader UInt8 := fun bs =>
  match bs with
  | [] => .error .unexpectedEof
  | b :: bs => .ok (b, bs)

/-- The result of an operation in `w` bytes. -/
def checked (w : ℕ) (v : ℤ) : PackedReader ℤ := fun bs =>
  if FitsWidth w v then .ok (v, bs) else .error .overflow

/-! ### The packed encoding -/

/-- The magnitude behind the first byte; negation and bias wrap around for a negative value. -/
def packedMagnitude (w : ℕ) (v : ℤ) : ℕ :=
  if v < -119 then asUnsigned w (-v - 119) else (v - 119).toNat

/-- The number of value bytes: the first mask of the high bytes that leaves nothing. -/
def packedLength (w mag : ℕ) : ℕ → ℕ
  | 0 => w
  | k + 1 =>
    if mag &&& (256 ^ w - 256 ^ (w - (k + 1))) = 0 then w - (k + 1) else packedLength w mag k

/-- The number of bytes of the packed encoding. -/
def packedSize (w : ℕ) (v : ℤ) : ℕ :=
  if -119 ≤ v ∧ v ≤ 119 then 1 else 1 + packedLength w (packedMagnitude w v) (w - 1)

/-- The packed encoding, with the number of bytes. -/
def writePacked (w : ℕ) (v : ℤ) : Bytes × ℕ :=
  if -119 ≤ v ∧ v ≤ 119 then ([asU8 v], 1)
  else
    let mag := packedMagnitude w v
    let n := packedLength w mag (w - 1)
    ((if v < -119 then asU8 (-(119 + n)) else asU8 (119 + n)) :: leBytes n mag, 1 + n)

/-- Collect value bytes, least significant first; the shift must stay below the width. -/
def readMagnitude (w : ℕ) : ℕ → ℕ → ℕ → PackedReader ℕ
  | 0, _, mag => pure mag
  | k + 1, i, mag => do
    let b ← readExactByte
    if 8 * w ≤ 8 * i then throw .overflow
    else readMagnitude w k (i + 1) (mag ||| (b.toNat <<< (8 * i)) % 256 ^ w)

/-- Read a packed integer. -/
def readPacked (w : ℕ) : PackedReader ℤ := do
  let b ← readExactByte
  let b1 := asI8 b
  if -119 ≤ b1 ∧ b1 ≤ 119 then pure b1
  else if b1 < -119 then do
    let neg ← checked 1 (-b1)
    let n ← checked 1 (neg - 119)
    let mag ← readMagnitude w n.toNat 0 0
    let m ← checked w (-asSigned w mag)
    checked w (m - 119)
  else do
    let n ← checked 1 (b1 - 119)
    let mag ← readMagnitude w n.toNat 0 0
    checked w (asSigned w mag + 119)

/-! ### The sorted encoding -/

/-- The number of value bytes of a positive value: the longest mask that leaves something. -/
def sortedLength (w adj : ℕ) : ℕ → ℕ
  | 0 => 1
  | k + 1 => if adj &&& (256 ^ w - 256 ^ (k + 1)) ≠ 0 then k + 2 else sortedLength w adj k

/-- The number of value bytes of a negative value: the longest mask of low bytes that does not
fill it. -/
def sortedLengthNeg (w uadj : ℕ) : ℕ → ℕ
  | 0 => 1
  | k + 1 =>
    if uadj ||| (256 ^ (k + 1) - 1) ≠ 256 ^ w - 1 then k + 2 else sortedLengthNeg w uadj k

/-- The sorted encoding. -/
def writeSorted (w : ℕ) (v : ℤ) : Bytes :=
  if -119 ≤ v ∧ v ≤ 120 then [asU8 (v + 127)]
  else if 120 < v then
    let adj := (v - 121).toNat
    let n := sortedLength w adj (w - 1)
    UInt8.ofNat (0xF7 + n) :: beBytes n adj
  else
    let uadj := asUnsigned w (v + 119)
    let n := sortedLengthNeg w uadj (w - 1)
    asU8 (0x08 - n) :: beBytes n uadj

/-- Collect value bytes, most significant first; the shift drops what leaves the width. -/
def readShifted (w : ℕ) : ℕ → ℕ → PackedReader ℕ
  | 0, raw => pure raw
  | k + 1, raw => do
    let b ← readExactByte
    readShifted w k ((raw <<< 8) % 256 ^ w ||| b.toNat)

/-- Read a sorted integer. -/
def readSorted (w : ℕ) : PackedReader ℤ := do
  let b ← readExactByte
  if b.toNat < 0x08 then do
    let raw ← readShifted w (0x08 - b.toNat) (256 ^ w - 1)
    checked w (asSigned w raw - 119)
  else if 0xF7 < b.toNat then do
    let raw ← readShifted w (b.toNat - 0xF7) 0
    checked w (asSigned w raw + 121)
  else pure (b.toNat - 127)

/-! ### The two widths -/

/-- `packed_i32_size`. -/
def packedI32Size (v : Int32) : ℕ := packedSize 4 v.toInt

/-- `packed_i64_size`. -/
def packedI64Size (v : Int64) : ℕ := packedSize 8 v.toInt

/-- `write_packed_i32`. -/
def writePackedI32 (v : Int32) : Bytes × ℕ := writePacked 4 v.toInt

/-- `write_packed_i64`. -/
def writePackedI64 (v : Int64) : Bytes × ℕ := writePacked 8 v.toInt

/-- `read_packed_i32`. -/
def readPackedI32 : PackedReader Int32 := Int32.ofInt <$> readPacked 4

/-- `read_packed_i64`. -/
def readPackedI64 : PackedReader Int64 := Int64.ofInt <$> readPacked 8

/-- `write_sorted_i32`. -/
def writeSortedI32 (v : Int32) : Bytes := writeSorted 4 v.toInt

/-- `write_sorted_i64`. -/
def writeSortedI64 (v : Int64) : Bytes := writeSorted 8 v.toInt

/-- `read_sorted_i32`. -/
def readSortedI32 : PackedReader Int32 := Int32.ofInt <$> readSorted 4

/-- `read_sorted_i64`. -/
def readSortedI64 : PackedReader Int64 := Int64.ofInt <$> readSorted 8

/-! ### Arithmetic of a width -/

section Width

variable {w : ℕ}

theorem pow_eq_two_mul_halfRange (hw : 0 < w) : 256 ^ w = 2 * halfRange w := by
  have hexp : 8 * w = (8 * w - 1) + 1 := by omega
  rw [pow_256, hexp, pow_succ']
  rfl

theorem le_halfRange (hw : 0 < w) : 128 ≤ halfRange w := by
  have hexp : 7 ≤ 8 * w - 1 := by omega
  exact Nat.pow_le_pow_right (n := 2) (by norm_num) hexp

theorem asSigned_of_lt {n : ℕ} (h : n < halfRange w) : asSigned w n = n := if_pos h

theorem asSigned_of_le {n : ℕ} (h : halfRange w ≤ n) : asSigned w n = n - (256 ^ w : ℕ) :=
  if_neg (Nat.not_lt.mpr h)

theorem toNat_asU8 (v : ℤ) : (asU8 v).toNat = (v % 256).toNat := by
  rw [asU8, UInt8.toNat_ofNat']
  omega

end Width

/-! ### The number of value bytes -/

section Length

variable {w n : ℕ}

/-- The value bytes of the packed encoding hold the magnitude. -/
theorem packedLength_spec (hn : n < 256 ^ w) {k : ℕ} (hk : k < w) :
    1 ≤ packedLength w n k ∧ packedLength w n k ≤ w ∧ n < 256 ^ packedLength w n k := by
  induction k with
  | zero => exact ⟨hk, le_rfl, hn⟩
  | succ k ih =>
    rw [packedLength]
    split
    · next hmask =>
      exact ⟨by omega, by omega, (and_byte_mask_eq_zero_iff (by omega) hn).mp hmask⟩
    · exact ih (by omega)

/-- The value bytes of a positive value in the sorted encoding hold it, and none is spare. -/
theorem sortedLength_spec (hn : n < 256 ^ w) {k : ℕ} (hk : k < w) (hle : n < 256 ^ (k + 1)) :
    1 ≤ sortedLength w n k ∧ sortedLength w n k ≤ k + 1 ∧ n < 256 ^ sortedLength w n k ∧
      (sortedLength w n k = 1 ∨ 256 ^ (sortedLength w n k - 1) ≤ n) := by
  induction k with
  | zero => exact ⟨le_rfl, le_rfl, hle, .inl rfl⟩
  | succ k ih =>
    have hmask := and_byte_mask_eq_zero_iff (k := k + 1) (by omega) hn
    rw [sortedLength]
    split
    · next hne => exact ⟨by omega, le_rfl, hle, .inr (Nat.not_lt.mp (hne ∘ hmask.mpr))⟩
    · next heq =>
      obtain ⟨h1, h2, h3⟩ := ih (by omega) (hmask.mp (not_not.mp heq))
      exact ⟨h1, by omega, h3⟩

/-- The value bytes of a negative value in the sorted encoding hold it, and none is spare. -/
theorem sortedLengthNeg_spec (hn : n < 256 ^ w) {k : ℕ} (hk : k < w)
    (hle : 256 ^ w - 256 ^ (k + 1) ≤ n) :
    1 ≤ sortedLengthNeg w n k ∧ sortedLengthNeg w n k ≤ k + 1 ∧
      256 ^ w - 256 ^ sortedLengthNeg w n k ≤ n ∧
      (sortedLengthNeg w n k = 1 ∨ n < 256 ^ w - 256 ^ (sortedLengthNeg w n k - 1)) := by
  induction k with
  | zero => exact ⟨le_rfl, le_rfl, hle, .inl rfl⟩
  | succ k ih =>
    have hmask := or_byte_mask_eq_iff (k := k + 1) (by omega) hn
    rw [sortedLengthNeg]
    split
    · next hne => exact ⟨by omega, le_rfl, hle, .inr (Nat.not_le.mp (hne ∘ hmask.mpr))⟩
    · next heq =>
      obtain ⟨h1, h2, h3⟩ := ih (by omega) (hmask.mp (not_not.mp heq))
      exact ⟨h1, by omega, h3⟩

end Length

/-! ### Reading value bytes -/

section Read

variable {α β : Type} {w : ℕ}

theorem PackedReader.bind_ok {p : PackedReader α} {f : α → PackedReader β}
    {bs rest : Bytes} {a : α} (h : p bs = .ok (a, rest)) : (p >>= f) bs = f a rest := by
  have hrun : (p >>= f) bs = (p bs).bind fun r => f r.1 r.2 := rfl
  rw [hrun, h]
  rfl

theorem PackedReader.bind_error {p : PackedReader α} {f : α → PackedReader β}
    {bs : Bytes} {e : ReadFault} (h : p bs = .error e) : (p >>= f) bs = .error e := by
  have hrun : (p >>= f) bs = (p bs).bind fun r => f r.1 r.2 := rfl
  rw [hrun, h]
  rfl

theorem PackedReader.map_apply (g : α → β) (p : PackedReader α) (bs : Bytes) :
    (g <$> p) bs = (p bs).map fun r => (g r.1, r.2) := by
  simp only [Functor.map, StateT.map]
  cases p bs <;> rfl

/-- One more byte at the low end. -/
theorem shift_or_byte (hw : 0 < w) (raw : ℕ) (b : UInt8) :
    (raw <<< 8) % 256 ^ w ||| b.toNat = (raw * 256 + b.toNat) % 256 ^ w := by
  obtain ⟨v, rfl⟩ : ∃ v, w = v + 1 := ⟨w - 1, by omega⟩
  have hb := b.toNat_lt
  have hshift : (raw <<< 8) % 256 ^ (v + 1) = 2 ^ 8 * (raw % 256 ^ v) := by
    rw [Nat.shiftLeft_eq, pow_succ' 256, mul_comm raw]
    exact Nat.mul_mod_mul_left 256 raw (256 ^ v)
  have hdiv : (raw * 256 + b.toNat) / 256 = raw := by omega
  rw [hshift, ← Nat.two_pow_add_eq_or_of_lt hb, pow_succ' 256, Nat.mod_mul, hdiv]
  omega

/-- **Value bytes with the most significant first.** -/
theorem readShifted_eq (hw : 0 < w) (k raw : ℕ) (hraw : raw < 256 ^ w) (bs : Bytes) :
    readShifted w k raw bs = if bs.length < k then .error .unexpectedEof
      else .ok ((raw * 256 ^ k + beNat (bs.take k)) % 256 ^ w, bs.drop k) := by
  induction k generalizing raw bs with
  | zero =>
    have hnil : beNat [] = 0 := rfl
    simp only [Nat.not_lt_zero, if_false, pow_zero, mul_one, List.take_zero, hnil, add_zero,
      List.drop_zero, Nat.mod_eq_of_lt hraw]
    rfl
  | succ k ih =>
    cases bs with
    | nil => exact PackedReader.bind_error rfl
    | cons b bs =>
      have hstep : readShifted w (k + 1) raw (b :: bs) =
          readShifted w k ((raw <<< 8) % 256 ^ w ||| b.toNat) bs := PackedReader.bind_ok rfl
      rw [hstep, shift_or_byte hw, ih _ (Nat.mod_lt _ (Nat.pow_pos (by norm_num)))]
      simp only [List.length_cons, add_lt_add_iff_right, List.drop_succ_cons,
        List.take_succ_cons]
      split
      · rfl
      · next hlen =>
        have htake : (bs.take k).length = k := by
          rw [List.length_take]
          omega
        rw [beNat_cons, htake, Nat.add_mod, Nat.mod_mul_mod, ← Nat.add_mod, add_mul,
          pow_succ]
        congr 3
        ring

/-- One more byte at the high end. -/
theorem or_shift_byte {i mag : ℕ} (hi : i < w) (hmag : mag < 256 ^ i) (b : UInt8) :
    mag ||| (b.toNat <<< (8 * i)) % 256 ^ w = mag + 256 ^ i * b.toNat := by
  have hb : b.toNat < 256 := b.toNat_lt
  have hfits : b.toNat * 256 ^ i < 256 ^ w :=
    calc b.toNat * 256 ^ i < 256 * 256 ^ i :=
          Nat.mul_lt_mul_of_pos_right hb (Nat.pow_pos (by norm_num))
      _ = 256 ^ (i + 1) := (pow_succ' ..).symm
      _ ≤ 256 ^ w := Nat.pow_le_pow_right (by norm_num) hi
  rw [Nat.shiftLeft_eq, ← pow_256, Nat.mod_eq_of_lt hfits, mul_comm b.toNat, Nat.or_comm]
  rw [pow_256] at hmag ⊢
  rw [← Nat.two_pow_add_eq_or_of_lt hmag, add_comm]

/-- **Value bytes with the least significant first**: a shift past the width comes before the
end of the bytes. -/
theorem readMagnitude_eq (k i mag : ℕ) (hi : i ≤ w) (hmag : mag < 256 ^ i) (bs : Bytes) :
    readMagnitude w k i mag bs = if w < i + min k bs.length then .error .overflow
      else if bs.length < k then .error .unexpectedEof
      else .ok (mag + 256 ^ i * leNat (bs.take k), bs.drop k) := by
  induction k generalizing i mag bs with
  | zero =>
    have hnil : leNat [] = 0 := rfl
    rw [Nat.zero_min, if_neg (by omega), if_neg (by omega), List.take_zero, hnil, mul_zero]
    rfl
  | succ k ih =>
    cases bs with
    | nil =>
      rw [List.length_nil, Nat.min_zero, if_neg (by omega), if_pos (by omega)]
      exact PackedReader.bind_error rfl
    | cons b bs =>
      have hstep : readMagnitude w (k + 1) i mag (b :: bs) =
          (if 8 * w ≤ 8 * i then throw .overflow
            else readMagnitude w k (i + 1) (mag ||| (b.toNat <<< (8 * i)) % 256 ^ w) :
            PackedReader ℕ) bs := PackedReader.bind_ok rfl
      rw [hstep, List.length_cons]
      by_cases hw : 8 * w ≤ 8 * i
      · rw [if_pos hw, if_pos (by omega)]
        rfl
      · have hlt : mag + 256 ^ i * b.toNat < 256 ^ (i + 1) := by
          have hb : b.toNat ≤ 255 := Nat.le_of_lt_succ b.toNat_lt
          have hmul := Nat.mul_le_mul_left (256 ^ i) hb
          rw [pow_succ]
          omega
        rw [if_neg hw, or_shift_byte (by omega) hmag]
        have hrest := ih (i + 1) _ (by omega) hlt bs
        rw [hrest, List.take_succ_cons, List.drop_succ_cons, leNat_cons]
        have hsum : mag + 256 ^ i * b.toNat + 256 ^ (i + 1) * leNat (bs.take k) =
            mag + 256 ^ i * (b.toNat + 256 * leNat (bs.take k)) := by
          rw [pow_succ]
          ring
        have hmin : i + 1 + min k bs.length = i + min (k + 1) (bs.length + 1) := by omega
        rw [hsum, hmin]
        simp only [add_lt_add_iff_right]

end Read

/-! ### What a packed integer is read as -/

section ReadPacked

variable {w : ℕ} {b : UInt8} {rest : Bytes}

theorem fitsWidth_one {v : ℤ} : FitsWidth 1 v ↔ -128 ≤ v ∧ v < 128 := Iff.rfl

theorem checked_bind {α : Type} {v : ℤ} (h : FitsWidth w v) (f : ℤ → PackedReader α)
    (bs : Bytes) : (checked w v >>= f) bs = f v bs :=
  PackedReader.bind_ok (if_pos h)

/-- The value bytes, and then the rest of a reader. -/
theorem readMagnitude_bind {α : Type} (n : ℕ) (f : ℕ → PackedReader α) (bs : Bytes) :
    (readMagnitude w n 0 0 >>= f) bs = if w < min n bs.length then .error .overflow
      else if bs.length < n then .error .unexpectedEof
      else f (leNat (bs.take n)) (bs.drop n) := by
  have hread := readMagnitude_eq n 0 0 (Nat.zero_le w) (by norm_num) bs
  rw [zero_add, zero_add, pow_zero, one_mul] at hread
  split
  · next hlong => exact PackedReader.bind_error (hread.trans (if_pos hlong))
  · next hlong =>
    rw [if_neg hlong] at hread
    split
    · next hshort => exact PackedReader.bind_error (hread.trans (if_pos hshort))
    · next hshort => exact PackedReader.bind_ok (hread.trans (if_neg hshort))

theorem leNat_take_lt {n : ℕ} {bs : Bytes} (h : min n bs.length ≤ w) :
    leNat (bs.take n) < 256 ^ w := by
  refine (leNat_lt _).trans_le (Nat.pow_le_pow_right (by norm_num) ?_)
  rwa [List.length_take]

/-- The first byte is the value. -/
theorem readPacked_small (h : -119 ≤ asI8 b ∧ asI8 b ≤ 119) :
    readPacked w (b :: rest) = .ok (asI8 b, rest) := by
  refine (PackedReader.bind_ok (p := readExactByte) rfl).trans ?_
  rw [if_pos h]
  rfl

/-- The least signed byte has no negative. -/
theorem readPacked_min (h : asI8 b = -128) : readPacked w (b :: rest) = .error .overflow := by
  refine (PackedReader.bind_ok (p := readExactByte) rfl).trans ?_
  rw [if_neg (by omega), if_pos (by omega), h]
  rfl

/-- A negative value with its value bytes. -/
theorem readPacked_negative (hw : 0 < w) (hlo : -128 < asI8 b) (hhi : asI8 b < -119) {n : ℕ}
    (hn : (n : ℤ) = -asI8 b - 119) :
    readPacked w (b :: rest) = if w < min n rest.length then .error .overflow
      else if rest.length < n then .error .unexpectedEof
      else if halfRange w - 119 < leNat (rest.take n) ∧ leNat (rest.take n) ≤ halfRange w then
        .error .overflow
      else .ok (-asSigned w (leNat (rest.take n)) - 119, rest.drop n) := by
  have hH := le_halfRange hw
  have hpow := pow_eq_two_mul_halfRange hw
  refine (PackedReader.bind_ok (p := readExactByte) rfl).trans ?_
  rw [if_neg (by omega), if_pos hhi, checked_bind (fitsWidth_one.mpr (by omega)),
    checked_bind (fitsWidth_one.mpr (by omega)), ← hn, Int.toNat_natCast, readMagnitude_bind]
  refine ite_congr rfl (fun _ => rfl) fun hlong => ite_congr rfl (fun _ => rfl) fun _ => ?_
  have hlt := leNat_take_lt (Nat.not_lt.mp hlong)
  generalize leNat (rest.take n) = mag at hlt ⊢
  -- below half the range the bias decides, from there on the negation
  rcases Nat.lt_or_ge mag (halfRange w) with hmag | hmag
  · rw [asSigned_of_lt hmag, checked_bind (by constructor <;> omega)]
    by_cases hbad : halfRange w - 119 < mag ∧ mag ≤ halfRange w
    · rw [if_pos hbad]
      exact if_neg fun hfit => by have := hfit.1; omega
    · rw [if_neg hbad]
      exact if_pos (by constructor <;> omega)
  · rw [asSigned_of_le hmag]
    by_cases hbad : halfRange w - 119 < mag ∧ mag ≤ halfRange w
    · rw [if_pos hbad]
      exact PackedReader.bind_error (if_neg fun hfit => by have := hfit.2; omega)
    · rw [if_neg hbad, checked_bind (by constructor <;> omega)]
      exact if_pos (by constructor <;> omega)

/-- A positive value with its value bytes. -/
theorem readPacked_positive (hw : 0 < w) (hlo : 119 < asI8 b) (hhi : asI8 b < 128) {n : ℕ}
    (hn : (n : ℤ) = asI8 b - 119) :
    readPacked w (b :: rest) = if w < min n rest.length then .error .overflow
      else if rest.length < n then .error .unexpectedEof
      else if halfRange w - 119 ≤ leNat (rest.take n) ∧ leNat (rest.take n) < halfRange w then
        .error .overflow
      else .ok (asSigned w (leNat (rest.take n)) + 119, rest.drop n) := by
  have hH := le_halfRange hw
  have hpow := pow_eq_two_mul_halfRange hw
  refine (PackedReader.bind_ok (p := readExactByte) rfl).trans ?_
  rw [if_neg (by omega), if_neg (by omega), checked_bind (fitsWidth_one.mpr (by omega)), ← hn,
    Int.toNat_natCast, readMagnitude_bind]
  refine ite_congr rfl (fun _ => rfl) fun hlong => ite_congr rfl (fun _ => rfl) fun _ => ?_
  have hlt := leNat_take_lt (Nat.not_lt.mp hlong)
  generalize leNat (rest.take n) = mag at hlt ⊢
  by_cases hbad : halfRange w - 119 ≤ mag ∧ mag < halfRange w
  · rw [if_pos hbad, asSigned_of_lt hbad.2]
    exact if_neg fun hfit => by have := hfit.2; omega
  · rw [if_neg hbad]
    refine if_pos ?_
    unfold asSigned
    split <;> constructor <;> omega

end ReadPacked

/-! ### Packed integers are read back -/

section PackedRoundTrip

variable {w : ℕ} {v : ℤ}

theorem packedMagnitude_eq (hv : FitsWidth w v) (hw : 0 < w) (hout : v < -119 ∨ 119 < v) :
    (packedMagnitude w v : ℤ) = |v| - 119 ∧ packedMagnitude w v < 256 ^ w := by
  obtain ⟨hlo, hhi⟩ := hv
  have hpow := pow_eq_two_mul_halfRange hw
  unfold packedMagnitude
  rcases hout with hneg | hpos
  · have hmod : (-v - 119) % (256 ^ w : ℕ) = -v - 119 := Int.emod_eq_of_lt (by omega) (by omega)
    rw [if_pos hneg, asUnsigned, hmod, abs_of_neg (by omega)]
    omega
  · rw [if_neg (by omega), abs_of_pos (by omega)]
    omega

/-- The encoding has the size that is computed for it. -/
theorem writePacked_size (w : ℕ) (v : ℤ) :
    (writePacked w v).1.length = packedSize w v ∧ (writePacked w v).2 = packedSize w v := by
  unfold writePacked packedSize
  split
  · exact ⟨rfl, rfl⟩
  · refine ⟨?_, rfl⟩
    rw [List.length_cons, length_leBytes, add_comm]

theorem asI8_asU8 {v : ℤ} (h : -128 ≤ v ∧ v < 128) : asI8 (asU8 v) = v := by
  rw [asI8, toNat_asU8]
  split <;> omega

/-- **Every integer is read back**, whatever follows. -/
theorem readPacked_write (hw : 0 < w) (hw8 : w ≤ 8) (hv : FitsWidth w v) (rest : Bytes) :
    readPacked w ((writePacked w v).1 ++ rest) = .ok (v, rest) := by
  by_cases hsmall : -119 ≤ v ∧ v ≤ 119
  · have hbyte : asI8 (asU8 v) = v := asI8_asU8 (by omega)
    rw [writePacked, if_pos hsmall]
    have hread : readPacked w (asU8 v :: rest) = .ok (asI8 (asU8 v), rest) :=
      readPacked_small (by omega)
    rwa [hbyte] at hread
  · obtain ⟨habs, hlt⟩ := packedMagnitude_eq hv hw (by omega)
    obtain ⟨hn1, hnw, hfits⟩ := packedLength_spec hlt (show w - 1 < w by omega)
    have hH := le_halfRange hw
    rw [writePacked, if_neg hsmall]
    dsimp only
    generalize packedMagnitude w v = mag at *
    generalize packedLength w mag (w - 1) = n at *
    rw [List.cons_append]
    have htake : (leBytes n mag ++ rest).take n = leBytes n mag :=
      List.take_left' (length_leBytes n mag)
    have hdrop : (leBytes n mag ++ rest).drop n = rest := List.drop_left' (length_leBytes n mag)
    have hlen : n ≤ (leBytes n mag ++ rest).length := by
      rw [List.length_append, length_leBytes]
      omega
    have hval : leNat (leBytes n mag) = mag := leNat_leBytes_of_lt hfits
    obtain ⟨hvlo, hvhi⟩ := hv
    by_cases hneg : v < -119
    · have hbyte : asI8 (asU8 (-(119 + n))) = -(119 + n) := asI8_asU8 (by omega)
      rw [abs_of_neg (by omega)] at habs
      rw [if_pos hneg, readPacked_negative hw (by omega) (by omega) (n := n) (by omega),
        if_neg (by omega), if_neg (by omega), htake, hdrop, hval, if_neg (by omega),
        asSigned_of_lt (by omega)]
      congr 2
      omega
    · have hbyte : asI8 (asU8 (119 + n)) = 119 + n := asI8_asU8 (by omega)
      rw [abs_of_pos (by omega)] at habs
      rw [if_neg hneg, readPacked_positive hw (by omega) (by omega) (n := n) (by omega),
        if_neg (by omega), if_neg (by omega), htake, hdrop, hval, if_neg (by omega),
        asSigned_of_lt (by omega)]
      congr 2
      omega

end PackedRoundTrip

/-! ### When a packed read overflows -/

/-- The bytes that a reader of packed integers can take: no first byte that has no negative, no
more value bytes than the width holds, unless they are cut short by then, and a value that fits
together with the bias. -/
def PackedReadable (w : ℕ) : Bytes → Prop
  | [] => True
  | b :: rest =>
    (-119 ≤ asI8 b ∧ asI8 b ≤ 119) ∨
      asI8 b ≠ -128 ∧
        let n := (asI8 b).natAbs - 119
        let mag := leNat (rest.take n)
        min n rest.length ≤ w ∧
          (rest.length < n ∨
            if asI8 b < 0 then mag ≤ halfRange w - 119 ∨ halfRange w < mag
            else mag < halfRange w - 119 ∨ halfRange w ≤ mag)

theorem asI8_bounds (b : UInt8) : -128 ≤ asI8 b ∧ asI8 b < 128 := by
  have hb := b.toNat_lt
  unfold asI8
  split <;> omega

/-- When the value bytes of a number lead to an overflow. -/
theorem outcome_overflow_iff {long short bad : Prop} [Decidable long] [Decidable short]
    [Decidable bad] (r : ℤ × Bytes) :
    (if long then .error .overflow else if short then .error .unexpectedEof
      else if bad then .error .overflow else .ok r : Except ReadFault (ℤ × Bytes)) ≠
        .error .overflow ↔ ¬long ∧ (short ∨ ¬bad) := by
  by_cases hl : long
  · simp [hl]
  · by_cases hs : short
    · simp [hl, hs]
    · by_cases hb : bad <;> simp [hl, hs, hb]

/-- **A packed read overflows exactly on the bytes that are not readable.** -/
theorem readPacked_overflow_iff {w : ℕ} (hw : 0 < w) (bs : Bytes) :
    readPacked w bs ≠ .error .overflow ↔ PackedReadable w bs := by
  cases bs with
  | nil =>
    have heof : readPacked w [] = .error .unexpectedEof :=
      PackedReader.bind_error (p := readExactByte) rfl
    simp [heof, PackedReadable]
  | cons b rest =>
    obtain ⟨hlo, hhi⟩ := asI8_bounds b
    rw [PackedReadable]
    by_cases hsmall : -119 ≤ asI8 b ∧ asI8 b ≤ 119
    · simp [readPacked_small hsmall, hsmall]
    by_cases hmin : asI8 b = -128
    · simp [readPacked_min hmin, hmin]
    rw [or_iff_right hsmall, and_iff_right hmin]
    dsimp only
    by_cases hneg : asI8 b < 0
    · rw [readPacked_negative hw (by omega) (by omega) (n := (asI8 b).natAbs - 119) (by omega),
        if_pos hneg]
      refine (outcome_overflow_iff _).trans (and_congr Nat.not_lt (or_congr_right ?_))
      omega
    · rw [readPacked_positive hw (by omega) (by omega) (n := (asI8 b).natAbs - 119) (by omega),
        if_neg hneg]
      refine (outcome_overflow_iff _).trans (and_congr Nat.not_lt (or_congr_right ?_))
      omega

/-! ### The number that the bytes stand for -/

/-- The number that bytes of the packed format stand for, as an integer of any size: the first
byte, or the value bytes that it announces, with sign and bias. There is none where the bytes end
before that. -/
def packedNumber : Bytes → Option ℤ
  | [] => none
  | b :: rest =>
    let n := (asI8 b).natAbs - 119
    if -119 ≤ asI8 b ∧ asI8 b ≤ 119 then some (asI8 b)
    else if rest.length < n then none
    else if asI8 b < 0 then some (-leNat (rest.take n) - 119)
    else some (leNat (rest.take n) + 119)

/-- The first byte announces more value bytes than the width holds, and at least as many as it
holds follow. -/
def Overlong (w : ℕ) : Bytes → Prop
  | [] => False
  | b :: rest => w < (asI8 b).natAbs - 119 ∧ w ≤ rest.length

theorem asI8_ne_min {b : UInt8} {rest : Bytes} (h : (b :: rest).head? ≠ some 0x80) :
    asI8 b ≠ -128 := by
  intro hmin
  refine h (congrArg some (UInt8.toNat_inj.mp ?_))
  have h80 : (0x80 : UInt8).toNat = 128 := rfl
  have hb := b.toNat_lt
  unfold asI8 at hmin
  split at hmin <;> omega

/-- Apart from the first byte that has no negative and from overlong value bytes, a packed read
runs out of bytes exactly where the bytes stand for no number, and it returns the number if that
fits the width. -/
theorem readPacked_of_packedNumber {w : ℕ} (hw : 0 < w) {bs : Bytes}
    (hmin : bs.head? ≠ some 0x80) (hlong : ¬ Overlong w bs) :
    (packedNumber bs = none ↔ readPacked w bs = .error .unexpectedEof) ∧
      ∀ v ∈ packedNumber bs, FitsWidth w v → ∃ rest, readPacked w bs = .ok (v, rest) := by
  cases bs with
  | nil =>
    have heof : readPacked w [] = .error .unexpectedEof :=
      PackedReader.bind_error (p := readExactByte) rfl
    simp [heof, packedNumber]
  | cons b rest =>
    obtain ⟨hlo, hhi⟩ := asI8_bounds b
    have hH := le_halfRange hw
    have hnot := asI8_ne_min hmin
    rw [Overlong] at hlong
    by_cases hsmall : -119 ≤ asI8 b ∧ asI8 b ≤ 119
    · simp [packedNumber, readPacked_small hsmall, hsmall]
    rw [packedNumber, if_neg hsmall]
    generalize hn : (asI8 b).natAbs - 119 = n at hlong ⊢
    have hwide : ¬ w < min n rest.length := by omega
    by_cases hshort : rest.length < n
    · by_cases hneg : asI8 b < 0
      · rw [readPacked_negative hw (by omega) (by omega) (n := n) (by omega), if_neg hwide]
        simp [hshort]
      · rw [readPacked_positive hw (by omega) (by omega) (n := n) (by omega), if_neg hwide]
        simp [hshort]
    have hlt := leNat_take_lt (Nat.not_lt.mp hwide)
    by_cases hneg : asI8 b < 0
    · rw [readPacked_negative hw (by omega) (by omega) (n := n) (by omega), if_neg hwide,
        if_neg hshort, if_neg hshort, if_pos hneg]
      generalize leNat (rest.take n) = mag at hlt ⊢
      refine ⟨iff_of_false (by simp) ?_, ?_⟩
      · split <;> simp
      · rintro v ⟨⟩ hfit
        have hroom := hfit.1
        rw [if_neg (by omega), asSigned_of_lt (by omega)]
        exact ⟨_, rfl⟩
    · rw [readPacked_positive hw (by omega) (by omega) (n := n) (by omega), if_neg hwide,
        if_neg hshort, if_neg hshort, if_neg hneg]
      generalize leNat (rest.take n) = mag at hlt ⊢
      refine ⟨iff_of_false (by simp) ?_, ?_⟩
      · split <;> simp
      · rintro v ⟨⟩ hfit
        have hroom := hfit.2
        rw [if_neg (by omega), asSigned_of_lt (by omega)]
        exact ⟨_, rfl⟩

end Noxu
