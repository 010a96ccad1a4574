import Noxu.Util.Packed

/-!
# Sorted Packed Integers

The sorted encoding of an integer has one of three forms. A single byte holds the small ones;
for the others the first byte grows with the class of the value, more value bytes being further
out, and within a class the value bytes are a big-endian number. Two encodings therefore
**differ at a byte in the order of the integers**, none is a prefix of another, and tuples of
them compare like the tuples.

## Main results

* `sortedForm_write`: every encoding has its form;
* `readSorted_write`: every integer is read back, whatever follows;
* `belowAt_writeSorted`: encodings are in the order of the integers;
* `readSorted_overflow_iff`: the bytes on which the reader overflows;
* `sorted_packed_orders_like_tuples`, `packed_readers_return_iff`: the encodings as a whole.
-/

open Noxu.Library

namespace Noxu

/-! ### The form of a sorted encoding -/

/-- A sorted encoding is one of three forms, by the sign of the value; the value bytes hold the
distance from the end of their class. -/
inductive SortedForm (w : ℕ) (v : ℤ) : Bytes → Prop
  | negative (n m : ℕ) (hv : v < -119) (hn : 1 ≤ n) (hnw : n ≤ w) (hm : m < 256 ^ n)
      (heq : (m : ℤ) = v + 119 + (256 ^ n : ℕ))
      (hleast : n = 1 ∨ v + 119 < -(256 ^ (n - 1) : ℕ)) :
      SortedForm w v (UInt8.ofNat (8 - n) :: beBytes n m)
  | single (hv : -119 ≤ v ∧ v ≤ 120) : SortedForm w v [UInt8.ofNat (v + 127).toNat]
  | positive (n m : ℕ) (hv : 120 < v) (hn : 1 ≤ n) (hnw : n ≤ w) (hm : m < 256 ^ n)
      (heq : (m : ℤ) = v - 121) (hleast : n = 1 ∨ 256 ^ (n - 1) ≤ m) :
      SortedForm w v (UInt8.ofNat (0xF7 + n) :: beBytes n m)

section Sorted

variable {w : ℕ} {v : ℤ}

/-- The low bytes of a two's complement are those of the distance from the power of its
length. -/
theorem beBytes_complement {n uadj m : ℕ} (hnw : n ≤ w) (heq : uadj + 256 ^ n = m + 256 ^ w) :
    beBytes n uadj = beBytes n m := by
  refine beBytes_congr ?_
  obtain ⟨c, hc⟩ := Nat.pow_dvd_pow 256 hnw
  have hleft : (uadj + 256 ^ n) % 256 ^ n = uadj % 256 ^ n := Nat.add_mod_right ..
  have hright : (m + 256 ^ w) % 256 ^ n = m % 256 ^ n := by
    rw [hc]
    exact Nat.add_mul_mod_self_left ..
  rw [← hleft, ← hright, heq]

/-- **Every sorted encoding has its form.** -/
theorem sortedForm_write (hw : 0 < w) (hw8 : w ≤ 8) (hv : FitsWidth w v) :
    SortedForm w v (writeSorted w v) := by
  obtain ⟨hlo, hhi⟩ := hv
  have hH := le_halfRange hw
  have hpow := pow_eq_two_mul_halfRange hw
  have hlast : w - 1 + 1 = w := by omega
  unfold writeSorted
  split
  · next hmid =>
    have hbyte : asU8 (v + 127) = UInt8.ofNat (v + 127).toNat := by
      rw [asU8, Int.emod_eq_of_lt (by omega) (by omega)]
    rw [hbyte]
    exact .single hmid
  · split
    · next hpos =>
      have hlt : (v - 121).toNat < 256 ^ w := by omega
      obtain ⟨hn, hnw, hm, hleast⟩ := sortedLength_spec hlt (show w - 1 < w by omega)
        (by rwa [hlast])
      exact .positive _ _ hpos hn (by omega) hm (by omega) hleast
    · next hmid hpos =>
      have hmod : (v + 119) % (256 ^ w : ℕ) = v + 119 + (256 ^ w : ℕ) := by
        rw [← Int.add_emod_right]
        exact Int.emod_eq_of_lt (by omega) (by omega)
      have huadj : (asUnsigned w (v + 119) : ℤ) = v + 119 + (256 ^ w : ℕ) := by
        rw [asUnsigned, hmod]
        omega
      dsimp only
      generalize asUnsigned w (v + 119) = uadj at huadj ⊢
      obtain ⟨hn, hnw, hm, hleast⟩ := sortedLengthNeg_spec (w := w) (n := uadj) (by omega)
        (show w - 1 < w by omega) (by rw [hlast]; omega)
      generalize sortedLengthNeg w uadj (w - 1) = n at hn hnw hm hleast ⊢
      have hnp : 256 ^ n ≤ 256 ^ w := Nat.pow_le_pow_right (by norm_num) (by omega)
      have hhead : asU8 (8 - n) = UInt8.ofNat (8 - n) := by
        rw [asU8, Int.emod_eq_of_lt (by omega) (by omega)]
        congr 1
        omega
      have hdist : uadj + 256 ^ n = (uadj + 256 ^ n - 256 ^ w) + 256 ^ w := by omega
      rw [hhead, beBytes_complement (by omega) hdist]
      refine .negative n _ (by omega) hn (by omega) (by omega) (by omega) ?_
      refine hleast.imp_right fun hlt => ?_
      have hnp' : 256 ^ (n - 1) ≤ 256 ^ w := Nat.pow_le_pow_right (by norm_num) (by omega)
      omega

theorem toNat_ofNat_of_lt {n : ℕ} (h : n < 256) : (UInt8.ofNat n).toNat = n := by
  rw [UInt8.toNat_ofNat']
  exact Nat.mod_eq_of_lt h

/-- What the reader makes of the value bytes of a negative value: the bytes it did not read are
all ones. -/
theorem complement_mod {n m : ℕ} (hnw : n ≤ w) (hm : m < 256 ^ n) :
    ((256 ^ w - 1) * 256 ^ n + m) % 256 ^ w = 256 ^ w - 256 ^ n + m := by
  have hnp : 256 ^ n ≤ 256 ^ w := Nat.pow_le_pow_right (by norm_num) hnw
  have hpos : 0 < 256 ^ n := Nat.pow_pos (by norm_num)
  have hsplit : (256 ^ w - 1) * 256 ^ n + m =
      256 ^ w - 256 ^ n + m + 256 ^ w * (256 ^ n - 1) := by
    have h1 := Nat.sub_mul (256 ^ w) 1 (256 ^ n)
    have h2 := Nat.mul_sub (256 ^ w) (256 ^ n) 1
    have h3 : 256 ^ w ≤ 256 ^ w * 256 ^ n := Nat.le_mul_of_pos_right _ hpos
    rw [one_mul] at h1
    rw [mul_one] at h2
    omega
  rw [hsplit, Nat.add_mul_mod_self_left]
  exact Nat.mod_eq_of_lt (by omega)

/-- **Every integer is read back**, whatever follows. -/
theorem readSorted_write (hw : 0 < w) (hw8 : w ≤ 8) (hv : FitsWidth w v) (rest : Bytes) :
    readSorted w (writeSorted w v ++ rest) = .ok (v, rest) := by
  have hH := le_halfRange hw
  have hpow := pow_eq_two_mul_halfRange hw
  have hform := sortedForm_write hw hw8 hv
  generalize writeSorted w v = code at hform ⊢
  obtain ⟨hlo, hhi⟩ := hv
  cases hform with
  | single hmid =>
    have hbyte : (UInt8.ofNat (v + 127).toNat).toNat = (v + 127).toNat :=
      toNat_ofNat_of_lt (by omega)
    refine (PackedReader.bind_ok (p := readExactByte) rfl).trans ?_
    rw [hbyte, if_neg (by omega), if_neg (by omega)]
    have hval : ((v + 127).toNat : ℤ) - 127 = v := by omega
    rw [hval]
    rfl
  | positive n m hpos hn hnw hm heq hleast =>
    have hbyte : (UInt8.ofNat (0xF7 + n)).toNat = 0xF7 + n := toNat_ofNat_of_lt (by omega)
    refine (PackedReader.bind_ok (p := readExactByte) rfl).trans ?_
    rw [hbyte, if_neg (by omega), if_pos (by omega), Nat.add_sub_cancel_left]
    have hread := readShifted_eq hw n 0 (Nat.pow_pos (by norm_num)) (beBytes n m ++ rest)
    rw [if_neg (by rw [List.length_append, length_beBytes]; omega), zero_mul, zero_add,
      List.take_left' (length_beBytes n m), List.drop_left' (length_beBytes n m),
      beNat_beBytes_of_lt hm, Nat.mod_eq_of_lt (by omega)] at hread
    refine (PackedReader.bind_ok hread).trans ?_
    rw [asSigned_of_lt (by omega), heq, sub_add_cancel]
    exact if_pos ⟨hlo, hhi⟩
  | negative n m hneg hn hnw hm heq hleast =>
    have hbyte : (UInt8.ofNat (8 - n)).toNat = 8 - n := toNat_ofNat_of_lt (by omega)
    have hlen : 8 - (8 - n) = n := by omega
    refine (PackedReader.bind_ok (p := readExactByte) rfl).trans ?_
    rw [hbyte, if_pos (by omega), hlen]
    have hread := readShifted_eq hw n (256 ^ w - 1) (by omega) (beBytes n m ++ rest)
    rw [if_neg (by rw [List.length_append, length_beBytes]; omega),
      List.take_left' (length_beBytes n m), List.drop_left' (length_beBytes n m),
      beNat_beBytes_of_lt hm, complement_mod hnw hm] at hread
    refine (PackedReader.bind_ok hread).trans ?_
    have hnp : 256 ^ n ≤ 256 ^ w := Nat.pow_le_pow_right (by norm_num) hnw
    have hval : asSigned w (256 ^ w - 256 ^ n + m) = v + 119 := by
      rw [asSigned_of_le (by omega)]
      omega
    rw [hval, add_sub_cancel_right]
    exact if_pos ⟨hlo, hhi⟩

/-! ### The order of sorted encodings -/

/-- **Encodings differ at a byte in the order of the integers.** -/
theorem belowAt_writeSorted (hw : 0 < w) (hw8 : w ≤ 8) {a b : ℤ} (ha : FitsWidth w a)
    (hb : FitsWidth w b) (hab : a < b) : BelowAt (writeSorted w a) (writeSorted w b) := by
  have hfa := sortedForm_write hw hw8 ha
  have hfb := sortedForm_write hw hw8 hb
  generalize writeSorted w a = codeA at hfa ⊢
  generalize writeSorted w b = codeB at hfb ⊢
  have hhead : ∀ {x y : ℕ}, x < y → y < 256 → ∀ s t,
      BelowAt (UInt8.ofNat x :: s) (UInt8.ofNat y :: t) := by
    intro x y hxy hy s t
    refine belowAt_of_lt ?_ s t
    rwa [UInt8.lt_iff_toNat_lt, toNat_ofNat_of_lt (by omega), toNat_ofNat_of_lt hy]
  cases hfa with
  | negative n m hva hn hnw hm heq hleast =>
    cases hfb with
    | negative n' m' hvb hn' hnw' hm' heq' hleast' =>
      rcases Nat.lt_trichotomy n n' with hlt | rfl | hlt
      · -- the greater value would need more bytes
        have hp : 256 ^ n ≤ 256 ^ (n' - 1) := Nat.pow_le_pow_right (by norm_num) (by omega)
        omega
      · exact (belowAt_beBytes (by omega) hm').cons _
      · exact hhead (by omega) (by omega) _ _
    | single hvb => exact hhead (by omega) (by omega) _ _
    | positive n' m' hvb hn' hnw' hm' heq' hleast' => exact hhead (by omega) (by omega) _ _
  | single hva =>
    cases hfb with
    | negative n' m' hvb => omega
    | single hvb => exact hhead (by omega) (by omega) _ _
    | positive n' m' hvb hn' hnw' hm' heq' hleast' => exact hhead (by omega) (by omega) _ _
  | positive n m hva hn hnw hm heq hleast =>
    cases hfb with
    | negative n' m' hvb => omega
    | single hvb => omega
    | positive n' m' hvb hn' hnw' hm' heq' hleast' =>
      rcases Nat.lt_trichotomy n n' with hlt | rfl | hlt
      · exact hhead (by omega) (by omega) _ _
      · exact (belowAt_beBytes (by omega) hm').cons _
      · have hp : 256 ^ n' ≤ 256 ^ (n - 1) := Nat.pow_le_pow_right (by norm_num) (by omega)
        omega

/-! ### When a sorted read overflows -/

/-- The bytes that a reader of sorted integers can take: the value bytes are cut short, or their
last `w` fit together with the bias; fewer than that always do. -/
def SortedReadable (w : ℕ) : Bytes → Prop
  | [] => True
  | b :: rest =>
    if b.toNat < 0x08 then
      let n := 0x08 - b.toNat
      let raw := beNat (rest.take n) % 256 ^ w
      rest.length < n ∨ n < w ∨ raw < halfRange w ∨ halfRange w + 119 ≤ raw
    else if 0xF7 < b.toNat then
      let n := b.toNat - 0xF7
      let raw := beNat (rest.take n) % 256 ^ w
      rest.length < n ∨ raw < halfRange w - 121 ∨ halfRange w ≤ raw
    else True

theorem checked_overflow_iff {x : ℤ} {bs : Bytes} :
    checked w x bs ≠ .error .overflow ↔ FitsWidth w x := by
  unfold checked
  split
  · next h => simp [h]
  · next h => simp [h]

theorem checked_ne_eof (x : ℤ) (bs : Bytes) : checked w x bs ≠ .error .unexpectedEof := by
  unfold checked
  split <;> simp

/-- The value bytes, and then the rest of a reader. -/
theorem readShifted_bind {α : Type} (hw : 0 < w) {n raw : ℕ} (hraw : raw < 256 ^ w)
    (f : ℕ → PackedReader α) (bs : Bytes) :
    (readShifted w n raw >>= f) bs = if bs.length < n then .error .unexpectedEof
      else f ((raw * 256 ^ n + beNat (bs.take n)) % 256 ^ w) (bs.drop n) := by
  have hread := readShifted_eq hw n raw hraw bs
  split
  · next hshort => exact PackedReader.bind_error (hread.trans (if_pos hshort))
  · next hshort => exact PackedReader.bind_ok (hread.trans (if_neg hshort))

/-- The reader's number for a negative value fits, with the bias. -/
theorem fitsWidth_negative_iff (hw : 0 < w) {n m : ℕ} (hm : m < 256 ^ n) :
    FitsWidth w (asSigned w (((256 ^ w - 1) * 256 ^ n + m) % 256 ^ w) - 119) ↔
      n < w ∨ m % 256 ^ w < halfRange w ∨ halfRange w + 119 ≤ m % 256 ^ w := by
  have hH := le_halfRange hw
  have hpow := pow_eq_two_mul_halfRange hw
  rcases Nat.lt_or_ge n w with hn | hn
  · have hnp : 256 * 256 ^ n ≤ 256 ^ w := by
      rw [← pow_succ']
      exact Nat.pow_le_pow_right (by norm_num) hn
    have hpos : 0 < 256 ^ n := Nat.pow_pos (by norm_num)
    rw [complement_mod hn.le hm, asSigned_of_le (by omega), FitsWidth]
    omega
  · have hmul : ((256 ^ w - 1) * 256 ^ n + m) % 256 ^ w = m % 256 ^ w := by
      obtain ⟨c, hc⟩ := Nat.pow_dvd_pow 256 hn
      rw [hc, ← mul_assoc, mul_comm _ (256 ^ w), mul_assoc, Nat.mul_add_mod]
    have hlt : m % 256 ^ w < 256 ^ w := Nat.mod_lt _ (Nat.pow_pos (by norm_num))
    rw [hmul, or_iff_right (Nat.not_lt.mpr hn)]
    generalize m % 256 ^ w = raw at hlt ⊢
    unfold asSigned FitsWidth
    split <;> omega

/-- The reader's number for a positive value fits, with the bias. -/
theorem fitsWidth_positive_iff (hw : 0 < w) {raw : ℕ} (hraw : raw < 256 ^ w) :
    FitsWidth w (asSigned w raw + 121) ↔ raw < halfRange w - 121 ∨ halfRange w ≤ raw := by
  have hH := le_halfRange hw
  have hpow := pow_eq_two_mul_halfRange hw
  unfold asSigned FitsWidth
  split <;> omega

/-- The first byte decides how a sorted read goes on. -/
theorem readSorted_cons (b : UInt8) (rest : Bytes) :
    readSorted w (b :: rest) =
      (if b.toNat < 0x08 then do
        let raw ← readShifted w (0x08 - b.toNat) (256 ^ w - 1)
        checked w (asSigned w raw - 119)
      else if 0xF7 < b.toNat then do
        let raw ← readShifted w (b.toNat - 0xF7) 0
        checked w (asSigned w raw + 121)
      else pure (b.toNat - 127) : PackedReader ℤ) rest :=
  PackedReader.bind_ok (p := readExactByte) rfl

/-- **A sorted read overflows exactly on the bytes that are not readable.** -/
theorem readSorted_overflow_iff (hw : 0 < w) (bs : Bytes) :
    readSorted w bs ≠ .error .overflow ↔ SortedReadable w bs := by
  cases bs with
  | nil =>
    have heof : readSorted w [] = .error .unexpectedEof :=
      PackedReader.bind_error (p := readExactByte) rfl
    simp [heof, SortedReadable]
  | cons b rest =>
    have hpow := pow_eq_two_mul_halfRange hw
    have hH := le_halfRange hw
    rw [readSorted_cons, SortedReadable]
    split
    · rw [readShifted_bind hw (by omega)]
      dsimp only
      split
      · next hshort => simp [hshort]
      · next hshort =>
        have hm : beNat (rest.take (8 - b.toNat)) < 256 ^ (8 - b.toNat) := by
          have hlt := beNat_lt (rest.take (8 - b.toNat))
          rwa [List.length_take, min_eq_left (Nat.not_lt.mp hshort)] at hlt
        rw [checked_overflow_iff, fitsWidth_negative_iff hw hm, or_iff_right hshort]
    · split
      · rw [readShifted_bind hw (by omega)]
        dsimp only
        split
        · next hshort => simp [hshort]
        · next hshort =>
          rw [zero_mul, zero_add, checked_overflow_iff,
            fitsWidth_positive_iff hw (Nat.mod_lt _ (by omega)), or_iff_right hshort]
      · refine iff_of_true (fun hov => ?_) trivial
        cases hov

/-! ### The number that sorted bytes stand for -/

/-- The number that bytes of the sorted format stand for, as an integer of any size. There is none
where the bytes end before the announced value bytes do. -/
def sortedNumber : Bytes → Option ℤ
  | [] => none
  | b :: rest =>
    if b.toNat < 0x08 then
      let n := 0x08 - b.toNat
      if rest.length < n then none
      else some (beNat (rest.take n) - (256 ^ n : ℕ) - 119)
    else if 0xF7 < b.toNat then
      let n := b.toNat - 0xF7
      if rest.length < n then none else some (beNat (rest.take n) + 121)
    else some (b.toNat - 127)

/-- The last `w` bytes of a number that fits the width are the number. -/
theorem asSigned_of_dvd (hw : 0 < w) {raw : ℕ} {v : ℤ} (hraw : raw < 256 ^ w)
    (hdvd : ((256 ^ w : ℕ) : ℤ) ∣ raw - v) (hv : FitsWidth w v) : asSigned w raw = v := by
  have hpow := pow_eq_two_mul_halfRange hw
  obtain ⟨c, hc⟩ := hdvd
  obtain ⟨hlo, hhi⟩ := hv
  rw [hpow] at hc hraw
  -- the two differ by less than one and a half ranges
  have hc01 : c = 0 ∨ c = 1 := by
    have hpos : (0 : ℤ) < halfRange w := by have := le_halfRange hw; omega
    push_cast at hc
    have hup : c < 2 := by nlinarith
    have hdown : -1 < c := by nlinarith
    omega
  rcases hc01 with rfl | rfl
  · rw [asSigned_of_lt (by omega)]
    omega
  · rw [asSigned_of_le (by omega), hpow]
    omega

/-- The reader's number for a negative value, up to whole ranges. -/
theorem complement_dvd (n m : ℕ) :
    ((256 ^ w : ℕ) : ℤ) ∣
      ((((256 ^ w - 1) * 256 ^ n + m) % 256 ^ w : ℕ) : ℤ) - ((m : ℤ) - (256 ^ n : ℕ)) := by
  have hone : 1 ≤ 256 ^ w := Nat.one_le_pow _ _ (by norm_num)
  generalize 256 ^ n = p
  generalize 256 ^ w = q at hone ⊢
  have hcast : (((q - 1) * p + m : ℕ) : ℤ) = (q - 1) * p + m := by
    push_cast [Nat.cast_sub hone]
    ring
  rw [Int.natCast_mod, hcast]
  have hsplit : (((q : ℤ) - 1) * p + m) % q - (m - p) =
      q * p - (((q - 1) * p + m) - ((q - 1) * p + m) % q) := by ring
  rw [hsplit]
  exact dvd_sub (dvd_mul_right _ _) (Int.dvd_self_sub_emod)

/-- A sorted read runs out of bytes exactly where the bytes stand for no number, and it returns the
number if that fits the width. -/
theorem readSorted_of_sortedNumber (hw : 0 < w) (bs : Bytes) :
    (sortedNumber bs = none ↔ readSorted w bs = .error .unexpectedEof) ∧
      ∀ v ∈ sortedNumber bs, FitsWidth w v → ∃ rest, readSorted w bs = .ok (v, rest) := by
  have hpow := pow_eq_two_mul_halfRange hw
  have hH := le_halfRange hw
  cases bs with
  | nil =>
    have heof : readSorted w [] = .error .unexpectedEof :=
      PackedReader.bind_error (p := readExactByte) rfl
    simp [heof, sortedNumber]
  | cons b rest =>
    rw [readSorted_cons, sortedNumber]
    split
    · rw [readShifted_bind hw (by omega)]
      dsimp only
      generalize 0x08 - b.toNat = n
      split
      · simp
      have hlt : ((256 ^ w - 1) * 256 ^ n + beNat (rest.take n)) % 256 ^ w < 256 ^ w :=
        Nat.mod_lt _ (by omega)
      refine ⟨iff_of_false (by simp) (checked_ne_eof _ _), ?_⟩
      rintro v ⟨⟩ hfit
      rw [asSigned_of_dvd hw hlt (complement_dvd n _)]
      · exact ⟨_, if_pos hfit⟩
      · have hroom := hfit.1
        have hm : beNat (rest.take n) < 256 ^ n := by
          refine (beNat_lt _).trans_le (Nat.pow_le_pow_right (by norm_num) ?_)
          exact List.length_take_le n rest
        constructor <;> omega
    · split
      · rw [readShifted_bind hw (by omega)]
        dsimp only
        generalize b.toNat - 0xF7 = n
        split
        · simp
        refine ⟨iff_of_false (by simp) (checked_ne_eof _ _), ?_⟩
        rintro v ⟨⟩ hfit
        rw [zero_mul, zero_add, Nat.mod_eq_of_lt (by have := hfit.2; omega),
          asSigned_of_lt (by have := hfit.2; omega)]
        exact ⟨_, if_pos hfit⟩
      · refine ⟨iff_of_false (by simp) (fun heof => by cases heof), ?_⟩
        rintro v ⟨⟩ -
        exact ⟨rest, rfl⟩

end Sorted

/-! ### The two widths -/

section Widths

theorem fitsWidth_toInt32 (v : Int32) : FitsWidth 4 v.toInt := ⟨v.le_toInt, v.toInt_lt⟩

theorem fitsWidth_toInt64 (v : Int64) : FitsWidth 8 v.toInt := ⟨v.le_toInt, v.toInt_lt⟩

theorem readSortedI32_write (v : Int32) (rest : Bytes) :
    readSortedI32 (writeSortedI32 v ++ rest) = .ok (v, rest) := by
  rw [readSortedI32, PackedReader.map_apply, writeSortedI32,
    readSorted_write (by norm_num) (by norm_num) (fitsWidth_toInt32 v)]
  exact congrArg (fun x => Except.ok (x, rest)) (Int32.ofInt_toInt v)

theorem readSortedI64_write (v : Int64) (rest : Bytes) :
    readSortedI64 (writeSortedI64 v ++ rest) = .ok (v, rest) := by
  rw [readSortedI64, PackedReader.map_apply, writeSortedI64,
    readSorted_write (by norm_num) (by norm_num) (fitsWidth_toInt64 v)]
  exact congrArg (fun x => Except.ok (x, rest)) (Int64.ofInt_toInt v)

theorem readPackedI32_write (v : Int32) (rest : Bytes) :
    readPackedI32 ((writePackedI32 v).1 ++ rest) = .ok (v, rest) := by
  rw [readPackedI32, PackedReader.map_apply, writePackedI32,
    readPacked_write (by norm_num) (by norm_num) (fitsWidth_toInt32 v)]
  exact congrArg (fun x => Except.ok (x, rest)) (Int32.ofInt_toInt v)

theorem readPackedI64_write (v : Int64) (rest : Bytes) :
    readPackedI64 ((writePackedI64 v).1 ++ rest) = .ok (v, rest) := by
  rw [readPackedI64, PackedReader.map_apply, writePackedI64,
    readPacked_write (by norm_num) (by norm_num) (fitsWidth_toInt64 v)]
  exact congrArg (fun x => Except.ok (x, rest)) (Int64.ofInt_toInt v)

theorem belowAt_writeSortedI32 {a b : Int32} (h : a < b) :
    BelowAt (writeSortedI32 a) (writeSortedI32 b) :=
  belowAt_writeSorted (by norm_num) (by norm_num) (fitsWidth_toInt32 a) (fitsWidth_toInt32 b)
    (Int32.lt_iff_toInt_lt.mp h)

theorem belowAt_writeSortedI64 {a b : Int64} (h : a < b) :
    BelowAt (writeSortedI64 a) (writeSortedI64 b) :=
  belowAt_writeSorted (by norm_num) (by norm_num) (fitsWidth_toInt64 a) (fitsWidth_toInt64 b)
    (Int64.lt_iff_toInt_lt.mp h)

/-- A conversion of the value does not bear on the faults. -/
theorem map_overflow_iff {α β : Type} (g : α → β) (p : PackedReader α) (bs : Bytes) :
    (g <$> p) bs ≠ .error .overflow ↔ p bs ≠ .error .overflow := by
  rw [PackedReader.map_apply]
  cases p bs with
  | ok r => simp [Except.map]
  | error e => simp [Except.map]

end Widths

/-! ### Tuples -/

/-- A field of a tuple of sorted integers. -/
inductive SortedField where
  | int (v : Int32)
  | long (v : Int64)

namespace SortedField

/-- The bytes of a field. -/
def encode : SortedField → Bytes
  | int v => writeSortedI32 v
  | long v => writeSortedI64 v

/-- The field has 64 bits. -/
def isLong : SortedField → Bool
  | int _ => false
  | long _ => true

/-- Fields of one width compare as integers. -/
def Lt : SortedField → SortedField → Prop
  | int a, int b => a < b
  | long a, long b => a < b
  | _, _ => False

variable {a b : SortedField}

theorem Lt.belowAt (h : a.Lt b) : BelowAt a.encode b.encode := by
  cases a with
  | int a =>
    cases b with
    | int b => exact belowAt_writeSortedI32 h
    | long b => exact h.elim
  | long a =>
    cases b with
    | int b => exact h.elim
    | long b => exact belowAt_writeSortedI64 h

theorem lt_or_eq_or_lt (h : a.isLong = b.isLong) : a.Lt b ∨ a = b ∨ b.Lt a := by
  cases a with
  | int a =>
    cases b with
    | int b =>
      rcases Int.lt_trichotomy a.toInt b.toInt with hlt | heq | hlt
      · exact .inl (Int32.lt_iff_toInt_lt.mpr hlt)
      · exact .inr (.inl (congrArg int (Int32.toInt_inj.mp heq)))
      · exact .inr (.inr (Int32.lt_iff_toInt_lt.mpr hlt))
    | long b => cases h
  | long a =>
    cases b with
    | int b => cases h
    | long b =>
      rcases Int.lt_trichotomy a.toInt b.toInt with hlt | heq | hlt
      · exact .inl (Int64.lt_iff_toInt_lt.mpr hlt)
      · exact .inr (.inl (congrArg long (Int64.toInt_inj.mp heq)))
      · exact .inr (.inr (Int64.lt_iff_toInt_lt.mpr hlt))

end SortedField

section Tuples

variable {as bs : List SortedField}

theorem encode_lt_of_lex (h : List.Lex SortedField.Lt as bs)
    (hshape : as.map SortedField.isLong = bs.map SortedField.isLong) :
    as.flatMap SortedField.encode < bs.flatMap SortedField.encode := by
  induction h with
  | nil => cases hshape
  | rel hlt =>
    rw [List.flatMap_cons, List.flatMap_cons]
    exact (hlt.belowAt.append _ _).lt
  | cons _ ih =>
    rw [List.flatMap_cons, List.flatMap_cons]
    exact List.Lex.append_left _ (ih (List.cons.inj hshape).2) _

theorem lex_or_eq_or_lex (hshape : as.map SortedField.isLong = bs.map SortedField.isLong) :
    List.Lex SortedField.Lt as bs ∨ as = bs ∨ List.Lex SortedField.Lt bs as := by
  induction as generalizing bs with
  | nil =>
    cases bs with
    | nil => exact .inr (.inl rfl)
    | cons b bs => cases hshape
  | cons a as ih =>
    cases bs with
    | nil => cases hshape
    | cons b bs =>
      obtain ⟨hhead, htail⟩ := List.cons.inj hshape
      rcases SortedField.lt_or_eq_or_lt hhead with hlt | rfl | hlt
      · exact .inl (.rel hlt)
      · rcases ih htail with hlt | rfl | hlt
        · exact .inl (.cons hlt)
        · exact .inr (.inl rfl)
        · exact .inr (.inr (.cons hlt))
      · exact .inr (.inr (.rel hlt))

/-- Tuples of one shape and their encodings are in one order. -/
theorem encode_lt_iff (hshape : as.map SortedField.isLong = bs.map SortedField.isLong) :
    List.Lex SortedField.Lt as bs ↔
      as.flatMap SortedField.encode < bs.flatMap SortedField.encode := by
  refine ⟨fun h => encode_lt_of_lex h hshape, fun h => ?_⟩
  rcases lex_or_eq_or_lex hshape with hlt | rfl | hlt
  · exact hlt
  · exact absurd h (List.lt_irrefl _)
  · exact absurd h (List.lt_asymm (encode_lt_of_lex hlt hshape.symm))

end Tuples

/-! ### The encodings as a whole -/

/-- **The sorted encodings** of both widths are read back whatever follows, and they and the
tuples of them are in the order of the integers. -/
theorem sorted_packed_orders_like_tuples :
    (∀ v rest, readSortedI32 (writeSortedI32 v ++ rest) = .ok (v, rest)) ∧
    (∀ v rest, readSortedI64 (writeSortedI64 v ++ rest) = .ok (v, rest)) ∧
    (∀ a b : Int32, a < b → writeSortedI32 a < writeSortedI32 b) ∧
    (∀ a b : Int64, a < b → writeSortedI64 a < writeSortedI64 b) ∧
    ∀ as bs : List SortedField, as.map SortedField.isLong = bs.map SortedField.isLong →
      (List.Lex SortedField.Lt as bs ↔
        as.flatMap SortedField.encode < bs.flatMap SortedField.encode) :=
  ⟨readSortedI32_write, readSortedI64_write, fun _ _ h => (belowAt_writeSortedI32 h).lt,
    fun _ _ h => (belowAt_writeSortedI64 h).lt, fun _ _ h => encode_lt_iff h⟩

/-- Two pairs that differ in the second field. -/
theorem sorted_pair_orders :
    (-120 : Int32) < 300 ∧ writeSortedI32 (-120) < writeSortedI32 300 ∧
      (-9000000000 : Int64) < -300 ∧ writeSortedI64 (-9000000000) < writeSortedI64 (-300) ∧
      ([.int 7, .long (-300)] : List SortedField).flatMap SortedField.encode <
        ([.int 7, .long 121] : List SortedField).flatMap SortedField.encode := by
  refine ⟨by decide, sorted_packed_orders_like_tuples.2.2.1 _ _ (by decide), by decide,
    sorted_packed_orders_like_tuples.2.2.2.1 _ _ (by decide), ?_⟩
  have hlt : SortedField.Lt (.long (-300)) (.long 121) := show (-300 : Int64) < 121 by decide
  exact (sorted_packed_orders_like_tuples.2.2.2.2 [.int 7, .long (-300)] [.int 7, .long 121]
    rfl).mp (.cons (.rel hlt))

/-- **The readers return** a value or an error exactly on the bytes that are readable, and every
packed integer is read back whatever follows, from as many bytes as its size. -/
theorem packed_readers_return_iff (v : Int32) (w : Int64) (rest bs : Bytes) :
    (readPackedI32 ((writePackedI32 v).1 ++ rest) = .ok (v, rest) ∧
      (writePackedI32 v).1.length = packedI32Size v ∧ (writePackedI32 v).2 = packedI32Size v) ∧
    (readPackedI64 ((writePackedI64 w).1 ++ rest) = .ok (w, rest) ∧
      (writePackedI64 w).1.length = packedI64Size w ∧ (writePackedI64 w).2 = packedI64Size w) ∧
    (readPackedI32 bs ≠ .error .overflow ↔ PackedReadable 4 bs) ∧
    (readPackedI64 bs ≠ .error .overflow ↔ PackedReadable 8 bs) ∧
    (readSortedI32 bs ≠ .error .overflow ↔ SortedReadable 4 bs) ∧
    (readSortedI64 bs ≠ .error .overflow ↔ SortedReadable 8 bs) := by
  refine ⟨⟨readPackedI32_write v rest, writePacked_size 4 v.toInt⟩,
    ⟨readPackedI64_write w rest, writePacked_size 8 w.toInt⟩, ?_⟩
  exact ⟨(map_overflow_iff _ _ bs).trans (readPacked_overflow_iff (by norm_num) bs),
    (map_overflow_iff _ _ bs).trans (readPacked_overflow_iff (by norm_num) bs),
    (map_overflow_iff _ _ bs).trans (readSorted_overflow_iff (by norm_num) bs),
    (map_overflow_iff _ _ bs).trans (readSorted_overflow_iff (by norm_num) bs)⟩

/-- A first byte of five value bytes is followed by them, and the shift leaves the width; the
least signed byte has no negative; and the greatest magnitude leaves no room for the bias. -/
theorem packed_read_overflows :
    readPackedI32 [124, 0, 0, 0, 0, 0] = .error .overflow ∧
      readPackedI64 [0x80] = .error .overflow ∧
      readSortedI32 [0xFB, 0x7F, 0xFF, 0xFF, 0xFF] = .error .overflow ∧
      readSortedI64 [0, 0x80, 0, 0, 0, 0, 0, 0, 0] = .error .overflow := by
  decide +kernel

end Noxu
