import Noxu.Bind.TupleInput
import Noxu.Library.ByteOrder
import Noxu.Tree.Maintenance

/-!
# Sort Keys

A key of several fields is the concatenation of their encodings: integers with the most significant
byte first and, when they are signed, with the sign bit turned over; strings and byte strings with
every zero byte escaped and two zero bytes behind them; sorted packed integers. Each of these codes
is self-delimiting and in the order of its values, so that keys of one shape **compare byte by byte
as the tuples compare field by field**.

## Main results

* `orderedCode_sortKey`: the code of every field type;
* `orderedCode_tuple`: by induction on the shape, that of every tuple;
* `composite_keys_sort_as_tuples`: what this says about keys;
* `tuple_keys_ascend`: a tree without a comparator compares keys byte by byte, so in **every run of
  writes and maintenance** the keys of its live slots ascend as their tuples do.
-/

open Noxu.Library Wire

namespace Noxu

/-! ### Fields -/

/-- The types of key fields. -/
inductive KeyType where
  | bool | u8 | u16 | u32 | u64 | i8 | i16 | i32 | i64 | string | bytes | sortedInt | sortedLong
  deriving DecidableEq, Repr

/-- The values of a field. -/
def KeyType.Value : KeyType → Type
  | .bool => Bool
  | .u8 => UInt8
  | .u16 => UInt16
  | .u32 => UInt32
  | .u64 => UInt64
  | .i8 => Int8
  | .i16 => Int16
  | .i32 => Int32
  | .i64 => Int64
  | .string => String
  | .bytes => Bytes
  | .sortedInt => Int32
  | .sortedLong => Int64

/-- The order of the values; strings compare by their bytes. -/
def KeyType.Lt : (t : KeyType) → t.Value → t.Value → Prop
  | .bool => fun a b : Bool => a < b
  | .u8 => fun a b : UInt8 => a < b
  | .u16 => fun a b : UInt16 => a < b
  | .u32 => fun a b : UInt32 => a < b
  | .u64 => fun a b : UInt64 => a < b
  | .i8 => fun a b : Int8 => a < b
  | .i16 => fun a b : Int16 => a < b
  | .i32 => fun a b : Int32 => a < b
  | .i64 => fun a b : Int64 => a < b
  | .string => fun a b : String => utf8 a < utf8 b
  | .bytes => fun a b : Bytes => a < b
  | .sortedInt => fun a b : Int32 => a < b
  | .sortedLong => fun a b : Int64 => a < b

/-! ### Writers -/

namespace TupleOutput

/-- A boolean is one byte. -/
def writeBool (val : Bool) : Bytes := [if val then 1 else 0]

/-- The bytes of an unsigned number, most significant first. -/
def writeUnsigned (w val : ℕ) : Bytes := beBytes w val

/-- The bytes of a signed number with its sign bit turned over. -/
def writeSigned (w : ℕ) (val : ℤ) : Bytes := beBytes w (asUnsigned w val ^^^ halfRange w)

/-- Bytes with every zero escaped, and the terminator. -/
def writeEscaped (val : Bytes) : Bytes :=
  val.flatMap (fun b => if b = 0x00 then [0x00, 0x01] else [b]) ++ [0x00, 0x00]

/-- A string is its UTF-8 bytes, escaped. -/
def writeString (val : String) : Bytes := writeEscaped (utf8 val)

end TupleOutput

/-! ### Readers -/

namespace TupleInput

/-- Any byte but 0 is true. -/
def readBool : TupleReader Bool := (· ≠ 0) <$> readFast

/-- Bytes of a number, each shifted to its place. -/
def readPlaces : ℕ → ℕ → TupleReader ℕ
  | 0, v => pure v
  | k + 1, v => do
    let c ← readFast
    readPlaces k (v ||| c.toNat <<< (8 * k))

/-- Read an unsigned number of `w` bytes. -/
def readUnsigned (w : ℕ) : TupleReader ℕ := readPlaces w 0

/-- Read a signed number of `w` bytes. -/
def readSigned (w : ℕ) : TupleReader ℤ :=
  (fun v => asSigned w (v ^^^ halfRange w)) <$> readUnsigned w

/-- The loop over escaped bytes: what is left of the buffer from the offset, and what is decoded. -/
def unescape (noTerminator truncated invalid : String) :
    Bytes → ℕ → Bytes → Except (Stop BindError) (Bytes × ℕ)
  | [], _, _ => .error (.error (.invalidData noTerminator))
  | b :: rest, off, decoded =>
    if b = 0x00 then
      match rest with
      | [] => .error (.error (.invalidData truncated))
      | next :: rest =>
        if next = 0x00 then .ok (decoded, off + 2)
        else if next = 0x01 then
          unescape noTerminator truncated invalid rest (off + 2) (decoded ++ [0x00])
        else .error (.error (.invalidData
          ("invalid null escape byte 0x" ++ next.toBitVec.toHex ++ " in " ++ invalid)))
    else unescape noTerminator truncated invalid rest (off + 1) (decoded ++ [b])

/-- An escaped string, refused if it is not UTF-8. -/
def readString : TupleReader String := do
  let decoded ← fun buf off => unescape "no null terminator found for string"
    "truncated null escape sequence in string" "string" (buf.drop off) off []
  ofOption (.stringEncoding decoded) (ofUtf8 decoded)

/-- Escaped bytes. -/
def readByteKey : TupleReader Bytes := fun buf off =>
  unescape "no null terminator found for Vec<u8> key" "truncated null escape in Vec<u8> key"
    "Vec<u8> key" (buf.drop off) off []

end TupleInput

open TupleInput TupleOutput

/-- The sort key of a value. -/
def encodeSortKey : (t : KeyType) → t.Value → Bytes
  | .bool => writeBool
  | .u8 => fun v : UInt8 => writeUnsigned 1 v.toNat
  | .u16 => fun v : UInt16 => writeUnsigned 2 v.toNat
  | .u32 => fun v : UInt32 => writeUnsigned 4 v.toNat
  | .u64 => fun v : UInt64 => writeUnsigned 8 v.toNat
  | .i8 => fun v : Int8 => writeSigned 1 v.toInt
  | .i16 => fun v : Int16 => writeSigned 2 v.toInt
  | .i32 => fun v : Int32 => writeSigned 4 v.toInt
  | .i64 => fun v : Int64 => writeSigned 8 v.toInt
  | .string => writeString
  | .bytes => writeEscaped
  | .sortedInt => writeSortedI32
  | .sortedLong => writeSortedI64

/-- The value of a sort key. -/
def decodeSortKey : (t : KeyType) → TupleReader t.Value
  | .bool => readBool
  | .u8 => UInt8.ofNat <$> readUnsigned 1
  | .u16 => UInt16.ofNat <$> readUnsigned 2
  | .u32 => UInt32.ofNat <$> readUnsigned 4
  | .u64 => UInt64.ofNat <$> readUnsigned 8
  | .i8 => Int8.ofInt <$> readSigned 1
  | .i16 => Int16.ofInt <$> readSigned 2
  | .i32 => Int32.ofInt <$> readSigned 4
  | .i64 => Int64.ofInt <$> readSigned 8
  | .string => readString
  | .bytes => readByteKey
  | .sortedInt => readSortedPackedInt
  | .sortedLong => readSortedPackedLong

/-! ### Numbers of fixed width -/

section Fixed

/-- One byte is read back. -/
theorem decodes_readFast (b : UInt8) : Decodes readFast [b] b := by
  intro before rest
  simp [readFast]

/-- Each byte goes to a place of its own. -/
theorem decodes_readPlaces (bs : Bytes) (c : ℕ) :
    Decodes (readPlaces bs.length (2 ^ (8 * bs.length) * c)) bs
      (2 ^ (8 * bs.length) * c + beNat bs) := by
  induction bs generalizing c with
  | nil =>
    have hnil : beNat [] = 0 := rfl
    rw [hnil]
    exact decodes_pure _
  | cons b bs ih =>
    have hb : b.toNat < 256 := b.toNat_lt
    have hpow : 2 ^ (8 * (b :: bs).length) = 2 ^ (8 * bs.length) * 256 := by
      rw [List.length_cons, Nat.mul_succ, pow_add]
      rfl
    have hplace : 2 ^ (8 * (b :: bs).length) * c ||| b.toNat <<< (8 * bs.length) =
        2 ^ (8 * bs.length) * (256 * c + b.toNat) := by
      rw [Nat.shiftLeft_eq, ← Nat.two_pow_add_eq_or_of_lt, hpow]
      · ring
      · rw [hpow, mul_comm]
        exact Nat.mul_lt_mul_of_pos_left hb (Nat.two_pow_pos _)
    have hvalue : 2 ^ (8 * (b :: bs).length) * c + beNat (b :: bs) =
        2 ^ (8 * bs.length) * (256 * c + b.toNat) + beNat bs := by
      rw [hpow, beNat_cons, pow_256]
      ring
    rw [hvalue, List.length_cons, readPlaces, ← List.singleton_append]
    refine (decodes_readFast b).bind ?_
    rw [← List.length_cons (a := b), hplace]
    exact ih _

/-- A number of a fixed width is read back. -/
theorem decodes_readUnsigned {w n : ℕ} (h : n < 256 ^ w) :
    Decodes (readUnsigned w) (writeUnsigned w n) n := by
  have hread := decodes_readPlaces (beBytes w n) 0
  rwa [length_beBytes, mul_zero, zero_add, beNat_beBytes_of_lt h] at hread

/-- Turning over the highest bit. -/
theorem xor_two_pow {n k : ℕ} (h : n < 2 ^ k) : n ^^^ 2 ^ k = n + 2 ^ k := by
  have hadd : n + 2 ^ k = 2 ^ k * 1 ||| n := by
    rw [← Nat.two_pow_add_eq_or_of_lt h, mul_one, add_comm]
  refine Nat.eq_of_testBit_eq fun i => ?_
  rw [hadd, mul_one, Nat.testBit_xor, Nat.testBit_or, Nat.testBit_two_pow]
  by_cases hi : k = i
  · have hclear : n.testBit i = false := Nat.testBit_lt_two_pow (hi ▸ h)
    simp [hi, hclear]
  · simp [hi]

/-- With the sign bit turned over, a signed number is one moved up by half the range. -/
theorem flipSign {w : ℕ} (hw : 0 < w) {v : ℤ} (hv : FitsWidth w v) :
    ∃ n : ℕ, asUnsigned w v ^^^ halfRange w = n ∧ (n : ℤ) = v + halfRange w ∧
      asSigned w (n ^^^ halfRange w) = v := by
  obtain ⟨hlo, hhi⟩ := hv
  have hpow := pow_eq_two_mul_halfRange hw
  have hflip : ∀ {m : ℕ}, m < halfRange w → m ^^^ halfRange w = m + halfRange w :=
    fun hm => xor_two_pow hm
  have hback : ∀ {m : ℕ}, m < halfRange w → (m + halfRange w) ^^^ halfRange w = m := by
    intro m hm
    rw [← hflip hm, Nat.xor_assoc, Nat.xor_self, Nat.xor_zero]
  rcases lt_or_ge v 0 with hneg | hpos
  · have hmod : v % (256 ^ w : ℕ) = v + (256 ^ w : ℕ) := by
      rw [← Int.add_emod_right]
      exact Int.emod_eq_of_lt (by omega) (by omega)
    have hun : asUnsigned w v = (v + halfRange w).toNat + halfRange w := by
      rw [asUnsigned, hmod]
      omega
    refine ⟨(v + halfRange w).toNat, by rw [hun, hback (by omega)], by omega, ?_⟩
    rw [hflip (by omega), asSigned_of_le (by omega)]
    omega
  · have hun : asUnsigned w v = v.toNat := by
      rw [asUnsigned, Int.emod_eq_of_lt hpos (by omega)]
    refine ⟨v.toNat + halfRange w, by rw [hun, hflip (by omega)], by omega, ?_⟩
    rw [hback (by omega), asSigned_of_lt (by omega)]
    omega

/-- Values that integers tell apart are totally ordered by them. -/
theorem total_of_injective {α : Type} {f : α → ℤ} (hf : ∀ a b, f a = f b → a = b) (a b : α) :
    f a < f b ∨ a = b ∨ f b < f a :=
  (Int.lt_trichotomy (f a) (f b)).imp_right (Or.imp_left (hf a b))

/-- **Unsigned numbers.** -/
theorem orderedCode_unsigned {α : Type} (w : ℕ) {toNat : α → ℕ} {ofNat : ℕ → α}
    (hlt : ∀ a, toNat a < 256 ^ w) (hof : ∀ a, ofNat (toNat a) = a) :
    OrderedCode (fun a => writeUnsigned w (toNat a)) (ofNat <$> readUnsigned w)
      (fun a b => toNat a < toNat b) where
  decodes a := by
    have hread := (decodes_readUnsigned (hlt a)).map ofNat
    rwa [hof] at hread
  below hab := belowAt_beBytes hab (hlt _)
  total a b := by
    rcases Nat.lt_trichotomy (toNat a) (toNat b) with hab | hab | hab
    · exact .inl hab
    · exact .inr (.inl (by rw [← hof a, hab, hof]))
    · exact .inr (.inr hab)

/-- **Signed numbers.** -/
theorem orderedCode_signed {α : Type} {w : ℕ} (hw : 0 < w) {toInt : α → ℤ} {ofInt : ℤ → α}
    (hfits : ∀ a, FitsWidth w (toInt a)) (hof : ∀ a, ofInt (toInt a) = a) :
    OrderedCode (fun a => writeSigned w (toInt a)) (ofInt <$> readSigned w)
      (fun a b => toInt a < toInt b) where
  decodes a := by
    obtain ⟨n, hn, hval, hback⟩ := flipSign hw (hfits a)
    have hlt : n < 256 ^ w := by
      have := (hfits a).2
      have hpow := pow_eq_two_mul_halfRange hw
      omega
    have hread := ((decodes_readUnsigned hlt).map
      fun v => asSigned w (v ^^^ halfRange w)).map ofInt
    rw [hback, hof] at hread
    rwa [writeSigned, hn]
  below {a b} hab := by
    obtain ⟨n, hn, hval, -⟩ := flipSign hw (hfits a)
    obtain ⟨m, hm, hval', -⟩ := flipSign hw (hfits b)
    have hpow := pow_eq_two_mul_halfRange hw
    have hhi := (hfits b).2
    rw [writeSigned, writeSigned, hn, hm]
    exact belowAt_beBytes (by omega) (by omega)
  total := total_of_injective fun a b hab => by rw [← hof a, hab, hof]

end Fixed

/-! ### Escaped bytes -/

section Escaped

variable {noTerminator truncated invalid : String}

/-- A byte that is not 0 stands for itself. -/
theorem unescape_of_ne {b : UInt8} (hb : b ≠ 0x00) (rest : Bytes) (off : ℕ)
    (decoded : Bytes) : unescape noTerminator truncated invalid (b :: rest) off decoded =
      unescape noTerminator truncated invalid rest (off + 1) (decoded ++ [b]) := by
  cases rest with
  | nil => simp only [unescape, if_neg hb]
  | cons next rest => rw [unescape, if_neg hb]

/-- The loop takes escaped bytes up to the terminator. -/
theorem unescape_write (val : Bytes) (rest : Bytes) (off : ℕ) (decoded : Bytes) :
    unescape noTerminator truncated invalid (writeEscaped val ++ rest) off decoded =
      .ok (decoded ++ val, off + (writeEscaped val).length) := by
  induction val generalizing off decoded with
  | nil => simp [writeEscaped, unescape]
  | cons b val ih =>
    by_cases hb : b = 0x00
    · have hwrite : writeEscaped (b :: val) = 0x00 :: 0x01 :: writeEscaped val := by
        simp [writeEscaped, hb]
      rw [hwrite, List.cons_append, List.cons_append, unescape, if_pos rfl]
      simp only [show ¬ (0x01 : UInt8) = 0x00 by decide, if_false, if_true, ih]
      simp [hb]
      omega
    · have hwrite : writeEscaped (b :: val) = b :: writeEscaped val := by
        simp [writeEscaped, hb]
      rw [hwrite, List.cons_append, unescape_of_ne hb, ih]
      simp
      omega

/-- What is escaped is read back. -/
theorem decodes_unescape (val : Bytes) :
    Decodes (fun buf off => unescape noTerminator truncated invalid (buf.drop off) off [])
      (writeEscaped val) val := by
  intro before rest
  dsimp only
  rw [List.drop_left, unescape_write]
  rfl

/-- A byte that is not 0 is positive. -/
theorem uint8_pos {b : UInt8} (h : b ≠ 0) : 0 < b := UInt8.pos_iff_ne_zero.mpr h

/-- **Escaping keeps the order**, prefixes included: the terminator is below every escape and every
other byte. -/
theorem belowAt_writeEscaped {as bs : Bytes} (h : as < bs) :
    BelowAt (writeEscaped as) (writeEscaped bs) := by
  induction h with
  | nil =>
    rename_i b bs
    by_cases hb : b = 0
    · simp only [writeEscaped, hb]
      exact (belowAt_of_lt (by decide) _ _).cons _
    · simp only [writeEscaped, List.flatMap_cons, hb, if_false]
      exact belowAt_of_lt (uint8_pos hb) _ _
  | @rel a as b bs hab =>
    have hb : b ≠ 0 := UInt8.pos_iff_ne_zero.mp (UInt8.lt_of_le_of_lt UInt8.zero_le hab)
    by_cases ha : a = 0
    · simp only [writeEscaped, List.flatMap_cons, ha, hb, if_true, if_false]
      exact belowAt_of_lt (uint8_pos hb) _ _
    · simp only [writeEscaped, List.flatMap_cons, ha, hb, if_false]
      exact belowAt_of_lt hab _ _
  | cons _ ih =>
    rename_i a as bs _
    simp only [writeEscaped, List.flatMap_cons, List.append_assoc] at ih ⊢
    exact ih.append_left _

/-- The order of byte strings is total. -/
theorem bytes_total (a b : Bytes) : a < b ∨ a = b ∨ b < a := by
  by_cases hab : a < b
  · exact .inl hab
  · by_cases hba : b < a
    · exact .inr (.inr hba)
    · exact .inr (.inl (List.le_antisymm hba hab))

/-- Escaped bytes keep the order. -/
theorem orderedCode_bytes : OrderedCode writeEscaped readByteKey (fun a b => a < b) where
  decodes := decodes_unescape
  below := belowAt_writeEscaped
  total := bytes_total

/-- Escaped strings keep the order of their bytes. -/
theorem orderedCode_string :
    OrderedCode writeString readString (fun a b => utf8 a < utf8 b) where
  decodes v := (decodes_unescape (utf8 v)).bind_nil (decodes_ofOption (ofUtf8_utf8 v))
  below := belowAt_writeEscaped
  total a b := by
    rcases bytes_total (utf8 a) (utf8 b) with hab | hab | hab
    · exact .inl hab
    · refine .inr (.inl (Option.some.inj ?_))
      rw [← ofUtf8_utf8 a, hab, ofUtf8_utf8]
    · exact .inr (.inr hab)

end Escaped

/-! ### Every field -/

/-- Booleans keep their order. -/
theorem orderedCode_bool : OrderedCode writeBool readBool (fun a b => a < b) where
  decodes v := by
    cases v with
    | false => exact (decodes_readFast 0).map _
    | true => exact (decodes_readFast 1).map _
  below {a b} hab := by
    obtain ⟨rfl, rfl⟩ := Bool.lt_iff.mp hab
    exact belowAt_of_lt (by decide) _ _
  total a b := by cases a <;> cases b <;> decide

/-- A reader that ends like the other on the bytes of a value takes them. -/
theorem Mirrors.decodes {α : Type} {p : TupleReader α} {q : PackedReader α} {bs : Bytes}
    {a : α} (h : Mirrors p q) (hread : ∀ rest, q (bs ++ rest) = .ok (a, rest)) :
    Decodes p bs a := by
  intro before rest
  have halike := h (before ++ (bs ++ rest)) before.length
  rw [List.drop_left, hread] at halike
  rcases hrun : p (before ++ (bs ++ rest)) before.length with (_ | _) | ⟨b, off⟩ <;>
    rw [hrun] at halike
  · exact halike.elim
  · exact halike.elim
  · obtain ⟨rfl, n, hn, rfl, hrest⟩ := halike
    rw [List.drop_left] at hn hrest
    have hlen := congrArg List.length hrest
    rw [List.length_drop, List.length_append] at hlen
    rw [List.length_append] at hn
    rw [show n = bs.length by omega]

/-- Sorted packed 32-bit integers keep their order. -/
theorem orderedCode_sortedInt :
    OrderedCode writeSortedI32 readSortedPackedInt (fun a b => a < b) where
  decodes v := ((mirrors_readSortedPacked 4).map Int32.ofInt).decodes (readSortedI32_write v)
  below := belowAt_writeSortedI32
  total a b := by
    simp only [Int32.lt_iff_toInt_lt]
    exact total_of_injective (fun _ _ => Int32.toInt_inj.mp) a b

/-- So do the 64-bit ones. -/
theorem orderedCode_sortedLong :
    OrderedCode writeSortedI64 readSortedPackedLong (fun a b => a < b) where
  decodes v := ((mirrors_readSortedPacked 8).map Int64.ofInt).decodes (readSortedI64_write v)
  below := belowAt_writeSortedI64
  total a b := by
    simp only [Int64.lt_iff_toInt_lt]
    exact total_of_injective (fun _ _ => Int64.toInt_inj.mp) a b

/-- **The code of every field type.** -/
theorem orderedCode_sortKey (t : KeyType) :
    OrderedCode (encodeSortKey t) (decodeSortKey t) t.Lt := by
  cases t with
  | bool => exact orderedCode_bool
  | u8 => exact orderedCode_unsigned 1 UInt8.toNat_lt fun a => UInt8.ofNat_toNat
  | u16 => exact orderedCode_unsigned 2 UInt16.toNat_lt fun a => UInt16.ofNat_toNat
  | u32 => exact orderedCode_unsigned 4 UInt32.toNat_lt fun a => UInt32.ofNat_toNat
  | u64 => exact orderedCode_unsigned 8 UInt64.toNat_lt fun a => UInt64.ofNat_toNat
  | i8 =>
    simp only [KeyType.Lt, Int8.lt_iff_toInt_lt]
    exact orderedCode_signed (by norm_num) (fun a => ⟨a.le_toInt, a.toInt_lt⟩) Int8.ofInt_toInt
  | i16 =>
    simp only [KeyType.Lt, Int16.lt_iff_toInt_lt]
    exact orderedCode_signed (by norm_num) (fun a => ⟨a.le_toInt, a.toInt_lt⟩) Int16.ofInt_toInt
  | i32 =>
    simp only [KeyType.Lt, Int32.lt_iff_toInt_lt]
    exact orderedCode_signed (by norm_num) fitsWidth_toInt32 Int32.ofInt_toInt
  | i64 =>
    simp only [KeyType.Lt, Int64.lt_iff_toInt_lt]
    exact orderedCode_signed (by norm_num) fitsWidth_toInt64 Int64.ofInt_toInt
  | string => exact orderedCode_string
  | bytes => exact orderedCode_bytes
  | sortedInt => exact orderedCode_sortedInt
  | sortedLong => exact orderedCode_sortedLong

/-! ### Tuples of fields -/

/-- The tuples of a shape. -/
def KeyTuple : List KeyType → Type
  | [] => Unit
  | t :: ts => t.Value × KeyTuple ts

/-- The keys of a tuple, one after the other. -/
def encodeTuple : (ts : List KeyType) → KeyTuple ts → Bytes
  | [] => fun _ => []
  | t :: ts => fun v => encodeSortKey t v.1 ++ encodeTuple ts v.2

/-- The tuple that they stand for. -/
def decodeTuple : (ts : List KeyType) → TupleReader (KeyTuple ts)
  | [] => pure ()
  | t :: ts => do
    let v ← decodeSortKey t
    let vs ← decodeTuple ts
    pure (v, vs)

/-- The first field in which tuples differ decides. -/
def KeyTuple.Lt : (ts : List KeyType) → KeyTuple ts → KeyTuple ts → Prop
  | [] => fun _ _ => False
  | t :: ts => fun v u => t.Lt v.1 u.1 ∨ v.1 = u.1 ∧ KeyTuple.Lt ts v.2 u.2

/-- **The code of every tuple**, by induction on the shape. -/
theorem orderedCode_tuple (ts : List KeyType) :
    OrderedCode (encodeTuple ts) (decodeTuple ts) (KeyTuple.Lt ts) := by
  induction ts with
  | nil => exact ⟨fun _ => decodes_pure (), fun h => h.elim, fun _ _ => .inr (.inl rfl)⟩
  | cons t ts ih => exact (orderedCode_sortKey t).pair ih

/-- **Composite keys sort as tuples.** The encodings of two tuples of one shape compare as the
tuples do, none is a proper prefix of another, and a tuple is read back from wherever its bytes
stand, up to their end. -/
theorem composite_keys_sort_as_tuples (ts : List KeyType) (a b : KeyTuple ts) :
    (encodeTuple ts a < encodeTuple ts b ↔ KeyTuple.Lt ts a b) ∧
    (encodeTuple ts a = encodeTuple ts b ↔ a = b) ∧
    (encodeTuple ts a <+: encodeTuple ts b ↔ a = b) ∧
    ∀ before rest, decodeTuple ts (before ++ (encodeTuple ts a ++ rest)) before.length =
      .ok (a, before.length + (encodeTuple ts a).length) := by
  have hcode := orderedCode_tuple ts
  refine ⟨hcode.lt_iff a b, ⟨fun heq => ?_, congrArg _⟩, hcode.prefix_iff a b, hcode.decodes a⟩
  exact (hcode.prefix_iff a b).mp (heq ▸ List.prefix_rfl)

example : encodeTuple [.string, .i16] ("a", (5 : Int16), ()) <
    encodeTuple [.string, .i16] ("a\x00", (-2 : Int16), ()) := by
  decide +kernel

/-! ### Trees with composite keys -/

/-- The comparison of byte strings is their order. -/
theorem lt_of_compare_eq_lt {a b : Key} (h : compare a b = .lt) : a < b := by
  induction a generalizing b with
  | nil =>
    cases b with
    | nil => cases h
    | cons y b => exact List.nil_lt_cons y b
  | cons x a ih =>
    cases b with
    | nil => cases h
    | cons y b =>
      rw [List.compare_cons_cons, Ordering.then_eq_lt, Std.compare_eq_lt,
        Std.compare_eq_iff_eq] at h
      exact List.cons_lt_cons_iff.mpr (h.imp_right (And.imp_right ih))

/-- The live slots are those of the keys with a value. -/
theorem Holds.mem_live_keys {t : Tree} {m : Key → Option Bytes} (hm : Holds t m)
    [Std.LawfulEqCmp (keyCmp t.config.keyComparator)] (k : Key) :
    k ∈ (t.slots.filter BinSlot.isLive).map BinSlot.key ↔ (m k).isSome := by
  have hlive : (m k).isSome = (t.liveSlot k).isSome := by
    simpa using (congrArg Option.isSome (hm.live k)).symm
  rw [hlive, Tree.liveSlot, Tree.slotOf, ← lookup_filter_live hm.wf.sorted, lookup,
    List.find?_isSome, List.mem_map]
  simp [Std.LawfulEqCmp.compare_eq_iff_eq]

/-- **A tree with composite keys is scanned in the order of the tuples**, after writes and safe
maintenance in any order: the keys of its live slots are the encodings of the tuples that have a
value, and these ascend. -/
theorem tuple_keys_ascend (ts : List KeyType) (config : TreeConfig)
    (hconfig : config.Sound) (hbytes : config.keyComparator = none)
    (evs : List TreeEvent)
    (hok : Meets Tree.step (fun t e => e.safe t = true) (Tree.new config) evs)
    (hkeys : ∀ op ∈ evs.filterMap TreeEvent.op?, op.key ∈ Set.range (encodeTuple ts)) :
    ∃ (t : Tree) (tuples : List (KeyTuple ts)), run Tree.step (Tree.new config) evs = some t ∧
      (t.slots.filter BinSlot.isLive).map BinSlot.key = tuples.map (encodeTuple ts) ∧
      tuples.Pairwise (KeyTuple.Lt ts) ∧
      ∀ a, a ∈ tuples ↔
        (lastValue (keyCmp none) (evs.filterMap TreeEvent.op?) (encodeTuple ts a)).isSome := by
  obtain ⟨t, hrun, hm, hc⟩ := (holds_new hconfig).events hconfig.room hok
  have hcmp : t.config.keyComparator = none := hc ▸ hbytes
  have hlawful : Std.LawfulEqCmp (keyCmp t.config.keyComparator) := by
    rw [hcmp]
    infer_instance
  rw [← hc, hcmp, foldl_applyToMap_empty] at hm
  have hcode := orderedCode_tuple ts
  -- a key with a value was written, so it is the encoding of a tuple
  have hrange : ∀ k ∈ (t.slots.filter BinSlot.isLive).map BinSlot.key,
      k ∈ Set.range (encodeTuple ts) := by
    intro k hk
    obtain ⟨v, hv⟩ := Option.isSome_iff_exists.mp ((hm.mem_live_keys k).mp hk)
    obtain ⟨op, hop, -⟩ := Option.bind_eq_some_iff.mp hv
    obtain ⟨hmem, hkey⟩ := List.mem_filter.mp (List.mem_of_getLast? hop)
    have heq : op.key = k := Std.LawfulEqCmp.eq_of_compare (of_decide_eq_true hkey)
    exact heq ▸ hkeys op hmem
  obtain ⟨tuples, htuples⟩ := (Set.range_list_map (encodeTuple ts)).ge hrange
  refine ⟨t, tuples, hrun, htuples.symm, ?_, fun a => ?_⟩
  · have hsorted := hm.wf.sorted.sublist (List.filter_sublist (p := BinSlot.isLive))
    rw [hcmp] at hsorted
    have hmap : (tuples.map (encodeTuple ts)).Pairwise (compare · · = .lt) :=
      htuples ▸ List.pairwise_map.mpr hsorted
    exact (List.pairwise_map.mp hmap).imp fun hlt =>
      (hcode.lt_iff _ _).mp (lt_of_compare_eq_lt hlt)
  · have hinj : (encodeTuple ts).Injective := fun a b heq =>
      (hcode.prefix_iff a b).mp (heq ▸ List.prefix_rfl)
    rw [← hm.mem_live_keys, ← htuples, List.mem_map_of_injective hinj]

/-- The later key is the smaller one. -/
theorem signed_keys_ascend :
    ∃ (t : Tree) (tuples : List (KeyTuple [.i8])),
      (t.slots.filter BinSlot.isLive).map BinSlot.key = tuples.map (encodeTuple [.i8]) ∧
      tuples.Pairwise (KeyTuple.Lt [.i8]) ∧ ((-1 : Int8), ()) ∈ tuples := by
  obtain ⟨t, tuples, -, hmap, hlt, hmem⟩ := tuple_keys_ascend [.i8] nodesOfFour
    ⟨by decide, by decide⟩ rfl
    [.write (.insert none [129] [1] 0), .write (.insert none [127] [2] 0)] (by decide +kernel)
    (by simpa [TreeEvent.op?, TreeOp.key] using ⟨⟨((1 : Int8), ()), rfl⟩, ((-1 : Int8), ()), rfl⟩)
  exact ⟨t, tuples, hmap, hlt, (hmem _).mpr rfl⟩

end Noxu
