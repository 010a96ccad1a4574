import Mathlib.Data.Nat.Digits.Lemmas
import Mathlib.Tactic.Basic

/-!
# Byte Strings and Their Readers

Fixed-width numbers as byte strings, in both byte orders, and readers that take values off
the front of a byte string and fail when it is too short. A format is an encoder together
with a reader; that the reader undoes the encoder is the relation `Reads`, which composes
along the structure of the reader, so that the round trip of a record follows from those of
its fields.

## Main results

* `reads_readBe`: a number that fits its width is read back;
* `Reads.bind`: readers in sequence read concatenated fields;
* `reads_readMany`: a counted repetition reads a concatenation of encodings;
* `ofUtf8_utf8`, `utf8_of_ofUtf8`: strings as their UTF-8 bytes; not every byte string is one.
-/

namespace Noxu.Library

/-- A byte string. -/
abbrev Bytes := List UInt8

/-! ### Numbers -/

/-- The low `w` bytes of a number, least significant first. -/
def leBytes : ℕ → ℕ → Bytes
  | 0, _ => []
  | w + 1, n => UInt8.ofNat n :: leBytes w (n / 256)

/-- The number a byte string denotes, least significant byte first. -/
def leNat (bs : Bytes) : ℕ := Nat.ofDigits 256 (bs.map UInt8.toNat)

/-- The low `w` bytes of a number, most significant first. -/
def beBytes (w n : ℕ) : Bytes := (leBytes w n).reverse

/-- The number a byte string denotes, most significant byte first. -/
def beNat (bs : Bytes) : ℕ := leNat bs.reverse

@[simp] theorem length_leBytes (w n : ℕ) : (leBytes w n).length = w := by
  induction w generalizing n with
  | zero => rfl
  | succ w ih => simp [leBytes, ih]

@[simp] theorem length_beBytes (w n : ℕ) : (beBytes w n).length = w := by
  simp [beBytes]

@[simp] theorem leNat_cons (b : UInt8) (bs : Bytes) :
    leNat (b :: bs) = b.toNat + 256 * leNat bs := by
  simp [leNat, Nat.ofDigits_cons]

/-- The low bytes of a number denote it up to its width. -/
theorem leNat_leBytes (w n : ℕ) : leNat (leBytes w n) = n % 256 ^ w := by
  induction w generalizing n with
  | zero => simp [leBytes, leNat, Nat.mod_one]
  | succ w ih =>
    have hbyte : (UInt8.ofNat n).toNat = n % 256 := UInt8.toNat_ofNat'
    rw [leBytes, leNat_cons, ih, hbyte, pow_succ', Nat.mod_mul]

/-- A byte string denotes a number below its width. -/
theorem leNat_lt (bs : Bytes) : leNat bs < 256 ^ bs.length := by
  induction bs with
  | nil => simp [leNat]
  | cons b bs ih =>
    have hb := b.toNat_lt
    rw [leNat_cons, List.length_cons, Nat.pow_succ']
    omega

theorem beNat_lt (bs : Bytes) : beNat bs < 256 ^ bs.length := by
  simpa [beNat] using leNat_lt bs.reverse

/-- A number that fits its width is its own value. -/
theorem leNat_leBytes_of_lt {w n : ℕ} (h : n < 256 ^ w) : leNat (leBytes w n) = n := by
  rw [leNat_leBytes, Nat.mod_eq_of_lt h]

theorem beNat_beBytes_of_lt {w n : ℕ} (h : n < 256 ^ w) : beNat (beBytes w n) = n := by
  simp [beNat, beBytes, leNat_leBytes_of_lt h]

/-! ### Readers -/

/-- A reader takes a value off the front of a byte string, or fails. -/
abbrev Reader := StateT Bytes Option

/-- Take a number of bytes. -/
def readBytes (n : ℕ) : Reader Bytes := fun bs =>
  if bs.length < n then none else some (bs.take n, bs.drop n)

/-- Take a big-endian number of a width. -/
def readBe (w : ℕ) : Reader ℕ := beNat <$> readBytes w

/-- Take one byte. -/
def readByte : Reader UInt8 := fun bs =>
  match bs with
  | [] => none
  | b :: bs => some (b, bs)

/-- Repeat a reader a number of times. -/
def readMany {α : Type} (p : Reader α) : ℕ → Reader (List α)
  | 0 => pure []
  | n + 1 => do
    let a ← p
    let as ← readMany p n
    pure (a :: as)

/-- The reader takes exactly these bytes off the front of any string, and returns this
value. -/
def Reads {α : Type} (p : Reader α) (bs : Bytes) (a : α) : Prop :=
  ∀ rest, p (bs ++ rest) = some (a, rest)

section Reads

variable {α β : Type} {p : Reader α} {f : α → Reader β} {a : α} {b : β}
variable {bs cs : Bytes}

theorem reads_pure (a : α) : Reads (pure a : Reader α) [] a := fun _ => rfl

/-- Readers in sequence read concatenated fields. -/
theorem Reads.bind (hp : Reads p bs a) (hf : Reads (f a) cs b) :
    Reads (p >>= f) (bs ++ cs) b := by
  intro rest
  have hrun : (p >>= f) (bs ++ cs ++ rest) =
      (p (bs ++ cs ++ rest)).bind fun r => f r.1 r.2 := rfl
  rw [hrun, List.append_assoc, hp, Option.bind_some, hf]

/-- A reader that takes nothing more may follow. -/
theorem Reads.bind_nil (hp : Reads p bs a) (hf : Reads (f a) [] b) : Reads (p >>= f) bs b := by
  simpa using hp.bind hf

theorem Reads.map (g : α → β) (hp : Reads p bs a) : Reads (g <$> p) bs (g a) := by
  intro rest
  have hrun : (g <$> p) (bs ++ rest) = (p (bs ++ rest)).map fun r => (g r.1, r.2) := by
    simp only [Functor.map, StateT.map]
    cases p (bs ++ rest) <;> rfl
  rw [hrun, hp, Option.map_some]

theorem reads_readBytes (bs : Bytes) : Reads (readBytes bs.length) bs bs := by
  intro rest
  simp [readBytes]

theorem reads_readByte (b : UInt8) : Reads readByte [b] b := fun _ => rfl

/-- **A big-endian number that fits its width is read back.** -/
theorem reads_readBe {w n : ℕ} (h : n < 256 ^ w) : Reads (readBe w) (beBytes w n) n := by
  have hbytes := (reads_readBytes (beBytes w n)).map beNat
  rwa [length_beBytes, beNat_beBytes_of_lt h] at hbytes

/-- **A counted repetition reads a concatenation of encodings.** -/
theorem reads_readMany {γ : Type} {enc : γ → Bytes} {dec : γ → α} (xs : List γ)
    (h : ∀ x ∈ xs, Reads p (enc x) (dec x)) :
    Reads (readMany p xs.length) (xs.flatMap enc) (xs.map dec) := by
  induction xs with
  | nil => exact reads_pure []
  | cons x xs ih =>
    have hrest := ih fun y hy => h y (List.mem_cons_of_mem _ hy)
    exact (h x List.mem_cons_self).bind (hrest.bind_nil (reads_pure _))

end Reads

/-! ### Text -/

/-- The UTF-8 bytes of a string. -/
def utf8 (s : String) : Bytes := s.toByteArray.data.toList

/-- The string with these UTF-8 bytes, if they are well formed. -/
def ofUtf8 (bs : Bytes) : Option String := String.fromUTF8? ⟨bs.toArray⟩

/-- A string is read back from its bytes. -/
theorem ofUtf8_utf8 (s : String) : ofUtf8 (utf8 s) = some s := by
  have hbytes : (⟨(utf8 s).toArray⟩ : ByteArray) = s.toByteArray := rfl
  rw [ofUtf8, hbytes, String.fromUTF8?, dif_pos s.isValidUTF8]
  rfl

/-- Bytes that are read as a string are the bytes of the string. -/
theorem utf8_of_ofUtf8 {bs : Bytes} {s : String} (h : ofUtf8 bs = some s) : utf8 s = bs := by
  rw [ofUtf8, String.fromUTF8?] at h
  split at h
  · obtain rfl := Option.some.inj h
    rfl
  · cases h

end Noxu.Library
