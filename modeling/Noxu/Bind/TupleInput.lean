import Noxu.Library.Wire
import Noxu.Util.SortedPacked

/-!
# The Reader of Tuples

`TupleInput` reads the fields of a tuple from a buffer, among them the packed and the sorted
integers, with code of its own beside the readers of the utility crate. The sorted readers are the
same program. The packed readers **stop at the width of the result** where the others go on to the
shift that overflows, and they share the arithmetic behind it.

## Main results

* `mirrors_readSortedPacked`: the two sorted readers end alike on all bytes;
* `agree_readPacked_iff`: the bytes on which the two packed readers agree;
* `decoders_agree_iff`: all four pairs.
-/

open Noxu.Library

namespace Noxu

/-! ### Reading a buffer -/

/-- The errors of a binding; of a string that is no UTF-8 the bytes, which the message
describes. -/
inductive BindError where
  | bufferUnderflow (needed available : ℕ)
  | invalidData (message : String)
  | stringEncoding (decoded : Bytes)
  deriving DecidableEq, Repr

/-- A read of the buffer at the offset. -/
abbrev TupleReader := Wire BindError

namespace TupleInput

/-- `read_fast`: one byte. -/
def readFast : TupleReader UInt8 := fun buf off =>
  match buf[off]? with
  | none => .error (.error (.bufferUnderflow 1 0))
  | some b => .ok (b, off + 1)

/-- At the end of the buffer. -/
theorem readFast_of_drop_nil {buf : Bytes} {off : ℕ} (h : buf.drop off = []) :
    readFast buf off = .error (.error (.bufferUnderflow 1 0)) := by
  have hnone : buf[off]? = none := List.getElem?_eq_none (List.drop_eq_nil_iff.mp h)
  rw [readFast, hnone]

/-- In front of a byte. -/
theorem readFast_of_drop_cons {buf rest : Bytes} {off : ℕ} {b : UInt8}
    (h : buf.drop off = b :: rest) : readFast buf off = .ok (b, off + 1) := by
  have hsome : buf[off]? = some b := by
    rw [← List.head?_drop, h]
    rfl
  rw [readFast, hsome]

/-- The result of an operation in `w` bytes, which panics on an overflow. -/
def checkedWidth (w : ℕ) (v : ℤ) : TupleReader ℤ := fun _ off =>
  if FitsWidth w v then .ok (v, off) else .error .panicked

/-- The value bytes after the first, each under the test that there is one more; `k` of these tests
are nested. -/
def readMoreBytes (w byteLen : ℕ) : ℕ → ℕ → ℕ → TupleReader ℕ
  | 0, _, value => pure value
  | k + 1, i, value =>
    if i < byteLen then do
      let b ← readFast
      readMoreBytes w byteLen k (i + 1) (value ||| (b.toNat <<< (8 * i)) % 256 ^ w)
    else pure value

/-- The value bytes, least significant first. -/
def readValueBytes (w byteLen : ℕ) : TupleReader ℕ := do
  let b ← readFast
  readMoreBytes w byteLen (w - 1) 1 b.toNat

/-- Read a packed integer. -/
def readPackedWidth (w : ℕ) : TupleReader ℤ := do
  let b ← readFast
  let b1 := asI8 b
  if b1 < -119 then do
    let neg ← checkedWidth 1 (-b1)
    let value ← readValueBytes w (neg.toNat - 119)
    let m ← checkedWidth w (-asSigned w value)
    checkedWidth w (m - 119)
  else if 119 < b1 then do
    let value ← readValueBytes w (b1.toNat - 119)
    checkedWidth w (asSigned w value + 119)
  else pure b1

/-- `read_packed_int`. -/
def readPackedInt : TupleReader Int32 := Int32.ofInt <$> readPackedWidth 4

/-- `read_packed_long`. -/
def readPackedLong : TupleReader Int64 := Int64.ofInt <$> readPackedWidth 8

/-- Collect value bytes, most significant first. -/
def readShiftedBytes (w : ℕ) : ℕ → ℕ → TupleReader ℕ
  | 0, raw => pure raw
  | k + 1, raw => do
    let b ← readFast
    readShiftedBytes w k ((raw <<< 8) % 256 ^ w ||| b.toNat)

/-- Read a sorted packed integer. -/
def readSortedPackedWidth (w : ℕ) : TupleReader ℤ := do
  let b1 ← readFast
  if b1.toNat < 0x08 then do
    let raw ← readShiftedBytes w (0x08 - b1.toNat) (256 ^ w - 1)
    checkedWidth w (asSigned w raw - 119)
  else if 0xF7 < b1.toNat then do
    let raw ← readShiftedBytes w (b1.toNat - 0xF7) 0
    checkedWidth w (asSigned w raw + 121)
  else pure (b1.toNat - 127)

/-- `read_sorted_packed_int`. -/
def readSortedPackedInt : TupleReader Int32 := Int32.ofInt <$> readSortedPackedWidth 4

/-- `read_sorted_packed_long`. -/
def readSortedPackedLong : TupleReader Int64 := Int64.ofInt <$> readSortedPackedWidth 8

end TupleInput

/-! ### Two readers that end alike -/

/-- A read from the offset and a read of the bytes behind it end alike: with one value and as many
bytes taken, both with an error, or both with an overflow. -/
def EndsAlike {α : Type} (buf : Bytes) (off : ℕ) :
    Except (Stop BindError) (α × ℕ) → Except ReadFault (α × Bytes) → Prop
  | .ok (a, off'), .ok (b, rest) =>
    a = b ∧ ∃ n ≤ (buf.drop off).length, off' = off + n ∧ rest = (buf.drop off).drop n
  | .error (.error _), .error .unexpectedEof => True
  | .error .panicked, .error .overflow => True
  | _, _ => False

/-- The readers end alike on every buffer. -/
def Mirrors {α : Type} (p : TupleReader α) (q : PackedReader α) : Prop :=
  ∀ buf off, EndsAlike buf off (p buf off) (q (buf.drop off))

section Mirrors

open TupleInput

variable {α β : Type} {p : TupleReader α} {q : PackedReader α} {w : ℕ}

/-- Readers that read nothing. -/
theorem mirrors_pure (a : α) : Mirrors (pure a : TupleReader α) (pure a : PackedReader α) :=
  fun _ _ => ⟨rfl, 0, Nat.zero_le _, rfl, rfl⟩

/-- One byte. -/
theorem mirrors_readFast : Mirrors readFast readExactByte := by
  intro buf off
  cases hbuf : buf.drop off with
  | nil =>
    rw [readFast_of_drop_nil hbuf]
    trivial
  | cons b rest =>
    rw [readFast_of_drop_cons hbuf]
    exact ⟨rfl, 1, by simp [hbuf], rfl, by rw [hbuf]; rfl⟩

/-- The check of a width. -/
theorem mirrors_checkedWidth (v : ℤ) : Mirrors (checkedWidth w v) (checked w v) := by
  intro buf off
  rw [checkedWidth, checked]
  split
  · exact ⟨rfl, 0, Nat.zero_le _, rfl, rfl⟩
  · trivial

/-- The bytes taken before a read count with its own. -/
theorem EndsAlike.shift {buf : Bytes} {off n : ℕ} {x : Except (Stop BindError) (α × ℕ)}
    {y : Except ReadFault (α × Bytes)} (h : EndsAlike buf (off + n) x y)
    (hn : n ≤ (buf.drop off).length) : EndsAlike buf off x y := by
  rcases x with stop | ⟨c, off'⟩ <;> rcases y with fault | ⟨d, rest⟩
  · cases stop <;> cases fault <;> exact h
  · cases stop <;> exact h.elim
  · exact h.elim
  · obtain ⟨rfl, m, hm, rfl, rfl⟩ := h
    rw [← List.drop_drop, List.length_drop] at hm
    exact ⟨rfl, n + m, by omega, by omega, by rw [List.drop_drop, List.drop_drop, add_assoc]⟩

/-- Ends that agree do so after a conversion. -/
theorem EndsAlike.map {buf : Bytes} {off : ℕ} {x : Except (Stop BindError) (α × ℕ)}
    {y : Except ReadFault (α × Bytes)} (conv : α → β) (h : EndsAlike buf off x y) :
    EndsAlike buf off (x.map fun r => (conv r.1, r.2)) (y.map fun r => (conv r.1, r.2)) := by
  rcases x with stop | ⟨a, off'⟩ <;> rcases y with fault | ⟨b, rest⟩
  · cases stop <;> cases fault <;> exact h
  · cases stop <;> exact h.elim
  · exact h.elim
  · exact ⟨congrArg conv h.1, h.2⟩

/-- **Readers in a row mirror each other** if their parts do. -/
theorem Mirrors.bind {f : α → TupleReader β} {g : α → PackedReader β} (hp : Mirrors p q)
    (hf : ∀ a, Mirrors (f a) (g a)) : Mirrors (p >>= f) (q >>= g) := by
  intro buf off
  have hfirst := hp buf off
  rw [Wire.bind_apply]
  rcases hrun : p buf off with stop | ⟨a, off'⟩ <;>
    rcases hread : q (buf.drop off) with fault | ⟨b, rest⟩ <;> rw [hrun, hread] at hfirst
  · rw [PackedReader.bind_error hread]
    cases stop <;> cases fault <;> exact hfirst
  · cases stop <;> exact hfirst.elim
  · exact hfirst.elim
  · obtain ⟨rfl, n, hn, rfl, rfl⟩ := hfirst
    rw [PackedReader.bind_ok hread]
    have hnext := hf a buf (off + n)
    rw [← List.drop_drop] at hnext
    exact hnext.shift hn

/-- A conversion of what is read. -/
theorem Mirrors.map (conv : α → β) (hp : Mirrors p q) : Mirrors (conv <$> p) (conv <$> q) := by
  intro buf off
  rw [Wire.map_apply, PackedReader.map_apply]
  exact (hp buf off).map conv

/-- A choice that does not depend on the bytes. -/
theorem Mirrors.ite {p' : TupleReader α} {q' : PackedReader α} {c : Prop} [Decidable c]
    (hthen : Mirrors p q) (helse : Mirrors p' q') :
    Mirrors (if c then p else p') (if c then q else q') := by
  split
  · exact hthen
  · exact helse

/-- The value bytes of a sorted number. -/
theorem mirrors_readShiftedBytes (k raw : ℕ) :
    Mirrors (readShiftedBytes w k raw) (readShifted w k raw) := by
  induction k generalizing raw with
  | zero => exact mirrors_pure raw
  | succ k ih => exact mirrors_readFast.bind fun b => ih _

/-- **The sorted readers end alike.** -/
theorem mirrors_readSortedPacked (w : ℕ) : Mirrors (readSortedPackedWidth w) (readSorted w) := by
  refine mirrors_readFast.bind fun b => ?_
  have hshifted : ∀ k raw, Mirrors (readShiftedBytes w k raw) (readShifted w k raw) :=
    mirrors_readShiftedBytes
  refine .ite ((hshifted (0x08 - b.toNat) (256 ^ w - 1)).bind fun raw => ?_) (.ite ?_ ?_)
  · exact mirrors_checkedWidth (asSigned w raw - 119)
  · generalize b.toNat - 0xF7 = k
    exact (hshifted k 0).bind fun raw => mirrors_checkedWidth (asSigned w raw + 121)
  · exact mirrors_pure ((b.toNat : ℤ) - 127)

end Mirrors

/-! ### The packed readers -/

section Packed

open TupleInput

variable {α : Type} {w n : ℕ} {f : ℕ → TupleReader α} {g : ℕ → PackedReader α}

/-- The value bytes behind the first, while they fit the width. -/
theorem readMoreBytes_eq (k i value : ℕ) (hk : i + k ≤ w) (hvalue : value < 256 ^ i)
    (buf : Bytes) (off : ℕ) :
    readMoreBytes w n k i value buf off =
      if (buf.drop off).length < min k (n - i) then .error (.error (.bufferUnderflow 1 0))
      else .ok (value + 256 ^ i * leNat ((buf.drop off).take (min k (n - i))),
        off + min k (n - i)) := by
  induction k generalizing i value off with
  | zero =>
    have hnil : leNat [] = 0 := rfl
    rw [Nat.zero_min, if_neg (Nat.not_lt_zero _), List.take_zero, hnil]
    rfl
  | succ k ih =>
    rw [readMoreBytes]
    split
    · next hmore =>
      obtain ⟨m, hm⟩ : ∃ m, min (k + 1) (n - i) = m + 1 :=
        ⟨min k (n - (i + 1)), by omega⟩
      have hmin : min k (n - (i + 1)) = m := by omega
      rw [Wire.bind_apply, hm]
      cases hbuf : buf.drop off with
      | nil =>
        rw [readFast_of_drop_nil hbuf]
        rfl
      | cons b rest =>
        have hrest : buf.drop (off + 1) = rest := by
          rw [← List.drop_drop, hbuf]
          rfl
        have hb : b.toNat < 256 := b.toNat_lt
        rw [readFast_of_drop_cons hbuf]
        dsimp only
        rw [or_shift_byte (by omega) hvalue, ih (i + 1) _ (by omega)
          (by rw [pow_succ]; nlinarith [Nat.pow_pos (n := i) (show 0 < 256 by norm_num)]),
          hrest, hmin, List.length_cons, List.take_succ_cons, leNat_cons]
        simp only [add_lt_add_iff_right]
        congr 3
        · rw [pow_succ]
          ring
        · omega
    · next hmore =>
      have hzero : min (k + 1) (n - i) = 0 := by omega
      have hnil : leNat [] = 0 := rfl
      rw [hzero, if_neg (Nat.not_lt_zero _), List.take_zero, hnil]
      rfl

/-- The value bytes of a packed number: as many as the width has, at most. -/
theorem readValueBytes_eq (hw : 0 < w) (hn : 1 ≤ n) (buf : Bytes) (off : ℕ) :
    readValueBytes w n buf off =
      if (buf.drop off).length < min w n then .error (.error (.bufferUnderflow 1 0))
      else .ok (leNat ((buf.drop off).take (min w n)), off + min w n) := by
  obtain ⟨v, rfl⟩ : ∃ v, w = v + 1 := ⟨w - 1, by omega⟩
  have hnested : readValueBytes (v + 1) n = readMoreBytes (v + 1) n (v + 1) 0 0 := by
    rw [readMoreBytes, if_pos (by omega), readValueBytes]
    refine bind_congr fun b => ?_
    rw [or_shift_byte (by omega) (by norm_num), pow_zero, one_mul, zero_add,
      zero_add, Nat.add_sub_cancel]
  have heq := readMoreBytes_eq (w := v + 1) (n := n) (v + 1) 0 0 (by omega) (by norm_num) buf off
  rwa [← hnested, pow_zero, one_mul, zero_add, Nat.sub_zero] at heq

/-- As long as they fit the width, the value bytes are read alike. -/
theorem mirrors_readValueBytes (hw : 0 < w) (hn : 1 ≤ n) (hnw : n ≤ w) :
    Mirrors (readValueBytes w n) (readMagnitude w n 0 0) := by
  intro buf off
  have hmag := readMagnitude_eq n 0 0 (Nat.zero_le w) (by norm_num) (buf.drop off)
  rw [zero_add, zero_add, pow_zero, one_mul, if_neg (by omega)] at hmag
  rw [readValueBytes_eq hw hn, hmag, min_eq_right hnw]
  split
  · trivial
  · next hlen => exact ⟨rfl, n, Nat.not_lt.mp hlen, rfl, rfl⟩

/-- Both readers return the value and take the same bytes, or both return an error. -/
def Agree (buf : Bytes) (off : ℕ) (x : Except (Stop BindError) (α × ℕ))
    (y : Except ReadFault (α × Bytes)) : Prop :=
  EndsAlike buf off x y ∧ x ≠ .error .panicked ∧ y ≠ .error .overflow

/-- Ends that agree are the same result unless one overflows. -/
theorem EndsAlike.agree_iff {buf : Bytes} {off : ℕ} {x : Except (Stop BindError) (α × ℕ)}
    {y : Except ReadFault (α × Bytes)} (h : EndsAlike buf off x y) :
    Agree buf off x y ↔ y ≠ .error .overflow := by
  refine ⟨fun hagree => hagree.2.2, fun hy => ⟨h, ?_, hy⟩⟩
  rintro rfl
  rcases y with (_ | _) | ⟨b, rest⟩
  · exact h
  · exact hy rfl
  · exact h

/-- With more value bytes than the width holds, one reader stops at the width and the other runs
out of bytes or of width. -/
theorem agree_overlong_iff (hw : 0 < w) (hnw : w < n)
    (hf : ∀ m buf off e, f m buf off ≠ .error (.error e)) (buf : Bytes) (off off' : ℕ) :
    Agree buf off' ((readValueBytes w n >>= f) buf off)
      ((readMagnitude w n 0 0 >>= g) (buf.drop off)) ↔ (buf.drop off).length < w := by
  rw [Wire.bind_apply, readValueBytes_eq hw (by omega), readMagnitude_bind, min_eq_left hnw.le]
  generalize (buf.drop off).length = len
  rcases Nat.lt_trichotomy len w with hlt | rfl | hgt
  · rw [if_pos hlt, if_neg (by omega), if_pos (by omega)]
    exact iff_of_true ⟨trivial, by simp, by simp⟩ hlt
  · rw [if_neg (Nat.lt_irrefl _), if_neg (by omega), if_pos hnw]
    refine iff_of_false (fun hagree => ?_) (Nat.lt_irrefl _)
    dsimp only at hagree
    rcases hlast : f (leNat ((buf.drop off).take len)) buf (off + len) with (e | _) | ⟨a, end'⟩
    · exact hf _ _ _ _ hlast
    · exact hagree.2.1 hlast
    · rw [hlast] at hagree
      exact hagree.1
  · rw [if_neg (by omega), if_pos (by omega)]
    exact iff_of_false (fun hagree => hagree.2.2 rfl) (by omega)

/-- A check panics; it does not fail. -/
theorem checkedWidth_ne_error (v : ℤ) (buf : Bytes) (off : ℕ) (e : BindError) :
    checkedWidth w v buf off ≠ .error (.error e) := by
  rw [checkedWidth]
  split <;> simp

/-- A conversion does not fail. -/
theorem map_ne_error {γ : Type} {conv : γ → α} {p : TupleReader γ} {buf : Bytes} {off : ℕ}
    {e : BindError} (h : p buf off ≠ .error (.error e)) :
    (conv <$> p) buf off ≠ .error (.error e) := by
  rw [Wire.map_apply]
  rcases hrun : p buf off with stop | r
  · rw [hrun] at h
    simpa [Except.map] using h
  · simp [Except.map]

/-- A value that fits passes the check. -/
theorem checkedWidth_bind {β : Type} {v : ℤ} (h : FitsWidth w v) (k : ℤ → TupleReader β) :
    (checkedWidth w v >>= k) = k v := by
  funext buf off
  rw [Wire.bind_apply, checkedWidth, if_pos h]

/-- Behind a first byte that announces value bytes, the readers differ only in how they read
them. -/
theorem readers_of_value_bytes {b : UInt8} {rest buf : Bytes} {off : ℕ}
    (hbuf : buf.drop off = b :: rest) (hout : ¬ (-119 ≤ asI8 b ∧ asI8 b ≤ 119))
    (hmin : asI8 b ≠ -128) :
    ∃ (F : ℕ → TupleReader ℤ) (G : ℕ → PackedReader ℤ), (∀ m, Mirrors (F m) (G m)) ∧
      (∀ m buf off e, F m buf off ≠ .error (.error e)) ∧
      readPackedWidth w buf off =
        (readValueBytes w ((asI8 b).natAbs - 119) >>= F) buf (off + 1) ∧
      readPacked w (b :: rest) =
        (readMagnitude w ((asI8 b).natAbs - 119) 0 0 >>= G) rest := by
  have hbounds := asI8_bounds b
  rw [readPackedWidth, Wire.bind_apply, readFast_of_drop_cons hbuf]
  rw [readPacked, PackedReader.bind_ok (rfl : readExactByte (b :: rest) = .ok (b, rest))]
  dsimp only
  rw [if_neg hout]
  by_cases hneg : asI8 b < -119
  · have hlen : (-asI8 b).toNat - 119 = (asI8 b).natAbs - 119 := by omega
    have hlen' : (-asI8 b - 119).toNat = (asI8 b).natAbs - 119 := by omega
    rw [if_pos hneg, if_pos hneg, checkedWidth_bind (fitsWidth_one.mpr (by omega)),
      checked_bind (fitsWidth_one.mpr (by omega)), checked_bind (fitsWidth_one.mpr (by omega)),
      hlen, hlen']
    refine ⟨_, _, fun m => ?_, fun m => ?_, rfl, rfl⟩
    · exact (mirrors_checkedWidth _).bind fun m => mirrors_checkedWidth _
    · intro buf off e
      rw [Wire.bind_apply]
      rcases hrun : checkedWidth w (-asSigned w m) buf off with (e' | _) | ⟨v, off'⟩
      · exact absurd hrun (checkedWidth_ne_error _ buf off e')
      · simp
      · exact checkedWidth_ne_error _ buf off' e
  · have hlen : (asI8 b).toNat - 119 = (asI8 b).natAbs - 119 := by omega
    have hlen' : (asI8 b - 119).toNat = (asI8 b).natAbs - 119 := by omega
    rw [if_neg hneg, if_neg hneg, if_pos (by omega), checked_bind (fitsWidth_one.mpr (by omega)),
      hlen, hlen']
    exact ⟨_, _, fun m => mirrors_checkedWidth _, fun m => checkedWidth_ne_error _, rfl, rfl⟩

/-- The first byte announces more value bytes than the width holds, and as many as it holds
follow. -/
def CutAtWidth (w : ℕ) : Bytes → Prop
  | [] => False
  | b :: rest => w < (asI8 b).natAbs - 119 ∧ rest.length = w

/-- A number that is not too long is not cut off at the width. -/
theorem not_cutAtWidth {bs : Bytes} (h : ¬ Overlong w bs) : ¬ CutAtWidth w bs := by
  cases bs with
  | nil => exact id
  | cons b rest => exact fun hcut => h ⟨hcut.1, hcut.2.ge⟩

/-- Eight value bytes are the most that a first byte announces, but for the one that has no
negative. -/
theorem not_overlong_eight {bs : Bytes} (h : bs.head? ≠ some 0x80) : ¬ Overlong 8 bs := by
  cases bs with
  | nil => exact id
  | cons b rest =>
    have hbounds := asI8_bounds b
    have hmin := asI8_ne_min h
    rintro ⟨hlong, -⟩
    omega

/-- Readable bytes that are not cut at the width are not overlong. -/
theorem PackedReadable.not_overlong {bs : Bytes} (h : PackedReadable w bs)
    (hcut : ¬ CutAtWidth w bs) : bs.head? ≠ some 0x80 ∧ ¬ Overlong w bs := by
  cases bs with
  | nil => exact ⟨by simp, id⟩
  | cons b rest =>
    rw [CutAtWidth] at hcut
    rcases h with hsmall | ⟨hmin, hlen, -⟩
    · refine ⟨?_, fun hlong => ?_⟩
      · rintro ⟨⟩
        revert hsmall
        decide
      · have := hlong.1
        omega
    · refine ⟨?_, fun hlong => ?_⟩
      · rintro ⟨⟩
        exact hmin (by decide)
      · obtain ⟨hwide, hmany⟩ := hlong
        omega

/-- **The packed readers agree**, with their values converted, on the bytes that are readable,
unless the value bytes are cut at the width. -/
theorem agree_readPacked_iff (conv : ℤ → α) (hw : 0 < w) (buf : Bytes) (off : ℕ) :
    Agree buf off ((conv <$> readPackedWidth w) buf off) ((conv <$> readPacked w) (buf.drop off)) ↔
      PackedReadable w (buf.drop off) ∧ ¬ CutAtWidth w (buf.drop off) := by
  rw [Wire.map_apply, PackedReader.map_apply]
  cases hbuf : buf.drop off with
  | nil =>
    have herr : readPackedWidth w buf off = .error (.error (.bufferUnderflow 1 0)) := by
      rw [readPackedWidth, Wire.bind_apply, readFast_of_drop_nil hbuf]
    have heof : readPacked w [] = .error .unexpectedEof :=
      PackedReader.bind_error (p := readExactByte) rfl
    rw [herr, heof]
    exact iff_of_true ⟨trivial, by simp [Except.map], by simp [Except.map]⟩ ⟨trivial, id⟩
  | cons b rest =>
    have hrest : buf.drop (off + 1) = rest := by
      rw [← List.drop_drop, hbuf]
      rfl
    have hfirst : 1 ≤ (buf.drop off).length := by simp [hbuf]
    -- where the readers end alike, they agree unless they overflow
    have halike : EndsAlike buf (off + 1) (readPackedWidth w buf off) (readPacked w (b :: rest)) →
        (w < (asI8 b).natAbs - 119 → asI8 b = -128) →
        (Agree buf off ((readPackedWidth w buf off).map fun r => (conv r.1, r.2))
          ((readPacked w (b :: rest)).map fun r => (conv r.1, r.2)) ↔
          PackedReadable w (b :: rest) ∧ ¬ CutAtWidth w (b :: rest)) := by
      intro h hfits
      rw [((h.shift hfirst).map conv).agree_iff, ← PackedReader.map_apply, map_overflow_iff,
        readPacked_overflow_iff hw, iff_self_and]
      rintro (hsmall | ⟨hmin, -⟩) hcut
      · have := hcut.1
        omega
      · exact hmin (hfits hcut.1)
    by_cases hsmall : -119 ≤ asI8 b ∧ asI8 b ≤ 119
    · refine halike ?_ (by omega)
      rw [readPackedWidth, Wire.bind_apply, readFast_of_drop_cons hbuf,
        readPacked_small hsmall]
      dsimp only
      rw [if_neg (by omega), if_neg (by omega), ← hrest]
      exact mirrors_pure _ buf (off + 1)
    by_cases hmin : asI8 b = -128
    · refine halike ?_ fun _ => hmin
      rw [readPackedWidth, Wire.bind_apply, readFast_of_drop_cons hbuf,
        readPacked_min hmin]
      dsimp only
      rw [if_pos (by omega), hmin]
      trivial
    obtain ⟨F, G, hmirrors, hnoerr, htuple, hutil⟩ :=
      readers_of_value_bytes (w := w) hbuf hsmall hmin
    rcases Nat.lt_or_ge w ((asI8 b).natAbs - 119) with hlong | hfits
    · rw [htuple, hutil, ← hrest, ← Wire.map_apply, ← PackedReader.map_apply, map_bind, map_bind,
        agree_overlong_iff hw hlong (fun m buf off e => map_ne_error (hnoerr m buf off e)), hrest]
      simp only [PackedReadable, CutAtWidth, hsmall, hmin, hlong, ne_eq, not_false_eq_true,
        true_and, false_or]
      constructor
      · intro hlen
        exact ⟨⟨by omega, .inl (by omega)⟩, by omega⟩
      · rintro ⟨⟨hlen, -⟩, hcut⟩
        omega
    · refine halike ?_ (by omega)
      rw [htuple, hutil, ← hrest]
      exact (mirrors_readValueBytes hw (by have := asI8_bounds b; omega) hfits).bind hmirrors
        buf (off + 1)

end Packed

/-! ### The two decoders -/

section Decoders

open TupleInput

/-- **The sorted readers agree** on the bytes that are readable. -/
theorem agree_readSorted_iff {α : Type} {w : ℕ} (conv : ℤ → α) (hw : 0 < w) (buf : Bytes)
    (off : ℕ) :
    Agree buf off ((conv <$> readSortedPackedWidth w) buf off)
      ((conv <$> readSorted w) (buf.drop off)) ↔ SortedReadable w (buf.drop off) := by
  rw [(((mirrors_readSortedPacked w).map conv) buf off).agree_iff, map_overflow_iff,
    readSorted_overflow_iff hw]

/-- A reader that returns a value returns the number that the bytes stand for: nothing has
wrapped around, and no value byte was dropped that counts. -/
def Exact {α γ : Type} (toInt : α → ℤ) (number : Option ℤ) (x : Except (Stop BindError) (α × γ)) :
    Prop :=
  ∀ v pos, x = .ok (v, pos) → number = some (toInt v)

section Exact

variable {α : Type} {w : ℕ} {conv : ℤ → α} {toInt : α → ℤ} {number : Option ℤ} {bs buf : Bytes}
  {off : ℕ} {p : PackedReader ℤ}

/-- What two readers that agree return is exact if it is the number in one of them. -/
theorem Agree.exact_iff {x : Except (Stop BindError) (α × ℕ)}
    {y : Except ReadFault (α × Bytes)} (h : Agree buf off x y) :
    Exact toInt number x ↔ ∀ v rest, y = .ok (v, rest) → number = some (toInt v) := by
  obtain ⟨halike, -, -⟩ := h
  rcases x with stop | ⟨a, off'⟩ <;> rcases y with fault | ⟨b, rest⟩
  · simp [Exact]
  · cases stop <;> exact halike.elim
  · exact halike.elim
  · obtain ⟨rfl, -⟩ := halike
    simp [Exact]

/-- A reader that returns the numbers that fit, and runs out of bytes where there is none, does not
overflow and returns nothing but the number exactly if the number fits. -/
theorem exact_iff_fits (hfit : ∀ a, FitsWidth w (toInt a))
    (hconv : ∀ v, FitsWidth w v → toInt (conv v) = v)
    (hp : (number = none ↔ p bs = .error .unexpectedEof) ∧
      ∀ v ∈ number, FitsWidth w v → ∃ rest, p bs = .ok (v, rest)) :
    (p bs ≠ .error .overflow ∧
        ∀ v rest, (conv <$> p) bs = .ok (v, rest) → number = some (toInt v)) ↔
      ∀ v ∈ number, FitsWidth w v := by
  obtain ⟨hnone, hsome⟩ := hp
  rw [PackedReader.map_apply]
  constructor
  · rintro ⟨hflow, hexact⟩ v hv
    rcases hrun : p bs with (_ | _) | ⟨z, rest⟩
    · rw [hnone.mpr hrun] at hv
      cases hv
    · exact absurd hrun hflow
    · rw [hrun] at hexact
      obtain rfl : toInt (conv z) = v := by
        have hz := hexact (conv z) rest rfl
        rw [hz] at hv
        exact Option.some.inj hv
      exact hfit _
  · intro hall
    cases hnum : number with
    | none =>
      rw [hnone.mp hnum]
      simp [Except.map]
    | some z =>
      obtain ⟨rest, hrun⟩ := hsome z hnum (hall z hnum)
      rw [hrun]
      simp [Except.map, hconv z (hall z hnum)]

end Exact

section Widths

variable {α : Type} {w : ℕ} {conv : ℤ → α} {toInt : α → ℤ}

/-- The sorted readers agree and are exact where the number fits the width. -/
theorem sorted_exact_iff (hw : 0 < w) (hfit : ∀ a, FitsWidth w (toInt a))
    (hconv : ∀ v, FitsWidth w v → toInt (conv v) = v) (buf : Bytes) (off : ℕ) :
    (Agree buf off ((conv <$> readSortedPackedWidth w) buf off)
        ((conv <$> readSorted w) (buf.drop off)) ∧
      Exact toInt (sortedNumber (buf.drop off)) ((conv <$> readSortedPackedWidth w) buf off)) ↔
      ∀ v ∈ sortedNumber (buf.drop off), FitsWidth w v := by
  rw [← exact_iff_fits hfit hconv (readSorted_of_sortedNumber hw (buf.drop off)),
    and_congr_right fun hagree => hagree.exact_iff, agree_readSorted_iff conv hw,
    ← readSorted_overflow_iff hw]

/-- The packed readers agree and are exact where the number fits the width, but for the first byte
that has no negative and for overlong value bytes. -/
theorem packed_exact_iff (hw : 0 < w) (hfit : ∀ a, FitsWidth w (toInt a))
    (hconv : ∀ v, FitsWidth w v → toInt (conv v) = v) (buf : Bytes) (off : ℕ) :
    (Agree buf off ((conv <$> readPackedWidth w) buf off)
        ((conv <$> readPacked w) (buf.drop off)) ∧
      Exact toInt (packedNumber (buf.drop off)) ((conv <$> readPackedWidth w) buf off)) ↔
      (buf.drop off).head? ≠ some 0x80 ∧ ¬ Overlong w (buf.drop off) ∧
        ∀ v ∈ packedNumber (buf.drop off), FitsWidth w v := by
  rw [and_congr_right fun hagree => hagree.exact_iff, agree_readPacked_iff conv hw]
  generalize buf.drop off = bs
  constructor
  · rintro ⟨⟨hread, hcut⟩, hexact⟩
    obtain ⟨hmin, hlong⟩ := hread.not_overlong hcut
    have hfits := exact_iff_fits hfit hconv (readPacked_of_packedNumber hw hmin hlong)
    exact ⟨hmin, hlong, hfits.mp ⟨(readPacked_overflow_iff hw bs).mpr hread, hexact⟩⟩
  · rintro ⟨hmin, hlong, hnum⟩
    have hfits := exact_iff_fits hfit hconv (readPacked_of_packedNumber hw hmin hlong)
    obtain ⟨hflow, hexact⟩ := hfits.mpr hnum
    exact ⟨⟨(readPacked_overflow_iff hw bs).mp hflow, not_cutAtWidth hlong⟩, hexact⟩

end Widths

/-- **The two decoders agree** without a panic and without wrapping around, exactly on these bytes:
the number that the bytes stand for fits the type, or they end before it does; and for the packed
format the first byte has a negative, and in four bytes it does not announce more of them with
four or more to follow. Everywhere else a decoder overflows or returns another number, or one
returns a value and the other an error. -/
theorem decoders_agree_iff (buf : Bytes) (off : ℕ) :
    (Agree buf off (readSortedPackedInt buf off) (readSortedI32 (buf.drop off)) ∧
        Exact Int32.toInt (sortedNumber (buf.drop off)) (readSortedPackedInt buf off) ↔
      ∀ v ∈ sortedNumber (buf.drop off), FitsWidth 4 v) ∧
    (Agree buf off (readSortedPackedLong buf off) (readSortedI64 (buf.drop off)) ∧
        Exact Int64.toInt (sortedNumber (buf.drop off)) (readSortedPackedLong buf off) ↔
      ∀ v ∈ sortedNumber (buf.drop off), FitsWidth 8 v) ∧
    (Agree buf off (readPackedInt buf off) (readPackedI32 (buf.drop off)) ∧
        Exact Int32.toInt (packedNumber (buf.drop off)) (readPackedInt buf off) ↔
      (buf.drop off).head? ≠ some 0x80 ∧ ¬ Overlong 4 (buf.drop off) ∧
        ∀ v ∈ packedNumber (buf.drop off), FitsWidth 4 v) ∧
    (Agree buf off (readPackedLong buf off) (readPackedI64 (buf.drop off)) ∧
        Exact Int64.toInt (packedNumber (buf.drop off)) (readPackedLong buf off) ↔
      (buf.drop off).head? ≠ some 0x80 ∧ ∀ v ∈ packedNumber (buf.drop off), FitsWidth 8 v) := by
  have h32 : ∀ v, FitsWidth 4 v → (Int32.ofInt v).toInt = v := fun v hv =>
    Int32.toInt_ofInt_of_le hv.1 hv.2
  have h64 : ∀ v, FitsWidth 8 v → (Int64.ofInt v).toInt = v := fun v hv =>
    Int64.toInt_ofInt_of_le hv.1 hv.2
  refine ⟨sorted_exact_iff (by norm_num) fitsWidth_toInt32 h32 buf off,
    sorted_exact_iff (by norm_num) fitsWidth_toInt64 h64 buf off,
    packed_exact_iff (by norm_num) fitsWidth_toInt32 h32 buf off, ?_⟩
  refine (packed_exact_iff (by norm_num) fitsWidth_toInt64 h64 buf off).trans ?_
  refine and_congr_right fun hmin => and_iff_right (not_overlong_eight hmin)

/-- Five announced value bytes: where they follow, one decoder returns a value after four of them
and the other overflows; where only four follow, it returns a value and the other an error. Both
overflow on a value that leaves no room for the bias, and both wrap around on one that is larger
still. -/
theorem decoders_differ_on_overlong :
    readPackedInt [124, 1, 0, 0, 0, 0] 0 = .ok (120, 5) ∧
      readPackedI32 [124, 1, 0, 0, 0, 0] = .error .overflow ∧
      readPackedInt [124, 1, 0, 0, 0] 0 = .ok (120, 5) ∧
      readPackedI32 [124, 1, 0, 0, 0] = .error .unexpectedEof ∧
      readSortedPackedInt [0xFB, 0x7F, 0xFF, 0xFF, 0xFF] 0 = .error .panicked ∧
      readSortedI32 [0xFB, 0x7F, 0xFF, 0xFF, 0xFF] = .error .overflow ∧
      readPackedInt [123, 0, 0, 0, 128] 0 = .ok (-2147483529, 5) ∧
      packedNumber [123, 0, 0, 0, 128] = some 2147483767 ∧
      readSortedPackedInt [0xFF, 0, 0, 0, 1, 0, 0, 0, 0] 0 = .ok (121, 9) ∧
      sortedNumber [0xFF, 0, 0, 0, 1, 0, 0, 0, 0] = some 4294967417 := by
  decide +kernel

end Decoders

end Noxu
