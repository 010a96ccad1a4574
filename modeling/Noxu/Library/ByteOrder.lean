import Mathlib.Data.Nat.Bitwise
import Noxu.Library.Wire

/-!
# The Order of Byte Strings

Two byte strings compare byte by byte. If one is below another **at a byte where they differ**,
it stays below whatever follows either of them, which is what lets encodings be concatenated; a
string that is only a prefix of another has no such byte. Big-endian numbers of one width differ
this way in the order of the numbers.

The masks with which an encoder counts the bytes of a number are comparisons with powers.

An encoding whose decoder takes it off the front of any bytes is **self-delimiting**; one under
which a smaller value is below a greater one at a byte is in the order of the values **whatever
follows**. Codes with both properties can be put one behind the other: the pair has them again, with
the lexicographic order.

## Main results

* `belowAt_beBytes`: big-endian numbers of one width are in the order of the numbers;
* `BelowAt.append`: what follows does not matter;
* `and_byte_mask_eq_zero_iff`, `or_byte_mask_eq_iff`: the masks as comparisons;
* `OrderedCode.lt_iff`, `OrderedCode.prefix_iff`, `OrderedCode.pair`: the encodings compare as the
  values do, none is a proper prefix of another, and pairs have this again.
-/

namespace Noxu.Library

/-! ### Below at a byte -/

/-- The strings differ at a byte, and the first is smaller there. -/
def BelowAt (u v : Bytes) : Prop :=
  ∃ p x y s t, u = p ++ x :: s ∧ v = p ++ y :: t ∧ x < y

section BelowAt

variable {u v : Bytes} {x y : UInt8}

theorem belowAt_of_lt (h : x < y) (s t : Bytes) : BelowAt (x :: s) (y :: t) :=
  ⟨[], x, y, s, t, rfl, rfl, h⟩

theorem BelowAt.cons (h : BelowAt u v) (x : UInt8) : BelowAt (x :: u) (x :: v) := by
  obtain ⟨p, a, b, s, t, rfl, rfl, hab⟩ := h
  exact ⟨x :: p, a, b, s, t, rfl, rfl, hab⟩

theorem BelowAt.append_left (h : BelowAt u v) (p : Bytes) : BelowAt (p ++ u) (p ++ v) := by
  obtain ⟨q, a, b, s, t, rfl, rfl, hab⟩ := h
  exact ⟨p ++ q, a, b, s, t, (List.append_assoc ..).symm, (List.append_assoc ..).symm, hab⟩

/-- **What follows does not matter.** -/
theorem BelowAt.append (h : BelowAt u v) (s t : Bytes) : BelowAt (u ++ s) (v ++ t) := by
  obtain ⟨p, a, b, s', t', rfl, rfl, hab⟩ := h
  exact ⟨p, a, b, s' ++ s, t' ++ t, by simp, by simp, hab⟩

/-- A string below another at a byte is lexicographically smaller. -/
theorem BelowAt.lt (h : BelowAt u v) : u < v := by
  obtain ⟨p, a, b, s, t, rfl, rfl, hab⟩ := h
  induction p with
  | nil => exact List.Lex.rel hab
  | cons c p ih => exact List.Lex.cons ih

end BelowAt

/-! ### Big-endian numbers -/

theorem leNat_append (bs cs : Bytes) :
    leNat (bs ++ cs) = leNat bs + 256 ^ bs.length * leNat cs := by
  induction bs with
  | nil => simp [leNat]
  | cons b bs ih =>
    rw [List.cons_append, leNat_cons, leNat_cons, ih, List.length_cons, pow_succ]
    ring

theorem beNat_cons (b : UInt8) (bs : Bytes) :
    beNat (b :: bs) = b.toNat * 256 ^ bs.length + beNat bs := by
  have hone : leNat [b] = b.toNat := by simp [leNat]
  rw [beNat, List.reverse_cons, leNat_append, List.length_reverse, hone, beNat]
  ring

theorem beNat_concat (bs : Bytes) (b : UInt8) :
    beNat (bs ++ [b]) = beNat bs * 256 + b.toNat := by
  simp only [beNat, List.reverse_append, List.reverse_cons, List.reverse_nil, List.nil_append,
    List.singleton_append, leNat_cons]
  omega

theorem beBytes_succ (w n : ℕ) : beBytes (w + 1) n = beBytes w (n / 256) ++ [UInt8.ofNat n] := by
  simp [beBytes, leBytes]

/-- The low bytes depend on the number up to their width only. -/
theorem leBytes_congr {w m n : ℕ} (h : m % 256 ^ w = n % 256 ^ w) : leBytes w m = leBytes w n := by
  induction w generalizing m n with
  | zero => rfl
  | succ w ih =>
    rw [pow_succ', Nat.mod_mul, Nat.mod_mul] at h
    have hlow : m % 256 = n % 256 := by omega
    have hhigh : m / 256 % 256 ^ w = n / 256 % 256 ^ w := by omega
    rw [leBytes, leBytes, ih hhigh]
    refine congrArg (· :: _) (UInt8.toNat_inj.mp ?_)
    rw [UInt8.toNat_ofNat', UInt8.toNat_ofNat']
    exact hlow

theorem beBytes_congr {w m n : ℕ} (h : m % 256 ^ w = n % 256 ^ w) : beBytes w m = beBytes w n :=
  congrArg List.reverse (leBytes_congr h)

/-- **Big-endian numbers are in the order of the numbers.** -/
theorem belowAt_beBytes {w m n : ℕ} (hlt : m < n) (hn : n < 256 ^ w) :
    BelowAt (beBytes w m) (beBytes w n) := by
  induction w generalizing m n with
  | zero =>
    rw [pow_zero] at hn
    omega
  | succ w ih =>
    rw [beBytes_succ, beBytes_succ]
    rcases Nat.lt_or_ge (m / 256) (n / 256) with hdiv | hdiv
    · have hn' : n / 256 < 256 ^ w := by
        rw [pow_succ] at hn
        omega
      exact (ih hdiv hn').append _ _
    · -- the last byte decides
      have heq : m / 256 = n / 256 := by omega
      rw [heq]
      refine (belowAt_of_lt ?_ [] []).append_left _
      rw [UInt8.lt_iff_toNat_lt, UInt8.toNat_ofNat', UInt8.toNat_ofNat']
      omega

/-! ### Masks -/

/-- A number has no bit under the mask of the high bits if it is below the mask. -/
theorem and_mask_eq_zero_iff {a b n : ℕ} (hab : a ≤ b) (hn : n < 2 ^ b) :
    n &&& (2 ^ b - 2 ^ a) = 0 ↔ n < 2 ^ a := by
  have hmask : 2 ^ b - 2 ^ a = 2 ^ a * (2 ^ (b - a) - 1) := by
    rw [Nat.mul_sub, mul_one, ← pow_add, Nat.add_sub_cancel' hab]
  constructor
  · intro hzero
    refine Nat.lt_pow_two_of_testBit n fun i hi => ?_
    have hbit := congrArg (fun m => Nat.testBit m i) hzero
    simp only [hmask, Nat.testBit_and, Nat.testBit_two_pow_mul, Nat.testBit_two_pow_sub_one,
      Nat.zero_testBit, Bool.and_eq_false_iff, decide_eq_false_iff_not] at hbit
    rcases hbit with hbit | hbit | hbit
    · exact hbit
    · exact absurd hi hbit
    · have hle : 2 ^ b ≤ 2 ^ i := Nat.pow_le_pow_right (by norm_num) (by omega)
      exact Nat.testBit_lt_two_pow (hn.trans_le hle)
  · intro hlt
    refine Nat.eq_of_testBit_eq fun i => ?_
    simp only [hmask, Nat.testBit_and, Nat.testBit_two_pow_mul, Nat.zero_testBit,
      Bool.and_eq_false_iff, decide_eq_false_iff_not]
    rcases Nat.lt_or_ge i a with hi | hi
    · exact .inr (.inl (Nat.not_le.mpr hi))
    · exact .inl (Nat.testBit_lt_two_pow (hlt.trans_le (Nat.pow_le_pow_right (by norm_num) hi)))

theorem pow_256 (i : ℕ) : 256 ^ i = 2 ^ (8 * i) := by
  rw [pow_mul]
  rfl

/-- A number is below a number of bytes if no byte above them is set. -/
theorem and_byte_mask_eq_zero_iff {k w n : ℕ} (hk : k ≤ w) (hn : n < 256 ^ w) :
    n &&& (256 ^ w - 256 ^ k) = 0 ↔ n < 256 ^ k := by
  rw [pow_256] at hn
  rw [pow_256, pow_256]
  exact and_mask_eq_zero_iff (Nat.mul_le_mul_left 8 hk) hn

/-- Setting the low bits of a number. -/
theorem or_low_mask (a n : ℕ) : n ||| (2 ^ a - 1) = 2 ^ a * (n / 2 ^ a) + (2 ^ a - 1) := by
  have hlow : 2 ^ a - 1 < 2 ^ a := Nat.sub_lt (Nat.two_pow_pos a) Nat.one_pos
  rw [Nat.two_pow_add_eq_or_of_lt hlow]
  refine Nat.eq_of_testBit_eq fun i => ?_
  simp only [Nat.testBit_or, Nat.testBit_two_pow_mul, Nat.testBit_two_pow_sub_one,
    Nat.testBit_div_two_pow]
  rcases Nat.lt_or_ge i a with hi | hi
  · simp [hi]
  · simp [Nat.not_lt.mpr hi, hi]

/-- All high bits of a number are set if it is at least the mask of the high bits. -/
theorem or_mask_eq_iff {a b n : ℕ} (hab : a ≤ b) (hn : n < 2 ^ b) :
    n ||| (2 ^ a - 1) = 2 ^ b - 1 ↔ 2 ^ b - 2 ^ a ≤ n := by
  have hpow : 2 ^ b = 2 ^ a * 2 ^ (b - a) := by rw [← pow_add, Nat.add_sub_cancel' hab]
  have ha : 0 < 2 ^ a := Nat.two_pow_pos a
  have hdiv : n / 2 ^ a < 2 ^ (b - a) := Nat.div_lt_of_lt_mul (hpow ▸ hn)
  have hq : 0 < 2 ^ (b - a) := Nat.two_pow_pos _
  have hmod := Nat.div_add_mod n (2 ^ a)
  have hlt := Nat.mod_lt n ha
  have hmono : 2 ^ a * (n / 2 ^ a + 1) ≤ 2 ^ a * 2 ^ (b - a) := Nat.mul_le_mul_left _ hdiv
  rw [Nat.mul_add, mul_one] at hmono
  rw [or_low_mask, hpow]
  constructor
  · intro heq
    omega
  · intro hle
    have hge : 2 ^ (b - a) ≤ n / 2 ^ a + 1 := by
      by_contra hlt'
      have hstep : 2 ^ a * (n / 2 ^ a + 1 + 1) ≤ 2 ^ a * 2 ^ (b - a) :=
        Nat.mul_le_mul_left _ (Nat.not_le.mp hlt')
      rw [Nat.mul_add, Nat.mul_add, mul_one] at hstep
      omega
    have hfull := Nat.mul_le_mul_left (2 ^ a) hge
    rw [Nat.mul_add, mul_one] at hfull
    omega

theorem or_byte_mask_eq_iff {k w n : ℕ} (hk : k ≤ w) (hn : n < 256 ^ w) :
    n ||| (256 ^ k - 1) = 256 ^ w - 1 ↔ 256 ^ w - 256 ^ k ≤ n := by
  rw [pow_256] at hn
  rw [pow_256, pow_256]
  exact or_mask_eq_iff (Nat.mul_le_mul_left 8 hk) hn

/-! ### Codes in the order of their values -/

open Wire

/-- A self-delimiting encoding in the order of its values. -/
structure OrderedCode {ε α : Type} (encode : α → Bytes) (decode : Wire ε α)
    (lt : α → α → Prop) : Prop where
  decodes : ∀ a, Decodes decode (encode a) a
  below : ∀ {a b}, lt a b → BelowAt (encode a) (encode b)
  total : ∀ a b, lt a b ∨ a = b ∨ lt b a

namespace OrderedCode

variable {ε α β : Type} {encode : α → Bytes} {decode : Wire ε α} {lt : α → α → Prop}
  {encode' : β → Bytes} {decode' : Wire ε β} {lt' : β → β → Prop}

/-- The encodings compare as the values do. -/
theorem lt_iff (h : OrderedCode encode decode lt) (a b : α) :
    encode a < encode b ↔ lt a b := by
  refine ⟨fun hlt => ?_, fun hlt => (h.below hlt).lt⟩
  rcases h.total a b with hab | rfl | hba
  · exact hab
  · exact absurd hlt (List.lt_irrefl _)
  · exact absurd hlt (List.lt_asymm (h.below hba).lt)

/-- No encoding is a proper prefix of another. -/
theorem prefix_iff (h : OrderedCode encode decode lt) (a b : α) :
    encode a <+: encode b ↔ a = b :=
  ⟨(h.decodes a).eq_of_isPrefix (h.decodes b), fun hab => hab ▸ List.prefix_rfl⟩

/-- One code behind another. -/
theorem pair (h : OrderedCode encode decode lt) (h' : OrderedCode encode' decode' lt') :
    OrderedCode (fun v : α × β => encode v.1 ++ encode' v.2)
      (do let a ← decode; let b ← decode'; pure (a, b))
      (fun v u => lt v.1 u.1 ∨ v.1 = u.1 ∧ lt' v.2 u.2) where
  decodes v := (h.decodes v.1).bind ((h'.decodes v.2).bind_nil (decodes_pure v))
  below := by
    rintro ⟨a, b⟩ ⟨c, d⟩ (hlt | ⟨rfl, hlt⟩)
    · exact (h.below hlt).append _ _
    · exact (h'.below hlt).append_left _
  total := by
    rintro ⟨a, b⟩ ⟨c, d⟩
    rcases h.total a c with hlt | rfl | hlt
    · exact .inl (.inl hlt)
    · rcases h'.total b d with hlt | rfl | hlt
      · exact .inl (.inr ⟨rfl, hlt⟩)
      · exact .inr (.inl rfl)
      · exact .inr (.inr (.inr ⟨rfl, hlt⟩))
    · exact .inr (.inr (.inl hlt))

end OrderedCode

end Noxu.Library
