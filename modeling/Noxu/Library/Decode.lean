import Noxu.Library.Bytes

/-!
# Decoders over Positions

A decoder in the style of systems code walks over a byte string by position. It checks that
enough bytes are left, slices them out and moves on; a slice past the end is a **panic**, and
a failed check is an ordinary failure. It may also reserve room for the values it is about to
read, before it has seen them.

`Follows` says that such a decoder computes what a reader of `Noxu.Library.Bytes` computes:
it never panics, and it fails and succeeds with the reader. The relation composes along the
structure of the decoder, so that the absence of panics is shown field by field.

## Main results

* `follows_field`: a checked slice is a read;
* `Follows.bind`, `follows_many`: sequences and counted repetitions follow.
-/

namespace Noxu.Library

/-- How a decoder can fail. -/
inductive Failure where
  /-- A check of the decoder failed. -/
  | malformed
  /-- A slice went past the end. -/
  | panicked
  deriving DecidableEq, Repr

/-- Where a decoder stands. -/
structure DecodeState where
  /-- The position in the byte string. -/
  pos : ℕ
  /-- The room reserved so far: number of values, with the number of bytes left then. -/
  reserved : List (ℕ × ℕ)
  deriving DecidableEq, Repr

/-- A decoder of a byte string. What it reserved is known also when it fails. -/
abbrev Decoder := ReaderT Bytes (ExceptT Failure (StateM DecodeState))

namespace Decoder

variable {α β : Type}

/-- Run a decoder from the start of a byte string. -/
def run (p : Decoder α) (bytes : Bytes) : Except Failure α × DecodeState := p bytes ⟨0, []⟩

/-- Fail unless this many bytes are left. -/
def ensure (n : ℕ) : Decoder Unit := fun bytes s =>
  if bytes.length < s.pos + n then (.error .malformed, s) else (.ok (), s)

/-- Slice out the next bytes. -/
def slice (n : ℕ) : Decoder Bytes := fun bytes s =>
  if bytes.length < s.pos + n then (.error .panicked, s)
  else (.ok ((bytes.drop s.pos).take n), { s with pos := s.pos + n })

/-- Slice out a big-endian number. -/
def sliceBe (w : ℕ) : Decoder ℕ := do
  let bs ← slice w
  pure (beNat bs)

/-- Reserve room for a number of values. -/
def reserve (n : ℕ) : Decoder Unit := fun bytes s =>
  (.ok (), { s with reserved := s.reserved ++ [(n, bytes.length - s.pos)] })

/-- A checked slice. -/
def field (n : ℕ) : Decoder Bytes := do
  ensure n
  slice n

/-- A checked big-endian number. -/
def fieldBe (w : ℕ) : Decoder ℕ := do
  let bs ← field w
  pure (beNat bs)

/-- Repeat a decoder a number of times. -/
def many (p : Decoder α) : ℕ → Decoder (List α)
  | 0 => pure []
  | n + 1 => do
    let a ← p
    let as ← many p n
    pure (a :: as)

theorem bind_apply (p : Decoder α) (f : α → Decoder β) (bytes : Bytes) (s : DecodeState) :
    (p >>= f) bytes s = match p bytes s with
      | (.ok a, s') => f a bytes s'
      | (.error e, s') => (.error e, s') := by
  have hrun : (p >>= f) bytes s = ExceptT.bindCont (fun a => f a bytes) (p bytes s).1
      (p bytes s).2 := rfl
  rw [hrun]
  rcases p bytes s with ⟨a | a, s'⟩ <;> rfl

theorem bind_ok {p : Decoder α} {f : α → Decoder β} {bytes : Bytes} {s s' : DecodeState}
    {a : α} (h : p bytes s = (.ok a, s')) : (p >>= f) bytes s = f a bytes s' := by
  rw [bind_apply, h]

theorem bind_error {p : Decoder α} {f : α → Decoder β} {bytes : Bytes}
    {s s' : DecodeState} {e : Failure} (h : p bytes s = (.error e, s')) :
    (p >>= f) bytes s = (.error e, s') := by
  rw [bind_apply, h]

theorem sliceBe_of_le {bytes : Bytes} {pos w : ℕ} (h : pos + w ≤ bytes.length) :
    sliceBe w bytes ⟨pos, []⟩ = (.ok (beNat ((bytes.drop pos).take w)), ⟨pos + w, []⟩) :=
  bind_ok (if_neg (Nat.not_lt.mpr h))

end Decoder

open Decoder

/-! ### Decoders that follow a reader -/

/-- The decoder computes what the reader computes, and reserves nothing. -/
def Follows {α : Type} (p : Decoder α) (r : Reader α) : Prop :=
  ∀ bytes s, s.pos ≤ bytes.length →
    (r (bytes.drop s.pos) = none →
      ∃ pos, p bytes s = (.error .malformed, { s with pos := pos })) ∧
    ∀ a rest, r (bytes.drop s.pos) = some (a, rest) →
      ∃ pos ≤ bytes.length, p bytes s = (.ok a, { s with pos := pos }) ∧ rest = bytes.drop pos

section Follows

variable {α β : Type} {p : Decoder α} {r : Reader α} {f : α → Decoder β} {g : α → Reader β}

theorem follows_pure (a : α) : Follows (pure a) (pure a) := by
  intro bytes s hs
  refine ⟨fun h => (by cases h), fun b rest h => ?_⟩
  obtain ⟨rfl, rfl⟩ := Prod.mk.inj (Option.some.inj h)
  exact ⟨s.pos, hs, rfl, rfl⟩

/-- **A checked slice is a read.** -/
theorem follows_field (n : ℕ) : Follows (field n) (readBytes n) := by
  intro bytes s hs
  have hlen : (bytes.drop s.pos).length = bytes.length - s.pos := List.length_drop
  constructor
  · intro h
    have hshort : bytes.length < s.pos + n := by
      rw [readBytes] at h
      split at h
      · omega
      · cases h
    exact ⟨s.pos, bind_error (if_pos hshort)⟩
  · intro a rest h
    rw [readBytes, Option.ite_none_left_eq_some] at h
    obtain ⟨hlong, h⟩ := h
    obtain ⟨rfl, rfl⟩ := Prod.mk.inj (Option.some.inj h)
    have hfits : ¬ bytes.length < s.pos + n := by omega
    refine ⟨s.pos + n, by omega, ?_, ?_⟩
    · rw [field, bind_ok (if_neg hfits)]
      exact if_neg hfits
    · rw [List.drop_drop]

/-- **Decoders in sequence follow readers in sequence.** -/
theorem Follows.bind (hp : Follows p r) (hf : ∀ a, Follows (f a) (g a)) :
    Follows (p >>= f) (r >>= g) := by
  intro bytes s hs
  have hread : (r >>= g) (bytes.drop s.pos) =
      (r (bytes.drop s.pos)).bind fun x => g x.1 x.2 := rfl
  obtain ⟨hnone, hsome⟩ := hp bytes s hs
  rw [hread]
  cases hr : r (bytes.drop s.pos) with
  | none =>
    obtain ⟨pos, hpos⟩ := hnone hr
    exact ⟨fun _ => ⟨pos, bind_error hpos⟩, fun a rest h => (by cases h)⟩
  | some x =>
    obtain ⟨pos, hle, hpos, hrest⟩ := hsome x.1 x.2 hr
    rw [Option.bind_some, hrest, bind_ok hpos]
    exact hf x.1 bytes { s with pos := pos } hle

theorem Follows.map (h : α → β) (hp : Follows p r) :
    Follows (p >>= fun a => pure (h a)) (h <$> r) :=
  hp.bind fun a => follows_pure (h a)

theorem follows_fieldBe (w : ℕ) : Follows (fieldBe w) (readBe w) := (follows_field w).map beNat

theorem follows_fieldByte :
    Follows (do let bs ← field 1; pure (bs.headD 0)) readByte := by
  have hread : readByte = (fun bs : Bytes => bs.headD 0) <$> readBytes 1 := by
    funext bs
    cases bs <;> rfl
  rw [hread]
  exact (follows_field 1).map _

/-- **A counted repetition of a decoder follows that of its reader.** -/
theorem follows_many (hp : Follows p r) (n : ℕ) : Follows (many p n) (readMany r n) := by
  induction n with
  | zero => exact follows_pure []
  | succ n ih => exact hp.bind fun a => ih.bind fun as => follows_pure (a :: as)

end Follows

/-! ### What a counted repetition reads -/

section ReadMany

variable {α : Type} {r : Reader α} {P : α → Prop}

/-- One more value is read first. -/
theorem readMany_succ_eq_some {n : ℕ} {bs rest : Bytes} {as : List α}
    (h : readMany r (n + 1) bs = some (as, rest)) :
    ∃ a bs' as', r bs = some (a, bs') ∧ readMany r n bs' = some (as', rest) ∧ as = a :: as' := by
  obtain ⟨⟨a, bs'⟩, ha, h⟩ := Option.bind_eq_some_iff.mp
    (show (r bs).bind (fun x => (readMany r n x.2).bind fun y =>
      some (x.1 :: y.1, y.2)) = some (as, rest) from h)
  obtain ⟨⟨as', bs''⟩, has, h⟩ := Option.bind_eq_some_iff.mp h
  obtain ⟨rfl, rfl⟩ := Prod.mk.inj (Option.some.inj h)
  exact ⟨a, bs', as', ha, has, rfl⟩

/-- A counted repetition reads as many values as it was asked for, and each of them is one
that the reader returns. -/
theorem readMany_spec (hr : ∀ bs a rest, r bs = some (a, rest) → P a) :
    ∀ {n bs as rest}, readMany r n bs = some (as, rest) → as.length = n ∧ ∀ a ∈ as, P a
  | 0, bs, as, rest, h => by
    obtain ⟨rfl, rfl⟩ := Prod.mk.inj (Option.some.inj h)
    exact ⟨rfl, by simp⟩
  | n + 1, bs, as, rest, h => by
    obtain ⟨a, bs', as', ha, has, rfl⟩ := readMany_succ_eq_some h
    obtain ⟨hlen, hall⟩ := readMany_spec hr has
    exact ⟨by rw [List.length_cons, hlen], List.forall_mem_cons.mpr ⟨hr bs a bs' ha, hall⟩⟩

end ReadMany

section ReadBe

variable {w n : ℕ} {bs rest : Bytes}

theorem readBe_of_lt (h : bs.length < w) : readBe w bs = none := by
  have hread : readBytes w bs = none := if_pos h
  simp [readBe, Functor.map, StateT.map, hread]

theorem readBe_of_le (h : w ≤ bs.length) :
    readBe w bs = some (beNat (bs.take w), bs.drop w) := by
  have hread : readBytes w bs = some (bs.take w, bs.drop w) := if_neg (Nat.not_lt.mpr h)
  simp [readBe, Functor.map, StateT.map, hread]

/-- A number read in a width is below it. -/
theorem readBe_lt (h : readBe w bs = some (n, rest)) : n < 256 ^ w := by
  rcases Nat.lt_or_ge bs.length w with hlen | hlen
  · rw [readBe_of_lt hlen] at h
    cases h
  · rw [readBe_of_le hlen] at h
    obtain ⟨rfl, -⟩ := Prod.mk.inj (Option.some.inj h)
    have hlt := beNat_lt (bs.take w)
    rwa [List.length_take, min_eq_left hlen] at hlt

end ReadBe

end Noxu.Library
