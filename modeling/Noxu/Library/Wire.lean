import Noxu.Library.Bytes

/-!
# Decoders with Errors

A decoder walks over a byte string by position and ends with a value, with an **error** of its own,
or with a **panic**: a slice past the end. Two relations are kept along its structure, one for each
half of what is asked of a codec.

* `Decodes p bs a`: wherever the bytes `bs` stand in a byte string, the decoder takes them and
  returns `a`;
* `Ensures k p P`: with `k` bytes left, the decoder does not panic, stays in the byte string, and
  returns only values with `P`.
-/

namespace Noxu.Library

/-- How a decoder ends without a value. -/
inductive Stop (ε : Type) where
  /-- An error of the decoder. -/
  | error (e : ε)
  /-- A slice past the end. -/
  | panicked
  deriving DecidableEq, Repr

/-- A decoder over positions. -/
abbrev Wire (ε : Type) := ReaderT Bytes (StateT ℕ (Except (Stop ε)))

namespace Wire

variable {ε α β : Type}

/-- An error unless this many bytes are left; it may name the position and what is left. -/
def ensure (n : ℕ) (err : ℕ → ℕ → ε) : Wire ε Unit := fun data pos =>
  if data.length < pos + n then .error (.error (err pos (data.length - pos))) else .ok ((), pos)

/-- Slice out the next bytes. -/
def slice (n : ℕ) : Wire ε Bytes := fun data pos =>
  if data.length < pos + n then .error .panicked else .ok ((data.drop pos).take n, pos + n)

/-- Take the next bytes, or an error if they are not there. -/
def bytes (n : ℕ) (err : ℕ → ℕ → ε) : Wire ε Bytes := do
  ensure n err
  slice n

/-- Take a number of `w` bytes, most significant first. -/
def number (w : ℕ) (err : ℕ → ℕ → ε) : Wire ε ℕ := beNat <$> bytes w err

/-- An error of the decoder. -/
def fail (e : ε) : Wire ε α := fun _ _ => .error (.error e)

/-- The value of an option, or an error. -/
def ofOption (e : ε) : Option α → Wire ε α
  | some a => pure a
  | none => fail e

/-- Decode from the start of a byte string. -/
def run (p : Wire ε α) (data : Bytes) : Except (Stop ε) α := (p data 0).map Prod.fst

theorem bind_apply (p : Wire ε α) (f : α → Wire ε β) (data : Bytes) (pos : ℕ) :
    (p >>= f) data pos = match p data pos with
      | .ok (a, pos') => f a data pos'
      | .error e => .error e := by
  have hrun : (p >>= f) data pos = (p data pos).bind fun r => f r.1 data r.2 := rfl
  rw [hrun]
  rcases p data pos with e | ⟨a, pos'⟩ <;> rfl

theorem map_apply (g : α → β) (p : Wire ε α) (data : Bytes) (pos : ℕ) :
    (g <$> p) data pos = (p data pos).map fun r => (g r.1, r.2) := by
  have hrun : (g <$> p) data pos = (fun r : α × ℕ => (g r.1, r.2)) <$> p data pos := rfl
  rw [hrun]
  rfl

/-! ### Values that are read back -/

/-- The decoder takes these bytes, wherever they stand, and returns this value. -/
def Decodes (p : Wire ε α) (bs : Bytes) (a : α) : Prop :=
  ∀ before rest, p (before ++ (bs ++ rest)) before.length = .ok (a, before.length + bs.length)

section Decodes

variable {p : Wire ε α} {f : α → Wire ε β} {a : α} {b : β} {bs cs : Bytes} {n : ℕ}

theorem decodes_pure (a : α) : Decodes (pure a : Wire ε α) [] a := fun _ _ => rfl

/-- Decoders in sequence take concatenated fields. -/
theorem Decodes.bind (hp : Decodes p bs a) (hf : Decodes (f a) cs b) :
    Decodes (p >>= f) (bs ++ cs) b := by
  intro before rest
  have hfirst := hp before (cs ++ rest)
  have hsecond := hf (before ++ bs) rest
  rw [List.append_assoc, List.length_append] at hsecond
  rw [bind_apply, List.append_assoc, hfirst]
  simp only [hsecond, List.length_append, Nat.add_assoc]

/-- A decoder that takes nothing more may follow. -/
theorem Decodes.bind_nil (hp : Decodes p bs a) (hf : Decodes (f a) [] b) :
    Decodes (p >>= f) bs b := by
  simpa using hp.bind hf

theorem Decodes.map (g : α → β) (hp : Decodes p bs a) : Decodes (g <$> p) bs (g a) := by
  rw [map_eq_pure_bind]
  exact hp.bind_nil (decodes_pure (g a))

/-- No bytes that a decoder takes are a proper prefix of others that it takes. -/
theorem Decodes.eq_of_isPrefix {a' : α} (h : Decodes p bs a) (h' : Decodes p cs a')
    (hpre : bs <+: cs) : a = a' := by
  obtain ⟨rest, rfl⟩ := hpre
  have hall := h' [] []
  rw [List.append_nil, h [] rest] at hall
  exact (Prod.mk.inj (Except.ok.inj hall)).1

theorem decodes_slice (h : bs.length = n) : Decodes (slice n : Wire ε _) bs bs := by
  intro before rest
  subst h
  simp [slice]

/-- The bytes of a field are enough for a check of its length. -/
theorem Decodes.ensure {err : ℕ → ℕ → ε} {f : Unit → Wire ε β} (hlen : n ≤ bs.length)
    (hf : Decodes (f ()) bs b) : Decodes (ensure n err >>= f) bs b := by
  intro before rest
  have hfits : ¬ (before ++ (bs ++ rest)).length < before.length + n := by
    simp only [List.length_append]
    omega
  rw [bind_apply, Wire.ensure, if_neg hfits]
  exact hf before rest

theorem decodes_bytes {err : ℕ → ℕ → ε} (bs : Bytes) : Decodes (bytes bs.length err) bs bs :=
  .ensure le_rfl (decodes_slice rfl)

theorem decodes_number {err : ℕ → ℕ → ε} {w : ℕ} (h : n < 256 ^ w) :
    Decodes (number w err) (beBytes w n) n := by
  have hbytes : Decodes (bytes _ err) (beBytes w n) (beBytes w n) := decodes_bytes _
  have hread := hbytes.map beNat
  rwa [length_beBytes, beNat_beBytes_of_lt h] at hread

theorem decodes_ofOption {e : ε} {o : Option α} (h : o = some a) :
    Decodes (ofOption e o) [] a := by
  subst h
  exact decodes_pure a

/-- A decoder that takes the whole byte string. -/
theorem Decodes.run (hp : Decodes p bs a) : run p bs = .ok a := by
  have hall := hp [] []
  rw [List.append_nil] at hall
  rw [Wire.run, show p bs 0 = _ from hall]
  rfl

end Decodes

/-! ### Decoders that do not panic -/

/-- With `k` bytes left the decoder does not panic and stays in the byte string, and its values have
the property. -/
def Ensures (k : ℕ) (p : Wire ε α) (P : α → Prop) : Prop :=
  ∀ data pos, pos + k ≤ data.length →
    match p data pos with
    | .ok (a, pos') => pos' ≤ data.length ∧ P a
    | .error (.error _) => True
    | .error .panicked => False

section Ensures

variable {p : Wire ε α} {f : α → Wire ε β} {P : β → Prop} {Q : α → Prop} {k n : ℕ}

theorem ensures_pure {a : α} (h : Q a) : Ensures k (pure a : Wire ε α) Q :=
  fun _ _ hpos => ⟨(Nat.le_add_right _ _).trans hpos, h⟩

theorem ensures_fail (e : ε) : Ensures k (fail e : Wire ε α) Q := fun _ _ _ => trivial

theorem ensures_ofOption {e : ε} {o : Option α} (h : ∀ a, o = some a → Q a) :
    Ensures k (ofOption e o) Q := by
  cases o with
  | none => exact ensures_fail e
  | some a => exact ensures_pure (h a rfl)

theorem Ensures.mono {Q' : α → Prop} (hp : Ensures k p Q) (himp : ∀ a, Q a → Q' a) :
    Ensures k p Q' := by
  intro data pos hpos
  have h := hp data pos hpos
  rcases hrun : p data pos with (e | -) | ⟨a, pos'⟩ <;> rw [hrun] at h
  · trivial
  · exact h
  · exact ⟨h.1, himp a h.2⟩

theorem Ensures.bind (hp : Ensures k p Q) (hf : ∀ a, Q a → Ensures 0 (f a) P) :
    Ensures k (p >>= f) P := by
  intro data pos hpos
  have hfirst := hp data pos hpos
  rw [bind_apply]
  rcases hrun : p data pos with (e | -) | ⟨a, pos'⟩ <;> rw [hrun] at hfirst
  · trivial
  · exact hfirst
  · exact hf a hfirst.2 data pos' hfirst.1

theorem Ensures.map {g : α → β} (hp : Ensures k p fun a => P (g a)) : Ensures k (g <$> p) P := by
  rw [map_eq_pure_bind]
  exact hp.bind fun a ha => ensures_pure ha

/-- A check leaves that many bytes. -/
theorem Ensures.ensure {err : ℕ → ℕ → ε} {f : Unit → Wire ε β} (hf : Ensures n (f ()) P) :
    Ensures k (ensure n err >>= f) P := by
  intro data pos _
  rw [bind_apply, Wire.ensure]
  split_ifs with hlen
  · trivial
  · exact hf data pos (Nat.le_of_not_lt hlen)

/-- A slice takes its bytes from those that are left. -/
theorem Ensures.slice {f : Bytes → Wire ε β} (hf : ∀ bs, bs.length = n → Ensures k (f bs) P) :
    Ensures (n + k) (slice n >>= f) P := by
  intro data pos hpos
  rw [bind_apply, Wire.slice, if_neg (by omega)]
  exact hf _ (by rw [List.length_take, List.length_drop]; omega) data (pos + n) (by omega)

theorem ensures_bytes {err : ℕ → ℕ → ε} : Ensures k (bytes n err) fun _ => True := by
  refine .ensure ?_
  have hslice : Ensures (n + 0) (slice n >>= fun bs => (pure bs : Wire ε _)) fun _ => True :=
    .slice fun bs _ => ensures_pure trivial
  rwa [bind_pure] at hslice

theorem ensures_number {err : ℕ → ℕ → ε} {w : ℕ} : Ensures k (number w err) fun _ => True :=
  ensures_bytes.map

theorem Ensures.run_ne_panicked (hp : Ensures 0 p Q) (data : Bytes) :
    run p data ≠ .error .panicked := by
  have h := hp data 0 (Nat.zero_le _)
  intro hpanic
  unfold Wire.run at hpanic
  rcases hrun : p data 0 with e | ⟨a, pos'⟩
  · rw [hrun] at h hpanic
    cases hpanic
    exact h
  · rw [hrun] at hpanic
    cases hpanic

theorem Ensures.of_run (hp : Ensures 0 p Q) {data : Bytes} {a : α}
    (hrun : run p data = .ok a) : Q a := by
  have h := hp data 0 (Nat.zero_le _)
  unfold Wire.run at hrun
  rcases hdata : p data 0 with e | ⟨b, pos'⟩
  · rw [hdata] at hrun
    cases hrun
  · rw [hdata] at h hrun
    cases hrun
    exact h.2

end Ensures

end Wire

end Noxu.Library
