import Noxu.Library.Wire
import Noxu.Util.Packed

/-!
# Two-Part Keys

A database with sorted duplicates stores a record under its key and its data in one byte string:
the key, the data, and the length of the key, packed so that it is read **from the end**. Lengths
up to 119 are one byte; a longer one is its excess over 119, most significant byte first, and a
marker that tells the number of bytes.

The functions that take such a string apart are given any byte string. An index or a slice past the
end, a subtraction below zero and a sum past the width are panics here, so that returning is a
statement.

## Main results

* `readPackedIntFromEnd_concat`: the reader returns, with the length and the bytes it took;
* `two_part_keys_right`: **keys and data are read back, the comparison is that of the pairs, and
  the functions return for every byte string.**
-/

open Std

namespace Noxu

open Library

/-! ### The packed length -/

/-- The bytes of a packed length. -/
def packedIntLen (value : ℕ) : ℕ :=
  if value ≤ 119 then 1
  else if value - 119 ≤ 0xFF then 2
  else if value - 119 ≤ 0xFFFF then 3
  else if value - 119 ≤ 0xFFFFFF then 4
  else 5

/-- The length written over the bytes from an offset on. -/
def writePackedIntAt (buf : Bytes) (startOff value : ℕ) : Bytes :=
  let len := packedIntLen value
  let buf := buf ++ List.replicate (startOff + len - buf.length) 0
  if value ≤ 119 then buf.set startOff (UInt8.ofNat value)
  else
    let absVal := value - 119
    let markerOff := startOff + len - 1
    match len with
    | 2 => (buf.set startOff (UInt8.ofNat absVal)).set markerOff 120
    | 3 =>
      ((buf.set startOff (UInt8.ofNat (absVal >>> 8))).set (startOff + 1)
        (UInt8.ofNat absVal)).set markerOff 121
    | 4 =>
      (((buf.set startOff (UInt8.ofNat (absVal >>> 16))).set (startOff + 1)
        (UInt8.ofNat (absVal >>> 8))).set (startOff + 2) (UInt8.ofNat absVal)).set markerOff 122
    | 5 =>
      ((((buf.set startOff (UInt8.ofNat (absVal >>> 24))).set (startOff + 1)
        (UInt8.ofNat (absVal >>> 16))).set (startOff + 2) (UInt8.ofNat (absVal >>> 8))).set
          (startOff + 3) (UInt8.ofNat absVal)).set markerOff 123
    | _ => buf

/-- What a function that may panic returns. -/
abbrev Checked := Except (Stop Empty)

namespace Checked

/-- `bs[i]`. -/
def index (bs : Bytes) (i : ℕ) : Checked UInt8 :=
  match bs[i]? with
  | some b => .ok b
  | none => .error .panicked

/-- `&bs[first..last]`. -/
def slice (bs : Bytes) (first last : ℕ) : Checked Bytes :=
  if first ≤ last ∧ last ≤ bs.length then .ok ((bs.take last).drop first) else .error .panicked

/-- `a - b` on `usize`. -/
def sub (a b : ℕ) : Checked ℕ := if b ≤ a then .ok (a - b) else .error .panicked

/-- `a + b` on `usize`. -/
def add (a b : ℕ) : Checked ℕ := if a + b < 2 ^ 64 then .ok (a + b) else .error .panicked

end Checked

/-- The loop over the value bytes, most significant first. -/
def readAbsVal (buf : Bytes) (valStart byteLen : ℕ) : Checked ℕ :=
  (List.range byteLen).foldlM (fun absVal i => do
    let b ← Checked.index buf (valStart + i)
    pure ((absVal <<< 8) % 256 ^ 8 ||| b.toNat)) 0

/-- The length at the end of a byte string, and the number of bytes it takes. As a signed byte the
marker is between 0 and 119 exactly if it is at most 119. -/
def readPackedIntFromEnd (buf : Bytes) : Checked (Option (ℕ × ℕ)) :=
  if buf.isEmpty then pure none
  else do
    let last ← Checked.sub buf.length 1
    let marker ← Checked.index buf last
    if marker.toNat ≤ 119 then pure (some (marker.toNat, 1))
    else if ¬ (120 ≤ marker.toNat ∧ marker.toNat ≤ 123) then pure none
    else do
      let byteLen ← Checked.sub marker.toNat 119
      let totalLen := byteLen + 1
      if buf.length < totalLen then pure none
      else do
        let valStart ← Checked.sub buf.length totalLen
        let absVal ← readAbsVal buf valStart byteLen
        let keySize ← Checked.add absVal 119
        pure (some (keySize, totalLen))

/-! ### Two-part keys -/

/-- `combine`: the key, the data and the packed length of the key. -/
def combine (key data : Bytes) : Bytes :=
  writePackedIntAt (key ++ data ++ List.replicate (packedIntLen key.length) 0)
    (key.length + data.length) key.length

/-- The bounds of the two parts, if the string is well formed. -/
def partBounds (twoPartKey : Bytes) : Checked (Option (ℕ × ℕ)) := do
  match ← readPackedIntFromEnd twoPartKey with
  | none => pure none
  | some (keySize, sizeLen) =>
    if twoPartKey.length < sizeLen then pure none
    else
      let dataEnd := twoPartKey.length - sizeLen
      if dataEnd < keySize then pure none else pure (some (keySize, dataEnd))

/-- `split`: the two parts of a composite. -/
def split (twoPartKey : Bytes) : Checked (Option (Bytes × Bytes)) := do
  match ← partBounds twoPartKey with
  | none => pure none
  | some (keySize, dataEnd) =>
    let key ← Checked.slice twoPartKey 0 keySize
    let data ← Checked.slice twoPartKey keySize dataEnd
    pure (some (key, data))

/-- `get_key`: the first part. -/
def getKey (twoPartKey : Bytes) : Checked (Option Bytes) := do
  match ← partBounds twoPartKey with
  | none => pure none
  | some (keySize, _) =>
    let key ← Checked.slice twoPartKey 0 keySize
    pure (some key)

/-- `matches_key`. -/
def matchesKey (twoPartKey primaryKey : Bytes) : Checked Bool := do
  let key ← getKey twoPartKey
  pure (key.any (· = primaryKey))

/-- Strings that are not well formed compare as equal to all. -/
def cmpTwoPartKeys (a b : Bytes) (keyCmp dataCmp : Bytes → Bytes → Ordering) :
    Checked Ordering := do
  match ← split a with
  | none => pure .eq
  | some (aKey, aData) =>
    match ← split b with
    | none => pure .eq
    | some (bKey, bData) => pure ((keyCmp aKey bKey).then (dataCmp aData bData))

/-! ### Reading from the end -/

/-- A value is handed on. -/
theorem Checked.ok_bind {α β : Type} (a : α) (f : α → Checked β) :
    ((Except.ok a : Checked α) >>= f) = f a := rfl

/-- A difference that is not negative. -/
theorem Checked.sub_of_le {a b : ℕ} (h : b ≤ a) : Checked.sub a b = .ok (a - b) := if_pos h

/-- A slice inside of the bytes. -/
theorem Checked.slice_of_le {bs : Bytes} {first last : ℕ} (h : first ≤ last)
    (hlast : last ≤ bs.length) : Checked.slice bs first last = .ok ((bs.take last).drop first) :=
  if_pos ⟨h, hlast⟩

/-- A byte inside of the bytes. -/
theorem Checked.index_of_lt {bs : Bytes} {i : ℕ} (h : i < bs.length) :
    Checked.index bs i = .ok (bs.get ⟨i, h⟩) := by
  simp [Checked.index, List.getElem?_eq_getElem h]

/-- The loop over the value bytes collects the number they denote. -/
theorem readAbsVal_eq {buf : Bytes} {start n : ℕ} (hlen : start + n ≤ buf.length)
    (hn : n ≤ 8) : readAbsVal buf start n = .ok (beNat ((buf.drop start).take n)) := by
  induction n with
  | zero => rfl
  | succ n ih =>
    set b := buf.get ⟨start + n, by omega⟩ with hb
    have hlow : (buf.drop start).take (n + 1) = (buf.drop start).take n ++ [b] := by
      rw [List.take_add_one, List.getElem?_drop, List.getElem?_eq_getElem (by omega)]
      rfl
    have hwidth : 256 ^ ((buf.drop start).take (n + 1)).length ≤ 256 ^ 8 := by
      refine Nat.pow_le_pow_right (by norm_num) ?_
      rw [List.length_take]
      omega
    have hlt := (beNat_lt ((buf.drop start).take (n + 1))).trans_le hwidth
    have hstep : readAbsVal buf start (n + 1) = (do
        let absVal ← readAbsVal buf start n
        let b ← Checked.index buf (start + n)
        pure ((absVal <<< 8) % 256 ^ 8 ||| b.toNat)) := by
      simp [readAbsVal, List.range_succ]
    rw [hlow, beNat_concat] at hlt
    rw [hstep, ih (by omega) (by omega), Checked.index_of_lt (by omega), hlow, beNat_concat]
    show Except.ok _ = Except.ok _
    rw [shift_or_byte (by norm_num), ← hb, Nat.mod_eq_of_lt hlt]

/-- **The reader returns**: the length is that of a marker alone or of a marker and the bytes in
front of it. -/
theorem readPackedIntFromEnd_concat (init : Bytes) (marker : UInt8) :
    readPackedIntFromEnd (init ++ [marker]) = .ok (
      if marker.toNat ≤ 119 then some (marker.toNat, 1)
      else if 123 < marker.toNat ∨ init.length < marker.toNat - 119 then none
      else some (beNat (init.drop (init.length - (marker.toNat - 119))) + 119,
        marker.toNat - 118)) := by
  have hlast : (init ++ [marker]).length - 1 = init.length := by simp
  have hindex : Checked.index (init ++ [marker]) init.length = .ok marker := by
    simp [Checked.index]
  have hne : ¬ (init ++ [marker]).isEmpty = true := by simp
  rw [readPackedIntFromEnd, if_neg hne, Checked.sub_of_le (by simp), Checked.ok_bind, hlast, hindex,
    Checked.ok_bind]
  by_cases hsmall : marker.toNat ≤ 119
  · rw [if_pos hsmall, if_pos hsmall]
    rfl
  rw [if_neg hsmall, if_neg hsmall]
  by_cases hbig : 123 < marker.toNat
  · rw [if_pos (by omega), if_pos (.inl hbig)]
    rfl
  rw [if_neg (by omega), Checked.sub_of_le (by omega), Checked.ok_bind]
  have hlen : (init ++ [marker]).length = init.length + 1 := by simp
  dsimp only
  by_cases hshort : init.length < marker.toNat - 119
  · rw [if_pos (by omega), if_pos (.inr hshort)]
    rfl
  have hbytes : ((init ++ [marker]).drop (init.length - (marker.toNat - 119))).take
      (marker.toNat - 119) = init.drop (init.length - (marker.toNat - 119)) := by
    rw [List.drop_append_of_le_length (by omega), List.take_append_of_le_length (by simp; omega),
      List.take_of_length_le (by simp; omega)]
  have hlt := beNat_lt (init.drop (init.length - (marker.toNat - 119)))
  have hwidth : 256 ^ (init.drop (init.length - (marker.toNat - 119))).length ≤ 256 ^ 4 :=
    Nat.pow_le_pow_right (by norm_num) (by simp; omega)
  rw [if_neg (by omega), if_neg (by omega), Checked.sub_of_le (by omega), Checked.ok_bind,
    show (init ++ [marker]).length - (marker.toNat - 119 + 1) =
      init.length - (marker.toNat - 119) by omega, readAbsVal_eq (by omega) (by omega),
    Checked.ok_bind, hbytes, Checked.add, if_pos (by omega), Checked.ok_bind]
  show Except.ok (some _) = Except.ok (some _)
  rw [show marker.toNat - 119 + 1 = marker.toNat - 118 by omega]

/-- No bytes make the reader of the length panic. -/
theorem readPackedIntFromEnd_returns (buf : Bytes) :
    ∃ o, readPackedIntFromEnd buf = .ok o := by
  rcases List.eq_nil_or_concat buf with rfl | ⟨init, marker, rfl⟩
  · exact ⟨none, rfl⟩
  · rw [List.concat_eq_append, readPackedIntFromEnd_concat]
    exact ⟨_, rfl⟩

/-! ### The functions return -/

/-- The bounds of the parts are inside of the bytes. -/
theorem partBounds_returns (buf : Bytes) :
    ∃ o, partBounds buf = .ok o ∧ ∀ b ∈ o, b.1 ≤ b.2 ∧ b.2 ≤ buf.length := by
  obtain ⟨o, ho⟩ := readPackedIntFromEnd_returns buf
  rw [partBounds, ho, Checked.ok_bind]
  cases o with
  | none => exact ⟨none, rfl, nofun⟩
  | some b =>
    dsimp only
    split
    · exact ⟨none, rfl, nofun⟩
    · split
      · exact ⟨none, rfl, nofun⟩
      · refine ⟨_, rfl, ?_⟩
        rintro _ ⟨⟩
        exact ⟨by omega, by omega⟩

/-- No bytes make `split` panic. -/
theorem split_returns (buf : Bytes) : ∃ o, split buf = .ok o := by
  obtain ⟨o, ho, hbounds⟩ := partBounds_returns buf
  rw [split, ho, Checked.ok_bind]
  cases o with
  | none => exact ⟨none, rfl⟩
  | some b =>
    obtain ⟨hle, hend⟩ := hbounds b rfl
    dsimp only
    rw [Checked.slice_of_le (Nat.zero_le _) (hle.trans hend), Checked.ok_bind,
      Checked.slice_of_le hle hend]
    exact ⟨_, rfl⟩

/-- Nor `get_key`. -/
theorem getKey_returns (buf : Bytes) : ∃ o, getKey buf = .ok o := by
  obtain ⟨o, ho, hbounds⟩ := partBounds_returns buf
  rw [getKey, ho, Checked.ok_bind]
  cases o with
  | none => exact ⟨none, rfl⟩
  | some b =>
    obtain ⟨hle, hend⟩ := hbounds b rfl
    dsimp only
    rw [Checked.slice_of_le (Nat.zero_le _) (hle.trans hend)]
    exact ⟨_, rfl⟩

/-- Nor `matches_key`. -/
theorem matchesKey_returns (buf primaryKey : Bytes) :
    ∃ found, matchesKey buf primaryKey = .ok found := by
  obtain ⟨o, ho⟩ := getKey_returns buf
  rw [matchesKey, ho]
  exact ⟨_, rfl⟩

/-- Nor the comparison. -/
theorem cmpTwoPartKeys_returns (a b : Bytes)
    (keyCmp dataCmp : Bytes → Bytes → Ordering) :
    ∃ ord, cmpTwoPartKeys a b keyCmp dataCmp = .ok ord := by
  obtain ⟨o, ho⟩ := split_returns a
  obtain ⟨o', ho'⟩ := split_returns b
  rw [cmpTwoPartKeys, ho, Checked.ok_bind]
  cases o with
  | none => exact ⟨.eq, rfl⟩
  | some p =>
    dsimp only
    rw [ho', Checked.ok_bind]
    cases o' with
    | none => exact ⟨.eq, rfl⟩
    | some q => exact ⟨_, rfl⟩

/-! ### Keys and data are read back -/

/-- A length that five bytes can tell. -/
def Packable (value : ℕ) : Prop := value - 119 < 2 ^ 32

/-- The packed form of a length. -/
def packedInt (value : ℕ) : Bytes :=
  if value ≤ 119 then [UInt8.ofNat value]
  else beBytes (packedIntLen value - 1) (value - 119) ++ [UInt8.ofNat (118 + packedIntLen value)]

/-- The value bytes hold the length. -/
theorem packedIntLen_spec {value : ℕ} (h : 119 < value) (hp : Packable value) :
    2 ≤ packedIntLen value ∧ packedIntLen value ≤ 5 ∧
      value - 119 < 256 ^ (packedIntLen value - 1) := by
  rw [packedIntLen]
  rw [Packable] at hp
  rw [if_neg (by omega)]
  split_ifs <;> norm_num <;> omega

/-- The packed length has the bytes announced. -/
theorem length_packedInt (value : ℕ) : (packedInt value).length = packedIntLen value := by
  rw [packedInt]
  split
  · rename_i h
    simp [packedIntLen, h]
  · have hpos : 1 ≤ packedIntLen value := by
      rw [packedIntLen]
      split_ifs <;> omega
    simp
    omega

/-- Writing in place appends the packed length. -/
theorem writePackedIntAt_eq (pre : Bytes) (value : ℕ) :
    writePackedIntAt (pre ++ List.replicate (packedIntLen value) 0) pre.length value =
      pre ++ packedInt value := by
  have hset : ∀ (l : Bytes) (i : ℕ) (b : UInt8),
      (pre ++ l).set (pre.length + i) b = pre ++ l.set i b := by
    intro l i b
    rw [List.set_append_right _ _ (by omega), Nat.add_sub_cancel_left]
  have hset₀ : ∀ (l : Bytes) (b : UInt8),
      (pre ++ l).set pre.length b = pre ++ l.set 0 b := fun l b => hset l 0 b
  have hfull : ∀ n, pre.length + n - (pre ++ List.replicate n (0 : UInt8)).length = 0 := by simp
  rw [writePackedIntAt, packedInt]
  dsimp only
  rw [hfull, List.replicate_zero, List.append_nil]
  by_cases h119 : value ≤ 119
  · rw [if_pos h119, if_pos h119, hset₀]
    simp [packedIntLen, h119]
  rw [if_neg h119, if_neg h119]
  rw [packedIntLen]
  rw [if_neg h119]
  split_ifs <;>
    simp [hset, hset₀, List.replicate, beBytes, leBytes, Nat.shiftRight_eq_div_pow,
      Nat.div_div_eq_div_mul]

/-- **What a composite is.** -/
theorem combine_eq (key data : Bytes) :
    combine key data = key ++ data ++ packedInt key.length := by
  rw [combine, ← List.length_append, writePackedIntAt_eq]

/-- The packed length is read back behind anything. -/
theorem readPackedIntFromEnd_packedInt (pre : Bytes) {value : ℕ} (hp : Packable value) :
    readPackedIntFromEnd (pre ++ packedInt value) = .ok (some (value, packedIntLen value)) := by
  rw [packedInt]
  split
  · rename_i h
    have hmarker : (UInt8.ofNat value).toNat = value := by
      rw [UInt8.toNat_ofNat']
      omega
    rw [readPackedIntFromEnd_concat, hmarker, if_pos h, packedIntLen, if_pos h]
  · rename_i h
    obtain ⟨htwo, hfive, hlt⟩ := packedIntLen_spec (by omega) hp
    have hmarker : (UInt8.ofNat (118 + packedIntLen value)).toNat = 118 + packedIntLen value := by
      rw [UInt8.toNat_ofNat']
      omega
    have hdrop : (pre ++ beBytes (packedIntLen value - 1) (value - 119)).drop
        ((pre ++ beBytes (packedIntLen value - 1) (value - 119)).length -
          (118 + packedIntLen value - 119)) = beBytes (packedIntLen value - 1) (value - 119) := by
      rw [List.length_append, length_beBytes,
        show pre.length + (packedIntLen value - 1) - (118 + packedIntLen value - 119) = pre.length
          by omega, List.drop_left]
    rw [← List.append_assoc, readPackedIntFromEnd_concat, hmarker, if_neg (by omega),
      if_neg (by simp; omega), hdrop, beNat_beBytes_of_lt hlt,
      Nat.sub_add_cancel (by omega : 119 ≤ value), Nat.add_sub_cancel_left]

/-- The bounds of a composite are those of its parts. -/
theorem partBounds_combine {key : Bytes} (hp : Packable key.length) (data : Bytes) :
    partBounds (combine key data) = .ok (some (key.length, (key ++ data).length)) := by
  have hlen : (key ++ data ++ packedInt key.length).length =
      (key ++ data).length + packedIntLen key.length := by
    rw [List.length_append, length_packedInt]
  rw [combine_eq, partBounds, readPackedIntFromEnd_packedInt _ hp, Checked.ok_bind]
  dsimp only
  rw [hlen, if_neg (by omega), Nat.add_sub_cancel, if_neg (by simp)]
  rfl

/-- The bytes of the key. -/
theorem slice_key (key data : Bytes) :
    Checked.slice (combine key data) 0 key.length = .ok key := by
  rw [combine_eq, Checked.slice_of_le (by simp) (by simp), List.append_assoc, List.take_left]
  rfl

/-- The bytes of the data. -/
theorem slice_data (key data : Bytes) :
    Checked.slice (combine key data) key.length (key ++ data).length = .ok data := by
  rw [combine_eq, Checked.slice_of_le (by simp) (by simp), List.take_left, List.drop_left]

/-- **A composite is taken apart again.** -/
theorem split_combine {key : Bytes} (hp : Packable key.length) (data : Bytes) :
    split (combine key data) = .ok (some (key, data)) := by
  rw [split, partBounds_combine hp, Checked.ok_bind]
  dsimp only
  rw [slice_key, Checked.ok_bind, slice_data, Checked.ok_bind]
  rfl

/-- Its key alone. -/
theorem getKey_combine {key : Bytes} (hp : Packable key.length) (data : Bytes) :
    getKey (combine key data) = .ok (some key) := by
  rw [getKey, partBounds_combine hp, Checked.ok_bind]
  dsimp only
  rw [slice_key, Checked.ok_bind]
  rfl

/-! ### The order of two-part keys -/

/-- A key whose length can be packed, with its data. -/
abbrev KeyData := { key : Bytes // Packable key.length } × Bytes

/-- The byte strings that stand for keys with data. -/
abbrev Composite := { c : Bytes // ∃ p : KeyData, combine p.1 p.2 = c }

/-- The composite of a key and its data. -/
def KeyData.composite (p : KeyData) : Composite := ⟨combine p.1 p.2, p, rfl⟩

/-- The lexicographic comparison of keys with data. -/
def KeyData.cmp (keyCmp dataCmp : Bytes → Bytes → Ordering) (p q : KeyData) : Ordering :=
  (keyCmp p.1 q.1).then (dataCmp p.2 q.2)

/-- Comparing keys and then data is an order if both comparators are. -/
theorem transCmp_keyDataCmp (keyCmp dataCmp : Bytes → Bytes → Ordering)
    [TransCmp keyCmp] [TransCmp dataCmp] : TransCmp (KeyData.cmp keyCmp dataCmp) := by
  have hkey : TransCmp fun p q : KeyData => keyCmp p.1 q.1 :=
    { eq_swap := OrientedCmp.eq_swap, isLE_trans := TransCmp.isLE_trans }
  have hdata : TransCmp fun p q : KeyData => dataCmp p.2 q.2 :=
    { eq_swap := OrientedCmp.eq_swap, isLE_trans := TransCmp.isLE_trans }
  exact inferInstanceAs (TransCmp (compareLex (fun p q : KeyData => keyCmp p.1 q.1)
    fun p q => dataCmp p.2 q.2))

/-- Composites compare as their parts. -/
theorem cmpTwoPartKeys_combine (keyCmp dataCmp : Bytes → Bytes → Ordering)
    (p q : KeyData) :
    cmpTwoPartKeys (combine p.1 p.2) (combine q.1 q.2) keyCmp dataCmp =
      .ok (p.cmp keyCmp dataCmp q) := by
  rw [cmpTwoPartKeys, split_combine p.1.2, Checked.ok_bind]
  dsimp only
  rw [split_combine q.1.2, Checked.ok_bind]
  rfl

/-- Different pairs have different composites. -/
theorem composite_injective : Function.Injective KeyData.composite := by
  intro p q h
  have hsplit := congrArg split (congrArg Subtype.val h)
  rw [KeyData.composite, KeyData.composite, split_combine p.1.2, split_combine q.1.2] at hsplit
  obtain ⟨hkey, hdata⟩ := Prod.mk.inj (Option.some.inj (Except.ok.inj hsplit))
  exact Prod.ext (Subtype.ext hkey) hdata

/-- **Two-part keys.** Whatever the key, of a length that can be packed, and the data, both are read
back from their composite, so that different pairs have different composites. For all total
preorders of keys and of data the comparison of composites is a total preorder, and it is the
lexicographic one of the pairs. And for every byte string, well formed or not, the functions that
take it apart return. -/
theorem two_part_keys_right :
    (∀ p : KeyData, split (combine p.1 p.2) = .ok (some (p.1, p.2)) ∧
      getKey (combine p.1 p.2) = .ok (some p.1)) ∧
    Function.Injective KeyData.composite ∧
    (∀ (keyCmp dataCmp : Bytes → Bytes → Ordering) [TransCmp keyCmp] [TransCmp dataCmp],
      ∃ cmp : Composite → Composite → Ordering, TransCmp cmp ∧
        (∀ a b : Composite, cmpTwoPartKeys a b keyCmp dataCmp = .ok (cmp a b)) ∧
        ∀ p q : KeyData, cmp p.composite q.composite = p.cmp keyCmp dataCmp q) ∧
    ∀ a b : Bytes,
      (∃ o, split a = .ok o) ∧ (∃ o, getKey a = .ok o) ∧ (∃ found, matchesKey a b = .ok found) ∧
        ∀ keyCmp dataCmp, ∃ ord, cmpTwoPartKeys a b keyCmp dataCmp = .ok ord := by
  refine ⟨fun p => ⟨split_combine p.1.2 p.2, getKey_combine p.1.2 p.2⟩, composite_injective, ?_,
    fun a b => ⟨split_returns a, getKey_returns a, matchesKey_returns a b,
      cmpTwoPartKeys_returns a b⟩⟩
  intro keyCmp dataCmp _ _
  have htrans := transCmp_keyDataCmp keyCmp dataCmp
  have hdecode : ∀ c : Composite, KeyData.composite c.2.choose = c := fun c =>
    Subtype.ext c.2.choose_spec
  refine ⟨fun a b => KeyData.cmp keyCmp dataCmp a.2.choose b.2.choose, ?_, ?_, ?_⟩
  · exact { eq_swap := htrans.eq_swap, isLE_trans := htrans.isLE_trans }
  · intro a b
    rw [← cmpTwoPartKeys_combine, a.2.choose_spec, b.2.choose_spec]
  · intro p q
    dsimp only
    rw [composite_injective (hdecode p.composite), composite_injective (hdecode q.composite)]

/-- Both parts in the order of bytes. -/
theorem two_part_keys_right_bytes :
    ∃ cmp : Composite → Composite → Ordering, TransCmp cmp ∧
      (∀ a b : Composite, cmpTwoPartKeys a b compare compare = .ok (cmp a b)) ∧
      ∀ p q : KeyData, cmp p.composite q.composite = p.cmp compare compare q :=
  two_part_keys_right.2.2.1 compare compare

end Noxu
