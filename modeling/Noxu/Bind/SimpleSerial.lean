import Noxu.Bind.TupleInput

/-!
# The Simple Serial Format

A binary format for values of any type that can be described to `serde`. It is not
self-describing: the bytes of a value say how long a string is, how many items a sequence has and
which variant an enum is, and the reader knows the rest from the type. A tuple, a struct and the
payload of a variant are their fields one behind the other.

Every value that can be written is read back, and no encoding is a prefix of another. What **cannot
be written** is a text or a byte buffer of 2³² bytes and more, which the serializer refuses.

## Main results

* `decodes_serialize`: by induction on the type, the bytes of a value are read as the value;
* `ensures_deserialize`: the reader does not leave the input;
* `serialize_ok_iff`: which values can be written;
* `simple_serial_round_trip`: the format as a whole.
-/

open Noxu.Library Wire

namespace Noxu

/-! ### Types and values -/

mutual

/-- The types. An integer is of `w` bytes, signed ones in two's complement; tuples and structs are
chains of fields that end in the unit. -/
inductive SerialType where
  | bool
  | int (w : ℕ)
  | char
  | str
  | bytes
  | unit
  | option (t : SerialType)
  | seq (t : SerialType)
  | map (k v : SerialType)
  | field (t rest : SerialType)
  | enum (vs : SerialVariants)

/-- The variants of an enum, each with its payload. -/
inductive SerialVariants where
  | nil
  | cons (payload : SerialType) (rest : SerialVariants)

end

mutual

/-- The values of a type. A map is the pairs that it is written as and built from. -/
def SerialType.Value : SerialType → Type
  | .bool => Bool
  | .int w => BitVec (8 * w)
  | .char => Char
  | .str => String
  | .bytes => Bytes
  | .unit => Unit
  | .option t => Option t.Value
  | .seq t => List t.Value
  | .map k v => List (k.Value × v.Value)
  | .field t rest => t.Value × rest.Value
  | .enum vs => vs.Value

/-- The values of the listed variants. -/
def SerialVariants.Value : SerialVariants → Type
  | .nil => Empty
  | .cons payload rest => payload.Value ⊕ rest.Value

end

/-- The number of variants. -/
def SerialVariants.length : SerialVariants → ℕ
  | .nil => 0
  | .cons _ rest => rest.length + 1

/-! ### The serializer -/

/-- A text or a buffer behind its length. -/
def serializeSized (what : String) (v : Bytes) : Except BindError Bytes :=
  if v.length < 2 ^ 32 then .ok (beBytes 4 v.length ++ v)
  else .error (.invalidData (what ++ " length " ++ toString v.length ++ " exceeds u32 max (" ++
    toString (2 ^ 32 - 1) ++ ")"))

/-- The items one behind the other. -/
def serializeItems {α : Type} (item : α → Except BindError Bytes) :
    List α → Except BindError Bytes
  | [] => .ok []
  | v :: vs => do
    let bs ← item v
    let rest ← serializeItems item vs
    pure (bs ++ rest)

mutual

/-- `serialize` of a type, field by field. -/
def SerialType.serialize : (t : SerialType) → t.Value → Except BindError Bytes
  | .bool => fun v : Bool => .ok [if v then 1 else 0]
  | .int w => fun v : BitVec (8 * w) => .ok (beBytes w v.toNat)
  | .char => fun v : Char => .ok (beBytes 4 v.val.toNat)
  | .str => fun v : String => serializeSized "serialize_str: string" (utf8 v)
  | .bytes => fun v : Bytes => serializeSized "serialize_bytes: payload" v
  | .unit => fun _ => .ok []
  | .option t => fun v : Option t.Value =>
    match v with
    | none => .ok [0]
    | some v => (t.serialize v).map ([1] ++ ·)
  -- the count is cast to 32 bits
  | .seq t => fun vs : List t.Value =>
    (serializeItems t.serialize vs).map (beBytes 4 vs.length ++ ·)
  | .map k v => fun ps : List (k.Value × v.Value) =>
    (serializeItems (fun p => do
      let key ← k.serialize p.1
      let value ← v.serialize p.2
      pure (key ++ value)) ps).map (beBytes 4 ps.length ++ ·)
  | .field t rest => fun v : t.Value × rest.Value => do
    let bs ← t.serialize v.1
    let more ← rest.serialize v.2
    pure (bs ++ more)
  | .enum vs => vs.serialize 0

/-- The variant with its index, counted from the given one. -/
def SerialVariants.serialize : (vs : SerialVariants) → ℕ → vs.Value →
    Except BindError Bytes
  | .nil => fun _ v => nomatch v
  | .cons payload rest => fun index v =>
    match v with
    | .inl v => (payload.serialize v).map (beBytes 4 index ++ ·)
    | .inr v => rest.serialize (index + 1) v

end

/-! ### The deserializer -/

/-- Take bytes, or report how many there are. -/
def readInput (n : ℕ) : TupleReader Bytes :=
  bytes n fun _ available => .bufferUnderflow n available

/-- Take a number of `w` bytes. -/
def readNumber (w : ℕ) : TupleReader ℕ :=
  number w fun _ available => .bufferUnderflow w available

/-- Take bytes behind their length. -/
def readSized : TupleReader Bytes := do
  let len ← readNumber 4
  readInput len

/-- Take a counted number of items. -/
def readCounted {α : Type} (item : TupleReader α) : ℕ → TupleReader (List α)
  | 0 => pure []
  | remaining + 1 => do
    let v ← item
    let vs ← readCounted item remaining
    pure (v :: vs)

mutual

/-- `deserialize` of a type. -/
def SerialType.deserialize : (t : SerialType) → TupleReader t.Value
  | .bool => (fun n => decide (n ≠ 0) : ℕ → Bool) <$> readNumber 1
  | .int w => BitVec.ofNat (8 * w) <$> readNumber w
  | .char => do
    let v ← readNumber 4
    ofOption (.invalidData ("invalid char code point: " ++ toString v))
      (if v.isValidChar then some (Char.ofNat v) else none)
  | .str => do
    let decoded ← readSized
    ofOption (.stringEncoding decoded) (ofUtf8 decoded)
  | .bytes => readSized
  | .unit => pure ()
  | .option t => do
    let tag ← readNumber 1
    if tag = 0 then pure none
    else if tag = 1 then some <$> t.deserialize
    else fail (.invalidData ("invalid option tag: " ++ toString tag))
  | .seq t => do
    let count ← readNumber 4
    readCounted t.deserialize count
  | .map k v => do
    let count ← readNumber 4
    readCounted (do let key ← k.deserialize; let value ← v.deserialize; pure (key, value)) count
  | .field t rest => do
    let v ← t.deserialize
    let more ← rest.deserialize
    pure (v, more)
  | .enum vs => do
    let index ← readNumber 4
    vs.deserialize (.invalidData ("invalid value: integer " ++ toString index ++
      ", expected variant index 0 <= i < " ++ toString vs.length)) index

/-- The variant with this index, or the error. -/
def SerialVariants.deserialize : (vs : SerialVariants) → BindError → ℕ → TupleReader vs.Value
  | .nil => fun err _ => fail err
  | .cons payload rest => fun err index =>
    match index with
    | 0 => Sum.inl <$> payload.deserialize
    | index + 1 => Sum.inr <$> rest.deserialize err index

end

/-- `to_bytes`. -/
def toBytes (t : SerialType) (v : t.Value) : Except BindError Bytes := t.serialize v

/-- Read a value that takes the whole input. -/
def fromBytes (t : SerialType) (input : Bytes) : Except (Stop BindError) t.Value :=
  match t.deserialize input 0 with
  | .error stop => .error stop
  | .ok (v, pos) =>
    if input.length < pos then .error .panicked
    else if pos < input.length then
      .error (.error (.invalidData ("trailing " ++ toString (input.length - pos) ++
        " bytes after deserialization")))
    else .ok v

/-! ### Sizes -/

/-- Conditions on the sizes that an encoding holds in 32 bits. -/
structure SizeLimits where
  text : ℕ → Prop
  count : ℕ → Prop
  variants : ℕ → Prop

mutual

/-- All sizes in a value meet their conditions. -/
def SerialType.Within (l : SizeLimits) : (t : SerialType) → t.Value → Prop
  | .bool => fun _ => True
  | .int _ => fun _ => True
  | .char => fun _ => True
  | .str => fun v : String => l.text (utf8 v).length
  | .bytes => fun v : Bytes => l.text v.length
  | .unit => fun _ => True
  | .option t => fun v : Option t.Value => ∀ x ∈ v, t.Within l x
  | .seq t => fun vs : List t.Value => l.count vs.length ∧ ∀ v ∈ vs, t.Within l v
  | .map k v => fun ps : List (k.Value × v.Value) =>
    l.count ps.length ∧ ∀ p ∈ ps, k.Within l p.1 ∧ v.Within l p.2
  | .field t rest => fun v : t.Value × rest.Value => t.Within l v.1 ∧ rest.Within l v.2
  | .enum vs => fun v => l.variants vs.length ∧ vs.Within l v

/-- The limits for the payload of a variant. -/
def SerialVariants.Within (l : SizeLimits) : (vs : SerialVariants) → vs.Value → Prop
  | .nil => fun v => nomatch v
  | .cons payload rest => fun v =>
    match v with
    | .inl v => payload.Within l v
    | .inr v => rest.Within l v

end

/-- Sequences and maps have fewer than 2³² items, and variants are numbered in 32 bits. -/
def SerialType.Counted (t : SerialType) (v : t.Value) : Prop :=
  t.Within ⟨fun _ => True, (· < 2 ^ 32), (· ≤ 2 ^ 32)⟩ v

/-- Texts and buffers have fewer than 2³² bytes. -/
def SerialType.ShortTexts (t : SerialType) (v : t.Value) : Prop :=
  t.Within ⟨(· < 2 ^ 32), fun _ => True, fun _ => True⟩ v

/-! ### Bytes are read back -/

section RoundTrip

/-- A result that is mapped is the image of one. -/
theorem ok_of_map {α β : Type} {x : Except BindError α} {f : α → β} {b : β}
    (h : x.map f = .ok b) : ∃ a, x = .ok a ∧ f a = b := by
  cases x with
  | error e => cases h
  | ok a => exact ⟨a, rfl, Except.ok.inj h⟩

/-- Two outputs in a row are there only if both are. -/
theorem ok_of_append {x y : Except BindError Bytes} {bs : Bytes}
    (h : (do let b ← x; let c ← y; pure (b ++ c)) = .ok bs) :
    ∃ b c, x = .ok b ∧ y = .ok c ∧ b ++ c = bs := by
  cases x with
  | error e => cases h
  | ok b =>
    cases y with
    | error e => cases h
    | ok c => exact ⟨b, c, rfl, rfl, Except.ok.inj h⟩

/-- A big-endian number is read back. -/
theorem decodes_readNumber {w n : ℕ} (h : n < 256 ^ w) :
    Decodes (readNumber w) (beBytes w n) n := decodes_number h

/-- A length and its bytes are read back. -/
theorem decodes_readSized {v bs : Bytes} {what : String}
    (h : serializeSized what v = .ok bs) : Decodes readSized bs v := by
  rw [serializeSized] at h
  split at h
  · next hlen =>
    obtain rfl := Except.ok.inj h
    exact (decodes_readNumber hlen).bind (decodes_bytes v)
  · cases h

/-- Items that are read back one by one are read back together. -/
theorem decodes_readCounted {α : Type} {item : α → Except BindError Bytes}
    {read : TupleReader α} {vs : List α} {bs : Bytes}
    (hread : ∀ v ∈ vs, ∀ bs, item v = .ok bs → Decodes read bs v)
    (h : serializeItems item vs = .ok bs) : Decodes (readCounted read vs.length) bs vs := by
  induction vs generalizing bs with
  | nil =>
    obtain rfl := Except.ok.inj h
    exact decodes_pure []
  | cons v vs ih =>
    obtain ⟨b, c, hb, hc, rfl⟩ := ok_of_append h
    have hrest := ih (fun x hx => hread x (List.mem_cons_of_mem v hx)) hc
    exact (hread v List.mem_cons_self b hb).bind (hrest.bind_nil (decodes_pure (v :: vs)))

/-- A count and its items are read back if every item is. -/
theorem decodes_counted {α : Type} {item : α → Except BindError Bytes}
    {read : TupleReader α} {vs : List α} {bs : Bytes} (hlen : vs.length < 2 ^ 32)
    (hread : ∀ v ∈ vs, ∀ bs, item v = .ok bs → Decodes read bs v)
    (h : (serializeItems item vs).map (beBytes 4 vs.length ++ ·) = .ok bs) :
    Decodes (readNumber 4 >>= readCounted read) bs vs := by
  obtain ⟨cs, hcs, rfl⟩ := ok_of_map h
  exact (decodes_readNumber hlen).bind (decodes_readCounted hread hcs)

/-- A number of a fixed width is read back. -/
theorem decodes_bits {w : ℕ} (v : BitVec (8 * w)) :
    Decodes (BitVec.ofNat (8 * w) <$> readNumber w) (beBytes w v.toNat) v := by
  have hread := (decodes_readNumber (show v.toNat < 256 ^ w by rw [pow_256]; exact v.isLt)).map
    (BitVec.ofNat (8 * w))
  rwa [BitVec.ofNat_toNat, BitVec.setWidth_eq] at hread

/-- The number of a character is a scalar value. -/
theorem char_isValid (c : Char) : c.val.toNat.isValidChar := c.valid

mutual

/-- **The bytes of a value are read as the value**, by induction on the type. -/
theorem SerialType.decodes_serialize : (t : SerialType) → {v : t.Value} → {bs : Bytes} →
    t.Counted v → t.serialize v = .ok bs → Decodes t.deserialize bs v
  | .bool, v, bs, _, h => by
    obtain rfl := Except.ok.inj h
    cases v with
    | false => exact (decodes_readNumber (w := 1) (n := 0) (by norm_num)).map _
    | true => exact (decodes_readNumber (w := 1) (n := 1) (by norm_num)).map _
  | .int w, v, bs, _, h => by
    obtain rfl := Except.ok.inj h
    exact decodes_bits v
  | .char, v, bs, _, h => by
    obtain rfl := Except.ok.inj h
    have hvalid := char_isValid v
    have hlt : v.val.toNat < 256 ^ 4 := v.val.toNat_lt
    refine (decodes_readNumber hlt).bind_nil (decodes_ofOption ?_)
    rw [if_pos hvalid]
    exact congrArg some (Char.ofNat_toNat v)
  | .str, v, bs, _, h => (decodes_readSized h).bind_nil (decodes_ofOption (ofUtf8_utf8 v))
  | .bytes, v, bs, _, h => decodes_readSized h
  | .unit, v, bs, _, h => by
    obtain rfl := Except.ok.inj h
    exact decodes_pure ()
  | .option t, none, bs, _, h => by
    obtain rfl := Except.ok.inj h
    exact (decodes_readNumber (w := 1) (n := 0) (by norm_num)).bind_nil (decodes_pure _)
  | .option t, some v, bs, hc, h => by
    obtain ⟨cs, hcs, rfl⟩ := ok_of_map h
    have hv := t.decodes_serialize (hc v rfl) hcs
    exact (decodes_readNumber (w := 1) (n := 1) (by norm_num)).bind (hv.map some)
  | .seq t, vs, bs, hc, h =>
    decodes_counted hc.1 (fun v hv bs hbs => t.decodes_serialize (hc.2 v hv) hbs) h
  | .map k v, ps, bs, hc, h => by
    refine decodes_counted hc.1 (fun p hp bs hbs => ?_) h
    obtain ⟨b, c, hb, hc', rfl⟩ := ok_of_append hbs
    have hkey := k.decodes_serialize (hc.2 p hp).1 hb
    have hvalue := v.decodes_serialize (hc.2 p hp).2 hc'
    exact hkey.bind (hvalue.bind_nil (decodes_pure p))
  | .field t rest, v, bs, hc, h => by
    obtain ⟨b, c, hb, hc', rfl⟩ := ok_of_append h
    have hfirst := t.decodes_serialize hc.1 hb
    have hmore := rest.decodes_serialize hc.2 hc'
    exact hfirst.bind (hmore.bind_nil (decodes_pure v))
  | .enum vs, v, bs, hc, h => by
    obtain ⟨i, cs, hi, hbs, hread⟩ := vs.decodes_serialize 0 hc.2 h
    rw [Nat.zero_add] at hbs
    subst hbs
    have hvariants : vs.length ≤ 2 ^ 32 := hc.1
    exact (decodes_readNumber (show i < 256 ^ 4 by omega)).bind (hread _)

/-- The index of a variant is followed by its payload. -/
theorem SerialVariants.decodes_serialize : (vs : SerialVariants) → (index : ℕ) →
    {v : vs.Value} → {bs : Bytes} →
    vs.Within ⟨fun _ => True, (· < 2 ^ 32), (· ≤ 2 ^ 32)⟩ v → vs.serialize index v = .ok bs →
    ∃ i cs, index + i < index + vs.length ∧ bs = beBytes 4 (index + i) ++ cs ∧
      ∀ err, Decodes (vs.deserialize err i) cs v
  | .nil, _, v, _, _, _ => nomatch v
  | .cons payload rest, index, .inl v, bs, hc, h => by
    obtain ⟨cs, hcs, rfl⟩ := ok_of_map h
    exact ⟨0, cs, by simp [SerialVariants.length], rfl,
      fun err => (payload.decodes_serialize hc hcs).map Sum.inl⟩
  | .cons payload rest, index, .inr v, bs, hc, h => by
    obtain ⟨i, cs, hi, rfl, hread⟩ := rest.decodes_serialize (index + 1) hc h
    refine ⟨i + 1, cs, ?_, ?_, fun err => (hread err).map Sum.inr⟩
    · rw [SerialVariants.length]
      omega
    · rw [Nat.add_right_comm, Nat.add_assoc]

end

end RoundTrip

/-! ### The reader does not leave the input -/

section Ensures

/-- No number of a given width makes the reader panic. -/
theorem ensures_readNumber (w : ℕ) : Ensures 0 (readNumber w) fun _ => True := ensures_number

/-- Neither does any length. -/
theorem ensures_readSized : Ensures 0 readSized fun _ => True :=
  (ensures_readNumber 4).bind fun _ _ => ensures_bytes

/-- Neither does any count, if the items do not. -/
theorem ensures_readCounted {α : Type} {read : TupleReader α}
    (h : Ensures 0 read fun _ => True) (n : ℕ) : Ensures 0 (readCounted read n) fun _ => True := by
  induction n with
  | zero => exact ensures_pure trivial
  | succ n ih => exact h.bind fun v _ => ih.bind fun vs _ => ensures_pure trivial

mutual

/-- **The reader does not leave the input**, whatever it is. -/
theorem SerialType.ensures_deserialize :
    (t : SerialType) → Ensures 0 t.deserialize fun _ => True
  | .bool => (ensures_readNumber 1).map
  | .int w => (ensures_readNumber w).map
  | .char => (ensures_readNumber 4).bind fun v _ => ensures_ofOption fun _ _ => trivial
  | .str => ensures_readSized.bind fun decoded _ => ensures_ofOption fun _ _ => trivial
  | .bytes => ensures_readSized
  | .unit => ensures_pure trivial
  | .option t => by
    refine (ensures_readNumber 1).bind fun tag _ => ?_
    split
    · exact ensures_pure trivial
    · split
      · exact t.ensures_deserialize.map
      · exact ensures_fail _
  | .seq t =>
    (ensures_readNumber 4).bind fun count _ => ensures_readCounted t.ensures_deserialize count
  | .map k v =>
    (ensures_readNumber 4).bind fun count _ => ensures_readCounted
      (k.ensures_deserialize.bind fun _ _ =>
        v.ensures_deserialize.bind fun _ _ => ensures_pure trivial) count
  | .field t rest =>
    t.ensures_deserialize.bind fun _ _ =>
      rest.ensures_deserialize.bind fun _ _ => ensures_pure trivial
  | .enum vs => (ensures_readNumber 4).bind fun index _ => vs.ensures_deserialize _ index

/-- Neither does any payload of a variant. -/
theorem SerialVariants.ensures_deserialize : (vs : SerialVariants) → (err : BindError) →
    (index : ℕ) → Ensures 0 (vs.deserialize err index) fun _ => True
  | .nil, err, _ => ensures_fail err
  | .cons payload _, _, 0 => payload.ensures_deserialize.map
  | .cons _ rest, err, index + 1 => (rest.ensures_deserialize err index).map

end

end Ensures

/-! ### What can be written -/

section Writable

/-- Mapping a result does not make it fail. -/
theorem map_ok_iff {α β : Type} {x : Except BindError α} {f : α → β} :
    (∃ b, x.map f = .ok b) ↔ ∃ a, x = .ok a := by
  cases x with
  | error e => simp [Except.map]
  | ok a => simp [Except.map]

/-- Two outputs in a row fail exactly if one of them does. -/
theorem append_ok_iff {x y : Except BindError Bytes} :
    (∃ bs, (do let b ← x; let c ← y; pure (b ++ c)) = Except.ok bs) ↔
      (∃ b, x = .ok b) ∧ ∃ c, y = .ok c := by
  constructor
  · rintro ⟨bs, h⟩
    obtain ⟨b, c, hb, hc, -⟩ := ok_of_append h
    exact ⟨⟨b, hb⟩, c, hc⟩
  · rintro ⟨⟨b, rfl⟩, c, rfl⟩
    exact ⟨b ++ c, rfl⟩

/-- Bytes can be written if their length fits 32 bits. -/
theorem serializeSized_ok_iff {what : String} {v : Bytes} :
    (∃ bs, serializeSized what v = .ok bs) ↔ v.length < 2 ^ 32 := by
  rw [serializeSized]
  split
  · next h => exact iff_of_true ⟨_, rfl⟩ h
  · next h => exact iff_of_false (fun ⟨bs, hbs⟩ => nomatch hbs) h

/-- Items can be written if every one can. -/
theorem serializeItems_ok_iff {α : Type} {item : α → Except BindError Bytes}
    {vs : List α} : (∃ bs, serializeItems item vs = .ok bs) ↔ ∀ v ∈ vs, ∃ bs, item v = .ok bs := by
  induction vs with
  | nil => simp [serializeItems]
  | cons v vs ih => rw [serializeItems, append_ok_iff, ih, List.forall_mem_cons]

mutual

/-- **A value can be written** exactly if its texts and buffers are short enough. -/
theorem SerialType.serialize_ok_iff : (t : SerialType) → (v : t.Value) →
    ((∃ bs, t.serialize v = .ok bs) ↔ t.ShortTexts v)
  | .bool, v => ⟨fun _ => trivial, fun _ => ⟨_, rfl⟩⟩
  | .int _, v => ⟨fun _ => trivial, fun _ => ⟨_, rfl⟩⟩
  | .char, v => ⟨fun _ => trivial, fun _ => ⟨_, rfl⟩⟩
  | .str, v => serializeSized_ok_iff
  | .bytes, v => serializeSized_ok_iff
  | .unit, v => ⟨fun _ => trivial, fun _ => ⟨_, rfl⟩⟩
  | .option t, none => ⟨fun _ x hx => (nomatch hx), fun _ => ⟨_, rfl⟩⟩
  | .option t, some v => by
    refine map_ok_iff.trans ((t.serialize_ok_iff v).trans ⟨fun h x hx => ?_, fun h => h v rfl⟩)
    exact Option.some.inj hx ▸ h
  | .seq t, vs => by
    refine map_ok_iff.trans (serializeItems_ok_iff.trans ?_)
    refine Iff.trans ?_ (and_iff_right trivial).symm
    exact forall₂_congr fun v _ => t.serialize_ok_iff v
  | .map k v, ps => by
    refine map_ok_iff.trans (serializeItems_ok_iff.trans ?_)
    refine Iff.trans ?_ (and_iff_right trivial).symm
    exact forall₂_congr fun p _ => append_ok_iff.trans
      (and_congr (k.serialize_ok_iff p.1) (v.serialize_ok_iff p.2))
  | .field t rest, v =>
    append_ok_iff.trans (and_congr (t.serialize_ok_iff v.1) (rest.serialize_ok_iff v.2))
  | .enum vs, v => (vs.serialize_ok_iff 0 v).trans (and_iff_right trivial).symm

/-- The payload of a variant can be written within the limits only. -/
theorem SerialVariants.serialize_ok_iff : (vs : SerialVariants) → (index : ℕ) → (v : vs.Value) →
    ((∃ bs, vs.serialize index v = .ok bs) ↔
      vs.Within ⟨(· < 2 ^ 32), fun _ => True, fun _ => True⟩ v)
  | .nil, _, v => nomatch v
  | .cons payload _, _, .inl v => map_ok_iff.trans (payload.serialize_ok_iff v)
  | .cons _ rest, index, .inr v => rest.serialize_ok_iff (index + 1) v

end

end Writable

/-! ### The format as a whole -/

/-- An input is accepted exactly if the reader takes all of it. -/
theorem fromBytes_eq_ok_iff (t : SerialType) (input : Bytes) (v : t.Value) :
    fromBytes t input = .ok v ↔ t.deserialize input 0 = .ok (v, input.length) := by
  have hensures := t.ensures_deserialize input 0 (Nat.zero_le _)
  rw [fromBytes]
  rcases hrun : t.deserialize input 0 with stop | ⟨u, pos⟩
  · simp
  · rw [hrun] at hensures
    have hpos : pos ≤ input.length := hensures.1
    dsimp only
    rw [if_neg (Nat.not_lt.mpr hpos)]
    split
    · next hlt => simp [hlt.ne]
    · next hge =>
      obtain rfl : pos = input.length := by omega
      simp

/-- **No input makes `from_bytes` panic.** -/
theorem fromBytes_ne_panicked (t : SerialType) (input : Bytes) :
    fromBytes t input ≠ .error .panicked := by
  have hensures := t.ensures_deserialize input 0 (Nat.zero_le _)
  rw [fromBytes]
  rcases hrun : t.deserialize input 0 with (e | _) | ⟨u, pos⟩ <;> rw [hrun] at hensures
  · simp
  · exact hensures.elim
  · have hpos : pos ≤ input.length := hensures.1
    dsimp only
    rw [if_neg (Nat.not_lt.mpr hpos)]
    split <;> simp

/-- **The simple serial format.** For values whose sequences and maps have fewer than 2³² items: a
value is written exactly if its texts and buffers have fewer than 2³² bytes; its bytes are read back
as the value, and rejected with anything behind them; no encoding is a proper prefix of another. Any
input gives a value or an error, and a value only if the reader stops at the input's end. -/
theorem simple_serial_round_trip (t : SerialType) :
    (∀ v, t.Counted v → ((∃ bs, toBytes t v = .ok bs) ↔ t.ShortTexts v) ∧
      ∀ bs, toBytes t v = .ok bs → fromBytes t bs = .ok v ∧
        (∀ extra ≠ [], ∀ u, fromBytes t (bs ++ extra) ≠ .ok u) ∧
        ∀ w, t.Counted w → ∀ cs, toBytes t w = .ok cs → bs <+: cs → v = w) ∧
    ∀ input, fromBytes t input ≠ .error .panicked ∧
      ∀ u, fromBytes t input = .ok u ↔ t.deserialize input 0 = .ok (u, input.length) := by
  refine ⟨fun v hv => ⟨t.serialize_ok_iff v, fun bs hbs => ?_⟩, fun input =>
    ⟨fromBytes_ne_panicked t input, fromBytes_eq_ok_iff t input⟩⟩
  have hread := t.decodes_serialize hv hbs
  refine ⟨?_, fun extra hextra u hu => ?_,
    fun w hw cs hcs => hread.eq_of_isPrefix (t.decodes_serialize hw hcs)⟩
  · have hall := hread [] []
    rw [List.append_nil, List.nil_append, List.length_nil, Nat.zero_add] at hall
    exact (fromBytes_eq_ok_iff t bs v).mpr hall
  · have hall := hread [] extra
    rw [List.nil_append, List.length_nil, Nat.zero_add,
      (fromBytes_eq_ok_iff t (bs ++ extra) u).mp hu, List.length_append] at hall
    have hlen := (Prod.mk.inj (Except.ok.inj hall)).2
    exact hextra (List.eq_nil_of_length_eq_zero (by omega))

/-- A buffer of 2³² bytes is refused. -/
theorem long_buffer_refused :
    SerialType.Counted .bytes (List.replicate (2 ^ 32) 0) ∧
      ¬ ∃ bs, toBytes .bytes (List.replicate (2 ^ 32) 0) = .ok bs := by
  refine ⟨trivial, fun h => ?_⟩
  have hshort : (List.replicate (2 ^ 32) (0 : UInt8)).length < 2 ^ 32 :=
    (SerialType.serialize_ok_iff .bytes _).mp h
  rw [List.length_replicate] at hshort
  exact Nat.lt_irrefl _ hshort

/-- An optional flag behind a number, present and absent. -/
theorem simple_serial_round_trip_option :
    fromBytes (.field (.int 2) (.option .bool)) [0x01, 0x02, 0x01, 0x01] =
      .ok ((0x0102 : BitVec 16), some true) := by
  have hround := (simple_serial_round_trip (.field (.int 2) (.option .bool))).1
    ((0x0102 : BitVec 16), some true) ⟨trivial, fun _ _ => trivial⟩
  exact (hround.2 [0x01, 0x02, 0x01, 0x01] rfl).1

end Noxu
