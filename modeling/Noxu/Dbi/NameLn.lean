import Noxu.Library.Wire

/-!
# The Trailer of a Name Record

The record of a database's name holds the id of the database and behind it a trailer: the
identities of the two comparators, each behind a length of two bytes, and the fanout behind a tag.
Every part may be missing from the end on, as in the records of older versions.

The reader goes to the end of the trailer when a part is not there, and reads on from there. The
writer keeps **the low two bytes of a length**, so that an identity of 65536 bytes or more is cut.

## Main results

* `fits_of_decodeNameLnTrailer`: what is read fits the format, whatever the bytes are;
* `trailer_right_iff`: **the fields are read back exactly if they fit.**
-/

namespace Noxu

open Library Wire

/-- What the trailer of a name record holds. -/
structure NameLnFields where
  btreeId : Option String
  dupId : Option String
  fanout : Option Int32
  deriving DecidableEq

/-- The sentinel in front of the fanout. -/
def fanoutTag : UInt8 := 0xF0

/-- Both identities behind their lengths; none is written as the empty string. -/
def encodeComparatorBlock (btreeId dupId : Option String) : Bytes :=
  [btreeId, dupId].flatMap fun id =>
    leBytes 2 (utf8 (id.getD "")).length ++ utf8 (id.getD "")

/-- `encode_comparator_ids`. -/
def encodeComparatorIds (btreeId dupId : Option String) : Bytes :=
  if btreeId.isNone && dupId.isNone then [] else encodeComparatorBlock btreeId dupId

/-- The trailer. A fanout that is not positive counts as none. -/
def encodeNameLnTrailer (f : NameLnFields) : Bytes :=
  match f.fanout.filter fun n => decide (0 < n) with
  | none => encodeComparatorIds f.btreeId f.dupId
  | some n =>
    encodeComparatorBlock f.btreeId f.dupId ++ fanoutTag :: leBytes 4 n.toUInt32.toNat

/-- A part that needs `n` bytes: where they are not left the reader goes to the end. -/
def orEnd {α : Type} (n : ℕ) (p : Wire Empty (Option α)) : Wire Empty (Option α) :=
  fun trailer off => if trailer.length < off + n then .ok (none, trailer.length) else p trailer off

/-- `read_one`: an identity behind its length, if it is there and well formed. -/
def readComparatorId : Wire Empty (Option String) :=
  orEnd 2 do
    let len ← slice 2
    if leNat len = 0 then pure (some "") else orEnd (leNat len) (ofUtf8 <$> slice (leNat len))

/-- `read_comparator_block`: the empty identity stands for none. -/
def readComparatorBlock : Wire Empty (Option String × Option String) := do
  let btreeId ← readComparatorId
  let dupId ← readComparatorId
  pure (btreeId.filter (· ≠ ""), dupId.filter (· ≠ ""))

/-- The fanout behind its sentinel. -/
def readFanout : Wire Empty (Option Int32) :=
  orEnd 1 do
    let tag ← slice 1
    if tag = [fanoutTag] then
      orEnd 4 do
        let bytes ← slice 4
        pure ((some (UInt32.ofNat (leNat bytes)).toInt32).filter fun n => decide (0 < n))
    else pure none

/-- `decode_name_ln_trailer`. -/
def decodeNameLnTrailer (trailer : Bytes) : Except (Stop Empty) NameLnFields :=
  run (do
    let ids ← readComparatorBlock
    let fanout ← readFanout
    pure ⟨ids.1, ids.2, fanout⟩) trailer

/-! ### What is read fits -/

/-- An identity that its length field can tell, and that is not the empty string. -/
def IdFits (id : Option String) : Prop := ∀ s ∈ id, s ≠ "" ∧ (utf8 s).length < 2 ^ 16

/-- Both identities fit and the fanout is positive. -/
structure NameLnFields.Fits (f : NameLnFields) : Prop where
  btreeId : IdFits f.btreeId
  dupId : IdFits f.dupId
  fanout : ∀ n ∈ f.fanout, 0 < n

section Ensures

variable {α : Type} {p : Wire Empty (Option α)} {P : Option α → Prop} {k n : ℕ}

/-- A part that may be missing. -/
theorem ensures_orEnd (hnone : P none) (hp : Ensures n p P) : Ensures k (orEnd n p) P := by
  intro trailer off hoff
  rw [orEnd]
  by_cases hlen : trailer.length < off + n
  · rw [if_pos hlen]
    exact ⟨le_rfl, hnone⟩
  · rw [if_neg hlen]
    exact hp trailer off (Nat.le_of_not_lt hlen)

/-- An id that is read has a 16-bit length. -/
theorem ensures_readComparatorId :
    Ensures k readComparatorId fun o => ∀ s ∈ o, (utf8 s).length < 2 ^ 16 := by
  refine ensures_orEnd nofun (Ensures.slice (n := 2) (k := 0) fun len hlen => ?_)
  have hlt := leNat_lt len
  rw [hlen] at hlt
  split
  · exact ensures_pure (by simp [utf8])
  · refine ensures_orEnd nofun (.map ?_)
    have hslice : Ensures (leNat len + 0) (slice (leNat len) >>= fun bs => (pure bs : Wire Empty _))
        fun bs => ∀ s ∈ ofUtf8 bs, (utf8 s).length < 2 ^ 16 := by
      refine .slice fun bs hbs => ensures_pure fun s hs => ?_
      rw [utf8_of_ofUtf8 hs, hbs]
      exact hlt
    rwa [bind_pure] at hslice

/-- A fan-out that is read is positive. -/
theorem ensures_readFanout : Ensures k readFanout fun o => ∀ n ∈ o, 0 < n := by
  refine ensures_orEnd nofun (Ensures.slice (n := 1) (k := 0) fun tag _ => ?_)
  split
  · refine ensures_orEnd nofun (Ensures.slice (n := 4) (k := 0) fun bytes _ => ensures_pure ?_)
    intro n hn
    exact of_decide_eq_true (Option.filter_eq_some_iff.mp hn).2
  · exact ensures_pure nofun

end Ensures

/-- An id that is not empty fits. -/
theorem idFits_filter {o : Option String} (h : ∀ s ∈ o, (utf8 s).length < 2 ^ 16) :
    IdFits (o.filter (· ≠ "")) := by
  intro s hs
  obtain ⟨hmem, hne⟩ := Option.filter_eq_some_iff.mp hs
  exact ⟨of_decide_eq_true hne, h s hmem⟩

/-- **What is read fits.** -/
theorem ensures_trailer : Ensures 0 (do
    let ids ← readComparatorBlock
    let fanout ← readFanout
    pure (⟨ids.1, ids.2, fanout⟩ : NameLnFields)) NameLnFields.Fits := by
  have hblock : Ensures 0 readComparatorBlock fun ids => IdFits ids.1 ∧ IdFits ids.2 :=
    ensures_readComparatorId.bind fun _ hb => ensures_readComparatorId.bind fun _ hd =>
      ensures_pure ⟨idFits_filter hb, idFits_filter hd⟩
  exact hblock.bind fun _ hids => ensures_readFanout.bind fun _ hfanout =>
    ensures_pure ⟨hids.1, hids.2, hfanout⟩

/-- The reader returns for every byte string. -/
theorem decodeNameLnTrailer_returns (trailer : Bytes) :
    ∃ f, decodeNameLnTrailer trailer = .ok f := by
  have hpanic := ensures_trailer.run_ne_panicked trailer
  rw [← decodeNameLnTrailer] at hpanic
  rcases hrun : decodeNameLnTrailer trailer with (e | -) | f
  · exact e.elim
  · exact absurd hrun hpanic
  · exact ⟨f, rfl⟩

/-- What is read fits the format, whatever the bytes are. -/
theorem fits_of_decodeNameLnTrailer {trailer : Bytes} {f : NameLnFields}
    (h : decodeNameLnTrailer trailer = .ok f) : f.Fits :=
  ensures_trailer.of_run h

/-! ### What fits is read back -/

/-- A part that is there is read back. -/
theorem decodes_orEnd {α : Type} {p : Wire Empty (Option α)} {bs : Bytes} {o : Option α}
    {n : ℕ} (hlen : n ≤ bs.length) (hp : Decodes p bs o) : Decodes (orEnd n p) bs o := by
  intro before rest
  have hfits : ¬ (before ++ (bs ++ rest)).length < before.length + n := by
    simp only [List.length_append]
    omega
  rw [orEnd, if_neg hfits]
  exact hp before rest

/-- An id is read back. -/
theorem decodes_readComparatorId {id : Option String} (h : IdFits id) :
    Decodes readComparatorId (leBytes 2 (utf8 (id.getD "")).length ++ utf8 (id.getD ""))
      (some (id.getD "")) := by
  have hlen : (utf8 (id.getD "")).length < 256 ^ 2 := by
    cases id with
    | none => simp [utf8]
    | some s => exact (h s rfl).2
  refine decodes_orEnd (by simp) ((decodes_slice (length_leBytes 2 _)).bind ?_)
  rw [leNat_leBytes_of_lt hlen]
  split
  · rename_i hzero
    have hempty : id.getD "" = "" := by
      have hnil := List.eq_nil_of_length_eq_zero hzero
      have hback := ofUtf8_utf8 (id.getD "")
      rw [hnil] at hback
      exact (Option.some.inj hback).symm
    rw [hempty]
    exact decodes_pure _
  · refine decodes_orEnd le_rfl ?_
    rw [← ofUtf8_utf8 (id.getD "")]
    exact (decodes_slice rfl).map ofUtf8

/-- An id is not empty. -/
theorem filter_getD {id : Option String} (h : IdFits id) :
    (some (id.getD "")).filter (· ≠ "") = id := by
  cases id with
  | none => rfl
  | some s => simp [Option.filter, (h s rfl).1]

/-- Both ids are read back. -/
theorem decodes_readComparatorBlock {btreeId dupId : Option String} (hb : IdFits btreeId)
    (hd : IdFits dupId) :
    Decodes readComparatorBlock (encodeComparatorBlock btreeId dupId) (btreeId, dupId) := by
  simp only [encodeComparatorBlock, List.flatMap_cons, List.flatMap_nil, List.append_nil]
  refine (decodes_readComparatorId hb).bind ((decodes_readComparatorId hd).bind_nil ?_)
  rw [filter_getD hb, filter_getD hd]
  exact decodes_pure _

/-- A fan-out is read back. -/
theorem decodes_readFanout {n : Int32} (h : 0 < n) :
    Decodes readFanout (fanoutTag :: leBytes 4 n.toUInt32.toNat) (some n) := by
  have hone : [fanoutTag].length = 1 := rfl
  refine decodes_orEnd (by simp) ((decodes_slice hone).bind ?_)
  rw [if_pos rfl]
  refine decodes_orEnd (by simp) ((decodes_slice (length_leBytes 4 _)).bind_nil ?_)
  rw [leNat_leBytes_of_lt n.toUInt32.toNat_lt, UInt32.ofNat_toNat, Int32.toInt32_toUInt32,
    Option.filter_some_pos (by simpa using h)]
  exact decodes_pure _

/-- The empty trailer, from before there were identities. -/
theorem decodeNameLnTrailer_nil : decodeNameLnTrailer [] = .ok ⟨none, none, none⟩ := rfl

/-- A trailer that ends behind the identities, from before there was a fanout. -/
theorem decodeNameLnTrailer_encodeComparatorIds {btreeId dupId : Option String}
    (hb : IdFits btreeId) (hd : IdFits dupId) :
    decodeNameLnTrailer (encodeComparatorIds btreeId dupId) = .ok ⟨btreeId, dupId, none⟩ := by
  rw [encodeComparatorIds]
  split
  · rename_i hnone
    simp only [Bool.and_eq_true, Option.isNone_iff_eq_none] at hnone
    rw [hnone.1, hnone.2]
    exact decodeNameLnTrailer_nil
  · have hblock := decodes_readComparatorBlock hb hd [] []
    rw [List.append_nil] at hblock
    have hfanout : readFanout (encodeComparatorBlock btreeId dupId)
        (encodeComparatorBlock btreeId dupId).length =
          .ok (none, (encodeComparatorBlock btreeId dupId).length) := if_pos (by omega)
    simp only [List.nil_append, List.length_nil, Nat.zero_add] at hblock
    rw [decodeNameLnTrailer, Wire.run, bind_apply, hblock]
    dsimp only
    rw [bind_apply, hfanout]
    rfl

/-- **The fields are read back** if they fit. -/
theorem decodeNameLnTrailer_encodeNameLnTrailer {f : NameLnFields} (h : f.Fits) :
    decodeNameLnTrailer (encodeNameLnTrailer f) = .ok f := by
  obtain ⟨btreeId, dupId, fanout⟩ := f
  cases fanout with
  | none => exact decodeNameLnTrailer_encodeComparatorIds h.btreeId h.dupId
  | some n =>
    have hn := h.fanout n rfl
    have htrailer : encodeNameLnTrailer ⟨btreeId, dupId, some n⟩ =
        encodeComparatorBlock btreeId dupId ++ fanoutTag :: leBytes 4 n.toUInt32.toNat := by
      rw [encodeNameLnTrailer, Option.filter_some_pos (by simpa using hn)]
    rw [htrailer]
    refine Decodes.run ((decodes_readComparatorBlock h.btreeId h.dupId).bind ?_)
    exact (decodes_readFanout hn).bind_nil (decodes_pure _)

/-- **The fields of a name record are read back exactly if they fit**: each identity is a non-empty
string of fewer than 65536 bytes or none, and the fanout is positive or none. The records of older
versions, with an empty trailer or with one that ends behind the identities, are read back with
the parts they lack as none, and the reader returns for every byte string. -/
theorem trailer_right_iff (f : NameLnFields) (btreeId dupId : Option String)
    (trailer : Bytes) :
    (decodeNameLnTrailer (encodeNameLnTrailer f) = .ok f ↔ f.Fits) ∧
    (decodeNameLnTrailer (encodeComparatorIds btreeId dupId) = .ok ⟨btreeId, dupId, none⟩ ↔
      IdFits btreeId ∧ IdFits dupId) ∧
    decodeNameLnTrailer [] = .ok ⟨none, none, none⟩ ∧
    ∃ f', decodeNameLnTrailer trailer = .ok f' := by
  refine ⟨⟨fits_of_decodeNameLnTrailer, decodeNameLnTrailer_encodeNameLnTrailer⟩,
    ⟨fun h => ?_, fun h => ?_⟩, decodeNameLnTrailer_nil, decodeNameLnTrailer_returns trailer⟩
  · have hfits := fits_of_decodeNameLnTrailer h
    exact ⟨hfits.btreeId, hfits.dupId⟩
  · exact decodeNameLnTrailer_encodeComparatorIds h.1 h.2

/-- The bytes of a text of letters. -/
theorem length_utf8_replicate (n : ℕ) :
    (utf8 (String.ofList (List.replicate n 'a'))).length = n := by
  simp [utf8, List.utf8Encode, show 'a'.utf8Size = 1 from rfl]

/-- An identity of 65536 bytes is not read back. -/
theorem long_identity_lost :
    decodeNameLnTrailer (encodeNameLnTrailer
        ⟨some (String.ofList (List.replicate 65536 'a')), none, some 128⟩) ≠
      .ok ⟨some (String.ofList (List.replicate 65536 'a')), none, some 128⟩ := by
  intro h
  have hlen := ((fits_of_decodeNameLnTrailer h).btreeId _ rfl).2
  rw [length_utf8_replicate] at hlen
  omega

end Noxu
