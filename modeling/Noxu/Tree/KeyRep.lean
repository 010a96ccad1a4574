import Mathlib.Algebra.Order.Ring.Int
import Mathlib.Data.List.InsertIdx
import Mathlib.Data.List.MinMax
import Mathlib.Order.Nat
import Noxu.Library.Run
import Noxu.Library.Rows

/-!
# The Keys of a Node

A node keeps its keys in one of two forms: a vector of byte strings, or one buffer of slots of one
width with the length of each key beside it. Compaction packs a vector whose keys are all short
enough; a key that is longer than a slot, set or inserted, unpacks the buffer first.

The lengths are 16 bits wide, and the limit of a compaction is not checked against that: a key of
65536 bytes or more that is packed is cut. `StoredKeys` is a node's keys as they are read back, cut
or not, with the width of a packed slot; it is what the model of a leaf carries.

## Main results

* `KeyRep.Stores.set`, `KeyRep.Stores.insert`, `KeyRep.Stores.remove`, `KeyRep.Stores.compacted`:
  the operations of a node's keys act on the keys that are read back as those of `StoredKeys` do;
* `StoredKeys.Exact.compact` and its neighbours: no key is cut while the limit is below 65536;
* `key_rep_right_iff`: the keys of a node are those of a plain vector throughout a sequence of
  calls exactly if no compaction packs a key of 65536 bytes or more.
-/

namespace Noxu

open Library

/-- The two forms (`KeyRep`). -/
inductive KeyRep where
  /-- One byte string for each slot. -/
  | default (keys : List (List UInt8))
  /-- One buffer for all slots. -/
  | compact (buf : List UInt8) (slotWidth : ℕ) (lengths : List UInt16)
  deriving DecidableEq, Repr

namespace KeyRep

/-- The number of slots. -/
def len : KeyRep → ℕ
  | default keys => keys.length
  | compact _ _ lengths => lengths.length

/-- A slice of a buffer, `none` if it goes past the end. -/
def slice (buf : List UInt8) (off len : ℕ) : Option (List UInt8) :=
  if off + len ≤ buf.length then some ((buf.drop off).take len) else none

/-- The key of a slot; a slot that does not exist is refused, here and below. -/
def get : KeyRep → ℕ → Option (List UInt8)
  | default keys, idx => keys[idx]?
  | compact buf slotWidth lengths, idx =>
    lengths[idx]?.bind fun n => slice buf (idx * slotWidth) n.toNat

/-- The keys as a vector (`inflate_to_default`). -/
def inflate : KeyRep → Option KeyRep
  | default keys => some (default keys)
  | compact buf slotWidth lengths =>
    ((List.range lengths.length).mapM (get (compact buf slotWidth lengths))).map default

/-- Set the key of a slot of a vector. -/
def setKeys (keys : List (List UInt8)) (idx : ℕ) (key : List UInt8) :
    Option (List (List UInt8)) :=
  if idx < keys.length then some (keys.set idx key) else none

/-- Insert a key into a vector. -/
def insertKeys (keys : List (List UInt8)) (idx : ℕ) (key : List UInt8) :
    Option (List (List UInt8)) :=
  if idx ≤ keys.length then some (keys.insertIdx idx key) else none

/-- Set the key of a slot. -/
def set (rep : KeyRep) (idx : ℕ) (key : List UInt8) : Option KeyRep :=
  match rep with
  | default keys => (setKeys keys idx key).map default
  | compact buf slotWidth lengths =>
    if slotWidth < key.length then
      match (compact buf slotWidth lengths).inflate with
      | some (default keys) => (setKeys keys idx key).map default
      | _ => none
    else if idx * slotWidth + key.length ≤ buf.length ∧ idx < lengths.length then
      some (compact (patch buf (idx * slotWidth) key) slotWidth
        (lengths.set idx (UInt16.ofNat key.length)))
    else none

/-- Insert a key, the later slots move up. -/
def insert (rep : KeyRep) (idx : ℕ) (key : List UInt8) : Option KeyRep :=
  match rep with
  | default keys => (insertKeys keys idx key).map default
  | compact buf slotWidth lengths =>
    if slotWidth < key.length then
      match (compact buf slotWidth lengths).inflate with
      | some (default keys) => (insertKeys keys idx key).map default
      | _ => none
    else if idx * slotWidth ≤ buf.length ∧ idx ≤ lengths.length then
      let spliced := buf.take (idx * slotWidth) ++ List.replicate slotWidth 0 ++
        buf.drop (idx * slotWidth)
      some (compact (patch spliced (idx * slotWidth) key) slotWidth
        (lengths.insertIdx idx (UInt16.ofNat key.length)))
    else none

/-- Remove the key of a slot, the later slots move down. -/
def remove (rep : KeyRep) (idx : ℕ) : Option (KeyRep × List UInt8) :=
  match rep with
  | default keys => keys[idx]?.map fun key => (default (keys.eraseIdx idx), key)
  | compact buf slotWidth lengths => do
    let n ← lengths[idx]?
    let out ← slice buf (idx * slotWidth) n.toNat
    guard (idx * slotWidth + slotWidth ≤ buf.length)
    pure (compact (buf.take (idx * slotWidth) ++ buf.drop (idx * slotWidth + slotWidth))
      slotWidth (lengths.eraseIdx idx), out)

/-- The length of the longest key. -/
def maxLen (keys : List (List UInt8)) : ℕ := (keys.map List.length).foldr max 0

/-- A key at the front of its slot, the rest of which stays zero. -/
def padded (slotWidth : ℕ) (key : List UInt8) : List UInt8 :=
  patch (List.replicate slotWidth 0) 0 key

/-- Pack the keys if none of them is longer than the limit (`compact`). -/
def compacted (rep : KeyRep) (compactMaxKeyLength : ℤ) : KeyRep :=
  match rep with
  | compact buf slotWidth lengths => compact buf slotWidth lengths
  | default keys =>
    if compactMaxKeyLength ≤ 0 ∨ keys = [] ∨ compactMaxKeyLength < maxLen keys then default keys
    else
      let slotWidth := max (maxLen keys) 1
      compact (keys.map (padded slotWidth)).flatten slotWidth
        (keys.map fun key => UInt16.ofNat key.length)

/-- Set the keys from a slot on, one after the other, as a node does under a new prefix. -/
def setFrom (rep : KeyRep) : ℕ → List (List UInt8) → Option KeyRep
  | _, [] => some rep
  | idx, key :: rest => (rep.set idx key).bind fun rep => rep.setFrom (idx + 1) rest

theorem length_le_maxLen {key : List UInt8} {keys : List (List UInt8)}
    (hkey : key ∈ keys) : key.length ≤ maxLen keys :=
  List.le_max_of_le' 0 (List.mem_map.mpr ⟨key, hkey, rfl⟩) le_rfl

theorem maxLen_le {keys : List (List UInt8)} {n : ℕ}
    (h : ∀ key ∈ keys, key.length ≤ n) : maxLen keys ≤ n :=
  List.max_le_of_forall_le _ _ fun len hlen => by
    obtain ⟨key, hkey, rfl⟩ := List.mem_map.mp hlen
    exact h key hkey

end KeyRep

/-! ### The keys as they are read back -/

/-- A key as it is read back from a packed slot, which keeps 16 bits of its length. -/
def packedKey (key : List UInt8) : List UInt8 := key.take (key.length % 65536)

theorem packedKey_of_lt {key : List UInt8} (h : key.length < 65536) : packedKey key = key := by
  rw [packedKey, Nat.mod_eq_of_lt h, List.take_length]

/-- The keys of a node as they are read back, with the width of a slot if they are packed. -/
structure StoredKeys where
  /-- The width of a packed slot; none in the form of a vector. -/
  slotWidth : Option ℕ
  /-- The keys. -/
  keys : List (List UInt8)
  deriving DecidableEq, Repr

namespace StoredKeys

/-- The form after a key is stored, and the key as it is read back: one that is longer than a
slot unpacks the keys. -/
def store (slotWidth : Option ℕ) (key : List UInt8) : Option ℕ × List UInt8 :=
  match slotWidth with
  | none => (none, key)
  | some w => if w < key.length then (none, key) else (some w, packedKey key)

/-- Set the key of a slot. -/
def set (s : StoredKeys) (idx : ℕ) (key : List UInt8) : StoredKeys :=
  ⟨(store s.slotWidth key).1, s.keys.set idx (store s.slotWidth key).2⟩

/-- Insert a key. -/
def insert (s : StoredKeys) (idx : ℕ) (key : List UInt8) : StoredKeys :=
  ⟨(store s.slotWidth key).1, s.keys.insertIdx idx (store s.slotWidth key).2⟩

/-- Remove the key of a slot. -/
def remove (s : StoredKeys) (idx : ℕ) : StoredKeys := ⟨s.slotWidth, s.keys.eraseIdx idx⟩

/-- Set the keys from a slot on, one after the other. -/
def setFrom (s : StoredKeys) : ℕ → List (List UInt8) → StoredKeys
  | _, [] => s
  | idx, key :: rest => (s.set idx key).setFrom (idx + 1) rest

/-- Pack the keys if none of them is longer than the limit. -/
def compact (s : StoredKeys) (compactMaxKeyLength : ℤ) : StoredKeys :=
  match s.slotWidth with
  | some _ => s
  | none =>
    if compactMaxKeyLength ≤ 0 ∨ s.keys = [] ∨
        compactMaxKeyLength < KeyRep.maxLen s.keys then s
    else ⟨some (max (KeyRep.maxLen s.keys) 1), s.keys.map packedKey⟩

theorem length_keys_setFrom (keys : List (List UInt8)) :
    ∀ (s : StoredKeys) (idx : ℕ), (s.setFrom idx keys).keys.length = s.keys.length := by
  induction keys with
  | nil => exact fun _ _ => rfl
  | cons key rest ih => exact fun s idx => (ih (s.set idx key) _).trans List.length_set

theorem length_keys_compact (s : StoredKeys) (limit : ℤ) :
    (s.compact limit).keys.length = s.keys.length := by
  unfold compact
  split
  · rfl
  · split
    · rfl
    · exact List.length_map _

/-- No key is cut: the width of a slot fits 16 bits. -/
def Exact (s : StoredKeys) : Prop := ∀ w ∈ s.slotWidth, w < 65536

variable {s : StoredKeys} {idx : ℕ} {key : List UInt8}

/-- A key that is stored where none is cut is read back as it is. -/
theorem store_of_exact (h : ∀ w ∈ s.slotWidth, w < 65536) (key : List UInt8) :
    (store s.slotWidth key).2 = key ∧ ∀ w ∈ (store s.slotWidth key).1, w < 65536 := by
  unfold store
  cases hw : s.slotWidth with
  | none => exact ⟨rfl, by simp⟩
  | some w =>
    have hsmall := h w hw
    dsimp only
    split
    · exact ⟨rfl, by simp⟩
    · exact ⟨packedKey_of_lt (by omega), fun v hv => Option.mem_some.mp hv ▸ hsmall⟩

theorem Exact.set (h : s.Exact) (idx : ℕ) (key : List UInt8) :
    (s.set idx key).Exact ∧ (s.set idx key).keys = s.keys.set idx key :=
  ⟨(store_of_exact h key).2, congrArg (s.keys.set idx) (store_of_exact h key).1⟩

theorem Exact.insert (h : s.Exact) (idx : ℕ) (key : List UInt8) :
    (s.insert idx key).Exact ∧ (s.insert idx key).keys = s.keys.insertIdx idx key :=
  ⟨(store_of_exact h key).2, congrArg (s.keys.insertIdx idx) (store_of_exact h key).1⟩

/-- Setting all keys replaces them. -/
theorem Exact.setFrom (done : List (List UInt8)) {old new : List (List UInt8)}
    (hlen : new.length = old.length) :
    ∀ {s : StoredKeys}, s.Exact → s.keys = done ++ old →
      (s.setFrom done.length new).Exact ∧ (s.setFrom done.length new).keys = done ++ new := by
  induction new generalizing done old with
  | nil =>
    intro s h hkeys
    obtain rfl := List.length_eq_zero_iff.mp hlen.symm
    exact ⟨h, hkeys⟩
  | cons key rest ih =>
    intro s h hkeys
    cases old with
    | nil => cases hlen
    | cons k old =>
      have hset := h.set done.length key
      rw [hkeys, List.set_append_right _ _ le_rfl, Nat.sub_self, List.set_cons_zero] at hset
      have := ih (done ++ [key]) (Nat.succ.inj hlen) hset.1 (by simp [hset.2])
      rwa [List.length_append, List.append_assoc] at this

/-- **Compaction cuts no key** while its limit is below 65536. -/
theorem Exact.compact (h : s.Exact) {limit : ℤ} (hlimit : limit < 65536) :
    (s.compact limit).Exact ∧ (s.compact limit).keys = s.keys := by
  unfold StoredKeys.compact
  split
  · exact ⟨h, rfl⟩
  · split
    · exact ⟨h, rfl⟩
    · rename_i hpack
      obtain ⟨-, -, hmax⟩ := not_or.mp hpack |>.imp_right not_or.mp
      refine ⟨fun w hw => ?_, ?_⟩
      · obtain rfl := Option.mem_some.mp hw
        omega
      · refine (List.map_congr_left fun key hkey => packedKey_of_lt ?_).trans (List.map_id _)
        have := KeyRep.length_le_maxLen hkey
        omega

end StoredKeys

/-! ### Calls -/

/-- A call to the keys of a node. -/
inductive KeyCall where
  | get (idx : ℕ)
  | set (idx : ℕ) (key : List UInt8)
  | insert (idx : ℕ) (key : List UInt8)
  | remove (idx : ℕ)
  | inflate
  | compact (compactMaxKeyLength : ℤ)
  deriving DecidableEq, Repr

/-- A call to the representation, with the key it returns. -/
def KeyRep.step (rep : KeyRep) : KeyCall → Option (KeyRep × Option (List UInt8))
  | .get idx => (rep.get idx).map fun key => (rep, some key)
  | .set idx key => (rep.set idx key).map fun rep => (rep, none)
  | .insert idx key => (rep.insert idx key).map fun rep => (rep, none)
  | .remove idx => (rep.remove idx).map fun r => (r.1, some r.2)
  | .inflate => rep.inflate.map fun rep => (rep, none)
  | .compact limit => some (rep.compacted limit, none)

/-- The same call to a plain vector. -/
def keyStep (keys : List (List UInt8)) : KeyCall → Option (List (List UInt8) × Option (List UInt8))
  | .get idx => keys[idx]?.map fun key => (keys, some key)
  | .set idx key => if idx < keys.length then some (keys.set idx key, none) else none
  | .insert idx key => if idx ≤ keys.length then some (keys.insertIdx idx key, none) else none
  | .remove idx => keys[idx]?.map fun key => (keys.eraseIdx idx, some key)
  | .inflate => some (keys, none)
  | .compact _ => some (keys, none)

/-- The representation holds the keys of a vector. -/
structure KeyRep.Holds (rep : KeyRep) (keys : List (List UInt8)) : Prop where
  len : rep.len = keys.length
  get : ∀ idx, rep.get idx = keys[idx]?

/-- A compaction that packs keys packs only keys whose length fits 16 bits. -/
def PacksShort (s : KeyRep × List (List UInt8)) : KeyCall → Prop
  | .compact limit => 0 < limit → (∀ key ∈ s.2, (key.length : ℤ) ≤ limit) →
      ∀ key ∈ s.2, key.length < 65536
  | _ => True

namespace KeyRep

/-! ### A packed buffer -/

/-- A slot and the length of its key. -/
abbrev PackedKey := List UInt8 × UInt16

/-- The key of a slot. -/
def PackedKey.key (p : PackedKey) : List UInt8 := p.1.take p.2.toNat

/-- The buffer of slots. -/
def ofSlots (w : ℕ) (slots : List PackedKey) : KeyRep :=
  compact (slots.map Prod.fst).flatten w (slots.map Prod.snd)

/-- Slots of one width, with their keys inside. -/
structure Packed (w : ℕ) (slots : List PackedKey) : Prop where
  width : ∀ p ∈ slots, p.1.length = w
  fits : ∀ p ∈ slots, p.2.toNat ≤ w

variable {w idx : ℕ} {slots : List PackedKey} {key : List UInt8} {keys : List (List UInt8)}

theorem Packed.rows (h : Packed w slots) : ∀ r ∈ slots.map Prod.fst, r.length = w := by
  intro r hr
  obtain ⟨p, hp, rfl⟩ := List.mem_map.mp hr
  exact h.width p hp

theorem Packed.length_buf (h : Packed w slots) :
    (slots.map Prod.fst).flatten.length = slots.length * w := by
  rw [length_flatten_rows h.rows, List.length_map]

/-- The end of a slot lies inside of the buffer. -/
theorem Packed.slot_le (h : Packed w slots) (hidx : idx < slots.length) :
    idx * w + w ≤ (slots.map Prod.fst).flatten.length := by
  rw [h.length_buf, ← Nat.succ_mul]
  exact Nat.mul_le_mul_right w hidx

theorem Packed.slice (h : Packed w slots) {p : PackedKey} (hp : slots[idx]? = some p) :
    slice (slots.map Prod.fst).flatten (idx * w) p.2.toNat = some p.key := by
  obtain ⟨hidx, hget⟩ := List.getElem?_eq_some_iff.mp hp
  have hfit := h.fits p (hget ▸ List.getElem_mem hidx)
  have hend := h.slot_le hidx
  have hrow : (slots.map Prod.fst)[idx]? = some p.1 := by rw [List.getElem?_map, hp]; rfl
  rw [KeyRep.slice, if_pos (by omega), take_drop_flatten h.rows hrow hfit]
  rfl

/-- **The keys of a packed buffer.** -/
theorem Packed.get (h : Packed w slots) (idx : ℕ) :
    (ofSlots w slots).get idx = (slots.map PackedKey.key)[idx]? := by
  rw [ofSlots, KeyRep.get, List.getElem?_map, List.getElem?_map]
  cases hp : slots[idx]? with
  | none => rfl
  | some p => exact h.slice hp

/-- A key at the front of a slot. -/
theorem key_patch {r : List UInt8} (hr : r.length = w) (hkey : key.length ≤ w) :
    PackedKey.key (patch r 0 key, UInt16.ofNat key.length) = packedKey key ∧
      (patch r 0 key).length = w ∧ (UInt16.ofNat key.length).toNat ≤ w := by
  have hlen : (UInt16.ofNat key.length).toNat = key.length % 65536 := UInt16.toNat_ofNat'
  have hmod := Nat.mod_le key.length 65536
  refine ⟨?_, ?_, hlen.trans_le (hmod.trans hkey)⟩
  · rw [PackedKey.key, hlen, patch, List.take_zero, List.nil_append,
      List.take_append_of_le_length hmod, packedKey]
  · rw [length_patch (by omega), hr]

theorem Packed.set (h : Packed w slots) (hidx : idx < slots.length) (hkey : key.length ≤ w) :
    ∃ slots', (ofSlots w slots).set idx key = some (ofSlots w slots') ∧ Packed w slots' ∧
      slots'.map PackedKey.key = (slots.map PackedKey.key).set idx (packedKey key) := by
  obtain ⟨p, hp⟩ : ∃ p, slots[idx]? = some p := ⟨_, List.getElem?_eq_getElem hidx⟩
  have hmem := List.mem_of_getElem? hp
  obtain ⟨hk, hlen, hle⟩ := key_patch (h.width p hmem) hkey
  have hrow : (slots.map Prod.fst)[idx]? = some p.1 := by rw [List.getElem?_map, hp]; rfl
  have hend := h.slot_le hidx
  refine ⟨slots.set idx (patch p.1 0 key, UInt16.ofNat key.length), ?_, ⟨?_, ?_⟩, ?_⟩
  · have hin : idx * w + key.length ≤ (slots.map Prod.fst).flatten.length ∧
        idx < (slots.map Prod.snd).length := ⟨by omega, by rwa [List.length_map]⟩
    have hpatch : patch (slots.map Prod.fst).flatten (idx * w) key =
        ((slots.map Prod.fst).set idx (patch p.1 0 key)).flatten :=
      patch_flatten (j := 0) h.rows hrow (by omega)
    rw [ofSlots, KeyRep.set, if_neg (Nat.not_lt.mpr hkey), if_pos hin, hpatch, ofSlots,
      List.map_set, List.map_set]
  · intro q hq
    rcases List.mem_or_eq_of_mem_set hq with hq | rfl
    · exact h.width q hq
    · exact hlen
  · intro q hq
    rcases List.mem_or_eq_of_mem_set hq with hq | rfl
    · exact h.fits q hq
    · exact hle
  · rw [List.map_set, hk]

theorem Packed.insert (h : Packed w slots) (hidx : idx ≤ slots.length) (hkey : key.length ≤ w) :
    ∃ slots', (ofSlots w slots).insert idx key = some (ofSlots w slots') ∧ Packed w slots' ∧
      slots'.map PackedKey.key = (slots.map PackedKey.key).insertIdx idx (packedKey key) := by
  obtain ⟨hk, hlen, hle⟩ := key_patch (List.length_replicate (a := (0 : UInt8))) hkey
  refine ⟨slots.insertIdx idx (padded w key, UInt16.ofNat key.length), ?_, ⟨?_, ?_⟩, ?_⟩
  · have hbuf : idx * w ≤ (slots.map Prod.fst).flatten.length := by
      rw [h.length_buf]
      exact Nat.mul_le_mul_right w hidx
    have hin : idx * w ≤ (slots.map Prod.fst).flatten.length ∧
        idx ≤ (slots.map Prod.snd).length := ⟨hbuf, by rwa [List.length_map]⟩
    have hpre : ((slots.map Prod.fst).flatten.take (idx * w)).length = idx * w := by
      rw [List.length_take, Nat.min_eq_left hbuf]
    have hpatch : patch ((slots.map Prod.fst).flatten.take (idx * w) ++ List.replicate w 0 ++
        (slots.map Prod.fst).flatten.drop (idx * w)) (idx * w) key =
          ((slots.map Prod.fst).insertIdx idx (padded w key)).flatten := by
      rw [← insert_flatten h.rows (by rwa [List.length_map]), padded,
        ← patch_append (by rw [List.length_replicate]; omega), hpre, Nat.add_zero]
    rw [ofSlots, KeyRep.insert, if_neg (Nat.not_lt.mpr hkey), if_pos hin]
    dsimp only
    rw [hpatch, ofSlots, List.map_insertIdx, List.map_insertIdx]
  · intro q hq
    rcases (List.mem_insertIdx hidx).mp hq with rfl | hq
    · exact hlen
    · exact h.width q hq
  · intro q hq
    rcases (List.mem_insertIdx hidx).mp hq with rfl | hq
    · exact hle
    · exact h.fits q hq
  · rw [List.map_insertIdx]
    exact congrArg _ hk

theorem Packed.remove (h : Packed w slots) {p : PackedKey} (hp : slots[idx]? = some p) :
    (ofSlots w slots).remove idx = some (ofSlots w (slots.eraseIdx idx), p.key) ∧
      Packed w (slots.eraseIdx idx) := by
  obtain ⟨hidx, -⟩ := List.getElem?_eq_some_iff.mp hp
  refine ⟨?_, fun q hq => h.width q (List.mem_of_mem_eraseIdx hq),
    fun q hq => h.fits q (List.mem_of_mem_eraseIdx hq)⟩
  simp only [ofSlots, KeyRep.remove, List.getElem?_map, hp, Option.map_some, Option.bind_eq_bind,
    Option.bind_some, h.slice hp, h.slot_le hidx, guard, if_true, Option.pure_def,
    erase_flatten h.rows idx, List.eraseIdx_map]

/-- Reading all elements one by one. -/
theorem mapM_getElem? {α : Type} (l : List α) :
    (List.range l.length).mapM (fun i => l[i]?) = some l := by
  induction l with
  | nil => rfl
  | cons a l ih =>
    rw [List.length_cons, List.range_succ_eq_map, List.mapM_cons, List.mapM_map]
    simp only [Function.comp_def, Nat.succ_eq_add_one, List.getElem?_cons_succ, ih]
    rfl

theorem Packed.inflate (h : Packed w slots) :
    (ofSlots w slots).inflate = some (default (slots.map PackedKey.key)) := by
  have hlen : (slots.map Prod.snd).length = (slots.map PackedKey.key).length := by
    rw [List.length_map, List.length_map]
  have hget : KeyRep.get (compact (slots.map Prod.fst).flatten w (slots.map Prod.snd)) =
      fun i => (slots.map PackedKey.key)[i]? := funext h.get
  rw [ofSlots, KeyRep.inflate, hget, hlen, mapM_getElem?, Option.map_some]

/-! ### Compaction -/

/-- A vector of keys that is packed. -/
theorem packed_compact (keys : List (List UInt8)) :
    ∃ slots, compact (keys.map (padded (max (maxLen keys) 1))).flatten (max (maxLen keys) 1)
        (keys.map fun key => UInt16.ofNat key.length) = ofSlots (max (maxLen keys) 1) slots ∧
      Packed (max (maxLen keys) 1) slots ∧ slots.map PackedKey.key = keys.map packedKey := by
  have hslot : ∀ key ∈ keys, PackedKey.key (padded (max (maxLen keys) 1) key,
      UInt16.ofNat key.length) = packedKey key ∧ (padded (max (maxLen keys) 1) key).length =
        max (maxLen keys) 1 ∧ (UInt16.ofNat key.length).toNat ≤ max (maxLen keys) 1 :=
    fun key hkey => key_patch List.length_replicate
      ((length_le_maxLen hkey).trans (le_max_left _ _))
  refine ⟨keys.map fun key => (padded (max (maxLen keys) 1) key, UInt16.ofNat key.length), ?_,
    ⟨?_, ?_⟩, ?_⟩
  · rw [ofSlots, List.map_map, List.map_map]
    rfl
  · intro p hp
    obtain ⟨key, hkey, rfl⟩ := List.mem_map.mp hp
    exact (hslot key hkey).2.1
  · intro p hp
    obtain ⟨key, hkey, rfl⟩ := List.mem_map.mp hp
    exact (hslot key hkey).2.2
  · rw [List.map_map]
    exact List.map_congr_left fun key hkey => (hslot key hkey).1

/-! ### The representation and the keys that are read back -/

/-- A representation stores keys: it is the vector of them, or a packed buffer from which they
are read. -/
def Stores (rep : KeyRep) (s : StoredKeys) : Prop :=
  match s.slotWidth with
  | none => rep = default s.keys
  | some w => ∃ slots, Packed w slots ∧ rep = ofSlots w slots ∧ s.keys = slots.map PackedKey.key

variable {rep : KeyRep} {s : StoredKeys}

theorem Stores.holds (h : rep.Stores s) : rep.Holds s.keys := by
  obtain ⟨_ | w, keys⟩ := s
  · obtain rfl := h
    exact ⟨rfl, fun _ => rfl⟩
  · obtain ⟨slots, h, rfl, rfl⟩ := h
    exact ⟨by simp [ofSlots, len], h.get⟩

/-- A key that does not fit is set or inserted after the buffer is unpacked. -/
theorem Packed.inflated (h : Packed w slots) {keys' : List (List UInt8)}
    (edit : List (List UInt8) → Option (List (List UInt8)))
    (hedit : edit (slots.map PackedKey.key) = some keys') :
    (match (ofSlots w slots).inflate with
      | some (default keys) => (edit keys).map default
      | _ => none) = some (default keys') := by
  rw [h.inflate]
  show (edit (slots.map PackedKey.key)).map default = _
  rw [hedit, Option.map_some]

/-- **Setting a key.** -/
theorem Stores.set (h : rep.Stores s) (hidx : idx < s.keys.length) (key : List UInt8) :
    ∃ rep', rep.set idx key = some rep' ∧ rep'.Stores (s.set idx key) := by
  obtain ⟨_ | w, keys⟩ := s
  · obtain rfl := h
    exact ⟨default (keys.set idx key),
      by rw [KeyRep.set, setKeys, if_pos hidx, Option.map_some], rfl⟩
  · obtain ⟨slots, h, rfl, rfl⟩ := h
    by_cases hkey : w < key.length
    · refine ⟨default ((slots.map PackedKey.key).set idx key), ?_, ?_⟩
      · rw [ofSlots, KeyRep.set, if_pos hkey]
        exact h.inflated (fun keys => setKeys keys idx key) (if_pos hidx)
      · simp only [Stores, StoredKeys.set, StoredKeys.store, if_pos hkey]
    · obtain ⟨slots', hset, hpacked, hkeys⟩ :=
        h.set (by simpa using hidx) (Nat.not_lt.mp hkey)
      refine ⟨_, hset, ?_⟩
      simp only [Stores, StoredKeys.set, StoredKeys.store, if_neg hkey]
      exact ⟨slots', hpacked, rfl, hkeys.symm⟩

/-- **Setting several keys.** -/
theorem Stores.setFrom (keys : List (List UInt8)) : ∀ {rep : KeyRep} {s : StoredKeys} {idx : ℕ},
    rep.Stores s → idx + keys.length ≤ s.keys.length →
      ∃ rep', rep.setFrom idx keys = some rep' ∧ rep'.Stores (s.setFrom idx keys) := by
  induction keys with
  | nil => exact fun {rep _ _} h _ => ⟨rep, rfl, h⟩
  | cons key rest ih =>
    intro rep s idx h hlen
    rw [List.length_cons] at hlen
    obtain ⟨rep₁, hset, h₁⟩ := h.set (show idx < s.keys.length by omega) key
    have hlen₁ : (s.set idx key).keys.length = s.keys.length := List.length_set
    obtain ⟨rep', hrest, h'⟩ := ih h₁ (show idx + 1 + rest.length ≤ _ by omega)
    exact ⟨rep', by rw [KeyRep.setFrom, hset, Option.bind_some, hrest], h'⟩

/-- **Inserting a key.** -/
theorem Stores.insert (h : rep.Stores s) (hidx : idx ≤ s.keys.length) (key : List UInt8) :
    ∃ rep', rep.insert idx key = some rep' ∧ rep'.Stores (s.insert idx key) := by
  obtain ⟨_ | w, keys⟩ := s
  · obtain rfl := h
    exact ⟨default (keys.insertIdx idx key),
      by rw [KeyRep.insert, insertKeys, if_pos hidx, Option.map_some], rfl⟩
  · obtain ⟨slots, h, rfl, rfl⟩ := h
    by_cases hkey : w < key.length
    · refine ⟨default ((slots.map PackedKey.key).insertIdx idx key), ?_, ?_⟩
      · rw [ofSlots, KeyRep.insert, if_pos hkey]
        exact h.inflated (fun keys => insertKeys keys idx key) (if_pos hidx)
      · simp only [Stores, StoredKeys.insert, StoredKeys.store, if_pos hkey]
    · obtain ⟨slots', hins, hpacked, hkeys⟩ :=
        h.insert (by simpa using hidx) (Nat.not_lt.mp hkey)
      refine ⟨_, hins, ?_⟩
      simp only [Stores, StoredKeys.insert, StoredKeys.store, if_neg hkey]
      exact ⟨slots', hpacked, rfl, hkeys.symm⟩

/-- **Removing a key.** -/
theorem Stores.remove (h : rep.Stores s) (hkey : s.keys[idx]? = some key) :
    ∃ rep', rep.remove idx = some (rep', key) ∧ rep'.Stores (s.remove idx) := by
  obtain ⟨_ | w, keys⟩ := s
  · obtain rfl := h
    exact ⟨default (keys.eraseIdx idx), by rw [KeyRep.remove, hkey, Option.map_some], rfl⟩
  · obtain ⟨slots, h, rfl, rfl⟩ := h
    rw [List.getElem?_map] at hkey
    obtain ⟨p, hp, rfl⟩ := Option.map_eq_some_iff.mp hkey
    obtain ⟨hrem, hpacked⟩ := h.remove hp
    exact ⟨_, hrem, slots.eraseIdx idx, hpacked, rfl, List.eraseIdx_map ..⟩

/-- **Packing the keys.** -/
theorem Stores.compacted (h : rep.Stores s) (limit : ℤ) :
    (rep.compacted limit).Stores (s.compact limit) := by
  obtain ⟨_ | w, keys⟩ := s
  · obtain rfl := h
    simp only [KeyRep.compacted, StoredKeys.compact]
    split
    · rfl
    · obtain ⟨slots, heq, hpacked, hkeys⟩ := packed_compact keys
      exact ⟨slots, hpacked, heq, hkeys.symm⟩
  · obtain ⟨slots, h, rfl, rfl⟩ := h
    exact ⟨slots, h, rfl, rfl⟩

theorem Stores.inflate (h : rep.Stores s) : rep.inflate = some (default s.keys) := by
  obtain ⟨_ | w, keys⟩ := s
  · obtain rfl := h
    rfl
  · obtain ⟨slots, h, rfl, rfl⟩ := h
    exact h.inflate

/-! ### Refinement -/

/-- The representation stores the keys, and none of them is cut. -/
def Represents (rep : KeyRep) (keys : List (List UInt8)) : Prop :=
  ∃ s, rep.Stores s ∧ s.Exact ∧ s.keys = keys

variable {keys' : List (List UInt8)} {o : Option (List UInt8)}

theorem Represents.holds (h : rep.Represents keys) : rep.Holds keys := by
  obtain ⟨s, h, -, rfl⟩ := h
  exact h.holds

/-- Compaction keeps the keys if it packs only short ones. -/
theorem Represents.compacted (h : rep.Represents keys) {limit : ℤ}
    (hok : PacksShort (rep, keys) (.compact limit)) : (rep.compacted limit).Represents keys := by
  obtain ⟨s, h, hexact, rfl⟩ := h
  refine ⟨_, h.compacted limit, ?_⟩
  unfold StoredKeys.compact
  split
  · exact ⟨hexact, rfl⟩
  split
  · exact ⟨hexact, rfl⟩
  rename_i hpack
  obtain ⟨hlimit, -, hmax⟩ := not_or.mp hpack |>.imp_right not_or.mp
  have hshort := hok (not_le.mp hlimit) fun key hkey =>
    (Int.ofNat_le.mpr (length_le_maxLen hkey)).trans (not_lt.mp hmax)
  refine ⟨fun w hw => ?_, ?_⟩
  · obtain rfl := Option.mem_some.mp hw
    have : maxLen s.keys ≤ 65535 :=
      maxLen_le fun key hkey => Nat.le_of_lt_succ (hshort key hkey)
    omega
  · exact (List.map_congr_left fun key hkey => packedKey_of_lt (hshort key hkey)).trans
      (List.map_id _)

/-- A compaction whose result holds the keys packed only short ones. -/
theorem Represents.packsShort (h : rep.Represents keys) {limit : ℤ}
    (hholds : (rep.compacted limit).Holds keys) : PacksShort (rep, keys) (.compact limit) := by
  intro hlimit hle key hkey
  obtain ⟨⟨_ | w, keys⟩, h, hexact, rfl⟩ := h
  · obtain rfl := h
    by_contra hlong
    have hmax : (maxLen keys : ℤ) ≤ limit := by
      have hnat : maxLen keys ≤ limit.toNat := maxLen_le fun k hk => by
        have := hle k hk
        omega
      omega
    have hpack : ¬ (limit ≤ 0 ∨ keys = [] ∨ limit < maxLen keys) := by
      rintro (hneg | rfl | hlt)
      · omega
      · cases hkey
      · omega
    -- the key that is read back is shorter than the key
    obtain ⟨idx, hidx⟩ := List.getElem?_of_mem hkey
    have hget := ((Stores.compacted (s := ⟨none, keys⟩) rfl limit).holds.get idx).symm.trans
      (hholds.get idx)
    simp only [StoredKeys.compact, if_neg hpack, List.getElem?_map] at hget
    rw [show keys[idx]? = some key from hidx, Option.map_some, Option.some.injEq] at hget
    have hlen := congrArg List.length hget
    rw [packedKey, List.length_take] at hlen
    have hmod := Nat.mod_lt key.length (show 0 < 65536 by decide)
    omega
  · obtain ⟨slots, hpacked, -, rfl⟩ := h
    obtain ⟨p, hp, rfl⟩ := List.mem_map.mp hkey
    have hw := hexact w rfl
    have hwidth := hpacked.width p hp
    rw [PackedKey.key, List.length_take]
    omega

/-- **One call.** -/
theorem Represents.step (h : rep.Represents keys) {call : KeyCall}
    (hcall : keyStep keys call = some (keys', o)) (hok : PacksShort (rep, keys) call) :
    ∃ rep', rep.step call = some (rep', o) ∧ rep'.Represents keys' := by
  cases call with
  | get idx =>
    obtain ⟨key, hkey, heq⟩ := Option.map_eq_some_iff.mp hcall
    obtain ⟨rfl, rfl⟩ := Prod.mk.inj heq
    exact ⟨rep, by rw [KeyRep.step, h.holds.get, hkey, Option.map_some], h⟩
  | set idx key =>
    rw [keyStep, Option.ite_none_right_eq_some] at hcall
    obtain ⟨hidx, heq⟩ := hcall
    obtain ⟨rfl, rfl⟩ := Prod.mk.inj (Option.some.inj heq)
    obtain ⟨s, h, hexact, rfl⟩ := h
    obtain ⟨rep', hset, hrep⟩ := h.set hidx key
    exact ⟨rep', by rw [KeyRep.step, hset, Option.map_some], _, hrep, hexact.set idx key⟩
  | insert idx key =>
    rw [keyStep, Option.ite_none_right_eq_some] at hcall
    obtain ⟨hidx, heq⟩ := hcall
    obtain ⟨rfl, rfl⟩ := Prod.mk.inj (Option.some.inj heq)
    obtain ⟨s, h, hexact, rfl⟩ := h
    obtain ⟨rep', hins, hrep⟩ := h.insert hidx key
    exact ⟨rep', by rw [KeyRep.step, hins, Option.map_some], _, hrep, hexact.insert idx key⟩
  | remove idx =>
    obtain ⟨key, hkey, heq⟩ := Option.map_eq_some_iff.mp hcall
    obtain ⟨rfl, rfl⟩ := Prod.mk.inj heq
    obtain ⟨s, h, hexact, rfl⟩ := h
    obtain ⟨rep', hrem, hrep⟩ := h.remove hkey
    exact ⟨rep', by rw [KeyRep.step, hrem, Option.map_some], _, hrep, hexact, rfl⟩
  | inflate =>
    obtain ⟨rfl, rfl⟩ := Prod.mk.inj (Option.some.inj hcall)
    obtain ⟨s, h, -, rfl⟩ := h
    exact ⟨_, by rw [KeyRep.step, h.inflate, Option.map_some], ⟨none, s.keys⟩, rfl,
      fun w hw => (Option.not_mem_none w hw).elim, rfl⟩
  | compact limit =>
    obtain ⟨rfl, rfl⟩ := Prod.mk.inj (Option.some.inj hcall)
    exact ⟨_, rfl, h.compacted hok⟩

end KeyRep

open KeyRep in
/-- **The keys of a node.** From a node with a vector of keys, every sequence of calls that a plain
vector accepts is accepted, gives the keys that the vector gives, and leaves its keys behind, after
every part of the sequence, exactly if no compaction packs a key of 65536 bytes or more. -/
theorem key_rep_right_iff (keys : List (List UInt8)) (calls : List KeyCall) :
    (∀ done rest keys' given, calls = done ++ rest →
        answers keyStep keys done = some (keys', given) →
          ∃ rep, answers KeyRep.step (default keys) done = some (rep, given) ∧ rep.Holds keys') ↔
      Meets (both KeyRep.step keyStep) PacksShort (default keys, keys) calls := by
  refine refines_throughout_iff (R := Represents) (fun _ _ h => h.holds) ?_ ?_ ?_
    ⟨⟨none, keys⟩, rfl, fun w hw => (Option.not_mem_none w hw).elim, rfl⟩ calls
  · intro rep keys call _ hnone
    cases call with
    | compact limit => cases hnone
    | _ => trivial
  · exact fun _ _ _ _ _ h hcall hok => h.step hcall hok
  · intro rep keys call keys' o rep' h hcall hstep hholds
    cases call with
    | compact limit =>
      obtain ⟨rfl, -⟩ := Prod.mk.inj (Option.some.inj hcall)
      obtain ⟨rfl, -⟩ := Prod.mk.inj (Option.some.inj hstep)
      exact h.packsShort hholds
    | _ => trivial

/-- The calls of a key of 65536 bytes. -/
theorem answers_packed {key : List UInt8} (hlen : key.length = 65536) :
    (answers keyStep [] [.insert 0 key, .compact 65536, .get 0]).map Prod.snd =
      some [none, none, some key] ∧
    (answers KeyRep.step (.default []) [.insert 0 key, .compact 65536, .get 0]).map Prod.snd =
      some [none, none, some []] := by
  have hmax : KeyRep.maxLen [key] = 65536 := by simp [KeyRep.maxLen, hlen]
  have hpack : (KeyRep.default [key]).compacted 65536 =
      .compact (KeyRep.padded 65536 key ++ []) 65536 [0] := by
    simp [KeyRep.compacted, hmax, hlen]
  have hget : (KeyRep.compact (KeyRep.padded 65536 key ++ []) 65536 [0]).get 0 = some [] := by
    simp [KeyRep.get, KeyRep.slice]
  have hins : (KeyRep.default []).insert 0 key = some (.default [key]) := rfl
  refine ⟨rfl, ?_⟩
  simp only [answers, KeyRep.step, hins, hpack, hget, Option.map_some, Option.bind_some]

/-- A packed key of 65536 bytes is read back as the empty one. -/
theorem key_rep_cuts :
    (answers keyStep []
        [.insert 0 (List.replicate 65536 1), .compact 65536, .get 0]).map Prod.snd =
      some [none, none, some (List.replicate 65536 1)] ∧
    (answers KeyRep.step (.default [])
        [.insert 0 (List.replicate 65536 1), .compact 65536, .get 0]).map Prod.snd =
      some [none, none, some []] :=
  answers_packed List.length_replicate

end Noxu
