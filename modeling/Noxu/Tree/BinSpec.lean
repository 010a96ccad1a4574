import Mathlib.Data.List.InsertIdx
import Noxu.Library.KeyRange
import Noxu.Tree.Bin

/-!
# Specification of the Bottom Node

One lemma per operation of `Noxu.Tree.Bin`, over the slots with their full keys. The
invariant of a node (`BinStub.WF`) is that its full keys are strictly increasing in the
tree's comparison, that a node without prefixing has no prefix, and that no suffix is cut when
it is packed (`BinStub.KeysExact`). Prefix maintenance is invisible here: it never changes the
full slots.

## Main results

* `BinStub.stores_insertSlot` and its neighbours: the suffixes of a node are the keys that its
  `KeyRep` holds;
* `BinStub.findEntry_located`: a search hits the slot of the key, or reports the place
  between the smaller and the greater slots;
* `BinStub.insertEntry_inserted`: an insertion overwrites the slot of its key or adds a
  fresh one in its place, and keeps the invariant.
-/

open Std Noxu.Library

namespace Noxu

variable {c : Option KeyComparator} {cmp : Key → Key → Ordering} {b : BinStub}
variable {k : Key} {l : List BinSlot}

/-! ### Where a key stands in a slot list -/

/-- The outcome of a search for a key in a sorted slot list. -/
inductive Located (cmp : Key → Key → Ordering) (k : Key) :
    List BinSlot → ℕ → Bool → Prop where
  /-- A slot whose key compares equal stands at the index. -/
  | hit {pre post : List BinSlot} {s : BinSlot} (hk : cmp s.key k = .eq) :
      Located cmp k (pre ++ s :: post) pre.length true
  /-- The key is absent and belongs at the index. -/
  | miss {pre post : List BinSlot} (hpre : ∀ s ∈ pre, cmp s.key k = .lt)
      (hpost : ∀ s ∈ post, cmp s.key k = .gt) :
      Located cmp k (pre ++ post) pre.length false

theorem monotoneAlong_of_sortedBy [TransCmp cmp] (h : SortedBy cmp BinSlot.key l) :
    MonotoneAlong (fun s : BinSlot => cmp s.key k) l := by
  refine h.imp fun {a b} hab => ⟨fun hb => TransCmp.lt_trans hab hb, fun ha => ?_⟩
  exact OrientedCmp.gt_of_lt (TransCmp.lt_trans (OrientedCmp.lt_of_gt ha) hab)

theorem located_searchResult [TransCmp cmp] (h : SortedBy cmp BinSlot.key l) :
    Located cmp k l
      (BinStub.searchResult (binarySearchBy (fun s : BinSlot => cmp s.key k) l)).1
      (BinStub.searchResult (binarySearchBy (fun s : BinSlot => cmp s.key k) l)).2 := by
  cases hr : binarySearchBy (fun s : BinSlot => cmp s.key k) l with
  | ok i =>
    obtain ⟨pre, s, post, rfl, rfl, hs⟩ := binarySearchBy_ok hr
    exact .hit hs
  | error i =>
    obtain ⟨pre, post, rfl, rfl, hpre, hpost⟩ :=
      binarySearchBy_error (monotoneAlong_of_sortedBy h) hr
    exact .miss hpre hpost

/-- What an insertion does to a slot list: overwrite the slot of the key, which takes the bytes of
the inserted one, or add a fresh slot in its place. The flag reports a key that was not live
before. -/
inductive Upserts (cmp : Key → Key → Ordering) (k : Key) (lsn : Lsn)
    (data : Option (List UInt8)) : List BinSlot → List BinSlot → Bool → Prop where
  /-- The key has a slot. -/
  | hit {pre post : List BinSlot} {s : BinSlot} (hk : cmp s.key k = .eq) :
      Upserts cmp k lsn data (pre ++ s :: post)
        (pre ++ BinSlot.overwrite lsn data { s with key := k } :: post) s.isDeleted
  /-- The key has no slot. -/
  | miss {pre post : List BinSlot} (hpre : ∀ s ∈ pre, cmp s.key k = .lt)
      (hpost : ∀ s ∈ post, cmp s.key k = .gt) :
      Upserts cmp k lsn data (pre ++ post) (pre ++ BinSlot.fresh k lsn data :: post) true

variable {data : Option (List UInt8)} {isNew : Bool}

theorem Upserts.sortedBy [TransCmp cmp] {lsn : Lsn}
    {l' : List BinSlot} (h : Upserts cmp k lsn data l l' isNew)
    (hl : SortedBy cmp BinSlot.key l) : SortedBy cmp BinSlot.key l' := by
  cases h with
  | hit hk => exact hl.replace hk
  | miss hpre hpost => exact hl.insert hpre hpost

/-- An insertion adds no key but its own. -/
theorem Upserts.key_mem {lsn : Lsn} {l' : List BinSlot} (h : Upserts cmp k lsn data l l' isNew) :
    ∀ s ∈ l', s.key = k ∨ s ∈ l := by
  cases h with
  | hit hk =>
    intro s hs
    simp only [List.mem_append, List.mem_cons] at hs ⊢
    rcases hs with hs | rfl | hs
    · exact .inr (.inl hs)
    · exact .inl rfl
    · exact .inr (.inr (.inr hs))
  | miss hpre hpost =>
    intro s hs
    simp only [List.mem_append, List.mem_cons] at hs ⊢
    rcases hs with hs | rfl | hs
    · exact .inr (.inl hs)
    · exact .inl rfl
    · exact .inr (.inr hs)

theorem Upserts.length_le {lsn : Lsn} {l' : List BinSlot}
    (h : Upserts cmp k lsn data l l' isNew) : l'.length ≤ l.length + 1 := by
  cases h with
  | hit hk => simp
  | miss hpre hpost => simp only [List.length_append, List.length_cons]; omega

namespace BinStub

/-! ### Full slots -/

@[simp] theorem length_fullSlots (b : BinStub) : b.fullSlots.length = b.slots.length := by
  simp [fullSlots]

variable {s : BinSlot} {post : List BinSlot}

theorem keyPrefix_isPrefix (hs : s ∈ b.fullSlots) : b.keyPrefix <+: s.key := by
  obtain ⟨t, -, rfl⟩ := List.mem_map.mp hs
  exact ⟨t.key, rfl⟩

/-! ### The suffixes and their form -/

variable {rep : KeyRep}

theorem storedKeys_withStoredKeys {stored : StoredKeys}
    (h : stored.keys.length = b.slots.length) : (b.withStoredKeys stored).storedKeys = stored := by
  have hkeys : ∀ (l : List BinSlot) (ks : List Key), ks.length = l.length →
      (List.zipWith (fun s key => { s with key := key }) l ks).map BinSlot.key = ks := by
    intro l
    induction l with
    | nil => intro ks hks; simp [List.length_eq_zero_iff.mp hks]
    | cons s l ih =>
      intro ks hks
      cases ks with
      | nil => cases hks
      | cons key ks => simpa using ih ks (Nat.succ.inj hks)
  exact congrArg (StoredKeys.mk stored.slotWidth) (hkeys _ _ h)

theorem length_keys_storedKeys (b : BinStub) : b.storedKeys.keys.length = b.slots.length :=
  List.length_map _

theorem storedKeys_compactKeys (b : BinStub) :
    b.compactKeys.storedKeys = b.storedKeys.compact b.compactMaxKeyLength :=
  storedKeys_withStoredKeys <|
    (StoredKeys.length_keys_compact _ _).trans (length_keys_storedKeys b)

/-- A fresh suffix is inserted into the `KeyRep` of the node. -/
theorem stores_insertSlot (h : rep.Stores b.storedKeys) {i : ℕ} (hi : i ≤ b.slots.length)
    (suffix : Key) (lsn : Lsn) (data : Option (List UInt8)) :
    ∃ rep', rep.insert i suffix = some rep' ∧
      rep'.Stores (b.insertSlot i suffix lsn data).storedKeys := by
  have hstored : (b.insertSlot i suffix lsn data).storedKeys = b.storedKeys.insert i suffix := by
    simp [insertSlot, storedKeys, StoredKeys.insert, List.map_insertIdx, BinSlot.fresh]
  rw [hstored]
  exact h.insert (hi.trans_eq (length_keys_storedKeys b).symm) suffix

/-- The suffix of a slot is set in the `KeyRep` of the node. -/
theorem stores_setSlotKey (h : rep.Stores b.storedKeys) {i : ℕ} (hi : i < b.slots.length)
    (suffix : Key) : ∃ rep', rep.set i suffix = some rep' ∧
      rep'.Stores (b.setSlotKey i suffix).storedKeys := by
  have hstored : (b.setSlotKey i suffix).storedKeys = b.storedKeys.set i suffix := by
    simp only [setSlotKey, storedKeys, StoredKeys.set, StoredKeys.mk.injEq, true_and]
    rw [map_modify (g := BinSlot.key) (f := fun s =>
      { s with key := (StoredKeys.store b.keyWidth suffix).2 })
      (k := fun _ => (StoredKeys.store b.keyWidth suffix).2) (fun _ => rfl) b.slots i]
    exact List.modify_eq_set ..
  rw [hstored]
  exact h.set (hi.trans_eq (length_keys_storedKeys b).symm) suffix

/-- The suffix of a removed slot is removed from the `KeyRep` of the node. -/
theorem stores_removeSlot (h : rep.Stores b.storedKeys) {i : ℕ}
    (hs : b.slots[i]? = some s) : ∃ rep', rep.remove i = some (rep', s.key) ∧
      rep'.Stores (b.removeSlot i).storedKeys := by
  have hstored : (b.removeSlot i).storedKeys = b.storedKeys.remove i := by
    simp [removeSlot, storedKeys, StoredKeys.remove, List.eraseIdx_map]
  rw [hstored]
  exact h.remove (by simp [storedKeys, hs])

/-- **Under a new prefix** the suffixes are set one by one in the `KeyRep` of the node, which is
then compacted. -/
theorem stores_applyNewPrefix (h : rep.Stores b.storedKeys) (p : Key) :
    ∃ rep', rep.setFrom 0 (b.fullSlots.map fun s => s.key.drop p.length) = some rep' ∧
      (rep'.compacted b.compactMaxKeyLength).Stores (b.applyNewPrefix p).storedKeys := by
  have hlen : 0 + (b.fullSlots.map fun s => s.key.drop p.length).length ≤
      b.storedKeys.keys.length := by simp [storedKeys, fullSlots]
  obtain ⟨rep', hset, h'⟩ := h.setFrom _ hlen
  refine ⟨rep', hset, ?_⟩
  rw [applyNewPrefix, storedKeys_compactKeys, storedKeys_withStoredKeys]
  · exact h'.compacted _
  · exact (StoredKeys.length_keys_setFrom ..).trans (length_keys_storedKeys b)

/-- No suffix of the node is cut by the form it is kept in. -/
structure KeysExact (b : BinStub) : Prop where
  stored : ∀ w ∈ b.keyWidth, w < 65536
  limit : b.compactMaxKeyLength < 65536

/-- Suffixes that are computed from the slots. -/
theorem slots_withStoredKeys {stored : StoredKeys} {g : BinSlot → Key}
    (h : stored.keys = b.slots.map g) :
    (b.withStoredKeys stored).slots = b.slots.map fun s => { s with key := g s } := by
  rw [withStoredKeys, h, List.zipWith_map_right, List.zipWith_self]

theorem KeysExact.compactKeys (hb : b.KeysExact) :
    b.compactKeys.KeysExact ∧ b.compactKeys.slots = b.slots := by
  have hcompact := StoredKeys.Exact.compact (s := b.storedKeys) hb.stored hb.limit
  exact ⟨⟨hcompact.1, hb.limit⟩, (slots_withStoredKeys hcompact.2).trans (List.map_id _)⟩

theorem KeysExact.fullSlots_compactKeys (hb : b.KeysExact) :
    b.compactKeys.fullSlots = b.fullSlots :=
  congrArg (List.map (BinSlot.withPrefix b.keyPrefix)) hb.compactKeys.2

theorem KeysExact.applyNewPrefix (hb : b.KeysExact) (p : Key) :
    (b.applyNewPrefix p).KeysExact ∧
      (b.applyNewPrefix p).slots =
        b.fullSlots.map fun s => { s with key := s.key.drop p.length } := by
  have hlen : (b.fullSlots.map fun s => s.key.drop p.length).length =
      b.storedKeys.keys.length := by simp [storedKeys, fullSlots]
  have hset := StoredKeys.Exact.setFrom [] hlen (s := b.storedKeys) hb.stored rfl
  have hslots := slots_withStoredKeys (b := { b with keyPrefix := p })
    (g := fun s => (b.keyPrefix ++ s.key).drop p.length)
    (hset.2.trans (by simp [fullSlots, Function.comp_def, BinSlot.withPrefix]))
  have hexact : ({ b with keyPrefix := p }.withStoredKeys (b.storedKeys.setFrom 0
      (b.fullSlots.map fun s : BinSlot => s.key.drop p.length))).KeysExact :=
    ⟨hset.1, hb.limit⟩
  refine ⟨hexact.compactKeys.1, hexact.compactKeys.2.trans (hslots.trans ?_)⟩
  simp [fullSlots, Function.comp_def, BinSlot.withPrefix]

theorem KeysExact.insertSlot (hb : b.KeysExact) (i : ℕ) (suffix : Key) (lsn : Lsn)
    (data : Option (List UInt8)) : (b.insertSlot i suffix lsn data).KeysExact ∧
      (b.insertSlot i suffix lsn data).slots =
        b.slots.insertIdx i (BinSlot.fresh suffix lsn data) := by
  obtain ⟨hkey, hw⟩ := StoredKeys.store_of_exact (s := b.storedKeys) hb.stored suffix
  exact ⟨⟨hw, hb.limit⟩,
    congrArg (fun key => b.slots.insertIdx i (BinSlot.fresh key lsn data)) hkey⟩

theorem KeysExact.setSlotKey (hb : b.KeysExact) (i : ℕ) (suffix : Key) :
    (b.setSlotKey i suffix).KeysExact ∧
      (b.setSlotKey i suffix).slots = b.slots.modify i fun s => { s with key := suffix } := by
  obtain ⟨hkey, hw⟩ := StoredKeys.store_of_exact (s := b.storedKeys) hb.stored suffix
  exact ⟨⟨hw, hb.limit⟩,
    congrArg (fun key => b.slots.modify i fun s => { s with key := key }) hkey⟩

/-! ### The prefix -/

/-- Storing the keys under a prefix they all start with does not change them. -/
theorem fullSlots_applyNewPrefix (hb : b.KeysExact) {p : Key}
    (h : ∀ s ∈ b.fullSlots, p <+: s.key) : (b.applyNewPrefix p).fullSlots = b.fullSlots := by
  have hmap : ∀ s ∈ b.fullSlots,
      ({ s with key := p ++ s.key.drop p.length } : BinSlot) = s := by
    intro s hs
    obtain ⟨t, ht⟩ := h s hs
    have hk : p ++ s.key.drop p.length = s.key := by simp [← ht]
    rw [hk]
  rw [fullSlots, (hb.applyNewPrefix p).2, List.map_map]
  exact (List.map_congr_left hmap).trans (List.map_id _)

theorem commonPrefixLoop_isPrefix (seed : Key) :
    ∀ (ks : List Key) (n : ℕ), commonPrefixLoop seed n ks <+: seed.take n ∧
      ∀ k ∈ ks, commonPrefixLoop seed n ks <+: k := by
  intro ks
  induction ks with
  | nil => intro n; simp [commonPrefixLoop]
  | cons k ks ih =>
    intro n
    simp only [commonPrefixLoop]
    generalize hn : (if getKeyPrefixLength (seed.take n) k < n
      then getKeyPrefixLength (seed.take n) k else n) = n'
    split
    · simp
    · obtain ⟨hseed, hks⟩ := ih n'
      have hle : n' ≤ n := by split at hn <;> omega
      have hk : seed.take n' <+: k := by
        split at hn
        · subst hn
          have := take_getKeyPrefixLength_isPrefix (seed.take n) k
          rwa [List.take_take, min_eq_left (by omega)] at this
        · subst hn
          have hlen := getKeyPrefixLength_le_length (seed.take n) k
          exact isPrefix_of_length_le_getKeyPrefixLength (by simp at hlen ⊢; omega)
      refine ⟨hseed.trans ( List.take_prefix_take_left hle), fun k' hk' => ?_⟩
      rcases List.mem_cons.mp hk' with rfl | hk'
      · exact hseed.trans hk
      · exact hks k' hk'

theorem computeKeyPrefix_isPrefix (hs : s ∈ b.fullSlots) :
    b.computeKeyPrefix <+: s.key := by
  have hk : s.key ∈ b.fullSlots.map BinSlot.key := List.mem_map_of_mem hs
  unfold computeKeyPrefix
  split
  · simp
  · split
    · rename_i seed key rest heq
      rw [heq] at hk
      obtain ⟨hseed, hrest⟩ := commonPrefixLoop_isPrefix seed (key :: rest) seed.length
      rcases List.mem_cons.mp hk with h | h
      · rw [h]
        simpa using hseed
      · exact hrest _ h
    · simp

theorem computeKeyPrefix_of_plain (h : b.keyPrefixing = false) : b.computeKeyPrefix = [] := by
  simp [computeKeyPrefix, h]

/-- Learning the common prefix does not change the slots. -/
theorem fullSlots_recomputeKeyPrefix (hb : b.KeysExact) :
    b.recomputeKeyPrefix.fullSlots = b.fullSlots :=
  fullSlots_applyNewPrefix hb fun _ hs => computeKeyPrefix_isPrefix hs

private theorem foldl_take_isPrefix (ks : List Key) :
    ∀ p : Key, (ks.foldl (fun q k => q.take (getKeyPrefixLength q k)) p) <+: p ∧
      ∀ k ∈ ks, (ks.foldl (fun q k => q.take (getKeyPrefixLength q k)) p) <+: k := by
  induction ks with
  | nil => simp
  | cons k ks ih =>
    intro p
    obtain ⟨hp, hks⟩ := ih (p.take (getKeyPrefixLength p k))
    simp only [List.foldl_cons]
    refine ⟨hp.trans ( List.take_prefix _ _), fun k' hk' => ?_⟩
    rcases List.mem_cons.mp hk' with rfl | hk'
    · exact hp.trans (take_getKeyPrefixLength_isPrefix _ _)
    · exact hks k' hk'

theorem shrunkPrefix_isPrefix (b : BinStub) (k : Key) :
    (∀ s ∈ b.fullSlots, b.shrunkPrefix k <+: s.key) ∧
      (b.slots ≠ [] → b.shrunkPrefix k <+: k) := by
  unfold shrunkPrefix
  dsimp only
  split
  · exact ⟨fun s hs => ( List.take_prefix _ _).trans (computeKeyPrefix_isPrefix hs),
      fun _ => take_getKeyPrefixLength_isPrefix _ _⟩
  · split
    · simp
    · rename_i first rest heq
      obtain ⟨hfirst, hrest⟩ := foldl_take_isPrefix rest ((createKeyPrefix first k).getD [])
      obtain ⟨hc, hck⟩ := createKeyPrefix_isPrefix first k
      refine ⟨fun s hs => ?_, fun _ => hfirst.trans hck⟩
      have hk : s.key ∈ first :: rest := heq ▸ List.mem_map_of_mem hs
      rcases List.mem_cons.mp hk with h | h
      · rw [h]
        exact hfirst.trans hc
      · exact hrest _ h

/-- After the shrinking step the new key starts with the node's prefix. -/
theorem shrinkPrefixFor_isPrefix (b : BinStub) (k : Key) :
    (b.shrinkPrefixFor k).keyPrefix <+: k := by
  unfold shrinkPrefixFor
  split
  · show b.shrunkPrefix k <+: k
    by_cases hb : b.slots = []
    · simp [shrunkPrefix, computeKeyPrefix, fullSlots, hb]
    · exact (shrunkPrefix_isPrefix b k).2 hb
  · rename_i h
    have hle := getKeyPrefixLength_le_length b.keyPrefix k
    exact isPrefix_of_length_le_getKeyPrefixLength (by omega)

/-- The shrinking step does not change the slots. -/
theorem KeysExact.shrinkPrefixFor (hb : b.KeysExact) (k : Key) :
    (b.shrinkPrefixFor k).KeysExact ∧ (b.shrinkPrefixFor k).fullSlots = b.fullSlots := by
  unfold BinStub.shrinkPrefixFor
  split
  · exact ⟨(hb.applyNewPrefix _).1, fullSlots_applyNewPrefix hb (shrunkPrefix_isPrefix b k).1⟩
  · exact ⟨hb, rfl⟩

/-! ### The invariant -/

/-- The invariant of a node in a tree: full keys strictly increase, a node without prefixing has
no prefix, and no key is cut. -/
structure WF (c : Option KeyComparator) (b : BinStub) : Prop where
  sorted : SortedBy (keyCmp c) BinSlot.key b.fullSlots
  plain : b.keyPrefixing = false → b.keyPrefix = []
  exact : b.KeysExact

/-! ### Search -/

/-- Comparator search of the suffixes is search of the full slots. -/
theorem keyBinarySearchBy_eq (b : BinStub) (cmp : Key → Key → Ordering) (k : Key) :
    b.keyBinarySearchBy (fun s => cmp (b.decompressKey s) k) =
      binarySearchBy (fun s : BinSlot => cmp s.key k) b.fullSlots := by
  simp [keyBinarySearchBy, fullSlots, binarySearchBy_map, decompressKey, BinSlot.withPrefix]

/-- Byte-order search for the suffix of a key under the node's prefix is search of the
full slots. -/
theorem keyBinarySearch_eq (h : b.keyPrefix <+: k) :
    b.keyBinarySearch (b.compressKey k) =
      binarySearchBy (fun s : BinSlot => compare s.key k) b.fullSlots := by
  obtain ⟨t, rfl⟩ := h
  simp [keyBinarySearch, compressKey, fullSlots, binarySearchBy_map, BinSlot.withPrefix,
    compare_append_left]

/-- **Search in a leaf** locates the key among the full slots. -/
theorem findEntry_located (hb : b.WF c) (k : Key) :
    Located (keyCmp c) k b.fullSlots (b.findEntry c k).1 (b.findEntry c k).2 := by
  cases c with
  | some c =>
    simp only [findEntry, findEntryCmp, keyBinarySearchBy_eq]
    exact located_searchResult hb.sorted
  | none =>
    simp only [findEntry, findEntryCompressed]
    split
    · -- the key is outside the prefix: every full key differs from it
      rename_i hout
      have hne : ∀ s ∈ b.fullSlots, compare s.key k ≠ .eq := by
        intro s hs heq
        obtain rfl := LawfulEqCmp.eq_of_compare heq
        obtain ⟨t, ht⟩ := keyPrefix_isPrefix hs
        rcases hout.2 with h | h
        · have := congrArg List.length ht
          simp only [List.length_append] at this
          omega
        · exact h (by rw [← ht]; simp)
      have hmap : partitionPoint
            (fun s : BinSlot => compare (b.decompressKey s.key) k == .lt) b.slots =
          partitionPoint (fun s : BinSlot => compare s.key k == .lt) b.fullSlots := by
        rw [fullSlots, partitionPoint_map]
        rfl
      obtain ⟨pre, post, heq, hlen, hpre, hpost⟩ :=
        partitionPoint_spec (p := fun s : BinSlot => compare s.key k == .lt)
          ((monotoneAlong_of_sortedBy (k := k) hb.sorted).imp fun {a b} hab hlt => by
            simpa using hab.1 (by simpa using hlt))
      rw [hmap, ← hlen, heq]
      refine .miss (fun s hs => by simpa using hpre s hs) fun s hs => ?_
      have hlt := hpost s hs
      have heq' := hne s (heq ▸ List.mem_append_right _ hs)
      show compare s.key k = .gt
      cases hc : compare s.key k <;> simp_all
    · -- the key shares the prefix: search for its suffix
      rename_i hin
      have hpre : b.keyPrefix <+: k := by
        by_cases hp : b.keyPrefix = []
        · simp [hp]
        · have hpos : 0 < b.keyPrefix.length := List.length_pos_iff.mpr hp
          have htake : k.take b.keyPrefix.length = b.keyPrefix := by
            by_contra hne
            exact hin ⟨hpos, .inr hne⟩
          have happ := List.take_append_drop b.keyPrefix.length k
          rw [htake] at happ
          exact ⟨_, happ⟩
      have := keyBinarySearch_eq hpre
      rw [compressKey] at this
      rw [this]
      exact located_searchResult hb.sorted

/-! ### Insertion -/

/-- The fields that slot edits leave alone. -/
def SameFrame (b b' : BinStub) : Prop :=
  b' = { b with
    slots := b'.slots
    keyWidth := b'.keyWidth
    keyPrefix := b'.keyPrefix
    dirty := b'.dirty
    prohibitNextDelta := b'.prohibitNextDelta }

theorem SameFrame.trans {b₁ b₂ b₃ : BinStub} (h₁ : SameFrame b₁ b₂)
    (h₂ : SameFrame b₂ b₃) : SameFrame b₁ b₃ := by
  unfold SameFrame at *
  rw [h₂, h₁]

theorem SameFrame.keyPrefixing_eq {b' : BinStub} (h : SameFrame b b') :
    b'.keyPrefixing = b.keyPrefixing := by rw [h]

theorem sameFrame_shrinkPrefixFor (b : BinStub) (k : Key) :
    SameFrame b (b.shrinkPrefixFor k) := by
  unfold shrinkPrefixFor
  split
  · exact rfl
  · exact rfl

theorem sameFrame_learnPrefix (b : BinStub) : SameFrame b b.learnPrefix := by
  unfold learnPrefix
  split
  · exact rfl
  · exact rfl

theorem KeysExact.learnPrefix (hb : b.KeysExact) :
    b.learnPrefix.KeysExact ∧ b.learnPrefix.fullSlots = b.fullSlots := by
  unfold BinStub.learnPrefix
  split
  · exact ⟨(hb.applyNewPrefix _).1, fullSlots_recomputeKeyPrefix hb⟩
  · exact ⟨hb, rfl⟩

theorem learnPrefix_plain (h : b.keyPrefixing = false → b.keyPrefix = []) :
    b.learnPrefix.keyPrefixing = false → b.learnPrefix.keyPrefix = [] := by
  unfold learnPrefix
  split
  · intro hk
    exact computeKeyPrefix_of_plain hk
  · exact h

theorem WF.shrinkPrefixFor (hb : b.WF c) (k : Key) : (b.shrinkPrefixFor k).WF c := by
  obtain ⟨hexact, hfull⟩ := hb.exact.shrinkPrefixFor k
  refine ⟨hfull ▸ hb.sorted, fun hk => ?_, hexact⟩
  have hnil := hb.plain ((sameFrame_shrinkPrefixFor b k).keyPrefixing_eq ▸ hk)
  simp [BinStub.shrinkPrefixFor, hnil]

theorem fullSlots_overwriteSlot (b : BinStub) (i : ℕ) (lsn : Lsn)
    (data : Option (List UInt8)) :
    (b.overwriteSlot i lsn data).1.fullSlots =
      b.fullSlots.modify i (BinSlot.overwrite lsn data) := by
  exact map_modify (g := BinSlot.withPrefix b.keyPrefix)
    (f := BinSlot.overwrite lsn data) (fun _ => rfl) b.slots i

theorem fullSlots_insertSlot (hb : b.KeysExact) (i : ℕ) (suffix : Key) (lsn : Lsn)
    (data : Option (List UInt8)) :
    (b.insertSlot i suffix lsn data).fullSlots =
      b.fullSlots.insertIdx i (BinSlot.fresh (b.decompressKey suffix) lsn data) := by
  rw [fullSlots, (hb.insertSlot i suffix lsn data).2]
  exact List.map_insertIdx _ _ _ _

theorem fullSlots_setSlotKey (hb : b.KeysExact) (i : ℕ) (suffix : Key) :
    (b.setSlotKey i suffix).fullSlots =
      b.fullSlots.modify i fun s => { s with key := b.decompressKey suffix } := by
  rw [fullSlots, (hb.setSlotKey i suffix).2]
  exact map_modify (g := BinSlot.withPrefix b.keyPrefix)
    (f := fun s => { s with key := suffix }) (fun _ => rfl) b.slots i

/-- A key that starts with the node's prefix is put together again. -/
theorem decompressKey_compressKey (hp : b.keyPrefix <+: k) :
    b.decompressKey (b.compressKey k) = k := by
  obtain ⟨t, rfl⟩ := hp
  simp [decompressKey, compressKey]

/-- A slot of the node is deleted with its full key or without. -/
theorem isDeleted_fullSlots {pre : List BinSlot} (heq : b.fullSlots = pre ++ s :: post) :
    (b.slots[pre.length]?.map BinSlot.isDeleted).getD false = s.isDeleted := by
  have hmap : b.slots.map BinSlot.isDeleted = b.fullSlots.map BinSlot.isDeleted := by
    simp [fullSlots, Function.comp_def, BinSlot.isDeleted, BinSlot.withPrefix]
  rw [← List.getElem?_map, hmap, heq]
  simp

/-- A search hit followed by an overwrite of a slot that has the bytes of the key. -/
theorem overwriteSlot_upserts (cmp : Key → Key → Ordering) [TransCmp cmp]
    {pre : List BinSlot} (lsn : Lsn) (data : Option (List UInt8))
    (heq : b.fullSlots = pre ++ s :: post) (hs : s.key = k) :
    Upserts cmp k lsn data b.fullSlots (b.overwriteSlot pre.length lsn data).1.fullSlots
      (b.overwriteSlot pre.length lsn data).2.2 := by
  rw [fullSlots_overwriteSlot, heq, modify_length_append]
  simp only [overwriteSlot, isDeleted_fullSlots heq]
  subst hs
  exact .hit ReflCmp.compare_self

/-- A search hit whose slot takes the bytes of the key before it is overwritten. -/
theorem setSlotKey_upserts (hb : b.KeysExact) {pre : List BinSlot} (lsn : Lsn)
    (data : Option (List UInt8)) (hp : b.keyPrefix <+: k) (heq : b.fullSlots = pre ++ s :: post)
    (hs : cmp s.key k = .eq) :
    Upserts cmp k lsn data b.fullSlots
      (({ b.setSlotKey pre.length (b.compressKey k) with
          prohibitNextDelta := true }.overwriteSlot pre.length lsn data).1.fullSlots)
      ({ b.setSlotKey pre.length (b.compressKey k) with
          prohibitNextDelta := true }.overwriteSlot pre.length lsn data).2.2 := by
  have hset : ({ b.setSlotKey pre.length (b.compressKey k) with
      prohibitNextDelta := true } : BinStub).fullSlots = pre ++ { s with key := k } :: post := by
    have hset := fullSlots_setSlotKey hb pre.length (b.compressKey k)
    rwa [decompressKey_compressKey hp, heq, modify_length_append] at hset
  rw [fullSlots_overwriteSlot, hset, modify_length_append, heq]
  simp only [overwriteSlot, isDeleted_fullSlots hset]
  exact .hit hs

/-- A search miss followed by an insertion. -/
theorem insertSlot_upserts [TransCmp cmp] (hx : b.KeysExact) {i : ℕ} (lsn : Lsn)
    (data : Option (List UInt8))
    (hb : SortedBy cmp BinSlot.key b.fullSlots) (hp : b.keyPrefix <+: k)
    (h : binarySearchBy (fun s : BinSlot => cmp s.key k) b.fullSlots = .error i) :
    Upserts cmp k lsn data b.fullSlots
      (b.insertSlot i (b.compressKey k) lsn data).fullSlots true := by
  obtain ⟨pre, post, heq, rfl, hpre, hpost⟩ :=
    binarySearchBy_error (monotoneAlong_of_sortedBy hb) h
  rw [fullSlots_insertSlot hx, heq, insertIdx_length_append, decompressKey_compressKey hp]
  exact .miss hpre hpost

/-- What one insertion into a leaf establishes. -/
structure Inserted (c : Option KeyComparator) (k : Key) (lsn : Lsn)
    (data : Option (List UInt8)) (b b' : BinStub) (isNew : Bool) : Prop where
  upserts : Upserts (keyCmp c) k lsn data b.fullSlots b'.fullSlots isNew
  wf : b'.WF c
  frame : SameFrame b b'

theorem getFullKey_eq (b : BinStub) (i : ℕ) :
    b.getFullKey i = b.fullSlots[i]?.map BinSlot.key := by
  simp [getFullKey, fullSlots, Function.comp_def, BinSlot.withPrefix,
    decompressKey]

/-- Byte-order insertion with prefixes is comparator insertion by bytes. -/
theorem insertWithPrefix_eq_insertCmp (b : BinStub) (k : Key) (lsn : Lsn)
    (data : Option (List UInt8)) :
    b.insertWithPrefix k lsn data = b.insertCmp k lsn data compare := by
  unfold insertWithPrefix insertCmp
  dsimp only
  have hpre := shrinkPrefixFor_isPrefix b k
  generalize b.shrinkPrefixFor k = b₁ at *
  rw [keyBinarySearch_eq hpre, keyBinarySearchBy_eq]
  cases hr : binarySearchBy (fun s : BinSlot => compare s.key k) b₁.fullSlots with
  | error i => rfl
  | ok i =>
    obtain ⟨pre, s, post, heq, rfl, hs⟩ := binarySearchBy_ok hr
    have hkey : b₁.getFullKey pre.length = some k := by
      simp [getFullKey_eq, heq, LawfulEqCmp.eq_of_compare hs]
    exact (if_pos hkey).symm

/-- Insertion of whole keys, in a leaf without a prefix. -/
theorem insertRaw_inserted (hb : b.WF none) (hnil : b.keyPrefix = []) (k : Key) (lsn : Lsn)
    (data : Option (List UInt8)) :
    Inserted none k lsn data b (b.insertRaw k lsn data).1 (b.insertRaw k lsn data).2.2 := by
  have hcomp : b.compressKey k = k := by simp [compressKey, hnil]
  have hpre : b.keyPrefix <+: k := by simp [hnil]
  have hsearch := keyBinarySearch_eq hpre
  rw [hcomp] at hsearch
  unfold insertRaw
  rw [hsearch]
  split
  · rename_i i hi
    obtain ⟨pre, s, post, heq, rfl, hs⟩ := binarySearchBy_ok hi
    have hup := overwriteSlot_upserts (keyCmp none) lsn data heq
      (LawfulEqCmp.eq_of_compare hs)
    exact ⟨hup, ⟨hup.sortedBy hb.sorted, hb.plain, ⟨hb.exact.stored, hb.exact.limit⟩⟩, rfl⟩
  · rename_i i hi
    have hup := insertSlot_upserts hb.exact lsn data hb.sorted hpre hi
    rw [hcomp] at hup
    exact ⟨hup, ⟨hup.sortedBy hb.sorted, hb.plain, (hb.exact.insertSlot i k lsn data).1⟩, rfl⟩

/-- Comparator insertion, by the comparison of the tree. -/
theorem insertCmp_inserted (hb : b.WF c) (k : Key) (lsn : Lsn) (data : Option (List UInt8)) :
    Inserted c k lsn data b (b.insertCmp k lsn data (keyCmp c)).1
      (b.insertCmp k lsn data (keyCmp c)).2.2 := by
  have hb₁ := hb.shrinkPrefixFor k
  have hfull := (hb.exact.shrinkPrefixFor k).2
  have hfr := sameFrame_shrinkPrefixFor b k
  have hpre := shrinkPrefixFor_isPrefix b k
  unfold insertCmp
  dsimp only
  generalize b.shrinkPrefixFor k = b₁ at *
  rw [keyBinarySearchBy_eq]
  split
  · rename_i i hi
    obtain ⟨pre, s, post, heq, rfl, hs⟩ := binarySearchBy_ok hi
    have hkey : b₁.getFullKey pre.length = some s.key := by simp [getFullKey_eq, heq]
    rw [hkey]
    split
    · rename_i hbytes
      have hup := overwriteSlot_upserts (keyCmp c) lsn data heq (Option.some.inj hbytes)
      exact ⟨hfull ▸ hup, ⟨hup.sortedBy hb₁.sorted, hb₁.plain,
        ⟨hb₁.exact.stored, hb₁.exact.limit⟩⟩, hfr.trans rfl⟩
    · have hup := setSlotKey_upserts hb₁.exact lsn data hpre heq hs
      have hexact := (hb₁.exact.setSlotKey pre.length (b₁.compressKey k)).1
      exact ⟨hfull ▸ hup, ⟨hup.sortedBy hb₁.sorted, hb₁.plain,
        ⟨hexact.stored, hexact.limit⟩⟩, hfr.trans rfl⟩
  · rename_i i hi
    have hup := insertSlot_upserts hb₁.exact lsn data hb₁.sorted hpre hi
    have hfr₁ : SameFrame b₁ (b₁.insertSlot i (b₁.compressKey k) lsn data) := rfl
    have hfr₂ := sameFrame_learnPrefix (b₁.insertSlot i (b₁.compressKey k) lsn data)
    obtain ⟨hexact, hlearn⟩ :=
      (hb₁.exact.insertSlot i (b₁.compressKey k) lsn data).1.learnPrefix
    refine ⟨?_, ⟨?_, learnPrefix_plain hb₁.plain, hexact⟩, (hfr.trans hfr₁).trans hfr₂⟩
    · rw [hlearn, ← hfull]
      exact hup
    · rw [hlearn]
      exact hup.sortedBy hb₁.sorted

/-- **Insertion into a leaf** overwrites the slot of its key or adds a fresh slot in its
place, keeps the invariant and touches no other field of the node. -/
theorem insertEntry_inserted (hb : b.WF c) (k : Key) (lsn : Lsn)
    (data : Option (List UInt8)) :
    Inserted c k lsn data b (b.insertEntry c b.keyPrefixing k lsn data).1
      (b.insertEntry c b.keyPrefixing k lsn data).2 := by
  have key : ∀ r : BinStub × ℕ × Bool, Inserted c k lsn data b r.1 r.2.2 →
      Inserted c k lsn data b { r.1 with dirty := true } r.2.2 :=
    fun r h => ⟨h.upserts, ⟨h.wf.sorted, h.wf.plain, ⟨h.wf.exact.stored, h.wf.exact.limit⟩⟩,
      h.frame.trans rfl⟩
  unfold insertEntry
  cases c with
  | some cc => exact key _ (insertCmp_inserted hb k lsn data)
  | none =>
    cases hkp : b.keyPrefixing with
    | true =>
      rw [insertWithPrefix_eq_insertCmp]
      exact key _ (insertCmp_inserted hb k lsn data)
    | false => exact key _ (insertRaw_inserted hb (hb.plain hkp) k lsn data)

end BinStub

end Noxu
