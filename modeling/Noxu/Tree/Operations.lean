import Noxu.Tree.Insertion

/-!
# Tree Operations as Edits of One Key

Every operation of the tree edits the slot of its own key and no other (`EditsKey`), and
keeps the tree well formed (`TreeWF`). The leaf steps are stated once as functions on the
slot of the key; the tree operations follow by focusing on the leaf.

## Main results

* `Tree.updateBin_spec`: a leaf step that edits one key is a tree step that does;
* `Tree.insert_spec`, `Tree.redoInsert_spec`: **insertion returns** and overwrites or adds
  the slot of its key, up to drained deleted slots for `insert` and exactly for
  `redoInsert`;
* `Tree.delete_spec`, `Tree.markDeleted_spec`, `Tree.redoAdvanceDeletedSlotLsn_spec`,
  `Tree.updateKeyExpiration_spec`: the other edits;
* `Tree.slotLsnAny_eq`: what the slot reader returns.
-/

open Std Noxu.Library

namespace Noxu

variable {c : Option KeyComparator} {kp : Bool} {lo hi : Option Key} {k : Key} {t : Tree}
variable {b : BinStub} {max : ℕ}

/-! ### Well-formed trees -/

/-- The slots of a tree, in leaf order. -/
def Tree.slots (t : Tree) : List BinSlot :=
  match t.root with
  | none => []
  | some r => r.2.allSlots r.1

/-- The slot of a key. -/
def Tree.slotOf (t : Tree) (k : Key) : Option BinSlot :=
  lookup (keyCmp t.config.keyComparator) BinSlot.key k t.slots

/-- The invariant of a tree: the root is an upper node, well formed over all keys, only the root
may exceed the limit, by one slot, and the tree packs no key that it would cut. -/
structure TreeWF (t : Tree) : Prop where
  node : ∀ r, t.root = some r →
    NodeWF t.config.keyComparator t.config.keyPrefixing r.1 none none r.2
  sized : ∀ r, t.root = some r → ChildrenSized t.config.maxEntriesPerNode r.1 r.2
  root_le : ∀ r, t.root = some r → r.2.nEntries r.1 ≤ t.config.maxEntriesPerNode + 1
  height : ∀ r, t.root = some r → 1 ≤ r.1
  packs : t.config.compactMaxKeyLength < 65536

theorem inRange_none : InRange (keyCmp c) none none k := ⟨by simp, by simp⟩

/-- A tree without a root is well formed. -/
theorem treeWF_of_root_none {t : Tree} (h : t.root = none)
    (hpacks : t.config.compactMaxKeyLength < 65536) : TreeWF t :=
  ⟨by simp [h], by simp [h], by simp [h], by simp [h], hpacks⟩

/-- The parameters with which a tree keeps its records: a full node can be split, and a key that
is packed is read back whole. -/
structure TreeConfig.Sound (config : TreeConfig) : Prop where
  /-- A node has room for two slots. -/
  room : 2 ≤ config.maxEntriesPerNode
  /-- The length of a packed key fits 16 bits. -/
  packs : config.compactMaxKeyLength < 65536

theorem TreeConfig.Sound.treeWF_new {config : TreeConfig} (h : config.Sound) :
    TreeWF (Tree.new config) := treeWF_of_root_none rfl h.packs

/-- The slots of a well-formed tree are sorted: no key has two of them. -/
theorem TreeWF.sorted (ht : TreeWF t) :
    SortedBy (keyCmp t.config.keyComparator) BinSlot.key t.slots := by
  unfold Tree.slots
  split
  · exact List.Pairwise.nil
  · rename_i r hr
    exact (ht.node r hr).contents.1

/-! ### Leaf steps -/

theorem BinStub.getElem?_fullSlots (b : BinStub) (i : ℕ) :
    b.fullSlots[i]? = b.slots[i]?.map (BinSlot.withPrefix b.keyPrefix) := by
  simp [BinStub.fullSlots]

variable {g : Option BinSlot → Option BinSlot}

/-- Changing the slot at an index by a function that does not look at the key. -/
theorem LeafWF.modify (b' : BinStub) {F : BinSlot → BinSlot} {pre post : List BinSlot}
    {s : BinSlot} (hb : LeafWF c kp lo hi b) (hcut : b.fullSlots = pre ++ s :: post)
    (hk : keyCmp c s.key k = .eq) (hF : ∀ p s, (F s).withPrefix p = F (s.withPrefix p))
    (hkey : ∀ s, (F s).key = s.key) (hs : b'.slots = b.slots.modify pre.length F)
    (hp : b'.keyPrefix = b.keyPrefix) (hkp : b'.keyPrefixing = b.keyPrefixing)
    (hx : b'.KeysExact) (hg : g (some s) = some (F s)) :
    LeafWF c kp lo hi b' ∧
      EditsKey (keyCmp c) BinSlot.key k g b.fullSlots b'.fullSlots := by
  have hfull : b'.fullSlots = pre ++ F s :: post := by
    rw [BinStub.fullSlots, hs, hp, map_modify (hF b.keyPrefix), ← BinStub.fullSlots, hcut,
      modify_length_append]
  have hsorted := hb.wf.sorted
  have hrange := hb.inRange
  rw [hcut] at hsorted hrange
  refine ⟨.of_fullSlots hfull ?_ ?_ (hkp.trans hb.keyPrefixing)
    (fun h => hp.trans (hb.wf.plain (hkp ▸ h))) hx, ?_⟩
  · exact (sortedBy_congr (by simp [hkey])).mp hsorted
  · intro x hx
    rcases List.mem_append.mp hx with hx | hx
    · exact hrange x (List.mem_append_left _ hx)
    · rcases List.mem_cons.mp hx with rfl | hx
      · exact (hkey s).symm ▸ hrange s (by simp)
      · exact hrange x (by simp [hx])
  · rw [hfull, hcut]
    exact editsKey_replace hsorted hk ((hkey s).symm ▸ hk) hg

/-- What a leaf step does to the slot of its key and what it reports. -/
def LeafEdits (c : Option KeyComparator) (kp : Bool) (k : Key) {β : Type}
    (f : BinStub → BinStub × β) (g : Option BinSlot → Option BinSlot)
    (φ : Option BinSlot → β) : Prop :=
  ∀ {lo hi : Option Key} {b : BinStub}, LeafWF c kp lo hi b → InRange (keyCmp c) lo hi k →
    LeafWF c kp lo hi (f b).1 ∧
      EditsKey (keyCmp c) BinSlot.key k g b.fullSlots (f b).1.fullSlots ∧
        (f b).2 = φ (lookup (keyCmp c) BinSlot.key k b.fullSlots)

/-- The two outcomes of a search in a leaf: the slot of the key with its index, or none. -/
theorem LeafWF.findEntry_cases (hb : LeafWF c kp lo hi b) (k : Key) :
    (∃ pre s post s₀, b.fullSlots = pre ++ s :: post ∧ keyCmp c s.key k = .eq ∧
      b.findEntry c k = (pre.length, true) ∧ b.slots[pre.length]? = some s₀ ∧
        s = s₀.withPrefix b.keyPrefix ∧
          lookup (keyCmp c) BinSlot.key k b.fullSlots = some s) ∨
      ((b.findEntry c k).2 = false ∧ lookup (keyCmp c) BinSlot.key k b.fullSlots = none) := by
  have hloc := BinStub.findEntry_located hb.wf k
  have hsorted := hb.wf.sorted
  generalize hl : b.fullSlots = l at hloc hsorted ⊢
  generalize hr : b.findEntry c k = r at hloc ⊢
  obtain ⟨i, found⟩ := r
  cases hloc with
  | @hit pre post s hk =>
    have hget := BinStub.getElem?_fullSlots b pre.length
    rw [hl, getElem?_length_append] at hget
    obtain ⟨s₀, hs₀, hs⟩ := Option.map_eq_some_iff.mp hget.symm
    exact .inl ⟨pre, s, post, s₀, rfl, hk, rfl, hs₀, hs.symm,
      lookup_of_mem hsorted (by simp) hk⟩
  | miss hpre hpost =>
    refine .inr ⟨rfl, lookup_eq_none fun s hs => ?_⟩
    rcases List.mem_append.mp hs with hs | hs
    · simp [hpre s hs]
    · simp [hpost s hs]

/-- A leaf step that found nothing to do. -/
theorem editsKey_same {o : Option BinSlot}
    (hl : lookup (keyCmp c) BinSlot.key k b.fullSlots = o) (hg : g o = o) :
    EditsKey (keyCmp c) BinSlot.key k g b.fullSlots b.fullSlots :=
  .refl (by rw [hl, hg])

/-- The slot of a key was live. -/
def wasLive (o : Option BinSlot) : Bool := (o.map fun s => !s.isDeleted).getD false

/-- The slot of a key under a deletion mark; a deleted slot is not marked again. -/
def markSlot (delLsn : Lsn) (pending : Bool) (o : Option BinSlot) : Option BinSlot :=
  o.map fun s => if s.isDeleted then s else s.markDeleted delLsn pending

theorem leafEdits_markDeleted (delLsn : Lsn) (pending : Bool) :
    LeafEdits c kp k (BinStub.markDeleted c k delLsn pending) (markSlot delLsn pending)
      wasLive := by
  intro lo hi b hb _
  rcases hb.findEntry_cases k with ⟨pre, s, post, s₀, hcut, hk, hfind, hget, hs, hl⟩ | ⟨hfind, hl⟩
  · have hdel : s₀.isDeleted = s.isDeleted := by rw [hs]; rfl
    simp only [BinStub.markDeleted, hfind, hget, hl, Option.map_some, Option.getD_some, hdel,
      Bool.not_true, Bool.false_or, wasLive]
    cases hd : s.isDeleted with
    | true => exact ⟨hb, editsKey_same hl (by simp [markSlot, hd]), rfl⟩
    | false =>
      obtain ⟨hwf, hed⟩ := LeafWF.modify
        { b with slots := b.slots.modify pre.length (BinSlot.markDeleted delLsn pending),
                 dirty := true }
        (F := BinSlot.markDeleted delLsn pending) (g := markSlot delLsn pending) hb hcut hk
        (fun _ _ => rfl) (fun _ => rfl) rfl rfl rfl ⟨hb.wf.exact.stored, hb.wf.exact.limit⟩
        (by simp [markSlot, hd])
      exact ⟨hwf, hed, rfl⟩
  · simp only [BinStub.markDeleted, hfind, Bool.not_false, Bool.true_or, if_true, hl]
    exact ⟨hb, editsKey_same hl rfl, rfl⟩

/-- A deleted slot is behind a deletion. -/
def BinSlot.behind (delLsn : Lsn) (s : BinSlot) : Bool :=
  s.isDeleted && (s.lsn == nullLsn || decide (s.lsn < delLsn))

/-- The slot of a key was behind a deletion. -/
def wasBehind (delLsn : Lsn) (o : Option BinSlot) : Bool :=
  (o.map (BinSlot.behind delLsn)).getD false

/-- The slot of a key after the redo of a deletion over a deleted slot. -/
def advanceSlot (delLsn : Lsn) (o : Option BinSlot) : Option BinSlot :=
  o.map fun s => if s.behind delLsn then { s with lsn := delLsn, dirty := true } else s

theorem leafEdits_redoAdvance (delLsn : Lsn) :
    LeafEdits c kp k (BinStub.redoAdvanceDeletedSlotLsn c k delLsn) (advanceSlot delLsn)
      (wasBehind delLsn) := by
  intro lo hi b hb _
  rcases hb.findEntry_cases k with ⟨pre, s, post, s₀, hcut, hk, hfind, hget, hs, hl⟩ | ⟨hfind, hl⟩
  · have hbeh : s₀.behind delLsn = s.behind delLsn := by rw [hs]; rfl
    have hcond : (!s₀.isDeleted || (s₀.lsn != nullLsn && decide (delLsn ≤ s₀.lsn))) =
        !s.behind delLsn := by
      rw [← hbeh, BinSlot.behind]
      have hord : decide (delLsn ≤ s₀.lsn) = !decide (s₀.lsn < delLsn) := by
        rw [← decide_not]
        exact decide_eq_decide.mpr Fin.not_lt.symm
      rw [hord]
      cases s₀.isDeleted <;> cases hn : s₀.lsn == nullLsn <;>
        simp_all [bne]
    simp only [BinStub.redoAdvanceDeletedSlotLsn, hfind, hget, hcond, hl, wasBehind,
      Option.map_some, Option.getD_some]
    cases hd : s.behind delLsn with
    | false => exact ⟨hb, editsKey_same hl (by simp [advanceSlot, hd]), rfl⟩
    | true =>
      obtain ⟨hwf, hed⟩ := LeafWF.modify
        { b with
          slots := b.slots.modify pre.length fun s => { s with lsn := delLsn, dirty := true }
          dirty := true }
        (F := fun s => { s with lsn := delLsn, dirty := true }) (g := advanceSlot delLsn) hb
        hcut hk (fun _ _ => rfl) (fun _ => rfl) rfl rfl rfl
        ⟨hb.wf.exact.stored, hb.wf.exact.limit⟩ (by simp [advanceSlot, hd])
      exact ⟨hwf, hed, rfl⟩
  · generalize hr : b.findEntry c k = r at hfind
    obtain ⟨i, found⟩ := r
    obtain rfl : found = false := hfind
    simp only [BinStub.redoAdvanceDeletedSlotLsn, hr, hl]
    exact ⟨hb, editsKey_same hl rfl, rfl⟩

/-- The slot of a key under a new expiration. -/
def expireSlot (expiration : ℕ) (o : Option BinSlot) : Option BinSlot :=
  o.map fun s => { s with expirationTime := expiration }

theorem leafEdits_updateKeyExpiration (expiration : ℕ) :
    LeafEdits c kp k (BinStub.updateKeyExpiration c k expiration) (expireSlot expiration)
      Option.isSome := by
  intro lo hi b hb _
  rcases hb.findEntry_cases k with ⟨pre, s, post, s₀, hcut, hk, hfind, -, -, hl⟩ | ⟨hfind, hl⟩
  · simp only [BinStub.updateKeyExpiration, hfind, if_true, hl]
    obtain ⟨hwf, hed⟩ := LeafWF.modify
      { b with
        slots := b.slots.modify pre.length fun s => { s with expirationTime := expiration }
        expirationInHours := true
        dirty := true }
      (F := fun s => { s with expirationTime := expiration }) (g := expireSlot expiration) hb
      hcut hk (fun _ _ => rfl) (fun _ => rfl) rfl rfl rfl
      ⟨hb.wf.exact.stored, hb.wf.exact.limit⟩ rfl
    exact ⟨hwf, hed, rfl⟩
  · simp only [BinStub.updateKeyExpiration, hfind, Bool.false_eq_true, if_false, hl]
    exact ⟨hb, editsKey_same hl rfl, rfl⟩

/-- The removal of a key finds its slot as the search does. -/
theorem BinStub.deleteEntry_eq (c : Option KeyComparator) (k : Key) (b : BinStub) :
    b.deleteEntry c k =
      if (b.findEntry c k).2 then
        (b.removeSlot (b.findEntry c k).1,
          (b.slots[(b.findEntry c k).1]?.map fun s => !s.isDeleted).getD false)
      else (b, false) := by
  cases c with
  | some c =>
    simp only [deleteEntry, findEntry, findEntryCmp]
    split <;> rename_i heq <;> simp [heq, searchResult]
  | none =>
    have hpfx : (b.keyPrefix ≠ [] ∧ ¬ b.keyPrefix <+: k) ↔
        (0 < b.keyPrefix.length ∧
          (k.length < b.keyPrefix.length ∨ k.take b.keyPrefix.length ≠ b.keyPrefix)) := by
      rw [List.length_pos_iff]
      refine and_congr_right fun _ => ?_
      constructor
      · intro h
        refine .inr fun htake => h ⟨k.drop b.keyPrefix.length, ?_⟩
        have happ := List.take_append_drop b.keyPrefix.length k
        rwa [htake] at happ
      · rintro h ⟨u, rfl⟩
        simp only [List.length_append, List.take_left, ne_eq, not_true_eq_false,
          or_false] at h
        omega
    simp only [deleteEntry, findEntry, findEntryCompressed, hpfx]
    split
    · rfl
    · have hck : b.compressKey k = k.drop b.keyPrefix.length := rfl
      rw [hck]
      split <;> rename_i heq <;> simp [heq, searchResult]

/-- Removing a key erases its slot. -/
theorem leafEdits_deleteEntry :
    LeafEdits c kp k (BinStub.deleteEntry c k) (fun _ => none) wasLive := by
  intro lo hi b hb _
  rw [BinStub.deleteEntry_eq]
  rcases hb.findEntry_cases k with ⟨pre, s, post, s₀, hcut, hk, hfind, hget, hs, hl⟩ | ⟨hfind, hl⟩
  · have hdel : s₀.isDeleted = s.isDeleted := by rw [hs]; rfl
    have hfull : (b.removeSlot pre.length).fullSlots = pre ++ post := by
      have herase : (b.removeSlot pre.length).fullSlots = b.fullSlots.eraseIdx pre.length :=
        (List.eraseIdx_map ..).symm
      rw [herase, hcut, eraseIdx_length_append]
    have hsub : (pre ++ post).Sublist b.fullSlots := by
      rw [hcut]
      exact (List.Sublist.refl pre).append (List.sublist_cons_self s post)
    simp only [hfind, if_true, hget, Option.map_some, Option.getD_some, hdel, hl, wasLive]
    refine ⟨.of_fullSlots hfull (hb.wf.sorted.sublist hsub)
      (fun x hx => hb.inRange x (hsub.subset hx)) hb.keyPrefixing hb.wf.plain
      ⟨hb.wf.exact.stored, hb.wf.exact.limit⟩, ?_, trivial⟩
    have hsorted := hb.wf.sorted
    rw [hcut] at hsorted
    rw [hfull, hcut]
    exact editsKey_erase hsorted hk rfl
  · simp only [hfind, Bool.false_eq_true, if_false, hl]
    exact ⟨hb, editsKey_same hl rfl, rfl⟩

/-- The slot of a key after an insertion: overwritten, under the bytes of the inserted key, or
fresh. -/
def upsertSlot (k : Key) (lsn : Lsn) (data : Option (List UInt8)) (o : Option BinSlot) :
    Option BinSlot :=
  some (o.elim (BinSlot.fresh k lsn data) fun s => BinSlot.overwrite lsn data { s with key := k })

/-- The key of an insertion was not live. -/
def wasAbsent (o : Option BinSlot) : Bool := (o.map BinSlot.isDeleted).getD true

theorem Upserts.editsKey {lsn : Lsn} {data : Option (List UInt8)} {l l' : List BinSlot}
    {isNew : Bool} (h : Upserts (keyCmp c) k lsn data l l' isNew)
    (hl : SortedBy (keyCmp c) BinSlot.key l) :
    EditsKey (keyCmp c) BinSlot.key k (upsertSlot k lsn data) l l' ∧
      isNew = wasAbsent (lookup (keyCmp c) BinSlot.key k l) := by
  cases h with
  | @hit pre post s hk =>
    refine ⟨editsKey_replace hl hk ReflCmp.compare_self rfl, ?_⟩
    rw [lookup_of_mem hl (by simp) hk]
    rfl
  | miss hpre hpost =>
    refine ⟨editsKey_insert hpre hpost ReflCmp.compare_self rfl, ?_⟩
    rw [lookup_eq_none fun x hx => ?_]
    · rfl
    · rcases List.mem_append.mp hx with hx | hx
      · simp [hpre x hx]
      · simp [hpost x hx]

theorem leafEdits_insertEntry (lsn : Lsn) (data : Option (List UInt8)) :
    LeafEdits c kp k (fun b => b.insertEntry c kp k lsn data) (upsertSlot k lsn data)
      wasAbsent := by
  intro lo hi b hb hk
  obtain rfl := hb.keyPrefixing
  have hins := BinStub.insertEntry_inserted hb.wf k lsn data
  obtain ⟨hed, hnew⟩ := hins.upserts.editsKey hb.wf.sorted
  refine ⟨⟨hins.wf, hins.frame.keyPrefixing_eq, fun s hs => ?_⟩, hed, hnew⟩
  rcases hins.upserts.key_mem s hs with h | h
  · exact h ▸ hk
  · exact hb.inRange s h

/-- The slot of a key after the redo of a record: one at an equal or newer LSN stays. -/
def redoSlot (k : Key) (lsn : Lsn) (data : Option (List UInt8)) (o : Option BinSlot) :
    Option BinSlot :=
  if o.any fun s => decide (lsn ≤ s.lsn) then o else upsertSlot k lsn data o

/-- The redo of a record found a slot to leave alone, or reports as an insertion. -/
def redoReport (lsn : Lsn) (o : Option BinSlot) : Bool :=
  !(o.any fun s => decide (lsn ≤ s.lsn)) && wasAbsent o

/-- The redo finds the slot of its key as the search does. -/
theorem BinStub.redoSlotLsn_eq (hb : LeafWF c kp lo hi b) (k : Key) :
    b.redoSlotLsn c kp k =
      if (b.findEntry c k).2 then b.slots[(b.findEntry c k).1]?.map BinSlot.lsn else none := by
  cases c with
  | some c => rfl
  | none =>
    cases hkp : kp with
    | true => rfl
    | false =>
      have hnil := hb.wf.plain (hb.keyPrefixing.trans hkp)
      simp [redoSlotLsn, findEntry, findEntryCompressed, hnil]

/-- Redoing a record edits the slot of the key unless it is current. -/
theorem leafEdits_redoEntry (lsn : Lsn) (data : Option (List UInt8)) :
    LeafEdits c kp k (BinStub.redoEntry c kp k lsn data) (redoSlot k lsn data)
      (redoReport lsn) := by
  intro lo hi b hb hk
  obtain ⟨hwf, hed, hrep⟩ := leafEdits_insertEntry (k := k) lsn data hb hk
  have happly : ∀ o, lookup (keyCmp c) BinSlot.key k b.fullSlots = o →
      (o.any fun s => decide (lsn ≤ s.lsn)) = false →
        EditsKey (keyCmp c) BinSlot.key k (redoSlot k lsn data) b.fullSlots
            (b.insertEntry c kp k lsn data).1.fullSlots ∧
          (b.insertEntry c kp k lsn data).2 = redoReport lsn o := by
    rintro o rfl hany
    refine ⟨⟨?_, hed.elsewhere⟩, ?_⟩
    · rw [hed.here, redoSlot, hany]
      rfl
    · rw [hrep, redoReport, hany]
      rfl
  unfold BinStub.redoEntry
  rw [BinStub.redoSlotLsn_eq hb k]
  rcases hb.findEntry_cases k with ⟨pre, s, post, s₀, -, -, hfind, hget, hs, hl⟩ | ⟨hfind, hl⟩
  · have hlsn : s₀.lsn = s.lsn := by rw [hs]; rfl
    simp only [hfind, if_true, hget, Option.map_some, hlsn]
    split
    · rename_i hle
      exact ⟨hb, editsKey_same hl (by simp [redoSlot, hle]), by rw [hl]; simp [redoReport, hle]⟩
    · rename_i hgt
      obtain ⟨hed', hrep'⟩ := happly (some s) hl (by simpa using hgt)
      exact ⟨hwf, hed', hl ▸ hrep'⟩
  · simp only [hfind, Bool.false_eq_true, if_false]
    obtain ⟨hed', hrep'⟩ := happly none hl rfl
    exact ⟨hwf, hed', hl ▸ hrep'⟩

/-! ### Tree steps -/

/-- A leaf step that does not grow the leaf keeps the sizes. -/
theorem ChildrenSized.updateBin {β : Type} (floor : List Key → Key → ℕ) (dflt : β) (k : Key)
    {f : BinStub → BinStub × β} (hf : ∀ b, (f b).1.slots.length ≤ b.slots.length) :
    ∀ {h : ℕ} {n : TreeNode h}, ChildrenSized max h n →
      ChildrenSized max h (updateBin floor dflt f k h n).1 ∧
        (Noxu.updateBin floor dflt f k h n).1.nEntries h ≤ n.nEntries h
  | 0, n, _ => ⟨trivial, hf n⟩
  | h + 1, n, hn => by
    simp only [Noxu.updateBin]
    generalize floor ((InNodeStub.entries n).map InEntry.key) k = idx
    split
    · exact ⟨hn, Nat.le_refl _⟩
    · rename_i e he
      obtain ⟨hle, hch⟩ := hn e (List.mem_of_getElem? he)
      obtain ⟨hch', hle'⟩ := ChildrenSized.updateBin floor dflt k hf hch
      obtain ⟨pre, post, hcut, rfl⟩ := exists_cut_of_getElem? he
      have hset := setChild_append hcut (Noxu.updateBin floor dflt f k h e.child).1
      simp only [ChildrenSized, hcut] at hn
      have hrep := ChildrenSized.replace
        [{ e with child := (Noxu.updateBin floor dflt f k h e.child).1 }] hn (by
          intro x hx
          obtain rfl := List.mem_singleton.mp hx
          exact ⟨hle'.trans hle, hch'⟩)
      refine ⟨?_, ?_⟩
      · simp only [ChildrenSized, hset]
        simpa using hrep
      · show (InNodeStub.setChild n pre.length _).entries.length ≤ (InNodeStub.entries n).length
        simp [hset, hcut]

/-- What an operation on one key establishes. -/
structure TreeEdits (t t' : Tree) (k : Key) (g : Option BinSlot → Option BinSlot) : Prop where
  wf : TreeWF t'
  config : t'.config = t.config
  edits : EditsKey (keyCmp t.config.keyComparator) BinSlot.key k g t.slots t'.slots

/-- Keys that compare equal have the same slot. -/
theorem Tree.slotOf_congr {k' : Key} (hk : keyCmp t.config.keyComparator k k' = .eq) :
    t.slotOf k = t.slotOf k' := lookup_congr hk

/-- The slots after an edit: that of its key and of the keys that compare equal, and the others. -/
theorem TreeEdits.slotOf_cmp {t' : Tree} (h : TreeEdits t t' k g) (k' : Key) :
    t'.slotOf k' =
      if keyCmp t.config.keyComparator k k' = .eq then g (t.slotOf k) else t.slotOf k' := by
  split
  · rename_i hk
    rw [← Tree.slotOf_congr (h.config ▸ hk), Tree.slotOf, h.config]
    exact h.edits.here
  · rename_i hk
    rw [Tree.slotOf, h.config]
    exact h.edits.elsewhere k' hk

theorem TreeEdits.slotOf [LawfulEqCmp (keyCmp t.config.keyComparator)] {t' : Tree}
    (h : TreeEdits t t' k g) (k' : Key) :
    t'.slotOf k' = if k' = k then g (t.slotOf k) else t.slotOf k' := by
  rw [h.slotOf_cmp k']
  exact if_congr (LawfulEqCmp.compare_eq_iff_eq.trans eq_comm) rfl rfl

/-- **A leaf step on one key is a tree step on that key.** -/
theorem Tree.updateBin_spec {β : Type} {floor : List Key → Key → ℕ} {dflt : β}
    {f : BinStub → BinStub × β}
    {φ : Option BinSlot → β} (ht : TreeWF t) (hfl : IsFloor t.config.keyComparator floor)
    (hf : LeafEdits t.config.keyComparator t.config.keyPrefixing k f g φ)
    (hlen : ∀ b, (f b).1.slots.length ≤ b.slots.length) (hg : g none = none) (hφ : φ none = dflt) :
    TreeEdits t (t.updateBin floor dflt f k).1 k g ∧
      (t.updateBin floor dflt f k).2 = φ (t.slotOf k) := by
  unfold Tree.updateBin
  cases hr : t.root with
  | none =>
    have hslots : t.slots = [] := by simp [Tree.slots, hr]
    refine ⟨⟨ht, rfl, ?_⟩, ?_⟩
    · rw [hslots]
      exact .refl (by simp [hg])
    · simp [Tree.slotOf, hslots, hφ]
  | some r =>
    obtain ⟨b, left, right, a, z, hfocus⟩ := (ht.node r hr).focus (k := k) inRange_none
    obtain ⟨hwf, hed, hrep⟩ := hf hfocus.leaf hfocus.inRange
    obtain ⟨hn, hsl, hres⟩ := hfocus.edit dflt f floor hfl hwf
    obtain ⟨hsz, hle⟩ := ChildrenSized.updateBin floor dflt k hlen (ht.sized r hr)
    have hslots : t.slots = left ++ b.fullSlots ++ right := by
      simp only [Tree.slots, hr]
      exact hfocus.slots
    have hl : ∀ s ∈ left, keyCmp t.config.keyComparator s.key k ≠ .eq :=
      fun s hs => by simp [hfocus.left_lt s hs]
    have hr' : ∀ s ∈ right, keyCmp t.config.keyComparator s.key k ≠ .eq :=
      fun s hs => by simp [hfocus.right_gt s hs]
    have hinj : ∀ r', (some (⟨r.1, (Noxu.updateBin floor dflt f k r.1 r.2).1⟩ :
        Σ h, TreeNode h)) = some r' →
        r' = ⟨r.1, (Noxu.updateBin floor dflt f k r.1 r.2).1⟩ :=
      fun _ h => (Option.some.inj h).symm
    refine ⟨⟨⟨?_, ?_, ?_, ?_, ht.packs⟩, rfl, ?_⟩, ?_⟩
    · intro r' hr'
      rw [hinj r' hr']
      exact hn
    · intro r' hr'
      rw [hinj r' hr']
      exact hsz
    · intro r' hr'
      rw [hinj r' hr']
      exact hle.trans (ht.root_le r hr)
    · intro r' hr'
      rw [hinj r' hr']
      exact ht.height r hr
    · have hed' := hed.append hl hr'
      rw [hslots]
      show EditsKey _ _ k g _ ((Noxu.updateBin floor dflt f k r.1 r.2).1.allSlots r.1)
      rw [hsl]
      exact hed'
    · rw [Tree.slotOf, hslots, lookup_middle hl hr']
      exact hres.trans hrep

/-- **Reading descents** reach the leaf of the key, which holds the slot of the key if
the tree does. -/
theorem TreeWF.reads (ht : TreeWF t) {r : Σ h, TreeNode h} (hr : t.root = some r) (k : Key) :
    ∃ b lo hi, getParentBinForChildLn (keyCmp t.config.keyComparator) k r.1 r.2 = some b ∧
      LeafWF t.config.keyComparator t.config.keyPrefixing lo hi b ∧
      b.slots.length ≤ t.config.maxEntriesPerNode ∧
      lookup (keyCmp t.config.keyComparator) BinSlot.key k b.fullSlots = t.slotOf k := by
  obtain ⟨b, left, right, a, z, hfocus⟩ := (ht.node r hr).focus (k := k) inRange_none
  refine ⟨b, a, z, hfocus.reads, hfocus.leaf, ?_, ?_⟩
  · -- the root may exceed the limit, but it is no leaf
    have hsz := ht.sized r hr
    have hh := ht.height r hr
    have hreads := hfocus.reads
    obtain ⟨h, n⟩ := r
    cases h with
    | zero => simp at hh
    | succ h =>
      simp only [getParentBinForChildLn] at hreads
      split at hreads
      · simp at hreads
      · rename_i e he
        obtain ⟨hle, hch⟩ := hsz e (List.mem_of_getElem? he)
        exact hch.leaf_le hle hreads
  · have hslots : t.slots = left ++ b.fullSlots ++ right := by
      simp only [Tree.slots, hr]
      exact hfocus.slots
    rw [Tree.slotOf, hslots, lookup_middle]
    · exact fun s hs => by simp [hfocus.left_lt s hs]
    · exact fun s hs => by simp [hfocus.right_gt s hs]

/-! ### Insertion -/

/-- **Splitting the root** leaves a root within the limit over the same slots. -/
theorem splitRootIfNeeded_spec (ht : TreeWF t) {r : Σ h, TreeNode h} (hr : t.root = some r)
    (hmax : 2 ≤ t.config.maxEntriesPerNode) (lsn : Lsn) (gen : ℕ) :
    ∃ r' gen', splitRootIfNeeded t.config lsn r gen = some (r', gen') ∧
      NodeWF t.config.keyComparator t.config.keyPrefixing r'.1 none none r'.2 ∧
      ChildrenSized t.config.maxEntriesPerNode r'.1 r'.2 ∧
      r'.2.nEntries r'.1 ≤ t.config.maxEntriesPerNode ∧
      r'.2.allSlots r'.1 = r.2.allSlots r.1 ∧ 1 ≤ r'.1 ∧
      ∀ k, getParentBinForChildLn (keyCmp t.config.keyComparator) k r'.1 r'.2 =
        getParentBinForChildLn (keyCmp t.config.keyComparator) k r.1 r.2 := by
  unfold splitRootIfNeeded
  split
  · rename_i hlt
    exact ⟨r, gen, rfl, ht.node r hr, ht.sized r hr, hlt.le, rfl, ht.height r hr, fun _ => rfl⟩
  · rename_i hfull
    have hle := ht.root_le r hr
    -- the old root is the only child of the new one, and is split at once
    have hnew : NodeWF t.config.keyComparator t.config.keyPrefixing (r.1 + 1) none none
        (InNodeStub.mk gen [⟨[], lsn, r.2⟩] true nullLsn) := ht.node r hr
    have hent : (InNodeStub.mk gen [⟨[], lsn, r.2⟩] true nullLsn).entries =
        [] ++ (⟨[], lsn, r.2⟩ : InEntry (TreeNode r.1)) :: [] := rfl
    obtain ⟨left, right, idx, sep, a, z, hsplit, hidx, hlt, hs, hchain⟩ :=
      splitChild_spec (k := []) hnew hent inRange_none ⟨fun h => absurd rfl h, by simp⟩
        (ht.sized r hr) hmax (Nat.le_of_not_lt hfull) .normal (gen + 1)
    have hl := hs.left_nEntries
    have hr' := hs.right_nEntries
    dsimp only at hlt hr'
    refine ⟨⟨r.1 + 1, InNodeStub.mk gen [⟨[], lsn, left⟩, ⟨sep, nullLsn, right⟩] true
        nullLsn⟩, gen + 1 + 1,
      congrArg (Option.map fun x => ((⟨r.1 + 1, x.1⟩ : Σ h, TreeNode h), x.2)) hsplit,
      hchain, ?_, hmax, ?_, Nat.le_add_left 1 _, fun k => ?_⟩
    · intro x hx
      simp only [List.mem_cons, List.not_mem_nil, or_false] at hx
      rcases hx with rfl | rfl
      · exact ⟨by dsimp only; omega, hs.left_sized⟩
      · exact ⟨by dsimp only; omega, hs.right_sized⟩
    · show slotsBelow [(⟨[], lsn, left⟩ : InEntry (TreeNode r.1)), ⟨sep, nullLsn, right⟩] = _
      simp only [slotsBelow_cons, slotsBelow_nil, List.append_nil]
      exact hs.slots
    · rw [hs.reads (ht.height r hr) k]
      have hroot : FloorAt (keyCmp t.config.keyComparator) k [] ⟨[], lsn, r.2⟩ [] :=
        ⟨fun h => absurd rfl h, by simp⟩
      split
      · rename_i hle
        have hright : FloorAt (keyCmp t.config.keyComparator) k [⟨[], lsn, left⟩]
            ⟨sep, nullLsn, right⟩ [] := hroot.split_right _ hle
        have hafter : Chain (keyCmp t.config.keyComparator) InEntry.key
            (fun a b e => NodeWF t.config.keyComparator t.config.keyPrefixing r.1 a b e.child)
            none none ([⟨[], lsn, left⟩] ++ ⟨sep, nullLsn, right⟩ :: []) := hchain
        exact reads_routed rfl hafter hright
      · rename_i hgt
        have hleft : FloorAt (keyCmp t.config.keyComparator) k [] ⟨[], lsn, left⟩
            [⟨sep, nullLsn, right⟩] := hroot.split_left rfl (by simpa using hgt)
        exact reads_routed rfl hchain hleft

/-- The leaf the descent for a key ends in. -/
def Tree.leafOf (t : Tree) (k : Key) : Option BinStub :=
  t.root.bind fun r => getParentBinForChildLn (keyCmp t.config.keyComparator) k r.1 r.2

/-- The slots of a tree once the descent for a key has made room: the leaf of the key is
drained if it is full. -/
def Tree.RoomMade (t : Tree) (drain : (h : ℕ) → TreeNode h → TreeNode h × Bool) (k : Key)
    (l₀ l : List BinSlot) : Prop :=
  ∃ b left right, t.leafOf k = some b ∧ l₀ = left ++ b.fullSlots ++ right ∧
    l = left ++ roomOf t.config.maxEntriesPerNode drain 1 b ++ right

/-- What an insertion establishes, up to slots related by `R`. -/
structure TreeInserts (R : List BinSlot → List BinSlot → Prop) (t t' : Tree) (k : Key)
    (g : Option BinSlot → Option BinSlot) (φ : Option BinSlot → Bool) (flag : Bool)
    (l : List BinSlot) : Prop where
  wf : TreeWF t'
  config : t'.config = t.config
  before : R t.slots l
  edits : EditsKey (keyCmp t.config.keyComparator) BinSlot.key k g l t'.slots
  flag_eq : flag = φ (lookup (keyCmp t.config.keyComparator) BinSlot.key k l)

/-- **Insertion below a root returns** and edits the slot of its key. -/
theorem Tree.insertFromRoot_spec {drain : (h : ℕ) → TreeNode h → TreeNode h × Bool}
    {leaf : BinStub → BinStub × Bool} {φ : Option BinSlot → Bool} (ht : TreeWF t)
    {r : Σ h, TreeNode h} (hr : t.root = some r) (hmax : 2 ≤ t.config.maxEntriesPerNode)
    (hroom : MakesRoom t.config.keyComparator t.config.keyPrefixing drain)
    (hleaf : LeafEdits t.config.keyComparator t.config.keyPrefixing k leaf g φ)
    (hlen : LeafKeeps t.config.keyComparator t.config.keyPrefixing k leaf) (lsn : Lsn) :
    ∃ t' flag l, t.insertFromRoot r lsn (insertDescent t.config drain leaf k) =
      some (t', flag) ∧ TreeInserts (t.RoomMade drain k) t t' k g φ flag l := by
  obtain ⟨r', gen', hsplit, hwf, hsz, hle, hslots, hh, hreads⟩ :=
    splitRootIfNeeded_spec ht hr hmax lsn t.nextNodeId
  obtain ⟨res, l, hres, hmade, hins⟩ := insertDescent_spec hmax hroom hlen r'.1 _
    (Nat.le_refl _) true true gen' hwf hsz inRange_none
  obtain ⟨b, left, right, a, z, hstep⟩ := hins.step
  obtain ⟨-, hed, hrep⟩ := hleaf hstep.leafWF hstep.inRange
  have hl : ∀ s ∈ left, keyCmp t.config.keyComparator s.key k ≠ .eq :=
    fun s hs => by simp [hstep.left_lt s hs]
  have hr' : ∀ s ∈ right, keyCmp t.config.keyComparator s.key k ≠ .eq :=
    fun s hs => by simp [hstep.right_gt s hs]
  have hts : t.slots = r'.2.allSlots r'.1 := by
    simp only [Tree.slots, hr]
    exact hslots.symm
  have hbefore : t.RoomMade drain k t.slots l := by
    obtain ⟨b₀, left₀, right₀, hread, hsl, rfl⟩ := hmade
    obtain ⟨h, hh'⟩ := Nat.exists_eq_add_of_le' hh
    refine ⟨b₀, left₀, right₀, ?_, hts.trans hsl, ?_⟩
    · simp only [Tree.leafOf, hr, Option.bind_some, ← hreads k, hread]
    · rw [hh']
      rfl
  refine ⟨{ t with root := some ⟨r'.1, res.1⟩, nextNodeId := res.2.2 }, res.2.1, l, ?_,
    ⟨?_, ?_, ?_, ?_, ht.packs⟩, rfl, hbefore, ?_, ?_⟩
  · simp only [Tree.insertFromRoot, hsplit, Option.bind_some, hres, Option.map_some]
  · rintro x hx
    obtain rfl := Option.some.inj hx
    exact hins.wf
  · rintro x hx
    obtain rfl := Option.some.inj hx
    exact hins.sized
  · rintro x hx
    obtain rfl := Option.some.inj hx
    exact hins.nEntries_le.trans (Nat.succ_le_succ hle)
  · rintro x hx
    obtain rfl := Option.some.inj hx
    exact hh
  · show EditsKey _ _ k g _ (res.1.allSlots r'.1)
    rw [hstep.after, hstep.before]
    exact hed.append hl hr'
  · rw [hstep.before, lookup_middle hl hr']
    exact hstep.flag_eq.trans hrep

/-- The slot of a first key: a fresh slot that is not marked dirty. -/
def firstSlot (k : Key) (lsn : Lsn) (data : Option (List UInt8)) : BinSlot :=
  { BinSlot.fresh k lsn data with dirty := false }

theorem Tree.firstKey_spec (ht : TreeWF t) (hr : t.root = none)
    (hmax : 2 ≤ t.config.maxEntriesPerNode) (k : Key) (data : Option (List UInt8)) (lsn : Lsn) :
    TreeWF (t.firstKey k data lsn) ∧ (t.firstKey k data lsn).slots = [firstSlot k lsn data] ∧
      t.slots = [] := by
  refine ⟨⟨?_, ?_, ?_, ?_, ht.packs⟩, rfl, by simp [Tree.slots, hr]⟩
  · rintro r hr'
    obtain rfl := Option.some.inj hr'
    have hs : SortedBy (keyCmp t.config.keyComparator) BinSlot.key [firstSlot k lsn data] :=
      List.pairwise_singleton _ _
    exact LeafWF.of_fullSlots rfl hs (fun _ _ => inRange_none) rfl (fun _ => rfl)
      ⟨by simp, ht.packs⟩
  · rintro r hr'
    obtain rfl := Option.some.inj hr'
    intro e he
    obtain rfl := List.mem_singleton.mp he
    exact ⟨show 1 ≤ t.config.maxEntriesPerNode by omega, trivial⟩
  · rintro r hr'
    obtain rfl := Option.some.inj hr'
    exact Nat.le_add_left 1 _
  · rintro r hr'
    obtain rfl := Option.some.inj hr'
    exact Nat.le_refl 1

/-- The slot of a key after an insertion into a tree: the first key of a tree is not
marked dirty. -/
def Tree.upsert (t : Tree) (k : Key) (lsn : Lsn) (data : Option (List UInt8))
    (o : Option BinSlot) : Option BinSlot :=
  if t.root.isNone then some (firstSlot k lsn data) else upsertSlot k lsn data o

/-- The slot of a key after a redo into a tree. -/
def Tree.redoUpsert (t : Tree) (k : Key) (lsn : Lsn) (data : Option (List UInt8))
    (o : Option BinSlot) : Option BinSlot :=
  if t.root.isNone then some (firstSlot k lsn data) else redoSlot k lsn data o

theorem Tree.firstKey_inserts {R : List BinSlot → List BinSlot → Prop} (hR : R [] [])
    (ht : TreeWF t) (hr : t.root = none) (hmax : 2 ≤ t.config.maxEntriesPerNode) (k : Key)
    (data : Option (List UInt8)) (lsn : Lsn)
    {φ : Option BinSlot → Bool} (hg : g none = some (firstSlot k lsn data)) (hφ : φ none = true) :
    TreeInserts R t (t.firstKey k data lsn) k g φ true [] := by
  obtain ⟨hwf, hslots, hnil⟩ := Tree.firstKey_spec ht hr hmax k data lsn
  refine ⟨hwf, rfl, hnil ▸ hR, ?_, by simp [hφ]⟩
  rw [hslots]
  have hed : EditsKey (keyCmp t.config.keyComparator) BinSlot.key k g ([] ++ [])
      ([] ++ firstSlot k lsn data :: []) :=
    editsKey_insert (by simp) (by simp) ReflCmp.compare_self hg
  exact hed

/-- The leaf of an insertion grows by at most one slot. -/
theorem leafKeeps_insertEntry (lsn : Lsn) (data : Option (List UInt8)) :
    LeafKeeps c kp k fun b => b.insertEntry c kp k lsn data := by
  intro lo hi b hb hk
  refine ⟨(leafEdits_insertEntry lsn data hb hk).1, ?_⟩
  obtain rfl := hb.keyPrefixing
  have hlen := (BinStub.insertEntry_inserted hb.wf k lsn data).upserts.length_le
  simpa using hlen

theorem leafKeeps_redoEntry (lsn : Lsn) (data : Option (List UInt8)) :
    LeafKeeps c kp k (BinStub.redoEntry c kp k lsn data) := by
  intro lo hi b hb hk
  refine ⟨(leafEdits_redoEntry lsn data hb hk).1, ?_⟩
  have hlen := (leafKeeps_insertEntry (k := k) lsn data hb hk).2
  unfold BinStub.redoEntry
  split
  · split
    · exact Nat.le_succ _
    · exact hlen
  · exact hlen

/-- What an insertion drains: only when the leaf of its key is full, and then exactly the
deleted slots of the leaf that nobody locks. The slots of the leaf are slots of the tree. -/
structure Tree.Drains (t : Tree) (isLocked : Option (Lsn → Bool)) (k : Key)
    (l₀ l : List BinSlot) : Prop where
  drained : Drained l₀ l
  full : ∀ s ∈ l₀, s ∉ l → ∃ b, t.leafOf k = some b ∧
    t.config.maxEntriesPerNode ≤ b.slots.length ∧ b.isDelta = false ∧ s ∈ b.fullSlots ∧
      s.isRemovable isLocked = true
  gone : ∀ b, t.leafOf k = some b → t.config.maxEntriesPerNode ≤ b.slots.length →
    b.isDelta = false → ∀ s ∈ b.fullSlots, s.isRemovable isLocked = true → s ∉ l
  leaf : ∀ b, t.leafOf k = some b → ∀ s ∈ b.fullSlots, s ∈ l₀

/-- The room an insertion makes. -/
theorem TreeWF.drains (ht : TreeWF t) {isLocked : Option (Lsn → Bool)} {l : List BinSlot}
    (h : t.RoomMade (drainKnownDeletedForSplit t.config.keyPrefixing isLocked) k t.slots l) :
    t.Drains isLocked k t.slots l := by
  obtain ⟨b, left, right, hleaf, hslots, rfl⟩ := h
  have hb : ∃ a z, LeafWF t.config.keyComparator t.config.keyPrefixing a z b := by
    cases hr : t.root with
    | none => simp [Tree.leafOf, hr] at hleaf
    | some r =>
      obtain ⟨b', a, z, hreads, hwf, -⟩ := ht.reads hr k
      simp only [Tree.leafOf, hr, Option.bind_some, hreads, Option.some.injEq] at hleaf
      exact ⟨a, z, hleaf ▸ hwf⟩
  obtain ⟨a, z, hb⟩ := hb
  have hdrain := (BinStub.drain_spec hb isLocked).2.1
  -- the other leaves have other slots
  have hside : ∀ s ∈ b.fullSlots, s ∉ left ∧ s ∉ right := by
    intro s hs
    have hsorted := ht.sorted
    rw [hslots] at hsorted
    obtain ⟨h₁, -, h₃⟩ := List.pairwise_append.mp hsorted
    have h₂ := (List.pairwise_append.mp h₁).2.2
    refine ⟨fun hl => ?_, fun hr => ?_⟩
    · simpa [ReflCmp.compare_self] using h₂ s hl s hs
    · simpa [ReflCmp.compare_self] using h₃ s (by simp [hs]) s hr
  have hroom : roomOf t.config.maxEntriesPerNode
      (drainKnownDeletedForSplit t.config.keyPrefixing isLocked) 1 b =
        if b.slots.length < t.config.maxEntriesPerNode ∨ b.isDelta = true then b.fullSlots
        else b.fullSlots.filter fun s => !s.isRemovable isLocked := by
    show (if _ then _ else (b.drain t.config.keyPrefixing isLocked).1.fullSlots) = _
    rw [hdrain]
    by_cases hlt : b.slots.length < t.config.maxEntriesPerNode <;> simp [hlt]
  have hin : ∀ b', t.leafOf k = some b' → ∀ s ∈ b'.fullSlots,
      s ∈ left ++ b.fullSlots ++ right := by
    intro b' hb' s hs
    obtain rfl : b' = b := Option.some.inj (hb'.symm.trans hleaf)
    simp [hs]
  rw [hroom, hslots]
  split
  · rename_i hno
    refine ⟨.refl _, fun s hs hns => absurd hs hns, fun b' hb' hfull hdelta => ?_, hin⟩
    obtain rfl : b' = b := Option.some.inj (hb'.symm.trans hleaf)
    rcases hno with hlt | hdel
    · omega
    · simp [hdelta] at hdel
  · rename_i hno
    push Not at hno
    refine ⟨(drained_filter isLocked b.fullSlots).append left right, fun s hs hns => ?_,
      fun b' hb' hfull hdelta s hs hrem hmem => ?_, hin⟩
    · simp only [List.mem_append, List.mem_filter, not_or, not_and, Bool.not_eq_true',
        Bool.not_eq_false] at hs hns
      rcases hs with (hs | hs) | hs
      · exact absurd hs hns.1.1
      · exact ⟨b, hleaf, hno.1, by simpa using hno.2, hs, hns.1.2 hs⟩
      · exact absurd hs hns.2
    · obtain rfl : b' = b := Option.some.inj (hb'.symm.trans hleaf)
      obtain ⟨hl, hr⟩ := hside s hs
      simp [hl, hr, hrem] at hmem

/-- **Insertion returns**, and up to drained slots it overwrites or adds the slot of its
key; it reports whether the key was not live. -/
theorem Tree.insert_spec (ht : TreeWF t) (hmax : 2 ≤ t.config.maxEntriesPerNode)
    (isLocked : Option (Lsn → Bool)) (k : Key) (data : List UInt8) (lsn : Lsn) :
    ∃ t' flag l, t.insert isLocked k data lsn = some (t', flag) ∧
      TreeInserts (t.Drains isLocked k) t t' k (t.upsert k lsn (some data)) wasAbsent flag
        l := by
  unfold Tree.insert
  cases hr : t.root with
  | none =>
    have hnil : t.Drains isLocked k [] [] :=
      ⟨.refl [], by simp, fun b hb => by simp [Tree.leafOf, hr] at hb,
        fun b hb => by simp [Tree.leafOf, hr] at hb⟩
    exact ⟨_, _, [], rfl, Tree.firstKey_inserts hnil ht hr hmax k (some data) lsn
      (by simp [Tree.upsert, hr]) rfl⟩
  | some r =>
    have hup : t.upsert k lsn (some data) = upsertSlot k lsn (some data) := by
      funext o
      simp [Tree.upsert, hr]
    rw [hup]
    obtain ⟨t', flag, l, heq, hins⟩ := Tree.insertFromRoot_spec ht hr hmax
      (makesRoom_drain isLocked) (leafEdits_insertEntry lsn (some data))
      (leafKeeps_insertEntry lsn (some data)) lsn
    exact ⟨t', flag, l, heq, hins.wf, hins.config, ht.drains hins.before, hins.edits,
      hins.flag_eq⟩

/-- **Redo of a record returns**, and overwrites or adds the slot of its key unless the
slot is current. -/
theorem Tree.redoInsert_spec (ht : TreeWF t) (hmax : 2 ≤ t.config.maxEntriesPerNode)
    (k : Key) (data : List UInt8) (lsn : Lsn) :
    ∃ t' flag, t.redoInsert k data lsn = some (t', flag) ∧
      TreeEdits t t' k (t.redoUpsert k lsn (if data = [] then none else some data)) := by
  have hedits : ∀ {t' : Tree} {flag : Bool} {l : List BinSlot}
      {g : Option BinSlot → Option BinSlot} {φ : Option BinSlot → Bool},
      TreeInserts Eq t t' k g φ flag l → TreeEdits t t' k g := by
    intro t' flag l g φ h
    obtain rfl := h.before
    exact ⟨h.wf, h.config, h.edits⟩
  unfold Tree.redoInsert
  dsimp only
  generalize (if data = [] then none else some data) = dataOpt
  cases hr : t.root with
  | none =>
    have hins : TreeInserts Eq t (t.firstKey k dataOpt lsn) k (t.redoUpsert k lsn dataOpt)
        wasAbsent true [] :=
      Tree.firstKey_inserts rfl ht hr hmax k dataOpt lsn (by simp [Tree.redoUpsert, hr]) rfl
    exact ⟨_, _, rfl, hedits hins⟩
  | some r =>
    have hup : t.redoUpsert k lsn dataOpt = redoSlot k lsn dataOpt := by
      funext o
      simp [Tree.redoUpsert, hr]
    rw [hup]
    obtain ⟨t', flag, l, heq, hins⟩ := Tree.insertFromRoot_spec ht hr hmax makesRoom_none
      (leafEdits_redoEntry lsn dataOpt) (leafKeeps_redoEntry lsn dataOpt) lsn
    have hsame : t.slots = l := by
      obtain ⟨b, left, right, -, hslots, rfl⟩ := hins.before
      simp [hslots, roomOf]
    exact ⟨t', flag, heq, hedits ⟨hins.wf, hins.config, hsame, hins.edits, hins.flag_eq⟩⟩

/-! ### Marks, removals and expirations -/

/-- Physical deletion erases the slot of its key and reports whether it was live. -/
theorem Tree.delete_spec (ht : TreeWF t) (k : Key) :
    TreeEdits t (t.delete k).1 k (fun _ => none) ∧
      (t.delete k).2 = wasLive (t.slotOf k) := by
  refine Tree.updateBin_spec ht (.inl rfl) leafEdits_deleteEntry (fun b => ?_) rfl rfl
  rw [BinStub.deleteEntry_eq]
  split
  · exact (List.eraseIdx_sublist _ _).length_le
  · exact Nat.le_refl _

/-- A deletion mark edits the slot of its key if it is live, and reports that. -/
theorem Tree.markDeleted_spec (ht : TreeWF t) (k : Key) (delLsn : Lsn) (pending : Bool) :
    TreeEdits t (t.markDeleted k delLsn pending).1 k (markSlot delLsn pending) ∧
      (t.markDeleted k delLsn pending).2 = wasLive (t.slotOf k) := by
  refine Tree.updateBin_spec ht (.inr rfl) (leafEdits_markDeleted delLsn pending)
    (fun b => ?_) rfl rfl
  simp only [BinStub.markDeleted]
  split <;> simp

/-- The redo of a deletion over a deleted slot advances it if it is behind. -/
theorem Tree.redoAdvanceDeletedSlotLsn_spec (ht : TreeWF t) (k : Key) (delLsn : Lsn) :
    TreeEdits t (t.redoAdvanceDeletedSlotLsn k delLsn).1 k (advanceSlot delLsn) := by
  refine (Tree.updateBin_spec (g := advanceSlot delLsn) ht (.inr rfl)
    (leafEdits_redoAdvance delLsn) (fun b => ?_) rfl rfl).1
  simp only [BinStub.redoAdvanceDeletedSlotLsn]
  split
  · split <;> simp
  · exact Nat.le_refl _

/-- A new expiration is set if the leaf is reached; otherwise nothing is changed. -/
theorem Tree.updateKeyExpiration_spec (ht : TreeWF t) (resident : ℕ → Bool) (k : Key)
    (expiration : ℕ) :
    TreeEdits t (t.updateKeyExpiration resident k expiration).1 k
      (if t.reachesBin resident k then expireSlot expiration else id) := by
  unfold Tree.updateKeyExpiration
  split
  · refine (Tree.updateBin_spec (g := expireSlot expiration) ht (.inr rfl)
      (leafEdits_updateKeyExpiration expiration) (fun b => ?_) rfl rfl).1
    simp only [BinStub.updateKeyExpiration]
    split <;> simp
  · exact ⟨ht, rfl, .refl rfl⟩

/-- With all of the tree in memory the descent of a search reaches its leaf. -/
theorem reachesBin_of_reads {k : Key} {b : BinStub} : ∀ {h : ℕ} (n : TreeNode h),
    getParentBinForChildLn (keyCmp c) k h n = some b →
      reachesBin (fun _ => true) (keyCmp c) k h n = true
  | 0, _, _ => rfl
  | h + 1, n, hreads => by
    rw [getParentBinForChildLn] at hreads
    split at hreads
    · cases hreads
    · rename_i e he
      rw [reachesBin]
      simp only [InNodeStub.getChild, he, Option.map_some, Option.filter_some, if_true,
        Option.any_some]
      exact reachesBin_of_reads e.child hreads

theorem Tree.reachesBin_of_root (ht : TreeWF t) (hr : t.root.isNone = false) (k : Key) :
    t.reachesBin (fun _ => true) k = true := by
  cases hroot : t.root with
  | none => simp [hroot] at hr
  | some r =>
    obtain ⟨b, lo, hi, hreads, -⟩ := ht.reads hroot k
    rw [Tree.reachesBin, hroot, Option.any_some]
    exact reachesBin_of_reads r.2 hreads

/-! ### Readers -/

theorem Tree.slotLsnAny_eq (ht : TreeWF t) (k : Key) :
    t.slotLsnAny k = (t.slotOf k).map fun s => (s.lsn, s.isDeleted) := by
  unfold Tree.slotLsnAny
  cases hr : t.root with
  | none => simp [Tree.slotOf, Tree.slots, hr]
  | some r =>
    obtain ⟨b, lo, hi, hreads, hb, -, hlook⟩ := ht.reads hr k
    rw [← hlook]
    simp only [Option.bind_eq_bind, Option.bind_some, hreads]
    rcases hb.findEntry_cases k with ⟨pre, s, post, s₀, -, -, hfind, hget, hs, hl⟩ | ⟨hfind, hl⟩
    · simp only [hfind, if_true, hget, hl, Option.map_some, hs]
      rfl
    · simp [hfind, hl]

end Noxu
