import Noxu.Tree.Routing

/-!
# Splitting, Draining and the Insertion Descent

The descent of an insertion makes room in every full child on its way down. A split cuts
a node at a slot and leaves the slots of the tree as they were; a drain removes deleted
slots only. Neither changes the routing of a key, and after one of them the child on the
path has room, so each level is entered at most twice.

## Main results

* `NodeWF.splitAt`: the halves of a node are well formed on both sides of the separator;
* `splitChild_spec`: a split of the routed child keeps the invariant and every slot;
* `BinStub.drain_spec`: a drain removes exactly the deleted slots that are not locked;
* `insertDescent_spec`: **with fuel for two entries per level the descent returns**, and
  its only effect is that of the leaf step on the leaf of the key.
-/

open Std Noxu.Library

namespace Noxu

variable {c : Option KeyComparator} {kp : Bool} {h : ℕ} {lo hi : Option Key} {k : Key}
variable {max : ℕ}

/-! ### Sizes -/

/-- No node below this one holds more than `max` slots. -/
def ChildrenSized (max : ℕ) : (h : ℕ) → TreeNode h → Prop
  | 0, _ => True
  | h + 1, n =>
    ∀ e ∈ InNodeStub.entries n, e.child.nEntries h ≤ max ∧ ChildrenSized max h e.child

theorem TreeNode.length_keys : ∀ (h : ℕ) (n : TreeNode h), (n.keys h).length = n.nEntries h
  | 0, b => by
    rw [TreeNode.keys, TreeNode.nEntries, List.length_map]
    exact BinStub.length_fullSlots b
  | _ + 1, n => by rw [TreeNode.keys, TreeNode.nEntries, List.length_map]

variable {b : BinStub}

/-- The leaf a descent reaches holds at most `max` slots. -/
theorem ChildrenSized.leaf_le {cmp : Key → Key → Ordering} :
    ∀ {h : ℕ} {n : TreeNode h}, n.nEntries h ≤ max → ChildrenSized max h n →
      getParentBinForChildLn cmp k h n = some b → b.slots.length ≤ max
  | 0, n, hn, _, hb => by
    obtain rfl : n = b := Option.some.inj hb
    exact hn
  | h + 1, n, _, hs, hb => by
    simp only [getParentBinForChildLn] at hb
    split at hb
    · simp at hb
    · rename_i e he
      obtain ⟨hle, hch⟩ := hs e (List.mem_of_getElem? he)
      exact ChildrenSized.leaf_le hle hch hb

/-! ### Splitting -/

/-- A node of at least two slots is cut into two non-empty halves. -/
theorem splitIndex_bounds (cmp : Key → Key → Ordering) (hint : SplitHint) {keys : List Key}
    (insertKey : Key) (hlen : 2 ≤ keys.length) :
    1 ≤ splitIndex cmp hint keys insertKey ∧
      splitIndex cmp hint keys insertKey < keys.length := by
  simp only [splitIndex, hlen, if_true]
  cases hint <;> dsimp only <;> (try split) <;> omega

theorem LeafWF.of_fullSlots {slots : List BinSlot} (hfull : b.fullSlots = slots)
    (hs : SortedBy (keyCmp c) BinSlot.key slots)
    (hr : ∀ s ∈ slots, InRange (keyCmp c) lo hi s.key) (hk : b.keyPrefixing = kp)
    (hp : b.keyPrefixing = false → b.keyPrefix = []) (hx : b.KeysExact) :
    LeafWF c kp lo hi b := by
  subst hfull
  exact ⟨⟨hs, hp, hx⟩, hk, hr⟩

/-- A node that stores full keys under the empty prefix. -/
theorem BinStub.fullSlots_of_nil (hp : b.keyPrefix = []) :
    b.fullSlots = b.slots := by
  have hid : BinSlot.withPrefix [] = id := rfl
  simp [BinStub.fullSlots, hp, hid]

/-- Learning the common prefix keeps the invariant of a leaf. -/
theorem LeafWF.recomputeKeyPrefix (hb : LeafWF c kp lo hi b) :
    LeafWF c kp lo hi b.recomputeKeyPrefix :=
  .of_fullSlots (BinStub.fullSlots_recomputeKeyPrefix hb.wf.exact) hb.wf.sorted hb.inRange
    hb.keyPrefixing (fun hk => BinStub.computeKeyPrefix_of_plain (b := b) hk)
    (hb.wf.exact.applyNewPrefix _).1

/-- Packing the suffixes keeps the invariant of a leaf, and its slots. -/
theorem LeafWF.compactKeys (hb : LeafWF c kp lo hi b) :
    LeafWF c kp lo hi b.compactKeys ∧ b.compactKeys.fullSlots = b.fullSlots := by
  have hfull := hb.wf.exact.fullSlots_compactKeys
  exact ⟨.of_fullSlots hfull hb.wf.sorted hb.inRange hb.keyPrefixing hb.wf.plain
    hb.wf.exact.compactKeys.1, hfull⟩

/-- What a cut at a separator gives. -/
structure SplitsAt (c : Option KeyComparator) (kp : Bool) (max h : ℕ) (lo hi : Option Key)
    (n left right : TreeNode h) (idx : ℕ) (sep : Key) : Prop where
  left_wf : NodeWF c kp h lo (some sep) left
  right_wf : NodeWF c kp h (some sep) hi right
  between : Between (keyCmp c) lo hi sep
  slots : left.allSlots h ++ right.allSlots h = n.allSlots h
  left_nEntries : left.nEntries h = idx
  right_nEntries : right.nEntries h = n.nEntries h - idx
  left_sized : ChildrenSized max h left
  right_sized : ChildrenSized max h right
  reads : 1 ≤ h → ∀ k, getParentBinForChildLn (keyCmp c) k h n =
    if (keyCmp c sep k).isLE then getParentBinForChildLn (keyCmp c) k h right
    else getParentBinForChildLn (keyCmp c) k h left

theorem LeafWF.installSlots {slots : List BinSlot} (hk : b.keyPrefixing = kp)
    (hlimit : b.compactMaxKeyLength < 65536) (hs : SortedBy (keyCmp c) BinSlot.key slots)
    (hr : ∀ s ∈ slots, InRange (keyCmp c) lo hi s.key) :
    LeafWF c kp lo hi (b.installSlots kp slots) ∧
      (b.installSlots kp slots).fullSlots = slots := by
  have hfull : ({ b with keyPrefix := [], keyWidth := none, slots := slots } : BinStub).fullSlots =
      slots := BinStub.fullSlots_of_nil rfl
  have hplain : LeafWF c kp lo hi { b with keyPrefix := [], keyWidth := none, slots := slots } :=
    .of_fullSlots hfull hs hr hk (fun _ => rfl) ⟨by simp, hlimit⟩
  unfold BinStub.installSlots
  split
  · exact ⟨hplain.recomputeKeyPrefix,
      (BinStub.fullSlots_recomputeKeyPrefix hplain.wf.exact).trans hfull⟩
  · exact hplain.compactKeys.imp_right fun h => h.trans hfull

theorem LeafWF.cut {s : BinSlot} {pre post : List BinSlot}
    (hb : LeafWF c kp lo hi b) (hcut : b.fullSlots = pre ++ s :: post) (hpre : pre ≠ []) :
    Between (keyCmp c) lo hi s.key ∧
      (∀ x ∈ pre, InRange (keyCmp c) lo (some s.key) x.key) ∧
        ∀ x ∈ s :: post, InRange (keyCmp c) (some s.key) hi x.key := by
  have hsorted := hb.wf.sorted
  have hr := hb.inRange
  rw [hcut] at hsorted hr
  obtain ⟨-, hpost, hlt⟩ := List.pairwise_append.mp hsorted
  obtain ⟨first, hfirst⟩ := List.exists_mem_of_ne_nil pre hpre
  refine ⟨⟨?_, (hr s (by simp)).below⟩, fun x hx => ?_, fun x hx => ?_⟩
  · exact (hr first (by simp [hfirst])).atLeast.trans_lt (hlt first hfirst s (by simp))
  · exact ⟨(hr x (by simp [hx])).atLeast, by simpa using hlt x hx s (by simp)⟩
  · refine ⟨?_, (hr x (List.mem_append_right _ hx)).below⟩
    rcases List.mem_cons.mp hx with rfl | hx
    · simp [ReflCmp.compare_self]
    · simp [(List.pairwise_cons.mp hpost).1 x hx]

theorem exists_cut {α : Type} {l : List α} {i : ℕ} (hi : i < l.length) :
    ∃ pre a post, l = pre ++ a :: post ∧ pre.length = i ∧ l.take i = pre ∧
      l.drop i = a :: post := by
  refine ⟨l.take i, l[i], l.drop (i + 1), ?_, by simp; omega, rfl, ?_⟩
  · rw [← List.drop_eq_getElem_cons hi, List.take_append_drop]
  · rw [List.drop_eq_getElem_cons hi]

/-- A list around one of its elements. -/
theorem exists_cut_of_getElem? {α : Type} {l : List α} {i : ℕ} {a : α}
    (h : l[i]? = some a) : ∃ pre post, l = pre ++ a :: post ∧ pre.length = i := by
  obtain ⟨hlt, rfl⟩ := List.getElem?_eq_some_iff.mp h
  exact ⟨l.take i, l.drop (i + 1), by
    rw [← List.drop_eq_getElem_cons hlt, List.take_append_drop], by simp; omega⟩

/-- Splitting a leaf at a slot that is not the first. -/
theorem LeafWF.splitAt {idx : ℕ} {sep : Key} (hb : LeafWF c kp lo hi b)
    (hidx : 1 ≤ idx) (hsep : (b.fullSlots.map BinSlot.key)[idx]? = some sep) (newId : ℕ) :
    LeafWF c kp lo (some sep) (b.splitAt kp idx newId).1 ∧
      LeafWF c kp (some sep) hi (b.splitAt kp idx newId).2 ∧
        Between (keyCmp c) lo hi sep ∧
          (b.splitAt kp idx newId).1.fullSlots = b.fullSlots.take idx ∧
            (b.splitAt kp idx newId).2.fullSlots = b.fullSlots.drop idx := by
  have hlt : idx < b.fullSlots.length := by
    simpa only [List.length_map] using (List.getElem?_eq_some_iff.mp hsep).1
  obtain ⟨pre, s, post, hcut, hlen, htake, hdrop⟩ := exists_cut hlt
  obtain rfl : s.key = sep := by
    rw [hcut, List.map_append, List.map_cons, ← hlen, ← List.length_map (f := BinSlot.key),
      getElem?_length_append] at hsep
    exact Option.some.inj hsep
  have hpre : pre ≠ [] := by
    rintro rfl
    simp at hlen
    omega
  obtain ⟨hbetween, hleft, hright⟩ := hb.cut hcut hpre
  have hsorted := hb.wf.sorted
  rw [hcut] at hsorted
  obtain ⟨hs₁, hs₂, -⟩ := List.pairwise_append.mp hsorted
  simp only [BinStub.splitAt, htake, hdrop]
  obtain ⟨hl, hsl⟩ := LeafWF.installSlots
    (b := { b with prohibitNextDelta := true, dirty := true }) hb.keyPrefixing
    hb.wf.exact.limit hs₁ hleft
  obtain ⟨hr, hsr⟩ := LeafWF.installSlots
    (b := { b with
      nodeId := newId, dirty := true, isDelta := false, lastFullLsn := nullLsn,
      lastDeltaLsn := nullLsn, cursorCount := 0, prohibitNextDelta := false })
    hb.keyPrefixing hb.wf.exact.limit hs₂ hright
  exact ⟨hl, hr, hbetween, hsl, hsr⟩

/-- The sizes of the halves of a leaf. -/
theorem LeafWF.splitAt_length {idx : ℕ} {sep : Key} (hb : LeafWF c kp lo hi b)
    (hidx : 1 ≤ idx) (hsep : (b.fullSlots.map BinSlot.key)[idx]? = some sep) (newId : ℕ) :
    (b.splitAt kp idx newId).1.slots.length = idx ∧
      (b.splitAt kp idx newId).2.slots.length = b.slots.length - idx := by
  obtain ⟨-, -, -, hsl, hsr⟩ := hb.splitAt hidx hsep newId
  have hlt : idx < b.slots.length := by
    simpa using (List.getElem?_eq_some_iff.mp hsep).1
  have h₁ := congrArg List.length hsl
  have h₂ := congrArg List.length hsr
  simp only [BinStub.length_fullSlots, List.length_take, List.length_drop] at h₁ h₂
  omega

/-- A descent through an upper node is a descent through the routed child. -/
theorem reads_routed {n : InNodeStub (TreeNode h)} {pre post : List (InEntry (TreeNode h))}
    {e : InEntry (TreeNode h)} (hent : n.entries = pre ++ e :: post)
    (hc : Chain (keyCmp c) InEntry.key (fun a b e => NodeWF c kp h a b e.child) lo hi
      (pre ++ e :: post))
    (hf : FloorAt (keyCmp c) k pre e post) :
    getParentBinForChildLn (keyCmp c) k (h + 1) n =
      getParentBinForChildLn (keyCmp c) k h e.child := by
  simp only [getParentBinForChildLn, hent, hf.upperInFloorIndex_eq hc, getElem?_length_append]

/-- Cutting an upper node leaves every descent in the half of its key. -/
theorem reads_cut {n left right : InNodeStub (TreeNode h)} {pre post : List (InEntry (TreeNode h))}
    {e : InEntry (TreeNode h)}
    (hc : Chain (keyCmp c) InEntry.key (fun a b e => NodeWF c kp h a b e.child) lo hi
      (pre ++ e :: post))
    (hpre : pre ≠ []) (hcut : n.entries = pre ++ e :: post) (hleft : left.entries = pre)
    (hright : right.entries = e :: post) (k : Key) :
    getParentBinForChildLn (keyCmp c) k (h + 1) n =
      if (keyCmp c e.key k).isLE then getParentBinForChildLn (keyCmp c) k (h + 1) right
      else getParentBinForChildLn (keyCmp c) k (h + 1) left := by
  obtain ⟨hl, -, hr⟩ := (chain_append hpre).mp hc
  split
  · rename_i hle
    obtain ⟨p, g, q, hent, hf⟩ := floorSplit hr k
    have hf' : FloorAt (keyCmp c) k (pre ++ p) g q := by
      refine ⟨fun _ => ?_, hf.above⟩
      cases p with
      | nil =>
        obtain rfl : e = g := (List.cons.inj hent).1
        exact hle
      | cons x xs => exact hf.floor (by simp)
    have hcut' : n.entries = (pre ++ p) ++ g :: q := by rw [hcut, hent, List.append_assoc]
    have hc' := hc
    rw [← hcut, hcut'] at hc'
    rw [hent] at hr
    rw [reads_routed hcut' hc' hf', reads_routed (hright.trans hent) hr hf]
  · rename_i hgt
    obtain ⟨p, g, q, hent, hf⟩ := floorSplit hl k
    have hlt : keyCmp c k e.key = .lt := by
      refine OrientedCmp.lt_of_gt ?_
      cases ho : keyCmp c e.key k <;> simp [ho] at hgt ⊢
    have hf' : FloorAt (keyCmp c) k p g (q ++ e :: post) := by
      refine ⟨hf.floor, fun x hx => ?_⟩
      rcases List.mem_append.mp hx with hx | hx
      · exact hf.above x hx
      · rcases List.mem_cons.mp hx with rfl | hx
        · exact hlt
        · -- later separators of the node are above the cut
          obtain ⟨y, ys, rfl⟩ := List.exists_cons_of_ne_nil hpre
          have hsorted := (Chain.tail_sorted hc).1
          have hpost := (List.pairwise_append.mp hsorted).2.1
          exact TransCmp.lt_trans hlt ((List.pairwise_cons.mp hpost).1 x hx)
    have hcut' : n.entries = p ++ g :: (q ++ e :: post) := by
      rw [hcut, hent, List.append_assoc, List.cons_append]
    have hc' := hc
    rw [← hcut, hcut'] at hc'
    rw [hent] at hl
    rw [reads_routed hcut' hc' hf', reads_routed (hleft.trans hent) hl hf]

/-- **Splitting a node** at a slot that is not the first. -/
theorem NodeWF.splitAt :
    ∀ {h : ℕ} {lo hi : Option Key} {n : TreeNode h} {idx : ℕ} {sep : Key},
      NodeWF c kp h lo hi n → ChildrenSized max h n → 1 ≤ idx → (n.keys h)[idx]? = some sep →
        ∀ newId, SplitsAt c kp max h lo hi n (n.splitAt kp h idx newId).1
          (n.splitAt kp h idx newId).2 idx sep
  | 0, lo, hi, b, idx, sep, hn, _, hidx, hsep, newId => by
    obtain ⟨hl, hr, hbetween, hsl, hsr⟩ :=
      LeafWF.splitAt (b := b) hn hidx hsep newId
    obtain ⟨hll, hlr⟩ := LeafWF.splitAt_length (b := b) hn hidx hsep newId
    refine ⟨hl, hr, hbetween, ?_, hll, hlr, trivial, trivial, fun hh => absurd hh (by simp)⟩
    exact (congrArg₂ _ hsl hsr).trans (List.take_append_drop _ _)
  | h + 1, lo, hi, n, idx, sep, hn, hsz, hidx, hsep, newId => by
    have hlt : idx < (InNodeStub.entries n).length := by
      have := (List.getElem?_eq_some_iff.mp hsep).1
      simpa [TreeNode.keys] using this
    obtain ⟨pre, e, post, hcut, hlen, htake, hdrop⟩ := exists_cut hlt
    obtain rfl : e.key = sep := by
      simp only [TreeNode.keys, hcut, List.map_append, List.map_cons] at hsep
      rw [← hlen, ← List.length_map InEntry.key, getElem?_length_append] at hsep
      exact Option.some.inj hsep
    have hpre : pre ≠ [] := by
      rintro rfl
      simp at hlen
      omega
    simp only [NodeWF, hcut] at hn
    obtain ⟨hl, hbetween, hr⟩ := (chain_append hpre).mp hn
    simp only [TreeNode.splitAt, htake, hdrop]
    refine ⟨hl, hr, hbetween, ?_, hlen, ?_, fun x hx => hsz x ?_, fun x hx => hsz x ?_,
      fun _ k => reads_cut hn hpre hcut rfl rfl k⟩
    · show slotsBelow pre ++ slotsBelow (e :: post) = slotsBelow (InNodeStub.entries n)
      rw [hcut, slotsBelow_append]
    · show (e :: post).length = (InNodeStub.entries n).length - idx
      rw [hcut]
      simp only [List.length_append, List.length_cons]
      omega
    · rw [hcut]
      exact List.mem_append_left _ hx
    · rw [hcut]
      exact List.mem_append_right _ hx

/-- **Splitting the routed child**: the child becomes two neighbours that meet at the
separator, and the node stays well formed. The slot that is split is the routed one
whether it is given or found again. -/
theorem splitChild_spec {config : TreeConfig} {n : InNodeStub (TreeNode h)}
    {pre post : List (InEntry (TreeNode h))} {e : InEntry (TreeNode h)}
    (hn : NodeWF config.keyComparator config.keyPrefixing (h + 1) lo hi n)
    (hent : n.entries = pre ++ e :: post)
    (hk : InRange (keyCmp config.keyComparator) lo hi k)
    (hf : FloorAt (keyCmp config.keyComparator) k pre e post)
    (hsz : ChildrenSized max h e.child) (hmax : 2 ≤ config.maxEntriesPerNode)
    (hfull : config.maxEntriesPerNode ≤ e.child.nEntries h) (hint : SplitHint) (gen : ℕ) :
    ∃ left right idx sep a z,
      splitChild config n pre.length hint k gen =
        some ({ n with
          entries := pre ++ { e with child := left } :: ⟨sep, nullLsn, right⟩ :: post
          dirty := true }, gen + 1) ∧
      1 ≤ idx ∧ idx < e.child.nEntries h ∧
      SplitsAt config.keyComparator config.keyPrefixing max h a z e.child left right idx sep ∧
      Chain (keyCmp config.keyComparator) InEntry.key
        (fun a b e => NodeWF config.keyComparator config.keyPrefixing h a b e.child) lo hi
        (pre ++ { e with child := left } :: ⟨sep, nullLsn, right⟩ :: post) := by
  have hc := hn
  simp only [NodeWF, hent] at hc
  obtain ⟨a, z, he, -, hctx⟩ := hc.route hk hf.floor hf.above
  have hkeys := TreeNode.length_keys h e.child
  have htwo : 2 ≤ (e.child.keys h).length := by omega
  obtain ⟨hidx, hlt⟩ := splitIndex_bounds (keyCmp config.keyComparator) hint k htwo
  generalize hi' : splitIndex (keyCmp config.keyComparator) hint (e.child.keys h) k = idx at *
  have hsep := List.getElem?_eq_getElem hlt
  have hsplit := he.splitAt hsz hidx hsep gen
  have hindex : (if k = [] then pre.length
      else partitionPoint (fun x => keyCmp config.keyComparator x k != .gt)
        (n.entries.map InEntry.key).tail) = pre.length := by
    split
    · rfl
    · rw [hent]
      exact hf.partitionPoint_eq hc
  refine ⟨_, _, idx, _, a, z, ?_, hidx, hkeys ▸ hlt, hsplit, ?_⟩
  · have hset := setChild_append hent
      (e.child.splitAt config.keyPrefixing h idx gen).1
    have hins := insertIdx_length_append
      (pre ++ [{ e with child := (e.child.splitAt config.keyPrefixing h idx gen).1 }]) post
      ⟨(e.child.keys h)[idx], nullLsn, (e.child.splitAt config.keyPrefixing h idx gen).2⟩
    simp only [List.length_append, List.length_singleton, List.append_assoc,
      List.singleton_append] at hins
    have hget : n.entries[pre.length]? = some e := by rw [hent, getElem?_length_append]
    simp only [splitChild, hindex, hget, hi', hsep, Nat.not_lt.mpr hfull, if_false,
      Option.map_some, hset, hins]
  · simpa using hctx
      { e with child := (e.child.splitAt config.keyPrefixing h idx gen).1 }
      [⟨(e.child.keys h)[idx], nullLsn, (e.child.splitAt config.keyPrefixing h idx gen).2⟩]
      rfl ⟨hsplit.left_wf, hsplit.between, hsplit.right_wf⟩

/-! ### Draining -/

/-- Some deleted slots are gone, and nothing else. -/
structure Drained (l l' : List BinSlot) : Prop where
  sublist : l'.Sublist l
  live : l'.filter (fun s => !s.isDeleted) = l.filter fun s => !s.isDeleted

/-- The removal loop keeps the slots below `j` that are not removable. -/
theorem BinStub.drainLoop_spec (isLocked : Option (Lsn → Bool)) :
    ∀ (j : ℕ) (b : BinStub), j ≤ b.slots.length →
      (b.drainLoop isLocked j).slots =
          (b.slots.take j).filter (fun s => !s.isRemovable isLocked) ++ b.slots.drop j ∧
        (b.drainLoop isLocked j).keyPrefix = b.keyPrefix ∧
          (b.drainLoop isLocked j).keyPrefixing = b.keyPrefixing ∧
            (b.KeysExact → (b.drainLoop isLocked j).KeysExact) := by
  intro j
  induction j with
  | zero => intro b _; simp [drainLoop]
  | succ j ih =>
    intro b hj
    obtain ⟨pre, s, post, hcut, rfl, htake, hdrop⟩ := exists_cut (l := b.slots) (i := j) hj
    have htake' : b.slots.take (pre.length + 1) = pre ++ [s] := by
      rw [hcut, List.take_append, List.take_of_length_le (by omega)]
      simp
    have hdrop' : b.slots.drop (pre.length + 1) = post := by
      rw [hcut, List.drop_append, List.drop_eq_nil_of_le (by omega)]
      simp
    simp only [drainLoop, hcut, getElem?_length_append, Option.map_some, Option.getD_some]
    rw [← hcut, htake', hdrop']
    cases hr : s.isRemovable isLocked with
    | true =>
      have hrem : (b.removeSlot pre.length).slots = pre ++ post := by
        simp [removeSlot, hcut, eraseIdx_length_append]
      obtain ⟨h₁, h₂, h₃, h₄⟩ := ih (b.removeSlot pre.length) (by simp [hrem])
      simp only [if_true]
      refine ⟨?_, h₂, h₃, fun hx => h₄ ⟨hx.stored, hx.limit⟩⟩
      rw [h₁, hrem]
      simp [hr]
    | false =>
      obtain ⟨h₁, h₂, h₃⟩ := ih b (by omega)
      simp only [Bool.false_eq_true, if_false]
      refine ⟨?_, h₂, h₃⟩
      rw [h₁, htake, hdrop]
      simp [hr]

/-- Removability does not look at the key. -/
@[simp] theorem BinSlot.isRemovable_withPrefix (isLocked : Option (Lsn → Bool)) (p : Key)
    (s : BinSlot) : (s.withPrefix p).isRemovable isLocked = s.isRemovable isLocked := rfl

theorem Drained.refl (l : List BinSlot) : Drained l l := ⟨List.Sublist.refl l, rfl⟩

theorem Drained.trans {l₁ l₂ l₃ : List BinSlot} (h₁ : Drained l₁ l₂) (h₂ : Drained l₂ l₃) :
    Drained l₁ l₃ := ⟨h₂.sublist.trans h₁.sublist, h₂.live.trans h₁.live⟩

theorem Drained.append {l l' : List BinSlot} (h : Drained l l') (pre post : List BinSlot) :
    Drained (pre ++ l ++ post) (pre ++ l' ++ post) :=
  ⟨((List.Sublist.refl pre).append h.sublist).append (List.Sublist.refl post),
    by simp [h.live]⟩

theorem drained_filter (isLocked : Option (Lsn → Bool)) (l : List BinSlot) :
    Drained l (l.filter fun s => !s.isRemovable isLocked) := by
  refine ⟨List.filter_sublist, ?_⟩
  rw [List.filter_filter]
  refine List.filter_congr fun s _ => ?_
  cases hd : s.isDeleted <;> simp [BinSlot.isRemovable, hd]

/-- **Draining a leaf** removes exactly the deleted slots that are not locked. -/
theorem BinStub.drain_spec (hb : LeafWF c kp lo hi b) (isLocked : Option (Lsn → Bool)) :
    LeafWF c kp lo hi (b.drain kp isLocked).1 ∧
      (b.drain kp isLocked).1.fullSlots = (if b.isDelta then b.fullSlots
          else b.fullSlots.filter fun s => !s.isRemovable isLocked) ∧
      (b.drain kp isLocked).2 =
        decide ((b.drain kp isLocked).1.slots.length < b.slots.length) := by
  unfold drain
  split
  · exact ⟨hb, rfl, by simp⟩
  · obtain ⟨hslots, hpfx, hkp, hexact⟩ :=
      drainLoop_spec isLocked b.slots.length b (Nat.le_refl _)
    simp only [List.take_length, List.drop_length, List.append_nil] at hslots
    have hfull : (b.drainLoop isLocked b.slots.length).fullSlots =
        b.fullSlots.filter fun s => !s.isRemovable isLocked := by
      rw [fullSlots, fullSlots, hslots, hpfx, List.filter_map]
      simp [Function.comp_def]
    have hwf : LeafWF c kp lo hi (b.drainLoop isLocked b.slots.length) :=
      .of_fullSlots hfull (hb.wf.sorted.sublist List.filter_sublist)
        (fun s hs => hb.inRange s (List.mem_filter.mp hs).1) (hkp.trans hb.keyPrefixing)
        (fun h => hpfx.trans (hb.wf.plain (hkp ▸ h))) (hexact hb.wf.exact)
    dsimp only
    split
    · exact ⟨hwf.recomputeKeyPrefix, (fullSlots_recomputeKeyPrefix hwf.wf.exact).trans hfull, rfl⟩
    · rename_i hkp'
      have hnil : (b.drainLoop isLocked b.slots.length).keyPrefix = [] :=
        hwf.wf.plain (hwf.keyPrefixing.trans (by simpa using hkp'))
      rw [if_neg (by simp [hnil])]
      exact ⟨hwf, hfull, rfl⟩

/-! ### The descent -/

/-- What the descent asks of its drain: upper nodes are left alone; a leaf keeps its
invariant and either shrinks, which the flag reports, or keeps its slots. -/
structure MakesRoom (c : Option KeyComparator) (kp : Bool)
    (drain : (h : ℕ) → TreeNode h → TreeNode h × Bool) : Prop where
  upper : ∀ (h : ℕ) (n : TreeNode (h + 1)), drain (h + 1) n = (n, false)
  wf : ∀ {lo hi} {b : BinStub}, LeafWF c kp lo hi b → LeafWF c kp lo hi (drain 0 b).1
  room : ∀ {lo hi} {b : BinStub}, LeafWF c kp lo hi b → (drain 0 b).2 = true →
    (BinStub.slots (drain 0 b).1).length < b.slots.length
  full : ∀ {lo hi} {b : BinStub}, LeafWF c kp lo hi b → (drain 0 b).2 = false →
    BinStub.fullSlots (drain 0 b).1 = b.fullSlots

/-- The redo descent drains nothing. -/
theorem makesRoom_none : MakesRoom c kp fun _ n => (n, false) :=
  ⟨fun _ _ => rfl, fun h => h, fun _ h => by simp at h, fun _ _ => rfl⟩

theorem makesRoom_drain (isLocked : Option (Lsn → Bool)) :
    MakesRoom c kp (drainKnownDeletedForSplit kp isLocked) where
  upper := fun _ _ => rfl
  wf := fun hb => (BinStub.drain_spec hb isLocked).1
  room := fun hb hr =>
    of_decide_eq_true ((BinStub.drain_spec hb isLocked).2.2.symm.trans hr)
  full := by
    intro lo hi b hb hr
    obtain ⟨-, hslots, hflag⟩ := BinStub.drain_spec hb isLocked
    have hge := of_decide_eq_false (hflag.symm.trans hr)
    show (BinStub.drain kp isLocked b).1.fullSlots = b.fullSlots
    rw [hslots]
    split
    · rfl
    · rename_i hdelta
      rw [if_neg hdelta] at hslots
      have hlen := congrArg List.length hslots
      rw [BinStub.length_fullSlots] at hlen
      refine List.filter_sublist.eq_of_length_le ?_
      rw [BinStub.length_fullSlots]
      omega

/-- The slots of the leaf of the key once the descent through `h` levels has made room:
a full leaf below a node is drained. -/
def roomOf (max : ℕ) (drain : (h : ℕ) → TreeNode h → TreeNode h × Bool) :
    ℕ → BinStub → List BinSlot
  | 0, b => b.fullSlots
  | _ + 1, b => if b.slots.length < max then b.fullSlots else BinStub.fullSlots (drain 0 b).1

/-- The slots of a node once the descent for a key has made room in its leaf. -/
def RoomMade (c : Option KeyComparator) (max : ℕ)
    (drain : (h : ℕ) → TreeNode h → TreeNode h × Bool) (k : Key) (h : ℕ) (n : TreeNode h)
    (l : List BinSlot) : Prop :=
  ∃ b left right, getParentBinForChildLn (keyCmp c) k h n = some b ∧
    n.allSlots h = left ++ b.fullSlots ++ right ∧ l = left ++ roomOf max drain h b ++ right

/-- The leaf step at the end of a descent: the slots are those of the leaf `b` and those
on its two sides, and only the leaf changes. -/
structure LeafStep (c : Option KeyComparator) (kp : Bool) (leaf : BinStub → BinStub × Bool)
    (k : Key) (l l' : List BinSlot) (flag : Bool) (b : BinStub) (left right : List BinSlot)
    (a z : Option Key) : Prop where
  leafWF : LeafWF c kp a z b
  inRange : InRange (keyCmp c) a z k
  before : l = left ++ b.fullSlots ++ right
  after : l' = left ++ (leaf b).1.fullSlots ++ right
  left_lt : ∀ s ∈ left, keyCmp c s.key k = .lt
  right_gt : ∀ s ∈ right, keyCmp c s.key k = .gt
  flag_eq : flag = (leaf b).2

/-- What the leaf step keeps on a leaf of the key. -/
def LeafKeeps (c : Option KeyComparator) (kp : Bool) (k : Key)
    (leaf : BinStub → BinStub × Bool) : Prop :=
  ∀ {a z : Option Key} {b : BinStub}, LeafWF c kp a z b → InRange (keyCmp c) a z k →
    LeafWF c kp a z (leaf b).1 ∧ (leaf b).1.slots.length ≤ b.slots.length + 1

/-- What a descent into a node establishes, over the slots `l` it found room in. -/
structure InsertResult (config : TreeConfig) (leaf : BinStub → BinStub × Bool) (k : Key)
    (h : ℕ) (lo hi : Option Key) (n : TreeNode h) (l : List BinSlot)
    (r : TreeNode h × Bool × ℕ) : Prop where
  wf : NodeWF config.keyComparator config.keyPrefixing h lo hi r.1
  sized : ChildrenSized config.maxEntriesPerNode h r.1
  nEntries_le : r.1.nEntries h ≤ n.nEntries h + 1
  step : ∃ b left right a z, LeafStep config.keyComparator config.keyPrefixing leaf k l
    (r.1.allSlots h) r.2.1 b left right a z

/-- The descent returns from every well-formed node of height `h` with this much fuel. -/
def Descends (config : TreeConfig) (drain : (h : ℕ) → TreeNode h → TreeNode h × Bool)
    (leaf : BinStub → BinStub × Bool) (k : Key) (h fuel : ℕ) : Prop :=
  ∀ {lo hi : Option Key} {n : TreeNode h} (allLeft allRight : Bool) (gen : ℕ),
    NodeWF config.keyComparator config.keyPrefixing h lo hi n →
    ChildrenSized config.maxEntriesPerNode h n →
    InRange (keyCmp config.keyComparator) lo hi k →
      ∃ r l, insertDescent config drain leaf k fuel h n allLeft allRight gen = some r ∧
        RoomMade config.keyComparator config.maxEntriesPerNode drain k h n l ∧
          InsertResult config leaf k h lo hi n l r

section Descent

variable {config : TreeConfig}
variable {drain : (h : ℕ) → TreeNode h → TreeNode h × Bool}
variable {leaf : BinStub → BinStub × Bool}
variable {n n' : InNodeStub (TreeNode h)} {pre post : List (InEntry (TreeNode h))}
variable {e : InEntry (TreeNode h)} {l : List BinSlot}

theorem ChildrenSized.replace (ms : List (InEntry (TreeNode h)))
    (hs : ∀ x ∈ pre ++ e :: post, x.child.nEntries h ≤ max ∧ ChildrenSized max h x.child)
    (hms : ∀ x ∈ ms, x.child.nEntries h ≤ max ∧ ChildrenSized max h x.child) :
    ∀ x ∈ pre ++ ms ++ post, x.child.nEntries h ≤ max ∧ ChildrenSized max h x.child := by
  intro x hx
  simp only [List.mem_append, List.mem_cons] at hs hx
  rcases hx with (hx | hx) | hx
  · exact hs x (.inl hx)
  · exact hms x hx
  · exact hs x (.inr (.inr hx))

theorem RoomMade.up (hent : n.entries = pre ++ e :: post)
    (hc : Chain (keyCmp c) InEntry.key (fun a b e => NodeWF c kp h a b e.child) lo hi
      (pre ++ e :: post))
    (hf : FloorAt (keyCmp c) k pre e post) (hlt : e.child.nEntries h < max)
    (hroom : RoomMade c max drain k h e.child l) :
    RoomMade c max drain k (h + 1) n (slotsBelow pre ++ l ++ slotsBelow post) := by
  obtain ⟨b, left, right, hreads, hslots, rfl⟩ := hroom
  have hsame : roomOf max drain (h + 1) b = roomOf max drain h b := by
    cases h with
    | zero =>
      obtain rfl : e.child = b := Option.some.inj hreads
      exact if_pos hlt
    | succ h => rfl
  refine ⟨b, slotsBelow pre ++ left, right ++ slotsBelow post, ?_, ?_, ?_⟩
  · rw [reads_routed hent hc hf, hreads]
  · show slotsBelow n.entries = _
    simp [hent, hslots]
  · simp [hsame]

/-- A leaf below a node that is not full needs no room made. -/
theorem RoomMade.eq_allSlots {n : InNodeStub (TreeNode 0)} {pre post : List (InEntry (TreeNode 0))}
    {e : InEntry (TreeNode 0)} (hent : n.entries = pre ++ e :: post)
    (hc : Chain (keyCmp c) InEntry.key (fun a b e => NodeWF c kp 0 a b e.child) lo hi
      (pre ++ e :: post))
    (hf : FloorAt (keyCmp c) k pre e post) (hlt : e.child.nEntries 0 < max)
    (hroom : RoomMade c max drain k 1 n l) : l = TreeNode.allSlots 1 n := by
  obtain ⟨b, left, right, hreads, hslots, rfl⟩ := hroom
  rw [reads_routed hent hc hf] at hreads
  obtain rfl : e.child = b := Option.some.inj hreads
  rw [hslots, show roomOf max drain 1 e.child = BinStub.fullSlots e.child from if_pos hlt]

/-- The descent reads the routed entry. -/
theorem FloorAt.getElem?_scanFloorIndex (hf : FloorAt (keyCmp c) k pre e post)
    (hent : n.entries = pre ++ e :: post)
    (hc : Chain (keyCmp c) InEntry.key (fun a b e => NodeWF c kp h a b e.child) lo hi
      (pre ++ e :: post)) :
    scanFloorIndex (keyCmp c) (n.entries.map InEntry.key) k = pre.length ∧
      n.entries[pre.length]? = some e := by
  constructor
  · rw [hent]
    exact hf.scanFloorIndex_eq hc
  · rw [hent, getElem?_length_append]

/-- The routed child, and what may stand in its place. -/
theorem FloorAt.setChild (hf : FloorAt (keyCmp c) k pre e post)
    (hn : NodeWF c kp (h + 1) lo hi n) (hsz : ChildrenSized max (h + 1) n)
    (hk : InRange (keyCmp c) lo hi k) (hent : n.entries = pre ++ e :: post) :
    ∃ a z, NodeWF c kp h a z e.child ∧ InRange (keyCmp c) a z k ∧
      ∀ m : TreeNode h, NodeWF c kp h a z m → m.nEntries h ≤ max → ChildrenSized max h m →
        NodeWF c kp (h + 1) lo hi (n.setChild pre.length m) ∧
          ChildrenSized max (h + 1) (n.setChild pre.length m) := by
  have hc := hn
  simp only [NodeWF, hent] at hc
  obtain ⟨a, z, he, hke, hctx⟩ := hc.route hk hf.floor hf.above
  refine ⟨a, z, he, hke, fun m hm hle hmsz => ?_⟩
  have hset := setChild_append hent m
  have hsz' : ∀ x ∈ pre ++ e :: post, x.child.nEntries h ≤ max ∧ ChildrenSized max h x.child :=
    hent ▸ hsz
  constructor
  · simp only [NodeWF, hset]
    simpa using hctx { e with child := m } [] rfl hm
  · have hrep := ChildrenSized.replace [{ e with child := m }] hsz' (by
      intro x hx
      obtain rfl := List.mem_singleton.mp hx
      exact ⟨hle, hmsz⟩)
    simp only [ChildrenSized, hset]
    simpa using hrep

variable {fuel : ℕ}

/-- One entry of a level: the routed child has room, so the descent goes down. -/
theorem insertDescent_ready (ih : Descends config drain leaf k h fuel)
    (hn : NodeWF config.keyComparator config.keyPrefixing (h + 1) lo hi n)
    (hsz : ChildrenSized config.maxEntriesPerNode (h + 1) n)
    (hk : InRange (keyCmp config.keyComparator) lo hi k) (hent : n.entries = pre ++ e :: post)
    (hf : FloorAt (keyCmp config.keyComparator) k pre e post)
    (hlt : e.child.nEntries h < config.maxEntriesPerNode) (allLeft allRight : Bool) (gen : ℕ) :
    ∃ r l, insertDescent config drain leaf k (fuel + 1) (h + 1) n allLeft allRight gen =
        some r ∧ RoomMade config.keyComparator config.maxEntriesPerNode drain k (h + 1) n l ∧
          InsertResult config leaf k (h + 1) lo hi n l r ∧
            TreeNode.nEntries (h + 1) r.1 = n.entries.length := by
  have hc := hn
  simp only [NodeWF, hent] at hc
  obtain ⟨a', z', he, hke, hput⟩ := hf.setChild hn hsz hk hent
  have hsz' : ∀ x ∈ pre ++ e :: post, x.child.nEntries h ≤ config.maxEntriesPerNode ∧
      ChildrenSized config.maxEntriesPerNode h x.child := hent ▸ hsz
  obtain ⟨r, l, hr, hroom, hres⟩ := ih (allLeft && pre.length == 0)
    (allRight && pre.length == n.entries.length - 1) gen he (hsz' e (by simp)).2 hke
  obtain ⟨b, left, right, a, z, hstep⟩ := hres.step
  obtain ⟨hleft, hright⟩ := hf.sides hc
  obtain ⟨hidx, hget⟩ := hf.getElem?_scanFloorIndex hent hc
  obtain ⟨hwf', hsz₂⟩ := hput r.1 hres.wf (hres.nEntries_le.trans hlt) hres.sized
  have hset := setChild_append hent r.1
  have hlen : (n.setChild pre.length r.1).entries.length = n.entries.length := by
    simp [hset, hent]
  refine ⟨(n.setChild pre.length r.1, r.2), slotsBelow pre ++ l ++ slotsBelow post, ?_,
    hroom.up hent hc hf hlt, ⟨hwf', hsz₂, ?_, ?_⟩, hlen⟩
  · simp only [insertDescent, hidx, hget, hlt, if_true, hr, Option.map_some]
  · show (n.setChild pre.length r.1).entries.length ≤ n.entries.length + 1
    omega
  · refine ⟨b, slotsBelow pre ++ left, right ++ slotsBelow post, a, z, hstep.leafWF,
      hstep.inRange, ?_, ?_, ?_, ?_, hstep.flag_eq⟩
    · simp [hstep.before]
    · show slotsBelow (n.setChild pre.length r.1).entries = _
      rw [hset]
      simp [hstep.after]
    · intro s hs
      rcases List.mem_append.mp hs with hs | hs
      · exact hleft s hs
      · exact hstep.left_lt s hs
    · intro s hs
      rcases List.mem_append.mp hs with hs | hs
      · exact hstep.right_gt s hs
      · exact hright s hs

/-- After a split a key at or above the separator is routed to the right half. -/
theorem FloorAt.split_right (e' : InEntry (TreeNode h)) {r : InEntry (TreeNode h)}
    (hf : FloorAt (keyCmp c) k pre e post) (hr : (keyCmp c r.key k).isLE = true) :
    FloorAt (keyCmp c) k (pre ++ [e']) r post := ⟨fun _ => hr, hf.above⟩

/-- After a split a key below the separator is routed to the left half. -/
theorem FloorAt.split_left {e' r : InEntry (TreeNode h)}
    (hf : FloorAt (keyCmp c) k pre e post) (he : e'.key = e.key)
    (hr : (keyCmp c r.key k).isLE = false) : FloorAt (keyCmp c) k pre e' (r :: post) := by
  refine ⟨fun hpre => he ▸ hf.floor hpre, fun x hx => ?_⟩
  rcases List.mem_cons.mp hx with rfl | hx
  · refine OrientedCmp.lt_of_gt ?_
    cases ho : keyCmp c x.key k <;> simp [ho] at hr ⊢
  · exact hf.above x hx

/-- The first entry of a level whose routed child is full and cannot be drained: the
child is split and the key goes to a half that has room. Splitting an upper child moves no
leaf, and splitting a leaf makes the room itself. -/
theorem insertDescent_split (hmax : 2 ≤ config.maxEntriesPerNode)
    (ih : Descends config drain leaf k h fuel)
    (hn : NodeWF config.keyComparator config.keyPrefixing (h + 1) lo hi n)
    (hsz : ChildrenSized config.maxEntriesPerNode (h + 1) n)
    (hk : InRange (keyCmp config.keyComparator) lo hi k) (hent : n.entries = pre ++ e :: post)
    (hf : FloorAt (keyCmp config.keyComparator) k pre e post)
    (hfull : config.maxEntriesPerNode ≤ e.child.nEntries h) (hint : SplitHint)
    (allLeft allRight : Bool) (gen : ℕ) :
    ∃ r l, ((splitChild config n pre.length hint k gen).bind fun r =>
        insertDescent config drain leaf k (fuel + 1) (h + 1) r.1 allLeft allRight r.2) =
          some r ∧
      (1 ≤ h → RoomMade config.keyComparator config.maxEntriesPerNode drain k (h + 1) n l) ∧
      (h = 0 → l = TreeNode.allSlots (h + 1) n) ∧
      InsertResult config leaf k (h + 1) lo hi n l r := by
  have hsz' : ∀ x ∈ pre ++ e :: post, x.child.nEntries h ≤ config.maxEntriesPerNode ∧
      ChildrenSized config.maxEntriesPerNode h x.child := hent ▸ hsz
  obtain ⟨hle, hsze⟩ := hsz' e (by simp)
  obtain ⟨left, right, idx, sep, a, z, hsplit, hidx, hlt, hs, hchain⟩ :=
    splitChild_spec hn hent hk hf hsze hmax hfull hint gen
  have hl := hs.left_nEntries
  have hr := hs.right_nEntries
  rw [hsplit, Option.bind_some]
  generalize hn' : ({ n with
    entries := pre ++ { e with child := left } :: ⟨sep, nullLsn, right⟩ :: post
    dirty := true } : InNodeStub (TreeNode h)) = n'
  have hent' : n'.entries =
      pre ++ { e with child := left } :: ⟨sep, nullLsn, right⟩ :: post := by rw [← hn']
  have hwf' : NodeWF config.keyComparator config.keyPrefixing (h + 1) lo hi n' := by
    simp only [NodeWF, hent']
    exact hchain
  have hsz₂ : ChildrenSized config.maxEntriesPerNode (h + 1) n' := by
    simp only [ChildrenSized, hent']
    have hrep := ChildrenSized.replace [{ e with child := left }, ⟨sep, nullLsn, right⟩]
      hsz' (by
        intro x hx
        simp only [List.mem_cons, List.not_mem_nil, or_false] at hx
        rcases hx with rfl | rfl
        · exact ⟨by dsimp only; omega, hs.left_sized⟩
        · exact ⟨by dsimp only; omega, hs.right_sized⟩)
    simpa using hrep
  have hslots : TreeNode.allSlots (h + 1) n' = TreeNode.allSlots (h + 1) n := by
    show slotsBelow n'.entries = slotsBelow n.entries
    rw [hent', hent]
    simp only [slotsBelow_append, slotsBelow_cons, ← hs.slots, List.append_assoc]
  have hlen : n'.entries.length = n.entries.length + 1 := by
    simp only [hent', hent, List.length_append, List.length_cons]
    omega
  -- the half the key is routed to
  obtain ⟨pre', g, post', hent₂, hf', hlt', hreads⟩ : ∃ pre' g post',
      n'.entries = pre' ++ g :: post' ∧
      FloorAt (keyCmp config.keyComparator) k pre' g post' ∧
      g.child.nEntries h < config.maxEntriesPerNode ∧
      (1 ≤ h → getParentBinForChildLn (keyCmp config.keyComparator) k h g.child =
        getParentBinForChildLn (keyCmp config.keyComparator) k h e.child) := by
    cases hsep : (keyCmp config.keyComparator sep k).isLE with
    | true =>
      refine ⟨pre ++ [{ e with child := left }], ⟨sep, nullLsn, right⟩, post,
        by simpa using hent', hf.split_right _ hsep, by dsimp only; omega, fun hh => ?_⟩
      rw [hs.reads hh k, if_pos hsep]
    | false =>
      refine ⟨pre, { e with child := left }, ⟨sep, nullLsn, right⟩ :: post, hent',
        hf.split_left rfl hsep, by dsimp only; omega, fun hh => ?_⟩
      rw [hs.reads hh k, if_neg (by simp [hsep])]
  have hc := hn
  simp only [NodeWF, hent] at hc
  have hc' := hwf'
  simp only [NodeWF, hent₂] at hc'
  obtain ⟨r, l, hr', hroom, hres, hnr⟩ :=
    insertDescent_ready ih hwf' hsz₂ hk hent₂ hf' hlt' allLeft allRight (gen + 1)
  refine ⟨r, l, hr', fun hh => ?_, ?_, hres.wf, hres.sized, ?_, hres.step⟩
  · obtain ⟨b, left₀, right₀, hread, hsl, hl₀⟩ := hroom
    refine ⟨b, left₀, right₀, ?_, hslots ▸ hsl, hl₀⟩
    rw [reads_routed hent₂ hc' hf', hreads hh] at hread
    rw [reads_routed hent hc hf, hread]
  · rintro rfl
    rw [← hslots]
    exact hroom.eq_allSlots hent₂ hc' hf' hlt'
  · rw [hnr, hlen]
    exact Nat.le_refl _

theorem MakesRoom.child (hroom : MakesRoom c kp drain) {a z : Option Key} {m : TreeNode h}
    (hm : NodeWF c kp h a z m) (hsz : ChildrenSized max h m) :
    NodeWF c kp h a z (drain h m).1 ∧ ChildrenSized max h (drain h m).1 ∧
      (drain h m).1.nEntries h ≤ m.nEntries h ∧
        ((drain h m).2 = false → (drain h m).1.nEntries h = m.nEntries h) ∧
          ((drain h m).2 = true → h = 0 ∧ (drain h m).1.nEntries h < m.nEntries h) := by
  cases h with
  | succ h =>
    rw [hroom.upper]
    exact ⟨hm, hsz, le_rfl, fun _ => rfl, fun h => by simp at h⟩
  | zero =>
    have heq : (drain 0 m).2 = false → TreeNode.nEntries 0 (drain 0 m).1 = m.nEntries 0 := by
      intro hd
      have hlen := congrArg List.length (hroom.full hm hd)
      exact (BinStub.length_fullSlots _).symm.trans (hlen.trans (BinStub.length_fullSlots _))
    refine ⟨hroom.wf hm, trivial, ?_, heq, fun hd => ⟨rfl, hroom.room hm hd⟩⟩
    cases hd : (drain 0 m).2 with
    | true => exact (hroom.room hm hd).le
    | false => exact (heq hd).le

/-- Room made in a full leaf below a node: the leaf is drained in place. -/
theorem roomMade_setChild {n : InNodeStub (TreeNode 0)} {pre post : List (InEntry (TreeNode 0))}
    {e : InEntry (TreeNode 0)} (hent : n.entries = pre ++ e :: post)
    (hc : Chain (keyCmp c) InEntry.key (fun a b e => NodeWF c kp 0 a b e.child) lo hi
      (pre ++ e :: post))
    (hf : FloorAt (keyCmp c) k pre e post) (hfull : max ≤ e.child.nEntries 0) :
    RoomMade c max drain k 1 n
      (TreeNode.allSlots 1 (n.setChild pre.length (drain 0 e.child).1)) := by
  refine ⟨e.child, slotsBelow pre, slotsBelow post, ?_, ?_, ?_⟩
  · rw [reads_routed hent hc hf]
    rfl
  · show slotsBelow n.entries = _
    rw [hent]
    simp only [slotsBelow_append, slotsBelow_cons, List.append_assoc]
    rfl
  · rw [show roomOf max drain 1 e.child = BinStub.fullSlots (drain 0 e.child).1 from
      if_neg (Nat.not_lt.mpr hfull)]
    show slotsBelow (n.setChild _ _).entries = _
    rw [setChild_append hent]
    simp only [slotsBelow_append, slotsBelow_cons, List.append_assoc]
    rfl

/-- The first entry of a level whose routed child is full: the child is drained, and split if
nothing could be drained. -/
theorem insertDescent_full (hmax : 2 ≤ config.maxEntriesPerNode)
    (hroom : MakesRoom config.keyComparator config.keyPrefixing drain)
    {n : TreeNode (h + 1)} (ih : Descends config drain leaf k h fuel)
    (hn : NodeWF config.keyComparator config.keyPrefixing (h + 1) lo hi n)
    (hsz : ChildrenSized config.maxEntriesPerNode (h + 1) n)
    (hk : InRange (keyCmp config.keyComparator) lo hi k)
    (hent : InNodeStub.entries n = pre ++ e :: post)
    (hf : FloorAt (keyCmp config.keyComparator) k pre e post)
    (hlt : ¬ e.child.nEntries h < config.maxEntriesPerNode) (allLeft allRight : Bool) (gen : ℕ) :
    ∃ r l, insertDescent config drain leaf k (fuel + 1 + 1) (h + 1) n allLeft allRight gen =
        some r ∧ RoomMade config.keyComparator config.maxEntriesPerNode drain k (h + 1) n l ∧
          InsertResult config leaf k (h + 1) lo hi n l r := by
  have hc := hn
  simp only [NodeWF, hent] at hc
  obtain ⟨a, z, he, -, hput⟩ := hf.setChild hn hsz hk hent
  have hsz' : ∀ x ∈ pre ++ e :: post, x.child.nEntries h ≤ config.maxEntriesPerNode ∧
      ChildrenSized config.maxEntriesPerNode h x.child := hent ▸ hsz
  obtain ⟨hle, hsze⟩ := hsz' e (by simp)
  obtain ⟨hdwf, hdsz, hshrink, hsame, hless⟩ := hroom.child he hsze
  obtain ⟨hidx, hget⟩ := hf.getElem?_scanFloorIndex hent hc
  obtain ⟨hwf₁, hsz₁⟩ := hput (drain h e.child).1 hdwf (hshrink.trans hle) hdsz
  have hset := setChild_append hent (drain h e.child).1
  have hf' : FloorAt (keyCmp config.keyComparator) k pre
      { e with child := (drain h e.child).1 } post := ⟨hf.floor, hf.above⟩
  have hlen : TreeNode.nEntries (h + 1) (InNodeStub.setChild n pre.length (drain h e.child).1) =
      TreeNode.nEntries (h + 1) n := by
    show (InNodeStub.setChild n pre.length (drain h e.child).1).entries.length =
      (InNodeStub.entries n).length
    simp [hset, hent]
  cases hd : (drain h e.child).2 with
  | true =>
    obtain ⟨rfl, hroom'⟩ := hless hd
    have hc₁ := hwf₁
    simp only [NodeWF, hset] at hc₁
    obtain ⟨r, l, hr, hmade, hres, -⟩ := insertDescent_ready ih hwf₁ hsz₁ hk hset hf'
      (by dsimp only; omega) allLeft allRight gen
    have hl := hmade.eq_allSlots hset hc₁ hf' (by dsimp only; omega)
    refine ⟨r, l, ?_, hl ▸ roomMade_setChild hent hc hf (Nat.le_of_not_lt hlt), hres.wf,
      hres.sized, hlen ▸ hres.nEntries_le, hres.step⟩
    rw [insertDescent]
    simp only [hidx, hget, hlt, if_false, hd, if_true, hr]
  | false =>
    have hfull := hsame hd
    obtain ⟨r, l, hr, hmade, hl, hres⟩ := insertDescent_split hmax ih hwf₁ hsz₁ hk hset hf'
      (by dsimp only; omega)
      (splitHintOf (allLeft && pre.length == 0)
        (allRight && pre.length == (InNodeStub.entries n).length - 1)) allLeft allRight gen
    refine ⟨r, l, ?_, ?_, hres.wf, hres.sized, hlen ▸ hres.nEntries_le, hres.step⟩
    · rw [insertDescent]
      simp only [hidx, hget, hlt, if_false, hd, Bool.false_eq_true, hr]
    · cases h with
      | zero => exact hl rfl ▸ roomMade_setChild hent hc hf (Nat.le_of_not_lt hlt)
      | succ h =>
        -- nothing is drained above the leaves
        have hid : InNodeStub.setChild n pre.length (drain (h + 1) e.child).1 = n := by
          rw [hroom.upper]
          exact setChild_self hent
        have hmade' := hmade (Nat.le_add_left 1 h)
        rwa [hid] at hmade'

/-- **The insertion descent returns**: fuel for two entries per level is enough, the
invariants are kept, and the only effect, once room is made in the leaf, is the leaf
step. -/
theorem insertDescent_spec (hmax : 2 ≤ config.maxEntriesPerNode)
    (hroom : MakesRoom config.keyComparator config.keyPrefixing drain)
    (hleaf : LeafKeeps config.keyComparator config.keyPrefixing k leaf) :
    ∀ h fuel, descentFuel h ≤ fuel → Descends config drain leaf k h fuel := by
  intro h
  induction h with
  | zero =>
    intro fuel hfuel lo hi n allLeft allRight gen hn hsz hk
    obtain ⟨fuel, rfl⟩ := Nat.exists_eq_add_of_le' hfuel
    obtain ⟨hwf, hlen⟩ := hleaf hn hk
    have hpad : ∀ l : List BinSlot, l = [] ++ l ++ [] := by simp
    exact ⟨((leaf n).1, (leaf n).2, gen), BinStub.fullSlots n, rfl,
      ⟨n, [], [], rfl, hpad _, hpad _⟩, hwf, trivial, hlen, n, [], [], lo, hi, hn, hk,
      hpad _, hpad _, by simp, by simp, rfl⟩
  | succ h ih =>
    intro fuel hfuel lo hi n allLeft allRight gen hn hsz hk
    obtain ⟨fuel, rfl⟩ : ∃ f, fuel = f + 2 := ⟨fuel - 2, by unfold descentFuel at hfuel; omega⟩
    have hfuel' : descentFuel h ≤ fuel := by unfold descentFuel at *; omega
    obtain ⟨pre, e, post, hent, hf⟩ := floorSplit hn k
    by_cases hlt : e.child.nEntries h < config.maxEntriesPerNode
    · obtain ⟨r, l, hr, hmade, hres, -⟩ := insertDescent_ready (ih (fuel + 1) (by omega)) hn hsz
        hk hent hf hlt allLeft allRight gen
      exact ⟨r, l, hr, hmade, hres⟩
    · exact insertDescent_full hmax hroom (ih fuel hfuel') hn hsz hk hent hf hlt allLeft
        allRight gen

end Descent

end Noxu
