import Mathlib.Data.List.Find
import Noxu.Tree.Maintenance

/-!
# Range Seeks

`first_entry_at_or_after_with_index` goes down to the leaf of a key and takes the first slot from
the place of the key on that is not to be skipped. If the leaf has none it hops from leaf to
leaf: the next leaf with slots is the one after the leaf that an anchor key is routed to, and the
last key of a leaf whose slots are all skipped is the next anchor.

The hops are followed on the list of leaves. The anchor is a key of the leaf it was taken from,
so it is routed to that leaf again and the leaves left to visit get fewer.

## Main results

* `getAdjacentBin_focus`: the next leaves with slots on both sides of the leaf of a key;
* `firstLiveSlotAfterBin_eq`: the hops end, at the first slot of the later leaves;
* `seek_least_in_every_run`: **in every reached tree** a seek returns, with the least visible key
  that is not below the sought one, or with nothing exactly if there is none;
* `seek_below_key`: after a merge that misplaces a separator a seek returns a smaller key.
-/

open Std Noxu.Library

namespace Noxu

variable {c : Option KeyComparator} {kp : Bool} {h : ℕ} {lo hi : Option Key} {k : Key} {t : Tree}
  {b : BinStub} {forward : Bool}

/-! ### Slots a seek skips -/

namespace BinStub

/-- A slot that a scan passes over without a lock: known to be deleted, or expired. -/
def slotScanSkippable (expired : ℕ → Bool → Bool) (b : BinStub) (idx : ℕ) : Bool :=
  match b.slots[idx]? with
  | some s =>
    s.knownDeleted || (b.expirationEnabled && s.expirationTime != 0 &&
      expired s.expirationTime b.expirationInHours)
  | none => false

/-- A slot that a seek passes over, with or without pending deletions. -/
def slotIsSkippableForSeek (expired : ℕ → Bool → Bool) (skipPendingDeleted : Bool) (b : BinStub)
    (idx : ℕ) : Bool :=
  if skipPendingDeleted then !b.slotIsLive expired idx else b.slotScanSkippable expired idx

/-- The first slot from an index on that a seek does not pass over. -/
def seekFrom (expired : ℕ → Bool → Bool) (skipPendingDeleted : Bool) (b : BinStub) (idx : ℕ) :
    Option ℕ :=
  (List.range b.slots.length).find? fun i =>
    decide (idx ≤ i) && !b.slotIsSkippableForSeek expired skipPendingDeleted i

end BinStub

/-- What a seek returns. -/
structure SeekHit where
  /-- The full key. -/
  key : Key
  /-- The data cached in the slot. -/
  data : List UInt8
  /-- The index of the slot. -/
  index : ℕ
  /-- The LSN of the slot. -/
  lsn : Lsn
  /-- The leaf. -/
  bin : BinStub

/-- The slot of a leaf at an index, as a seek returns it. -/
def BinStub.seekHit (b : BinStub) (idx : ℕ) : SeekHit where
  key := (b.getFullKey idx).getD []
  data := (b.slots[idx]?.bind BinSlot.data).getD []
  index := idx
  lsn := (b.slots[idx]?.map BinSlot.lsn).getD nullLsn
  bin := b

/-! ### Leaf to leaf -/

/-- A list in the direction of a walk. -/
def inDirection {α : Type} (forward : Bool) (l : List α) : List α :=
  if forward then l else l.reverse

/-- The slots of a node behind one of them, in the direction of a walk. -/
def siblings {α : Type} (forward : Bool) (idx : ℕ) (l : List α) : List α :=
  if forward then l.drop (idx + 1) else (l.take idx).reverse

/-- The first leaf below a node that has slots, from the edge a walk comes from. -/
def descendToEdgeBin (forward : Bool) : (h : ℕ) → TreeNode h → Option BinStub
  | 0, b => let b : BinStub := b; if b.slots = [] then none else some b
  | h + 1, n => (inDirection forward (InNodeStub.entries n)).findSome? fun e =>
    descendToEdgeBin forward h e.child

/-- The neighbour of the leaf a key is routed to: the siblings of the lowest level come first.
A node without slots ends the attempt. -/
def getAdjacentBin (forward : Bool) (cmp : Key → Key → Ordering) (key : Key) :
    (h : ℕ) → TreeNode h → Option (Option BinStub)
  | 0, _ => some none
  | h + 1, n =>
    let n : InNodeStub (TreeNode h) := n
    let idx := upperInFloorIndex cmp (n.entries.map InEntry.key) key
    n.entries[idx]?.bind fun e =>
      (getAdjacentBin forward cmp key h e.child).map fun below =>
        below.or ((siblings forward idx n.entries).findSome? fun e =>
          descendToEdgeBin forward h e.child)

namespace Tree

/-- The next or the previous leaf with slots. -/
def getAdjacentBin (forward : Bool) (t : Tree) (key : Key) : Option BinStub :=
  t.root.bind fun r =>
    (Noxu.getAdjacentBin forward (keyCmp t.config.keyComparator) key r.1 r.2).join

/-- The next leaf with slots. -/
def getNextBin (t : Tree) (key : Key) : Option BinStub := t.getAdjacentBin true key

/-- The hops from leaf to leaf, for at most `fuel` of them. -/
def firstLiveSlotAfterBin (expired : ℕ → Bool → Bool) (skipPendingDeleted : Bool) (t : Tree) :
    ℕ → Key → Option (Option SeekHit)
  | 0, _ => none
  | fuel + 1, anchor =>
    match t.getNextBin anchor with
    | none => some none
    | some b =>
      match b.seekFrom expired skipPendingDeleted 0 with
      | some i => some (some (b.seekHit i))
      | none =>
        match b.getFullKey (b.slots.length - 1) with
        | none => some none
        | some next => firstLiveSlotAfterBin expired skipPendingDeleted t fuel next

/-- The first entry at or after a key. -/
def firstEntryAtOrAfterWithIndex (expired : ℕ → Bool → Bool) (t : Tree) (fuel : ℕ) (key : Key)
    (skipPendingDeleted : Bool) : Option (Option SeekHit) :=
  match t.leafOf key with
  | none => some none
  | some b =>
    match b.seekFrom expired skipPendingDeleted (b.findEntry t.config.keyComparator key).1 with
    | some i => some (some (b.seekHit i))
    | none => t.firstLiveSlotAfterBin expired skipPendingDeleted fuel key

end Tree

/-! ### The leaves of a tree -/

/-- The leaves below a node, in order. -/
def TreeNode.leaves : (h : ℕ) → TreeNode h → List BinStub
  | 0, b => [b]
  | h + 1, n => (InNodeStub.entries n).flatMap fun e => leaves h e.child

/-- The leaves of a tree, in order. -/
def Tree.leaves (t : Tree) : List BinStub := (t.root.map fun r => r.2.leaves r.1).getD []

/-- The leaves below a list of entries. -/
def leavesBelow (entries : List (InEntry (TreeNode h))) : List BinStub :=
  entries.flatMap fun e => e.child.leaves h

theorem allSlots_eq_leaves : ∀ {h : ℕ} (n : TreeNode h),
    n.allSlots h = (n.leaves h).flatMap BinStub.fullSlots
  | 0, (b : BinStub) => (List.flatMap_singleton BinStub.fullSlots b).symm
  | h + 1, n => by
    simp only [TreeNode.allSlots, TreeNode.leaves, List.flatMap_assoc]
    exact List.flatMap_congr fun e _ => allSlots_eq_leaves e.child

theorem slotsBelow_eq_leaves (entries : List (InEntry (TreeNode h))) :
    slotsBelow entries = (leavesBelow entries).flatMap BinStub.fullSlots := by
  simp only [slotsBelow, leavesBelow, List.flatMap_assoc]
  exact List.flatMap_congr fun e _ => allSlots_eq_leaves e.child

theorem Tree.slots_eq_leaves (t : Tree) : t.slots = t.leaves.flatMap BinStub.fullSlots := by
  rw [Tree.slots, Tree.leaves]
  cases t.root with
  | none => rfl
  | some r => exact allSlots_eq_leaves r.2

/-- A leaf with slots. -/
def BinStub.hasSlots (b : BinStub) : Bool := decide (b.slots ≠ [])

theorem find?_hasSlots_singleton (b : BinStub) :
    (if b.slots = [] then none else some b) = [b].find? BinStub.hasSlots := by
  rw [List.find?_singleton, BinStub.hasSlots]
  by_cases hb : b.slots = [] <;> simp [hb]

/-- The leaves below the entries taken in a direction are the leaves taken in it. -/
theorem leaves_inDirection (entries : List (InEntry (TreeNode h))) :
    (inDirection forward entries).flatMap (fun e => inDirection forward (e.child.leaves h)) =
      inDirection forward (leavesBelow entries) := by
  cases forward with
  | true => rfl
  | false => simp [inDirection, leavesBelow, List.reverse_flatMap, Function.comp_def]

/-- The edge descent finds the first leaf with slots, in its direction. -/
theorem descendToEdgeBin_eq : ∀ {h : ℕ} (n : TreeNode h),
    descendToEdgeBin forward h n = (inDirection forward (n.leaves h)).find? BinStub.hasSlots
  | 0, (b : BinStub) => by
    cases forward <;> exact find?_hasSlots_singleton b
  | h + 1, n => by
    rw [TreeNode.leaves, ← leavesBelow, ← leaves_inDirection, List.find?_flatMap,
      descendToEdgeBin]
    exact congrArg (List.findSome? · _) (funext fun e => descendToEdgeBin_eq e.child)

theorem findSome?_descendToEdgeBin (entries : List (InEntry (TreeNode h))) :
    ((inDirection forward entries).findSome? fun e => descendToEdgeBin forward h e.child) =
      (inDirection forward (leavesBelow entries)).find? BinStub.hasSlots := by
  rw [← leaves_inDirection, List.find?_flatMap]
  exact congrArg (List.findSome? · _) (funext fun e => descendToEdgeBin_eq e.child)

/-- The leaf of a key among the leaves of a node: smaller slots before it, greater ones behind
it, and the next leaf with slots on either side. -/
structure LeafFocus (c : Option KeyComparator) (kp : Bool) (k : Key) (h : ℕ) (n : TreeNode h)
    (left : List BinStub) (b : BinStub) (right : List BinStub) : Prop where
  leaf : ∃ a z, LeafWF c kp a z b
  reads : getParentBinForChildLn (keyCmp c) k h n = some b
  leaves : n.leaves h = left ++ b :: right
  left_lt : ∀ s ∈ left.flatMap BinStub.fullSlots, keyCmp c s.key k = .lt
  right_gt : ∀ s ∈ right.flatMap BinStub.fullSlots, keyCmp c s.key k = .gt
  adjacent : ∀ forward, getAdjacentBin forward (keyCmp c) k h n =
    some ((if forward then right else left.reverse).find? BinStub.hasSlots)

/-- The leaves of a node around those of one child, split at a key. -/
theorem leaves_around {n : TreeNode (h + 1)} {pre post : List (InEntry (TreeNode h))}
    {e : InEntry (TreeNode h)} {left right : List BinStub}
    (hent : InNodeStub.entries n = pre ++ e :: post)
    (hpre : ∀ s ∈ (leavesBelow pre).flatMap BinStub.fullSlots, keyCmp c s.key k = .lt)
    (hpost : ∀ s ∈ (leavesBelow post).flatMap BinStub.fullSlots, keyCmp c s.key k = .gt)
    (hleaves : e.child.leaves h = left ++ b :: right)
    (hleft : ∀ s ∈ left.flatMap BinStub.fullSlots, keyCmp c s.key k = .lt)
    (hright : ∀ s ∈ right.flatMap BinStub.fullSlots, keyCmp c s.key k = .gt) :
    n.leaves (h + 1) = (leavesBelow pre ++ left) ++ b :: (right ++ leavesBelow post) ∧
    (∀ s ∈ (leavesBelow pre ++ left).flatMap BinStub.fullSlots, keyCmp c s.key k = .lt) ∧
    ∀ s ∈ (right ++ leavesBelow post).flatMap BinStub.fullSlots, keyCmp c s.key k = .gt := by
  refine ⟨?_, ?_, ?_⟩
  · show leavesBelow (InNodeStub.entries n) = _
    simp [hent, leavesBelow, hleaves]
  · intro s hs
    rw [List.flatMap_append] at hs
    exact (List.mem_append.1 hs).elim (hpre s) (hleft s)
  · intro s hs
    rw [List.flatMap_append] at hs
    exact (List.mem_append.1 hs).elim (hright s) (hpost s)

/-- **The descent to the leaf of a key**: what holds at a leaf and is carried up by each node on
the way holds of the node, between the leaves with smaller and those with greater slots. -/
theorem NodeWF.descent_focus
    {P : (h : ℕ) → TreeNode h → List BinStub → BinStub → List BinStub → Prop}
    (hleaf : ∀ {lo hi : Option Key} {b : BinStub}, LeafWF c kp lo hi b → P 0 b [] b [])
    (hup : ∀ {h : ℕ} {n : TreeNode (h + 1)} {pre post : List (InEntry (TreeNode h))}
      {e : InEntry (TreeNode h)} {left right : List BinStub} {b : BinStub},
      InNodeStub.entries n = pre ++ e :: post →
      upperInFloorIndex (keyCmp c) ((pre ++ e :: post).map InEntry.key) k = pre.length →
      P h e.child left b right →
      P (h + 1) n (leavesBelow pre ++ left) b (right ++ leavesBelow post)) :
    ∀ {h : ℕ} {lo hi : Option Key} {n : TreeNode h}, NodeWF c kp h lo hi n →
      InRange (keyCmp c) lo hi k → ∃ left b right, n.leaves h = left ++ b :: right ∧
        (∀ s ∈ left.flatMap BinStub.fullSlots, keyCmp c s.key k = .lt) ∧
        (∀ s ∈ right.flatMap BinStub.fullSlots, keyCmp c s.key k = .gt) ∧ P h n left b right
  | 0, _, _, n, hn, _ => ⟨[], n, [], rfl, by simp, by simp, hleaf hn⟩
  | h + 1, lo, hi, n, hn, hk => by
    obtain ⟨pre, e, post, hent, hf⟩ := floorSplit hn k
    have hc := hn
    simp only [NodeWF, hent] at hc
    obtain ⟨a', z', he, hke, -⟩ := hc.route hk hf.floor hf.above
    obtain ⟨left, b, right, hleaves, hleft, hright, hP⟩ := he.descent_focus hleaf hup hke
    obtain ⟨hpre, hpost⟩ := hf.sides hc
    rw [slotsBelow_eq_leaves] at hpre hpost
    obtain ⟨hleaves, hleft, hright⟩ := leaves_around hent hpre hpost hleaves hleft hright
    exact ⟨leavesBelow pre ++ left, b, right ++ leavesBelow post, hleaves, hleft, hright,
      hup hent (hf.upperInFloorIndex_eq hc) hP⟩

/-- **The leaf of a key and its neighbours.** -/
theorem getAdjacentBin_focus {lo hi : Option Key} {n : TreeNode h} (hn : NodeWF c kp h lo hi n)
    (hk : InRange (keyCmp c) lo hi k) : ∃ left b right, LeafFocus c kp k h n left b right := by
  obtain ⟨left, b, right, hleaves, hleft, hright, hleaf, hreads, hadjacent⟩ :=
    hn.descent_focus (k := k) (P := fun h n left b right => (∃ a z, LeafWF c kp a z b) ∧
      getParentBinForChildLn (keyCmp c) k h n = some b ∧
      ∀ forward, getAdjacentBin forward (keyCmp c) k h n =
        some ((if forward then right else left.reverse).find? BinStub.hasSlots))
      (fun hb => ⟨⟨_, _, hb⟩, rfl, fun forward => by cases forward <;> rfl⟩)
      (fun {h n pre post e left right b} hent hidx hbelow => by
        refine ⟨hbelow.1, ?_, fun forward => ?_⟩
        · simp only [getParentBinForChildLn, hent, hidx, getElem?_length_append, hbelow.2.1]
        · have hsiblings : siblings forward pre.length (pre ++ e :: post) =
              inDirection forward (if forward then post else pre) := by
            cases forward <;> simp [siblings, inDirection]
          simp only [getAdjacentBin, hent, hidx, getElem?_length_append, Option.bind_some,
            hbelow.2.2 forward, Option.map_some, hsiblings, findSome?_descendToEdgeBin]
          cases forward <;> simp [inDirection, List.find?_append])
      hk
  exact ⟨left, b, right, hleaf, hreads, hleaves, hleft, hright, hadjacent⟩

/-! ### The hops -/

/-- The first slot of later leaves that a seek does not pass over. -/
def seekAhead (expired : ℕ → Bool → Bool) (skip : Bool) (leaves : List BinStub) :
    Option SeekHit :=
  leaves.findSome? fun b => (b.seekFrom expired skip 0).map b.seekHit

/-- A leaf without slots has none to return. -/
theorem seekFrom_of_not_hasSlots {expired : ℕ → Bool → Bool} {skip : Bool} {idx : ℕ}
    (hb : b.hasSlots = false) : b.seekFrom expired skip idx = none := by
  have hnil : b.slots = [] := by simpa [BinStub.hasSlots] using hb
  simp [BinStub.seekFrom, hnil]

theorem exists_lastKey (hb : b.hasSlots = true) :
    ∃ s ∈ b.fullSlots, b.getFullKey (b.slots.length - 1) = some s.key := by
  have hne : b.slots ≠ [] := by simpa [BinStub.hasSlots] using hb
  have hlt : b.slots.length - 1 < b.slots.length := by
    have := List.length_pos_iff.2 hne
    omega
  refine ⟨b.slots[b.slots.length - 1].withPrefix b.keyPrefix,
    List.mem_map_of_mem (List.getElem_mem hlt), ?_⟩
  rw [BinStub.getFullKey, List.getElem?_eq_getElem hlt, Option.map_some]
  rfl

/-- A leaf at two places of the list of leaves, told by a key of it. -/
theorem leaves_split_unique {cmp : Key → Key → Ordering} [TransCmp cmp]
    {left left' right right' : List BinStub} {b b' : BinStub} {s : BinSlot}
    (heq : left ++ b :: right = left' ++ b' :: right') (hs : s ∈ b.fullSlots)
    (hlt : ∀ x ∈ left'.flatMap BinStub.fullSlots, cmp x.key s.key = .lt)
    (hgt : ∀ x ∈ right'.flatMap BinStub.fullSlots, cmp x.key s.key = .gt) : right' = right := by
  have hself : cmp s.key s.key = .eq := ReflCmp.compare_self
  have hmem : ∀ {l : List BinStub}, b ∈ l → s ∈ l.flatMap BinStub.fullSlots :=
    fun hb => List.mem_flatMap.2 ⟨b, hb, hs⟩
  rcases List.append_eq_append_iff.1 heq with ⟨as, hleft, hright⟩ | ⟨bs, hleft, hright⟩
  · cases as with
    | nil => exact (List.cons.inj hright).2.symm
    | cons x xs =>
      obtain rfl := (List.cons.inj hright).1
      have hcontra := hlt s (hmem (by rw [hleft]; simp))
      rw [hself] at hcontra
      cases hcontra
  · cases bs with
    | nil => exact (List.cons.inj hright).2
    | cons x xs =>
      have hcontra := hgt s (hmem (by rw [(List.cons.inj hright).2]; simp))
      rw [hself] at hcontra
      cases hcontra

/-- Leaves without slots are passed over. -/
theorem seekAhead_append {expired : ℕ → Bool → Bool} {skip : Bool} {empties right : List BinStub}
    (hempty : ∀ x ∈ empties, x.hasSlots = false) :
    seekAhead expired skip (empties ++ b :: right) =
      ((b.seekFrom expired skip 0).map b.seekHit).or (seekAhead expired skip right) := by
  have hnone : seekAhead expired skip empties = none :=
    List.findSome?_eq_none_iff.2 fun x hx => by
      rw [seekFrom_of_not_hasSlots (hempty x hx), Option.map_none]
  rw [seekAhead, List.findSome?_append, ← seekAhead, hnone, Option.none_or, List.findSome?_cons]
  cases b.seekFrom expired skip 0 with
  | none => rfl
  | some i => rfl

/-- **The hops end** at the first slot of the leaves behind the leaf of the anchor. -/
theorem firstLiveSlotAfterBin_eq {r : Σ h, TreeNode h} (hr : t.root = some r)
    (hwf : NodeWF t.config.keyComparator t.config.keyPrefixing r.1 none none r.2)
    (expired : ℕ → Bool → Bool) (skip : Bool) : ∀ {fuel : ℕ} {right left : List BinStub}
      {b : BinStub} {anchor : Key},
      LeafFocus t.config.keyComparator t.config.keyPrefixing anchor r.1 r.2 left b right →
        right.length < fuel →
          t.firstLiveSlotAfterBin expired skip fuel anchor =
            some (seekAhead expired skip right) := by
  intro fuel
  induction fuel with
  | zero => exact fun _ hfuel => absurd hfuel (Nat.not_lt_zero _)
  | succ fuel ih =>
    intro right left b anchor hfocus hfuel
    have hnext : t.getNextBin anchor = right.find? BinStub.hasSlots := by
      rw [Tree.getNextBin, Tree.getAdjacentBin, hr, Option.bind_some, hfocus.adjacent]
      rfl
    rw [Tree.firstLiveSlotAfterBin, hnext]
    cases hfind : right.find? BinStub.hasSlots with
    | none =>
      have hnone : seekAhead expired skip right = none :=
        List.findSome?_eq_none_iff.2 fun x hx => by
          rw [seekFrom_of_not_hasSlots (by simpa using List.find?_eq_none.1 hfind x hx),
            Option.map_none]
      rw [hnone]
    | some b' =>
      obtain ⟨hslots, empties, right', rfl, hempty⟩ := List.find?_eq_some_iff_append.1 hfind
      rw [seekAhead_append fun x hx => by simpa using hempty x hx]
      cases hseek : b'.seekFrom expired skip 0 with
      | some i => simp [hseek]
      | none =>
        -- every slot of the leaf is skipped: its last key leads to the leaves behind it
        obtain ⟨s, hs, hlast⟩ := exists_lastKey hslots
        obtain ⟨left'', b'', right'', hfocus'⟩ :=
          getAdjacentBin_focus (k := s.key) hwf inRange_none
        have heq : (left ++ b :: empties) ++ b' :: right' = left'' ++ b'' :: right'' := by
          rw [← hfocus'.leaves, hfocus.leaves]
          simp
        obtain rfl := leaves_split_unique heq hs hfocus'.left_lt hfocus'.right_gt
        have hlen : right''.length < fuel := by
          simp only [List.length_append, List.length_cons] at hfuel
          omega
        simp [hlast, hseek, ih hfocus' hlen]

/-! ### The least visible key -/

/-- The slots of a leaf that a seek does not pass over. -/
def BinStub.visible (expired : ℕ → Bool → Bool) (skip : Bool) (b : BinStub) : List SeekHit :=
  ((List.range b.slots.length).filter fun i => !b.slotIsSkippableForSeek expired skip i).map
    b.seekHit

/-- The slots of a tree that a seek does not pass over. -/
def Tree.visible (expired : ℕ → Bool → Bool) (skip : Bool) (t : Tree) : List SeekHit :=
  t.leaves.flatMap fun b => b.visible expired skip

variable {expired : ℕ → Bool → Bool} {skip : Bool}

theorem seekHit_key {i : ℕ} {s : BinSlot} (hs : b.fullSlots[i]? = some s) :
    (b.seekHit i).key = s.key := by
  obtain ⟨s₀, hs₀, rfl⟩ := Option.map_eq_some_iff.1 (List.getElem?_map.symm.trans hs)
  rw [BinStub.seekHit, BinStub.getFullKey, hs₀]
  rfl

/-- Every index of a leaf has a slot. -/
theorem exists_fullSlot {i : ℕ} (hi : i ∈ List.range b.slots.length) :
    ∃ s, b.fullSlots[i]? = some s :=
  ⟨_, List.getElem?_eq_getElem (by simpa [BinStub.fullSlots] using List.mem_range.1 hi)⟩

/-- The first visible slot of a leaf that is not below a key, from the index that parts the
leaf. -/
theorem visible_find? {cmp : Key → Key → Ordering} {idx : ℕ}
    (hparts : ∀ i s, b.fullSlots[i]? = some s → (cmp s.key k != .lt) = decide (idx ≤ i)) :
    (b.visible expired skip).find? (fun v => cmp v.key k != .lt) =
      (b.seekFrom expired skip idx).map b.seekHit := by
  rw [BinStub.visible, List.find?_map, List.find?_filter, BinStub.seekFrom]
  refine congrArg (Option.map b.seekHit) (List.find?_congr fun i hi => ?_)
  obtain ⟨s, hs⟩ := exists_fullSlot hi
  rw [Function.comp_apply, seekHit_key hs, hparts i s hs, Bool.decide_and, Bool.and_comm]
  simp

/-- A leaf below a key has no slot for a seek. -/
theorem visible_find?_of_lt {cmp : Key → Key → Ordering}
    (hlt : ∀ s ∈ b.fullSlots, cmp s.key k = .lt) :
    (b.visible expired skip).find? (fun v => cmp v.key k != .lt) = none := by
  refine List.find?_eq_none.2 fun v hv => ?_
  obtain ⟨i, hi, rfl⟩ := List.mem_map.1 hv
  obtain ⟨s, hs⟩ := exists_fullSlot (List.mem_of_mem_filter hi)
  simp [seekHit_key hs, hlt s (List.mem_of_getElem? hs)]

theorem visible_findSome?_of_gt {cmp : Key → Key → Ordering} {leaves : List BinStub}
    (hgt : ∀ s ∈ leaves.flatMap BinStub.fullSlots, cmp s.key k = .gt) :
    leaves.findSome? (fun b => (b.visible expired skip).find? fun v => cmp v.key k != .lt) =
      seekAhead expired skip leaves := by
  induction leaves with
  | nil => rfl
  | cons b leaves ih =>
    have hb : (b.visible expired skip).find? (fun v => cmp v.key k != .lt) =
        (b.seekFrom expired skip 0).map b.seekHit :=
      visible_find? fun i s hs => by
        simp [hgt s (List.mem_flatMap.2 ⟨b, List.mem_cons_self, List.mem_of_getElem? hs⟩)]
    rw [List.findSome?_cons, hb, ih fun s hs => hgt s (by simp_all), seekAhead, seekAhead,
      List.findSome?_cons]

theorem parts_append {cmp : Key → Key → Ordering} {pre post : List BinSlot} {i : ℕ} {s : BinSlot}
    (hpre : ∀ s ∈ pre, cmp s.key k = .lt) (hpost : ∀ s ∈ post, cmp s.key k ≠ .lt)
    (hs : (pre ++ post)[i]? = some s) : (cmp s.key k != .lt) = decide (pre.length ≤ i) := by
  rcases Nat.lt_or_ge i pre.length with hi | hi
  · rw [List.getElem?_append_left hi] at hs
    simp [hpre s (List.mem_of_getElem? hs), hi]
  · rw [List.getElem?_append_right hi] at hs
    simp [hpost s (List.mem_of_getElem? hs), hi]

theorem Located.parts {cmp : Key → Key → Ordering} [TransCmp cmp] {l : List BinSlot}
    {idx i : ℕ} {found : Bool} {s : BinSlot} (hl : Located cmp k l idx found)
    (hsorted : SortedBy cmp BinSlot.key l) (hs : l[i]? = some s) :
    (cmp s.key k != .lt) = decide (idx ≤ i) := by
  cases hl with
  | @hit pre post x hk =>
    obtain ⟨-, hpost, hpre⟩ := List.pairwise_append.1 hsorted
    refine parts_append (fun y hy => ?_) (fun y hy => ?_) hs
    · exact TransCmp.lt_of_lt_of_eq (hpre y hy x List.mem_cons_self) hk
    rcases List.mem_cons.1 hy with rfl | hy
    · rw [hk]
      exact Ordering.noConfusion
    · have hgt : cmp y.key x.key = .gt :=
        OrientedCmp.gt_of_lt (List.rel_of_pairwise_cons hpost hy)
      rw [TransCmp.gt_of_gt_of_eq hgt hk]
      exact Ordering.noConfusion
  | miss hpre hpost =>
    refine parts_append hpre (fun y hy => ?_) hs
    rw [hpost y hy]
    exact Ordering.noConfusion

/-- **The first visible slot at or after a key.** -/
theorem firstEntryAtOrAfterWithIndex_eq (ht : TreeWF t) (key : Key) {fuel : ℕ}
    (hfuel : t.leaves.length ≤ fuel) :
    t.firstEntryAtOrAfterWithIndex expired fuel key skip =
      some ((t.visible expired skip).find? fun v =>
        keyCmp t.config.keyComparator v.key key != .lt) := by
  cases hr : t.root with
  | none => simp [Tree.firstEntryAtOrAfterWithIndex, Tree.leafOf, Tree.visible, Tree.leaves, hr]
  | some r =>
    obtain ⟨left, b, right, hfocus⟩ := getAdjacentBin_focus (k := key) (ht.node r hr) inRange_none
    obtain ⟨a, z, hb⟩ := hfocus.leaf
    have hleaves : t.leaves = left ++ b :: right := by
      rw [Tree.leaves, hr, Option.map_some, Option.getD_some, hfocus.leaves]
    have hleft : left.findSome? (fun b => (b.visible expired skip).find? fun v =>
        keyCmp t.config.keyComparator v.key key != .lt) = none :=
      List.findSome?_eq_none_iff.2 fun x hx =>
        visible_find?_of_lt fun s hs => hfocus.left_lt s (List.mem_flatMap.2 ⟨x, hx, hs⟩)
    have hright : right.findSome? (fun b => (b.visible expired skip).find? fun v =>
        keyCmp t.config.keyComparator v.key key != .lt) = seekAhead expired skip right :=
      visible_findSome?_of_gt hfocus.right_gt
    have hleaf : (b.visible expired skip).find? (fun v =>
        keyCmp t.config.keyComparator v.key key != .lt) =
          (b.seekFrom expired skip (b.findEntry t.config.keyComparator key).1).map b.seekHit :=
      visible_find? fun i s hs => (BinStub.findEntry_located hb.wf key).parts hb.wf.sorted hs
    have hlen : right.length < fuel := by
      simp only [hleaves, List.length_append, List.length_cons] at hfuel
      omega
    have hreads : t.leafOf key = some b := by
      rw [Tree.leafOf, hr, Option.bind_some, hfocus.reads]
    rw [Tree.firstEntryAtOrAfterWithIndex, hreads, Tree.visible, hleaves, List.find?_flatMap,
      List.findSome?_append, hleft, List.findSome?_cons, hleaf, hright]
    simp only [firstLiveSlotAfterBin_eq hr (ht.node r hr) expired skip hfocus hlen]
    cases b.seekFrom expired skip (b.findEntry t.config.keyComparator key).1 <;> rfl

/-- The visible keys of a leaf are among its keys, in their order. -/
theorem visible_keys_sublist (b : BinStub) :
    ((b.visible expired skip).map SeekHit.key).Sublist (b.fullSlots.map BinSlot.key) := by
  have hkeys : b.fullSlots.map BinSlot.key =
      (List.range b.slots.length).map fun i => (b.seekHit i).key := by
    refine List.ext_getElem (by simp [BinStub.fullSlots]) fun i hi _ => ?_
    rw [List.getElem_map, List.getElem_map, List.getElem_range]
    exact (seekHit_key (List.getElem?_eq_getElem (by simpa using hi))).symm
  rw [hkeys, BinStub.visible, List.map_map]
  exact (List.filter_sublist).map _

theorem visible_sorted (ht : TreeWF t) (expired : ℕ → Bool → Bool) (skip : Bool) :
    SortedBy (keyCmp t.config.keyComparator) SeekHit.key (t.visible expired skip) := by
  have hsub : ∀ leaves : List BinStub,
      ((leaves.flatMap fun b => b.visible expired skip).map SeekHit.key).Sublist
        ((leaves.flatMap BinStub.fullSlots).map BinSlot.key) := by
    intro leaves
    induction leaves with
    | nil => exact List.Sublist.slnil
    | cons b leaves ih =>
      simp only [List.flatMap_cons, List.map_append]
      exact (visible_keys_sublist b).append ih
  have hsorted : (t.slots.map BinSlot.key).Pairwise fun a b =>
      keyCmp t.config.keyComparator a b = .lt := List.pairwise_map.2 ht.sorted
  rw [Tree.slots_eq_leaves] at hsorted
  exact List.pairwise_map.1 (hsorted.sublist (hsub t.leaves))

/-! ### Every reached tree -/

/-- A write, a maintenance call, a new expiration time, or a step of the redo. -/
inductive TreeCall where
  | event (e : TreeEvent)
  | updateKeyExpiration (resident : ℕ → Bool) (key : Key) (expiration : ℕ)
  | redoInsert (key : Key) (data : List UInt8) (lsn : Lsn)
  | redoAdvanceDeletedSlotLsn (key : Key) (delLsn : Lsn)

/-- One call. -/
def Tree.call (t : Tree) : TreeCall → Option Tree
  | .event e => t.step e
  | .updateKeyExpiration resident key expiration =>
    some (t.updateKeyExpiration resident key expiration).1
  | .redoInsert key data lsn => (t.redoInsert key data lsn).map Prod.fst
  | .redoAdvanceDeletedSlotLsn key delLsn => some (t.redoAdvanceDeletedSlotLsn key delLsn).1

/-- The condition on a call is the one on maintenance. -/
def TreeCall.safe (t : Tree) : TreeCall → Bool
  | .event e => e.safe t
  | _ => true

/-- **One call** keeps a tree well formed. -/
theorem TreeWF.call {config : TreeConfig} {t' : Tree} (hconfig : config.Sound)
    {x : TreeCall} (h : TreeWF t ∧ t.config = config) (hsafe : x.safe t = true)
    (hs : t.call x = some t') : TreeWF t' ∧ t'.config = config := by
  obtain ⟨ht, hc⟩ := h
  cases x with
  | event e =>
    cases e with
    | maintain x =>
      obtain rfl := Option.some.inj hs
      have hm := Tree.maintain_spec ht hsafe
      exact ⟨hm.wf, hm.config.trans hc⟩
    | write op =>
      cases op with
      | insert isLocked key data lsn =>
        obtain ⟨t₁, flag, l, heq, hins⟩ :=
          Tree.insert_spec ht (hc ▸ hconfig.room) isLocked key data lsn
        have hs' : (t.insert isLocked key data lsn).map Prod.fst = some t' := hs
        rw [heq] at hs'
        obtain rfl := Option.some.inj hs'
        exact ⟨hins.wf, hins.config.trans hc⟩
      | delete key =>
        obtain rfl := Option.some.inj hs
        obtain ⟨hed, -⟩ := Tree.delete_spec ht key
        exact ⟨hed.wf, hed.config.trans hc⟩
      | markDeleted key delLsn pending =>
        obtain rfl := Option.some.inj hs
        obtain ⟨hed, -⟩ := Tree.markDeleted_spec ht key delLsn pending
        exact ⟨hed.wf, hed.config.trans hc⟩
  | updateKeyExpiration resident key expiration =>
    obtain rfl := Option.some.inj hs
    have hed := Tree.updateKeyExpiration_spec ht resident key expiration
    exact ⟨hed.wf, hed.config.trans hc⟩
  | redoInsert key data lsn =>
    obtain ⟨t₁, flag, heq, hed⟩ := Tree.redoInsert_spec ht (hc ▸ hconfig.room) key data lsn
    have hs' : (t.redoInsert key data lsn).map Prod.fst = some t' := hs
    rw [heq] at hs'
    obtain rfl := Option.some.inj hs'
    exact ⟨hed.wf, hed.config.trans hc⟩
  | redoAdvanceDeletedSlotLsn key delLsn =>
    obtain rfl := Option.some.inj hs
    have hed := Tree.redoAdvanceDeletedSlotLsn_spec ht key delLsn
    exact ⟨hed.wf, hed.config.trans hc⟩

/-- **The least key at or after**: in every reached tree a seek ends, and returns the visible slot
with the least key that is not below the sought one, or nothing exactly if there is none. -/
theorem seek_least_in_every_run (config : TreeConfig) (hconfig : config.Sound)
    (calls : List TreeCall) (t : Tree)
    (hok : Meets Tree.call (fun t x => x.safe t = true) (Tree.new config) calls)
    (hrun : run Tree.call (Tree.new config) calls = some t) (expired : ℕ → Bool → Bool)
    (key : Key) (skipPendingDeleted : Bool) :
    ∃ n result, (∀ fuel, n ≤ fuel →
        t.firstEntryAtOrAfterWithIndex expired fuel key skipPendingDeleted = some result) ∧
      (result = none ↔ ∀ v ∈ t.visible expired skipPendingDeleted,
        keyCmp config.keyComparator v.key key = .lt) ∧
      ∀ hit, result = some hit →
        hit ∈ t.visible expired skipPendingDeleted ∧
        keyCmp config.keyComparator hit.key key ≠ .lt ∧
        ∀ v ∈ t.visible expired skipPendingDeleted, keyCmp config.keyComparator v.key key ≠ .lt →
          v = hit ∨ keyCmp config.keyComparator hit.key v.key = .lt := by
  obtain ⟨ht, rfl⟩ := run_invariant (fun _ _ _ h hsafe hs => TreeWF.call hconfig h hsafe hs)
    ⟨hconfig.treeWF_new, rfl⟩ hok hrun
  refine ⟨t.leaves.length, _, fun fuel hfuel => firstEntryAtOrAfterWithIndex_eq ht key hfuel,
    ?_, fun hit hhit => ?_⟩
  · simp [List.find?_eq_none]
  · obtain ⟨hge, pre, post, hsplit, hpre⟩ := List.find?_eq_some_iff_append.1 hhit
    have hsorted := visible_sorted ht expired skipPendingDeleted
    rw [hsplit] at hsorted
    refine ⟨List.mem_of_find?_eq_some hhit, by simpa using hge, fun v hv hvge => ?_⟩
    rw [hsplit] at hv
    rcases List.mem_append.1 hv with hv | hv
    · exact absurd (by simpa using hpre v hv) hvge
    · rcases List.mem_cons.1 hv with rfl | hv
      · exact .inl rfl
      · exact .inr (List.rel_of_pairwise_cons (List.pairwise_append.1 hsorted).2.1 hv)

/-- Behind an emptied leaf comes one with deleted and expired slots only. -/
def deadLeaves : List TreeCall :=
  prunedSlotZero.map .event ++
    [.event (.write (.delete [4])), .event (.write (.delete [6])), .event (.write (.delete [8])),
      .event (.write (.markDeleted [16] 1 true)), .event (.write (.markDeleted [18] 2 false)),
      .updateKeyExpiration (fun _ => true) [20] 5]

/-- A seek passes over both, to the key 22. -/
theorem seek_over_dead_leaves :
    ∃ t n hit, run Tree.call (Tree.new nodesOfFour) deadLeaves = some t ∧
      (∀ fuel, n ≤ fuel → t.firstEntryAtOrAfterWithIndex (fun time _ => decide (time ≤ 6)) fuel [3]
        true = some (some hit)) ∧ hit.key = [22] := by
  have hok : Meets Tree.call (fun t x => x.safe t = true) (Tree.new nodesOfFour) deadLeaves := by
    decide +kernel
  obtain ⟨t, hrun, hkeys⟩ := exists_run_of_any
    (P := fun t : Tree => (t.visible (fun time _ => decide (time ≤ 6)) true).map SeekHit.key =
      [[0], [2], [22], [24], [26]])
    (show (run Tree.call (Tree.new nodesOfFour) deadLeaves).any _ = true by decide +kernel)
  obtain ⟨n, result, hfuel, hnone, hleast⟩ :=
    seek_least_in_every_run nodesOfFour ⟨by decide, by decide⟩ deadLeaves t hok hrun
      (fun time _ => decide (time ≤ 6)) [3] true
  have hmem : [22] ∈ (t.visible (fun time _ => decide (time ≤ 6)) true).map SeekHit.key := by
    rw [hkeys]
    decide
  obtain ⟨v, hv, hkey⟩ := List.mem_map.1 hmem
  have hge : keyCmp nodesOfFour.keyComparator v.key [3] ≠ .lt := by
    rw [hkey]
    decide
  cases result with
  | none => exact absurd (hnone.1 rfl v hv) hge
  | some hit =>
    obtain ⟨hhit, hhitge, hle⟩ := hleast hit rfl
    refine ⟨t, n, hit, hrun, hfuel, ?_⟩
    rcases hle v hv hge with rfl | hlt
    · exact hkey
    · have hin := List.mem_map_of_mem (f := SeekHit.key) hhit
      rw [hkeys] at hin
      rw [hkey] at hlt
      revert hin hhitge hlt
      generalize hit.key = k
      simp only [List.mem_cons, List.not_mem_nil, or_false]
      rintro hhitge hlt (rfl | rfl | rfl | rfl | rfl)
      · exact absurd rfl hhitge
      · exact absurd rfl hhitge
      · rfl
      · exact absurd hlt (by decide)
      · exact absurd hlt (by decide)

/-- **A seek that goes backwards**: after the merge that misplaces a separator the leaf behind
the one of 12 starts at 11. -/
theorem seek_below_key :
    ∃ t, run Tree.call (Tree.new nodesOfFour)
        (prunedSlotZero.map .event ++ [.event (.write (.insert none [11] [9] 0)),
          .event (.maintain (.compress fun _ => true))]) = some t ∧
      (t.firstEntryAtOrAfterWithIndex (fun _ _ => false) 5 [12] true).bind
        (Option.map SeekHit.key) = some [11] :=
  exists_run_of_any
    (P := fun t : Tree => (t.firstEntryAtOrAfterWithIndex (fun _ _ => false) 5 [12] true).bind
      (Option.map SeekHit.key) = some [11])
    (by decide +kernel)

end Noxu
