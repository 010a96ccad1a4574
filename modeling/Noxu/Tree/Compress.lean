import Noxu.Tree.Contents

/-!
# Compressing a Tree

The compressor of the source merges neighbouring children that fit into one node, drains the
deleted slots of a leaf and takes empty leaves out of the tree. The key of slot 0 of an upper
node takes no part in routing, until a merge puts that slot behind the slots of the left
neighbour: from then on the key is a separator.

A merge of two upper nodes is right if the key in slot 0 of the right one separates the two
halves. It does as long as it is the separator the node has in its parent; once slot 0 was
pruned it is a later key, and then the leaf that is first now must have nothing below it.

## Main results

* `compressNode_spec`: merging keeps the ranges and the slots of a node whose upper children
  are aligned with their separators;
* `pruneAt_spec`, `modifyBinAt_spec`: pruning an empty leaf and editing one.
-/

open Std Noxu.Library

namespace Noxu

variable {c : Option KeyComparator} {kp : Bool} {h : ℕ} {lo hi : Option Key} {k : Key}

/-! ### Merging neighbours -/

/-- Put the slots of a leaf in front of those of its right neighbour. -/
def BinStub.mergeLeft (left right : BinStub) : BinStub :=
  let merged : BinStub :=
    { right with
      keyPrefix := []
      keyWidth := none
      slots := left.fullSlots ++ right.fullSlots
      dirty := true
      prohibitNextDelta := true }
  if 2 ≤ merged.slots.length then merged.recomputeKeyPrefix else merged.compactKeys

/-- Put the slots of a node in front of those of its right neighbour. -/
def TreeNode.mergeLeft : (h : ℕ) → TreeNode h → TreeNode h → TreeNode h
  | 0, left, right => BinStub.mergeLeft left right
  | h + 1, left, right =>
    let left : InNodeStub (TreeNode h) := left
    let right : InNodeStub (TreeNode h) := right
    ({ right with entries := left.entries ++ right.entries, dirty := true } :
      InNodeStub (TreeNode h))

/-- Both children are in memory, and their slots fit into one node. -/
def mergeable (resident : ℕ → Bool) (maxEntries : ℕ) (l r : InEntry (TreeNode h)) : Bool :=
  resident (l.child.nodeId h) && resident (r.child.nodeId h) &&
    decide (l.child.nEntries h + r.child.nEntries h ≤ maxEntries)

/-- One pass over the slots: two neighbours that fit become one child under the key of the left
slot, and the pass goes on behind it. Reports whether it merged. -/
def mergePass (resident : ℕ → Bool) (maxEntries : ℕ) :
    List (InEntry (TreeNode h)) → List (InEntry (TreeNode h)) × Bool
  | l :: r :: rest =>
    if mergeable resident maxEntries l r then
      ({ l with child := l.child.mergeLeft h r.child } ::
        (mergePass resident maxEntries rest).1, true)
    else
      let p := mergePass resident maxEntries (r :: rest)
      (l :: p.1, p.2)
  | es => (es, false)

/-- Pass after pass, until one merges nothing. -/
def mergeLoop (resident : ℕ → Bool) (maxEntries : ℕ) :
    ℕ → List (InEntry (TreeNode h)) → List (InEntry (TreeNode h)) × Bool
  | 0, es => (es, false)
  | fuel + 1, es =>
    let p := mergePass resident maxEntries es
    if p.2 then ((mergeLoop resident maxEntries fuel p.1).1, true) else (es, false)

/-- Compress the children, then merge neighbours among them. -/
def compressNode (resident : ℕ → Bool) (maxEntries : ℕ) : (h : ℕ) → TreeNode h → TreeNode h
  | 0, b => b
  | h + 1, n =>
    let n : InNodeStub (TreeNode h) := n
    let entries := n.entries.map fun e =>
      if resident (e.child.nodeId h) then
        { e with child := compressNode resident maxEntries h e.child }
      else e
    -- every merging pass shortens the list, so its length bounds the passes
    let p := mergeLoop resident maxEntries entries.length entries
    ({ n with entries := p.1, dirty := n.dirty || p.2 } : InNodeStub (TreeNode h))

/-- Merge neighbours in the whole tree. -/
def Tree.compress (t : Tree) (resident : ℕ → Bool) : Tree :=
  { t with
    root := t.root.map fun r =>
      ⟨r.1, compressNode resident t.config.maxEntriesPerNode r.1 r.2⟩ }

/-! ### Leaves by their place -/

/-- The leaf at a path of slot indices. -/
def binAt : (h : ℕ) → TreeNode h → List ℕ → Option BinStub
  | 0, b, [] => some b
  | h + 1, n, i :: path => (InNodeStub.entries n)[i]?.bind fun e => binAt h e.child path
  | _, _, _ => none

/-- Edit the leaf at a path. -/
def modifyBinAt (f : BinStub → BinStub) : (h : ℕ) → TreeNode h → List ℕ → TreeNode h
  | 0, b, [] => f b
  | h + 1, n, i :: path =>
    let n : InNodeStub (TreeNode h) := n
    ({ n with
      entries := n.entries.modify i fun e =>
        { e with child := modifyBinAt f h e.child path } } : InNodeStub (TreeNode h))
  | _, n, _ => n

/-- The path the descent for a key takes, through children in memory. -/
def pathTo (resident : ℕ → Bool) (cmp : Key → Key → Ordering) (key : Key) :
    (h : ℕ) → TreeNode h → Option (List ℕ)
  | 0, _ => some []
  | h + 1, n =>
    let n : InNodeStub (TreeNode h) := n
    let idx := upperInFloorIndex cmp (n.entries.map InEntry.key) key
    (n.getChild resident idx).bind fun child =>
      (pathTo resident cmp key h child).map (idx :: ·)

/-- The path to a node: the children of a node are looked at before those of its children. -/
def findParentOfNodeId (resident : ℕ → Bool) (targetId : ℕ) :
    (h : ℕ) → TreeNode h → Option (List ℕ)
  | 0, _ => none
  | h + 1, n =>
    let n : InNodeStub (TreeNode h) := n
    match n.entries.findIdx? fun e =>
        resident (e.child.nodeId h) && e.child.nodeId h == targetId with
    | some i => some [i]
    | none =>
      (List.range n.entries.length).findSome? fun i =>
        (n.getChild resident i).bind fun child =>
          (findParentOfNodeId resident targetId h child).map (i :: ·)

/-- Take the leaf at a path out of its parent, if it is empty, no delta and under no cursor, and
is not the last child. -/
def pruneAt (resident : ℕ → Bool) : (h : ℕ) → TreeNode h → List ℕ → Option (TreeNode h)
  | 1, n, [i] =>
    let n : InNodeStub (TreeNode 0) := n
    (n.getChild resident i).bind fun b =>
      let b : BinStub := b
      if b.slots ≠ [] ∨ b.isDelta = true ∨ 0 < b.cursorCount ∨ n.entries.length ≤ 1 then none
      else
        some ({ n with entries := n.entries.eraseIdx i, dirty := true } :
          InNodeStub (TreeNode 0))
  | h + 2, n, i :: path =>
    let n : InNodeStub (TreeNode (h + 1)) := n
    (n.getChild resident i).bind fun child =>
      (pruneAt resident (h + 1) child path).map fun child => n.setChild i child
  | _, _, _ => none

namespace Tree

/-- Prune the empty leaf at the path that is found; reports whether it went. -/
def pruneWhere (t : Tree) (resident : ℕ → Bool)
    (find : (h : ℕ) → TreeNode h → Option (List ℕ)) : Tree × Bool :=
  match t.root.bind fun r =>
      (find r.1 r.2).bind fun path => (pruneAt resident r.1 r.2 path).map (Sigma.mk r.1) with
  | some r => ({ t with root := some r }, true)
  | none => (t, false)

/-- Prune the leaf that a key is routed to. -/
def pruneEmptyBin (t : Tree) (resident : ℕ → Bool) (idKey : Key) : Tree × Bool :=
  t.pruneWhere resident (pathTo resident (keyCmp t.config.keyComparator) idKey)

/-- Prune the leaf of an identifier. -/
def pruneEmptyBinById (t : Tree) (resident : ℕ → Bool) (binNodeId : ℕ) : Tree × Bool :=
  t.pruneWhere resident (findParentOfNodeId resident binNodeId)

/-- Drain the leaf at a path; nothing is done for a node that is no leaf. -/
def drainBin (t : Tree) (path : List ℕ) (isLocked : Option (Lsn → Bool)) : Tree :=
  match t.root with
  | none => t
  | some r =>
    match binAt r.1 r.2 path with
    | none => t
    | some b =>
      let b' := (b.drain t.config.keyPrefixing isLocked).1
      { t with root := some ⟨r.1, modifyBinAt (fun _ => b') r.1 r.2 path⟩ }

/-- Drain the leaf at a path, and prune it if it is empty then: by the key it had first, or by
its identifier if it had none. -/
def compressBin (t : Tree) (resident : ℕ → Bool) (path : List ℕ)
    (isLocked : Option (Lsn → Bool)) : Tree × Bool :=
  match t.root.bind fun r => binAt r.1 r.2 path with
  | none => (t, false)
  | some b =>
    if b.isDelta then (t, false)
    else
      let b' := b.drain t.config.keyPrefixing isLocked
      let t' := t.drainBin path isLocked
      if b'.1.slots = [] then
        match b.getFullKey 0 with
        | some key => ((t'.pruneEmptyBin resident key).1, true)
        | none => ((t'.pruneEmptyBinById resident b.nodeId).1, true)
      else (t', b'.2)

end Tree

/-! ### Ranges may grow -/

theorem LeafWF.widen_lo {a : Key} {b : BinStub} (ha : AtLeast (keyCmp c) lo a)
    (hb : LeafWF c kp (some a) hi b) : LeafWF c kp lo hi b :=
  ⟨hb.wf, hb.keyPrefixing, fun s hs => (hb.inRange s hs).widen_lo ha⟩

theorem LeafWF.widen_hi {a : Key} {b : BinStub} (ha : Below (keyCmp c) hi a)
    (hb : LeafWF c kp lo (some a) b) : LeafWF c kp lo hi b :=
  ⟨hb.wf, hb.keyPrefixing, fun s hs => (hb.inRange s hs).widen_hi ha⟩

/-- A node over a range is one over any range that starts earlier. -/
theorem NodeWF.widen_lo {a : Key} :
    ∀ {h : ℕ} {lo hi : Option Key} {n : TreeNode h}, AtLeast (keyCmp c) lo a →
      NodeWF c kp h (some a) hi n → NodeWF c kp h lo hi n
  | 0, _, _, _, ha, hn => LeafWF.widen_lo ha hn
  | _ + 1, _, _, _, ha, hn => Chain.widen_lo (fun _ _ he => he.widen_lo ha) ha hn

/-- A node over a range is one over any range that ends later. -/
theorem NodeWF.widen_hi {a : Key} :
    ∀ {h : ℕ} {lo hi : Option Key} {n : TreeNode h}, Below (keyCmp c) hi a →
      NodeWF c kp h lo (some a) n → NodeWF c kp h lo hi n
  | 0, _, _, _, ha, hn => LeafWF.widen_hi ha hn
  | _ + 1, _, _, _, ha, hn => Chain.widen_hi (fun _ _ he => he.widen_hi ha) ha hn

/-! ### Aligned separators -/

/-- The first key of the first leaf below a node. -/
def leftmostKey : (h : ℕ) → TreeNode h → Option Key
  | 0, b => (BinStub.fullSlots b).head?.map BinSlot.key
  | h + 1, n => (InNodeStub.entries n).head?.bind fun e => leftmostKey h e.child

/-- The key in slot 0 of an upper node. -/
def slotZeroKey : (h : ℕ) → TreeNode h → Option Key
  | 0, _ => none
  | _ + 1, n => (InNodeStub.entries n).head?.map InEntry.key

/-- The key in slot 0 of a child may become a separator: it is the separator of the child, or
above it and not above the first key of the child's first leaf. -/
def slotZeroOk (cmp : Key → Key → Ordering) (sep : Key) (h : ℕ) (n : TreeNode h) : Bool :=
  match slotZeroKey h n with
  | none => true
  | some key =>
    key == sep || (cmp sep key == .lt && (leftmostKey h n).any fun k => (cmp key k).isLE)

/-- The children of every node, the first one apart, may be merged into their left
neighbours. -/
def aligned (cmp : Key → Key → Ordering) : (h : ℕ) → TreeNode h → Bool
  | 0, _ => true
  | h + 1, n =>
    (InNodeStub.entries n).all (fun e => aligned cmp h e.child) &&
      (InNodeStub.entries n).tail.all fun e => slotZeroOk cmp e.key h e.child

/-- The first leaf may keep its first key only in a range that starts at or below it. -/
theorem NodeWF.leftmost_inRange :
    ∀ {h : ℕ} {lo hi : Option Key} {n : TreeNode h}, NodeWF c kp h lo hi n →
      leftmostKey h n = some k → InRange (keyCmp c) lo hi k
  | 0, _, _, n, hn, hk => by
    obtain ⟨s, hs, rfl⟩ := Option.map_eq_some_iff.1 hk
    exact hn.inRange s (List.mem_of_head? hs)
  | h + 1, lo, hi, n, hn, hk => by
    obtain ⟨e, he, hke⟩ := Option.bind_eq_some_iff.1 hk
    obtain ⟨es, hes⟩ := List.head?_eq_some_iff.1 he
    simp only [NodeWF, hes] at hn
    cases es with
    | nil => exact NodeWF.leftmost_inRange hn hke
    | cons y ys => exact (NodeWF.leftmost_inRange hn.1 hke).widen_hi hn.2.1.below

/-- **Raising the lower bound** to a key that the first leaf does not go below. -/
theorem NodeWF.raise_lo {a r : Key} (har : keyCmp c a r = .lt) :
    ∀ {h : ℕ} {hi : Option Key} {n : TreeNode h}, NodeWF c kp h (some a) hi n →
      leftmostKey h n = some k → (keyCmp c r k).isLE = true → NodeWF c kp h (some r) hi n
  | 0, _, n, hn, hk, hr => by
    obtain ⟨s₀, hs₀, rfl⟩ := Option.map_eq_some_iff.1 hk
    obtain ⟨rest, hrest⟩ := List.head?_eq_some_iff.1 hs₀
    refine ⟨hn.wf, hn.keyPrefixing, fun s hs => ⟨?_, (hn.inRange s hs).below⟩⟩
    rw [atLeast_some]
    have hsorted := hn.wf.sorted
    rw [hrest] at hs hsorted
    rcases List.mem_cons.1 hs with rfl | hs
    · exact hr
    · exact TransCmp.isLE_trans hr (by simp [(List.pairwise_cons.1 hsorted).1 s hs])
  | h + 1, hi, n, hn, hk, hr => by
    obtain ⟨e, he, hke⟩ := Option.bind_eq_some_iff.1 hk
    obtain ⟨es, hes⟩ := List.head?_eq_some_iff.1 he
    simp only [NodeWF, hes] at hn ⊢
    cases es with
    | nil => exact NodeWF.raise_lo har hn hke hr
    | cons y ys =>
      have hky : keyCmp c k y.key = .lt := by
        simpa using (NodeWF.leftmost_inRange hn.1 hke).below
      refine ⟨NodeWF.raise_lo har hn.1 hke hr, ⟨?_, hn.2.1.below⟩, hn.2.2⟩
      rw [above_some]
      exact TransCmp.lt_of_isLE_of_lt hr hky

/-! ### Merging -/

/-- **Merging leaves.** -/
theorem LeafWF.mergeLeft {sep : Key} {left right : BinStub}
    (hl : LeafWF c kp lo (some sep) left) (hsep : Between (keyCmp c) lo hi sep)
    (hr : LeafWF c kp (some sep) hi right) : LeafWF c kp lo hi (left.mergeLeft right) := by
  have hsorted : SortedBy (keyCmp c) BinSlot.key (left.fullSlots ++ right.fullSlots) := by
    refine List.pairwise_append.2 ⟨hl.wf.sorted, hr.wf.sorted, fun a ha b hb => ?_⟩
    exact TransCmp.lt_of_lt_of_isLE (by simpa using (hl.inRange a ha).below)
      (by simpa using (hr.inRange b hb).atLeast)
  have hrange : ∀ s ∈ left.fullSlots ++ right.fullSlots, InRange (keyCmp c) lo hi s.key := by
    intro s hs
    rcases List.mem_append.1 hs with hs | hs
    · exact (hl.inRange s hs).widen_hi hsep.below
    · exact (hr.inRange s hs).widen_lo hsep.above.atLeast
  have hmerged : LeafWF c kp lo hi
      { right with
        keyPrefix := []
        keyWidth := none
        slots := left.fullSlots ++ right.fullSlots
        dirty := true
        prohibitNextDelta := true } :=
    .of_fullSlots (BinStub.fullSlots_of_nil rfl) hsorted hrange hr.keyPrefixing (fun _ => rfl)
      ⟨by simp, hr.wf.exact.limit⟩
  unfold BinStub.mergeLeft
  dsimp only
  split
  · exact hmerged.recomputeKeyPrefix
  · exact hmerged.compactKeys.1

/-- The slots of a merged leaf; the right leaf's limit decides how they are packed. -/
theorem fullSlots_mergeLeft (left : BinStub) {right : BinStub} (hr : right.KeysExact) :
    (left.mergeLeft right).fullSlots = left.fullSlots ++ right.fullSlots := by
  -- Whole keys and no width to fit: either way of packing them afresh keeps every key.
  have hpacked : ∀ b : BinStub, b.keyPrefix = [] → b.keyWidth = none →
      b.compactMaxKeyLength = right.compactMaxKeyLength →
        b.recomputeKeyPrefix.fullSlots = b.slots ∧ b.compactKeys.fullSlots = b.slots := by
    intro b hp hw hlimit
    have hexact : b.KeysExact := ⟨by simp [hw], hlimit ▸ hr.limit⟩
    exact ⟨(BinStub.fullSlots_recomputeKeyPrefix hexact).trans (BinStub.fullSlots_of_nil hp),
      hexact.fullSlots_compactKeys.trans (BinStub.fullSlots_of_nil hp)⟩
  unfold BinStub.mergeLeft
  dsimp only
  split
  · refine (hpacked _ ?_ ?_ ?_).1 <;> rfl
  · refine (hpacked _ ?_ ?_ ?_).2 <;> rfl

theorem allSlots_mergeLeft : ∀ {h : ℕ} (left : TreeNode h) {right : TreeNode h},
    NodeWF c kp h lo hi right →
      (left.mergeLeft h right).allSlots h = left.allSlots h ++ right.allSlots h
  | 0, left, _, hr => fullSlots_mergeLeft left (LeafWF.wf hr).exact
  | _ + 1, _, _, _ => List.flatMap_append

theorem nEntries_mergeLeft : ∀ {h : ℕ} (left : TreeNode h) {right : TreeNode h},
    NodeWF c kp h lo hi right →
      (left.mergeLeft h right).nEntries h = left.nEntries h + right.nEntries h
  | 0, (left : BinStub), (right : BinStub), hr => by
    have hlen := congrArg List.length (fullSlots_mergeLeft left (LeafWF.wf hr).exact)
    rwa [List.length_append, BinStub.length_fullSlots, BinStub.length_fullSlots,
      BinStub.length_fullSlots] at hlen
  | _ + 1, _, _, _ => List.length_append

/-- **Merging neighbours**: the ranges of the two halves meet at the key in slot 0 of the right
one, which its alignment allows. -/
theorem NodeWF.mergeLeft {sep : Key} : ∀ {h : ℕ} {left right : TreeNode h},
    NodeWF c kp h lo (some sep) left → Between (keyCmp c) lo hi sep →
      NodeWF c kp h (some sep) hi right → slotZeroOk (keyCmp c) sep h right = true →
        NodeWF c kp h lo hi (left.mergeLeft h right)
  | 0, _, _, hl, hsep, hr, _ => LeafWF.mergeLeft hl hsep hr
  | h + 1, left, right, hl, hsep, hr, hok => by
    have hne : (InNodeStub.entries right) ≠ [] := Chain.ne_nil hr
    obtain ⟨e, es, hes⟩ := List.exists_cons_of_ne_nil hne
    have hzero : slotZeroKey (h + 1) right = some e.key := by
      simp [slotZeroKey, hes]
    rw [slotZeroOk, hzero] at hok
    show Chain _ _ _ _ _ (InNodeStub.entries left ++ InNodeStub.entries right)
    rw [hes]
    refine (chain_append (Chain.ne_nil hl)).2 ?_
    rcases Bool.or_eq_true_iff.1 hok with heq | hlater
    · obtain rfl : e.key = sep := by simpa using heq
      exact ⟨hl, hsep, hes ▸ hr⟩
    · obtain ⟨hlt, hany⟩ := Bool.and_eq_true_iff.1 hlater
      have hlt' : keyCmp c sep e.key = .lt := by simpa using hlt
      cases hk : leftmostKey (h + 1) right with
      | none => simp [hk] at hany
      | some k =>
        have hle : (keyCmp c e.key k).isLE = true := by simpa [hk] using hany
        have hhi := (NodeWF.leftmost_inRange hr hk).below
        refine ⟨Chain.widen_hi (fun _ _ he => he.widen_hi ?_) ?_ hl,
          ⟨hsep.above.trans_le (by simp [hlt']), ?_⟩, ?_⟩
        · simpa using hlt'
        · simpa using hlt'
        · exact fun u hu => TransCmp.lt_of_isLE_of_lt hle (hhi u hu)
        · have hraised := NodeWF.raise_lo hlt' hr hk hle
          exact hes ▸ hraised

/-- What merging leaves of an entry: its key, the key in slot 0 of its child, and the first key
of the child's first leaf if there is one. -/
structure KeepsFront (e e' : InEntry (TreeNode h)) : Prop where
  key : e'.key = e.key
  slotZero : slotZeroKey h e'.child = slotZeroKey h e.child
  leftmost : ∀ k, leftmostKey h e.child = some k → leftmostKey h e'.child = some k

theorem KeepsFront.refl (e : InEntry (TreeNode h)) : KeepsFront e e := ⟨rfl, rfl, fun _ hk => hk⟩

theorem KeepsFront.trans {e e' e'' : InEntry (TreeNode h)} (h₁ : KeepsFront e e')
    (h₂ : KeepsFront e' e'') : KeepsFront e e'' :=
  ⟨h₂.key.trans h₁.key, h₂.slotZero.trans h₁.slotZero,
    fun k hk => h₂.leftmost k (h₁.leftmost k hk)⟩

theorem KeepsFront.slotZeroOk {cmp : Key → Key → Ordering} {e e' : InEntry (TreeNode h)}
    (hk : KeepsFront e e') (hok : Noxu.slotZeroOk cmp e.key h e.child = true) :
    Noxu.slotZeroOk cmp e'.key h e'.child = true := by
  unfold Noxu.slotZeroOk at hok ⊢
  rw [hk.slotZero, hk.key]
  cases hz : slotZeroKey h e.child with
  | none => rfl
  | some key =>
    rw [hz] at hok
    dsimp only at hok ⊢
    rcases Bool.or_eq_true_iff.1 hok with heq | hlater
    · rw [heq, Bool.true_or]
    · obtain ⟨hlt, hany⟩ := Bool.and_eq_true_iff.1 hlater
      cases hl : leftmostKey h e.child with
      | none => simp [hl] at hany
      | some k =>
        rw [hl] at hany
        rw [hk.leftmost k hl, hlt, hany, Bool.and_self, Bool.or_true]

theorem head?_mergeLeft {left right : BinStub} {s : BinSlot} (hr : right.KeysExact)
    (hs : left.fullSlots.head? = some s) : (left.mergeLeft right).fullSlots.head? = some s := by
  rw [fullSlots_mergeLeft left hr, List.head?_append, hs]
  rfl

theorem keepsFront_mergeLeft : ∀ {h : ℕ} {l r : InEntry (TreeNode h)},
    (∃ lo hi, NodeWF c kp h lo hi l.child) → NodeWF c kp h lo hi r.child →
      KeepsFront l { l with child := l.child.mergeLeft h r.child }
  | 0, l, r, _, hr => by
    refine ⟨rfl, rfl, fun k hk => ?_⟩
    obtain ⟨s, hs, rfl⟩ := Option.map_eq_some_iff.1 hk
    exact Option.map_eq_some_iff.2 ⟨s, head?_mergeLeft (LeafWF.wf hr).exact hs, rfl⟩
  | h + 1, l, r, ⟨lo, hi, hl⟩, _ => by
    have hhead : (InNodeStub.entries l.child ++ InNodeStub.entries r.child).head? =
        (InNodeStub.entries l.child).head? := List.head?_append_of_ne_nil _ (Chain.ne_nil hl)
    refine ⟨rfl, ?_, fun k hk => ?_⟩
    · exact congrArg (Option.map InEntry.key) hhead
    · exact (congrArg (fun o : Option (InEntry (TreeNode h)) =>
        o.bind fun e => leftmostKey h e.child) hhead).trans hk

/-- The entries of a well-formed node, each of a size, whose children may be merged. -/
structure EntriesOk (c : Option KeyComparator) (kp : Bool) (max : ℕ) (lo hi : Option Key)
    (es : List (InEntry (TreeNode h))) : Prop where
  chain : Chain (keyCmp c) InEntry.key (fun a b e => NodeWF c kp h a b e.child) lo hi es
  sized : ∀ e ∈ es, e.child.nEntries h ≤ max ∧ ChildrenSized max h e.child
  tail : ∀ e ∈ es.tail, slotZeroOk (keyCmp c) e.key h e.child = true

/-- What merging makes of the entries of a node. -/
structure MergedTo (c : Option KeyComparator) (kp : Bool) (max : ℕ) (lo hi : Option Key)
    (es es' : List (InEntry (TreeNode h))) : Prop where
  ok : EntriesOk c kp max lo hi es'
  slots : slotsBelow es' = slotsBelow es
  front : ∀ e ∈ es.head?, ∃ e' ∈ es'.head?, KeepsFront e e'
  length : es'.length ≤ es.length

section Merging

variable {max : ℕ} {es es' es'' : List (InEntry (TreeNode h))} {l r y : InEntry (TreeNode h)}
  {ys : List (InEntry (TreeNode h))} {resident : ℕ → Bool}

theorem MergedTo.refl (hes : EntriesOk c kp max lo hi es) : MergedTo c kp max lo hi es es :=
  ⟨hes, rfl, fun e he => ⟨e, he, .refl e⟩, le_rfl⟩

theorem MergedTo.trans (h₁ : MergedTo c kp max lo hi es es')
    (h₂ : MergedTo c kp max lo hi es' es'') : MergedTo c kp max lo hi es es'' := by
  refine ⟨h₂.ok, h₂.slots.trans h₁.slots, fun e he => ?_, h₂.length.trans h₁.length⟩
  obtain ⟨e', he', hk'⟩ := h₁.front e he
  obtain ⟨e'', he'', hk''⟩ := h₂.front e' he'
  exact ⟨e'', he'', hk'.trans hk''⟩

/-- An entry in front of merged ones. -/
theorem EntriesOk.cons (hl : NodeWF c kp h lo (some y.key) l.child)
    (hsize : l.child.nEntries h ≤ max ∧ ChildrenSized max h l.child)
    (hbetween : Between (keyCmp c) lo hi y.key)
    (hy : slotZeroOk (keyCmp c) y.key h y.child = true)
    (hm : MergedTo c kp max (some y.key) hi (y :: ys) es') :
    EntriesOk c kp max lo hi (l :: es') := by
  obtain ⟨y', hy', hfront⟩ := hm.front y rfl
  obtain ⟨ys', rfl⟩ := List.head?_eq_some_iff.1 hy'
  refine ⟨?_, List.forall_mem_cons.2 ⟨hsize, hm.ok.sized⟩, ?_⟩
  · have hchain := hm.ok.chain
    rw [← hfront.key] at hl hbetween hchain
    exact ⟨hl, hbetween, hchain⟩
  · exact List.forall_mem_cons.2 ⟨hfront.slotZeroOk hy, hm.ok.tail⟩

theorem childrenSized_mergeLeft : ∀ {h : ℕ} {left right : TreeNode h},
    ChildrenSized max h left → ChildrenSized max h right →
      ChildrenSized max h (left.mergeLeft h right)
  | 0, _, _, _, _ => trivial
  | _ + 1, _, _, hl, hr => fun e he => (List.mem_append.1 he).elim (hl e) (hr e)

theorem EntriesOk.rest (hes : EntriesOk c kp max lo hi (l :: y :: ys)) :
    EntriesOk c kp max (some y.key) hi (y :: ys) :=
  ⟨hes.chain.2.2, fun e he => hes.sized e (List.mem_cons_of_mem _ he),
    fun e he => hes.tail e (List.mem_cons_of_mem _ he)⟩

/-- **One pass of merges.** -/
theorem mergePass_spec (resident : ℕ → Bool) (es : List (InEntry (TreeNode h))) :
    ∀ lo, EntriesOk c kp max lo hi es →
      MergedTo c kp max lo hi es (mergePass resident max es).1 := by
  fun_induction mergePass resident max es with
  | case1 l r rest hfit ih =>
    intro lo hes
    have hok := hes.tail r (List.mem_cons_self ..)
    obtain ⟨hl, hbetween, hright⟩ := hes.chain
    obtain ⟨-, hsum⟩ := Bool.and_eq_true_iff.1 hfit
    obtain ⟨_, _, hr⟩ := hes.chain.exists_of_mem r (by simp)
    have hsize : (l.child.mergeLeft h r.child).nEntries h ≤ max ∧
        ChildrenSized max h (l.child.mergeLeft h r.child) := by
      rw [nEntries_mergeLeft _ hr]
      exact ⟨of_decide_eq_true hsum, childrenSized_mergeLeft (hes.sized l (by simp)).2
        (hes.sized r (by simp)).2⟩
    have hfront : ∀ e ∈ (l :: r :: rest).head?, ∃ e' ∈ ({ l with
        child := l.child.mergeLeft h r.child } :: (mergePass resident max rest).1).head?,
        KeepsFront e e' := by
      rintro e he
      obtain rfl := Option.some.inj he
      exact ⟨_, rfl, keepsFront_mergeLeft ⟨_, _, hl⟩ hr⟩
    cases rest with
    | nil =>
      refine ⟨⟨hl.mergeLeft hbetween hright hok, ?_, by simp [mergePass]⟩, ?_, hfront, ?_⟩
      · simpa [mergePass] using hsize
      · simp [mergePass, allSlots_mergeLeft _ hr]
      · simp [mergePass]
    | cons y ys =>
      have hm := ih (some y.key) hes.rest.rest
      have hry : keyCmp c r.key y.key = .lt := by simpa using hright.2.1.above
      have hmerged : NodeWF c kp h lo (some y.key) (l.child.mergeLeft h r.child) :=
        hl.mergeLeft ⟨hbetween.above, by simpa using hry⟩ hright.1 hok
      have hly : Between (keyCmp c) lo hi y.key :=
        ⟨hbetween.above.trans_le (by simp [hry]), hright.2.1.below⟩
      refine ⟨.cons hmerged hsize hly (hes.tail y (by simp)) hm, ?_, hfront, ?_⟩
      · rw [slotsBelow_cons, hm.slots, allSlots_mergeLeft _ hr]
        simp
      · have hlen := hm.length
        simp only [List.length_cons] at hlen ⊢
        omega
  | case2 l r rest hfit p ih =>
    intro lo hes
    have hm := ih (some r.key) hes.rest
    refine ⟨.cons hes.chain.1 (hes.sized l (List.mem_cons_self ..)) hes.chain.2.1
      (hes.tail r (List.mem_cons_self ..)) hm, ?_, ?_, ?_⟩
    · rw [slotsBelow_cons, hm.slots, ← slotsBelow_cons]
    · rintro e he
      exact ⟨e, he, .refl e⟩
    · exact Nat.succ_le_succ hm.length
  | case3 es _ => exact fun lo hes => .refl hes

/-- **The loop of passes.** -/
theorem mergeLoop_spec (resident : ℕ → Bool) (fuel : ℕ) (hes : EntriesOk c kp max lo hi es) :
    MergedTo c kp max lo hi es (mergeLoop resident max fuel es).1 := by
  induction fuel generalizing es with
  | zero => exact .refl hes
  | succ fuel ih =>
    rw [mergeLoop]
    have hpass := mergePass_spec resident es lo hes
    split
    · exact hpass.trans (ih hpass.ok)
    · exact .refl hes

end Merging

/-- What compressing makes of a node. -/
structure Compressed (c : Option KeyComparator) (kp : Bool) (max h : ℕ) (lo hi : Option Key)
    (n n' : TreeNode h) : Prop where
  wf : NodeWF c kp h lo hi n'
  sized : ChildrenSized max h n'
  slots : n'.allSlots h = n.allSlots h
  nEntries_le : n'.nEntries h ≤ n.nEntries h
  slotZero : slotZeroKey h n' = slotZeroKey h n
  leftmost : ∀ k, leftmostKey h n = some k → leftmostKey h n' = some k

theorem Compressed.refl {max : ℕ} {n : TreeNode h} (hn : NodeWF c kp h lo hi n)
    (hsized : ChildrenSized max h n) : Compressed c kp max h lo hi n n :=
  ⟨hn, hsized, rfl, le_rfl, rfl, fun _ hk => hk⟩

/-- The entries of a node whose children are compressed. -/
theorem mergedTo_map {max : ℕ} {es : List (InEntry (TreeNode h))}
    {g : InEntry (TreeNode h) → InEntry (TreeNode h)} (hes : EntriesOk c kp max lo hi es)
    (hkey : ∀ e, (g e).key = e.key)
    (hg : ∀ e ∈ es, ∀ a z, NodeWF c kp h a z e.child →
      Compressed c kp max h a z e.child (g e).child) :
    MergedTo c kp max lo hi es (es.map g) := by
  have hcomp : ∀ e ∈ es, ∃ a z, Compressed c kp max h a z e.child (g e).child := by
    intro e he
    obtain ⟨a, z, hwf⟩ := hes.chain.exists_of_mem e he
    exact ⟨a, z, hg e he a z hwf⟩
  have hfront : ∀ e ∈ es, KeepsFront e (g e) := by
    intro e he
    obtain ⟨a, z, hc⟩ := hcomp e he
    exact ⟨hkey e, hc.slotZero, hc.leftmost⟩
  refine ⟨⟨hes.chain.map hkey fun a z e he hwf => (hg e he a z hwf).wf, ?_, ?_⟩, ?_, ?_, ?_⟩
  · intro e' he'
    obtain ⟨e, he, rfl⟩ := List.mem_map.1 he'
    obtain ⟨a, z, hc⟩ := hcomp e he
    exact ⟨hc.nEntries_le.trans (hes.sized e he).1, hc.sized⟩
  · intro e' he'
    rw [← List.map_tail] at he'
    obtain ⟨e, he, rfl⟩ := List.mem_map.1 he'
    exact (hfront e (List.mem_of_mem_tail he)).slotZeroOk (hes.tail e he)
  · rw [slotsBelow, slotsBelow, List.flatMap_map]
    refine List.flatMap_congr fun e he => ?_
    obtain ⟨a, z, hc⟩ := hcomp e he
    exact hc.slots
  · intro e he
    exact ⟨g e, by rw [List.head?_map, he]; rfl, hfront e (List.mem_of_head? he)⟩
  · rw [List.length_map]

theorem compressed_of_merged {max : ℕ} {n n' : InNodeStub (TreeNode h)}
    (hn : NodeWF c kp (h + 1) lo hi n) (hm : MergedTo c kp max lo hi n.entries n'.entries) :
    Compressed c kp max (h + 1) lo hi n n' := by
  obtain ⟨e, es, hcons⟩ := List.exists_cons_of_ne_nil (Chain.ne_nil hn)
  have hhead : (InNodeStub.entries n).head? = some e := by rw [hcons]; rfl
  obtain ⟨e', he', hfront⟩ := hm.front e hhead
  refine ⟨hm.ok.chain, hm.ok.sized, hm.slots, hm.length, ?_, fun k hk => ?_⟩
  · show n'.entries.head?.map InEntry.key = n.entries.head?.map InEntry.key
    rw [hhead, he', Option.map_some, Option.map_some, hfront.key]
  · have hke : (n.entries.head?.bind fun e => leftmostKey h e.child) = some k := hk
    show (n'.entries.head?.bind fun e => leftmostKey h e.child) = some k
    rw [hhead] at hke
    rw [he']
    exact hfront.leftmost k hke

/-- **Compressing a node** keeps its range and its slots, if the upper nodes below it are
aligned with their separators. -/
theorem compressNode_spec {max : ℕ} (resident : ℕ → Bool) :
    ∀ {h : ℕ} {lo hi : Option Key} {n : TreeNode h}, NodeWF c kp h lo hi n →
      ChildrenSized max h n → aligned (keyCmp c) h n = true →
        Compressed c kp max h lo hi n (compressNode resident max h n)
  | 0, _, _, _, hn, hsized, _ => .refl hn hsized
  | h + 1, lo, hi, n, hn, hsized, haligned => by
    obtain ⟨hbelow, htail⟩ := Bool.and_eq_true_iff.1 haligned
    have hes : EntriesOk c kp max lo hi (InNodeStub.entries n) :=
      ⟨hn, hsized, fun e he => List.all_eq_true.1 htail e he⟩
    have hmap : MergedTo c kp max lo hi (InNodeStub.entries n)
        ((InNodeStub.entries n).map fun e => if resident (e.child.nodeId h) then
          { e with child := compressNode resident max h e.child } else e) := by
      refine mergedTo_map hes (fun e => ?_) fun e he a z hwf => ?_
      · split <;> rfl
      · split
        · exact compressNode_spec resident hwf (hsized e he).2 (List.all_eq_true.1 hbelow e he)
        · exact .refl hwf (hsized e he).2
    exact compressed_of_merged hn (hmap.trans (mergeLoop_spec resident _ hmap.ok))

/-! ### Editing and pruning leaves -/

/-- What an edit of one leaf does to a node. -/
structure LeafEdited (c : Option KeyComparator) (kp : Bool) (max h : ℕ) (lo hi : Option Key)
    (n n' : TreeNode h) (before after : List BinSlot) : Prop where
  wf : NodeWF c kp h lo hi n'
  sized : ChildrenSized max h n'
  nEntries_le : n'.nEntries h ≤ n.nEntries h
  slots : ∃ left right, n.allSlots h = left ++ before ++ right ∧
    n'.allSlots h = left ++ after ++ right

theorem LeafEdited.up {max : ℕ} {n : InNodeStub (TreeNode h)}
    {pre post : List (InEntry (TreeNode h))} {e : InEntry (TreeNode h)} {m : TreeNode h}
    {before after : List BinSlot} (hn : NodeWF c kp (h + 1) lo hi n)
    (hsized : ChildrenSized max (h + 1) n) (hent : n.entries = pre ++ e :: post)
    (hedit : ∀ a z, NodeWF c kp h a z e.child →
      LeafEdited c kp max h a z e.child m before after) :
    LeafEdited c kp max (h + 1) lo hi n (n.setChild pre.length m) before after := by
  have hchain : Chain (keyCmp c) InEntry.key (fun a b e => NodeWF c kp h a b e.child) lo hi
      (pre ++ e :: post) := hent ▸ hn
  obtain ⟨a, z, hwf, hctx⟩ := hchain.focus
  have hm := hedit a z hwf
  have hset := setChild_append hent m
  obtain ⟨left, right, hbefore, hafter⟩ := hm.slots
  refine ⟨?_, ?_, ?_, slotsBelow pre ++ left, right ++ slotsBelow post, ?_, ?_⟩
  · show Chain _ _ _ _ _ (n.setChild pre.length m).entries
    rw [hset]
    exact hctx _ rfl hm.wf
  · intro x hx
    rw [hset] at hx
    have hmem : ∀ y ∈ pre ++ e :: post, y.child.nEntries h ≤ max ∧ ChildrenSized max h y.child :=
      fun y hy => hsized y (hent ▸ hy)
    rcases List.mem_append.1 hx with hx | hx
    · exact hmem x (by simp [hx])
    · rcases List.mem_cons.1 hx with rfl | hx
      · exact ⟨hm.nEntries_le.trans (hmem e (by simp)).1, hm.sized⟩
      · exact hmem x (by simp [hx])
  · show (n.setChild pre.length m).entries.length ≤ n.entries.length
    rw [hset, hent]
    simp
  · show slotsBelow n.entries = _
    rw [hent]
    simp [hbefore]
  · show slotsBelow (n.setChild pre.length m).entries = _
    rw [hset]
    simp [hafter]

theorem NodeWF.binAt {b : BinStub} {n : TreeNode h} {path : List ℕ} (hn : NodeWF c kp h lo hi n)
    (hb : Noxu.binAt h n path = some b) : ∃ a z, LeafWF c kp a z b := by
  induction h generalizing lo hi path with
  | zero =>
    cases path with
    | cons i path => cases hb
    | nil =>
      obtain rfl : n = b := Option.some.inj hb
      exact ⟨lo, hi, hn⟩
  | succ h ih =>
    cases path with
    | nil => cases hb
    | cons i path =>
      obtain ⟨e, he, hbe⟩ := Option.bind_eq_some_iff.1 hb
      obtain ⟨a, z, hwf⟩ := Chain.exists_of_mem hn e (List.mem_of_getElem? he)
      exact ih hwf hbe

/-- **Editing the leaf at a path.** -/
theorem modifyBinAt_spec {max : ℕ} {f : BinStub → BinStub} {b : BinStub}
    (hf : ∀ {a z}, LeafWF c kp a z b → LeafWF c kp a z (f b))
    (hlen : (f b).slots.length ≤ b.slots.length) {n : TreeNode h} {path : List ℕ}
    (hn : NodeWF c kp h lo hi n) (hsized : ChildrenSized max h n)
    (hb : binAt h n path = some b) :
    LeafEdited c kp max h lo hi n (modifyBinAt f h n path) b.fullSlots (f b).fullSlots := by
  induction h generalizing lo hi path with
  | zero =>
    cases path with
    | cons i path => cases hb
    | nil =>
      obtain rfl : n = b := Option.some.inj hb
      exact ⟨hf hn, trivial, hlen, [], [], (List.append_nil _).symm, (List.append_nil _).symm⟩
  | succ h ih =>
    cases path with
    | nil => cases hb
    | cons i path =>
      obtain ⟨e, he, hbe⟩ := Option.bind_eq_some_iff.1 hb
      obtain ⟨pre, post, hent, rfl⟩ := exists_cut_of_getElem? he
      have hmod : modifyBinAt f (h + 1) n (pre.length :: path) =
          InNodeStub.setChild n pre.length (modifyBinAt f h e.child path) := by
        have hentries : (InNodeStub.entries n).modify pre.length (fun x =>
              { x with child := modifyBinAt f h x.child path }) =
            (InNodeStub.entries n).modify pre.length fun x =>
              { x with child := modifyBinAt f h e.child path } := by
          rw [hent, modify_length_append, modify_length_append]
        exact congrArg (fun es => ({ n with entries := es } : InNodeStub (TreeNode h)))
          hentries
      rw [hmod]
      exact LeafEdited.up hn hsized hent fun a z hwf =>
        ih hwf (hsized e (List.mem_of_getElem? he)).2 hbe

theorem getChild_eq_some {resident : ℕ → Bool} {n : InNodeStub (TreeNode h)} {i : ℕ}
    {m : TreeNode h} (hm : n.getChild resident i = some m) :
    ∃ pre e post, n.entries = pre ++ e :: post ∧ pre.length = i ∧ e.child = m := by
  obtain ⟨hchild, -⟩ := Option.filter_eq_some_iff.1 hm
  obtain ⟨e, he, rfl⟩ := Option.map_eq_some_iff.1 hchild
  obtain ⟨pre, post, hent, hlen⟩ := exists_cut_of_getElem? he
  exact ⟨pre, e, post, hent, hlen, rfl⟩

/-- **Pruning an empty leaf** of its parent. -/
theorem pruneAt_parent {max : ℕ} {resident : ℕ → Bool} {n : InNodeStub (TreeNode 0)}
    {n' : TreeNode 1} {i : ℕ} (hn : NodeWF c kp 1 lo hi n) (hsized : ChildrenSized max 1 n)
    (hp : pruneAt resident 1 n [i] = some n') : LeafEdited c kp max 1 lo hi n n' [] [] := by
  obtain ⟨b, hchild, hcond⟩ := Option.bind_eq_some_iff.1 hp
  obtain ⟨hsafe, hsome⟩ := Option.ite_none_left_eq_some.1 hcond
  obtain rfl := Option.some.inj hsome
  simp only [not_or, ne_eq, not_not] at hsafe
  obtain ⟨hempty, -, -, hlast⟩ := hsafe
  obtain ⟨pre, e, post, hent, rfl, rfl⟩ := getChild_eq_some hchild
  have herase : n.entries.eraseIdx pre.length = pre ++ post := by
    rw [hent, eraseIdx_length_append]
  have hne : pre ++ post ≠ [] := by
    intro hnil
    have hlen := congrArg List.length hnil
    rw [hent] at hlast
    simp only [List.length_append, List.length_cons, List.length_nil] at hlast hlen
    omega
  have hslots : e.child.allSlots 0 = [] := by
    show BinStub.fullSlots e.child = []
    exact List.map_eq_nil_iff.2 hempty
  have hchain : Chain (keyCmp c) InEntry.key (fun a b e => NodeWF c kp 0 a b e.child) lo hi
      (pre ++ e :: post) := hent ▸ hn
  refine ⟨?_, ?_, ?_, slotsBelow pre, slotsBelow post, ?_, ?_⟩
  · show Chain _ _ _ _ _ (n.entries.eraseIdx pre.length)
    rw [herase]
    exact hchain.drop_entry (fun ha he => he.widen_lo ha) (fun hb he => he.widen_hi hb) hne
  · exact fun x hx => hsized x (List.mem_of_mem_eraseIdx hx)
  · exact List.length_eraseIdx_le _ _
  · show slotsBelow n.entries = _
    rw [hent]
    simp [hslots]
  · show slotsBelow (n.entries.eraseIdx pre.length) = _
    rw [herase]
    simp

/-- **Pruning the leaf at a path**: it was empty. -/
theorem pruneAt_spec {max : ℕ} {resident : ℕ → Bool} {n n' : TreeNode h} {path : List ℕ}
    (hn : NodeWF c kp h lo hi n) (hsized : ChildrenSized max h n)
    (hp : pruneAt resident h n path = some n') :
    LeafEdited c kp max h lo hi n n' [] [] := by
  induction h generalizing lo hi path with
  | zero => cases path <;> cases hp
  | succ h ih =>
    cases path with
    | nil => cases h <;> cases hp
    | cons i path =>
      cases h with
      | zero =>
        cases path with
        | nil => exact pruneAt_parent hn hsized hp
        | cons j path => cases hp
      | succ h =>
        obtain ⟨m, hm, hpm⟩ := Option.bind_eq_some_iff.1 hp
        obtain ⟨m', hm', rfl⟩ := Option.map_eq_some_iff.1 hpm
        obtain ⟨pre, e, post, hent, rfl, rfl⟩ := getChild_eq_some hm
        exact LeafEdited.up hn hsized hent fun a z hwf =>
          ih hwf (hsized e (by rw [hent]; simp)).2 hm'

end Noxu
