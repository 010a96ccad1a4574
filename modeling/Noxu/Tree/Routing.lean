import Noxu.Tree.BinSpec
import Noxu.Tree.Node

/-!
# The Tree Invariant and Routing

A node is well formed over a key range (`NodeWF`): a leaf holds sorted slots of the
range, an upper node is a separator chain of well-formed children. On a chain the two
routings of the source, the scan and the partition point, pick the same slot. A descent
therefore **focuses** on one leaf (`Focus`): the slots of the tree are those left of the
leaf, those of the leaf and those right of it, and an edit of the leaf that respects its
range is an edit of the tree that leaves both sides alone.

## Main results

* `NodeWF.contents`: the slots of a well-formed node are sorted and in its range;
* `floorSplit`: both routings stop at the last slot whose key does not exceed the key;
* `NodeWF.focus`: every descent for a key reaches the same leaf, and replaces it in
  context.
-/

open Std Noxu.Library

namespace Noxu

variable {c : Option KeyComparator} {kp : Bool} {h : ℕ} {lo hi : Option Key} {k : Key}

/-! ### The invariant -/

/-- A leaf over a key range, in a tree that prefixes its keys or not. -/
structure LeafWF (c : Option KeyComparator) (kp : Bool) (lo hi : Option Key)
    (b : BinStub) : Prop where
  wf : b.WF c
  keyPrefixing : b.keyPrefixing = kp
  inRange : ∀ s ∈ b.fullSlots, InRange (keyCmp c) lo hi s.key

/-- A node over a key range: a leaf, or a separator chain of well-formed children. -/
def NodeWF (c : Option KeyComparator) (kp : Bool) :
    (h : ℕ) → Option Key → Option Key → TreeNode h → Prop
  | 0, lo, hi, b => LeafWF c kp lo hi b
  | h + 1, lo, hi, n =>
    Chain (keyCmp c) InEntry.key (fun a b e => NodeWF c kp h a b e.child) lo hi
      (InNodeStub.entries n)

/-- The slots of a well-formed node are sorted and lie in its range. -/
theorem NodeWF.contents :
    ∀ {h : ℕ} {lo hi : Option Key} {n : TreeNode h}, NodeWF c kp h lo hi n →
      SortedBy (keyCmp c) BinSlot.key (n.allSlots h) ∧
        ∀ s ∈ n.allSlots h, InRange (keyCmp c) lo hi s.key
  | 0, _, _, _, hn => ⟨hn.wf.sorted, hn.inRange⟩
  | _ + 1, _, _, _, hn => Chain.contents (fun _ _ _ he => he.contents) hn

/-! ### Routing -/

section Floor

variable {α : Type} {P : Option Key → Option Key → InEntry α → Prop}
variable {cmp : Key → Key → Ordering} {entries pre post : List (InEntry α)} {e : InEntry α}

/-- The slot a key is routed to: the key is not below its separator, unless it is slot 0,
and below every later one. -/
structure FloorAt (cmp : Key → Key → Ordering) (k : Key) (pre : List (InEntry α))
    (e : InEntry α) (post : List (InEntry α)) : Prop where
  floor : pre ≠ [] → (cmp e.key k).isLE = true
  above : ∀ x ∈ post, cmp k x.key = .lt

/-- The scan counts the leading keys that do not exceed the sought one. -/
theorem scanFloorLoop_append {ks ks' : List Key} (idx : ℕ)
    (hle : ∀ x ∈ ks, (cmp x k).isLE = true) (hgt : ∀ x ∈ ks'.head?, cmp x k = .gt) :
    scanFloorLoop cmp k idx (ks ++ ks') = idx + ks.length := by
  induction ks generalizing idx with
  | nil =>
    cases ks' with
    | nil => rfl
    | cons x xs => simp [scanFloorLoop, hgt x (by simp)]
  | cons x xs ih =>
    have hx : cmp x k ≠ .gt := by
      have := hle x (by simp)
      intro hgt
      simp [hgt] at this
    simp only [List.cons_append, scanFloorLoop, bne_iff_ne, ne_eq, hx, not_false_eq_true,
      if_true, ih (idx + 1) fun y hy => hle y (List.mem_cons_of_mem _ hy), List.length_cons]
    omega

/-- A separator does not exceed a key exactly when the comparison is not `gt`. -/
theorem isLE_iff_bne_gt {o : Ordering} : o.isLE = true ↔ (o != .gt) = true := by
  cases o <;> simp

variable [TransCmp cmp]

/-- Every slot but the first that precedes the routed one has its key below the sought
key, and every later slot above it. -/
theorem FloorAt.cut (hc : Chain cmp InEntry.key P lo hi (pre ++ e :: post))
    (hf : FloorAt cmp k pre e post) :
    ∃ ks ks', ((pre ++ e :: post).map InEntry.key).tail = ks ++ ks' ∧
      ks.length = pre.length ∧ (∀ x ∈ ks, (cmp x k).isLE = true) ∧
        ∀ x ∈ ks', cmp x k = .gt := by
  have hgt : ∀ x ∈ post.map InEntry.key, cmp x k = .gt := by
    intro x hx
    obtain ⟨y, hy, rfl⟩ := List.mem_map.mp hx
    exact OrientedCmp.gt_of_lt (hf.above y hy)
  cases pre with
  | nil => exact ⟨[], post.map InEntry.key, by simp, rfl, by simp, hgt⟩
  | cons x xs =>
    refine ⟨(xs ++ [e]).map InEntry.key, post.map InEntry.key, by simp, by simp, ?_, hgt⟩
    have hsorted := (Chain.tail_sorted hc).1
    have hle := hf.floor (by simp)
    intro y hy
    obtain ⟨z, hz, rfl⟩ := List.mem_map.mp hy
    rcases List.mem_append.mp hz with hz | hz
    · have hlt := (List.pairwise_append.mp hsorted).2.2 z hz e (by simp)
      exact TransCmp.isLE_trans (by simp [hlt]) hle
    · obtain rfl : z = e := by simpa using hz
      exact hle

/-- The partition point of the separators is the routed slot. -/
theorem FloorAt.partitionPoint_eq (hc : Chain cmp InEntry.key P lo hi (pre ++ e :: post))
    (hf : FloorAt cmp k pre e post) :
    partitionPoint (fun x => cmp x k != .gt) ((pre ++ e :: post).map InEntry.key).tail =
      pre.length := by
  obtain ⟨ks, ks', heq, hlen, hle, hgt⟩ := hf.cut hc
  rw [heq, ← hlen]
  exact partitionPoint_append (fun x hx => isLE_iff_bne_gt.mp (hle x hx))
    fun x hx => by simp [hgt x hx]

/-- The reading paths reach the routed slot. -/
theorem FloorAt.upperInFloorIndex_eq
    (hc : Chain cmp InEntry.key P lo hi (pre ++ e :: post)) (hf : FloorAt cmp k pre e post) :
    upperInFloorIndex cmp ((pre ++ e :: post).map InEntry.key) k = pre.length := by
  unfold upperInFloorIndex
  split
  · rename_i hlen
    simp only [List.length_map, List.length_append, List.length_cons] at hlen
    omega
  · exact hf.partitionPoint_eq hc

/-- The writing paths reach the routed slot. -/
theorem FloorAt.scanFloorIndex_eq
    (hc : Chain cmp InEntry.key P lo hi (pre ++ e :: post)) (hf : FloorAt cmp k pre e post) :
    scanFloorIndex cmp ((pre ++ e :: post).map InEntry.key) k = pre.length := by
  obtain ⟨ks, ks', heq, hlen, hle, hgt⟩ := hf.cut hc
  rw [scanFloorIndex, heq, scanFloorLoop_append 0 hle fun x hx =>
    hgt x (List.mem_of_mem_head? hx), Nat.zero_add, hlen]

/-- **A chain routes every key** to one of its slots. -/
theorem floorSplit (hc : Chain cmp InEntry.key P lo hi entries) (k : Key) :
    ∃ pre e post, entries = pre ++ e :: post ∧ FloorAt cmp k pre e post := by
  cases entries with
  | nil => exact hc.elim
  | cons x xs =>
    have hmono : xs.Pairwise fun a b =>
        (cmp b.key k != .gt) = true → (cmp a.key k != .gt) = true := by
      refine (Chain.tail_sorted hc).1.imp fun {a b} hab hb => ?_
      exact isLE_iff_bne_gt.mp
        (TransCmp.isLE_trans (by simp [hab]) (isLE_iff_bne_gt.mpr hb))
    obtain ⟨ys, zs, rfl, -, hys, hzs⟩ := partitionPoint_spec hmono
    have habove : ∀ z ∈ zs, cmp k z.key = .lt :=
      fun z hz => OrientedCmp.lt_of_gt (by simpa using hzs z hz)
    rcases List.eq_nil_or_concat ys with rfl | ⟨ys, y, rfl⟩
    · exact ⟨[], x, zs, rfl, by simp, habove⟩
    · refine ⟨x :: ys, y, zs, by simp, fun _ => ?_, habove⟩
      exact isLE_iff_bne_gt.mpr (hys y (by simp))

end Floor

/-! ### Focusing on a leaf -/

section Sides

variable {entries pre post : List (InEntry (TreeNode h))} {e : InEntry (TreeNode h)}

/-- The slots below a list of entries. -/
def slotsBelow (entries : List (InEntry (TreeNode h))) : List BinSlot :=
  entries.flatMap fun e => e.child.allSlots h

@[simp] theorem slotsBelow_append (l m : List (InEntry (TreeNode h))) :
    slotsBelow (l ++ m) = slotsBelow l ++ slotsBelow m := List.flatMap_append

@[simp] theorem slotsBelow_cons (e : InEntry (TreeNode h)) (l : List (InEntry (TreeNode h))) :
    slotsBelow (e :: l) = e.child.allSlots h ++ slotsBelow l := List.flatMap_cons

@[simp] theorem slotsBelow_nil : slotsBelow (h := h) [] = [] := rfl

/-- The slots left of the routed entry are smaller than the key, those right of it
greater. -/
theorem FloorAt.sides
    (hc : Chain (keyCmp c) InEntry.key (fun a b e => NodeWF c kp h a b e.child) lo hi
      (pre ++ e :: post))
    (hf : FloorAt (keyCmp c) k pre e post) :
    (∀ s ∈ slotsBelow pre, keyCmp c s.key k = .lt) ∧
      ∀ s ∈ slotsBelow post, keyCmp c s.key k = .gt := by
  have hcont : ∀ {a z : Option Key} {l : List (InEntry (TreeNode h))},
      Chain (keyCmp c) InEntry.key (fun a b e => NodeWF c kp h a b e.child) a z l →
        ∀ s ∈ slotsBelow l, InRange (keyCmp c) a z s.key :=
    fun hl => (Chain.contents (fun _ _ _ he => he.contents) hl).2
  constructor
  · intro s hs
    by_cases hpre : pre = []
    · simp [hpre] at hs
    · have hr := hcont ((chain_append hpre).mp hc).1 s hs
      exact TransCmp.lt_of_lt_of_isLE (by simpa using hr.below) (hf.floor hpre)
  · intro s hs
    cases post with
    | nil => simp at hs
    | cons y ys =>
      have hcut : pre ++ e :: y :: ys = (pre ++ [e]) ++ y :: ys := by simp
      rw [hcut] at hc
      have hr := hcont ((chain_append (by simp)).mp hc).2.2 s hs
      exact OrientedCmp.gt_of_lt
        (TransCmp.lt_of_lt_of_isLE (hf.above y (by simp)) (by simpa using hr.atLeast))

end Sides

/-- A routing of the source. -/
def IsFloor (c : Option KeyComparator) (floor : List Key → Key → ℕ) : Prop :=
  floor = scanFloorIndex (keyCmp c) ∨ floor = upperInFloorIndex (keyCmp c)

/-- Either routing reaches the routed slot of a chain. -/
theorem IsFloor.eq_length {α : Type} {P : Option Key → Option Key → InEntry α → Prop}
    {floor : List Key → Key → ℕ} {pre post : List (InEntry α)} {e : InEntry α}
    (hfl : IsFloor c floor)
    (hc : Chain (keyCmp c) InEntry.key P lo hi (pre ++ e :: post))
    (hf : FloorAt (keyCmp c) k pre e post) :
    floor ((pre ++ e :: post).map InEntry.key) k = pre.length := by
  rcases hfl with rfl | rfl
  · exact hf.scanFloorIndex_eq hc
  · exact hf.upperInFloorIndex_eq hc

/-- Replacing the child of a marked slot. -/
theorem setChild_append {α : Type} {n : InNodeStub α} {pre post : List (InEntry α)}
    {e : InEntry α} (hn : n.entries = pre ++ e :: post) (child : α) :
    (n.setChild pre.length child).entries = pre ++ { e with child := child } :: post := by
  simp [InNodeStub.setChild, hn, modify_length_append]

/-- Replacing a child by itself. -/
theorem setChild_self {α : Type} {n : InNodeStub α} {pre post : List (InEntry α)}
    {e : InEntry α} (hn : n.entries = pre ++ e :: post) :
    n.setChild pre.length e.child = n := by
  have hent := (setChild_append hn e.child).trans hn.symm
  cases n
  simp only [InNodeStub.setChild, InNodeStub.mk.injEq, true_and, and_true] at hent ⊢
  exact hent

/-- The descent for a key in a node over `[lo, hi)` reaches the leaf `b`, whose range is
`[a, z)`, and an edit of `b` is an edit of the node that leaves the slots on both sides
alone. -/
structure Focus (c : Option KeyComparator) (kp : Bool) (k : Key) (h : ℕ)
    (lo hi : Option Key) (n : TreeNode h) (b : BinStub) (left right : List BinSlot)
    (a z : Option Key) : Prop where
  leaf : LeafWF c kp a z b
  inRange : InRange (keyCmp c) a z k
  reads : getParentBinForChildLn (keyCmp c) k h n = some b
  slots : n.allSlots h = left ++ b.fullSlots ++ right
  left_lt : ∀ s ∈ left, keyCmp c s.key k = .lt
  right_gt : ∀ s ∈ right, keyCmp c s.key k = .gt
  edit : ∀ {β : Type} (dflt : β) (f : BinStub → BinStub × β) (floor : List Key → Key → ℕ),
    IsFloor c floor → LeafWF c kp a z (f b).1 →
      NodeWF c kp h lo hi (updateBin floor dflt f k h n).1 ∧
        (updateBin floor dflt f k h n).1.allSlots h = left ++ (f b).1.fullSlots ++ right ∧
          (updateBin floor dflt f k h n).2 = (f b).2

/-- **Focusing**: every descent for a key of the range reaches one leaf. -/
theorem NodeWF.focus :
    ∀ {h : ℕ} {lo hi : Option Key} {n : TreeNode h}, NodeWF c kp h lo hi n →
      InRange (keyCmp c) lo hi k →
        ∃ b left right a z, Focus c kp k h lo hi n b left right a z
  | 0, lo, hi, n, hn, hk =>
    ⟨n, [], [], lo, hi, hn, hk, rfl, by simp [TreeNode.allSlots], by simp, by simp,
      fun _ _ _ _ hf => ⟨hf, by simp [updateBin, TreeNode.allSlots], rfl⟩⟩
  | h + 1, lo, hi, n, hn, hk => by
    obtain ⟨pre, e, post, hent, hf⟩ := floorSplit hn k
    have hc := hn
    simp only [NodeWF, hent] at hc
    obtain ⟨a', z', he, hke, hctx⟩ := hc.route hk hf.floor hf.above
    obtain ⟨b, left, right, a, z, hfocus⟩ := he.focus hke
    obtain ⟨hleft, hright⟩ := hf.sides hc
    have hslots : n.allSlots (h + 1) =
        slotsBelow pre ++ (e.child.allSlots h ++ slotsBelow post) := by
      show slotsBelow (InNodeStub.entries n) = _
      simp [hent]
    refine ⟨b, slotsBelow pre ++ left, right ++ slotsBelow post, a, z, hfocus.leaf,
      hfocus.inRange, ?_, ?_, ?_, ?_, ?_⟩
    · simp only [getParentBinForChildLn, hent, hf.upperInFloorIndex_eq hc,
        getElem?_length_append, hfocus.reads]
    · rw [hslots, hfocus.slots]
      simp
    · intro s hs
      rcases List.mem_append.mp hs with hs | hs
      · exact hleft s hs
      · exact hfocus.left_lt s hs
    · intro s hs
      rcases List.mem_append.mp hs with hs | hs
      · exact hfocus.right_gt s hs
      · exact hright s hs
    · intro β dflt f floor hfl hb
      obtain ⟨hwf, hsl, hres⟩ := hfocus.edit dflt f floor hfl hb
      have hupd : updateBin floor dflt f k (h + 1) n =
          (InNodeStub.setChild n pre.length (updateBin floor dflt f k h e.child).1,
            (updateBin floor dflt f k h e.child).2) := by
        simp only [updateBin, hent, hfl.eq_length hc hf, getElem?_length_append]
        rfl
      have hset := setChild_append hent (updateBin floor dflt f k h e.child).1
      rw [hupd]
      refine ⟨?_, ?_, hres⟩
      · simp only [NodeWF, hset]
        simpa using hctx { e with child := (updateBin floor dflt f k h e.child).1 } []
          rfl hwf
      · show slotsBelow (InNodeStub.setChild n pre.length _).entries = _
        rw [hset]
        simp [hsl]

end Noxu
