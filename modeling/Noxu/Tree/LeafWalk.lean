import Noxu.Tree.RangeSeek

/-!
# Walking the Leaves

A cursor goes from leaf to leaf in either direction: it keeps a key of the leaf it is on, and the
next leaf is found by routing the key again, climbing to the first node with a sibling on the
wanted side that has a slot below it, and descending to the edge of that sibling. A leaf without
slots has no key to go on from and is passed over.

## Main results

* `getAdjacentBin_of_mem`: the neighbour of a leaf, by any of its keys;
* `Tree.walk_eq`: a walk visits the leaves with slots and ends;
* `walks_in_every_run`: **in every reached tree** both walks visit every leaf with slots once,
  in the order of their keys and in the reverse order, whichever keys they go on from;
* `walk_passes_over_empty_leaf`: a leaf that lost its last slot is not visited.
-/

open Std Noxu.Library

namespace Noxu

variable {c : Option KeyComparator} {kp : Bool} {h : ℕ} {k : Key} {t : Tree} {forward : Bool}

/-! ### Walks -/

namespace Tree

/-- The first or the last leaf with slots. -/
def firstNonemptyBin (forward : Bool) (t : Tree) : Option BinStub :=
  t.root.bind fun r => descendToEdgeBin forward r.1 r.2

/-- The leaves visited from one on, each left by a key of it, for at most `fuel` of them. -/
def walkFrom (forward : Bool) (anchor : BinStub → Key) (t : Tree) :
    ℕ → Option BinStub → Option (List BinStub)
  | 0, _ => none
  | _ + 1, none => some []
  | fuel + 1, some b => (walkFrom forward anchor t fuel (t.getAdjacentBin forward (anchor b))).map
      (b :: ·)

/-- The leaves visited from the edge of the tree on. -/
def walk (forward : Bool) (anchor : BinStub → Key) (t : Tree) (fuel : ℕ) : Option (List BinStub) :=
  t.walkFrom forward anchor fuel (t.firstNonemptyBin forward)

end Tree

/-- The leaf an anchor is taken from, and what is behind it in the direction of a walk. -/
theorem getAdjacentBin_of_mem (ht : TreeWF t) {before behind : List BinStub} {b : BinStub}
    {s : BinSlot} (hleaves : inDirection forward t.leaves = before ++ b :: behind)
    (hs : s ∈ b.fullSlots) :
    t.getAdjacentBin forward s.key = behind.find? BinStub.hasSlots := by
  cases hr : t.root with
  | none =>
    have hnil : t.leaves = [] := by simp [Tree.leaves, hr]
    rw [hnil] at hleaves
    cases forward <;> simp [inDirection] at hleaves
  | some r =>
    obtain ⟨left, b', right, hfocus⟩ :=
      getAdjacentBin_focus (k := s.key) (ht.node r hr) inRange_none
    have hall : t.leaves = left ++ b' :: right := by
      rw [Tree.leaves, hr, Option.map_some, Option.getD_some, hfocus.leaves]
    rw [Tree.getAdjacentBin, hr, Option.bind_some, hfocus.adjacent forward, Option.join_some]
    cases forward with
    | true =>
      have heq : before ++ b :: behind = left ++ b' :: right := hleaves.symm.trans hall
      rw [← leaves_split_unique heq hs hfocus.left_lt hfocus.right_gt]
      rfl
    | false =>
      have heq : behind.reverse ++ b :: before.reverse = left ++ b' :: right := by
        rw [← hall, ← List.reverse_reverse t.leaves]
        simpa [inDirection] using (congrArg List.reverse hleaves).symm
      obtain rfl := leaves_split_unique heq hs hfocus.left_lt hfocus.right_gt
      obtain ⟨rfl, -⟩ := List.append_inj' heq rfl
      simp

/-- The walk from the first leaf with slots of a rest of the leaves. -/
theorem Tree.walkFrom_eq (ht : TreeWF t) {anchor : BinStub → Key}
    (hanchor : ∀ b : BinStub, b.hasSlots = true → ∃ s ∈ b.fullSlots, anchor b = s.key) :
    ∀ (behind before : List BinStub) {fuel : ℕ}, inDirection forward t.leaves = before ++ behind →
      behind.length < fuel →
      t.walkFrom forward anchor fuel (behind.find? BinStub.hasSlots) =
        some (behind.filter BinStub.hasSlots) := by
  intro behind
  induction behind with
  | nil =>
    intro before fuel _ hfuel
    obtain ⟨fuel, rfl⟩ := Nat.exists_eq_succ_of_ne_zero (Nat.ne_of_gt hfuel)
    rfl
  | cons b behind ih =>
    intro before fuel hleaves hfuel
    have hrest := fun fuel => @ih (before ++ [b]) fuel (by simpa using hleaves)
    obtain ⟨fuel, rfl⟩ := Nat.exists_eq_succ_of_ne_zero (Nat.ne_of_gt (Nat.zero_lt_of_lt hfuel))
    cases hb : b.hasSlots with
    | false =>
      rw [List.find?_cons, hb, List.filter_cons_of_neg (by simp [hb])]
      exact hrest _ (Nat.lt_of_succ_lt hfuel)
    | true =>
      obtain ⟨s, hs, hkey⟩ := hanchor b hb
      rw [List.find?_cons, hb, List.filter_cons_of_pos hb]
      show (t.walkFrom forward anchor fuel (t.getAdjacentBin forward (anchor b))).map _ = _
      rw [hkey, getAdjacentBin_of_mem ht hleaves hs, hrest fuel (Nat.lt_of_succ_lt_succ hfuel)]
      rfl

/-- **A walk visits the leaves with slots**, and ends. -/
theorem Tree.walk_eq (ht : TreeWF t) {anchor : BinStub → Key}
    (hanchor : ∀ b : BinStub, b.hasSlots = true → ∃ s ∈ b.fullSlots, anchor b = s.key)
    (forward : Bool) {fuel : ℕ} (hfuel : t.leaves.length < fuel) :
    t.walk forward anchor fuel = some (inDirection forward (t.leaves.filter BinStub.hasSlots)) := by
  have hfirst : t.firstNonemptyBin forward =
      (inDirection forward t.leaves).find? BinStub.hasSlots := by
    rw [Tree.firstNonemptyBin, Tree.leaves]
    cases t.root with
    | none => cases forward <;> rfl
    | some r => exact descendToEdgeBin_eq r.2
  have hlen : (inDirection forward t.leaves).length < fuel := by
    cases forward <;> simpa [inDirection] using hfuel
  rw [Tree.walk, hfirst, Tree.walkFrom_eq ht hanchor (inDirection forward t.leaves) [] rfl hlen]
  cases forward <;> simp [inDirection, List.filter_reverse]

/-- The slots of the leaves that have any are those of the tree. -/
theorem flatMap_filter_hasSlots (leaves : List BinStub) :
    (leaves.filter BinStub.hasSlots).flatMap BinStub.fullSlots =
      leaves.flatMap BinStub.fullSlots := by
  induction leaves with
  | nil => rfl
  | cons b leaves ih =>
    cases hb : b.hasSlots with
    | true => rw [List.filter_cons_of_pos hb, List.flatMap_cons, List.flatMap_cons, ih]
    | false =>
      have hnil : b.fullSlots = [] := by
        simpa [BinStub.hasSlots, BinStub.fullSlots] using hb
      rw [List.filter_cons_of_neg (by simp [hb]), List.flatMap_cons, hnil, ih, List.nil_append]

/-- **Walks in every reached tree**: whichever of its keys a leaf is left by, the forward walk
visits every leaf with slots once and ends, the backward walk visits them in the reverse order,
and the keys of the leaves ascend in the order of the forward walk. -/
theorem walks_in_every_run (config : TreeConfig) (hconfig : config.Sound)
    (calls : List TreeCall) (t : Tree)
    (hok : Meets Tree.call (fun t x => x.safe t = true) (Tree.new config) calls)
    (hrun : run Tree.call (Tree.new config) calls = some t) (anchor : BinStub → Key)
    (hanchor : ∀ b : BinStub, b.hasSlots = true → ∃ s ∈ b.fullSlots, anchor b = s.key) :
    ∃ n bins, bins = t.leaves.filter BinStub.hasSlots ∧
      (∀ fuel, n ≤ fuel → t.walk true anchor fuel = some bins ∧
        t.walk false anchor fuel = some bins.reverse) ∧
      SortedBy (keyCmp config.keyComparator) BinSlot.key (bins.flatMap BinStub.fullSlots) ∧
      bins.Nodup := by
  obtain ⟨ht, rfl⟩ := run_invariant (fun _ _ _ h hsafe hs => TreeWF.call hconfig h hsafe hs)
    ⟨hconfig.treeWF_new, rfl⟩ hok hrun
  have hsorted : SortedBy (keyCmp t.config.keyComparator) BinSlot.key
      ((t.leaves.filter BinStub.hasSlots).flatMap BinStub.fullSlots) := by
    rw [flatMap_filter_hasSlots, ← Tree.slots_eq_leaves]
    exact ht.sorted
  refine ⟨t.leaves.length + 1, _, rfl, fun fuel hfuel =>
    ⟨Tree.walk_eq ht hanchor true hfuel, Tree.walk_eq ht hanchor false hfuel⟩, hsorted, ?_⟩
  -- a leaf visited twice would have its keys twice
  refine (List.pairwise_flatMap.1 hsorted).2.imp_of_mem fun {a b} ha _ hab heq => ?_
  subst heq
  obtain ⟨s, hs⟩ := List.exists_mem_of_ne_nil a.fullSlots
    (by simpa [BinStub.hasSlots, BinStub.fullSlots] using (List.mem_filter.1 ha).2)
  have hself : keyCmp t.config.keyComparator s.key s.key = .eq := ReflCmp.compare_self
  exact absurd (hab s hs s hs) (by simp [hself])

/-- The last key of a leaf, by which a forward walk of a cursor leaves it. -/
def BinStub.lastKey (b : BinStub) : Key := (b.getFullKey (b.slots.length - 1)).getD []

/-- The emptied leaf between two others is passed over in both directions. -/
theorem walks_over_dead_leaves :
    ∃ t n bins, run Tree.call (Tree.new nodesOfFour) deadLeaves = some t ∧
      bins.map (fun b => b.fullSlots.map BinSlot.key) =
        [[[0], [2]], [[16], [18], [20]], [[22], [24], [26]]] ∧
      ∀ fuel, n ≤ fuel → t.walk true BinStub.lastKey fuel = some bins ∧
        t.walk false BinStub.lastKey fuel = some bins.reverse := by
  have hok : Meets Tree.call (fun t x => x.safe t = true) (Tree.new nodesOfFour) deadLeaves := by
    decide +kernel
  have hanchor : ∀ b : BinStub, b.hasSlots = true → ∃ s ∈ b.fullSlots, b.lastKey = s.key := by
    intro b hb
    obtain ⟨s, hs, hlast⟩ := exists_lastKey hb
    exact ⟨s, hs, by rw [BinStub.lastKey, hlast, Option.getD_some]⟩
  obtain ⟨t, hrun, hkeys⟩ := exists_run_of_any
    (P := fun t : Tree => (t.leaves.filter BinStub.hasSlots).map
        (fun b => b.fullSlots.map BinSlot.key) =
      [[[0], [2]], [[16], [18], [20]], [[22], [24], [26]]])
    (show (run Tree.call (Tree.new nodesOfFour) deadLeaves).any _ = true by decide +kernel)
  obtain ⟨n, bins, rfl, hwalk, -⟩ := walks_in_every_run nodesOfFour ⟨by decide, by decide⟩
    deadLeaves t hok hrun BinStub.lastKey hanchor
  exact ⟨t, n, _, hrun, hkeys, hwalk⟩

/-- **An empty leaf is not visited**: the tree has four leaves, each walk ends after three. -/
theorem walk_passes_over_empty_leaf :
    ∃ t, run Tree.call (Tree.new nodesOfFour) deadLeaves = some t ∧ t.leaves.length = 4 ∧
      (t.walk true BinStub.lastKey 5).map List.length = some 3 ∧
      (t.walk false BinStub.lastKey 5).map List.length = some 3 :=
  exists_run_of_any
    (P := fun t : Tree => t.leaves.length = 4 ∧
      (t.walk true BinStub.lastKey 5).map List.length = some 3 ∧
      (t.walk false BinStub.lastKey 5).map List.length = some 3)
    (by decide +kernel)

end Noxu
