import Noxu.Library.Run
import Noxu.Tree.Compress

/-!
# Maintenance Keeps the Contents

Merging neighbours, draining a leaf and pruning an empty one are meant to leave what a tree
holds alone. They do, in every run of writes and maintenance in which no compression meets an
upper node that has lost its slot 0 and taken keys below the one that is in slot 0 now.

## Main results

* `Tree.maintain_spec`: a maintenance call keeps the invariant of the tree and drains its slots;
* `maintenance_keeps_contents`: **in every run** a maintenance call changes neither the live
  slots nor what a search finds;
* `interleaved_runs_find_last_write`: a search finds what the last write of its key left;
* `compress_loses_key`: the merge of an upper node whose slot 0 was pruned hides a key.
-/

open Std Noxu.Library

namespace Noxu

variable {t t' : Tree} {m : Key → Option (List UInt8)}

/-! ### Maintenance calls -/

/-- A maintenance call: which children are in memory, the leaf by its place, and the answers of
the lock hook are those at the time of the call. -/
inductive Maintenance where
  /-- Merge neighbours in the whole tree. -/
  | compress (resident : ℕ → Bool)
  /-- Drain a leaf and prune it if it is empty then. -/
  | compressBin (resident : ℕ → Bool) (path : List ℕ) (isLocked : Option (Lsn → Bool))
  /-- Prune the leaf a key is routed to. -/
  | pruneEmptyBin (resident : ℕ → Bool) (idKey : Key)
  /-- Drain a leaf. -/
  | drain (path : List ℕ) (isLocked : Option (Lsn → Bool))

/-- Apply a maintenance call. -/
def Tree.maintain (t : Tree) : Maintenance → Tree
  | .compress resident => t.compress resident
  | .compressBin resident path isLocked => (t.compressBin resident path isLocked).1
  | .pruneEmptyBin resident idKey => (t.pruneEmptyBin resident idKey).1
  | .drain path isLocked => t.drainBin path isLocked

/-- The condition on a compression: the upper nodes are aligned with their separators. -/
def Maintenance.safe (t : Tree) : Maintenance → Bool
  | .compress _ => t.root.all fun r => aligned (keyCmp t.config.keyComparator) r.1 r.2
  | _ => true

/-- What maintenance does to a tree. -/
structure Maintained (t t' : Tree) : Prop where
  wf : TreeWF t'
  config : t'.config = t.config
  drained : Drained t.slots t'.slots

theorem Maintained.refl (ht : TreeWF t) : Maintained t t := ⟨ht, rfl, .refl _⟩

theorem Maintained.trans {t'' : Tree} (h₁ : Maintained t t') (h₂ : Maintained t' t'') :
    Maintained t t'' :=
  ⟨h₂.wf, h₂.config.trans h₁.config, h₁.drained.trans h₂.drained⟩

/-- A tree with another root over the same range. -/
theorem maintained_root (ht : TreeWF t) {r : Σ h, TreeNode h} {n : TreeNode r.1}
    (hr : t.root = some r)
    (hn : NodeWF t.config.keyComparator t.config.keyPrefixing r.1 none none n)
    (hsized : ChildrenSized t.config.maxEntriesPerNode r.1 n)
    (hle : n.nEntries r.1 ≤ r.2.nEntries r.1)
    (hslots : Drained (r.2.allSlots r.1) (n.allSlots r.1)) :
    Maintained t { t with root := some ⟨r.1, n⟩ } := by
  have hinj : ∀ r', some (⟨r.1, n⟩ : Σ h, TreeNode h) = some r' → r' = ⟨r.1, n⟩ :=
    fun _ h => (Option.some.inj h).symm
  refine ⟨⟨?_, ?_, ?_, ?_, ht.packs⟩, rfl, ?_⟩
  · intro r' hr'
    rw [hinj r' hr']
    exact hn
  · intro r' hr'
    rw [hinj r' hr']
    exact hsized
  · intro r' hr'
    rw [hinj r' hr']
    exact hle.trans (ht.root_le r hr)
  · intro r' hr'
    rw [hinj r' hr']
    exact ht.height r hr
  · simpa only [Tree.slots, hr] using hslots

theorem maintained_leaf (ht : TreeWF t) {r : Σ h, TreeNode h} {n : TreeNode r.1}
    {before after : List BinSlot} (hr : t.root = some r)
    (hedit : LeafEdited t.config.keyComparator t.config.keyPrefixing
      t.config.maxEntriesPerNode r.1 none none r.2 n before after)
    (hdrained : Drained before after) :
    Maintained t { t with root := some ⟨r.1, n⟩ } := by
  obtain ⟨left, right, hbefore, hafter⟩ := hedit.slots
  refine maintained_root ht hr hedit.wf hedit.sized hedit.nEntries_le ?_
  rw [hbefore, hafter]
  exact hdrained.append left right

/-- **Merging neighbours.** -/
theorem Tree.compress_spec (ht : TreeWF t) {resident : ℕ → Bool}
    (hsafe : (Maintenance.compress resident).safe t = true) :
    Maintained t (t.compress resident) := by
  unfold Tree.compress
  cases hr : t.root with
  | none =>
    rw [Option.map_none, ← hr]
    exact .refl ht
  | some r =>
    have haligned : aligned (keyCmp t.config.keyComparator) r.1 r.2 = true := by
      simpa [Maintenance.safe, hr] using hsafe
    have hc := compressNode_spec resident (ht.node r hr) (ht.sized r hr) haligned
    refine maintained_root ht hr hc.wf hc.sized hc.nEntries_le ?_
    rw [hc.slots]
    exact .refl _

theorem drained_drain {c : Option KeyComparator} {kp : Bool} {lo hi : Option Key} {b : BinStub}
    (hb : LeafWF c kp lo hi b) (isLocked : Option (Lsn → Bool)) :
    Drained b.fullSlots (b.drain kp isLocked).1.fullSlots := by
  rw [(BinStub.drain_spec hb isLocked).2.1]
  split
  · exact .refl _
  · exact drained_filter isLocked _

/-- **Draining a leaf.** -/
theorem Tree.drainBin_spec (ht : TreeWF t) (path : List ℕ) (isLocked : Option (Lsn → Bool)) :
    Maintained t (t.drainBin path isLocked) := by
  unfold Tree.drainBin
  split
  · exact .refl ht
  · next r hr =>
    split
    · exact .refl ht
    · next b hb =>
      obtain ⟨a, z, hwf⟩ := (ht.node r hr).binAt hb
      have hdrained := drained_drain hwf isLocked
      have hlen := hdrained.sublist.length_le
      rw [BinStub.length_fullSlots, BinStub.length_fullSlots] at hlen
      exact maintained_leaf ht hr (modifyBinAt_spec (f := fun _ =>
          (b.drain t.config.keyPrefixing isLocked).1)
        (fun hwf => (BinStub.drain_spec hwf isLocked).1) hlen (ht.node r hr) (ht.sized r hr) hb)
        hdrained

/-- **Pruning.** -/
theorem Tree.pruneWhere_spec (ht : TreeWF t) (resident : ℕ → Bool)
    (find : (h : ℕ) → TreeNode h → Option (List ℕ)) :
    Maintained t (t.pruneWhere resident find).1 := by
  unfold Tree.pruneWhere
  split
  · next r' hr' =>
    obtain ⟨r, hr, hfound⟩ := Option.bind_eq_some_iff.1 hr'
    obtain ⟨path, -, hprune⟩ := Option.bind_eq_some_iff.1 hfound
    obtain ⟨n, hn, rfl⟩ := Option.map_eq_some_iff.1 hprune
    exact maintained_leaf ht hr (pruneAt_spec (ht.node r hr) (ht.sized r hr) hn) (.refl _)
  · exact .refl ht

/-- **A maintenance call** keeps the invariant of the tree and drains its slots. -/
theorem Tree.maintain_spec (ht : TreeWF t) {x : Maintenance} (hsafe : x.safe t = true) :
    Maintained t (t.maintain x) := by
  cases x with
  | compress resident => exact Tree.compress_spec ht hsafe
  | pruneEmptyBin resident idKey => exact Tree.pruneWhere_spec ht resident _
  | drain path isLocked => exact Tree.drainBin_spec ht path isLocked
  | compressBin resident path isLocked =>
    have hdrain := Tree.drainBin_spec ht path isLocked
    show Maintained t (t.compressBin resident path isLocked).1
    unfold Tree.compressBin
    split
    · exact .refl ht
    · split
      · exact .refl ht
      · dsimp only
        split
        · split
          · exact hdrain.trans (Tree.pruneWhere_spec hdrain.wf resident _)
          · exact hdrain.trans (Tree.pruneWhere_spec hdrain.wf resident _)
        · exact hdrain

/-! ### Runs -/

/-- A write or a maintenance call. -/
inductive TreeEvent where
  | write (op : TreeOp)
  | maintain (x : Maintenance)

/-- One event. -/
def Tree.step (t : Tree) : TreeEvent → Option Tree
  | .write op => t.apply op
  | .maintain x => some (t.maintain x)

/-- The condition on an event. -/
def TreeEvent.safe (t : Tree) : TreeEvent → Bool
  | .write _ => true
  | .maintain x => x.safe t

/-- Maintenance leaves the map of a tree. -/
theorem Holds.maintain (hm : Holds t m) {x : Maintenance} (hsafe : x.safe t = true) :
    Holds (t.maintain x) m ∧ (t.maintain x).config = t.config := by
  have hmaint := Tree.maintain_spec hm.wf hsafe
  refine ⟨⟨hmaint.wf, fun k => ?_, fun k s hs => ?_⟩, hmaint.config⟩
  · rw [← hm.live k, Tree.liveSlot, Tree.liveSlot, Tree.slotOf, Tree.slotOf, hmaint.config,
      hmaint.drained.lookup_live hm.wf.sorted]
  · rw [Tree.slotOf, hmaint.config] at hs
    exact hm.expiration k s (hmaint.drained.lookup_eq_some hm.wf.sorted hs)

/-- What every reached tree is: well formed, and holding a map. -/
structure TreeInv (config : TreeConfig) (t : Tree) : Prop where
  config : t.config = config
  holds : ∃ m, Holds t m

/-- **One event keeps the invariant.** -/
theorem TreeInv.step {config : TreeConfig} (hconfig : config.Sound) {e : TreeEvent}
    (h : TreeInv config t) (hsafe : e.safe t = true) (hs : t.step e = some t') :
    TreeInv config t' := by
  obtain ⟨m, hm⟩ := h.holds
  cases e with
  | write op =>
    obtain ⟨t₁, happly, hm₁, hc₁⟩ := hm.apply (h.config ▸ hconfig.room) op
    obtain rfl : t₁ = t' := Option.some.inj (happly.symm.trans hs)
    exact ⟨hc₁.trans h.config, _, hm₁⟩
  | maintain x =>
    obtain rfl := Option.some.inj hs
    obtain ⟨hm', hc'⟩ := hm.maintain hsafe
    exact ⟨hc'.trans h.config, m, hm'⟩

/-- **Every reached tree** is well formed and holds a map. -/
theorem TreeInv.run {config : TreeConfig} (hconfig : config.Sound)
    {evs : List TreeEvent} (hok : Meets Tree.step (fun t e => e.safe t = true)
      (Tree.new config) evs) (hrun : Library.run Tree.step (Tree.new config) evs = some t) :
    TreeInv config t := by
  exact run_invariant (fun _ _ _ h hsafe hs => h.step hconfig hsafe hs)
    ⟨rfl, _, holds_new hconfig⟩ hok hrun

/-- **Maintenance never changes the contents**: in every run of writes and safe maintenance
calls, a safe maintenance call leaves the live slots in their order and what a search finds under
every key. -/
theorem maintenance_keeps_contents (config : TreeConfig) (hconfig : config.Sound)
    (evs : List TreeEvent) (t : Tree)
    (hok : Meets Tree.step (fun t e => e.safe t = true) (Tree.new config) evs)
    (hrun : run Tree.step (Tree.new config) evs = some t) (x : Maintenance)
    (hsafe : x.safe t = true) (expired : ℕ → Bool → Bool) :
    (t.maintain x).slots.filter BinSlot.isLive = t.slots.filter BinSlot.isLive ∧
      ∀ k,
        ((t.maintain x).searchWithData expired k).any SlotFetch.found =
          (t.searchWithData expired k).any SlotFetch.found ∧
        ((t.maintain x).searchWithData expired k).bind SlotFetch.value =
          (t.searchWithData expired k).bind SlotFetch.value := by
  obtain ⟨m, hm⟩ := (TreeInv.run hconfig hok hrun).holds
  obtain ⟨hm', -⟩ := hm.maintain hsafe
  refine ⟨(Tree.maintain_spec hm.wf hsafe).drained.live, fun k => ?_⟩
  obtain ⟨hfound, hvalue⟩ := hm.searchWithData expired k
  obtain ⟨hfound', hvalue'⟩ := hm'.searchWithData expired k
  exact ⟨hfound'.trans hfound.symm, hvalue'.trans hvalue.symm⟩

/-! ### An upper node that lost its slot 0 -/

/-- A tree with nodes of four slots. -/
def nodesOfFour : TreeConfig := ⟨1, none, 4, false, true, 16, defaultMaxKeyLength⟩

/-- Fourteen keys in two upper nodes, the second of which starts at 10. -/
def evenKeys : List TreeEvent :=
  (List.range 14).map fun i => .write (.insert none [UInt8.ofNat (2 * i)] [7] 0)

/-- The first leaf of the second upper node is emptied and pruned: its slot 0 has the key 16
then, and its range still starts at 10. -/
def prunedSlotZero : List TreeEvent :=
  evenKeys ++ [.write (.delete [10]), .write (.delete [12]), .write (.delete [14]),
    .maintain (.compressBin (fun _ => true) [1, 0] none)]

/-- Nothing was inserted below 16 since: the two upper nodes are merged and all is found. -/
theorem compress_after_prune :
    ∃ t, run Tree.step (Tree.new nodesOfFour) prunedSlotZero = some t ∧
      ((t.maintain (.compress fun _ => true)).searchWithData (fun _ _ => false) [16]).bind
        SlotFetch.value = some [7] ∧
      (t.maintain (.compress fun _ => true)).slots.filter BinSlot.isLive =
        t.slots.filter BinSlot.isLive := by
  have hok : Meets Tree.step (fun t e => e.safe t = true) (Tree.new nodesOfFour)
      prunedSlotZero := by decide +kernel
  obtain ⟨t, hrun, hsafe, hfound⟩ := exists_run_of_any
    (P := fun t => (Maintenance.compress fun _ => true).safe t = true ∧
      (t.searchWithData (fun _ _ => false) [16]).bind SlotFetch.value = some [7])
    (show (run Tree.step (Tree.new nodesOfFour) prunedSlotZero).any _ = true by decide +kernel)
  obtain ⟨hlive, hk⟩ := maintenance_keeps_contents nodesOfFour ⟨by decide, by decide⟩
    prunedSlotZero t hok hrun (.compress fun _ => true) hsafe fun _ _ => false
  exact ⟨t, hrun, (hk [16]).2.trans hfound, hlive⟩

/-- **A merge that hides a key**: 11 goes to the leaf that is first now, below the key 16 in
slot 0, which is a separator after the merge. -/
theorem compress_loses_key :
    ∃ t, run Tree.step (Tree.new nodesOfFour)
        (prunedSlotZero ++ [.write (.insert none [11] [9] 0)]) = some t ∧
      (t.searchWithData (fun _ _ => false) [11]).bind SlotFetch.value = some [9] ∧
      ((t.maintain (.compress fun _ => true)).searchWithData (fun _ _ => false) [11]).bind
        SlotFetch.value = none :=
  exists_run_of_any
    (P := fun t : Tree =>
      (t.searchWithData (fun _ _ => false) [11]).bind SlotFetch.value = some [9] ∧
      ((t.maintain (.compress fun _ => true)).searchWithData (fun _ _ => false) [11]).bind
        SlotFetch.value = none)
    (by decide +kernel)

/-! ### Writes and maintenance in any order -/

/-- The operation of a write. -/
def TreeEvent.op? : TreeEvent → Option TreeOp
  | .write op => some op
  | .maintain _ => none

/-- A run from a tree that holds a map: only the writes change the map. -/
theorem Holds.events {evs : List TreeEvent} (hm : Holds t m)
    (hmax : 2 ≤ t.config.maxEntriesPerNode)
    (hok : Meets Tree.step (fun t e => e.safe t = true) t evs) :
    ∃ t', Library.run Tree.step t evs = some t' ∧
      Holds t' ((evs.filterMap TreeEvent.op?).foldl
        (applyToMap (keyCmp t.config.keyComparator)) m) ∧
      t'.config = t.config := by
  induction evs generalizing t m with
  | nil => exact ⟨t, rfl, hm, rfl⟩
  | cons e evs ih =>
    obtain ⟨hsafe, hrest⟩ := hok
    cases e with
    | write op =>
      obtain ⟨t₁, h₁, hm₁, hc₁⟩ := hm.apply hmax op
      obtain ⟨t₂, h₂, hm₂, hc₂⟩ := ih hm₁ (hc₁ ▸ hmax) (hrest t₁ h₁)
      exact ⟨t₂, run_cons_eq_some.mpr ⟨t₁, h₁, h₂⟩, hc₁ ▸ hm₂, hc₂.trans hc₁⟩
    | maintain x =>
      obtain ⟨hm₁, hc₁⟩ := hm.maintain hsafe
      obtain ⟨t₂, h₂, hm₂, hc₂⟩ := ih hm₁ (hc₁ ▸ hmax) (hrest _ rfl)
      exact ⟨t₂, run_cons_eq_some.mpr ⟨_, rfl, h₂⟩, hc₁ ▸ hm₂, hc₂.trans hc₁⟩

/-- **Writes and safe maintenance in any order**: every run returns a tree with sorted slots, in
which a search finds under each key what the last write of the key left. -/
theorem interleaved_runs_find_last_write (config : TreeConfig)
    (hconfig : config.Sound) (evs : List TreeEvent)
    (hok : Meets Tree.step (fun t e => e.safe t = true) (Tree.new config) evs)
    (expired : ℕ → Bool → Bool) :
    ∃ t, run Tree.step (Tree.new config) evs = some t ∧
      SortedBy (keyCmp config.keyComparator) BinSlot.key t.slots ∧
      ∀ k, (t.searchWithData expired k).bind SlotFetch.value =
        lastValue (keyCmp config.keyComparator) (evs.filterMap TreeEvent.op?) k := by
  obtain ⟨t, hrun, hm, hc⟩ := (holds_new hconfig).events hconfig.room hok
  rw [foldl_applyToMap_empty] at hm
  have hsorted := hm.wf.sorted
  rw [hc] at hsorted
  exact ⟨t, hrun, hsorted, fun k => (hm.searchWithData expired k).2⟩

/-- The keys that are left after the prune. -/
theorem pruned_tree_finds_last_write :
    ∃ t, run Tree.step (Tree.new nodesOfFour) prunedSlotZero = some t ∧
      (t.searchWithData (fun _ _ => false) [16]).bind SlotFetch.value = some [7] := by
  obtain ⟨t, hrun, -, hk⟩ := interleaved_runs_find_last_write nodesOfFour ⟨by decide, by decide⟩
    prunedSlotZero (by decide +kernel) fun _ _ => false
  exact ⟨t, hrun, (hk [16]).trans (by decide)⟩

end Noxu
