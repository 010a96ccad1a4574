import Noxu.Tree.RangeSeek

/-!
# The Memory Counter

A tree charges a shared counter for the slots it holds: an insertion that reports a new key
charges the key, the data and a fixed overhead, a deletion credits them again. An insertion that
finds its key charges **nothing**, whatever the length of the data it replaces, and the prune of
an empty leaf credits the separator of the leaf and an overhead **for no slot at all**.

## Main results

* `CountedTree.step_spec`: after one call the counter is right exactly if the call met the
  condition;
* `counter_exact_iff`: **the counter is right throughout a run exactly if** no call replaces a
  slot by one of another length, names a key of another length than the slot's, or prunes a leaf;
* `counter_misses_longer_update`: an update with longer data.
-/

open Std Noxu.Library

namespace Noxu

/-! ### Charges -/

/-- The overhead of a slot on a 64-bit target: 40 bytes of `BinEntry` and 4 of its packed LSN,
less the 8 by which `Bytes` is larger than `Vec`. -/
def binEntryOverhead : ℕ := 36

/-- The length of the data in a slot. -/
def BinSlot.dataLength (s : BinSlot) : ℕ := (s.data.map List.length).getD 0

/-- What a slot takes: key, data and overhead. -/
def slotCost (s : BinSlot) : ℤ := (s.key.length + s.dataLength + binEntryOverhead : ℕ)

/-- What the slots of a tree take. -/
def Tree.memory (t : Tree) : ℤ := (t.slots.map slotCost).sum

/-- A tree with its counter. -/
structure CountedTree where
  tree : Tree
  counter : ℤ

/-- The separator of the node at a path. -/
def separatorAt : (h : ℕ) → TreeNode h → List ℕ → Option Key
  | _ + 1, n, [i] => (InNodeStub.entries n)[i]?.map InEntry.key
  | h + 1, n, i :: path => (InNodeStub.entries n)[i]?.bind fun e => separatorAt h e.child path
  | _, _, _ => none

/-- A call that moves the counter. The clock and the lock hook answer as they do at the time of
the call. -/
inductive CounterCall where
  | insert (isLocked : Option (Lsn → Bool)) (key : Key) (data : List UInt8) (lsn : Lsn)
  | delete (expired : ℕ → Bool → Bool) (key : Key)
  | pruneEmptyBin (resident : ℕ → Bool) (idKey : Key)
  | pruneEmptyBinById (resident : ℕ → Bool) (binNodeId : ℕ)

namespace CountedTree

/-- Insert; a new key is charged. -/
def insert (s : CountedTree) (isLocked : Option (Lsn → Bool)) (key : Key) (data : List UInt8)
    (lsn : Lsn) : Option CountedTree :=
  (s.tree.insert isLocked key data lsn).map fun r =>
    ⟨r.1, if r.2 then s.counter + (key.length + data.length + binEntryOverhead : ℕ)
      else s.counter⟩

/-- Delete; the length of the data is looked up before. -/
def delete (s : CountedTree) (expired : ℕ → Bool → Bool) (key : Key) : CountedTree :=
  let dataLen := (((s.tree.searchWithData expired key).bind SlotFetch.value).map
    List.length).getD 0
  let r := s.tree.delete key
  ⟨r.1, if r.2 then s.counter - (key.length + dataLen + binEntryOverhead : ℕ) else s.counter⟩

/-- Prune an empty leaf; its separator is credited. -/
def prune (s : CountedTree) (resident : ℕ → Bool)
    (find : (h : ℕ) → TreeNode h → Option (List ℕ)) : CountedTree :=
  let removedKeyLen := ((s.tree.root.bind fun r =>
    (find r.1 r.2).bind (separatorAt r.1 r.2)).map List.length).getD 0
  let r := s.tree.pruneWhere resident find
  ⟨r.1, if r.2 then s.counter - (removedKeyLen + binEntryOverhead : ℕ) else s.counter⟩

/-- One call. -/
def step (s : CountedTree) : CounterCall → Option CountedTree
  | .insert isLocked key data lsn => s.insert isLocked key data lsn
  | .delete expired key => some (s.delete expired key)
  | .pruneEmptyBin resident idKey =>
    some (s.prune resident (pathTo resident (keyCmp s.tree.config.keyComparator) idKey))
  | .pruneEmptyBinById resident binNodeId =>
    some (s.prune resident (findParentOfNodeId resident binNodeId))

end CountedTree

/-! ### The condition -/

/-- The leaf at a path may be pruned: in memory, without slots, no delta, under no cursor, and
not the last child. -/
def prunableAt (resident : ℕ → Bool) : (h : ℕ) → TreeNode h → List ℕ → Bool
  | 1, n, [i] =>
    let n : InNodeStub (TreeNode 0) := n
    (n.getChild resident i).any fun b =>
      let b : BinStub := b
      decide (b.slots = []) && !b.isDelta && decide (b.cursorCount ≤ 0) &&
        decide (1 < n.entries.length)
  | h + 2, n, i :: path =>
    let n : InNodeStub (TreeNode (h + 1)) := n
    (n.getChild resident i).any fun child => prunableAt resident (h + 1) child path
  | _, _, _ => false

/-- The leaf that is found may be pruned. -/
def Tree.prunable (t : Tree) (resident : ℕ → Bool)
    (find : (h : ℕ) → TreeNode h → Option (List ℕ)) : Bool :=
  t.root.any fun r => (find r.1 r.2).any (prunableAt resident r.1 r.2)

/-- The condition on a call: an insertion that finds a slot brings a key and data of the same
total length, a deletion names a key as long as the one in the slot, and nothing is pruned. The
lengths of the keys differ only under a comparator that equates different keys. -/
def CounterOk (s : CountedTree) : CounterCall → Prop
  | .insert _ key data _ =>
    ∀ x ∈ s.tree.slotOf key, x.key.length + x.dataLength = key.length + data.length
  | .delete _ key => ∀ x ∈ s.tree.slotOf key, x.key.length = key.length
  | .pruneEmptyBin resident idKey =>
    s.tree.prunable resident (pathTo resident (keyCmp s.tree.config.keyComparator) idKey) = false
  | .pruneEmptyBinById resident binNodeId =>
    s.tree.prunable resident (findParentOfNodeId resident binNodeId) = false

instance CounterOk.instDecidable (s : CountedTree) :
    ∀ call, Decidable (CounterOk s call)
  | .insert _ _ _ _ => inferInstanceAs (Decidable (∀ x ∈ _, _ = _))
  | .delete _ _ => inferInstanceAs (Decidable (∀ x ∈ _, _ = _))
  | .pruneEmptyBin _ _ => inferInstanceAs (Decidable (_ = false))
  | .pruneEmptyBinById _ _ => inferInstanceAs (Decidable (_ = false))

theorem isSome_prune_checks {α : Type} (b : BinStub) (len : ℕ) (x : α) :
    (if b.slots ≠ [] ∨ b.isDelta = true ∨ 0 < b.cursorCount ∨ len ≤ 1 then none
      else some x).isSome = (decide (b.slots = []) && !b.isDelta && decide (b.cursorCount ≤ 0) &&
        decide (1 < len)) := by
  rw [Bool.eq_iff_iff]
  simp only [ne_eq, Option.isSome_ite', Bool.and_eq_true, decide_eq_true_eq,
    Bool.not_eq_true', not_or, not_not, Bool.not_eq_true, Int.not_lt, Nat.not_le, and_assoc]

/-- The checks on the leaf are those of the prune. -/
theorem isSome_pruneAt (resident : ℕ → Bool) : ∀ {h : ℕ} (n : TreeNode h) (path : List ℕ),
    (pruneAt resident h n path).isSome = prunableAt resident h n path
  | 0, _, _ => by simp [pruneAt, prunableAt]
  | 1, _, [] => rfl
  | 1, n, [i] => by
    simp only [pruneAt, prunableAt]
    cases hchild : InNodeStub.getChild resident (n : InNodeStub (TreeNode 0)) i with
    | none => rfl
    | some b => exact isSome_prune_checks b _ _
  | 1, _, _ :: _ :: _ => rfl
  | _ + 2, _, [] => rfl
  | h + 2, n, i :: path => by
    simp only [pruneAt, prunableAt]
    cases (InNodeStub.getChild resident n i : Option (TreeNode (h + 1))) with
    | none => rfl
    | some child => exact Option.isSome_map.trans (isSome_pruneAt resident child path)

/-! ### One call -/

variable {t t' : Tree} {s : CountedTree}

/-- A tree of a run: it holds a map, and no slot is deleted. -/
structure AllLive (t : Tree) : Prop where
  holds : ∃ m, Holds t m
  live : ∀ x ∈ t.slots, x.isDeleted = false

/-- Nothing is drained from a tree without deleted slots. -/
theorem AllLive.eq_of_drained (h : AllLive t) {l : List BinSlot} (hl : Drained t.slots l) :
    l = t.slots := by
  have hself : ∀ m : List BinSlot, (∀ x ∈ m, x.isDeleted = false) →
      m.filter (fun x => !x.isDeleted) = m := fun m hm =>
    List.filter_eq_self.2 fun x hx => by simp [hm x hx]
  have hlive := hl.live
  rwa [hself _ h.live, hself l fun x hx => h.live x (hl.sublist.subset hx)] at hlive

theorem AllLive.edit (h : AllLive t) {m' : Key → Option (List UInt8)} (hm' : Holds t' m')
    {k : Key} {g : Option BinSlot → Option BinSlot}
    (hed : EditsKey (keyCmp t.config.keyComparator) BinSlot.key k g t.slots t'.slots)
    (hconfig : t'.config = t.config)
    (hg : ∀ x, g (t.slotOf k) = some x → x.isDeleted = false) : AllLive t' := by
  refine ⟨⟨m', hm'⟩, fun x hx => ?_⟩
  have hself : keyCmp t.config.keyComparator x.key x.key = .eq := ReflCmp.compare_self
  have hlook : lookup (keyCmp t.config.keyComparator) BinSlot.key x.key t'.slots = some x := by
    have hsorted := hm'.wf.sorted
    rw [hconfig] at hsorted
    exact lookup_of_mem hsorted hx hself
  by_cases hk : keyCmp t.config.keyComparator k x.key = .eq
  · rw [← lookup_congr hk, hed.here] at hlook
    exact hg x hlook
  · rw [hed.elsewhere x.key hk] at hlook
    exact h.live x (of_lookup_eq_some hlook).1

theorem memory_edit (ht : TreeWF t) (ht' : TreeWF t') {k : Key}
    {g : Option BinSlot → Option BinSlot}
    (hed : EditsKey (keyCmp t.config.keyComparator) BinSlot.key k g t.slots t'.slots)
    (hconfig : t'.config = t.config) :
    t'.memory - ((g (t.slotOf k)).map slotCost).getD 0 =
      t.memory - ((t.slotOf k).map slotCost).getD 0 := by
  have hsorted := ht'.sorted
  rw [hconfig] at hsorted
  exact hed.sum_map ht.sorted hsorted slotCost

/-- What one call does to the counter. -/
structure CallCounted (s s' : CountedTree) (ok : Prop) : Prop where
  right : s'.counter = s'.tree.memory ↔ ok
  live : ok → AllLive s'.tree
  config : s'.tree.config = s.tree.config

/-- **An insertion** charges a new key, and nothing for a key it finds. -/
theorem CountedTree.insert_spec (hs : AllLive s.tree) (hright : s.counter = s.tree.memory)
    (hmin : 2 ≤ s.tree.config.maxEntriesPerNode) (isLocked : Option (Lsn → Bool)) (key : Key)
    (data : List UInt8) (lsn : Lsn) :
    ∃ s', s.insert isLocked key data lsn = some s' ∧
      CallCounted s s' (CounterOk s (.insert isLocked key data lsn)) := by
  obtain ⟨m, hm⟩ := hs.holds
  obtain ⟨t', flag, l, heq, hins⟩ := Tree.insert_spec hm.wf hmin isLocked key data lsn
  obtain ⟨t'', happ, hm', -⟩ := hm.apply hmin (.insert isLocked key data lsn)
  obtain rfl : t' = t'' := by
    rw [Tree.apply, heq] at happ
    exact Option.some.inj happ
  obtain rfl := hs.eq_of_drained hins.before.drained
  have hmem := memory_edit hm.wf hins.wf hins.edits hins.config
  have hlive : AllLive t' := by
    refine hs.edit hm' hins.edits hins.config fun x hx => ?_
    rw [Tree.upsert] at hx
    split at hx
    · obtain rfl := Option.some.inj hx
      rfl
    · obtain rfl := Option.some.inj hx
      cases s.tree.slotOf key <;> rfl
  have hflag : flag = wasAbsent (s.tree.slotOf key) := hins.flag_eq
  refine ⟨⟨t', if flag then s.counter + (key.length + data.length + binEntryOverhead : ℕ)
    else s.counter⟩, by rw [CountedTree.insert, heq]; rfl, ?_, fun _ => hlive, hins.config⟩
  cases hslot : s.tree.slotOf key with
  | none =>
    have hcost : ((s.tree.upsert key lsn (some data) none).map slotCost).getD 0 =
        (key.length + data.length + binEntryOverhead : ℕ) := by
      rw [Tree.upsert]
      split <;> rfl
    rw [hslot] at hmem hflag
    rw [hcost] at hmem
    subst hflag
    simp only [wasAbsent, Option.map_none, Option.getD_none, if_true, CounterOk, hslot,
      Option.mem_def, reduceCtorEq, false_implies, implies_true, iff_true] at hmem ⊢
    omega
  | some x =>
    have hx : x.isDeleted = false := hs.live x (of_lookup_eq_some hslot).1
    have hroot : s.tree.root.isNone = false := by
      cases hr : s.tree.root with
      | none => simp [Tree.slotOf, Tree.slots, hr] at hslot
      | some r => rfl
    rw [hslot] at hmem hflag
    subst hflag
    simp only [wasAbsent, Option.map_some, Option.getD_some, hx, Bool.false_eq_true, if_false,
      CounterOk, hslot, Option.mem_def, Option.some.injEq, forall_eq', Tree.upsert, hroot,
      upsertSlot, Option.elim_some, slotCost, BinSlot.overwrite, BinSlot.dataLength] at hmem ⊢
    omega

/-- **A deletion** credits the key it names and the data of its slot. -/
theorem CountedTree.delete_spec (hs : AllLive s.tree) (hright : s.counter = s.tree.memory)
    (hmin : 2 ≤ s.tree.config.maxEntriesPerNode) (expired : ℕ → Bool → Bool) (key : Key) :
    CallCounted s (s.delete expired key) (CounterOk s (.delete expired key)) := by
  obtain ⟨m, hm⟩ := hs.holds
  obtain ⟨hed, hflag⟩ := Tree.delete_spec hm.wf key
  obtain ⟨t', happ, hm', -⟩ := hm.apply hmin (.delete key)
  obtain rfl : (s.tree.delete key).1 = t' := Option.some.inj happ
  have hmem := memory_edit hm.wf hed.wf hed.edits hed.config
  refine ⟨?_, fun _ => hs.edit hm' hed.edits hed.config nofun, hed.config⟩
  show (if (s.tree.delete key).2 then _ else _) = (s.tree.delete key).1.memory ↔ _
  rw [hflag, (hm.searchWithData expired key).2]
  cases hslot : s.tree.slotOf key with
  | none =>
    rw [hslot] at hmem
    simp only [wasLive, Option.map_none, Option.getD_none, Bool.false_eq_true, if_false,
      CounterOk, hslot, Option.mem_def, reduceCtorEq, false_implies, implies_true, iff_true]
      at hmem ⊢
    omega
  | some x =>
    have hx : x.isDeleted = false := hs.live x (of_lookup_eq_some hslot).1
    have hdata : some x.data = (m key).map some := by
      have hlive := hm.live key
      rwa [Tree.liveSlot, hslot, Option.filter, if_pos (by simp [BinSlot.isLive, hx])] at hlive
    obtain ⟨d, hd, hxd⟩ := Option.map_eq_some_iff.1 hdata.symm
    rw [hslot] at hmem
    simp only [wasLive, Option.map_some, Option.map_none, Option.getD_none, Option.getD_some, hx,
      Bool.not_false, if_true, slotCost, BinSlot.dataLength, ← hxd, hd, CounterOk, hslot,
      Option.mem_def, Option.some.injEq, forall_eq'] at hmem ⊢
    omega

/-- **A prune** credits a separator, and takes no slot away. -/
theorem CountedTree.prune_spec (hs : AllLive s.tree) (hright : s.counter = s.tree.memory)
    (resident : ℕ → Bool) (find : (h : ℕ) → TreeNode h → Option (List ℕ)) :
    CallCounted s (s.prune resident find) (s.tree.prunable resident find = false) := by
  obtain ⟨m, hm⟩ := hs.holds
  cases hfound : s.tree.root.bind fun r => (find r.1 r.2).bind fun path =>
      (pruneAt resident r.1 r.2 path).map (Sigma.mk r.1) with
  | none =>
    have hprune : s.tree.pruneWhere resident find = (s.tree, false) := by
      rw [Tree.pruneWhere, hfound]
    have hno : s.tree.prunable resident find = false := by
      rw [Tree.prunable]
      cases hr : s.tree.root with
      | none => rfl
      | some r =>
        rw [Option.any_some]
        cases hpath : find r.1 r.2 with
        | none => rfl
        | some path =>
          rw [Option.any_some, ← isSome_pruneAt]
          simpa [hr, hpath] using hfound
    rw [CountedTree.prune, hprune, hno]
    exact ⟨by simpa using hright, fun _ => hs, rfl⟩
  | some r' =>
    have hprune : s.tree.pruneWhere resident find = ({ s.tree with root := some r' }, true) := by
      rw [Tree.pruneWhere, hfound]
    obtain ⟨r, hr, hpath⟩ := Option.bind_eq_some_iff.1 hfound
    obtain ⟨path, hfind, hat⟩ := Option.bind_eq_some_iff.1 hpath
    obtain ⟨n', hn', rfl⟩ := Option.map_eq_some_iff.1 hat
    have hyes : s.tree.prunable resident find = true := by
      rw [Tree.prunable, hr, Option.any_some, hfind, Option.any_some, ← isSome_pruneAt, hn']
      rfl
    -- the leaf had no slots
    obtain ⟨left, right, hbefore, hafter⟩ :=
      (pruneAt_spec (hm.wf.node r hr) (hm.wf.sized r hr) hn').slots
    have hmem : ({ s.tree with root := some ⟨r.1, n'⟩ } : Tree).memory = s.tree.memory := by
      rw [Tree.memory, Tree.memory, Tree.slots, Tree.slots, hr]
      simp only [hbefore, hafter]
    rw [CountedTree.prune, hprune, hyes]
    refine ⟨?_, fun hno => absurd hno (by decide), rfl⟩
    simp only [if_true, hmem, hright, Bool.true_eq_false, iff_false, binEntryOverhead]
    omega

/-- **One call**: it returns, and afterwards the counter is right exactly if it met the
condition. -/
theorem CountedTree.step_spec (hs : AllLive s.tree) (hright : s.counter = s.tree.memory)
    (hmin : 2 ≤ s.tree.config.maxEntriesPerNode) (call : CounterCall) :
    ∃ s', s.step call = some s' ∧ CallCounted s s' (CounterOk s call) := by
  cases call with
  | insert isLocked key data lsn => exact insert_spec hs hright hmin isLocked key data lsn
  | delete expired key => exact ⟨_, rfl, delete_spec hs hright hmin expired key⟩
  | pruneEmptyBin resident idKey => exact ⟨_, rfl, prune_spec hs hright resident _⟩
  | pruneEmptyBinById resident binNodeId => exact ⟨_, rfl, prune_spec hs hright resident _⟩

/-! ### Every run -/

/-- A tree without a root, with its counter at zero. -/
def CountedTree.new (config : TreeConfig) : CountedTree := ⟨Tree.new config, 0⟩

/-- **The counter is right throughout a run**, from an empty tree on, exactly if every insertion
that finds a slot keeps the length of its key and data together, every deletion names a key as
long as the one in the slot, and no call prunes a leaf. -/
theorem counter_exact_iff (config : TreeConfig) (hconfig : config.Sound)
    (calls : List CounterCall) :
    (∀ done rest s, calls = done ++ rest → run CountedTree.step (.new config) done = some s →
        s.counter = s.tree.memory) ↔
      Meets CountedTree.step CounterOk (.new config) calls := by
  have hempty : AllLive (Tree.new config) := ⟨⟨_, holds_new hconfig⟩, nofun⟩
  have hstep : ∀ (s : CountedTree) (call : CounterCall),
      (AllLive s.tree ∧ 2 ≤ s.tree.config.maxEntriesPerNode) → s.counter = s.tree.memory →
      (s.step call).elim (CounterOk s call) fun s' =>
        (s'.counter = s'.tree.memory ↔ CounterOk s call) ∧
          (CounterOk s call → AllLive s'.tree ∧ 2 ≤ s'.tree.config.maxEntriesPerNode) := by
    intro s call hs hright
    obtain ⟨s', hs', hcall⟩ := CountedTree.step_spec hs.1 hright hs.2 call
    rw [hs']
    exact ⟨hcall.right, fun hok => ⟨hcall.live hok, hcall.config ▸ hs.2⟩⟩
  exact right_throughout_iff hstep ⟨hempty, hconfig.room⟩ rfl calls

/-- Updates of the same length, deletions, and a prune of the only leaf, which is refused. -/
theorem counter_exact_over_updates :
    ∃ s, run CountedTree.step (.new nodesOfFour)
        [.insert none [1] [7] 0, .insert none [1] [8] 1, .insert none [2, 2] [] 2,
          .delete (fun _ _ => false) [1], .delete (fun _ _ => false) [2, 2],
          .pruneEmptyBin (fun _ => true) [1]] = some s ∧
      s.counter = s.tree.memory := by
  obtain ⟨s, hrun⟩ := Option.isSome_iff_exists.mp (show (run CountedTree.step (.new nodesOfFour)
    [.insert none [1] [7] 0, .insert none [1] [8] 1, .insert none [2, 2] [] 2,
      .delete (fun _ _ => false) [1], .delete (fun _ _ => false) [2, 2],
      .pruneEmptyBin (fun _ => true) [1]]).isSome = true by decide +kernel)
  exact ⟨s, hrun, (counter_exact_iff nodesOfFour ⟨by decide, by decide⟩ _).2 (by decide +kernel)
    _ [] s (List.append_nil _).symm hrun⟩

/-- **The counter misses a longer update**: one byte of data is replaced by two. -/
theorem counter_misses_longer_update :
    ∃ s, run CountedTree.step (.new nodesOfFour)
        [.insert none [1] [7] 0, .insert none [1] [7, 7] 1] = some s ∧
      s.counter = 38 ∧ s.tree.memory = 39 :=
  exists_run_of_any
    (P := fun s : CountedTree => s.counter = 38 ∧ s.tree.memory = 39) (by decide +kernel)

end Noxu
