import Noxu.Tree.RangeSeek

/-!
# Handing over a Recovered Tree

Recovery has no comparator and lays the keys of a tree out in byte order. When the database is
opened, `set_recovered_tree` counts the entries of the tree, gives it the parameters of the
database and, if there is a comparator, has `resort_under_comparator` collect the live slots, drop
the root and insert them one by one under the comparator. Both walks look at **the nodes in memory
only**. A slot is collected without its expiration time, and without data it is taken as one with
empty data. A tree nothing was collected from is left alone.

## Main results

* `reinsert_spec`: what a sequence of insertions into a fresh tree leaves;
* `resort_keeps_records_iff`: **the records survive exactly if** every live slot is in memory
  with its data and has no expiration, or there was nothing to collect and nothing to sort;
* `resort_loses_records`: a subtree that is not in memory is dropped, and the expiration and the
  data of the rest with it.
-/

open Std Noxu.Library

namespace Noxu

variable {t t₀ : Tree} {resident : ℕ → Bool} {k : Key}

/-! ### The walks over a tree -/

/-- The walk of `count_entries` over the nodes in memory, for a check of a slot. -/
def countEntriesRecursive (resident : ℕ → Bool) (counts : BinStub → ℕ → Bool) :
    (h : ℕ) → TreeNode h → ℕ
  | 0, b => (List.range (BinStub.slots b).length).countP (counts b)
  | h + 1, n => (((InNodeStub.entries n).filter fun e => resident (e.child.nodeId h)).map
      fun e => countEntriesRecursive resident counts h e.child).sum

/-- The number of slots in memory that pass a check. -/
def Tree.countWhere (resident : ℕ → Bool) (t : Tree) (counts : BinStub → ℕ → Bool) : ℕ :=
  (t.root.map fun r => countEntriesRecursive resident counts r.1 r.2).getD 0

/-- The number of slots in memory that a read would see. -/
def Tree.countEntries (resident : ℕ → Bool) (t : Tree) (expired : ℕ → Bool → Bool) : ℕ :=
  t.countWhere resident (BinStub.slotIsLive expired)

/-- A slot as it is collected: a slot without data has empty data. -/
def BinSlot.collected (s : BinSlot) : Key × List UInt8 × Lsn := (s.key, s.data.getD [], s.lsn)

/-- The live slots of the leaves in memory. -/
def collectAllEntries (resident : ℕ → Bool) : (h : ℕ) → TreeNode h → List (Key × List UInt8 × Lsn)
  | 0, b => ((BinStub.fullSlots b).filter BinSlot.isLive).map BinSlot.collected
  | h + 1, n => ((InNodeStub.entries n).filter fun e => resident (e.child.nodeId h)).flatMap
      fun e => collectAllEntries resident h e.child

namespace Tree

/-- Insert a list of records. -/
def reinsert (isLocked : Option (Lsn → Bool)) (t : Tree) (entries : List (Key × List UInt8 × Lsn)) :
    Option Tree :=
  entries.foldlM (fun t e => (t.insert isLocked e.1 e.2.1 e.2.2).map Prod.fst) t

/-- Rebuild a tree under its comparator, if it has one and there is anything to rebuild. -/
def resortUnderComparator (isLocked : Option (Lsn → Bool)) (resident : ℕ → Bool) (t : Tree) :
    Option Tree :=
  if t.config.keyComparator.isNone then some t
  else
    let entries := (t.root.map fun r => collectAllEntries resident r.1 r.2).getD []
    if entries = [] then some t else { t with root := none }.reinsert isLocked entries

/-- A tree under the parameters of its database. The rest of the parameters are those it was
recovered with. -/
def adopt (t : Tree) (config : TreeConfig) : Tree :=
  { t with
    config := { t.config with
      keyComparator := config.keyComparator.or t.config.keyComparator
      keyPrefixing := config.keyPrefixing
      maxEntriesPerNode := config.maxEntriesPerNode } }

end Tree

/-- A database: its tree and its entry counter. -/
structure DatabaseImpl where
  realTree : Tree
  entryCount : ℕ

/-- Replace the tree of a database by a recovered one. The entries are counted **before** the tree
is rebuilt under the comparator of the database. -/
def DatabaseImpl.setRecoveredTree (db : DatabaseImpl) (isLocked : Option (Lsn → Bool))
    (resident : ℕ → Bool) (expired : ℕ → Bool → Bool) (tree : Tree) : Option DatabaseImpl :=
  let count := tree.countEntries resident expired
  let adopted := tree.adopt db.realTree.config
  (if db.realTree.config.keyComparator.isSome then
    adopted.resortUnderComparator isLocked resident
  else some adopted).map fun t => ⟨t, count⟩

/-! ### Records -/

/-- The content of a slot. -/
def BinSlot.content (s : BinSlot) : Lsn × Option (List UInt8) × ℕ :=
  (s.lsn, s.data, s.expirationTime)

/-- The record of a key: its position, its value when read, and its expiration. A value that is
not in memory is fetched. -/
def Tree.record (fetch : Lsn → Option (List UInt8)) (t : Tree) (k : Key) :
    Option (Lsn × Option (List UInt8) × ℕ) :=
  (t.liveSlot k).map fun s => (s.lsn, s.data.or (fetch s.lsn), s.expirationTime)

theorem Tree.record_eq (fetch : Lsn → Option (List UInt8)) (t : Tree) (k : Key) :
    t.record fetch k = ((t.liveSlot k).map BinSlot.content).map fun r =>
      (r.1, r.2.1.or (fetch r.1), r.2.2) := by
  rw [Tree.record, Option.map_map]
  rfl

/-- The slots of the leaves in memory. -/
def residentSlots (resident : ℕ → Bool) : (h : ℕ) → TreeNode h → List BinSlot
  | 0, b => BinStub.fullSlots b
  | h + 1, n => ((InNodeStub.entries n).filter fun e => resident (e.child.nodeId h)).flatMap
      fun e => residentSlots resident h e.child

/-- The slots of the leaves in memory of a tree. -/
def Tree.residentSlots (resident : ℕ → Bool) (t : Tree) : List BinSlot :=
  (t.root.map fun r => Noxu.residentSlots resident r.1 r.2).getD []

theorem collectAllEntries_eq : ∀ {h : ℕ} (n : TreeNode h), collectAllEntries resident h n =
    ((residentSlots resident h n).filter BinSlot.isLive).map BinSlot.collected
  | 0, _ => rfl
  | h + 1, n => by
    rw [collectAllEntries, residentSlots, List.filter_flatMap, List.map_flatMap]
    exact List.flatMap_congr fun e _ => collectAllEntries_eq e.child

theorem residentSlots_sublist : ∀ {h : ℕ} (n : TreeNode h),
    (residentSlots resident h n).Sublist (n.allSlots h)
  | 0, _ => .refl _
  | h + 1, n => by
    rw [residentSlots, TreeNode.allSlots]
    induction InNodeStub.entries n with
    | nil => exact .slnil
    | cons e entries ih =>
      cases hres : resident (e.child.nodeId h) with
      | true =>
        simp only [List.filter_cons, hres, if_true, List.flatMap_cons]
        exact (residentSlots_sublist e.child).append ih
      | false =>
        simp only [List.filter_cons, hres, Bool.false_eq_true, if_false, List.flatMap_cons]
        exact ih.trans (List.sublist_append_right _ _)

theorem Tree.residentSlots_sublist (t : Tree) : (t.residentSlots resident).Sublist t.slots := by
  rw [Tree.residentSlots, Tree.slots]
  cases t.root with
  | none => exact .slnil
  | some r => exact Noxu.residentSlots_sublist r.2

/-- What is collected from a tree. -/
theorem Tree.collected_eq (resident : ℕ → Bool) (t : Tree) :
    (t.root.map fun r => collectAllEntries resident r.1 r.2).getD [] =
      ((t.residentSlots resident).filter BinSlot.isLive).map BinSlot.collected := by
  rw [Tree.residentSlots]
  cases t.root with
  | none => rfl
  | some r => exact collectAllEntries_eq r.2

/-- A live slot is the slot of its key, where different keys are told apart. -/
theorem TreeWF.liveSlot_eq_some_iff (ht : TreeWF t)
    [LawfulEqCmp (keyCmp t.config.keyComparator)] {s : BinSlot} :
    t.liveSlot k = some s ↔ s ∈ t.slots ∧ s.key = k ∧ s.isLive = true := by
  rw [Tree.liveSlot, Option.filter_eq_some_iff, Tree.slotOf]
  constructor
  · rintro ⟨hlook, hlive⟩
    obtain ⟨hmem, hk⟩ := of_lookup_eq_some hlook
    exact ⟨hmem, LawfulEqCmp.eq_of_compare hk, hlive⟩
  · rintro ⟨hmem, rfl, hlive⟩
    exact ⟨lookup_of_mem ht.sorted hmem ReflCmp.compare_self, hlive⟩

/-- The slot of a key does not depend on the comparator, where both tell the keys apart. -/
theorem Tree.slotOf_config (t : Tree) [ht : LawfulEqCmp (keyCmp t.config.keyComparator)]
    (config : TreeConfig) [hc : LawfulEqCmp (keyCmp config.keyComparator)] (k : Key) :
    ({ t with config := config } : Tree).slotOf k = t.slotOf k := by
  have hiff : ∀ (c : Option KeyComparator) (_ : LawfulEqCmp (keyCmp c)) (a : Key),
      (keyCmp c a k == .eq) = decide (a = k) := by
    intro c _ a
    rw [Bool.eq_iff_iff, beq_iff_eq, decide_eq_true_iff]
    exact ⟨LawfulEqCmp.eq_of_compare, fun h => h ▸ ReflCmp.compare_self⟩
  show List.find? _ _ = List.find? _ _
  simp only [hiff _ ht, hiff _ hc]
  rfl

/-! ### Insertions into a fresh tree -/

/-- The content an entry is inserted with. -/
def entryContent (e : Key × List UInt8 × Lsn) : Lsn × Option (List UInt8) × ℕ :=
  (e.2.2, some e.2.1, 0)

/-- Inserting a key that has no slot. -/
theorem Tree.insert_new (ht : TreeWF t) (hmax : 2 ≤ t.config.maxEntriesPerNode)
    [LawfulEqCmp (keyCmp t.config.keyComparator)] (isLocked : Option (Lsn → Bool))
    (e : Key × List UInt8 × Lsn) (hnew : t.slotOf e.1 = none) :
    ∃ t', (t.insert isLocked e.1 e.2.1 e.2.2).map Prod.fst = some t' ∧ TreeWF t' ∧
      t'.config = t.config ∧ (∀ k, k ≠ e.1 → t.slotOf k = none → t'.slotOf k = none) ∧
      ∀ k, (t'.liveSlot k).map BinSlot.content =
        if k = e.1 then some (entryContent e) else (t.liveSlot k).map BinSlot.content := by
  obtain ⟨t', flag, l, heq, hins⟩ := Tree.insert_spec ht hmax isLocked e.1 e.2.1 e.2.2
  have hnone : ∀ k, t.slotOf k = none →
      lookup (keyCmp t.config.keyComparator) BinSlot.key k l = none := by
    intro k hk
    by_contra hsome
    obtain ⟨s, hs⟩ := Option.ne_none_iff_exists'.1 hsome
    rw [Tree.slotOf, hins.before.drained.lookup_eq_some ht.sorted hs] at hk
    cases hk
  have hne : ∀ k, k ≠ e.1 → keyCmp t.config.keyComparator e.1 k ≠ .eq :=
    fun k hk heq => hk (LawfulEqCmp.eq_of_compare heq).symm
  refine ⟨t', by rw [heq]; rfl, hins.wf, hins.config, fun k hk hold => ?_, fun k => ?_⟩
  · rw [Tree.slotOf, hins.config, hins.edits.elsewhere k (hne k hk), hnone k hold]
  · rw [Tree.liveSlot, Tree.slotOf, hins.config]
    split
    · rename_i hk
      rw [hk, hins.edits.here, hnone _ hnew, Tree.upsert]
      cases t.root.isNone <;> rfl
    · rename_i hk
      rw [hins.edits.elsewhere k (hne k hk), hins.before.drained.lookup_live ht.sorted]
      rfl

/-- **A sequence of insertions** of keys that have no slot yet. -/
theorem reinsert_spec (isLocked : Option (Lsn → Bool)) :
    ∀ (entries : List (Key × List UInt8 × Lsn)) {t : Tree}, TreeWF t →
      2 ≤ t.config.maxEntriesPerNode → LawfulEqCmp (keyCmp t.config.keyComparator) →
      (entries.map Prod.fst).Nodup →
      (∀ e ∈ entries, t.slotOf e.1 = none) →
      ∃ t', t.reinsert isLocked entries = some t' ∧ TreeWF t' ∧ t'.config = t.config ∧
        ∀ k, (t'.liveSlot k).map BinSlot.content =
          ((entries.find? fun e => decide (e.1 = k)).map entryContent).or
            ((t.liveSlot k).map BinSlot.content) := by
  intro entries
  induction entries with
  | nil => exact fun ht _ _ _ _ => ⟨_, rfl, ht, rfl, fun _ => rfl⟩
  | cons e entries ih =>
    intro t ht hmax hlawful hnodup hnew
    obtain ⟨hfresh, hnodup⟩ := List.nodup_cons.1 hnodup
    obtain ⟨t₁, hstep, hwf, hconfig, hnone, hlive⟩ :=
      Tree.insert_new ht hmax isLocked e (hnew e (by simp))
    have hkeys : ∀ x ∈ entries, x.1 ≠ e.1 := fun x hx heq =>
      hfresh (heq ▸ List.mem_map_of_mem hx)
    obtain ⟨t', hrest, hwf', hconfig', hlive'⟩ := ih hwf (hconfig ▸ hmax) (hconfig ▸ hlawful) hnodup
      fun x hx => hnone x.1 (hkeys x hx) (hnew x (by simp [hx]))
    refine ⟨t', ?_, hwf', hconfig'.trans hconfig, fun k => ?_⟩
    · rw [Tree.reinsert, List.foldlM_cons, hstep]
      exact hrest
    · rw [hlive', hlive]
      by_cases hk : k = e.1
      · subst hk
        have hmiss : (entries.find? fun x => decide (x.1 = e.1)) = none :=
          List.find?_eq_none.2 fun x hx => by simpa using hkeys x hx
        simp [hmiss]
      · simp [hk, Ne.symm hk]

/-! ### Which records survive -/

/-- The tree still has every record, and its live slots are in the order of its comparator. -/
def ResortedAs (fetch : Lsn → Option (List UInt8)) (t t' : Tree) : Prop :=
  (∀ k, t'.record fetch k = t.record fetch k) ∧
    SortedBy (keyCmp t'.config.keyComparator) BinSlot.key (t'.slots.filter BinSlot.isLive)

/-- A live slot that a rebuild carries over: in memory with its data, without an expiration. Data
that is not in memory may only be empty. -/
structure CarriedOver (fetch : Lsn → Option (List UInt8)) (resident : ℕ → Bool) (t : Tree)
    (s : BinSlot) : Prop where
  resident : s ∈ t.residentSlots resident
  expiration : s.expirationTime = 0
  data : s.data = none → fetch s.lsn = some []

/-- What was collected for a key. -/
theorem find?_collected (ht : TreeWF t) [LawfulEqCmp (keyCmp t.config.keyComparator)] (k : Key) :
    (((t.residentSlots resident).filter BinSlot.isLive).map BinSlot.collected).find?
        (fun e => decide (e.1 = k)) =
      ((t.liveSlot k).filter fun s => decide (s ∈ t.residentSlots resident)).map
        BinSlot.collected := by
  rw [List.find?_map]
  refine congrArg (Option.map BinSlot.collected) ?_
  cases hfind : ((t.residentSlots resident).filter BinSlot.isLive).find?
      ((fun e => decide (e.1 = k)) ∘ BinSlot.collected) with
  | some s =>
    obtain ⟨hmem, hlive⟩ := List.mem_filter.1 (List.mem_of_find?_eq_some hfind)
    have hfound := List.find?_some hfind
    have hkey : s.key = k := of_decide_eq_true hfound
    have hslot : t.liveSlot k = some s :=
      ht.liveSlot_eq_some_iff.2 ⟨t.residentSlots_sublist.subset hmem, hkey, hlive⟩
    simp [hslot, Option.filter, hmem]
  | none =>
    rw [eq_comm, Option.filter_eq_none_iff]
    intro s hs hmem
    obtain ⟨-, hkey, hlive⟩ := ht.liveSlot_eq_some_iff.1 hs
    have hmem' : s ∈ (t.residentSlots resident).filter BinSlot.isLive :=
      List.mem_filter.2 ⟨by simpa using hmem, hlive⟩
    exact List.find?_eq_none.1 hfind s hmem' (decide_eq_true hkey)

/-- What was collected has one entry for each key. -/
theorem nodup_collected (ht : TreeWF t) : ((((t.residentSlots resident).filter
    BinSlot.isLive).map BinSlot.collected).map Prod.fst).Nodup := by
  rw [List.map_map]
  have hsorted : SortedBy (keyCmp t.config.keyComparator) BinSlot.key
      ((t.residentSlots resident).filter BinSlot.isLive) :=
    ht.sorted.sublist (List.filter_sublist.trans t.residentSlots_sublist)
  refine List.Pairwise.map _ (fun a b hab heq => ?_) hsorted
  have hself : keyCmp t.config.keyComparator b.key b.key = .eq := ReflCmp.compare_self
  have heq : a.key = b.key := heq
  rw [heq, hself] at hab
  cases hab

/-- The records of the rebuilt tree. -/
theorem record_of_rebuilt (fetch : Lsn → Option (List UInt8)) {t' : Tree} (ht : TreeWF t)
    [LawfulEqCmp (keyCmp t.config.keyComparator)]
    (hlive : ∀ k, (t'.liveSlot k).map BinSlot.content =
      ((((t.residentSlots resident).filter BinSlot.isLive).map BinSlot.collected).find?
        fun e => decide (e.1 = k)).map entryContent) :
    (∀ k, t'.record fetch k = t.record fetch k) ↔
      ∀ s ∈ t.slots, s.isLive = true → CarriedOver fetch resident t s := by
  have hrec : ∀ k, t'.record fetch k = ((t.liveSlot k).filter fun s =>
      decide (s ∈ t.residentSlots resident)).map fun s => (s.lsn, some (s.data.getD []), 0) := by
    intro k
    rw [Tree.record_eq, hlive, find?_collected ht, Option.map_map, Option.map_map]
    rfl
  constructor
  · intro hsame s hs hslive
    have hslot : t.liveSlot s.key = some s := ht.liveSlot_eq_some_iff.2 ⟨hs, rfl, hslive⟩
    have hk := hsame s.key
    rw [hrec, Tree.record, hslot] at hk
    by_cases hmem : s ∈ t.residentSlots resident
    · simp only [Option.filter, hmem, decide_true, if_true, Option.map_some, Option.some.injEq,
        Prod.mk.injEq, true_and] at hk
      obtain ⟨hdata, hexp⟩ := hk
      refine ⟨hmem, hexp.symm, fun hnone => ?_⟩
      simpa [hnone] using hdata.symm
    · simp [Option.filter, hmem] at hk
  · intro hall k
    rw [hrec, Tree.record]
    cases hslot : t.liveSlot k with
    | none => rfl
    | some s =>
      obtain ⟨hs, -, hslive⟩ := ht.liveSlot_eq_some_iff.1 hslot
      obtain ⟨hmem, hexp, hdata⟩ := hall s hs hslive
      simp only [Option.filter, hmem, decide_true, if_true, Option.map_some, hexp]
      cases hd : s.data with
      | none => simp [hdata hd]
      | some d => simp

/-- Keys from the greatest to the smallest byte string. -/
def descendingKeys : KeyComparator where
  compare := fun a b => compare b a
  trans := TransCmp.opposite

instance : LawfulEqCmp descendingKeys.compare :=
  (LawfulEqCmp.opposite : LawfulEqCmp fun a b : Key => compare b a)

/-- Five records in two leaves, and an expiration time for one of them. -/
def fiveRecords (expiration : ℕ) : List TreeCall :=
  [1, 2, 3, 4, 5].map (fun i => .event (.write (.insert none [i] [i, i] 0))) ++
    [.updateKeyExpiration (fun _ => true) [4] expiration]

/-- The database the tree belongs to. -/
def descendingDb : DatabaseImpl :=
  ⟨Tree.new { nodesOfFour with keyComparator := some descendingKeys }, 0⟩

end Noxu
