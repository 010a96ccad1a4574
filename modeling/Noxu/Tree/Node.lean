import Noxu.Tree.Bin

/-!
# The B+Tree

A faithful model of the tree over the bottom nodes of `Noxu.Tree.Bin`: upper nodes, the
descent, point search, insertion with pre-emptive splitting, physical deletion, deletion
marks and the redo variants of insertion. Nodes are indexed by their height, so that a
tree of uneven depth cannot be built; a shared mutable node is a value that the update
functions rebuild along the descent path. Every child is resident: reading a node back
from the log is the subject of `Noxu.Tree.Image`.

An upper node routes a key to the last slot whose key does not exceed it; the key of
slot 0 is never compared. The source has two such routings, a linear scan in the
writing paths (`scanFloorIndex`) and a partition point in the reading ones
(`upperInFloorIndex`), and both are kept. Re-descents after a split are bounded by fuel.
-/

open Std Noxu.Library

namespace Noxu

/-! ### Nodes -/

/-- A slot of an upper node: the separator key, the LSN of the child's last image, and
the child. -/
structure InEntry (α : Type) where
  /-- The separator; the one of slot 0 is a virtual minus infinity. -/
  key : Key
  /-- LSN of the child's last logged image. -/
  lsn : Lsn
  /-- The child node. -/
  child : α
  deriving DecidableEq, Repr

/-- An upper internal node. -/
structure InNodeStub (α : Type) where
  /-- Node identifier. -/
  nodeId : ℕ
  /-- Slots in key order. -/
  entries : List (InEntry α)
  /-- The node changed since it was last logged. -/
  dirty : Bool
  /-- LSN of the last full image. -/
  lastFullLsn : Lsn
  deriving DecidableEq, Repr

/-- Nodes of a given height: a bottom node, or an upper node over nodes one below. -/
def TreeNode : ℕ → Type
  | 0 => BinStub
  | h + 1 => InNodeStub (TreeNode h)

namespace TreeNode

/-- The number of slots of a node. -/
def nEntries : (h : ℕ) → TreeNode h → ℕ
  | 0, b => BinStub.slots b |>.length
  | _ + 1, n => InNodeStub.entries n |>.length

/-- The full keys of a node's slots. -/
def keys : (h : ℕ) → TreeNode h → List Key
  | 0, b => (BinStub.fullSlots b).map BinSlot.key
  | _ + 1, n => (InNodeStub.entries n).map InEntry.key

/-- The slots of all leaves below a node, in leaf order. -/
def allSlots : (h : ℕ) → TreeNode h → List BinSlot
  | 0, b => BinStub.fullSlots b
  | h + 1, n => (InNodeStub.entries n).flatMap fun e => allSlots h e.child

end TreeNode

/-- Replace the child of a slot. -/
def InNodeStub.setChild {α : Type} (n : InNodeStub α) (idx : ℕ) (child : α) :
    InNodeStub α :=
  { n with entries := n.entries.modify idx fun e => { e with child := child } }

/-- The parameters a tree is opened with. -/
structure TreeConfig where
  /-- The database the tree belongs to. -/
  databaseId : ℕ
  /-- The user comparator, if any. -/
  keyComparator : Option KeyComparator
  /-- Slots at which a node is full. -/
  maxEntriesPerNode : ℕ
  /-- Keys are prefix-compressed. -/
  keyPrefixing : Bool
  /-- Expired slots are hidden. -/
  expirationEnabled : Bool
  /-- Largest data length embedded in an image. -/
  maxEmbeddedLn : ℤ
  /-- The suffixes of a leaf are packed when none of them is longer. -/
  compactMaxKeyLength : ℤ

/-- A B+tree: its parameters, the root if there is one, and the node-id counter. -/
structure Tree where
  /-- Parameters. -/
  config : TreeConfig
  /-- The root with its height. -/
  root : Option (Σ h, TreeNode h)
  /-- The next node identifier to be handed out. -/
  nextNodeId : ℕ

/-- An empty tree. -/
def Tree.new (config : TreeConfig) : Tree := ⟨config, none, 0⟩

/-! ### Routing -/

/-- The scan of the writing paths over the keys from slot 1 on: advance while the key
does not exceed the sought one. -/
def scanFloorLoop (cmp : Key → Key → Ordering) (key : Key) : ℕ → List Key → ℕ
  | idx, [] => idx
  | idx, k :: ks => if cmp k key != .gt then scanFloorLoop cmp key (idx + 1) ks else idx

/-- The slot a key is routed to in the writing paths. -/
def scanFloorIndex (cmp : Key → Key → Ordering) (keys : List Key) (key : Key) : ℕ :=
  scanFloorLoop cmp key 0 keys.tail

/-- The slot a key is routed to in the reading paths. -/
def upperInFloorIndex (cmp : Key → Key → Ordering) (keys : List Key) (key : Key) : ℕ :=
  if keys.length ≤ 1 then 0
  else partitionPoint (fun k => cmp k key != .gt) keys.tail

/-- Descend to the leaf of a key and edit it; `dflt` is the answer of a dead end. -/
def updateBin {β : Type} (floor : List Key → Key → ℕ) (dflt : β)
    (f : BinStub → BinStub × β) (key : Key) : (h : ℕ) → TreeNode h → TreeNode h × β
  | 0, b => f b
  | h + 1, n =>
    let n : InNodeStub (TreeNode h) := n
    let idx := floor (n.entries.map InEntry.key) key
    match n.entries[idx]? with
    | none => (n, dflt)
    | some e =>
      let (child, r) := updateBin floor dflt f key h e.child
      (n.setChild idx child, r)

/-- Descend to the leaf of a key. -/
def getParentBinForChildLn (cmp : Key → Key → Ordering) (key : Key) :
    (h : ℕ) → TreeNode h → Option BinStub
  | 0, b => some b
  | h + 1, n =>
    let n : InNodeStub (TreeNode h) := n
    match n.entries[upperInFloorIndex cmp (n.entries.map InEntry.key) key]? with
    | none => none
    | some e => getParentBinForChildLn cmp key h e.child

/-! ### Children in memory -/

/-- The identifier of a node. -/
def TreeNode.nodeId : (h : ℕ) → TreeNode h → ℕ
  | 0, b => BinStub.nodeId b
  | _ + 1, n => InNodeStub.nodeId n

/-- The child of a slot, if it is in memory. -/
def InNodeStub.getChild {h : ℕ} (resident : ℕ → Bool) (n : InNodeStub (TreeNode h)) (idx : ℕ) :
    Option (TreeNode h) :=
  (n.entries[idx]?.map InEntry.child).filter fun child => resident (child.nodeId h)

/-- Descend to the leaf of a key through children in memory. -/
def reachesBin (resident : ℕ → Bool) (cmp : Key → Key → Ordering) (key : Key) :
    (h : ℕ) → TreeNode h → Bool
  | 0, _ => true
  | h + 1, n =>
    let n : InNodeStub (TreeNode h) := n
    (n.getChild resident (upperInFloorIndex cmp (n.entries.map InEntry.key) key)).any
      (reachesBin resident cmp key h)

/-! ### Point search -/

/-- The flag `find_entry` sets on an exact match. -/
def exactMatch : BitVec 32 := 0x10000#32

/-- The 32-bit answer of `find_entry` in a leaf, for an exact search. -/
def BinStub.findEntryExact (b : BinStub) (key : Key) : BitVec 32 :=
  let (idx, found) := b.findEntryCompressed key
  if found then BitVec.ofNat 32 idx ||| exactMatch else -1#32

/-- The answer of `search`: the found flag and the 32-bit slot index. -/
structure SearchResult where
  /-- The key has a visible slot. -/
  found : Bool
  /-- The slot index as reported. -/
  index : BitVec 32
  deriving DecidableEq, Repr

/-- The answer of `search_with_data`. -/
structure SlotFetch where
  /-- The key has a visible slot. -/
  found : Bool
  /-- The data cached in the slot. -/
  data : Option (List UInt8)
  /-- The LSN of the slot. -/
  lsn : Lsn
  /-- The slot index. -/
  slotIndex : ℕ
  /-- LSN, index and expiration of a slot that is expired but not deleted. -/
  expiredSlot : Option (Lsn × ℕ × ℕ × Bool)
  /-- LSN of a deleted slot. -/
  kdLsn : Option Lsn
  deriving DecidableEq, Repr

/-- The leaf step of `search`. The liveness check masks the index to 15 bits. -/
def BinStub.search (expired : ℕ → Bool → Bool) (c : Option KeyComparator) (b : BinStub)
    (key : Key) : SearchResult :=
  let (found, rawIdx) : Bool × BitVec 32 :=
    match c with
    | some c =>
      let (idx, exact) := b.findEntryCmp key c.compare
      (exact, BitVec.ofNat 32 idx)
    | none =>
      let index := b.findEntryExact key
      let exact := !index.msb && index &&& exactMatch != 0#32
      (exact, index &&& 0xFFFF#32)
  ⟨if found then b.slotIsLive expired (rawIdx &&& 0x7FFF#32).toNat else found, rawIdx⟩

/-- A slot is past its expiration time but carries no deletion mark. -/
def BinStub.slotExpiredNotDeleted (expired : ℕ → Bool → Bool) (b : BinStub) (idx : ℕ) :
    Bool :=
  match b.slots[idx]? with
  | some s =>
    !s.isDeleted && b.expirationEnabled && s.expirationTime != 0 &&
      expired s.expirationTime b.expirationInHours
  | none => false

/-- The leaf step of `search_with_data`. -/
def BinStub.searchWithData (expired : ℕ → Bool → Bool) (c : Option KeyComparator)
    (b : BinStub) (key : Key) : SlotFetch :=
  let (idx, exact) := b.findEntry c key
  match exact, b.slots[idx]? with
  | true, some s =>
    let kdLsn := if s.isDeleted then some s.lsn else none
    if b.slotIsLive expired idx then ⟨true, s.data, s.lsn, idx, none, kdLsn⟩
    else
      let expiredSlot :=
        if b.slotExpiredNotDeleted expired idx then
          some (s.lsn, idx, s.expirationTime, b.expirationInHours)
        else none
      ⟨false, none, 0, 0, expiredSlot, kdLsn⟩
  | _, _ => ⟨false, none, 0, 0, none, none⟩

/-- Point search; `none` on an empty tree. -/
def Tree.search (expired : ℕ → Bool → Bool) (t : Tree) (key : Key) : Option SearchResult := do
  let root ← t.root
  let b ← getParentBinForChildLn (keyCmp t.config.keyComparator) key root.1 root.2
  pure (b.search expired t.config.keyComparator key)

/-- Point search with the cached data; `none` on an empty tree. -/
def Tree.searchWithData (expired : ℕ → Bool → Bool) (t : Tree) (key : Key) :
    Option SlotFetch := do
  let root ← t.root
  let b ← getParentBinForChildLn (keyCmp t.config.keyComparator) key root.1 root.2
  pure (b.searchWithData expired t.config.keyComparator key)

/-- The LSN of a key's slot and whether the slot is deleted. -/
def Tree.slotLsnAny (t : Tree) (key : Key) : Option (Lsn × Bool) := do
  let root ← t.root
  let b ← getParentBinForChildLn (keyCmp t.config.keyComparator) key root.1 root.2
  let (idx, exact) := b.findEntry t.config.keyComparator key
  if exact then b.slots[idx]?.map fun s => (s.lsn, s.isDeleted) else none

/-! ### Splitting -/

/-- Where a split should lean, from the descent so far. -/
inductive SplitHint where
  | normal
  | allLeft
  | allRight
  deriving DecidableEq, Repr

/-- The index at which a full node is cut. -/
def splitIndex (cmp : Key → Key → Ordering) (hint : SplitHint) (keys : List Key)
    (insertKey : Key) : ℕ :=
  let n := keys.length
  if 2 ≤ n then
    let insertIdx := scanFloorLoop cmp insertKey 0 keys.tail
    match hint with
    | .allLeft => if insertIdx = 0 then 1 else n / 2
    | .allRight => if insertIdx = n - 1 then n - 1 else n / 2
    | .normal => n / 2
  else n / 2

/-- Install slots with their full keys, not packed; then learn their common prefix if the tree
prefixes its keys and there are two of them, or else pack the keys if they are short enough. -/
def BinStub.installSlots (keyPrefixing : Bool) (b : BinStub) (slots : List BinSlot) :
    BinStub :=
  if keyPrefixing && 2 ≤ slots.length then
    { b with keyPrefix := [], keyWidth := none, slots := slots }.recomputeKeyPrefix
  else { b with keyPrefix := [], keyWidth := none, slots := slots }.compactKeys

/-- Cut a leaf: the left half stays in the node and prohibits the next delta, the right
half becomes a sibling that was never logged. -/
def BinStub.splitAt (keyPrefixing : Bool) (b : BinStub) (idx newId : ℕ) :
    BinStub × BinStub :=
  ({ b with prohibitNextDelta := true, dirty := true }.installSlots keyPrefixing
      (b.fullSlots.take idx),
    { b with
      nodeId := newId
      dirty := true
      isDelta := false
      lastFullLsn := nullLsn
      lastDeltaLsn := nullLsn
      cursorCount := 0
      prohibitNextDelta := false }.installSlots keyPrefixing (b.fullSlots.drop idx))

/-- Cut a node of any height. -/
def TreeNode.splitAt (keyPrefixing : Bool) :
    (h : ℕ) → TreeNode h → ℕ → ℕ → TreeNode h × TreeNode h
  | 0, b, idx, newId => BinStub.splitAt keyPrefixing b idx newId
  | h + 1, n, idx, newId =>
    let n : InNodeStub (TreeNode h) := n
    let left : InNodeStub (TreeNode h) :=
      { n with entries := n.entries.take idx, dirty := true }
    let right : InNodeStub (TreeNode h) :=
      { nodeId := newId, entries := n.entries.drop idx, dirty := true,
        lastFullLsn := nullLsn }
    (left, right)

/-- Split the child of a slot if it is full; the slot is routed again unless the
insertion key is empty. The sibling takes the identifier `gen`. -/
def splitChild (config : TreeConfig) {h : ℕ} (parent : InNodeStub (TreeNode h))
    (childIndex : ℕ) (hint : SplitHint) (insertKey : Key) (gen : ℕ) :
    Option (InNodeStub (TreeNode h) × ℕ) :=
  let cmp := keyCmp config.keyComparator
  let childIndex :=
    if insertKey = [] then childIndex
    else partitionPoint (fun k => cmp k insertKey != .gt)
      (parent.entries.map InEntry.key).tail
  match parent.entries[childIndex]? with
  | none => none
  | some e =>
    if e.child.nEntries h < config.maxEntriesPerNode then some (parent, gen)
    else
      let allKeys := e.child.keys h
      let idx := splitIndex cmp hint allKeys insertKey
      -- reading the separator of an empty child is a panic in the source
      allKeys[idx]?.map fun newIdKey =>
        let (left, right) := e.child.splitAt config.keyPrefixing h idx gen
        ({ parent with
            entries := (parent.setChild childIndex left).entries.insertIdx (childIndex + 1)
              ⟨newIdKey, nullLsn, right⟩
            dirty := true }, gen + 1)

/-- Grow the tree by one level when the root is full. -/
def splitRootIfNeeded (config : TreeConfig) (lsn : Lsn) (root : Σ h, TreeNode h)
    (gen : ℕ) : Option ((Σ h, TreeNode h) × ℕ) :=
  if root.2.nEntries root.1 < config.maxEntriesPerNode then some (root, gen)
  else
    let newRoot : InNodeStub (TreeNode root.1) :=
      { nodeId := gen, entries := [⟨[], lsn, root.2⟩], dirty := true,
        lastFullLsn := nullLsn }
    (splitChild config newRoot 0 .normal [] (gen + 1)).map fun r => (⟨root.1 + 1, r.1⟩, r.2)

/-! ### Draining deleted slots -/

/-- A deleted slot may be removed unless its LSN is locked. -/
def BinSlot.isRemovable (isLocked : Option (Lsn → Bool)) (s : BinSlot) : Bool :=
  s.isDeleted &&
    !(match isLocked with
      | some f => s.lsn != nullLsn && f s.lsn
      | none => false)

/-- The removal loop, from the last slot below `j` down to the first. -/
def BinStub.drainLoop (isLocked : Option (Lsn → Bool)) : ℕ → BinStub → BinStub
  | 0, b => b
  | j + 1, b =>
    drainLoop isLocked j
      (if (b.slots[j]?.map (BinSlot.isRemovable isLocked)).getD false then b.removeSlot j
        else b)

/-- Remove the deleted slots that are not locked, then refresh the prefix; reports
whether a slot went. Deltas are left alone. -/
def BinStub.drain (keyPrefixing : Bool) (isLocked : Option (Lsn → Bool)) (b : BinStub) :
    BinStub × Bool :=
  if b.isDelta then (b, false)
  else
    let b' := b.drainLoop isLocked b.slots.length
    let b'' := if keyPrefixing then b'.recomputeKeyPrefix
      else if b'.keyPrefix ≠ [] then b'.applyNewPrefix [] else b'
    (b'', decide (b''.slots.length < b.slots.length))

/-- Draining a child before splitting it: only a leaf has anything to drain. -/
def drainKnownDeletedForSplit (keyPrefixing : Bool) (isLocked : Option (Lsn → Bool)) :
    (h : ℕ) → TreeNode h → TreeNode h × Bool
  | 0, b => BinStub.drain keyPrefixing isLocked b
  | _ + 1, n => (n, false)

/-! ### Insertion -/

/-- The split hint of a descent. -/
def splitHintOf (allLeft allRight : Bool) : SplitHint :=
  if allLeft then .allLeft else if allRight then .allRight else .normal

/-- The descent that `insert` and `redo_insert` share: make room in a full child, by
draining or else by splitting it, and route again, or go down to the leaf. -/
def insertDescent (config : TreeConfig) (drain : (h : ℕ) → TreeNode h → TreeNode h × Bool)
    (leaf : BinStub → BinStub × Bool) (key : Key) :
    ℕ → (h : ℕ) → TreeNode h → Bool → Bool → ℕ → Option (TreeNode h × Bool × ℕ)
  | 0, _, _, _, _, _ => none
  | _ + 1, 0, b, _, _, gen => some ((leaf b).1, (leaf b).2, gen)
  | fuel + 1, h + 1, n, allLeftSoFar, allRightSoFar, gen =>
    let n : InNodeStub (TreeNode h) := n
    let idx := scanFloorIndex (keyCmp config.keyComparator) (n.entries.map InEntry.key) key
    match n.entries[idx]? with
    | none => none
    | some e =>
      let allLeft := allLeftSoFar && idx == 0
      let allRight := allRightSoFar && idx == n.entries.length - 1
      if e.child.nEntries h < config.maxEntriesPerNode then
        (insertDescent config drain leaf key fuel h e.child allLeft allRight gen).map
          fun r => (n.setChild idx r.1, r.2)
      else
        let (child, drained) := drain h e.child
        let n := n.setChild idx child
        if drained then
          insertDescent config drain leaf key fuel (h + 1) n allLeftSoFar
            allRightSoFar gen
        else
          (splitChild config n idx (splitHintOf allLeft allRight) key gen).bind
            fun r => insertDescent config drain leaf key fuel (h + 1) r.1 allLeftSoFar
              allRightSoFar r.2

/-- The descent of `insert`. -/
def insertRecursiveInner (config : TreeConfig) (isLocked : Option (Lsn → Bool)) (key : Key)
    (data : List UInt8) (lsn : Lsn) :
    ℕ → (h : ℕ) → TreeNode h → Bool → Bool → ℕ → Option (TreeNode h × Bool × ℕ) :=
  insertDescent config (drainKnownDeletedForSplit config.keyPrefixing isLocked)
    (fun b => b.insertEntry config.keyComparator config.keyPrefixing key lsn (some data)) key

/-- The LSN of a key's slot, found as the matching insertion would find it. -/
def BinStub.redoSlotLsn (c : Option KeyComparator) (keyPrefixing : Bool) (b : BinStub)
    (key : Key) : Option Lsn :=
  let (idx, found) :=
    match c with
    | some c => b.findEntryCmp key c.compare
    | none =>
      if keyPrefixing then b.findEntryCompressed key
      else searchResult (b.keyBinarySearch key)
  if found then b.slots[idx]?.map BinSlot.lsn else none

/-- The leaf step of `redo_insert`: a slot at an equal or newer LSN is left alone. -/
def BinStub.redoEntry (c : Option KeyComparator) (keyPrefixing : Bool) (key : Key)
    (lsn : Lsn) (data : Option (List UInt8)) (b : BinStub) : BinStub × Bool :=
  match b.redoSlotLsn c keyPrefixing key with
  | some slotLsn =>
    if lsn ≤ slotLsn then (b, false) else b.insertEntry c keyPrefixing key lsn data
  | none => b.insertEntry c keyPrefixing key lsn data

/-- The descent of `redo_insert`, which never drains. -/
def redoInsertRecursiveInner (config : TreeConfig) (key : Key)
    (data : Option (List UInt8)) (lsn : Lsn) :
    ℕ → (h : ℕ) → TreeNode h → Bool → Bool → ℕ → Option (TreeNode h × Bool × ℕ) :=
  insertDescent config (fun _ n => (n, false))
    (BinStub.redoEntry config.keyComparator config.keyPrefixing key lsn data) key

/-- Fuel for one descent: every level is entered at most twice. -/
def descentFuel (h : ℕ) : ℕ := 2 * h + 1

/-- The two-level tree of a first key: a root with one leaf. -/
def Tree.firstKey (t : Tree) (key : Key) (data : Option (List UInt8)) (lsn : Lsn) : Tree :=
  let bin : BinStub :=
    { nodeId := t.nextNodeId
      slots := [{ key := key, lsn := lsn, data := data, knownDeleted := false,
                  pendingDeleted := false, dirty := false, expirationTime := 0 }]
      keyWidth := none
      compactMaxKeyLength := t.config.compactMaxKeyLength
      keyPrefix := []
      dirty := true
      isDelta := false
      lastFullLsn := nullLsn
      lastDeltaLsn := nullLsn
      expirationInHours := true
      cursorCount := 0
      prohibitNextDelta := false
      expirationEnabled := t.config.expirationEnabled
      maxEmbeddedLn := t.config.maxEmbeddedLn
      keyPrefixing := t.config.keyPrefixing }
  let rootIn : InNodeStub (TreeNode 0) :=
    { nodeId := t.nextNodeId + 1, entries := [⟨[], lsn, bin⟩], dirty := true,
      lastFullLsn := nullLsn }
  { t with root := some ⟨1, rootIn⟩, nextNodeId := t.nextNodeId + 2 }

/-- Split a full root, then descend from the root. -/
def Tree.insertFromRoot (t : Tree) (root : Σ h, TreeNode h) (lsn : Lsn)
    (descent : ℕ → (h : ℕ) → TreeNode h → Bool → Bool → ℕ → Option (TreeNode h × Bool × ℕ)) :
    Option (Tree × Bool) :=
  (splitRootIfNeeded t.config lsn root t.nextNodeId).bind fun (root, gen) =>
    (descent (descentFuel root.1) root.1 root.2 true true gen).map fun r =>
      ({ t with root := some ⟨root.1, r.1⟩, nextNodeId := r.2.2 }, r.2.1)

/-- Insert a record; reports whether the key was not live before. `isLocked` is the
answer of the lock hook during the call. -/
def Tree.insert (t : Tree) (isLocked : Option (Lsn → Bool)) (key : Key)
    (data : List UInt8) (lsn : Lsn) : Option (Tree × Bool) :=
  match t.root with
  | none => some (t.firstKey key (some data) lsn, true)
  | some root =>
    t.insertFromRoot root lsn (insertRecursiveInner t.config isLocked key data lsn)

/-- Insert a record of the log; empty data is no data. -/
def Tree.redoInsert (t : Tree) (key : Key) (data : List UInt8) (lsn : Lsn) :
    Option (Tree × Bool) :=
  let dataOpt := if data = [] then none else some data
  match t.root with
  | none => some (t.firstKey key dataOpt lsn, true)
  | some root =>
    t.insertFromRoot root lsn (redoInsertRecursiveInner t.config key dataOpt lsn)

/-! ### Deletion -/

/-- Remove the slot of a key from a leaf; reports whether it was live. -/
def BinStub.deleteEntry (c : Option KeyComparator) (key : Key) (b : BinStub) :
    BinStub × Bool :=
  match c with
  | some c =>
    match b.keyBinarySearchBy fun s => c.compare (b.decompressKey s) key with
    | .ok idx => (b.removeSlot idx, (b.slots[idx]?.map fun s => !s.isDeleted).getD false)
    | .error _ => (b, false)
  | none =>
    if b.keyPrefix ≠ [] ∧ ¬ b.keyPrefix <+: key then (b, false)
    else
      match b.keyBinarySearch (b.compressKey key) with
      | .ok idx => (b.removeSlot idx, (b.slots[idx]?.map fun s => !s.isDeleted).getD false)
      | .error _ => (b, false)

/-- Edit the leaf of a key in a tree. -/
def Tree.updateBin {β : Type} (t : Tree) (floor : List Key → Key → ℕ) (dflt : β)
    (f : BinStub → BinStub × β) (key : Key) : Tree × β :=
  match t.root with
  | none => (t, dflt)
  | some root =>
    let r := Noxu.updateBin floor dflt f key root.1 root.2
    ({ t with root := some ⟨root.1, r.1⟩ }, r.2)

/-- Delete a key physically; reports whether it was live. -/
def Tree.delete (t : Tree) (key : Key) : Tree × Bool :=
  t.updateBin (scanFloorIndex (keyCmp t.config.keyComparator)) false
    (BinStub.deleteEntry t.config.keyComparator key) key

/-- The slot under a deletion mark: the new version, no data. -/
def BinSlot.markDeleted (lsn : Lsn) (pending : Bool) (s : BinSlot) : BinSlot :=
  { s with lsn := lsn, pendingDeleted := pending, knownDeleted := !pending, dirty := true,
           data := none }

/-- Mark the slot of a key deleted if it is live. -/
def BinStub.markDeleted (c : Option KeyComparator) (key : Key) (delLsn : Lsn)
    (pending : Bool) (b : BinStub) : BinStub × Bool :=
  let (idx, exact) := b.findEntry c key
  if !exact || (b.slots[idx]?.map BinSlot.isDeleted).getD false then (b, false)
  else
    ({ b with slots := b.slots.modify idx (BinSlot.markDeleted delLsn pending),
              dirty := true }, true)

/-- Mark a key deleted, as pending or as known; reports whether it was live. -/
def Tree.markDeleted (t : Tree) (key : Key) (delLsn : Lsn) (pending : Bool) : Tree × Bool :=
  t.updateBin (upperInFloorIndex (keyCmp t.config.keyComparator)) false
    (BinStub.markDeleted t.config.keyComparator key delLsn pending) key

/-- Advance the LSN of a deleted slot to a newer deletion. -/
def BinStub.redoAdvanceDeletedSlotLsn (c : Option KeyComparator) (key : Key) (delLsn : Lsn)
    (b : BinStub) : BinStub × Bool :=
  let (idx, exact) := b.findEntry c key
  match exact, b.slots[idx]? with
  | true, some s =>
    if !s.isDeleted || (s.lsn != nullLsn && delLsn ≤ s.lsn) then (b, false)
    else
      ({ b with
          slots := b.slots.modify idx fun s => { s with lsn := delLsn, dirty := true }
          dirty := true }, true)
  | _, _ => (b, false)

/-- Redo of a deletion over a slot that is already deleted. -/
def Tree.redoAdvanceDeletedSlotLsn (t : Tree) (key : Key) (delLsn : Lsn) : Tree × Bool :=
  t.updateBin (upperInFloorIndex (keyCmp t.config.keyComparator)) false
    (BinStub.redoAdvanceDeletedSlotLsn t.config.keyComparator key delLsn) key

/-- Set the expiration of a key's slot; the slot itself is not marked dirty. -/
def BinStub.updateKeyExpiration (c : Option KeyComparator) (key : Key) (expiration : ℕ)
    (b : BinStub) : BinStub × Bool :=
  let (idx, exact) := b.findEntry c key
  if exact then
    ({ b with
        slots := b.slots.modify idx fun s => { s with expirationTime := expiration }
        expirationInHours := true
        dirty := true }, true)
  else (b, false)

/-- The descent to the leaf of a key meets only children in memory. -/
def Tree.reachesBin (resident : ℕ → Bool) (t : Tree) (key : Key) : Bool :=
  t.root.any fun r => Noxu.reachesBin resident (keyCmp t.config.keyComparator) key r.1 r.2

/-- Set the expiration, in hours, of a key's slot; reports whether there is one. Where the other
descents read a child from the log, this one gives up. -/
def Tree.updateKeyExpiration (resident : ℕ → Bool) (t : Tree) (key : Key) (expiration : ℕ) :
    Tree × Bool :=
  if t.reachesBin resident key then
    t.updateBin (upperInFloorIndex (keyCmp t.config.keyComparator)) false
      (BinStub.updateKeyExpiration t.config.keyComparator key expiration) key
  else (t, false)

end Noxu
