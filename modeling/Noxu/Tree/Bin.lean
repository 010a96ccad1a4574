import Noxu.Library.BinarySearch
import Noxu.Tree.Key
import Noxu.Tree.KeyRep

/-!
# The Bottom Internal Node

A faithful model of the leaf node of the B+tree: its slots, the key prefix its keys are
compressed with, and the operations that search, insert and remove slots. The parallel
arrays of the node (entries, LSNs, key suffixes) are one list of slots, so that they
cannot drift apart; a slot of the node holds the key **suffix**, and `fullSlots` gives
the slots with their full keys. The suffixes are those that are read back from the node's
`KeyRep`; whether they are packed, and how wide a packed slot is, is `keyWidth`.

Every operation comes in the shape the source has it: byte-order search runs on
suffixes and comparator search on rebuilt full keys, and an insertion that does not
share the node's prefix first shrinks it. The bookkeeping fields (dirty flags, the
delta prohibition, the LSNs of the last logged images) are kept, since the delta
logging decision reads them.
-/

open Std Noxu.Library

namespace Noxu

/-! ### Slots -/

/-- A slot of a bottom node: a key with the LSN of its current version, the embedded
data if any, the two deletion marks, the delta flag and the expiration time. -/
structure BinSlot where
  /-- The key: a suffix inside a node, the full key in `BinStub.fullSlots`. -/
  key : Key
  /-- The LSN of the slot's current version. -/
  lsn : Lsn
  /-- The record data, when it is cached in the slot. -/
  data : Option (List UInt8)
  /-- The slot is a committed deletion. -/
  knownDeleted : Bool
  /-- The slot is a deletion whose transaction is open. -/
  pendingDeleted : Bool
  /-- The slot changed since the node was last logged. -/
  dirty : Bool
  /-- Expiration time in hours, zero for none. -/
  expirationTime : ℕ
  deriving DecidableEq, Repr

/-- A slot is deleted under either mark. -/
def BinSlot.isDeleted (s : BinSlot) : Bool := s.knownDeleted || s.pendingDeleted

/-- The slot of a fresh insertion. -/
def BinSlot.fresh (key : Key) (lsn : Lsn) (data : Option (List UInt8)) : BinSlot where
  key := key
  lsn := lsn
  data := data
  knownDeleted := false
  pendingDeleted := false
  dirty := true
  expirationTime := 0

/-- The slot after an insertion that found its key: new version and data, live again.
The expiration time is not touched. -/
def BinSlot.overwrite (lsn : Lsn) (data : Option (List UInt8)) (s : BinSlot) : BinSlot :=
  { s with lsn := lsn, data := data, dirty := true, knownDeleted := false,
           pendingDeleted := false }

/-- The slot with its key put back under a prefix. -/
def BinSlot.withPrefix (keyPrefix : Key) (s : BinSlot) : BinSlot :=
  { s with key := keyPrefix ++ s.key }

/-! ### The node -/

/-- The longest suffix that is packed, unless the tree is configured otherwise
(`INKeyRep_DEFAULT_MAX_KEY_LENGTH`). -/
def defaultMaxKeyLength : ℤ := 16

/-- A bottom internal node. -/
structure BinStub where
  /-- Node identifier. -/
  nodeId : ℕ
  /-- Slots in key order, each with its key suffix. -/
  slots : List BinSlot
  /-- The width of a slot of the packed suffixes; none if they are not packed. -/
  keyWidth : Option ℕ
  /-- Suffixes are packed when none of them is longer. -/
  compactMaxKeyLength : ℤ
  /-- The prefix shared by the keys of the node. -/
  keyPrefix : Key
  /-- The node changed since it was last logged. -/
  dirty : Bool
  /-- The node is a delta rather than a full image. -/
  isDelta : Bool
  /-- LSN of the last full image. -/
  lastFullLsn : Lsn
  /-- LSN of the last delta, null after a full image. -/
  lastDeltaLsn : Lsn
  /-- Expiration times count hours rather than days. -/
  expirationInHours : Bool
  /-- Number of cursors positioned on the node. -/
  cursorCount : ℤ
  /-- The next logging must be a full image. -/
  prohibitNextDelta : Bool
  /-- Expired slots are hidden. -/
  expirationEnabled : Bool
  /-- Largest data length embedded in an image. -/
  maxEmbeddedLn : ℤ
  /-- Keys of this node are prefix-compressed. -/
  keyPrefixing : Bool
  deriving DecidableEq, Repr

namespace BinStub

/-- The full key of a stored suffix. -/
def decompressKey (b : BinStub) (suffix : Key) : Key := b.keyPrefix ++ suffix

/-- The suffix stored for a full key that starts with the node's prefix. -/
def compressKey (b : BinStub) (fullKey : Key) : Key := fullKey.drop b.keyPrefix.length

/-- The slots of the node with their full keys. -/
def fullSlots (b : BinStub) : List BinSlot := b.slots.map (BinSlot.withPrefix b.keyPrefix)

/-- The full key of a slot. -/
def getFullKey (b : BinStub) (idx : ℕ) : Option Key :=
  b.slots[idx]?.map fun s => b.decompressKey s.key

/-- The suffixes of the node, in the form they are kept in. -/
def storedKeys (b : BinStub) : StoredKeys := ⟨b.keyWidth, b.slots.map BinSlot.key⟩

/-- The node with other suffixes for its slots. -/
def withStoredKeys (b : BinStub) (stored : StoredKeys) : BinStub :=
  { b with
    keyWidth := stored.slotWidth
    slots := List.zipWith (fun s key => { s with key := key }) b.slots stored.keys }

/-- Pack the suffixes if they are short enough. -/
def compactKeys (b : BinStub) : BinStub :=
  b.withStoredKeys (b.storedKeys.compact b.compactMaxKeyLength)

/-! ### Prefix maintenance -/

/-- The scan of `computeKeyPrefix`: shorten the seed to what it shares with each key. -/
def commonPrefixLoop (seed : Key) : ℕ → List Key → Key
  | prefixLen, [] => seed.take prefixLen
  | prefixLen, fullKey :: rest =>
    let newLen := getKeyPrefixLength (seed.take prefixLen) fullKey
    let prefixLen := if newLen < prefixLen then newLen else prefixLen
    if prefixLen = 0 then [] else commonPrefixLoop seed prefixLen rest

/-- The prefix common to all keys of the node: empty when prefixing is off or when
fewer than two keys are present. -/
def computeKeyPrefix (b : BinStub) : Key :=
  if !b.keyPrefixing then []
  else
    match b.fullSlots.map BinSlot.key with
    | seed :: key :: rest => commonPrefixLoop seed seed.length (key :: rest)
    | _ => []

/-- Store the keys under a new prefix: the suffixes are set one after the other, then packed if
they are short enough. -/
def applyNewPrefix (b : BinStub) (newPrefix : Key) : BinStub :=
  let suffixes := b.fullSlots.map fun s => s.key.drop newPrefix.length
  ({ b with keyPrefix := newPrefix }.withStoredKeys
    (b.storedKeys.setFrom 0 suffixes)).compactKeys

/-- Learn the common prefix of the present keys. -/
def recomputeKeyPrefix (b : BinStub) : BinStub := b.applyNewPrefix b.computeKeyPrefix

/-- The prefix that the present keys share with a key about to be inserted. -/
def shrunkPrefix (b : BinStub) (fullKey : Key) : Key :=
  let candidate := b.computeKeyPrefix
  if candidate ≠ [] then candidate.take (getKeyPrefixLength candidate fullKey)
  else
    match b.fullSlots.map BinSlot.key with
    | [] => []
    | first :: rest =>
      rest.foldl (fun candidate k => candidate.take (getKeyPrefixLength candidate k))
        ((createKeyPrefix first fullKey).getD [])

/-- The step every insertion makes first: a key that does not share the whole prefix
shrinks it. -/
def shrinkPrefixFor (b : BinStub) (fullKey : Key) : BinStub :=
  if 0 < b.keyPrefix.length ∧
      getKeyPrefixLength b.keyPrefix fullKey < b.keyPrefix.length then
    b.applyNewPrefix (b.shrunkPrefix fullKey)
  else b

/-! ### Search -/

/-- Byte-order search among the stored suffixes. -/
def keyBinarySearch (b : BinStub) (suffix : Key) : Except ℕ ℕ :=
  binarySearchBy (fun s : BinSlot => compare s.key suffix) b.slots

/-- Search among the stored suffixes by a three-way probe. -/
def keyBinarySearchBy (b : BinStub) (probe : Key → Ordering) : Except ℕ ℕ :=
  binarySearchBy (fun s : BinSlot => probe s.key) b.slots

/-- An index with the found flag, out of a search result. -/
def searchResult : Except ℕ ℕ → ℕ × Bool
  | .ok idx => (idx, true)
  | .error idx => (idx, false)

/-- Byte-order search by full key: a key outside the node's prefix is not present, and
its place is found among the full keys. -/
def findEntryCompressed (b : BinStub) (fullKey : Key) : ℕ × Bool :=
  let plen := b.keyPrefix.length
  if 0 < plen ∧ (fullKey.length < plen ∨ fullKey.take plen ≠ b.keyPrefix) then
    (partitionPoint (fun s : BinSlot => compare (b.decompressKey s.key) fullKey == .lt)
      b.slots, false)
  else searchResult (b.keyBinarySearch (fullKey.drop plen))

/-- Comparator search by full key. -/
def findEntryCmp (b : BinStub) (fullKey : Key) (cmp : Key → Key → Ordering) : ℕ × Bool :=
  searchResult (b.keyBinarySearchBy fun s => cmp (b.decompressKey s) fullKey)

/-- The search every tree operation makes in a leaf: by comparator if there is one. -/
def findEntry (c : Option KeyComparator) (b : BinStub) (fullKey : Key) : ℕ × Bool :=
  match c with
  | some c => b.findEntryCmp fullKey c.compare
  | none => b.findEntryCompressed fullKey

/-- A slot is visible: neither deleted nor expired. `expired` is the TTL predicate at
the time of the read. -/
def slotIsLive (expired : ℕ → Bool → Bool) (b : BinStub) (idx : ℕ) : Bool :=
  match b.slots[idx]? with
  | some s =>
    !(s.isDeleted || (b.expirationEnabled && s.expirationTime != 0 &&
      expired s.expirationTime b.expirationInHours))
  | none => false

/-! ### Insertion -/

/-- Put a fresh slot at an index. -/
def insertSlot (b : BinStub) (idx : ℕ) (suffix : Key) (lsn : Lsn)
    (data : Option (List UInt8)) : BinStub :=
  let (keyWidth, key) := StoredKeys.store b.keyWidth suffix
  { b with keyWidth := keyWidth, slots := b.slots.insertIdx idx (BinSlot.fresh key lsn data) }

/-- Set the suffix of the slot at an index. -/
def setSlotKey (b : BinStub) (idx : ℕ) (suffix : Key) : BinStub :=
  let (keyWidth, key) := StoredKeys.store b.keyWidth suffix
  { b with keyWidth := keyWidth, slots := b.slots.modify idx fun s => { s with key := key } }

/-- Overwrite the slot at an index; reports whether it was deleted. -/
def overwriteSlot (b : BinStub) (idx : ℕ) (lsn : Lsn) (data : Option (List UInt8)) :
    BinStub × ℕ × Bool :=
  ({ b with slots := b.slots.modify idx (BinSlot.overwrite lsn data) }, idx,
    (b.slots[idx]?.map BinSlot.isDeleted).getD false)

/-- The step every prefix-aware insertion makes last: learn a prefix once two keys are
present. -/
def learnPrefix (b : BinStub) : BinStub :=
  if b.keyPrefix = [] ∧ 2 ≤ b.slots.length then b.recomputeKeyPrefix else b

/-- Insertion in byte order with prefix compression. -/
def insertWithPrefix (b : BinStub) (fullKey : Key) (lsn : Lsn)
    (data : Option (List UInt8)) : BinStub × ℕ × Bool :=
  let b := b.shrinkPrefixFor fullKey
  let suffix := b.compressKey fullKey
  match b.keyBinarySearch suffix with
  | .ok idx => b.overwriteSlot idx lsn data
  | .error idx => ((b.insertSlot idx suffix lsn data).learnPrefix, idx, true)

/-- Insertion in byte order of whole keys, for nodes without a prefix. -/
def insertRaw (b : BinStub) (fullKey : Key) (lsn : Lsn) (data : Option (List UInt8)) :
    BinStub × ℕ × Bool :=
  match b.keyBinarySearch fullKey with
  | .ok idx => b.overwriteSlot idx lsn data
  | .error idx => (b.insertSlot idx fullKey lsn data, idx, true)

/-- Insertion in comparator order. A hit whose bytes differ from the inserted key takes
over the new bytes and prohibits the next delta. -/
def insertCmp (b : BinStub) (fullKey : Key) (lsn : Lsn) (data : Option (List UInt8))
    (cmp : Key → Key → Ordering) : BinStub × ℕ × Bool :=
  let b := b.shrinkPrefixFor fullKey
  match b.keyBinarySearchBy fun s => cmp (b.decompressKey s) fullKey with
  | .ok idx =>
    if b.getFullKey idx = some fullKey then b.overwriteSlot idx lsn data
    else
      { b.setSlotKey idx (b.compressKey fullKey) with
        prohibitNextDelta := true }.overwriteSlot idx lsn data
  | .error idx =>
    ((b.insertSlot idx (b.compressKey fullKey) lsn data).learnPrefix, idx, true)

/-- The insertion every tree operation makes in a leaf; marks the node dirty. -/
def insertEntry (c : Option KeyComparator) (keyPrefixing : Bool) (b : BinStub)
    (key : Key) (lsn : Lsn) (data : Option (List UInt8)) : BinStub × Bool :=
  let (b, _, isNew) :=
    match c with
    | some c => b.insertCmp key lsn data c.compare
    | none => if keyPrefixing then b.insertWithPrefix key lsn data
        else b.insertRaw key lsn data
  ({ b with dirty := true }, isNew)

/-! ### Removal -/

/-- Remove a slot physically: the next logging must be full. -/
def removeSlot (b : BinStub) (idx : ℕ) : BinStub :=
  { b with prohibitNextDelta := true, slots := b.slots.eraseIdx idx, dirty := true }

end BinStub

end Noxu
