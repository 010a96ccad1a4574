import Noxu.Library.Wire
import Noxu.Rep.Election

/-!
# Messages on the Wire

The messages of the replication protocol and of the syncup handshake as bytes. A message is a tag
and its fields: numbers in little-endian order, flags as one byte, and strings and payloads behind
their length in four bytes.

What is not in the bytes does not come back: the length of a string is cut to 32 bits, and the
record of a node is written without its capacities and its latency, for which the decoder fills in
the defaults. On every other message the two directions agree, and no byte string makes a decoder
panic.

## Main results

* `ProtocolMessage.decodes`, `SyncupMsg.decodes`: the fields are read back one by one;
* `ProtocolMessage.ensures`: the decoder stays in the byte string and returns only what the format
  can represent;
* `wire_roundTrip_iff`: **a message is read back iff the format can represent it.**
-/

open Noxu.Library Noxu.Library.Wire

namespace Noxu.Protocol

/-! ### Messages -/

/-- A change of the group. -/
inductive GroupChangeType where
  | add
  | remove
  | update
  deriving DecidableEq, Repr

/-- The record of a node. -/
structure RepNode where
  name : String
  nodeType : NodeType
  host : String
  port : UInt16
  nodeId : UInt32
  readCapacityPct : UInt32
  writeCapacityPct : UInt32
  latencyHintMs : UInt64
  deriving DecidableEq

/-- A node with the default capacities and latency. -/
def RepNode.new (name : String) (nodeType : NodeType) (host : String) (port : UInt16)
    (nodeId : UInt32) : RepNode where
  name := name
  nodeType := nodeType
  host := host
  port := port
  nodeId := nodeId
  readCapacityPct := 100
  writeCapacityPct := 100
  latencyHintMs := 1

/-- A message of the replication protocol. -/
inductive ProtocolMessage where
  | handshake (nodeName groupName : String) (nodeType : NodeType)
  | handshakeResponse (accepted : Bool) (reason : Option String)
  | heartbeat (masterVlsn timestampMs : UInt64)
  | heartbeatResponse (replicaVlsn timestampMs : UInt64)
  | logEntry (vlsn : UInt64) (entryType : UInt8) (data : Bytes)
  | ack (vlsn : UInt64)
  | groupChange (changeType : GroupChangeType) (node : RepNode)
  | groupChangeResponse (accepted : Bool)
  | electionProposal (nodeName : String) (vlsn : UInt64) (priority : UInt32) (term dtvlsn : UInt64)
  | electionVote (voter : String) (granted : Bool) (term : UInt64)
  | electionResult (master : String) (term : UInt64)
  | shutdown (reason : String)
  deriving DecidableEq

/-- A message of the syncup handshake; VLSNs are signed. -/
inductive SyncupMsg where
  | entryRequest (vlsn : Int64)
  | entry (vlsn : Int64) (lsn fingerprint : UInt64) (isSync : Bool)
  | entryNotFound
  | alternateMatchpoint (vlsn : Int64) (lsn fingerprint : UInt64) (isSync : Bool)
  | startStream (startVlsn : Int64)
  | restoreRequest (failedVlsn : Int64)
  | restoreResponse
  deriving DecidableEq

/-- The errors of the two decoders. -/
inductive ProtocolError where
  /-- "empty message" -/
  | emptyMessage
  /-- "unexpected end of message at offset .., need .. more bytes" -/
  | unexpectedEnd (offset needed : ℕ)
  /-- "invalid UTF-8 in string: .." -/
  | invalidUtf8
  /-- "unknown node type: .." -/
  | unknownNodeType (val : UInt8)
  /-- "unknown change type: .." -/
  | unknownChangeType (val : UInt8)
  /-- "unknown message tag: .." -/
  | unknownTag (tag : UInt8)
  /-- "syncup: empty message" -/
  | syncupEmpty
  /-- "syncup: short record body (.. bytes)" -/
  | syncupShortRecord (bytes : ℕ)
  /-- "syncup: short vlsn body (.. bytes)" -/
  | syncupShortVlsn (bytes : ℕ)
  /-- "syncup: unknown opcode .." -/
  | syncupUnknownOpcode (op : UInt8)
  deriving DecidableEq, Repr

/-! ### Encoders -/

/-- A string behind its length, as 32 bits of it. -/
def encodeString (s : String) : Bytes := leBytes 4 (utf8 s).length ++ utf8 s

/-- A byte for a boolean. -/
def encodeBool (b : Bool) : UInt8 := if b then 1 else 0

/-- A byte for a type of node. -/
def encodeNodeType : NodeType → UInt8
  | .electable => 0
  | .monitor => 1
  | .secondary => 2
  | .arbiter => 3

/-- A byte for a change of the group. -/
def encodeChangeType : GroupChangeType → UInt8
  | .add => 0
  | .remove => 1
  | .update => 2

/-- Eight bytes, little-endian. -/
def encodeU64 (n : UInt64) : Bytes := leBytes 8 n.toNat

/-- Four bytes. -/
def encodeU32 (n : UInt32) : Bytes := leBytes 4 n.toNat

/-- Two bytes. -/
def encodeU16 (n : UInt16) : Bytes := leBytes 2 n.toNat

/-- A node of the group. -/
def encodeRepNode (node : RepNode) : Bytes :=
  encodeString node.name ++ ([encodeNodeType node.nodeType] ++ (encodeString node.host ++
    (encodeU16 node.port ++ encodeU32 node.nodeId)))

/-- `encode`: a tag and the fields. -/
def ProtocolMessage.encode : ProtocolMessage → Bytes
  | handshake nodeName groupName nodeType =>
    [1] ++ (encodeString nodeName ++ (encodeString groupName ++ [encodeNodeType nodeType]))
  | handshakeResponse accepted reason =>
    [2] ++ ([encodeBool accepted] ++
      match reason with
      | some r => [1] ++ encodeString r
      | none => [0])
  | heartbeat masterVlsn timestampMs => [3] ++ (encodeU64 masterVlsn ++ encodeU64 timestampMs)
  | heartbeatResponse replicaVlsn timestampMs =>
    [4] ++ (encodeU64 replicaVlsn ++ encodeU64 timestampMs)
  | logEntry vlsn entryType data =>
    [5] ++ (encodeU64 vlsn ++ ([entryType] ++ (leBytes 4 data.length ++ data)))
  | ack vlsn => [6] ++ encodeU64 vlsn
  | groupChange changeType node => [7] ++ ([encodeChangeType changeType] ++ encodeRepNode node)
  | groupChangeResponse accepted => [8] ++ [encodeBool accepted]
  | electionProposal nodeName vlsn priority term dtvlsn =>
    [9] ++ (encodeString nodeName ++ (encodeU64 vlsn ++ (encodeU32 priority ++
      (encodeU64 term ++ encodeU64 dtvlsn))))
  | electionVote voter granted term =>
    [10] ++ (encodeString voter ++ ([encodeBool granted] ++ encodeU64 term))
  | electionResult master term => [11] ++ (encodeString master ++ encodeU64 term)
  | shutdown reason => [12] ++ encodeString reason

/-- A signed VLSN, in two's complement. -/
def encodeVlsn (vlsn : Int64) : Bytes := encodeU64 vlsn.toUInt64

/-- The fields that describe a record. -/
def encodeRecord (vlsn : Int64) (lsn fingerprint : UInt64) (isSync : Bool) : Bytes :=
  encodeVlsn vlsn ++ (encodeU64 lsn ++ (encodeU64 fingerprint ++ [encodeBool isSync]))

/-- The same for the messages of a syncup. -/
def SyncupMsg.encode : SyncupMsg → Bytes
  | entryRequest vlsn => [1] ++ encodeVlsn vlsn
  | entry vlsn lsn fingerprint isSync => [2] ++ encodeRecord vlsn lsn fingerprint isSync
  | entryNotFound => [3]
  | alternateMatchpoint vlsn lsn fingerprint isSync =>
    [4] ++ encodeRecord vlsn lsn fingerprint isSync
  | startStream startVlsn => [5] ++ encodeVlsn startVlsn
  | restoreRequest failedVlsn => [6] ++ encodeVlsn failedVlsn
  | restoreResponse => [7]

/-! ### Decoders -/

/-- A reader of messages. -/
abbrev MessageWire := Wire ProtocolError

/-- Fail unless this many bytes are left. -/
def ensureRemaining (needed : ℕ) : MessageWire Unit :=
  ensure needed fun pos _ => .unexpectedEnd pos needed

/-- The next bytes. -/
def decodeBytes (len : ℕ) : MessageWire Bytes := do
  ensureRemaining len
  slice len

/-- A number of a width. -/
def decodeNum (width : ℕ) : MessageWire ℕ := do
  let bs ← decodeBytes width
  pure (leNat bs)

/-- One byte. -/
def decodeU8 : MessageWire UInt8 := do
  let bs ← decodeBytes 1
  pure (bs.headD 0)

/-- Two bytes. -/
def decodeU16 : MessageWire UInt16 := do
  let n ← decodeNum 2
  pure (UInt16.ofNat n)

/-- Four bytes. -/
def decodeU32 : MessageWire UInt32 := do
  let n ← decodeNum 4
  pure (UInt32.ofNat n)

/-- Eight bytes. -/
def decodeU64 : MessageWire UInt64 := do
  let n ← decodeNum 8
  pure (UInt64.ofNat n)

/-- A boolean; any byte but 0 is true. -/
def decodeBool : MessageWire Bool := do
  let val ← decodeU8
  pure (val != 0)

/-- A payload behind its length. -/
def decodePayload : MessageWire Bytes := do
  let len ← decodeU32
  decodeBytes len.toNat

/-- A text behind its length. -/
def decodeString : MessageWire String := do
  let bytes ← decodePayload
  ofOption .invalidUtf8 (ofUtf8 bytes)

/-- A type of node. -/
def decodeNodeType : MessageWire NodeType := do
  let val ← decodeU8
  match val.toNat with
  | 0 => pure .electable
  | 1 => pure .monitor
  | 2 => pure .secondary
  | 3 => pure .arbiter
  | _ => fail (.unknownNodeType val)

/-- A change of the group. -/
def decodeChangeType : MessageWire GroupChangeType := do
  let val ← decodeU8
  match val.toNat with
  | 0 => pure .add
  | 1 => pure .remove
  | 2 => pure .update
  | _ => fail (.unknownChangeType val)

/-- A node of the group. -/
def decodeRepNode : MessageWire RepNode := do
  let name ← decodeString
  let nodeType ← decodeNodeType
  let host ← decodeString
  let port ← decodeU16
  let nodeId ← decodeU32
  pure (.new name nodeType host port nodeId)

/-- The fields behind the tag. -/
def ProtocolMessage.decodeFields (tag : UInt8) : MessageWire ProtocolMessage :=
  match tag.toNat with
  | 1 => do
    let nodeName ← decodeString
    let groupName ← decodeString
    let nodeType ← decodeNodeType
    pure (.handshake nodeName groupName nodeType)
  | 2 => do
    let accepted ← decodeBool
    let hasReason ← decodeBool
    if hasReason then do
      let reason ← decodeString
      pure (.handshakeResponse accepted (some reason))
    else pure (.handshakeResponse accepted none)
  | 3 => do
    let masterVlsn ← decodeU64
    let timestampMs ← decodeU64
    pure (.heartbeat masterVlsn timestampMs)
  | 4 => do
    let replicaVlsn ← decodeU64
    let timestampMs ← decodeU64
    pure (.heartbeatResponse replicaVlsn timestampMs)
  | 5 => do
    let vlsn ← decodeU64
    let entryType ← decodeU8
    let data ← decodePayload
    pure (.logEntry vlsn entryType data)
  | 6 => do
    let vlsn ← decodeU64
    pure (.ack vlsn)
  | 7 => do
    let changeType ← decodeChangeType
    let node ← decodeRepNode
    pure (.groupChange changeType node)
  | 8 => do
    let accepted ← decodeBool
    pure (.groupChangeResponse accepted)
  | 9 => do
    let nodeName ← decodeString
    let vlsn ← decodeU64
    let priority ← decodeU32
    let term ← decodeU64
    let dtvlsn ← decodeU64
    pure (.electionProposal nodeName vlsn priority term dtvlsn)
  | 10 => do
    let voter ← decodeString
    let granted ← decodeBool
    let term ← decodeU64
    pure (.electionVote voter granted term)
  | 11 => do
    let master ← decodeString
    let term ← decodeU64
    pure (.electionResult master term)
  | 12 => do
    let reason ← decodeString
    pure (.shutdown reason)
  | _ => fail (.unknownTag tag)

/-- The first byte; an error on the empty byte string. -/
def decodeTag (empty : ProtocolError) : MessageWire UInt8 := do
  ensure 1 fun _ _ => empty
  let bs ← slice 1
  pure (bs.headD 0)

/-- `decode`. -/
def ProtocolMessage.decode (data : Bytes) : Except (Stop ProtocolError) ProtocolMessage :=
  run (do
    let tag ← decodeTag .emptyMessage
    decodeFields tag) data

/-- A slice as a number. -/
def sliceU64 : MessageWire UInt64 := do
  let bs ← slice 8
  pure (UInt64.ofNat (leNat bs))

/-- A signed VLSN. -/
def readVlsn : MessageWire Int64 := do
  ensure 8 fun _ left => .syncupShortVlsn left
  let n ← sliceU64
  pure n.toInt64

/-- A record: one check for all of it, then a slice for each field. -/
def decodeRecord (mk : Int64 → UInt64 → UInt64 → Bool → SyncupMsg) : MessageWire SyncupMsg := do
  ensure 25 fun _ left => .syncupShortRecord left
  let seq ← sliceU64
  let lsn ← sliceU64
  let fingerprint ← sliceU64
  let isSync ← slice 1
  pure (mk seq.toInt64 lsn fingerprint (isSync.headD 0 != 0))

/-- The body behind the opcode. -/
def SyncupMsg.decodeBody (op : UInt8) : MessageWire SyncupMsg :=
  match op.toNat with
  | 1 => do
    let vlsn ← readVlsn
    pure (.entryRequest vlsn)
  | 2 => decodeRecord .entry
  | 3 => pure .entryNotFound
  | 4 => decodeRecord .alternateMatchpoint
  | 5 => do
    let startVlsn ← readVlsn
    pure (.startStream startVlsn)
  | 6 => do
    let failedVlsn ← readVlsn
    pure (.restoreRequest failedVlsn)
  | 7 => pure .restoreResponse
  | _ => fail (.syncupUnknownOpcode op)

/-- The same for the messages of a syncup. -/
def SyncupMsg.decode (data : Bytes) : Except (Stop ProtocolError) SyncupMsg :=
  run (do
    let op ← decodeTag .syncupEmpty
    decodeBody op) data

/-! ### What the format can represent -/

/-- The length of the string fits in 32 bits. -/
def Short (s : String) : Prop := (utf8 s).length < 2 ^ 32

/-- The node has short strings, and the default capacities and latency. -/
structure RepNode.Representable (node : RepNode) : Prop where
  name : Short node.name
  host : Short node.host
  default : node = .new node.name node.nodeType node.host node.port node.nodeId

/-- The message has short strings and a short payload, and a node that can be represented. -/
def ProtocolMessage.Representable : ProtocolMessage → Prop
  | handshake nodeName groupName _ => Short nodeName ∧ Short groupName
  | handshakeResponse _ reason => ∀ r, reason = some r → Short r
  | logEntry _ _ data => data.length < 2 ^ 32
  | groupChange _ node => node.Representable
  | electionProposal nodeName _ _ _ _ => Short nodeName
  | electionVote voter _ _ => Short voter
  | electionResult master _ => Short master
  | shutdown reason => Short reason
  | heartbeat .. | heartbeatResponse .. | ack _ | groupChangeResponse _ => True

/-! ### Fields are read back -/

section Decodes

variable {s : String}

/-- Bytes are read back. -/
theorem decodes_bytes {bs : Bytes} {n : ℕ} (h : bs.length = n) :
    Decodes (decodeBytes n) bs bs :=
  .ensure h.ge (decodes_slice h)

/-- A number that fits its width is read back. -/
theorem decodes_num {w n : ℕ} (h : n < 256 ^ w) : Decodes (decodeNum w) (leBytes w n) n := by
  have hbytes := decodes_bytes (length_leBytes w n)
  refine hbytes.bind_nil ?_
  rw [leNat_leBytes_of_lt h]
  exact decodes_pure n

/-- One byte. -/
theorem decodes_u8 (b : UInt8) : Decodes decodeU8 [b] b :=
  (decodes_bytes (show [b].length = 1 from rfl)).bind_nil (decodes_pure b)

/-- Two bytes. -/
theorem decodes_u16 (n : UInt16) : Decodes decodeU16 (encodeU16 n) n := by
  refine (decodes_num n.toNat_lt).bind_nil ?_
  rw [UInt16.ofNat_toNat]
  exact decodes_pure n

/-- Four bytes. -/
theorem decodes_u32 (n : UInt32) : Decodes decodeU32 (encodeU32 n) n := by
  refine (decodes_num n.toNat_lt).bind_nil ?_
  rw [UInt32.ofNat_toNat]
  exact decodes_pure n

/-- Eight bytes. -/
theorem decodes_u64 (n : UInt64) : Decodes decodeU64 (encodeU64 n) n := by
  refine (decodes_num n.toNat_lt).bind_nil ?_
  rw [UInt64.ofNat_toNat]
  exact decodes_pure n

/-- A boolean. -/
theorem decodes_bool (b : Bool) : Decodes decodeBool [encodeBool b] b := by
  refine (decodes_u8 _).bind_nil ?_
  cases b <;> exact decodes_pure _

/-- A payload of less than 4 GiB. -/
theorem decodes_payload {data : Bytes} (h : data.length < 2 ^ 32) :
    Decodes decodePayload (leBytes 4 data.length ++ data) data := by
  have hlen : (UInt32.ofNat data.length).toNat = data.length := UInt32.toNat_ofNat_of_lt' h
  have hhead := decodes_u32 (UInt32.ofNat data.length)
  rw [encodeU32, hlen] at hhead
  exact hhead.bind (decodes_bytes hlen.symm)

/-- A short text. -/
theorem decodes_string (h : Short s) : Decodes decodeString (encodeString s) s :=
  (decodes_payload h).bind_nil (decodes_ofOption (ofUtf8_utf8 s))

/-- A type of node. -/
theorem decodes_nodeType (t : NodeType) : Decodes decodeNodeType [encodeNodeType t] t := by
  refine (decodes_u8 _).bind_nil ?_
  cases t <;> exact decodes_pure _

/-- A change of the group. -/
theorem decodes_changeType (t : GroupChangeType) :
    Decodes decodeChangeType [encodeChangeType t] t := by
  refine (decodes_u8 _).bind_nil ?_
  cases t <;> exact decodes_pure _

/-- A node with default capacities. -/
theorem decodes_repNode {node : RepNode} (h : node.Representable) :
    Decodes decodeRepNode (encodeRepNode node) node := by
  refine (decodes_string h.name).bind ((decodes_nodeType _).bind ((decodes_string h.host).bind
    ((decodes_u16 _).bind ((decodes_u32 _).bind_nil ?_))))
  rw [← h.default]
  exact decodes_pure node

/-- The tag of a message. -/
theorem decodes_tag (empty : ProtocolError) (tag : UInt8) : Decodes (decodeTag empty) [tag] tag :=
  .ensure le_rfl ((decodes_slice (show [tag].length = 1 from rfl)).bind_nil (decodes_pure tag))

/-- **A message that can be represented is read back.** -/
theorem ProtocolMessage.decodes {m : ProtocolMessage} (h : m.Representable) :
    decode m.encode = .ok m := by
  refine Decodes.run ?_
  cases m with
  | handshake nodeName groupName nodeType =>
    exact (decodes_tag _ 1).bind ((decodes_string h.1).bind ((decodes_string h.2).bind
      ((decodes_nodeType _).bind_nil (decodes_pure _))))
  | handshakeResponse accepted reason =>
    refine (decodes_tag _ 2).bind ((decodes_bool accepted).bind ?_)
    cases reason with
    | none => exact (decodes_bool false).bind_nil (decodes_pure _)
    | some r => exact (decodes_bool true).bind ((decodes_string (h r rfl)).bind_nil
        (decodes_pure _))
  | heartbeat masterVlsn timestampMs =>
    exact (decodes_tag _ 3).bind ((decodes_u64 _).bind ((decodes_u64 _).bind_nil
      (decodes_pure _)))
  | heartbeatResponse replicaVlsn timestampMs =>
    exact (decodes_tag _ 4).bind ((decodes_u64 _).bind ((decodes_u64 _).bind_nil
      (decodes_pure _)))
  | logEntry vlsn entryType data =>
    exact (decodes_tag _ 5).bind ((decodes_u64 _).bind ((decodes_u8 _).bind
      ((decodes_payload h).bind_nil (decodes_pure _))))
  | ack vlsn => exact (decodes_tag _ 6).bind ((decodes_u64 _).bind_nil (decodes_pure _))
  | groupChange changeType node =>
    exact (decodes_tag _ 7).bind ((decodes_changeType _).bind ((decodes_repNode h).bind_nil
      (decodes_pure _)))
  | groupChangeResponse accepted =>
    exact (decodes_tag _ 8).bind ((decodes_bool _).bind_nil (decodes_pure _))
  | electionProposal nodeName vlsn priority term dtvlsn =>
    exact (decodes_tag _ 9).bind ((decodes_string h).bind ((decodes_u64 _).bind
      ((decodes_u32 _).bind ((decodes_u64 _).bind ((decodes_u64 _).bind_nil
        (decodes_pure _))))))
  | electionVote voter granted term =>
    exact (decodes_tag _ 10).bind ((decodes_string h).bind ((decodes_bool _).bind
      ((decodes_u64 _).bind_nil (decodes_pure _))))
  | electionResult master term =>
    exact (decodes_tag _ 11).bind ((decodes_string h).bind ((decodes_u64 _).bind_nil
      (decodes_pure _)))
  | shutdown reason =>
    exact (decodes_tag _ 12).bind ((decodes_string h).bind_nil (decodes_pure _))

/-- A number inside of a checked record. -/
theorem decodes_sliceU64 (n : UInt64) : Decodes sliceU64 (encodeU64 n) n := by
  refine (decodes_slice (length_leBytes _ _)).bind_nil ?_
  rw [leNat_leBytes_of_lt n.toNat_lt, UInt64.ofNat_toNat]
  exact decodes_pure n

/-- A VLSN. -/
theorem decodes_vlsn (vlsn : Int64) : Decodes readVlsn (encodeVlsn vlsn) vlsn :=
  .ensure (length_leBytes _ _).ge ((decodes_sliceU64 _).bind_nil (decodes_pure _))

/-- A record. -/
theorem decodes_record (mk : Int64 → UInt64 → UInt64 → Bool → SyncupMsg) (vlsn : Int64)
    (lsn fingerprint : UInt64) (isSync : Bool) :
    Decodes (decodeRecord mk) (encodeRecord vlsn lsn fingerprint isSync)
      (mk vlsn lsn fingerprint isSync) := by
  have hlen : ∀ n : UInt64, (encodeU64 n).length = 8 := fun n => length_leBytes _ _
  refine .ensure (by simp [encodeRecord, encodeVlsn, hlen]) ?_
  refine (decodes_sliceU64 _).bind ((decodes_sliceU64 _).bind ((decodes_sliceU64 _).bind
    ((decodes_slice (show [encodeBool isSync].length = 1 from rfl)).bind_nil ?_)))
  cases isSync <;> exact decodes_pure _

/-- **A message of the handshake is read back.** -/
theorem SyncupMsg.decodes (m : SyncupMsg) : decode m.encode = .ok m := by
  refine Decodes.run ?_
  cases m with
  | entryRequest vlsn => exact (decodes_tag _ 1).bind ((decodes_vlsn _).bind_nil (decodes_pure _))
  | entry vlsn lsn fingerprint isSync => exact (decodes_tag _ 2).bind (decodes_record _ _ _ _ _)
  | entryNotFound => exact (decodes_tag _ 3).bind_nil (decodes_pure _)
  | alternateMatchpoint vlsn lsn fingerprint isSync =>
    exact (decodes_tag _ 4).bind (decodes_record _ _ _ _ _)
  | startStream startVlsn =>
    exact (decodes_tag _ 5).bind ((decodes_vlsn _).bind_nil (decodes_pure _))
  | restoreRequest failedVlsn =>
    exact (decodes_tag _ 6).bind ((decodes_vlsn _).bind_nil (decodes_pure _))
  | restoreResponse => exact (decodes_tag _ 7).bind_nil (decodes_pure _)

end Decodes

/-! ### Decoders stay in the byte string -/

section Ensures

/-- As many bytes as asked for. -/
theorem ensures_bytes (n : ℕ) : Ensures 0 (decodeBytes n) fun bs => bs.length = n := by
  have hslice : Ensures (n + 0) (slice n >>= pure : MessageWire _) fun bs => bs.length = n :=
    .slice fun bs hlen => ensures_pure hlen
  rw [bind_pure] at hslice
  exact .ensure hslice

/-- No number panics. -/
theorem ensures_num (w : ℕ) : Ensures 0 (decodeNum w) fun _ => True :=
  (ensures_bytes w).bind fun _ _ => ensures_pure trivial

/-- Nor does a byte. -/
theorem ensures_u8 : Ensures 0 decodeU8 fun _ => True :=
  (ensures_bytes 1).bind fun _ _ => ensures_pure trivial

/-- Nor two. -/
theorem ensures_u16 : Ensures 0 decodeU16 fun _ => True :=
  (ensures_num 2).bind fun _ _ => ensures_pure trivial

/-- Nor four. -/
theorem ensures_u32 : Ensures 0 decodeU32 fun _ => True :=
  (ensures_num 4).bind fun _ _ => ensures_pure trivial

/-- Nor eight. -/
theorem ensures_u64 : Ensures 0 decodeU64 fun _ => True :=
  (ensures_num 8).bind fun _ _ => ensures_pure trivial

/-- Nor a boolean. -/
theorem ensures_bool : Ensures 0 decodeBool fun _ => True :=
  ensures_u8.bind fun _ _ => ensures_pure trivial

/-- The length of a payload was read from 32 bits. -/
theorem ensures_payload : Ensures 0 decodePayload fun data => data.length < 2 ^ 32 := by
  refine ensures_u32.bind fun len _ => (ensures_bytes len.toNat).mono fun bs hlen => ?_
  rw [hlen]
  exact len.toNat_lt

/-- A text that is read is short. -/
theorem ensures_string : Ensures 0 decodeString Short := by
  refine ensures_payload.bind fun bytes hlen => ensures_ofOption fun s hs => ?_
  rw [Short, utf8_of_ofUtf8 hs]
  exact hlen

/-- No type of node panics. -/
theorem ensures_nodeType : Ensures 0 decodeNodeType fun _ => True := by
  refine ensures_u8.bind fun val _ => ?_
  split
  all_goals first | exact ensures_pure trivial | exact ensures_fail _

/-- Nor a change of the group. -/
theorem ensures_changeType : Ensures 0 decodeChangeType fun _ => True := by
  refine ensures_u8.bind fun val _ => ?_
  split
  all_goals first | exact ensures_pure trivial | exact ensures_fail _

/-- A node that is read can be represented. -/
theorem ensures_repNode : Ensures 0 decodeRepNode RepNode.Representable :=
  ensures_string.bind fun _ hname => ensures_nodeType.bind fun _ _ =>
    ensures_string.bind fun _ hhost => ensures_u16.bind fun _ _ => ensures_u32.bind fun _ _ =>
      ensures_pure ⟨hname, hhost, rfl⟩

/-- No tag panics. -/
theorem ensures_tag (empty : ProtocolError) : Ensures 0 (decodeTag empty) fun _ => True :=
  .ensure (Ensures.slice (k := 0) fun _ _ => ensures_pure trivial)

/-- **The decoder does not panic, and returns only what can be represented.** -/
theorem ProtocolMessage.ensures :
    Ensures 0 (decodeTag .emptyMessage >>= decodeFields) Representable := by
  refine (ensures_tag _).bind fun tag _ => ?_
  unfold decodeFields
  split
  · exact ensures_string.bind fun _ hn => ensures_string.bind fun _ hg =>
      ensures_nodeType.bind fun _ _ => ensures_pure ⟨hn, hg⟩
  · refine ensures_bool.bind fun _ _ => ensures_bool.bind fun hasReason _ => ?_
    split
    · exact ensures_string.bind fun r hr => ensures_pure fun r' h => Option.some.inj h ▸ hr
    · exact ensures_pure nofun
  · exact ensures_u64.bind fun _ _ => ensures_u64.bind fun _ _ => ensures_pure trivial
  · exact ensures_u64.bind fun _ _ => ensures_u64.bind fun _ _ => ensures_pure trivial
  · exact ensures_u64.bind fun _ _ => ensures_u8.bind fun _ _ =>
      ensures_payload.bind fun _ hdata => ensures_pure hdata
  · exact ensures_u64.bind fun _ _ => ensures_pure trivial
  · exact ensures_changeType.bind fun _ _ => ensures_repNode.bind fun _ hnode => ensures_pure hnode
  · exact ensures_bool.bind fun _ _ => ensures_pure trivial
  · exact ensures_string.bind fun _ hn => ensures_u64.bind fun _ _ => ensures_u32.bind fun _ _ =>
      ensures_u64.bind fun _ _ => ensures_u64.bind fun _ _ => ensures_pure hn
  · exact ensures_string.bind fun _ hv => ensures_bool.bind fun _ _ => ensures_u64.bind fun _ _ =>
      ensures_pure hv
  · exact ensures_string.bind fun _ hm => ensures_u64.bind fun _ _ => ensures_pure hm
  · exact ensures_string.bind fun _ hr => ensures_pure hr
  · exact ensures_fail _

/-- Three numbers and a flag are within the bytes that were checked. -/
theorem ensures_sliceU64 {β : Type} {k : ℕ} {f : UInt64 → MessageWire β} {P : β → Prop}
    (hf : ∀ n, Ensures k (f n) P) : Ensures (8 + k) (sliceU64 >>= f) P := by
  unfold sliceU64
  rw [bind_assoc]
  refine .slice fun bs _ => ?_
  rw [pure_bind]
  exact hf _

/-- No VLSN panics. -/
theorem ensures_vlsn : Ensures 0 readVlsn fun _ => True :=
  .ensure (ensures_sliceU64 fun _ => ensures_pure (k := 0) trivial)

/-- Nor a record. -/
theorem ensures_record (mk : Int64 → UInt64 → UInt64 → Bool → SyncupMsg) :
    Ensures 0 (decodeRecord mk) fun _ => True :=
  .ensure (ensures_sliceU64 (k := 17) fun _ => ensures_sliceU64 (k := 9) fun _ =>
    ensures_sliceU64 (k := 1) fun _ => Ensures.slice (k := 0) fun _ _ => ensures_pure trivial)

/-- **Nor any message of the handshake.** -/
theorem SyncupMsg.ensures : Ensures 0 (decodeTag .syncupEmpty >>= decodeBody) fun _ => True := by
  refine (ensures_tag _).bind fun op _ => ?_
  unfold decodeBody
  split
  · exact ensures_vlsn.bind fun _ _ => ensures_pure trivial
  · exact ensures_record _
  · exact ensures_pure trivial
  · exact ensures_record _
  · exact ensures_vlsn.bind fun _ _ => ensures_pure trivial
  · exact ensures_vlsn.bind fun _ _ => ensures_pure trivial
  · exact ensures_pure trivial
  · exact ensures_fail _

end Ensures

/-! ### The round trip -/

/-- **A message is read back iff it can be represented.** -/
theorem ProtocolMessage.decode_encode_iff (m : ProtocolMessage) :
    decode m.encode = .ok m ↔ m.Representable :=
  ⟨fun h => ProtocolMessage.ensures.of_run h, ProtocolMessage.decodes⟩

/-- **A message is read back iff the format can represent it**, and different ones of these have
different encodings; a message of the handshake always is; and no byte string makes a decoder
panic. -/
theorem wire_roundTrip_iff (m m' : ProtocolMessage) (s s' : SyncupMsg) (data : Bytes) :
    (ProtocolMessage.decode m.encode = .ok m ↔ m.Representable) ∧
    (m.Representable → m'.Representable → m.encode = m'.encode → m = m') ∧
    ProtocolMessage.decode data ≠ .error .panicked ∧
    SyncupMsg.decode s.encode = .ok s ∧ (s.encode = s'.encode → s = s') ∧
    SyncupMsg.decode data ≠ .error .panicked := by
  refine ⟨ProtocolMessage.decode_encode_iff m, fun hm hm' heq => ?_,
    ProtocolMessage.ensures.run_ne_panicked data, SyncupMsg.decodes s, fun heq => ?_,
    SyncupMsg.ensures.run_ne_panicked data⟩
  · have hread := ProtocolMessage.decodes hm
    rw [heq, ProtocolMessage.decodes hm'] at hread
    exact (Except.ok.inj hread).symm
  · have hread := SyncupMsg.decodes s
    rw [heq, SyncupMsg.decodes s'] at hread
    exact (Except.ok.inj hread).symm

/-- A node of half the read capacity. -/
def halfReader : RepNode := { RepNode.new "b" .electable "h" 5001 2 with readCapacityPct := 50 }

/-- **The capacity of a node is lost.** -/
theorem capacity_lost :
    ProtocolMessage.decode (ProtocolMessage.groupChange .update halfReader).encode ≠
      .ok (.groupChange .update halfReader) ∧
    ∃ m : ProtocolMessage, m ≠ .groupChange .update halfReader ∧
      m.encode = (ProtocolMessage.groupChange .update halfReader).encode := by
  have hcap : halfReader ≠ .new "b" .electable "h" 5001 2 := fun h =>
    absurd (congrArg RepNode.readCapacityPct h) (by decide)
  refine ⟨fun h => ?_, .groupChange .update (.new "b" .electable "h" 5001 2), ?_, rfl⟩
  · exact hcap ((ProtocolMessage.decode_encode_iff _).mp h).default
  · intro h
    exact hcap (ProtocolMessage.groupChange.inj h).2.symm

end Noxu.Protocol
