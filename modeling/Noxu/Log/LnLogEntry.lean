import Noxu.Library.Wire
import Noxu.Log.Entry
import Noxu.Recovery.Redo

/-!
# The Log Entry of a Record

A record's insertion, update or deletion is logged as a byte of flags, the database, for a
transaction its id and the LSN to revert to, the before-image as far as there is one, and the
record. Whether the entry is a transaction's stands in the **type of the entry**, outside its bytes,
and so does whether it is a deletion: a length of zero stands for absent and for empty data alike.

What is written is read back, up to these two things, and the scanner of the recovery settles the
second by the type. Lengths are cast to 32 bits without a check.

## Main results

* `length_writeToLog`: an entry takes as many bytes as its size says;
* `decodes_writeToLog`: an entry is read back, whatever follows;
* `ensures_parseFromSlice`: no bytes make the reader leave them;
* `ln_entry_survives_log`: what recovery gets from a logged record.
-/

open Noxu.Library Wire

namespace Noxu

/-! ### Entries -/

/-- What a leaf leaves in the log. -/
structure LnLogEntry where
  dbId : UInt64
  txnId : Option Int64
  abortLsn : Lsn
  abortKnownDeleted : Bool
  abortKey : Option Bytes
  abortData : Option Bytes
  abortVlsn : Int64
  abortExpiration : Int32
  embeddedLn : Bool
  key : Bytes
  data : Option Bytes
  expiration : Int32
deriving DecidableEq, Repr

/-- The sequence of a VLSN that is none. -/
def nullVlsn : Int64 := -1

namespace LnLogEntry

/-- The entry belongs to a transaction. -/
def isTransactional (e : LnLogEntry) : Bool := e.txnId.isSome

/-- The bytes of an optional field, with its length. -/
def sizedSize : Option Bytes → ℕ
  | none => 0
  | some d => 4 + d.length

/-- `log_size`. -/
def logSize (e : LnLogEntry) : ℕ :=
  1 + 8 +
    (if e.isTransactional then (if e.abortLsn ≠ nullLsn then 8 else 0) + 8 else 0) +
    sizedSize e.abortKey + sizedSize e.abortData + (if e.abortVlsn ≠ nullVlsn then 8 else 0) +
    (if e.abortExpiration ≠ 0 then 4 else 0) + (if e.expiration ≠ 0 then 4 else 0) +
    (match e.data with
      | some d => 4 + d.length
      | none => 4) +
    (4 + e.key.length)

/-! ### Flags -/

/-- Set a bit. -/
def setFlag (mask : UInt8) (val : Bool) (bits : UInt8) : UInt8 :=
  if val then bits ||| mask else bits

/-- A bit is set. -/
def hasFlag (mask bits : UInt8) : Bool := bits &&& mask ≠ 0

/-- The record was deleted before. -/
def abortKdMask : UInt8 := 0x01
/-- The record is embedded in its slot. -/
def embeddedLnMask : UInt8 := 0x02
/-- A key to restore follows. -/
def haveAbortKeyMask : UInt8 := 0x04
/-- Data to restore follow. -/
def haveAbortDataMask : UInt8 := 0x08
/-- A VLSN to restore follows. -/
def haveAbortVlsnMask : UInt8 := 0x10
/-- An LSN to restore follows. -/
def haveAbortLsnMask : UInt8 := 0x20
/-- An expiration to restore follows. -/
def haveAbortExpirationMask : UInt8 := 0x40
/-- An expiration follows. -/
def haveExpirationMask : UInt8 := 0x80

/-- The byte with these flags. -/
def packFlags (kd embedded key data vlsn lsn abortExpiration expiration : Bool) : UInt8 :=
  setFlag haveExpirationMask expiration <| setFlag haveAbortExpirationMask abortExpiration <|
    setFlag haveAbortLsnMask lsn <| setFlag haveAbortVlsnMask vlsn <|
    setFlag haveAbortDataMask data <| setFlag haveAbortKeyMask key <|
    setFlag embeddedLnMask embedded <| setFlag abortKdMask kd 0

/-- `flags`: the flags byte of an entry. -/
def flags (e : LnLogEntry) : UInt8 :=
  packFlags e.abortKnownDeleted e.embeddedLn e.abortKey.isSome e.abortData.isSome
    (e.abortVlsn ≠ nullVlsn) (e.abortLsn ≠ nullLsn) (e.abortExpiration ≠ 0) (e.expiration ≠ 0)

/-! ### Writing -/

/-- A field behind its length, which is cast to 32 bits. -/
def putSized (d : Bytes) : Bytes := beBytes 4 d.length ++ d

/-- A 64-bit integer, big-endian. -/
def putI64 (v : Int64) : Bytes := beBytes 8 v.toUInt64.toNat

/-- A 32-bit integer, big-endian. -/
def putI32 (v : Int32) : Bytes := beBytes 4 v.toUInt32.toNat

/-- The transaction, behind the LSN to revert to. -/
def putTxn (e : LnLogEntry) : Bytes :=
  match e.txnId with
  | some txn =>
    (if e.abortLsn ≠ nullLsn then beBytes 8 e.abortLsn.val else []) ++ putI64 txn
  | none => []

/-- `write_to_log`. -/
def writeToLog (e : LnLogEntry) : Bytes :=
  [e.flags] ++ (beBytes 8 e.dbId.toNat ++ (e.putTxn ++ ((e.abortKey.map putSized).getD [] ++
    ((e.abortData.map putSized).getD [] ++
    ((if e.abortVlsn ≠ nullVlsn then putI64 e.abortVlsn else []) ++
    ((if e.abortExpiration ≠ 0 then putI32 e.abortExpiration else []) ++
    ((if e.expiration ≠ 0 then putI32 e.expiration else []) ++
    (((e.data.map putSized).getD (beBytes 4 0)) ++ putSized e.key))))))))

/-! ### Reading -/

/-- The reader ran out of bytes at a read of this name. -/
inductive LnLogEntryError where
  | unexpectedEof (what : String)
  deriving DecidableEq, Repr

/-- A reader of entries. -/
abbrev LnReader := Wire LnLogEntryError

/-- `read_u8`. -/
def readU8At : LnReader UInt8 := UInt8.ofNat <$> number 1 fun _ _ => .unexpectedEof "read_u8"

/-- `read_u32`. -/
def readU32BeAt : LnReader ℕ := number 4 fun _ _ => .unexpectedEof "read_u32"

/-- The same bytes as a signed integer. -/
def readI32BeAt : LnReader Int32 := (fun n => (UInt32.ofNat n).toInt32) <$> readU32BeAt

/-- `read_u64`. -/
def readU64BeAt : LnReader ℕ := number 8 fun _ _ => .unexpectedEof "read_u64"

/-- The same bytes as a signed integer. -/
def readI64BeAt : LnReader Int64 := (fun n => (UInt64.ofNat n).toInt64) <$> readU64BeAt

/-- The next bytes. -/
def readSliceAt (len : ℕ) : LnReader Bytes :=
  bytes len fun _ _ => .unexpectedEof "read_slice"

/-- A field behind its length. -/
def readSizedAt : LnReader Bytes := do
  let len ← readU32BeAt
  readSliceAt len

/-- Read a field that is there, or take its default. -/
def readIf {α : Type} (there : Bool) (default : α) (p : LnReader α) : LnReader α :=
  if there then p else pure default

/-- The transaction and the LSN to revert to, of a transaction's entry. -/
def readTxn (isTransactional : Bool) (flags : UInt8) : LnReader (Option Int64 × Lsn) :=
  readIf isTransactional (none, nullLsn) do
    let lsn ← readIf (hasFlag haveAbortLsnMask flags) nullLsn (Fin.ofNat _ <$> readU64BeAt)
    let txn ← readI64BeAt
    pure (some txn, lsn)

/-- Data of length zero is absent. -/
def readData : LnReader (Option Bytes) := do
  let dataLen ← readU32BeAt
  if 0 < dataLen then some <$> readSliceAt dataLen else pure none

/-- `parse_from_slice`. -/
def parseFromSlice (isTransactional : Bool) : LnReader LnLogEntry := do
  let flags ← readU8At
  let dbId ← readU64BeAt
  let txn ← readTxn isTransactional flags
  let abortKey ← readIf (hasFlag haveAbortKeyMask flags) none (some <$> readSizedAt)
  let abortData ← readIf (hasFlag haveAbortDataMask flags) none (some <$> readSizedAt)
  let abortVlsn ← readIf (hasFlag haveAbortVlsnMask flags) nullVlsn readI64BeAt
  let abortExpiration ← readIf (hasFlag haveAbortExpirationMask flags) 0 readI32BeAt
  let expiration ← readIf (hasFlag haveExpirationMask flags) 0 readI32BeAt
  let data ← readData
  let key ← readSizedAt
  pure {
    dbId := UInt64.ofNat dbId, txnId := txn.1, abortLsn := txn.2,
    abortKnownDeleted := hasFlag abortKdMask flags, abortKey, abortData, abortVlsn,
    abortExpiration, embeddedLn := hasFlag embeddedLnMask flags, key, data, expiration }

end LnLogEntry

/-! ### The scanner of the recovery -/

/-- What an entry of this type did to a record, and whether in a transaction. -/
def LogEntryType.lnOperation : LogEntryType → Option (LnOperation × Bool)
  | insertLN => some (.insert, false)
  | insertLNTxn => some (.insert, true)
  | updateLN => some (.update, false)
  | updateLNTxn => some (.update, true)
  | deleteLN => some (.delete, false)
  | deleteLNTxn => some (.delete, true)
  | _ => none

/-- The record of an entry; only the type tells a deletion from empty data. -/
def LnLogEntry.toRecord (r : LnLogEntry) (op : LnOperation) : LnRecord where
  dbId := r.dbId.toNat
  txnId := r.txnId.map fun id => id.toUInt64.toNat
  operation := op
  key := r.key
  data := if op = .delete then none else some (r.data.getD [])
  abortLsn := r.abortLsn
  abortKnownDeleted := r.abortKnownDeleted
  abortKey := r.abortKey
  abortData := r.abortData
  expiration := r.expiration

/-- The record of an LN's payload. -/
def parsePayload (entryType : LogEntryType) (payload : Bytes) : Option LnRecord := do
  let (op, isTxn) ← entryType.lnOperation
  match run (LnLogEntry.parseFromSlice isTxn) payload with
  | .error _ => none
  | .ok r => some (r.toRecord op)

/-! ### Entries are read back -/

namespace LnLogEntry

/-- The byte strings of an entry have lengths of 32 bits. -/
structure Small (e : LnLogEntry) : Prop where
  key : e.key.length < 2 ^ 32
  data : ∀ d ∈ e.data, d.length < 2 ^ 32
  abortKey : ∀ d ∈ e.abortKey, d.length < 2 ^ 32
  abortData : ∀ d ∈ e.abortData, d.length < 2 ^ 32

/-- What is read of an entry: the LSN to revert to only of a transaction's, and empty data as
absent. -/
def readBack (e : LnLogEntry) : LnLogEntry :=
  { e with
    abortLsn := if e.isTransactional then e.abortLsn else nullLsn
    data := e.data.filter fun d => d ≠ [] }

/-- Each flag has a bit of its own. -/
theorem hasFlag_packFlags (a b c d e f g h : Bool) :
    hasFlag abortKdMask (packFlags a b c d e f g h) = a ∧
      hasFlag embeddedLnMask (packFlags a b c d e f g h) = b ∧
      hasFlag haveAbortKeyMask (packFlags a b c d e f g h) = c ∧
      hasFlag haveAbortDataMask (packFlags a b c d e f g h) = d ∧
      hasFlag haveAbortVlsnMask (packFlags a b c d e f g h) = e ∧
      hasFlag haveAbortLsnMask (packFlags a b c d e f g h) = f ∧
      hasFlag haveAbortExpirationMask (packFlags a b c d e f g h) = g ∧
      hasFlag haveExpirationMask (packFlags a b c d e f g h) = h := by
  revert a b c d e f g h
  decide +kernel

section Read

variable {α : Type} {bs d : Bytes}

/-- A byte is read back. -/
theorem decodes_readU8At (b : UInt8) : Decodes readU8At [b] b := by
  have hbytes : beBytes 1 b.toNat = [b] := by simp [beBytes, leBytes]
  have hnumber : Decodes (number 1 fun _ _ => LnLogEntryError.unexpectedEof "read_u8")
    (beBytes 1 b.toNat) b.toNat := decodes_number b.toNat_lt
  have hread := hnumber.map UInt8.ofNat
  rwa [hbytes, UInt8.ofNat_toNat] at hread

/-- A 64-bit integer is read back. -/
theorem decodes_readI64BeAt (v : Int64) : Decodes readI64BeAt (putI64 v) v := by
  have hnumber : Decodes readU64BeAt (beBytes 8 v.toUInt64.toNat) v.toUInt64.toNat :=
    decodes_number v.toUInt64.toNat_lt
  have hread := hnumber.map fun n => (UInt64.ofNat n).toInt64
  rwa [UInt64.ofNat_toNat] at hread

/-- A 32-bit integer is read back. -/
theorem decodes_readI32BeAt (v : Int32) : Decodes readI32BeAt (putI32 v) v := by
  have hnumber : Decodes readU32BeAt (beBytes 4 v.toUInt32.toNat) v.toUInt32.toNat :=
    decodes_number v.toUInt32.toNat_lt
  have hread := hnumber.map fun n => (UInt32.ofNat n).toInt32
  rwa [UInt32.ofNat_toNat] at hread

/-- A length and its bytes are read back. -/
theorem decodes_readSizedAt (h : d.length < 2 ^ 32) : Decodes readSizedAt (putSized d) d :=
  (decodes_number h).bind (decodes_bytes d)

/-- An optional field with its length. -/
theorem decodes_readIf_sized {o : Option Bytes} (h : ∀ d ∈ o, d.length < 2 ^ 32) :
    Decodes (readIf o.isSome none (some <$> readSizedAt)) ((o.map putSized).getD []) o := by
  cases o with
  | none => exact decodes_pure none
  | some d => exact (decodes_readSizedAt (h d rfl)).map some

/-- A field that is written unless it has its default value. -/
theorem decodes_readIf_ne [DecidableEq α] {p : LnReader α} (put : α → Bytes) (v default : α)
    (h : Decodes p (put v) v) :
    Decodes (readIf (v ≠ default) default p) (if v ≠ default then put v else []) v := by
  by_cases hv : v = default
  · subst hv
    simp only [ne_eq, not_true_eq_false, decide_false, if_false]
    exact decodes_pure v
  · simp only [ne_eq, hv, not_false_eq_true, decide_true, if_true]
    exact h

/-- The part of the transaction is read back. -/
theorem decodes_readTxn (e : LnLogEntry) :
    Decodes (readTxn e.isTransactional e.flags) e.putTxn (e.txnId, e.readBack.abortLsn) := by
  have hflag : hasFlag haveAbortLsnMask e.flags = decide (e.abortLsn ≠ nullLsn) :=
    (hasFlag_packFlags ..).2.2.2.2.2.1
  rw [readTxn, hflag, putTxn, readBack, isTransactional]
  cases htxn : e.txnId with
  | none => exact decodes_pure _
  | some txn =>
    have hlsn : Decodes (Fin.ofNat _ <$> readU64BeAt : LnReader Lsn) (beBytes 8 e.abortLsn.val)
        e.abortLsn := by
      have hnumber : Decodes readU64BeAt (beBytes 8 e.abortLsn.val) e.abortLsn.val :=
        decodes_number e.abortLsn.isLt
      have hread := hnumber.map (Fin.ofNat (2 ^ 64))
      rwa [Fin.ofNat_val_eq_self] at hread
    refine (decodes_readIf_ne (fun l : Lsn => beBytes 8 l.val) e.abortLsn nullLsn hlsn).bind ?_
    exact (decodes_readI64BeAt txn).bind_nil (decodes_pure _)

/-- Data that may be missing is read back; empty data is missing. -/
theorem decodes_readData {o : Option Bytes} (h : ∀ d ∈ o, d.length < 2 ^ 32) :
    Decodes readData ((o.map putSized).getD (beBytes 4 0)) (o.filter fun d => d ≠ []) := by
  cases o with
  | none => exact (decodes_number (n := 0) (by norm_num)).bind_nil (decodes_pure none)
  | some d =>
    cases d with
    | nil =>
      have hnone : (some ([] : Bytes)).filter (fun d => d ≠ []) = none := rfl
      rw [hnone]
      exact (decodes_number (n := 0) (by norm_num)).bind (decodes_pure none)
    | cons b d =>
      have hsome : (some (b :: d)).filter (fun d => d ≠ []) = some (b :: d) := by simp
      rw [hsome]
      refine (decodes_number (h (b :: d) rfl)).bind ?_
      rw [if_pos (by simp)]
      exact (decodes_bytes (b :: d)).map some

end Read

/-- **An entry is read back**, whatever follows. -/
theorem decodes_writeToLog {e : LnLogEntry} (h : e.Small) :
    Decodes (parseFromSlice e.isTransactional) e.writeToLog e.readBack := by
  obtain ⟨hkd, hembedded, hkey, hdata, hvlsn, -, hexp, hexp'⟩ :=
    hasFlag_packFlags e.abortKnownDeleted e.embeddedLn e.abortKey.isSome e.abortData.isSome
      (e.abortVlsn ≠ nullVlsn) (e.abortLsn ≠ nullLsn) (e.abortExpiration ≠ 0) (e.expiration ≠ 0)
  refine (decodes_readU8At e.flags).bind ((decodes_number e.dbId.toNat_lt).bind
    ((decodes_readTxn e).bind ?_))
  rw [flags, hkd, hembedded, hkey, hdata, hvlsn, hexp, hexp']
  refine (decodes_readIf_sized h.abortKey).bind ((decodes_readIf_sized h.abortData).bind ?_)
  refine (decodes_readIf_ne _ e.abortVlsn nullVlsn (decodes_readI64BeAt _)).bind ?_
  refine (decodes_readIf_ne _ e.abortExpiration 0 (decodes_readI32BeAt _)).bind ?_
  refine (decodes_readIf_ne _ e.expiration 0 (decodes_readI32BeAt _)).bind ?_
  refine (decodes_readData h.data).bind ((decodes_readSizedAt h.key).bind_nil ?_)
  rw [UInt64.ofNat_toNat]
  exact decodes_pure e.readBack

/-- **An entry takes as many bytes as its size says.** -/
theorem length_writeToLog (e : LnLogEntry) : e.writeToLog.length = e.logSize := by
  have hsized : ∀ o : Option Bytes, ((o.map putSized).getD []).length = sizedSize o := by
    rintro (- | d)
    · rfl
    · simp [putSized, sizedSize]
  have hdata : ((e.data.map putSized).getD (beBytes 4 0)).length =
      match e.data with
      | some d => 4 + d.length
      | none => 4 := by
    cases e.data with
    | none => simp
    | some d => simp [putSized]
  have htxn : e.putTxn.length =
      if e.isTransactional then (if e.abortLsn ≠ nullLsn then 8 else 0) + 8 else 0 := by
    rw [putTxn, isTransactional]
    cases e.txnId with
    | none => rfl
    | some txn =>
      simp only [Option.isSome_some, if_true, List.length_append, putI64, length_beBytes]
      split <;> simp
  simp only [writeToLog, logSize, List.length_append, hsized, hdata, htxn, length_beBytes,
    List.length_singleton, apply_ite List.length, List.length_nil, putI64, putI32, putSized]
  omega

/-- **No bytes make the reader leave them.** -/
theorem ensures_parseFromSlice (isTransactional : Bool) :
    Ensures 0 (parseFromSlice isTransactional) fun _ => True := by
  have hif : ∀ {α : Type} (there : Bool) (default : α) {p : LnReader α},
      Ensures 0 p (fun _ => True) → Ensures 0 (readIf there default p) fun _ => True := by
    intro α there default p hp
    cases there with
    | true => exact hp
    | false => exact ensures_pure trivial
  have hsized : Ensures 0 readSizedAt fun _ => True :=
    ensures_number.bind fun _ _ => ensures_bytes
  have hdata : Ensures 0 readData fun _ => True := by
    refine ensures_number.bind fun len _ => ?_
    split
    · exact ensures_bytes.map
    · exact ensures_pure trivial
  have htxn : ∀ flags, Ensures 0 (readTxn isTransactional flags) fun _ => True := fun flags =>
    hif _ _ ((hif _ _ ensures_number.map).bind fun _ _ =>
      Ensures.bind (Q := fun _ => True) ensures_number.map fun _ _ => ensures_pure trivial)
  refine Ensures.bind (Q := fun _ => True) ensures_number.map fun flags _ =>
    ensures_number.bind fun dbId _ => (htxn flags).bind fun txn _ => ?_
  refine (hif _ _ hsized.map).bind fun abortKey _ => (hif _ _ hsized.map).bind fun abortData _ => ?_
  refine (hif _ _ ensures_number.map).bind fun abortVlsn _ => ?_
  refine (hif _ _ ensures_number.map).bind fun abortExpiration _ => ?_
  refine (hif _ _ ensures_number.map).bind fun expiration _ => ?_
  exact hdata.bind fun data _ => hsized.bind fun key _ => ensures_pure trivial

/-- The bytes of an entry, with anything behind them, are read as the entry. -/
theorem run_parseFromSlice {e : LnLogEntry} (h : e.Small) (extra : Bytes) :
    run (parseFromSlice e.isTransactional) (e.writeToLog ++ extra) = .ok e.readBack := by
  have hread := decodes_writeToLog h [] extra
  rw [List.nil_append, List.length_nil] at hread
  rw [Wire.run, hread]
  rfl

/-- The scanner gives the record of a logged entry. -/
theorem parsePayload_writeToLog {e : LnLogEntry} (h : e.Small) {t : LogEntryType}
    {op : LnOperation} (ht : t.lnOperation = some (op, e.isTransactional)) (extra : Bytes) :
    parsePayload t (e.writeToLog ++ extra) = some (e.readBack.toRecord op) := by
  rw [parsePayload, ht]
  simp only [Option.bind_eq_bind, Option.bind_some, run_parseFromSlice h]

/-- The value of a record that is not a deletion. -/
theorem data_toRecord_readBack (e : LnLogEntry) {op : LnOperation} (hop : op ≠ .delete) :
    (e.readBack.toRecord op).data = some (e.data.getD []) := by
  rw [toRecord, if_neg hop]
  cases hdata : e.data with
  | none => simp [readBack, hdata]
  | some d => cases d <;> simp [readBack, hdata, Option.filter]

end LnLogEntry

/-- **A logged record survives the log.** It takes as many bytes as its size says; with anything
behind them they are read as the entry, up to the LSN to revert to outside of transactions and to
empty data; the scanner gives, from the type that goes with the entry, a record whose data is absent
exactly for a deletion and otherwise the logged data; and any bytes are read to an entry or an
error. -/
theorem ln_entry_survives_log {e : LnLogEntry} (h : e.Small) {t : LogEntryType} {op : LnOperation}
    (ht : t.lnOperation = some (op, e.isTransactional)) :
    e.writeToLog.length = e.logSize ∧
    (∀ extra, ∃ r,
      run (LnLogEntry.parseFromSlice e.isTransactional) (e.writeToLog ++ extra) = .ok r ∧
      r = { e with abortLsn := r.abortLsn, data := r.data } ∧
      (e.isTransactional = true → r.abortLsn = e.abortLsn)) ∧
    (∀ extra, ∃ r, parsePayload t (e.writeToLog ++ extra) = some r ∧ r.operation = op ∧
      r.key = e.key ∧ (r.data = none ↔ op = .delete) ∧
      (op ≠ .delete → r.data = some (e.data.getD []))) ∧
    ∀ isTransactional bs,
      run (LnLogEntry.parseFromSlice isTransactional) bs ≠ .error .panicked := by
  refine ⟨e.length_writeToLog, fun extra => ⟨e.readBack, LnLogEntry.run_parseFromSlice h extra, rfl,
    fun htxn => if_pos htxn⟩, fun extra => ?_,
    fun b bs => (LnLogEntry.ensures_parseFromSlice b).run_ne_panicked bs⟩
  refine ⟨e.readBack.toRecord op, LnLogEntry.parsePayload_writeToLog h ht extra, rfl, rfl, ?_,
    e.data_toRecord_readBack⟩
  by_cases hop : op = .delete
  · simp [LnLogEntry.toRecord, hop]
  · simp [LnLogEntry.toRecord, hop]

/-- An insertion of empty data outside of transactions. -/
def emptyInsertion : LnLogEntry where
  dbId := 7
  txnId := none
  abortLsn := nullLsn
  abortKnownDeleted := false
  abortKey := none
  abortData := none
  abortVlsn := nullVlsn
  abortExpiration := 0
  embeddedLn := true
  key := [1, 2]
  data := some []
  expiration := 30

/-- Its data is empty, not absent, in the record of the recovery. -/
theorem emptyInsertion_survives_log :
    ∃ r, parsePayload .insertLN (emptyInsertion.writeToLog ++ [9]) = some r ∧ r.data = some [] := by
  have hsmall : emptyInsertion.Small := by
    constructor <;> simp [emptyInsertion]
  obtain ⟨r, hr, -, -, -, hdata⟩ :=
    (ln_entry_survives_log hsmall
      (rfl : LogEntryType.lnOperation .insertLN = some (.insert, false))).2.2.1 [9]
  exact ⟨r, hr, hdata (by decide)⟩

/-- An entry with a before-image of this many zero bytes. -/
def withLongBeforeImage (n : ℕ) : LnLogEntry :=
  { emptyInsertion with
    key := [], data := none, expiration := 0, abortData := some (List.replicate n 0) }

/-- If the length is written as zero, the bytes begin with those of the entry whose before-image is
empty. -/
theorem writeToLog_withLongBeforeImage {n : ℕ} (hn : beBytes 4 n = beBytes 4 0) :
    (withLongBeforeImage n).writeToLog =
      (withLongBeforeImage 0).writeToLog ++ List.replicate n 0 := by
  have hzeros : beBytes 4 0 = List.replicate 4 0 := rfl
  simp only [withLongBeforeImage, LnLogEntry.writeToLog, LnLogEntry.putTxn, LnLogEntry.putSized,
    LnLogEntry.flags, emptyInsertion, Option.isSome_some, Option.map_some, Option.map_none,
    Option.getD_some, Option.getD_none, List.length_replicate, hn, hzeros, List.length_nil,
    ne_eq, not_true_eq_false, if_false, List.nil_append, List.append_nil, List.replicate_zero,
    List.append_assoc, List.replicate_append_replicate]
  congr 3
  omega

/-- **A length of 2³² is written as zero**, and the before-image is lost. -/
theorem long_before_image_lost :
    (withLongBeforeImage (2 ^ 32)).abortData = some (List.replicate (2 ^ 32) 0) ∧
      ∃ r, run (LnLogEntry.parseFromSlice false) (withLongBeforeImage (2 ^ 32)).writeToLog = .ok r ∧
        r.abortData = some [] := by
  have hsmall : (withLongBeforeImage 0).Small := by
    constructor <;> simp [withLongBeforeImage, emptyInsertion]
  have hread := LnLogEntry.decodes_writeToLog hsmall [] (List.replicate (2 ^ 32) 0)
  rw [List.nil_append, List.length_nil, ← writeToLog_withLongBeforeImage (n := 2 ^ 32) rfl] at hread
  refine ⟨rfl, (withLongBeforeImage 0).readBack, ?_, rfl⟩
  have hfalse : (withLongBeforeImage 0).isTransactional = false := rfl
  rw [hfalse] at hread
  rw [Wire.run, hread]
  rfl

end Noxu
