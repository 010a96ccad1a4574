import Mathlib.Data.List.Nodup
import Noxu.Tree.Key

/-!
# Log Entries

The types of log entries with their persistent numbers, positions in the log as file and offset,
and what the headers of entries and files take up.
-/

namespace Noxu

/-! ### Entry types -/

/-- The type of a log entry. -/
inductive LogEntryType where
  | fileHeader
  | inNode
  | bin
  | binDelta
  | insertLN
  | updateLN
  | deleteLN
  | insertLNTxn
  | updateLNTxn
  | deleteLNTxn
  | mapLN
  | nameLN
  | nameLNTxn
  | fileSummaryLN
  | txnCommit
  | txnAbort
  | txnPrepare
  | ckptStart
  | ckptEnd
  | dbTree
  | trace
  | matchpoint
  | rollbackStart
  | rollbackEnd
  | inDeleteInfo
  | inDupDeleteInfo
  | oldBINDelta
  | oldLN
  | delDupLN
  | dupCountLN
  | immutableFile
  deriving DecidableEq, Repr

namespace LogEntryType

/-- The persistent number of a type. -/
def typeNum : LogEntryType → UInt8
  | fileHeader => 1
  | inNode => 2
  | bin => 3
  | binDelta => 4
  | insertLN => 10
  | updateLN => 11
  | deleteLN => 12
  | insertLNTxn => 13
  | updateLNTxn => 14
  | deleteLNTxn => 15
  | mapLN => 20
  | nameLN => 21
  | nameLNTxn => 22
  | fileSummaryLN => 23
  | txnCommit => 30
  | txnAbort => 31
  | txnPrepare => 32
  | ckptStart => 40
  | ckptEnd => 41
  | dbTree => 50
  | trace => 60
  | matchpoint => 61
  | rollbackStart => 62
  | rollbackEnd => 63
  | inDeleteInfo => 64
  | inDupDeleteInfo => 65
  | oldBINDelta => 66
  | oldLN => 67
  | delDupLN => 68
  | dupCountLN => 69
  | immutableFile => 70

/-- The type with a persistent number. -/
def fromTypeNum (typeNum : UInt8) : Option LogEntryType :=
  match typeNum.toNat with
  | 1 => some fileHeader
  | 2 => some inNode
  | 3 => some bin
  | 4 => some binDelta
  | 10 => some insertLN
  | 11 => some updateLN
  | 12 => some deleteLN
  | 13 => some insertLNTxn
  | 14 => some updateLNTxn
  | 15 => some deleteLNTxn
  | 20 => some mapLN
  | 21 => some nameLN
  | 22 => some nameLNTxn
  | 23 => some fileSummaryLN
  | 30 => some txnCommit
  | 31 => some txnAbort
  | 32 => some txnPrepare
  | 40 => some ckptStart
  | 41 => some ckptEnd
  | 50 => some dbTree
  | 60 => some trace
  | 61 => some matchpoint
  | 62 => some rollbackStart
  | 63 => some rollbackEnd
  | 64 => some inDeleteInfo
  | 65 => some inDupDeleteInfo
  | 66 => some oldBINDelta
  | 67 => some oldLN
  | 68 => some delDupLN
  | 69 => some dupCountLN
  | 70 => some immutableFile
  | _ => none

/-- The types of a leaf. -/
def isLnType : LogEntryType → Bool
  | insertLN | updateLN | deleteLN | insertLNTxn | updateLNTxn | deleteLNTxn | mapLN | nameLN
  | nameLNTxn | fileSummaryLN | oldLN | delDupLN | dupCountLN => true
  | _ => false

/-- The types of a node. -/
def isInType : LogEntryType → Bool
  | inNode | bin | binDelta => true
  | _ => false

end LogEntryType

/-! ### Positions -/

/-- The position at an offset of a file, both 32 bits wide. -/
def makeLsn (file offset : ℕ) : Lsn := Fin.ofNat _ (file % 2 ^ 32 * 2 ^ 32 + offset % 2 ^ 32)

/-! ### Headers -/

/-- The size of the header of an entry without a VLSN. -/
def minHeaderSize : ℕ := 14

/-- The size of the header of an entry with a VLSN. -/
def maxHeaderSize : ℕ := 22

/-- The size of the header of a file. -/
def fileHeaderSize : ℕ := 36

/-- The header has a VLSN. -/
def vlsnPresent (flags : UInt8) : Bool := flags &&& 0x08 != 0 || flags &&& 0x20 != 0

/-- The entry is rolled back. -/
def invisibleFlag (flags : UInt8) : Bool := flags &&& 0x10 != 0

end Noxu
