import Mathlib.Data.Prod.Lex
import Mathlib.Data.String.Basic
import Noxu.Library.Bytes
import Noxu.Rep.Ballot

/-!
# The Acceptor's File

An acceptor writes what it has promised and accepted to a file before it answers, and reads it
back when the process restarts. The file gives a name a length of two bytes and takes length zero
for no name. A longer name is cut off and an empty one is lost. A file that cannot be read is
removed, and the acceptor starts afresh.

## Main results

* `loadBytes_encode`: what is read back of the file that was written;
* `loadBytes_no_panic`: no content of the file makes the loader panic;
* `acceptor_state_survives`: **if the names that are granted fit, no flush fails after it has
  renamed the file and the file can be read, then a restart brings back the state of the last
  success, the promise never goes down and no term's master is replaced.**
-/

namespace Noxu

open Library

/-! ### The file -/

/-- Why a file is rejected. -/
inductive AcceptorPersistError
  | io
  | badMagic (got : Bytes)
  | badVersion (version : ℕ)
  | truncated (expected got : ℕ)
  | badChecksum (stored computed : UInt32)
  | badMasterName
  deriving DecidableEq

/-- How loading can end without a state. -/
inductive LoadFailure
  | rejected (e : AcceptorPersistError)
  | panicked
  deriving DecidableEq

/-- What loading returns. -/
abbrev Load := Except LoadFailure

namespace AcceptorFile

/-- The first bytes of the file. -/
def magic : Bytes := [0x50, 0x58, 0x53, 0x54]

/-- The version that is written. -/
def version : ℕ := 2

/-- The length of the smallest file of version 1. -/
def minLen : ℕ := 4 + 2 + 8 + 8 + 2 + 4

/-- The bytes of a name that are written; its length has two bytes. -/
def cut (name : Option String) : Bytes := (utf8 (name.getD "")).take 65535

/-- The file without its checksum. -/
def body (a : Acceptor String) : Bytes :=
  magic ++ leBytes 2 version ++ leBytes 8 a.promisedTerm ++ leBytes 8 a.acceptedTerm ++
    leBytes 2 (cut a.acceptedMaster).length ++ cut a.acceptedMaster ++
    leBytes 2 (cut a.promisedProposer).length ++ cut a.promisedProposer

variable (crc : Bytes → UInt32)

/-- The file. -/
def encode (a : Acceptor String) : Bytes := body a ++ leBytes 4 (crc (body a)).toNat

/-- `bytes[start..stop]`, which panics when it goes past the end. -/
def slice (bytes : Bytes) (start stop : ℕ) : Load Bytes :=
  if start ≤ stop ∧ stop ≤ bytes.length then .ok ((bytes.drop start).take (stop - start))
  else .error .panicked

/-- Reject the file if the condition holds. -/
def rejectIf (p : Prop) [Decidable p] (e : AcceptorPersistError) : Load Unit :=
  if p then .error (.rejected e) else .ok ()

/-- The name with these bytes. -/
def nameOf (bytes : Bytes) : Load (Option String) :=
  match ofUtf8 bytes with
  | some name => .ok (some name)
  | none => .error (.rejected .badMasterName)

/-- The name of this length at a position; length zero is no name. -/
def nameAt (bytes : Bytes) (start len : ℕ) : Load (Option String) :=
  if len = 0 then .ok none
  else do
    let name ← slice bytes start (start + len)
    nameOf name

/-- The proposer after the master; files of version 1 have none. -/
def proposerAt (bytes : Bytes) (version afterMaster : ℕ) : Load (Option String) :=
  if 2 ≤ version then do
    rejectIf (bytes.length < afterMaster + 2 + 4) (.truncated (afterMaster + 2 + 4) bytes.length)
    let len ← slice bytes afterMaster (afterMaster + 2)
    rejectIf (bytes.length < afterMaster + 2 + leNat len + 4)
      (.truncated (afterMaster + 2 + leNat len + 4) bytes.length)
    nameAt bytes (afterMaster + 2) (leNat len)
  else .ok none

/-- The checksum at the end of the file. -/
def checkCrc (bytes : Bytes) : Load Unit := do
  let stored ← slice bytes (bytes.length - 4) bytes.length
  let covered ← slice bytes 0 (bytes.length - 4)
  rejectIf (UInt32.ofNat (leNat stored) ≠ crc covered)
    (.badChecksum (UInt32.ofNat (leNat stored)) (crc covered))

/-- The state in a file. -/
def loadBytes (bytes : Bytes) : Load (Acceptor String) := do
  rejectIf (bytes.length < minLen) (.truncated minLen bytes.length)
  checkCrc crc bytes
  let found ← slice bytes 0 4
  rejectIf (found ≠ magic) (.badMagic found)
  let v ← slice bytes 4 6
  rejectIf (leNat v ≠ 1 ∧ leNat v ≠ version) (.badVersion (leNat v))
  let promised ← slice bytes 6 14
  let accepted ← slice bytes 14 22
  let len ← slice bytes 22 24
  rejectIf (bytes.length < 24 + leNat len + 4) (.truncated (24 + leNat len + 4) bytes.length)
  let master ← nameAt bytes 24 (leNat len)
  let proposer ← proposerAt bytes (leNat v) (24 + leNat len)
  pure ⟨leNat promised, proposer, leNat accepted, master⟩

/-! ### No panic -/

/-- Loading ends with a value or an error. -/
def NoPanic {α : Type} (x : Load α) : Prop := x ≠ .error .panicked

variable {α β : Type} {x : Load α} {f : α → Load β} {bytes : Bytes}

theorem NoPanic.bind (hx : NoPanic x) (hf : ∀ a, x = .ok a → NoPanic (f a)) :
    NoPanic (x >>= f) := by
  cases x with
  | error e =>
    intro h
    exact hx (congrArg Except.error (Except.error.inj h))
  | ok a => exact hf a rfl

/-- What comes after a check may use that it passed. -/
theorem NoPanic.rejectIf {p : Prop} [Decidable p] {e : AcceptorPersistError} {f : Unit → Load β}
    (hf : ¬p → NoPanic (f ())) : NoPanic (AcceptorFile.rejectIf p e >>= f) := by
  by_cases hp : p
  · rw [AcceptorFile.rejectIf, if_pos hp]
    exact nofun
  · rw [AcceptorFile.rejectIf, if_neg hp]
    exact hf hp

theorem NoPanic.slice {start stop : ℕ} {f : Bytes → Load β} (h : start ≤ stop)
    (h' : stop ≤ bytes.length) (hf : ∀ bs, NoPanic (f bs)) :
    NoPanic (AcceptorFile.slice bytes start stop >>= f) := by
  rw [AcceptorFile.slice, if_pos ⟨h, h'⟩]
  exact hf _

theorem noPanic_nameAt {start len : ℕ} (h : start + len ≤ bytes.length) :
    NoPanic (nameAt bytes start len) := by
  rw [nameAt]
  split
  · exact nofun
  · refine NoPanic.slice (Nat.le_add_right _ _) h fun name => ?_
    rw [nameOf]
    split <;> exact nofun

theorem noPanic_proposerAt (v afterMaster : ℕ) : NoPanic (proposerAt bytes v afterMaster) := by
  rw [proposerAt]
  split
  · refine .rejectIf fun h => .slice (by omega) (by omega) fun len => .rejectIf fun h' => ?_
    exact noPanic_nameAt (by omega)
  · exact nofun

theorem noPanic_checkCrc (h : ¬bytes.length < minLen) : NoPanic (checkCrc crc bytes) := by
  rw [minLen] at h
  refine .slice (by omega) (by omega) fun stored => .slice (by omega) (by omega) fun covered => ?_
  rw [AcceptorFile.rejectIf]
  split <;> exact nofun

/-- **Every content of the file is loaded or rejected.** -/
theorem loadBytes_no_panic (bytes : Bytes) : NoPanic (loadBytes crc bytes) := by
  refine .rejectIf fun hmin => .bind (noPanic_checkCrc crc hmin) fun _ _ => ?_
  rw [minLen] at hmin
  refine .slice (by omega) (by omega) fun found => .rejectIf fun _ => ?_
  refine .slice (by omega) (by omega) fun v => .rejectIf fun _ => ?_
  refine .slice (by omega) (by omega) fun promised => ?_
  refine .slice (by omega) (by omega) fun accepted => ?_
  refine .slice (by omega) (by omega) fun len => .rejectIf fun hlen => ?_
  refine .bind (noPanic_nameAt (by omega)) fun master _ => ?_
  exact .bind (noPanic_proposerAt _ _) fun proposer _ => nofun

/-! ### Reading back -/

theorem slice_eq {start stop : ℕ} (pre mid post : Bytes) (h : bytes = pre ++ mid ++ post)
    (hstart : start = pre.length) (hstop : stop = pre.length + mid.length) :
    slice bytes start stop = .ok mid := by
  subst h hstart hstop
  rw [slice, if_pos ⟨Nat.le_add_right _ _, by simp⟩, List.append_assoc, List.drop_left,
    Nat.add_sub_cancel_left, List.take_left]

theorem rejectIf_of_not {p : Prop} [Decidable p] {e : AcceptorPersistError} (h : ¬p) :
    rejectIf p e = .ok () := if_neg h

theorem length_cut_lt (name : Option String) : (cut name).length < 256 ^ 2 := by
  rw [cut, List.length_take]
  omega

/-- The name that is read back: none of length zero, and an error if what is left of a long one
is not well formed. -/
def readBack (name : Option String) : Load (Option String) :=
  if (cut name).length = 0 then .ok none else nameOf (cut name)

theorem nameAt_eq {start : ℕ} (pre post : Bytes) (name : Option String)
    (h : bytes = pre ++ cut name ++ post) (hstart : start = pre.length) :
    nameAt bytes start (cut name).length = readBack name := by
  rw [nameAt, readBack]
  split
  · rfl
  · rw [slice_eq pre (cut name) post h hstart (by rw [hstart])]
    rfl

theorem checkCrc_encode (a : Acceptor String) : checkCrc crc (encode crc a) = .ok () := by
  have hlen : (encode crc a).length = (body a).length + 4 := by simp [encode]
  have hcrc : UInt32.ofNat (leNat (leBytes 4 (crc (body a)).toNat)) = crc (body a) := by
    rw [leNat_leBytes_of_lt (crc (body a)).toNat_lt, UInt32.ofNat_toNat]
  have hcovered : slice (encode crc a) 0 ((encode crc a).length - 4) = .ok (body a) :=
    slice_eq [] (body a) (leBytes 4 (crc (body a)).toNat) rfl rfl (by simp [hlen])
  have hstored : slice (encode crc a) ((encode crc a).length - 4) (encode crc a).length =
      .ok (leBytes 4 (crc (body a)).toNat) :=
    slice_eq (body a) _ [] (by rw [List.append_nil, encode]) (by simp [hlen]) (by simp [hlen])
  rw [checkCrc, hstored, hcovered]
  simp only [bind, Except.bind]
  exact rejectIf_of_not (not_not.mpr hcrc)

/-- What stands before the proposer. -/
def header (a : Acceptor String) : Bytes :=
  magic ++ leBytes 2 version ++ leBytes 8 a.promisedTerm ++ leBytes 8 a.acceptedTerm ++
    leBytes 2 (cut a.acceptedMaster).length

theorem length_header (a : Acceptor String) : (header a).length = 24 := by
  simp [header, magic]

theorem encode_eq (a : Acceptor String) :
    encode crc a = header a ++ cut a.acceptedMaster ++ leBytes 2 (cut a.promisedProposer).length ++
      cut a.promisedProposer ++ leBytes 4 (crc (body a)).toNat := rfl

theorem length_encode (a : Acceptor String) : (encode crc a).length =
    24 + (cut a.acceptedMaster).length + 2 + (cut a.promisedProposer).length + 4 := by
  simp only [encode_eq, List.length_append, length_header, length_leBytes]

theorem proposerAt_encode (a : Acceptor String) :
    proposerAt (encode crc a) 2 (24 + (cut a.acceptedMaster).length) =
      readBack a.promisedProposer := by
  have hlen := length_encode crc a
  have hcount : leNat (leBytes 2 (cut a.promisedProposer).length) =
      (cut a.promisedProposer).length := leNat_leBytes_of_lt (length_cut_lt _)
  have hslice : slice (encode crc a) (24 + (cut a.acceptedMaster).length)
      (24 + (cut a.acceptedMaster).length + 2) =
        .ok (leBytes 2 (cut a.promisedProposer).length) :=
    slice_eq (header a ++ cut a.acceptedMaster) _
      (cut a.promisedProposer ++ leBytes 4 (crc (body a)).toNat)
      (by simp only [encode_eq, List.append_assoc]) (by simp [length_header])
      (by simp [length_header])
  have hname : nameAt (encode crc a) (24 + (cut a.acceptedMaster).length + 2)
      (cut a.promisedProposer).length = readBack a.promisedProposer :=
    nameAt_eq (header a ++ cut a.acceptedMaster ++ leBytes 2 (cut a.promisedProposer).length)
      (leBytes 4 (crc (body a)).toNat) _ (encode_eq crc a)
      (by simp only [List.length_append, length_header, length_leBytes])
  simp only [proposerAt, if_pos (le_refl 2), hslice, hname, bind, Except.bind, hcount]
  rw [rejectIf_of_not (by omega), rejectIf_of_not (by omega)]

/-- **What is read back of a file that was written**: the terms, and the names as far as they
went in. -/
theorem loadBytes_encode (a : Acceptor String) (hp : a.promisedTerm < 256 ^ 8)
    (ha : a.acceptedTerm < 256 ^ 8) :
    loadBytes crc (encode crc a) =
      (readBack a.acceptedMaster >>= fun master =>
        readBack a.promisedProposer >>= fun proposer =>
          pure ⟨a.promisedTerm, proposer, a.acceptedTerm, master⟩) := by
  have hlen := length_encode crc a
  have hcount : leNat (leBytes 2 (cut a.acceptedMaster).length) =
      (cut a.acceptedMaster).length := leNat_leBytes_of_lt (length_cut_lt _)
  have hname : nameAt (encode crc a) 24 (cut a.acceptedMaster).length = readBack a.acceptedMaster :=
    nameAt_eq (header a) _ _ (by rw [encode_eq, List.append_assoc, List.append_assoc])
      (length_header a).symm
  -- The fields of fixed width, from the front.
  have hslice : ∀ {start stop : ℕ} (pre mid post : Bytes), header a = pre ++ mid ++ post →
      start = pre.length → stop = pre.length + mid.length →
      slice (encode crc a) start stop = .ok mid := by
    intro start stop pre mid post hheader
    refine slice_eq pre mid (post ++ cut a.acceptedMaster ++
      leBytes 2 (cut a.promisedProposer).length ++ cut a.promisedProposer ++
      leBytes 4 (crc (body a)).toNat) ?_
    simp only [encode_eq, hheader, List.append_assoc]
  have hmagic : slice (encode crc a) 0 4 = .ok magic :=
    hslice [] magic (leBytes 2 version ++ leBytes 8 a.promisedTerm ++ leBytes 8 a.acceptedTerm ++
      leBytes 2 (cut a.acceptedMaster).length)
      (by simp only [header, List.append_assoc, List.nil_append]) rfl rfl
  have hversion : slice (encode crc a) 4 6 = .ok (leBytes 2 version) :=
    hslice magic _ (leBytes 8 a.promisedTerm ++ leBytes 8 a.acceptedTerm ++
      leBytes 2 (cut a.acceptedMaster).length) (by simp only [header, List.append_assoc]) rfl rfl
  have hpromised : slice (encode crc a) 6 14 = .ok (leBytes 8 a.promisedTerm) :=
    hslice (magic ++ leBytes 2 version) _
      (leBytes 8 a.acceptedTerm ++ leBytes 2 (cut a.acceptedMaster).length)
      (by simp only [header, List.append_assoc]) rfl rfl
  have haccepted : slice (encode crc a) 14 22 = .ok (leBytes 8 a.acceptedTerm) :=
    hslice (magic ++ leBytes 2 version ++ leBytes 8 a.promisedTerm) _
      (leBytes 2 (cut a.acceptedMaster).length) rfl rfl rfl
  have hmaster : slice (encode crc a) 22 24 = .ok (leBytes 2 (cut a.acceptedMaster).length) :=
    hslice (magic ++ leBytes 2 version ++ leBytes 8 a.promisedTerm ++ leBytes 8 a.acceptedTerm) _ []
      (by simp only [header, List.append_nil]) rfl rfl
  have htwo : leNat (leBytes 2 version) = 2 := by decide
  have hp' : leNat (leBytes 8 a.promisedTerm) = a.promisedTerm := leNat_leBytes_of_lt hp
  have ha' : leNat (leBytes 8 a.acceptedTerm) = a.acceptedTerm := leNat_leBytes_of_lt ha
  rw [loadBytes, rejectIf_of_not (by rw [minLen]; omega), checkCrc_encode, hmagic, hversion,
    hpromised, haccepted, hmaster]
  simp only [bind, Except.bind, htwo, hcount, hname, proposerAt_encode, hp', ha']
  rw [rejectIf_of_not (by simp), rejectIf_of_not (by decide), rejectIf_of_not (by omega)]

/-- The name comes back from the file: it is not empty and its length has two bytes. -/
def Fits (name : Option String) : Prop :=
  ∀ n ∈ name, 0 < (utf8 n).length ∧ (utf8 n).length ≤ 65535

theorem Fits.readBack {name : Option String} (h : Fits name) : readBack name = .ok name := by
  cases name with
  | none => rfl
  | some n =>
    obtain ⟨hpos, hle⟩ := h n rfl
    have hcut : cut (some n) = utf8 n := List.take_of_length_le hle
    rw [AcceptorFile.readBack, hcut, if_neg (Nat.pos_iff_ne_zero.mp hpos), nameOf, ofUtf8_utf8]

end AcceptorFile

/-! ### The acceptor and its file -/

open AcceptorFile

/-- The acceptor in memory, its file, and the state after the last request that succeeded, which
has no counterpart in the source. -/
structure StoredAcceptor where
  memory : Acceptor String
  file : Option Bytes
  granted : Acceptor String

/-- What happens to an acceptor. -/
inductive AcceptorEvent
  | promise (t : UInt64) (proposer : String) (result : FlushResult)
  | accept (t : UInt64) (proposer master : String) (result : FlushResult)
  | restart (readFails removeFails : Bool)

namespace StoredAcceptor

variable (crc : Bytes → UInt32)

/-- No file yet. -/
def new : StoredAcceptor := ⟨.new, none, .new⟩

/-- The request succeeds once the file is written; otherwise memory is rolled back. -/
def flush (s : StoredAcceptor) (new : Acceptor String) : FlushResult → StoredAcceptor
  | .done => ⟨new, some (encode crc new), new⟩
  | .failed renamed => { s with file := if renamed then some (encode crc new) else s.file }

/-- `load_from_disk`. -/
def loadFromDisk (s : StoredAcceptor) (readFails : Bool) : Load (Option (Acceptor String)) :=
  if readFails then .error (.rejected .io)
  else
    match s.file with
    | none => .ok none
    | some bytes => some <$> loadBytes crc bytes

/-- A file that is rejected is removed, if that works. -/
def loadOrDefault (s : StoredAcceptor) (readFails removeFails : Bool) : Option StoredAcceptor :=
  match s.loadFromDisk crc readFails with
  | .ok a => some { s with memory := a.getD .new }
  | .error (.rejected _) =>
    some { s with memory := .new, file := if removeFails then s.file else none }
  | .error .panicked => none

/-- One event; `none` is a panic. -/
def step (s : StoredAcceptor) : AcceptorEvent → Option StoredAcceptor
  | .promise t proposer result =>
    match s.memory.tryPromise t.toNat proposer with
    | none => some s
    | some new => some (s.flush crc new result)
  | .accept t proposer master result =>
    match s.memory.tryAccept t.toNat proposer master with
    | none => some s
    | some new => some (s.flush crc new result)
  | .restart readFails removeFails => s.loadOrDefault crc readFails removeFails

/-- A new state gets into the file or stays out of it: its new name fits, and a flush that fails
has not renamed the file. -/
def Flushes (s : StoredAcceptor) (new : Acceptor String) (name : String) : FlushResult → Prop
  | .done => Fits (some name)
  | .failed renamed => renamed = true → new = s.memory

/-- **The condition.** -/
def KeepsState (s : StoredAcceptor) : AcceptorEvent → Prop
  | .promise t proposer result =>
    ∀ new ∈ s.memory.tryPromise t.toNat proposer, s.Flushes new proposer result
  | .accept t proposer master result =>
    ∀ new ∈ s.memory.tryAccept t.toNat proposer master, s.Flushes new master result
  | .restart readFails _ => readFails = false

/-! ### One event -/

/-- The state fits the file. -/
structure Writable (a : Acceptor String) : Prop where
  proposer : Fits a.promisedProposer
  master : Fits a.acceptedMaster
  promised_lt : a.promisedTerm < 256 ^ 8
  accepted_lt : a.acceptedTerm < 256 ^ 8

theorem Writable.loadBytes {a : Acceptor String} (h : Writable a) :
    loadBytes crc (encode crc a) = .ok a := by
  rw [loadBytes_encode crc a h.promised_lt h.accepted_lt, h.master.readBack, h.proposer.readBack]
  rfl

/-- Memory is the state of the last success, and so is the file. -/
structure Inv (s : StoredAcceptor) : Prop where
  memory_eq : s.memory = s.granted
  file : s.file = none ∧ s.memory = .new ∨ s.file = some (encode crc s.memory)
  writable : Writable s.memory
  accepted_le : s.memory.acceptedTerm ≤ s.memory.promisedTerm

theorem inv_new : Inv crc new where
  memory_eq := rfl
  file := .inl ⟨rfl, rfl⟩
  writable := ⟨nofun, nofun, by decide, by decide⟩
  accepted_le := le_rfl

variable {crc} {s s' : StoredAcceptor} {new : Acceptor String} {e : AcceptorEvent}

theorem Inv.flush {name : String} {result : FlushResult} (h : Inv crc s)
    (hf : s.Flushes new name result) (hw : Fits (some name) → Writable new)
    (hle : new.acceptedTerm ≤ new.promisedTerm) : Inv crc (s.flush crc new result) := by
  cases result with
  | done => exact ⟨rfl, .inr rfl, hw hf, hle⟩
  | failed renamed =>
    refine ⟨h.memory_eq, ?_, h.writable, h.accepted_le⟩
    cases renamed with
    | false => exact h.file
    | true =>
      right
      exact congrArg (fun a => some (encode crc a)) (hf rfl)

/-- **A restart brings back the state.** -/
theorem Inv.loadOrDefault (h : Inv crc s) (removeFails : Bool) :
    s.loadOrDefault crc false removeFails = some s := by
  have hload : ∃ a, s.loadFromDisk crc false = .ok a ∧ a.getD .new = s.memory := by
    rcases h.file with ⟨hfile, hmem⟩ | hfile
    · exact ⟨none, by rw [loadFromDisk, hfile]; rfl, hmem.symm⟩
    · refine ⟨some s.memory, ?_, rfl⟩
      rw [loadFromDisk, hfile]
      show some <$> AcceptorFile.loadBytes crc (encode crc s.memory) = _
      rw [h.writable.loadBytes]
      rfl
  obtain ⟨a, ha, hmem⟩ := hload
  rw [StoredAcceptor.loadOrDefault, ha]
  show some { s with memory := a.getD .new } = some s
  rw [hmem]

/-- The number promised: terms first, then names, where no name is below every name. -/
def proposal (a : Acceptor String) : ℕ ×ₗ WithBot String :=
  toLex (a.promisedTerm, a.promisedProposer)

/-- The promise has not gone down, and a term's master has not been replaced. -/
structure Grows (a b : Acceptor String) : Prop where
  promise : proposal a ≤ proposal b
  accepted : a.acceptedTerm ≤ b.acceptedTerm
  master : a.acceptedTerm = b.acceptedTerm → ∀ m, a.acceptedMaster = some m →
    b.acceptedMaster = some m

theorem Grows.refl (a : Acceptor String) : Grows a a := ⟨le_rfl, le_rfl, fun _ _ => id⟩

theorem Grows.trans {a b c : Acceptor String} (h : Grows a b) (h' : Grows b c) : Grows a c where
  promise := h.promise.trans h'.promise
  accepted := h.accepted.trans h'.accepted
  master heq m hm := by
    have hb : a.acceptedTerm = b.acceptedTerm :=
      le_antisymm h.accepted (heq ▸ h'.accepted)
    exact h'.master (hb.symm.trans heq) m (h.master hb m hm)

theorem grows_of_promise {t : ℕ} {proposer : String}
    (h : s.memory.tryPromise t proposer = some new) : Grows s.memory new := by
  obtain ⟨hle, rfl⟩ := Acceptor.tryPromise_eq_some h
  refine ⟨?_, le_rfl, fun _ _ => id⟩
  rw [proposal, proposal, Prod.Lex.toLex_le_toLex]
  rcases hle.lt_or_eq with hlt | heq
  · exact .inl hlt
  · refine .inr ⟨heq, ?_⟩
    rw [Acceptor.tryPromise, Option.ite_none_left_eq_some] at h
    cases hp : s.memory.promisedProposer with
    | none => exact (bot_le : (⊥ : WithBot String) ≤ _)
    | some p =>
      have hnot : ¬proposer < p := fun hlt => h.1 (by simp [Acceptor.promisedAbove, heq, hp, hlt])
      exact WithBot.coe_le_coe.mpr (not_lt.mp hnot)

theorem grows_of_accept {t : ℕ} {proposer master : String}
    (hle : s.memory.acceptedTerm ≤ s.memory.promisedTerm)
    (h : s.memory.tryAccept t proposer master = some new) : Grows s.memory new := by
  obtain ⟨rfl, hsame, rfl⟩ := Acceptor.tryAccept_value h
  exact ⟨le_rfl, hle, fun heq m hm => hm.symm.trans (hsame heq) ▸ rfl⟩

theorem Grows.flush (h : Grows s.memory new) (result : FlushResult) :
    Grows s.memory (s.flush crc new result).memory := by
  cases result with
  | done => exact h
  | failed renamed => exact .refl _

/-- **One event.** -/
theorem Inv.step (h : Inv crc s) (hok : s.KeepsState e) (hs : s.step crc e = some s') :
    Inv crc s' ∧ Grows s.memory s'.memory := by
  cases e with
  | promise t proposer result =>
    rw [StoredAcceptor.step] at hs
    split at hs
    · obtain rfl := Option.some.inj hs
      exact ⟨h, .refl _⟩
    · rename_i new hnew
      obtain rfl := Option.some.inj hs
      have hgrows := grows_of_promise hnew
      obtain ⟨hle, rfl⟩ := Acceptor.tryPromise_eq_some hnew
      exact ⟨h.flush (hok _ hnew) (fun hfit => { h.writable with
        proposer := hfit, promised_lt := t.toNat_lt }) (h.accepted_le.trans hle),
        hgrows.flush result⟩
  | accept t proposer master result =>
    rw [StoredAcceptor.step] at hs
    split at hs
    · obtain rfl := Option.some.inj hs
      exact ⟨h, .refl _⟩
    · rename_i new hnew
      obtain rfl := Option.some.inj hs
      have hgrows := grows_of_accept h.accepted_le hnew
      obtain ⟨hterm, -, rfl⟩ := Acceptor.tryAccept_value hnew
      exact ⟨h.flush (hok _ hnew) (fun hfit => { h.writable with
        master := hfit, accepted_lt := t.toNat_lt }) hterm.ge, hgrows.flush result⟩
  | restart readFails removeFails =>
    obtain rfl : readFails = false := hok
    obtain rfl : s = s' := Option.some.inj ((h.loadOrDefault removeFails).symm.trans hs)
    exact ⟨h, .refl _⟩

end StoredAcceptor

/-! ### Runs -/

open StoredAcceptor

/-- **In every run whose events meet `KeepsState`** the state is that of the last success, after
each restart too, the promise never goes down and a term's master is not replaced. Loading never
panics, whatever is in the file. -/
theorem acceptor_state_survives (crc : Bytes → UInt32) (es fs : List AcceptorEvent)
    {s s' : StoredAcceptor} (hok : Meets (step crc) KeepsState new (es ++ fs))
    (hs : run (step crc) new es = some s) (hs' : run (step crc) s fs = some s') :
    s'.memory = s'.granted ∧ Grows s.memory s'.memory ∧
      ∀ bytes, NoPanic (loadBytes crc bytes) := by
  obtain ⟨hes, hfs⟩ := meets_append.mp hok
  have hinv : Inv crc s :=
    run_invariant (fun _ _ _ h hok hstep => (h.step hok hstep).1) (inv_new crc) hes hs
  have hinv' : Inv crc s' :=
    run_invariant (fun _ _ _ h hok hstep => (h.step hok hstep).1) hinv (hfs s hs) hs'
  refine ⟨hinv'.memory_eq, ?_, loadBytes_no_panic crc⟩
  exact run_related (R := fun a b : StoredAcceptor => Grows a.memory b.memory) (fun _ => .refl _)
    Grows.trans (fun _ _ _ h hok hstep => (h.step hok hstep).1)
    (fun _ _ _ h hok hstep => (h.step hok hstep).2) hinv (hfs s hs) hs'

/-- The acceptor after it has promised term 5 to a proposer. -/
def promisedTo (crc : Bytes → UInt32) (proposer : String) : StoredAcceptor :=
  let a : Acceptor String := ⟨5, some proposer, 0, none⟩
  ⟨a, some (encode crc a), a⟩

theorem step_promise (crc : Bytes → UInt32) (proposer : String) :
    step crc new (.promise 5 proposer .done) = some (promisedTo crc proposer) := rfl

/-- A promise, a restart and an acceptance. -/
theorem acceptor_state_survives_restart :
    ∃ s s', run (step fun _ => 0) new [.promise 5 "a" .done, .restart false false] = some s ∧
      run (step fun _ => 0) s [.accept 5 "a" "b" .done] = some s' ∧ s'.memory = s'.granted ∧
      s'.memory.acceptedMaster = some "b" ∧ Grows s.memory s'.memory := by
  have hone := step_promise (fun _ => 0) "a"
  have hfits : Fits (some "a") ∧ Fits (some "b") := by
    constructor <;> rintro n ⟨⟩ <;> decide
  have hok : new.KeepsState (.promise 5 "a" .done) := fun _ _ => hfits.1
  have hrestart := (((inv_new fun _ => 0).step hok hone).1).loadOrDefault false
  have hes : run (step fun _ => 0) new [.promise 5 "a" .done, .restart false false] =
      some (promisedTo (fun _ => 0) "a") :=
    run_cons_eq_some.mpr ⟨_, hone, run_cons_eq_some.mpr ⟨_, hrestart, rfl⟩⟩
  have hfs : run (step fun _ => 0) (promisedTo (fun _ => 0) "a") [.accept 5 "a" "b" .done] =
      some ((promisedTo (fun _ => 0) "a").flush (fun _ => 0) ⟨5, some "a", 5, some "b"⟩
        .done) := rfl
  have hmeets : Meets (step fun _ => 0) KeepsState new
      ([.promise 5 "a" .done, .restart false false] ++ [.accept 5 "a" "b" .done]) := by
    refine ⟨hok, fun s hs => ⟨rfl, fun s' hs' => ⟨fun _ _ => hfits.2, fun _ _ => trivial⟩⟩⟩
  obtain ⟨hgranted, hgrows, -⟩ := acceptor_state_survives (fun _ => 0) _ _ hmeets hes hfs
  refine ⟨_, _, hes, hfs, hgranted, ?_, hgrows⟩
  rfl

/-- An empty name is promised and forgotten: after the restart the acceptor has promised less
than it had granted. -/
theorem empty_proposer_forgotten :
    ∃ s s', run (step fun _ => 0) new [.promise 5 "" .done] = some s ∧
      run (step fun _ => 0) s [.restart false false] = some s' ∧ s'.memory ≠ s'.granted ∧
      proposal s'.memory < proposal s.memory := by
  have hload : loadBytes (fun _ => 0) (encode (fun _ => 0) ⟨5, some "", 0, none⟩) =
      .ok ⟨5, none, 0, none⟩ := loadBytes_encode (fun _ => 0) _ (by decide) (by decide)
  have hrestart : step (fun _ => 0) (promisedTo (fun _ => 0) "") (.restart false false) =
      some { promisedTo (fun _ => 0) "" with memory := ⟨5, none, 0, none⟩ } := by
    simp only [step, loadOrDefault, loadFromDisk, promisedTo, hload]
    rfl
  refine ⟨_, _, run_cons_eq_some.mpr ⟨_, step_promise (fun _ => 0) "", rfl⟩,
    run_cons_eq_some.mpr ⟨_, hrestart, rfl⟩, ?_, ?_⟩
  · intro h
    cases congrArg Acceptor.promisedProposer h
  · exact Prod.Lex.toLex_lt_toLex.mpr (.inr ⟨rfl, WithBot.bot_lt_coe ""⟩)

end Noxu
