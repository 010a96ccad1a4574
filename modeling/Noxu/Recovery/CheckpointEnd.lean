import Noxu.Library.Bytes
import Noxu.Tree.Key

/-!
# The Checkpoint End Entry

The log entry that ends a checkpoint: identifiers, positions, the name of who asked for it, the
time, and behind all that an optional list of the roots of the databases. The length of the name
has two bytes, a time before the epoch is written as the epoch, and the reader adds whatever
seconds it finds to the epoch, which **panics** when the sum is out of range.

## Main results

* `takes_readHead`: the entry up to its end time is read back from any bytes that start with it;
* `readPerDbRoots_eq_nil`: the bytes behind it that count as no roots;
* `exists_readHead_iff`: how far it goes, in positions of the bytes;
* `checkpoint_end_exact`: when an entry is read back, what becomes of a damaged list of roots, and
  on which bytes the reader panics.
-/

namespace Noxu

open Library

/-! ### Time -/

/-- A time as seconds and nanoseconds since the epoch. -/
@[ext] structure SystemTime where
  secs : ℤ
  nanos : ℕ
  nanos_lt : nanos < 10 ^ 9
  le_secs : -2 ^ 63 ≤ secs
  secs_lt : secs < 2 ^ 63

/-- Seconds and nanoseconds since the epoch, zero for a time before it. -/
def SystemTime.durationSinceEpoch (t : SystemTime) : ℕ × ℕ :=
  if 0 ≤ t.secs then (t.secs.toNat, t.nanos) else (0, 0)

/-- A duration; the nanoseconds carry over to the seconds, which have 64 bits. -/
def durationNew (secs nanos : ℕ) : Option (ℕ × ℕ) :=
  if secs + nanos / 10 ^ 9 < 2 ^ 64 then some (secs + nanos / 10 ^ 9, nanos % 10 ^ 9) else none

/-- The epoch plus a duration, if there is such a time. -/
def SystemTime.epochPlus (secs nanos : ℕ) : Option SystemTime :=
  if h : secs < 2 ^ 63 ∧ nanos < 10 ^ 9 then
    some ⟨secs, nanos, h.2, by omega, by exact_mod_cast h.1⟩
  else none

/-- The time that the reader makes of two numbers. -/
def SystemTime.read (secs nanos : ℕ) : Option SystemTime :=
  (durationNew secs nanos).bind fun d => epochPlus d.1 d.2

/-- The sum is a time when its seconds are below `2 ^ 63`. -/
theorem SystemTime.read_eq_none {secs nanos : ℕ} :
    SystemTime.read secs nanos = none ↔ 2 ^ 63 ≤ secs + nanos / 10 ^ 9 := by
  unfold SystemTime.read durationNew epochPlus
  split
  · simp
    omega
  · simp
    omega

/-- What is read is not before the epoch. -/
theorem SystemTime.secs_of_read {secs nanos : ℕ} {t : SystemTime}
    (h : SystemTime.read secs nanos = some t) : 0 ≤ t.secs := by
  obtain ⟨d, -, h⟩ := Option.bind_eq_some_iff.mp h
  unfold epochPlus at h
  split at h
  · obtain rfl := Option.some.inj h
    exact Int.natCast_nonneg _
  · cases h

/-- A time since the epoch is read back. -/
theorem SystemTime.read_durationSinceEpoch {t : SystemTime} (h : 0 ≤ t.secs) :
    SystemTime.read t.durationSinceEpoch.1 t.durationSinceEpoch.2 = some t := by
  have hsecs := t.secs_lt
  have hdiv : t.nanos / 10 ^ 9 = 0 := Nat.div_eq_of_lt t.nanos_lt
  have hmod : t.nanos % 10 ^ 9 = t.nanos := Nat.mod_eq_of_lt t.nanos_lt
  have hlt : t.secs.toNat < 2 ^ 63 := by omega
  rw [durationSinceEpoch, if_pos h, SystemTime.read, durationNew, hdiv, hmod, Nat.add_zero,
    if_pos (by omega), Option.bind_some, epochPlus, dif_pos ⟨hlt, t.nanos_lt⟩]
  exact congrArg some (SystemTime.ext (Int.toNat_of_nonneg h) rfl)

/-! ### The entry -/

/-- The entry. -/
structure CheckpointEnd where
  id : UInt64
  invoker : String
  endTime : SystemTime
  checkpointStartLsn : Lsn
  rootLsn : Option Lsn
  firstActiveLsn : Lsn
  lastLocalNodeId : UInt64
  lastReplicatedNodeId : Int64
  lastLocalDbId : UInt64
  lastReplicatedDbId : Int64
  lastLocalTxnId : UInt64
  lastReplicatedTxnId : Int64
  cleanedFilesToDelete : Bool
  perDbRoots : List (UInt64 × Lsn)

/-- What a list of roots begins with. -/
def perDbRootsMarker : UInt8 := 0x01

/-- A position in the log. -/
def lsnBytes (lsn : Lsn) : Bytes := beBytes 8 lsn.val

namespace CheckpointEnd

/-- Which parts are there. -/
def flags (x : CheckpointEnd) : UInt8 :=
  (if x.rootLsn.isSome then 0x01 else 0) ||| (if x.cleanedFilesToDelete then 0x02 else 0)

/-- `log_size`. -/
def logSize (x : CheckpointEnd) : ℕ :=
  8 + 2 + (utf8 x.invoker).length + 8 + 1 + (if x.rootLsn.isSome then 8 else 0) + 8 + 8 * 6 +
    (8 + 4) + if x.perDbRoots = [] then 0 else 1 + 4 + x.perDbRoots.length * 16

/-- The name, behind the low two bytes of its length. -/
def invokerBytes (x : CheckpointEnd) : Bytes :=
  beBytes 2 (utf8 x.invoker).length ++ utf8 x.invoker

/-- The entry up to the time. -/
def headBytes (x : CheckpointEnd) : Bytes :=
  beBytes 8 x.id.toNat ++ x.invokerBytes ++ lsnBytes x.checkpointStartLsn ++ [x.flags] ++
    (x.rootLsn.map lsnBytes).getD [] ++ lsnBytes x.firstActiveLsn ++
    beBytes 8 x.lastLocalNodeId.toNat ++ beBytes 8 x.lastReplicatedNodeId.toUInt64.toNat ++
    beBytes 8 x.lastLocalDbId.toNat ++ beBytes 8 x.lastReplicatedDbId.toUInt64.toNat ++
    beBytes 8 x.lastLocalTxnId.toNat ++ beBytes 8 x.lastReplicatedTxnId.toUInt64.toNat

/-- The time. -/
def timeBytes (x : CheckpointEnd) : Bytes :=
  beBytes 8 x.endTime.durationSinceEpoch.1 ++ beBytes 4 x.endTime.durationSinceEpoch.2

/-- The root of a database. -/
def rootBytes (root : UInt64 × Lsn) : Bytes := beBytes 8 root.1.toNat ++ lsnBytes root.2

/-- The roots, behind a marker and their number; nothing if there are none. -/
def trailer (x : CheckpointEnd) : Bytes :=
  if x.perDbRoots = [] then []
  else perDbRootsMarker :: (beBytes 4 x.perDbRoots.length ++ x.perDbRoots.flatMap rootBytes)

/-- `write_to_log`. -/
def writeToLog (x : CheckpointEnd) : Bytes := x.headBytes ++ x.timeBytes ++ x.trailer

end CheckpointEnd

/-! ### The reader -/

/-- How reading an entry can fail. -/
inductive ReadFailure
  | io
  | invalidCheckpoint (message : String)
  | panicked
  deriving DecidableEq

/-- A cursor over the bytes that are left. -/
abbrev EntryReader := StateT Bytes (Except ReadFailure)

namespace EntryReader

/-- Give up. -/
def fail {α : Type} (e : ReadFailure) : EntryReader α := fun _ => .error e

/-- A big-endian number; an error at the end of the bytes. -/
def readBe (w : ℕ) : EntryReader ℕ := fun bs =>
  if bs.length < w then .error .io else .ok (beNat (bs.take w), bs.drop w)

/-- `buf[pos..pos + n]`, which panics when it goes past the end. -/
def slice (n : ℕ) : EntryReader Bytes := fun bs =>
  if bs.length < n then .error .panicked else .ok (bs.take n, bs.drop n)

/-- An unsigned number. -/
def readU64 : EntryReader UInt64 := UInt64.ofNat <$> readBe 8

/-- A signed number. -/
def readI64 : EntryReader Int64 := (fun n => (UInt64.ofNat n).toInt64) <$> readBe 8

/-- A position. -/
def readLsn : EntryReader Lsn := Fin.ofNat _ <$> readBe 8

/-- A byte. -/
def readU8 : EntryReader UInt8 := UInt8.ofNat <$> readBe 1

/-- The name, checked against what is left of the bytes. -/
def readInvoker : EntryReader String := do
  let len ← readBe 2
  let left ← get
  if left.length < len then
    fail (.invalidCheckpoint "invoker string length exceeds buffer")
  else do
    let name ← slice len
    match ofUtf8 name with
    | some invoker => pure invoker
    | none => fail (.invalidCheckpoint "invalid UTF-8")

/-- The position of the root, if the flags say that it is there. -/
def readRootLsn (hasRoot : Bool) : EntryReader (Option Lsn) :=
  if hasRoot then some <$> readLsn else pure none

/-- The entry up to the time, which is left open. -/
def readHead : EntryReader (SystemTime → CheckpointEnd) := do
  let id ← readU64
  let invoker ← readInvoker
  let checkpointStartLsn ← readLsn
  let flags ← readU8
  let rootLsn ← readRootLsn (flags &&& 0x01 ≠ 0)
  let firstActiveLsn ← readLsn
  let lastLocalNodeId ← readU64
  let lastReplicatedNodeId ← readI64
  let lastLocalDbId ← readU64
  let lastReplicatedDbId ← readI64
  let lastLocalTxnId ← readU64
  let lastReplicatedTxnId ← readI64
  pure fun endTime =>
    { id, invoker, endTime, checkpointStartLsn, rootLsn, firstActiveLsn, lastLocalNodeId,
      lastReplicatedNodeId, lastLocalDbId, lastReplicatedDbId, lastLocalTxnId,
      lastReplicatedTxnId, cleanedFilesToDelete := flags &&& 0x02 ≠ 0, perDbRoots := [] }

/-- The time; **out of range it panics**. -/
def readEndTime : EntryReader SystemTime := do
  let secs ← readBe 8
  let nanos ← readBe 4
  match SystemTime.read secs nanos with
  | some t => pure t
  | none => fail .panicked

end EntryReader

/-- The pairs of the list; it ends where the bytes do. -/
def readPairs : ℕ → Bytes → List (UInt64 × Lsn)
  | 0, _ => []
  | n + 1, bs =>
    if bs.length < 8 then []
    else if (bs.drop 8).length < 8 then []
    else
      (UInt64.ofNat (beNat (bs.take 8)), Fin.ofNat _ (beNat ((bs.drop 8).take 8))) ::
        readPairs n (bs.drop 16)

/-- The list of roots, empty when the bytes are not a list that is whole. -/
def readPerDbRoots (bs : Bytes) : List (UInt64 × Lsn) :=
  match bs with
  | [] => []
  | marker :: bs =>
    if marker ≠ perDbRootsMarker then []
    else if bs.length < 4 then []
    else if (bs.drop 4).length / 16 < beNat (bs.take 4) then []
    else readPairs (beNat (bs.take 4)) (bs.drop 4)

open EntryReader

/-- `read_from_log`. -/
def readFromLog (buf : Bytes) : Except ReadFailure CheckpointEnd := do
  let (head, rest) ← readHead buf
  let (endTime, rest) ← readEndTime rest
  pure { head endTime with perDbRoots := readPerDbRoots rest }

/-! ### Three ways to reason about a reader -/

namespace EntryReader

variable {α β : Type} {p : EntryReader α} {f : α → EntryReader β} {P : β → Prop} {Q : α → Prop}
variable {bs cs : Bytes} {a : α} {b : β}

/-- The second reader runs on what the first one leaves. -/
theorem bind_ok {rest : Bytes} (h : p bs = .ok (a, rest)) : (p >>= f) bs = f a rest := by
  have hrun : (p >>= f) bs = (p bs).bind fun r => f r.1 r.2 := rfl
  rw [hrun, h]
  rfl

/-- The first failure ends it. -/
theorem bind_error {e : ReadFailure} (h : p bs = .error e) : (p >>= f) bs = .error e := by
  have hrun : (p >>= f) bs = (p bs).bind fun r => f r.1 r.2 := rfl
  rw [hrun, h]
  rfl

/-- The reader takes exactly these bytes off the front and returns this value. -/
def Takes (p : EntryReader α) (bs : Bytes) (a : α) : Prop :=
  ∀ rest, p (bs ++ rest) = .ok (a, rest)

/-- Two fields in a row. -/
theorem Takes.bind (hp : Takes p bs a) (hf : Takes (f a) cs b) : Takes (p >>= f) (bs ++ cs) b := by
  intro rest
  rw [List.append_assoc, bind_ok (hp _), hf]

/-- No bytes at all. -/
theorem takes_pure (a : α) : Takes (pure a) [] a := fun _ => rfl

/-- A conversion. -/
theorem Takes.map (g : α → β) (hp : Takes p bs a) : Takes (g <$> p) bs (g a) := by
  intro rest
  have hrun : (g <$> p) (bs ++ rest) = (p >>= fun a => pure (g a)) (bs ++ rest) := rfl
  rw [hrun, bind_ok (hp rest)]
  rfl

/-- A number that fits its width. -/
theorem takes_readBe {w n : ℕ} (h : n < 256 ^ w) : Takes (readBe w) (beBytes w n) n := by
  intro rest
  have hlen : (beBytes w n).length = w := length_beBytes w n
  rw [readBe, if_neg (by simp), List.take_left' hlen, List.drop_left' hlen, beNat_beBytes_of_lt h]

/-- What the reader returns has the property. -/
def Ensures (p : EntryReader α) (Q : α → Prop) : Prop :=
  ∀ bs a rest, p bs = .ok (a, rest) → Q a

/-- What the first reader ensures may be used for the second. -/
theorem Ensures.bind (hp : Ensures p Q) (hf : ∀ a, Q a → Ensures (f a) P) :
    Ensures (p >>= f) P := by
  intro bs b rest h
  cases hr : p bs with
  | error e =>
    rw [bind_error hr] at h
    cases h
  | ok r =>
    rw [bind_ok hr] at h
    exact hf r.1 (hp _ _ _ hr) _ _ _ h

/-- The first reader plays no part. -/
theorem Ensures.next (hf : ∀ a, Ensures (f a) P) : Ensures (p >>= f) P :=
  Ensures.bind (Q := fun _ => True) (fun _ _ _ _ => trivial) fun a _ => hf a

/-- A value that has the property. -/
theorem ensures_pure {a : α} (h : Q a) : Ensures (pure a) Q := by
  intro bs a' rest hr
  obtain ⟨rfl, -⟩ := Prod.mk.inj (Except.ok.inj hr)
  exact h

/-- The reader does not panic. -/
def NoPanic (p : EntryReader α) : Prop := ∀ bs, p bs ≠ .error .panicked

/-- Two readers that do not panic. -/
theorem NoPanic.bind (hp : NoPanic p) (hf : ∀ a, NoPanic (f a)) : NoPanic (p >>= f) := by
  intro bs
  cases hr : p bs with
  | error e =>
    rw [bind_error hr]
    exact fun h => hp bs (hr.trans (congrArg _ (Except.error.inj h)))
  | ok r =>
    rw [bind_ok hr]
    exact hf r.1 r.2

/-- A value does not panic. -/
theorem noPanic_pure (a : α) : NoPanic (pure a) := fun _ h => by cases h

/-- Nor does a conversion. -/
theorem NoPanic.map (g : α → β) (hp : NoPanic p) : NoPanic (g <$> p) :=
  NoPanic.bind hp fun a => noPanic_pure (g a)

/-- Nor a number. -/
theorem noPanic_readBe (w : ℕ) : NoPanic (readBe w) := by
  intro bs
  rw [readBe]
  split
  · exact fun h => by cases h
  · exact fun h => by cases h

/-! ### The fields -/

/-- Unsigned numbers are read back. -/
theorem takes_readU64 (n : UInt64) : Takes readU64 (beBytes 8 n.toNat) n := by
  have h := (takes_readBe (w := 8) n.toNat_lt).map UInt64.ofNat
  rwa [UInt64.ofNat_toNat] at h

/-- So are signed ones. -/
theorem takes_readI64 (n : Int64) : Takes readI64 (beBytes 8 n.toUInt64.toNat) n := by
  have h := (takes_readBe (w := 8) n.toUInt64.toNat_lt).map fun n => (UInt64.ofNat n).toInt64
  rwa [UInt64.ofNat_toNat, Int64.toInt64_toUInt64] at h

/-- So are positions. -/
theorem takes_readLsn (lsn : Lsn) : Takes readLsn (lsnBytes lsn) lsn := by
  have h := (takes_readBe (w := 8) lsn.isLt).map fun n => (Fin.ofNat _ n : Lsn)
  rwa [Fin.ofNat_val_eq_self] at h

/-- So is a byte. -/
theorem takes_readU8 (b : UInt8) : Takes readU8 [b] b := by
  have h := (takes_readBe (w := 1) b.toNat_lt).map UInt8.ofNat
  rw [UInt8.ofNat_toNat] at h
  have hbytes : beBytes 1 b.toNat = [b] := by simp [beBytes, leBytes]
  rwa [hbytes] at h

/-- A name of fewer than 65536 bytes is read back. -/
theorem takes_readInvoker {x : CheckpointEnd} (h : (utf8 x.invoker).length < 256 ^ 2) :
    Takes readInvoker x.invokerBytes x.invoker := by
  refine (takes_readBe h).bind fun rest => ?_
  have hget : (get : EntryReader Bytes) (utf8 x.invoker ++ rest) =
      .ok (utf8 x.invoker ++ rest, utf8 x.invoker ++ rest) := rfl
  have hslice : slice (utf8 x.invoker).length (utf8 x.invoker ++ rest) =
      .ok (utf8 x.invoker, rest) := by
    rw [slice, if_neg (by simp), List.take_left, List.drop_left]
  rw [bind_ok hget, if_neg (by simp), bind_ok hslice, ofUtf8_utf8]
  rfl

/-- The root is read back, there or not. -/
theorem takes_readRootLsn (root : Option Lsn) :
    Takes (readRootLsn root.isSome) ((root.map lsnBytes).getD []) root := by
  cases root with
  | none => exact takes_pure none
  | some lsn => exact (takes_readLsn lsn).map some

/-- The first flag says whether there is a root. -/
theorem flags_root (x : CheckpointEnd) : (x.flags &&& 0x01 ≠ 0 : Bool) = x.rootLsn.isSome := by
  unfold CheckpointEnd.flags
  cases x.rootLsn.isSome <;> cases x.cleanedFilesToDelete <;> decide

/-- The second says whether files are to be deleted. -/
theorem flags_cleaned (x : CheckpointEnd) :
    (x.flags &&& 0x02 ≠ 0 : Bool) = x.cleanedFilesToDelete := by
  unfold CheckpointEnd.flags
  cases x.rootLsn.isSome <;> cases x.cleanedFilesToDelete <;> decide

/-- **The entry up to the time is read back.** -/
theorem takes_readHead {x : CheckpointEnd} (h : (utf8 x.invoker).length < 256 ^ 2) :
    Takes readHead x.headBytes fun endTime => { x with endTime, perDbRoots := [] } := by
  have hroot := takes_readRootLsn x.rootLsn
  rw [← flags_root] at hroot
  have hlast : Takes (pure fun endTime => { x with
      endTime, perDbRoots := [], cleanedFilesToDelete := x.flags &&& 0x02 ≠ 0 } :
      EntryReader (SystemTime → CheckpointEnd)) []
      fun endTime => { x with endTime, perDbRoots := [] } := by
    rw [flags_cleaned]
    exact takes_pure _
  have hbytes : x.headBytes = beBytes 8 x.id.toNat ++ (x.invokerBytes ++
      (lsnBytes x.checkpointStartLsn ++ ([x.flags] ++ ((x.rootLsn.map lsnBytes).getD [] ++
      (lsnBytes x.firstActiveLsn ++ (beBytes 8 x.lastLocalNodeId.toNat ++
      (beBytes 8 x.lastReplicatedNodeId.toUInt64.toNat ++ (beBytes 8 x.lastLocalDbId.toNat ++
      (beBytes 8 x.lastReplicatedDbId.toUInt64.toNat ++ (beBytes 8 x.lastLocalTxnId.toNat ++
      (beBytes 8 x.lastReplicatedTxnId.toUInt64.toNat ++ []))))))))))) := by
    simp only [CheckpointEnd.headBytes, List.append_assoc, List.append_nil]
  rw [hbytes]
  exact (takes_readU64 x.id).bind ((takes_readInvoker h).bind
    ((takes_readLsn x.checkpointStartLsn).bind ((takes_readU8 x.flags).bind
    (hroot.bind ((takes_readLsn x.firstActiveLsn).bind
    ((takes_readU64 x.lastLocalNodeId).bind ((takes_readI64 x.lastReplicatedNodeId).bind
    ((takes_readU64 x.lastLocalDbId).bind ((takes_readI64 x.lastReplicatedDbId).bind
    ((takes_readU64 x.lastLocalTxnId).bind ((takes_readI64 x.lastReplicatedTxnId).bind
      hlast)))))))))))

/-- A time since the epoch is read back. -/
theorem takes_readEndTime {x : CheckpointEnd} (h : 0 ≤ x.endTime.secs) :
    Takes readEndTime x.timeBytes x.endTime := by
  have hread := SystemTime.read_durationSinceEpoch h
  have hsecs : x.endTime.durationSinceEpoch.1 < 256 ^ 8 := by
    have := x.endTime.secs_lt
    rw [SystemTime.durationSinceEpoch, if_pos h]
    omega
  have hnanos : x.endTime.durationSinceEpoch.2 < 256 ^ 4 := by
    have := x.endTime.nanos_lt
    rw [SystemTime.durationSinceEpoch, if_pos h]
    omega
  refine (takes_readBe hsecs).bind fun rest => ?_
  rw [bind_ok (takes_readBe hnanos rest), hread]
  rfl

/-! ### What is read -/

/-- A number is below its width. -/
theorem ensures_readBe (w : ℕ) : Ensures (readBe w) (· < 256 ^ w) := by
  intro bs n rest h
  rw [readBe] at h
  split at h
  · cases h
  · rename_i hlen
    obtain ⟨rfl, -⟩ := Prod.mk.inj (Except.ok.inj h)
    have := beNat_lt (bs.take w)
    rwa [List.length_take, min_eq_left (not_lt.mp hlen)] at this

/-- A name has a 16-bit length. -/
theorem ensures_readInvoker : Ensures readInvoker fun name => (utf8 name).length < 256 ^ 2 := by
  refine (ensures_readBe 2).bind fun len hlen => .next fun left => ?_
  split
  · exact fun _ _ _ => nofun
  · have hslice : Ensures (slice len) fun bs => bs.length = len := by
      intro bs name rest h
      rw [slice] at h
      split at h
      · cases h
      · rename_i hlong
        obtain ⟨rfl, -⟩ := Prod.mk.inj (Except.ok.inj h)
        rw [List.length_take, min_eq_left (not_lt.mp hlong)]
    refine hslice.bind fun name hname => ?_
    split
    · rename_i invoker hof
      exact ensures_pure (by rwa [utf8_of_ofUtf8 hof, hname])
    · exact fun _ _ _ => nofun

/-- The name is short, and the time is still open. -/
theorem ensures_readHead : Ensures readHead fun head =>
    ∀ t, (utf8 (head t).invoker).length < 256 ^ 2 ∧ (head t).endTime = t := by
  refine .next fun id => ensures_readInvoker.bind fun invoker hinvoker => .next fun _ => .next
    fun _ => .next fun _ => .next fun _ => .next fun _ => .next fun _ => .next fun _ => .next
    fun _ => .next fun _ => .next fun _ => ensures_pure fun _ => ⟨hinvoker, rfl⟩

/-- The time is not before the epoch. -/
theorem ensures_readEndTime : Ensures readEndTime fun t => 0 ≤ t.secs := by
  refine .next fun secs => .next fun nanos => ?_
  split
  · rename_i t ht
    exact ensures_pure (SystemTime.secs_of_read ht)
  · exact fun _ _ _ => nofun

/-! ### Panics -/

/-- No name panics. -/
theorem noPanic_readInvoker : NoPanic readInvoker := by
  refine (noPanic_readBe 2).bind fun len bs => ?_
  have hget : (get : EntryReader Bytes) bs = .ok (bs, bs) := rfl
  rw [bind_ok hget]
  split
  · exact nofun
  · rename_i hlong
    rw [bind_ok (if_neg hlong)]
    cases ofUtf8 (bs.take len) <;> exact nofun

/-- **Nothing before the time panics.** -/
theorem noPanic_readHead : NoPanic readHead := by
  have hu64 : NoPanic readU64 := (noPanic_readBe 8).map _
  have hi64 : NoPanic readI64 := (noPanic_readBe 8).map _
  have hlsn : NoPanic readLsn := (noPanic_readBe 8).map _
  have hroot : ∀ b, NoPanic (readRootLsn b) := by
    rintro (_ | _)
    · exact noPanic_pure none
    · exact hlsn.map some
  exact hu64.bind fun _ => noPanic_readInvoker.bind fun _ => hlsn.bind fun _ =>
    ((noPanic_readBe 1).map _).bind fun _ => (hroot _).bind fun _ => hlsn.bind fun _ =>
    hu64.bind fun _ => hi64.bind fun _ => hu64.bind fun _ => hi64.bind fun _ => hu64.bind
    fun _ => hi64.bind fun _ => noPanic_pure _

/-- The time that stands at the front of these bytes is out of range. -/
def TimeOverflows (bs : Bytes) : Prop :=
  12 ≤ bs.length ∧ 2 ^ 63 ≤ beNat (bs.take 8) + beNat ((bs.drop 8).take 4) / 10 ^ 9

/-- **When reading the time panics.** -/
theorem readEndTime_panics_iff (bs : Bytes) :
    readEndTime bs = .error .panicked ↔ TimeOverflows bs := by
  unfold readEndTime TimeOverflows
  by_cases hsecs : bs.length < 8
  · rw [bind_error (if_pos hsecs)]
    simp
    omega
  · rw [bind_ok (if_neg hsecs)]
    have hdrop : (bs.drop 8).length = bs.length - 8 := List.length_drop
    by_cases hnanos : (bs.drop 8).length < 4
    · rw [bind_error (if_pos hnanos)]
      simp
      omega
    · rw [bind_ok (if_neg hnanos), ← SystemTime.read_eq_none, and_iff_right (by omega)]
      cases SystemTime.read (beNat (bs.take 8)) (beNat ((bs.drop 8).take 4)) with
      | none => exact ⟨fun _ => rfl, fun _ => rfl⟩
      | some t => exact ⟨nofun, nofun⟩

/-! ### Where the time stands -/

/-- Two readers one behind the other: where the first one leaves off, and when the second one
succeeds there. -/
theorem exists_bind_iff {C D : Prop} {mid rest : Bytes}
    (hp : ∀ cs, (∃ a, p bs = .ok (a, cs)) ↔ C ∧ cs = mid)
    (hf : ∀ a, p bs = .ok (a, mid) → ((∃ b, f a mid = .ok (b, rest)) ↔ D)) :
    (∃ b, (p >>= f) bs = .ok (b, rest)) ↔ C ∧ D := by
  cases hr : p bs with
  | error e =>
    rw [bind_error hr]
    refine ⟨fun ⟨_, h⟩ => (by cases h), fun h => ?_⟩
    obtain ⟨a, ha⟩ := (hp mid).mpr ⟨h.1, rfl⟩
    cases hr.symm.trans ha
  | ok r =>
    obtain ⟨hC, hmid⟩ := (hp r.2).mp ⟨r.1, hr⟩
    rw [bind_ok hr, hmid, and_iff_right hC]
    exact hf r.1 (hmid ▸ hr)

/-- The reader takes so many bytes, whatever they are, and fails only at the end of the bytes. -/
def Advances (p : EntryReader α) (n : ℕ) : Prop :=
  ∀ bs rest, (∃ a, p bs = .ok (a, rest)) ↔ n ≤ bs.length ∧ rest = bs.drop n

/-- Two readers take the sum of their bytes. -/
theorem Advances.bind {m n : ℕ} (hp : Advances p m) (hf : ∀ a, Advances (f a) n) :
    Advances (p >>= f) (m + n) := by
  intro bs rest
  rw [exists_bind_iff (hp bs) fun a _ => hf a _ _, List.length_drop, List.drop_drop, ← and_assoc]
  exact and_congr_left fun _ => by omega

/-- A value takes none. -/
theorem advances_pure (a : α) : Advances (pure a) 0 := by
  intro bs rest
  constructor
  · rintro ⟨b, h⟩
    exact ⟨Nat.zero_le _, (Prod.mk.inj (Except.ok.inj h)).2.symm⟩
  · rintro ⟨-, rfl⟩
    exact ⟨a, rfl⟩

/-- A conversion takes no more. -/
theorem Advances.map {n : ℕ} (g : α → β) (hp : Advances p n) : Advances (g <$> p) n :=
  Advances.bind hp fun a => advances_pure (g a)

/-- A number takes its width. -/
theorem advances_readBe (w : ℕ) : Advances (readBe w) w := by
  intro bs rest
  unfold readBe
  split
  · exact ⟨fun ⟨_, h⟩ => (by cases h), fun h => absurd h.1 (by omega)⟩
  · constructor
    · rintro ⟨n, h⟩
      exact ⟨by omega, (Prod.mk.inj (Except.ok.inj h)).2.symm⟩
    · rintro ⟨-, rfl⟩
      exact ⟨_, rfl⟩

/-- The number that `w` bytes from a position on stand for. -/
def numberAt (buf : Bytes) (pos w : ℕ) : ℕ := beNat ((buf.drop pos).take w)

/-- Positions behind a cut. -/
theorem numberAt_drop (buf : Bytes) (k pos w : ℕ) :
    numberAt (buf.drop k) pos w = numberAt buf (k + pos) w := by
  rw [numberAt, List.drop_drop, numberAt]

/-- The name, behind the identifier and its own length. -/
def nameAt (buf : Bytes) : Bytes := (buf.drop 10).take (numberAt buf 8 2)

/-- The bytes of the root's position, which is there if the flags say so. -/
def rootSize (buf : Bytes) : ℕ :=
  if UInt8.ofNat (numberAt buf (numberAt buf 8 2 + 18) 1) &&& 0x01 ≠ 0 then 8 else 0

/-- Where the time starts. -/
def timeAt (buf : Bytes) : ℕ := numberAt buf 8 2 + 75 + rootSize buf

/-- **When a name is read**, and where it ends. -/
theorem exists_readInvoker_iff {rest : Bytes} :
    (∃ name, readInvoker bs = .ok (name, rest)) ↔
      (numberAt bs 0 2 + 2 ≤ bs.length ∧
        (ofUtf8 ((bs.drop 2).take (numberAt bs 0 2))).isSome = true) ∧
        rest = bs.drop (numberAt bs 0 2 + 2) := by
  unfold readInvoker numberAt
  by_cases hlen : bs.length < 2
  · rw [bind_error (if_pos hlen)]
    exact ⟨fun ⟨_, h⟩ => (by cases h), fun h => absurd h.1.1 (by omega)⟩
  · rw [bind_ok (if_neg hlen), List.drop_zero]
    generalize beNat (bs.take 2) = len
    have hget : (get : EntryReader Bytes) (bs.drop 2) = .ok (bs.drop 2, bs.drop 2) := rfl
    have hdrop : (bs.drop 2).length = bs.length - 2 := List.length_drop
    rw [bind_ok hget]
    split
    · exact ⟨fun ⟨_, h⟩ => (by cases h), fun h => absurd h.1.1 (by omega)⟩
    · next hlong =>
      rw [bind_ok (if_neg hlong), and_iff_right (by omega : len + 2 ≤ bs.length),
        Nat.add_comm len, ← List.drop_drop]
      cases ofUtf8 ((bs.drop 2).take len) with
      | none => exact ⟨fun ⟨_, h⟩ => (by cases h), fun h => (by cases h.1)⟩
      | some name =>
        refine ⟨fun ⟨_, h⟩ => ⟨rfl, (Prod.mk.inj (Except.ok.inj h)).2.symm⟩, ?_⟩
        rintro ⟨-, rfl⟩
        exact ⟨name, rfl⟩

/-- The byte that is read. -/
theorem readU8_eq {flags : UInt8} {rest : Bytes} (h : readU8 bs = .ok (flags, rest)) :
    flags = UInt8.ofNat (numberAt bs 0 1) := by
  have hrun : readU8 bs = (readBe 1 >>= fun n => pure (UInt8.ofNat n)) bs := rfl
  rw [hrun] at h
  by_cases hlen : bs.length < 1
  · rw [bind_error (if_pos hlen)] at h
    cases h
  · rw [bind_ok (if_neg hlen)] at h
    exact (Prod.mk.inj (Except.ok.inj h)).1.symm

/-- **The entry up to the time is read exactly if** the bytes go that far and the name is a text. -/
theorem exists_readHead_iff {buf rest : Bytes} :
    (∃ head, readHead buf = .ok (head, rest)) ↔
      (ofUtf8 (nameAt buf)).isSome = true ∧ timeAt buf ≤ buf.length ∧
        rest = buf.drop (timeAt buf) := by
  have hlsn : Advances readLsn 8 := (advances_readBe 8).map _
  have hu64 : Advances readU64 8 := (advances_readBe 8).map _
  have hi64 : Advances readI64 8 := (advances_readBe 8).map _
  have hroot : ∀ b : Bool, Advances (readRootLsn b) (if b then 8 else 0) := by
    rintro (_ | _)
    · exact advances_pure none
    · exact hlsn.map some
  have hu8 : Advances readU8 1 := (advances_readBe 1).map _
  unfold readHead
  refine (exists_bind_iff (hu64 buf) fun id _ => exists_bind_iff (fun _ => exists_readInvoker_iff)
    fun name _ => exists_bind_iff (hlsn _) fun lsn _ => exists_bind_iff (hu8 _)
    (D := rootSize buf + 56 ≤ buf.length - (numberAt buf 8 2 + 19) ∧ rest = buf.drop (timeAt buf))
    fun flags hflags => ?_).trans ?_
  · rw [((hroot _).bind fun _ => hlsn.bind fun _ => hu64.bind fun _ => hi64.bind fun _ =>
      hu64.bind fun _ => hi64.bind fun _ => hu64.bind fun _ => hi64.bind fun _ =>
      advances_pure _) _ _, readU8_eq hflags]
    simp only [numberAt_drop, List.drop_drop, List.length_drop, decide_eq_true_eq, timeAt]
    have hflags : 8 + (numberAt buf 8 2 + 2) + 8 + 0 = numberAt buf 8 2 + 18 := by omega
    rw [hflags, ← rootSize]
    have htime : numberAt buf 8 2 + 18 + 1 +
        (rootSize buf + (8 + (8 + (8 + (8 + (8 + (8 + (8 + 0)))))))) =
          numberAt buf 8 2 + 75 + rootSize buf := by omega
    rw [htime]
  · simp only [numberAt_drop, List.drop_drop, List.length_drop, nameAt, timeAt, Nat.add_zero]
    constructor
    · rintro ⟨-, ⟨-, hname⟩, -, -, hlen, hrest⟩
      exact ⟨hname, by omega, hrest⟩
    · rintro ⟨hname, hlen, hrest⟩
      exact ⟨by omega, ⟨by omega, hname⟩, by omega, by omega, by omega, hrest⟩

end EntryReader

/-! ### The roots -/

/-- A root has 16 bytes. -/
theorem length_rootBytes (root : UInt64 × Lsn) : (CheckpointEnd.rootBytes root).length = 16 := by
  simp [CheckpointEnd.rootBytes, lsnBytes]

/-- And several have 16 each. -/
theorem length_flatMap_rootBytes (roots : List (UInt64 × Lsn)) :
    (roots.flatMap CheckpointEnd.rootBytes).length = 16 * roots.length := by
  induction roots with
  | nil => rfl
  | cons root roots ih =>
    rw [List.flatMap_cons, List.length_append, ih, length_rootBytes, List.length_cons]
    omega

/-- No more pairs than announced. -/
theorem length_readPairs_le (n : ℕ) (bs : Bytes) : (readPairs n bs).length ≤ n := by
  induction n generalizing bs with
  | zero => exact le_rfl
  | succ n ih =>
    rw [readPairs]
    split
    · exact Nat.zero_le _
    · split
      · exact Nat.zero_le _
      · exact Nat.succ_le_succ (ih _)

/-- Enough bytes give no pairs only if none are announced. -/
theorem readPairs_eq_nil {n : ℕ} {bs : Bytes} (h : 16 * n ≤ bs.length) :
    readPairs n bs = [] ↔ n = 0 := by
  cases n with
  | zero => exact ⟨fun _ => rfl, fun _ => rfl⟩
  | succ n =>
    have hdrop : (bs.drop 8).length = bs.length - 8 := List.length_drop
    rw [readPairs, if_neg (by omega), if_neg (by omega)]
    exact ⟨nofun, nofun⟩

/-- The roots are read back. -/
theorem readPairs_flatMap (roots : List (UInt64 × Lsn)) :
    readPairs roots.length (roots.flatMap CheckpointEnd.rootBytes) = roots := by
  induction roots with
  | nil => rfl
  | cons root roots ih =>
    obtain ⟨dbId, lsn⟩ := root
    have hid : (beBytes 8 dbId.toNat).length = 8 := length_beBytes _ _
    have hlsn : (lsnBytes lsn).length = 8 := length_beBytes _ _
    have hroot : (CheckpointEnd.rootBytes (dbId, lsn)).length = 16 := length_rootBytes _
    have hlen : 16 ≤ (CheckpointEnd.rootBytes (dbId, lsn) ++
        roots.flatMap CheckpointEnd.rootBytes).length := by
      rw [List.length_append, hroot]
      omega
    rw [List.length_cons, readPairs, List.flatMap_cons, if_neg (by omega),
      if_neg (by rw [List.length_drop]; omega), List.drop_left' hroot, ih,
      CheckpointEnd.rootBytes,
      List.append_assoc, List.take_left' hid, List.drop_left' hid, List.take_left' hlsn, lsnBytes,
      beNat_beBytes_of_lt (w := 8) dbId.toNat_lt, beNat_beBytes_of_lt (w := 8) lsn.isLt,
      UInt64.ofNat_toNat, Fin.ofNat_val_eq_self]

/-- These bytes are no list of roots: another marker, no number, too few bytes for the number of
roots, or no roots. -/
def NoRoots (bs : Bytes) : Prop :=
  bs.head? ≠ some perDbRootsMarker ∨ bs.length < 5 ∨
    (bs.length - 5) / 16 < beNat ((bs.drop 1).take 4) ∨ beNat ((bs.drop 1).take 4) = 0

/-- **Exactly these bytes give the empty list.** -/
theorem readPerDbRoots_eq_nil (bs : Bytes) : readPerDbRoots bs = [] ↔ NoRoots bs := by
  cases bs with
  | nil => exact ⟨fun _ => .inr (.inl (by decide)), fun _ => rfl⟩
  | cons marker bs =>
    have hdrop : (bs.drop 4).length = bs.length - 4 := List.length_drop
    simp only [readPerDbRoots, NoRoots, List.head?_cons, List.length_cons, List.drop_succ_cons,
      List.drop_zero]
    split
    · rename_i hmarker
      exact ⟨fun _ => .inl fun h => hmarker (Option.some.inj h), fun _ => rfl⟩
    · rename_i hmarker
      split
      · exact ⟨fun _ => .inr (.inl (by omega)), fun _ => rfl⟩
      · split
        · exact ⟨fun _ => .inr (.inr (.inl (by omega))), fun _ => rfl⟩
        · rw [readPairs_eq_nil (by omega)]
          refine ⟨fun hzero => .inr (.inr (.inr hzero)), ?_⟩
          rintro (hne | hlen | hfew | hzero)
          · exact absurd (congrArg some (not_not.mp hmarker)) hne
          · omega
          · omega
          · exact hzero

/-- The number of roots has 32 bits. -/
theorem length_readPerDbRoots_lt (bs : Bytes) : (readPerDbRoots bs).length < 256 ^ 4 := by
  unfold readPerDbRoots
  split
  · decide
  · rename_i bs
    split
    · decide
    · split
      · decide
      · split
        · decide
        · rename_i hlen _
          have hlt := beNat_lt (bs.take 4)
          rw [List.length_take, min_eq_left (by omega)] at hlt
          exact (length_readPairs_le _ _).trans_lt hlt

/-- A list that can be counted is read back. -/
theorem readPerDbRoots_trailer {x : CheckpointEnd} (h : x.perDbRoots.length < 256 ^ 4) :
    readPerDbRoots x.trailer = x.perDbRoots := by
  unfold CheckpointEnd.trailer
  split
  · rename_i hnil
    rw [hnil]
    rfl
  · have hcount : (beBytes 4 x.perDbRoots.length).length = 4 := length_beBytes _ _
    simp only [readPerDbRoots, ne_eq, not_true_eq_false, if_false, List.length_append, hcount,
      List.take_left' hcount, List.drop_left' hcount, beNat_beBytes_of_lt h,
      length_flatMap_rootBytes]
    rw [if_neg (by omega), if_neg (by omega), readPairs_flatMap]

/-- A list that is cut short counts as none. -/
theorem noRoots_take_trailer {x : CheckpointEnd} (h : x.perDbRoots.length < 256 ^ 4) {k : ℕ}
    (hk : k < x.trailer.length) : NoRoots (x.trailer.take k) := by
  unfold CheckpointEnd.trailer at hk ⊢
  split at hk
  · cases hk
  · rename_i hne
    rw [if_neg hne]
    have hcount : (beBytes 4 x.perDbRoots.length).length = 4 := length_beBytes _ _
    simp only [List.length_cons, List.length_append, hcount, length_flatMap_rootBytes] at hk
    by_cases hshort : k < 5
    · exact .inr (.inl (by rw [List.length_take]; omega))
    · obtain ⟨j, rfl⟩ : ∃ j, k = j + 5 := ⟨k - 5, by omega⟩
      right
      right
      left
      rw [List.take_succ_cons, List.drop_succ_cons, List.drop_zero, List.take_take,
        min_eq_left (by omega), List.take_left' hcount, beNat_beBytes_of_lt h, List.length_cons,
        List.length_take, List.length_append, hcount, length_flatMap_rootBytes]
      omega

/-! ### The whole entry -/

/-- The length of the name has two bytes, and the time is not before the epoch. -/
structure CheckpointEnd.Fits (x : CheckpointEnd) : Prop where
  invoker : (utf8 x.invoker).length < 256 ^ 2
  time : 0 ≤ x.endTime.secs

section

variable {buf rest rest' : Bytes} {head : SystemTime → CheckpointEnd} {t : SystemTime}
  {e : ReadFailure}

/-- A failure before the time. -/
theorem readFromLog_of_head_error (h : readHead buf = .error e) : readFromLog buf = .error e := by
  rw [readFromLog, h]
  rfl

/-- What follows on the head. -/
theorem readFromLog_of_head (h : readHead buf = .ok (head, rest)) :
    readFromLog buf = (readEndTime rest).bind fun r =>
      .ok { head r.1 with perDbRoots := readPerDbRoots r.2 } := by
  rw [readFromLog, h]
  rfl

/-- An entry that fits, with any bytes behind it. -/
theorem readFromLog_append {x : CheckpointEnd} (h : x.Fits) (trailer : Bytes) :
    readFromLog (x.headBytes ++ x.timeBytes ++ trailer) =
      .ok { x with perDbRoots := readPerDbRoots trailer } := by
  rw [List.append_assoc, readFromLog_of_head (takes_readHead h.invoker _),
    takes_readEndTime h.time]
  rfl

/-- What is read fits. -/
theorem fits_of_readFromLog {x : CheckpointEnd} (h : readFromLog buf = .ok x) :
    x.Fits ∧ x.perDbRoots.length < 256 ^ 4 := by
  cases hhead : readHead buf with
  | error e =>
    rw [readFromLog_of_head_error hhead] at h
    cases h
  | ok r =>
    rw [readFromLog_of_head hhead] at h
    cases htime : readEndTime r.2 with
    | error e =>
      rw [htime] at h
      cases h
    | ok t =>
      rw [htime] at h
      obtain rfl := Except.ok.inj h
      obtain ⟨hinvoker, hend⟩ := ensures_readHead _ _ _ hhead t.1
      have hsecs := ensures_readEndTime _ _ _ htime
      exact ⟨⟨hinvoker, hend.symm ▸ hsecs⟩, length_readPerDbRoots_lt _⟩

/-- **When reading panics**: the name is a text, and the time behind it is out of range. -/
theorem readFromLog_panics_iff (buf : Bytes) :
    readFromLog buf = .error .panicked ↔
      (ofUtf8 (nameAt buf)).isSome = true ∧ TimeOverflows (buf.drop (timeAt buf)) := by
  cases hhead : readHead buf with
  | error e =>
    rw [readFromLog_of_head_error hhead]
    refine ⟨fun h => absurd (hhead.trans (congrArg _ (Except.error.inj h)))
      (noPanic_readHead buf), ?_⟩
    rintro ⟨hname, hover⟩
    have hlen := hover.1
    rw [List.length_drop] at hlen
    obtain ⟨head, h⟩ := exists_readHead_iff.mpr ⟨hname, by omega, rfl⟩
    cases hhead.symm.trans h
  | ok r =>
    obtain ⟨hname, -, hrest⟩ := exists_readHead_iff.mp ⟨r.1, hhead⟩
    rw [readFromLog_of_head hhead, hrest, and_iff_right hname, ← readEndTime_panics_iff]
    cases readEndTime (buf.drop (timeAt buf)) with
    | error e => exact ⟨fun h => congrArg _ (Except.error.inj h), fun h => congrArg _
        (Except.error.inj h)⟩
    | ok t => exact ⟨fun h => (by cases h), fun h => (by cases h)⟩

end

/-- **The size is exact.** -/
theorem length_writeToLog (x : CheckpointEnd) : x.writeToLog.length = x.logSize := by
  have hroot : ((x.rootLsn.map lsnBytes).getD []).length =
      if x.rootLsn.isSome then 8 else 0 := by
    cases x.rootLsn with
    | none => rfl
    | some lsn => exact length_beBytes _ _
  have htrailer : x.trailer.length =
      if x.perDbRoots = [] then 0 else 1 + 4 + x.perDbRoots.length * 16 := by
    unfold CheckpointEnd.trailer
    split
    · rfl
    · simp only [List.length_cons, List.length_append, length_beBytes, length_flatMap_rootBytes]
      omega
  simp only [CheckpointEnd.writeToLog, CheckpointEnd.headBytes, CheckpointEnd.timeBytes,
    CheckpointEnd.invokerBytes, CheckpointEnd.logSize, lsnBytes, List.length_append,
    length_beBytes, List.length_singleton, hroot, htrailer]
  omega

/-- **What the format of the entry keeps.** The size is exact. An entry is read back exactly when
its name and its roots can be counted and its time is not before the epoch. Other bytes behind it
give the same entry without roots exactly when they are no list of roots, as every list that is
cut short. And the reader panics exactly when the name is a text and the time out of range. -/
theorem checkpoint_end_exact (x : CheckpointEnd) (trailer buf : Bytes) :
    x.writeToLog.length = x.logSize ∧
      (readFromLog x.writeToLog = .ok x ↔ x.Fits ∧ x.perDbRoots.length < 256 ^ 4) ∧
      (x.Fits → (readFromLog (x.headBytes ++ x.timeBytes ++ trailer) =
        .ok { x with perDbRoots := [] } ↔ NoRoots trailer)) ∧
      (x.perDbRoots.length < 256 ^ 4 → ∀ k < x.trailer.length, NoRoots (x.trailer.take k)) ∧
      (readFromLog buf = .error .panicked ↔
        (ofUtf8 (nameAt buf)).isSome = true ∧ TimeOverflows (buf.drop (timeAt buf))) := by
  refine ⟨length_writeToLog x, ⟨fits_of_readFromLog, ?_⟩, fun hfits => ?_,
    fun h k hk => noRoots_take_trailer h hk, readFromLog_panics_iff buf⟩
  · rintro ⟨hfits, hroots⟩
    rw [CheckpointEnd.writeToLog, readFromLog_append hfits, readPerDbRoots_trailer hroots]
  · rw [readFromLog_append hfits, ← readPerDbRoots_eq_nil]
    constructor
    · intro h
      exact congrArg CheckpointEnd.perDbRoots (Except.ok.inj h)
    · intro h
      rw [h]

/-- An entry of zeros whose seconds have the highest bit set: the reader panics. -/
theorem negative_seconds_panic :
    readFromLog (List.replicate 75 0 ++ [0x80] ++ List.replicate 11 0) = .error .panicked := by
  rw [readFromLog_panics_iff]
  exact ⟨by decide, by decide, by decide⟩

end Noxu
