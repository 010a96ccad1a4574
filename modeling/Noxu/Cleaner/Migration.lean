import Noxu.Log.LnLogEntry
import Noxu.Tree.Bin
import Noxu.Txn.LockTable
import Mathlib.Logic.Relation

/-!
# The Migration of a Record

Before a log file is deleted, the cleaner appends the live records in it to the end of the log. For
each one it takes a read lock without waiting, looks the slot up again, captures the value outside
of the latch, from the slot or from the log, and then, with the leaf latched, checks the slot once
more, logs the record and moves the slot to the new position.

In between the other parties work on: they take, release and steal locks, append to the log, cache
and evict values, split and merge leaves, migrate other records, and move slots to other versions,
if they hold the write locks of both versions. The read lock keeps them from moving the slot away
from its version **and from bringing it back to it**, so the value captured is that of the version
found under the latch.

The new entry is written with an expiration of zero: **a record that expires is logged as one that
does not**. And the check under the latch counts the owners of the lock and does not ask who they
are: **if an importunate locker has taken the lock from the cleaner, the record is migrated though
another locker owns its lock**.

## Main results

* `Interferes.spec`: what a slot found at the locked version later says about it now;
* `migrateLnSlot_spec`: what a migration does, in every outcome;
* `migration_right_iff`: **a migration preserves the record if it does not expire and the cleaner
  has kept its lock**, and only then.
-/

open Noxu.Library

namespace Noxu

/-! ### What the parties share -/

/-- The leaves of the tree, the locks, the records in the log, and whether the environment has been
invalidated. -/
structure Shared where
  bins : List BinStub
  locks : LockTable
  log : List (Lsn × LnLogEntry)
  envInvalid : Bool

/-- A slot with what is around it. -/
structure SlotPlace where
  binsBefore : List BinStub
  bin : BinStub
  slotsBefore : List BinSlot
  slot : BinSlot
  slotsAfter : List BinSlot
  binsAfter : List BinStub

/-- The leaves with another slot and leaf in the place. -/
def SlotPlace.put (p : SlotPlace) (bin : BinStub) (slot : BinSlot) : List BinStub :=
  p.binsBefore ++ { bin with slots := p.slotsBefore ++ slot :: p.slotsAfter } :: p.binsAfter

/-- The first slot that is the one looked for, with those before and after it. -/
def locateSlot (here : BinSlot → Bool) :
    List BinSlot → Option (List BinSlot × BinSlot × List BinSlot)
  | [] => none
  | x :: xs =>
    if here x then some ([], x, xs)
    else (locateSlot here xs).map fun (l, y, r) => (x :: l, y, r)

/-- The place of the slot whose key is the same as the given one in the tree's order. -/
def locate (same : Key → Key → Bool) (key : Key) : List BinStub → Option SlotPlace
  | [] => none
  | b :: bs =>
    match locateSlot (fun x => same key (b.decompressKey x.key)) b.slots with
    | some (l, x, r) => some ⟨[], b, l, x, r, bs⟩
    | none => (locate same key bs).map fun p => { p with binsBefore := b :: p.binsBefore }

namespace Shared

/-- The version that the slot of a key is at. -/
def slotLsn (same : Key → Key → Bool) (s : Shared) (key : Key) : Option Lsn :=
  (locate same key s.bins).map (·.slot.lsn)

/-- The record logged at a position. -/
def recordAt (s : Shared) (lsn : Lsn) : Option LnLogEntry := s.log.lookup lsn

/-- A value cached in a slot is the one logged for the slot's version. -/
def Consistent (same : Key → Key → Bool) (s : Shared) : Prop :=
  ∀ key p d, locate same key s.bins = some p → p.slot.data = some d →
    ∃ e, s.recordAt p.slot.lsn = some e ∧ e.data.getD [] = d

/-- The locker owns the lock of a version. -/
def Owns (s : Shared) (u : Locker) (lsn : Lsn) : Prop := ∃ o ∈ (s.locks lsn).owners, o.locker = u

end Shared

/-! ### The migration -/

/-- What becomes of the record; a locked one is tried again later. -/
inductive MigrationOutcome where
  | migrated
  | obsolete
  | locked
  deriving DecidableEq, Repr

/-- What may go wrong in a migration: the tree is not registered though its database is live, the
lock manager fails, the tree's own lock is poisoned at one of the three accesses, an upper node
cannot be read at the lookup, the slot is not reached by the comparison of bytes, the entry cannot
be read or parsed (and whether that invalidates the environment), the descent under latches gives
up, and where the log puts the new entry, if it takes it. -/
structure MigrationFaults where
  liveUnresolved : Bool
  lockFails : Bool
  poisoned : ℕ → Bool
  searchFails : Bool
  rawDescentMisses : Bool
  readFails : Option Bool
  latchFails : Bool
  newLsn : Option Lsn

/-- The call: the tree's order and clock, the groups that share locks and the cleaner's locker,
which is in none, the database and the key of the LN, where the file has it, and where the lookup
found the slot. -/
structure MigrationCall where
  same : Key → Key → Bool
  expired : ℕ → Bool → Bool
  registry : ShareRegistry
  locker : Locker
  alone : registry locker = none
  dbId : UInt64
  key : Key
  logLsn : Lsn
  treeLsn : Lsn

/-- How a call ended: the state as the other parties left it at the last access, and the state at
the return. -/
structure MigrationRun where
  outcome : MigrationOutcome
  before : Shared
  after : Shared

namespace MigrationCall

variable (c : MigrationCall) (f : MigrationFaults)

/-- `write_migration_ln`: the entry that is logged. -/
def migrationLn (data : Bytes) (embeddedLn : Bool) : LnLogEntry where
  dbId := c.dbId
  txnId := none
  abortLsn := c.logLsn
  abortKnownDeleted := false
  abortKey := none
  abortData := none
  abortVlsn := nullVlsn
  abortExpiration := 0
  embeddedLn := embeddedLn
  key := c.key
  data := some data
  expiration := 0

/-- The read lock, without waiting: whether it is granted, and the table after the request. -/
def lock (s : Shared) : Bool × Shared :=
  if f.lockFails then (false, s)
  else
    (match ((s.locks c.treeLsn).lockWithSharing .read c.locker true false
        (c.registry.sharesFn c.locker)).1 with
      | .grant grant => grant.isGranted
      | .denied => false,
    { s with locks := s.locks.call c.registry c.treeLsn (.lock .read c.locker true false true) })

/-- `release_cleaner_lock`. -/
def releaseLock (s : Shared) : Shared :=
  { s with locks := s.locks.call c.registry c.treeLsn (.release c.locker true) }

/-- `slot_is_live`. -/
def slotIsLive (b : BinStub) (x : BinSlot) : Bool :=
  !(x.isDeleted ||
    (b.expirationEnabled && x.expirationTime ≠ 0 && c.expired x.expirationTime b.expirationInHours))

/-- `search_with_data_checked`: the version of a live slot. -/
def search (s : Shared) : Option Lsn :=
  ((locate c.same c.key s.bins).filter fun p => c.slotIsLive p.bin p.slot).map (·.slot.lsn)

/-- `get_slot_data_from_root`. -/
def getSlotDataFromRoot (s : Shared) : Option Bytes :=
  if f.rawDescentMisses then none else (locate c.same c.key s.bins).bind (·.slot.data)

/-- `fetch_migration_ln_data_from_log`; an error says whether it invalidates the environment. Data
of length zero is read as absent. -/
def fetchMigrationLnDataFromLog (s : Shared) : Except Bool Bytes :=
  match f.readFails, s.recordAt c.treeLsn with
  | some invalidates, _ => .error invalidates
  | none, none => .error false
  | none, some e =>
    match e.readBack.data with
    | some d => .ok d
    | none => .error false

/-- `LockManager::get_lock_info`. -/
def getLockInfo (s : Shared) (lsn : Lsn) : ℕ × ℕ :=
  ((s.locks lsn).owners.length, (s.locks lsn).waiters.length)

/-- `publish_migration_latched`. -/
def publishMigrationLatched (captured : Bytes) (s : Shared) : MigrationOutcome × Shared :=
  if c.treeLsn ≠ c.logLsn then (.obsolete, s)
  else
    match if f.latchFails then none else locate c.same c.key s.bins with
    | none => (.obsolete, s)
    | some p =>
      if p.slot.knownDeleted ∨ p.slot.lsn ≠ c.logLsn then (.obsolete, s)
      else if getLockInfo s c.logLsn ≠ (1, 0) then (.locked, s)
      else
        let data := p.slot.data.getD captured
        let embeddedLn := decide ((data.length : ℤ) ≤ p.bin.maxEmbeddedLn)
        match f.newLsn with
        | none => (.locked, s)
        | some newLsn =>
          (.migrated,
            { s with
              log := s.log ++ [(newLsn, c.migrationLn data embeddedLn)]
              bins := p.put { p.bin with dirty := true }
                { p.slot with lsn := newLsn, dirty := true } })

/-- The call ends without a publication. -/
def giveUp (outcome : MigrationOutcome) (s : Shared) : MigrationRun :=
  ⟨outcome, s, c.releaseLock s⟩

/-- `migrate_ln_slot`. `others k` is what the other parties do before the call's `k`-th access to
what they share. -/
def migrateLnSlot (others : ℕ → Shared → Shared) (s : Shared) : MigrationRun :=
  if f.liveUnresolved then ⟨.locked, s, s⟩
  else
    let (granted, s₀) := c.lock f s
    if !granted then ⟨.locked, s, s₀⟩
    else
      let s₁ := others 0 s₀
      if f.poisoned 0 then c.giveUp .obsolete s₁
      else if f.searchFails then c.giveUp .locked { s₁ with envInvalid := true }
      else if c.search s₁ ≠ some c.treeLsn then c.giveUp .obsolete s₁
      else
        let s₂ := others 1 s₁
        if f.poisoned 1 then c.giveUp .obsolete s₂
        else
          let slotData := c.getSlotDataFromRoot f s₂
          let s₃ := others 2 s₂
          match slotData.elim (c.fetchMigrationLnDataFromLog f s₃) Except.ok with
          | .error invalidates =>
            c.giveUp .locked { s₃ with envInvalid := s₃.envInvalid || invalidates }
          | .ok data =>
            let s₄ := others 3 s₃
            if f.poisoned 2 then c.giveUp .locked s₄
            else
              let (outcome, s₅) := c.publishMigrationLatched f data s₄
              ⟨outcome, s₄, c.releaseLock s₅⟩

end MigrationCall

/-! ### The other parties -/

section Others

variable (same : Key → Key → Bool) (registry : ShareRegistry) (u : Locker)

/-- The slot of a key stays at its version; or it is removed and was deleted; or a locker moves it
that holds the write locks of both versions. -/
def MovesAllowed (s : Shared) (bins : List BinStub) (key : Key) : Prop :=
  { s with bins }.slotLsn same key = s.slotLsn same key ∨
    ({ s with bins }.slotLsn same key = none ∧
      ∃ p, locate same key s.bins = some p ∧ p.slot.isDeleted = true) ∨
    ∃ v ≠ u, (∀ lsn ∈ s.slotLsn same key, WriteOwner (s.locks lsn).owners v) ∧
      ∀ lsn ∈ { s with bins }.slotLsn same key, WriteOwner (s.locks lsn).owners v

/-- What a party other than the locker does: any call on a lock, a steal too; a record is logged;
the tree changes, which caches and evicts values, moves slots between leaves and moves them to other
versions, and keeps the cached values right; another record is migrated, which logs it and moves its
slot at once. -/
inductive OtherStep : Shared → Shared → Prop
  | call {s : Shared} (lsn : Lsn) (c : LockCall) :
      c.locker ≠ u → OtherStep s { s with locks := s.locks.call registry lsn c }
  | append {s : Shared} {lsn : Lsn} (e : LnLogEntry) :
      s.recordAt lsn = none → OtherStep s { s with log := s.log ++ [(lsn, e)] }
  | tree {s : Shared} {bins : List BinStub} :
      { s with bins }.Consistent same → (∀ key, MovesAllowed same u s bins key) →
        OtherStep s { s with bins }
  | migrate {s : Shared} {bins : List BinStub} {lsn : Lsn} (e : LnLogEntry) :
      s.recordAt lsn = none → { s with bins, log := s.log ++ [(lsn, e)] }.Consistent same →
        (∀ key, { s with bins }.slotLsn same key = s.slotLsn same key ∨
          { s with bins }.slotLsn same key = some lsn) →
        OtherStep s { s with bins, log := s.log ++ [(lsn, e)] }
  | invalidate {s : Shared} : OtherStep s { s with envInvalid := true }

/-- What the other parties do in any number of steps. -/
def Interferes : Shared → Shared → Prop := Relation.ReflTransGen (OtherStep same registry u)

/-- The locker waits for nothing and has no lock but the read lock of one version, no two locks
conflict, and the cached values are right. -/
structure Guarded (lsn : Lsn) (s : Shared) : Prop where
  compatible : s.locks.Ok registry
  waits : ∀ k, ∀ w ∈ (s.locks k).waiters, w.locker ≠ u
  reads : ∀ k, ∀ o ∈ (s.locks k).owners, o.locker = u → k = lsn ∧ o.lockType = .read
  consistent : s.Consistent same

variable {same registry u} {s s' : Shared} {lsn : Lsn} {key : Key} {e : LnLogEntry}

/-- A record stays in the log. -/
theorem recordAt_append {lsn' : Lsn} (e' : LnLogEntry) (h : s.recordAt lsn = some e) :
    { s with log := s.log ++ [(lsn', e')] }.recordAt lsn = some e := by
  simp only [Shared.recordAt, List.lookup_append] at h ⊢
  rw [h]
  rfl

/-- What is in the log stays there. -/
theorem OtherStep.recordAt (hstep : OtherStep same registry u s s')
    (h : s.recordAt lsn = some e) : s'.recordAt lsn = some e := by
  cases hstep with
  | append e' _ | migrate e' _ _ _ => exact recordAt_append e' h
  | _ => exact h

/-- The locker has no write lock, so no call of another one is barred. -/
theorem Guarded.spares (h : Guarded same registry u lsn s) (k : Lsn) (c : LockCall) :
    (s.locks k).Spares u c := by
  have hnone : ¬ WriteOwner (s.locks k).owners u := by
    rintro ⟨o, ho, hou, hwrite⟩
    rw [(h.reads k o ho hou).2] at hwrite
    cases hwrite
  cases c with
  | demote v =>
    cases hl : s.locks k with
    | thin owner =>
      rw [hl] at hnone
      exact hnone
    | full impl => trivial
  | stealLock v preemptable => exact fun _ => hnone
  | lock | release | flushWaiter => trivial

/-- A read lock keeps the others from holding a write lock. -/
theorem Guarded.not_writes (h : Guarded same registry u lsn s) (halone : registry u = none)
    (howns : s.Owns u lsn) {v : Locker} (hv : v ≠ u) : ¬ WriteOwner (s.locks lsn).owners v := by
  rintro ⟨o, ho, rfl, hwrite⟩
  obtain ⟨p, hp, rfl⟩ := howns
  have hshare : registry.sharesFn o.locker p.locker = false := by
    rw [registry.sharesFn_comm]
    simp [ShareRegistry.sharesFn, halone]
  have hallow := (h.compatible lsn).allow o ho p hp hv hshare
  rw [(h.reads lsn p hp rfl).2] at hallow
  revert hallow hwrite
  cases o.lockType <;> decide

/-- The others give the locker nothing. -/
theorem Guarded.mem_of_step (h : Guarded same registry u lsn s)
    (hstep : OtherStep same registry u s s') (k : Lsn) :
    (∀ w ∈ (s'.locks k).waiters, w.locker ≠ u) ∧
      ∀ o ∈ (s'.locks k).owners, o.locker = u → o ∈ (s.locks k).owners := by
  cases hstep with
  | call lsn' c hc =>
    have hspared := LockTable.spared_call h.compatible hc (h.spares lsn' c) k
    exact ⟨hspared.waiters (h.waits k), hspared.owners (h.waits k)⟩
  | _ => exact ⟨h.waits k, fun _ ho _ => ho⟩

/-- **One step of another party** keeps the guard. -/
theorem Guarded.step (h : Guarded same registry u lsn s)
    (hstep : OtherStep same registry u s s') : Guarded same registry u lsn s' := by
  refine ⟨?_, fun k => (h.mem_of_step hstep k).1, fun k o ho hou =>
    h.reads k o ((h.mem_of_step hstep k).2 o ho hou) hou, ?_⟩
  · cases hstep with
    | call lsn' c _ => exact h.compatible.call lsn' c
    | _ => exact h.compatible
  · cases hstep with
    | append e' _ =>
      intro key p d hp hd
      obtain ⟨e, he, hdata⟩ := h.consistent key p d hp hd
      exact ⟨e, recordAt_append e' he, hdata⟩
    | tree hcons _ | migrate _ _ hcons _ => exact hcons
    | call | invalidate => exact h.consistent

/-- A slot that one step of another party leaves at the locked version was there. -/
theorem Guarded.lsn_eq_of_step (h : Guarded same registry u lsn s) (halone : registry u = none)
    (hstep : OtherStep same registry u s s') (howns : s.Owns u lsn)
    (hrec : s.recordAt lsn = some e) (hlsn : s'.slotLsn same key = some lsn) :
    s.slotLsn same key = some lsn := by
  cases hstep with
  | tree _ hmoves =>
    rcases hmoves key with hsame | ⟨hnone, -⟩ | ⟨v, hv, -, hnew⟩
    · exact hsame ▸ hlsn
    · rw [hnone] at hlsn
      cases hlsn
    · exact absurd (hnew lsn hlsn) (h.not_writes halone howns hv)
  | migrate e' hfresh _ hmoves =>
    rcases hmoves key with hsame | hnew
    · exact hsame ▸ hlsn
    · -- the new version is not in the log yet
      obtain rfl := Option.some.inj (hnew.symm.trans hlsn)
      rw [hfresh] at hrec
      cases hrec
  | _ => exact hlsn

/-- **The others keep the guard, and the records in the log.** If they leave the locker its lock, it
had it before; and then a slot that they leave at the locked version was there. -/
theorem Interferes.spec (hothers : Interferes same registry u s s')
    (h : Guarded same registry u lsn s) (halone : registry u = none) :
    Guarded same registry u lsn s' ∧ (∀ m e, s.recordAt m = some e → s'.recordAt m = some e) ∧
      (s'.Owns u lsn → s.Owns u lsn ∧ ∀ e, s.recordAt lsn = some e → ∀ key,
        s'.slotLsn same key = some lsn → s.slotLsn same key = some lsn) := by
  induction hothers with
  | refl => exact ⟨h, fun _ _ => id, fun howns => ⟨howns, fun _ _ _ => id⟩⟩
  | tail _ hstep ih =>
    obtain ⟨hguard, hlog, hback⟩ := ih
    refine ⟨hguard.step hstep, fun m e he => hstep.recordAt (hlog m e he), ?_⟩
    rintro ⟨o, ho, hou⟩
    have howns : Shared.Owns _ u lsn := ⟨o, (hguard.mem_of_step hstep lsn).2 o ho hou, hou⟩
    refine ⟨(hback howns).1, fun e he key hkey => (hback howns).2 e he key ?_⟩
    exact hguard.lsn_eq_of_step halone hstep howns (hlog _ _ he) hkey

/-- A value cached for a version whose record is known. -/
theorem Guarded.data_eq (h : Guarded same registry u lsn s) {p : SlotPlace} {d value : Bytes}
    (hp : locate same key s.bins = some p) (hd : p.slot.data = some d) (hlsn : p.slot.lsn = lsn)
    (he : s.recordAt lsn = some e) (hvalue : e.data = some value) : d = value := by
  obtain ⟨e', he', rfl⟩ := h.consistent key p d hp hd
  rw [hlsn, he] at he'
  obtain rfl := Option.some.inj he'
  simp [hvalue]

end Others

/-! ### The place of a slot -/

/-- The parts that a slot is found between. -/
theorem locateSlot_eq {here : BinSlot → Bool} {xs l r : List BinSlot} {x : BinSlot}
    (h : locateSlot here xs = some (l, x, r)) : xs = l ++ x :: r := by
  induction xs generalizing l with
  | nil => cases h
  | cons y ys ih =>
    rw [locateSlot] at h
    split at h
    · obtain ⟨rfl, rfl, rfl⟩ : [] = l ∧ y = x ∧ ys = r := by simpa using h
      rfl
    · obtain ⟨⟨l', x', r'⟩, hrest, heq⟩ := Option.map_eq_some_iff.mp h
      obtain ⟨rfl, rfl, rfl⟩ : y :: l' = l ∧ x' = x ∧ r' = r := by simpa using heq
      rw [ih hrest]
      rfl

/-- The leaves are those around the place with the slot in it. -/
theorem locate_eq {same : Key → Key → Bool} {key : Key} {bins : List BinStub} {p : SlotPlace}
    (h : locate same key bins = some p) : bins = p.put p.bin p.slot := by
  induction bins generalizing p with
  | nil => cases h
  | cons b bs ih =>
    rw [locate] at h
    split at h
    case h_1 l x r hslot =>
      obtain rfl := Option.some.inj h
      simp only [SlotPlace.put, List.nil_append]
      rw [← locateSlot_eq hslot]
    case h_2 =>
      obtain ⟨q, hq, rfl⟩ := Option.map_eq_some_iff.mp h
      rw [ih hq]
      rfl

/-! ### What a migration does -/

namespace MigrationCall

variable {c : MigrationCall} {f : MigrationFaults} {others : ℕ → Shared → Shared}
  {s : Shared} {rec : LnLogEntry} {value : Bytes}

/-- The log gets one entry and nothing else, only the slot's version and the marks for changes
differ in the tree, and the lock has one owner and no waiter. -/
def Migrates (c : MigrationCall) (data : Bytes) (s s' : Shared) : Prop :=
  ∃ newLsn embeddedLn p, s'.log = s.log ++ [(newLsn, c.migrationLn data embeddedLn)] ∧
    locate c.same c.key s.bins = some p ∧ p.slot.lsn = c.logLsn ∧
    s'.bins = p.put { p.bin with dirty := true } { p.slot with lsn := newLsn, dirty := true } ∧
    c.treeLsn = c.logLsn ∧ getLockInfo s c.logLsn = (1, 0)

/-- The lock that the call takes. -/
theorem guarded_of_lock (hok : s.locks.Ok c.registry) (hcons : s.Consistent c.same)
    (hfresh : ∀ lsn, ¬ s.Owns c.locker lsn)
    (hwaits : ∀ lsn, ∀ w ∈ (s.locks lsn).waiters, w.locker ≠ c.locker) :
    Guarded c.same c.registry c.locker c.treeLsn (c.lock f s).2 ∧
      (c.lock f s).2.log = s.log ∧ (c.lock f s).2.bins = s.bins ∧
      ((c.lock f s).1 = false → ∀ lsn, ¬ (c.lock f s).2.Owns c.locker lsn) := by
  have hnone : ∀ lsn, ∀ o ∈ (s.locks lsn).owners, o.locker ≠ c.locker :=
    fun lsn o ho hou => hfresh lsn ⟨o, ho, hou⟩
  have htable := LockTable.call_lock_nonBlocking c.registry hnone hwaits c.treeLsn .read
  unfold lock
  split
  · exact ⟨⟨hok, hwaits, fun k o ho hou => absurd hou (hnone k o ho), hcons⟩, rfl, rfl,
      fun _ => hfresh⟩
  · refine ⟨⟨hok.call _ (.lock .read c.locker true false true), fun k => (htable k).1,
      fun k o ho hou => ?_, hcons⟩, rfl, rfl, ?_⟩
    · obtain ⟨hk, hread, -⟩ := (htable k).2 o ho hou
      exact ⟨hk, hread⟩
    · rintro hdenied k ⟨o, ho, hou⟩
      rw [((htable k).2 o ho hou).2.2] at hdenied
      cases hdenied

/-- What is read from the log is the value of the record. -/
theorem fetch_eq {data : Bytes} (hrec : s.recordAt c.treeLsn = some rec)
    (h : c.fetchMigrationLnDataFromLog f s = .ok data) : rec.data = some data := by
  unfold fetchMigrationLnDataFromLog at h
  rw [hrec] at h
  cases hfail : f.readFails with
  | some invalidates => simp [hfail] at h
  | none =>
    simp only [hfail] at h
    split at h
    case h_1 d hd =>
      obtain rfl := Except.ok.inj h
      exact (Option.filter_eq_some_iff.mp hd).1
    case h_2 => cases h

/-- The value that is captured, if the slot is still at its version afterwards. -/
theorem captured_eq {s₂ s₃ : Shared} {data : Bytes}
    (h₂ : Guarded c.same c.registry c.locker c.treeLsn s₂)
    (hrec₂ : s₂.recordAt c.treeLsn = some rec) (hrec₃ : s₃.recordAt c.treeLsn = some rec)
    (hvalue : rec.data = some value)
    (hlsn : s₂.slotLsn c.same c.key = some c.treeLsn)
    (hcaptured : (c.getSlotDataFromRoot f s₂).elim (c.fetchMigrationLnDataFromLog f s₃) Except.ok =
      .ok data) : data = value := by
  cases hslot : c.getSlotDataFromRoot f s₂ with
  | some d =>
    obtain rfl : d = data := by simpa [hslot] using hcaptured
    unfold getSlotDataFromRoot at hslot
    obtain ⟨-, hslot⟩ := Option.ite_none_left_eq_some.mp hslot
    obtain ⟨p, hp, hd⟩ := Option.bind_eq_some_iff.mp hslot
    have hplsn : p.slot.lsn = c.treeLsn := by simpa [Shared.slotLsn, hp] using hlsn
    exact h₂.data_eq hp hd hplsn hrec₂ hvalue
  | none =>
    rw [hslot, Option.elim_none] at hcaptured
    exact Option.some.inj ((fetch_eq hrec₃ hcaptured).symm.trans hvalue)

/-- **The publication** of a captured value. It logs the value of the record, if the value captured
is right whenever the slot is at its version. -/
theorem publish_spec (captured : Bytes) (h : Guarded c.same c.registry c.locker c.treeLsn s)
    (hrec : s.recordAt c.logLsn = some rec) (hvalue : rec.data = some value) :
    (c.publishMigrationLatched f captured s).2.locks = s.locks ∧
      ((c.publishMigrationLatched f captured s).1 ≠ .migrated →
        (c.publishMigrationLatched f captured s).2 = s) ∧
      ((c.publishMigrationLatched f captured s).1 = .migrated →
        ∃ data, c.Migrates data s (c.publishMigrationLatched f captured s).2 ∧
          ((c.treeLsn = c.logLsn → s.slotLsn c.same c.key = some c.treeLsn → captured = value) →
            data = value)) := by
  unfold publishMigrationLatched
  split
  · exact ⟨rfl, fun _ => rfl, nofun⟩
  case isFalse heq =>
    have heq : c.treeLsn = c.logLsn := not_not.mp heq
    split
    · exact ⟨rfl, fun _ => rfl, nofun⟩
    case h_2 p hp =>
      have hp := (Option.ite_none_left_eq_some.mp hp).2
      split
      · exact ⟨rfl, fun _ => rfl, nofun⟩
      case isFalse hlive =>
        have hlsn : p.slot.lsn = c.logLsn := by simpa using (not_or.mp hlive).2
        split
        · exact ⟨rfl, fun _ => rfl, nofun⟩
        case isFalse hinfo =>
          split
          · exact ⟨rfl, fun _ => rfl, nofun⟩
          case h_2 newLsn _ =>
            refine ⟨rfl, fun hne => absurd rfl hne, fun _ => ⟨p.slot.data.getD captured,
              ⟨newLsn, _, p, rfl, hp, hlsn, rfl, heq, not_not.mp hinfo⟩, fun hcaptured => ?_⟩⟩
            cases hd : p.slot.data with
            | none => exact hcaptured heq (by simp [Shared.slotLsn, hp, hlsn, heq])
            | some d => exact h.data_eq hp hd (hlsn.trans heq.symm) (heq ▸ hrec) hvalue

/-- The call leaves no lock of its own. -/
theorem not_owns_releaseLock (h : Guarded c.same c.registry c.locker c.treeLsn s) (lsn : Lsn) :
    ¬ (c.releaseLock s).Owns c.locker lsn := by
  rintro ⟨o, ho, hou⟩
  unfold releaseLock at ho
  by_cases hk : lsn = c.treeLsn
  · subst hk
    dsimp only at ho
    rw [LockTable.owners_call_self] at ho
    exact Lock.locker_ne_of_release (h.compatible _) (h.waits _) ho hou
  · dsimp only at ho
    rw [LockTable.call_of_ne hk] at ho
    exact hk (h.reads lsn o ho hou).1

/-- What every end of a call says: no lock is left, a call that has not migrated has logged nothing
and left the tree alone, and one that has has moved the slot to what it has logged; that is the
value of the record, if the call still owned its lock. -/
structure Ends (c : MigrationCall) (value : Bytes) (r : MigrationRun) : Prop where
  lock : ∀ lsn, ¬ r.after.Owns c.locker lsn
  unchanged : r.outcome ≠ .migrated → r.after.log = r.before.log ∧ r.after.bins = r.before.bins
  migrated : r.outcome = .migrated → ∃ data, c.Migrates data r.before r.after ∧
    (r.before.Owns c.locker c.treeLsn → data = value)

/-- **Giving up** leaves the record as it is and the lock with its owner. -/
theorem ends_giveUp {outcome : MigrationOutcome} (hout : outcome ≠ .migrated)
    (h : Guarded c.same c.registry c.locker c.treeLsn s) : c.Ends value (c.giveUp outcome s) :=
  ⟨not_owns_releaseLock h, fun _ => ⟨rfl, rfl⟩, fun h => absurd h hout⟩

/-- **A migration**, whatever the other parties do in between. -/
theorem migrateLnSlot_spec (hothers : ∀ k s, Interferes c.same c.registry c.locker s (others k s))
    (hok : s.locks.Ok c.registry) (hcons : s.Consistent c.same)
    (hfresh : ∀ lsn, ¬ s.Owns c.locker lsn)
    (hwaits : ∀ lsn, ∀ w ∈ (s.locks lsn).waiters, w.locker ≠ c.locker)
    (hrec : s.recordAt c.logLsn = some rec) (hvalue : rec.data = some value) :
    c.Ends value (c.migrateLnSlot f others s) := by
  obtain ⟨hguard, hlog, hbins, hfree⟩ := guarded_of_lock (f := f) hok hcons hfresh hwaits
  have hrec₀ : (c.lock f s).2.recordAt c.logLsn = some rec := by
    rw [Shared.recordAt, hlog]
    exact hrec
  unfold migrateLnSlot
  split
  · exact ⟨hfresh, fun _ => ⟨rfl, rfl⟩, nofun⟩
  dsimp only
  split
  case isTrue hdenied =>
    exact ⟨hfree (by simpa using hdenied), fun _ => ⟨hlog, hbins⟩, nofun⟩
  case isFalse =>
    generalize (c.lock f s).2 = s₀ at *
    -- The states that the others leave, one after another.
    have hnext : ∀ {m : Shared} (k : ℕ), Guarded c.same c.registry c.locker c.treeLsn m →
        m.recordAt c.logLsn = some rec →
        Guarded c.same c.registry c.locker c.treeLsn (others k m) ∧
          (others k m).recordAt c.logLsn = some rec ∧
          ((others k m).Owns c.locker c.treeLsn → m.Owns c.locker c.treeLsn ∧
            ∀ e, m.recordAt c.treeLsn = some e → ∀ key,
              (others k m).slotLsn c.same key = some c.treeLsn →
                m.slotLsn c.same key = some c.treeLsn) := by
      intro m k hm hrecm
      obtain ⟨hguard', hrecs, hback⟩ := (hothers k m).spec hm c.alone
      exact ⟨hguard', hrecs _ _ hrecm, hback⟩
    obtain ⟨hguard₁, hrec₁, -⟩ := hnext 0 hguard hrec₀
    split
    · exact ends_giveUp nofun hguard₁
    split
    · exact ends_giveUp nofun ⟨hguard₁.compatible, hguard₁.waits, hguard₁.reads, hguard₁.consistent⟩
    split
    · exact ends_giveUp nofun hguard₁
    obtain ⟨hguard₂, hrec₂, -⟩ := hnext 1 hguard₁ hrec₁
    split
    · exact ends_giveUp nofun hguard₂
    obtain ⟨hguard₃, hrec₃, hback₃⟩ := hnext 2 hguard₂ hrec₂
    split
    · exact ends_giveUp nofun ⟨hguard₃.compatible, hguard₃.waits, hguard₃.reads, hguard₃.consistent⟩
    case h_2 data hdata =>
      obtain ⟨hguard₄, hrec₄, hback₄⟩ := hnext 3 hguard₃ hrec₃
      split
      · exact ends_giveUp nofun hguard₄
      · obtain ⟨hlocks, hsame, hmigrated⟩ :=
          publish_spec (f := f) data hguard₄ hrec₄ hvalue
        refine ⟨?_, fun hne => ?_, fun hout => ?_⟩
        · intro lsn howns
          refine not_owns_releaseLock hguard₄ lsn ?_
          simpa only [releaseLock, Shared.Owns, hlocks] using howns
        · simp only [releaseLock, hsame hne, and_self]
        · obtain ⟨logged, hmig, heq⟩ := hmigrated hout
          refine ⟨logged, hmig, fun howns => heq fun hlsn hslot => ?_⟩
          obtain ⟨howns₃, hslot₄⟩ := hback₄ howns
          obtain ⟨-, hslot₃⟩ := hback₃ howns₃
          exact captured_eq hguard₂ (hlsn ▸ hrec₂) (hlsn ▸ hrec₃) hvalue
            (hslot₃ rec (hlsn ▸ hrec₂) _ (hslot₄ rec (hlsn ▸ hrec₃) _ hslot)) hdata

/-- **The record is preserved.** A migration has appended one entry, from which the key, the value
and the expiration are rebuilt, and has changed the version and the marks of the slot and nothing
else in the tree, and nobody else owned the lock of the record or waited for it; a call with another
outcome has appended nothing and changed nothing in the tree; and no lock is left. -/
structure MigrationRight (c : MigrationCall) (rec : LnLogEntry) (r : MigrationRun) : Prop where
  migrated : r.outcome = .migrated → ∃ (newLsn : Lsn) (e : LnLogEntry) (p : SlotPlace),
    r.after.log = r.before.log ++ [(newLsn, e)] ∧
    (∃ rebuilt, parsePayload .updateLN e.writeToLog = some rebuilt ∧ rebuilt.key = rec.key ∧
      rebuilt.data = rec.data ∧ rebuilt.expiration = rec.expiration) ∧
    p.slot.lsn = c.logLsn ∧ r.before.bins = p.put p.bin p.slot ∧
    r.after.bins = p.put { p.bin with dirty := true } { p.slot with lsn := newLsn, dirty := true }
  unlocked : r.outcome = .migrated → (∀ o ∈ (r.before.locks c.logLsn).owners, o.locker = c.locker) ∧
    (r.before.locks c.logLsn).waiters = []
  unchanged : r.outcome ≠ .migrated → r.after.log = r.before.log ∧ r.after.bins = r.before.bins
  lock : ∀ lsn, ¬ r.after.Owns c.locker lsn

/-- What the recovery rebuilds from a migrated record. -/
theorem rebuild_migrationLn (hsmall : rec.Small) (hkey : rec.key = c.key)
    (hvalue : rec.data = some value) (embeddedLn : Bool) :
    ∃ rebuilt, parsePayload .updateLN (c.migrationLn value embeddedLn).writeToLog = some rebuilt ∧
      rebuilt.key = rec.key ∧ rebuilt.data = rec.data ∧ rebuilt.expiration = 0 := by
  have hsmall' : (c.migrationLn value embeddedLn).Small := by
    refine ⟨?_, ?_, nofun, nofun⟩
    · rw [migrationLn, ← hkey]
      exact hsmall.key
    · intro d hd
      exact hsmall.data d (hvalue.trans hd)
  have hparse := LnLogEntry.parsePayload_writeToLog hsmall'
    (rfl : LogEntryType.lnOperation .updateLN = some (.update, false)) []
  rw [List.append_nil] at hparse
  refine ⟨_, hparse, hkey.symm, ?_, rfl⟩
  rw [LnLogEntry.data_toRecord_readBack _ (by decide), hvalue]
  rfl

end MigrationCall

open MigrationCall in
/-- **A migration preserves the record if the record does not expire and the cleaner still owns the
lock at the publication**: for every fault and all that the other parties do in between. A migration
without one of the two does not preserve it, and a call that does not migrate changes nothing. -/
theorem migration_right_iff (c : MigrationCall) (f : MigrationFaults)
    (others : ℕ → Shared → Shared)
    (hothers : ∀ k s, Interferes c.same c.registry c.locker s (others k s))
    (s : Shared) (hok : s.locks.Ok c.registry) (hcons : s.Consistent c.same)
    (hfresh : ∀ lsn, ¬ s.Owns c.locker lsn)
    (hwaits : ∀ lsn, ∀ w ∈ (s.locks lsn).waiters, w.locker ≠ c.locker) (rec : LnLogEntry)
    (hrec : s.recordAt c.logLsn = some rec) (hkey : rec.key = c.key) (hlive : rec.data.isSome)
    (hsmall : rec.Small) :
    let r := c.migrateLnSlot f others s
    (rec.expiration = 0 → r.before.Owns c.locker c.treeLsn → c.MigrationRight rec r) ∧
      (r.outcome = .migrated →
        (c.MigrationRight rec r ↔ rec.expiration = 0 ∧ r.before.Owns c.locker c.treeLsn)) ∧
      (r.outcome ≠ .migrated → c.MigrationRight rec r) := by
  obtain ⟨value, hvalue⟩ := Option.isSome_iff_exists.mp hlive
  have hends : c.Ends value (c.migrateLnSlot f others s) :=
    migrateLnSlot_spec hothers hok hcons hfresh hwaits hrec hvalue
  intro r
  have hright : rec.expiration = 0 → r.before.Owns c.locker c.treeLsn →
      c.MigrationRight rec r := by
    intro hzero howns
    refine ⟨fun hout => ?_, fun hout => ?_, hends.unchanged, hends.lock⟩
    all_goals
      obtain ⟨data, ⟨newLsn, embeddedLn, p, hlog, hp, hlsn, hbins, heq, hinfo⟩, hdata⟩ :=
        hends.migrated hout
      obtain rfl := hdata howns
    · obtain ⟨rebuilt, hparse, hk, hd, hexp⟩ := rebuild_migrationLn hsmall hkey hvalue embeddedLn
      exact ⟨newLsn, _, p, hlog, ⟨rebuilt, hparse, hk, hd, hexp.trans hzero.symm⟩, hlsn,
        locate_eq hp, hbins⟩
    · obtain ⟨hone, hnone⟩ := Prod.mk.inj hinfo
      obtain ⟨o, ho, hou⟩ := heq ▸ howns
      obtain ⟨o', ho'⟩ := List.length_eq_one_iff.mp hone
      refine ⟨fun x hx => ?_, List.length_eq_zero_iff.mp hnone⟩
      rw [ho', List.mem_singleton] at ho hx
      rw [hx, ← ho, hou]
  refine ⟨hright, fun hout => ⟨fun h => ?_, fun ⟨hzero, howns⟩ => hright hzero howns⟩,
    fun hout => ⟨fun h => absurd h hout, fun h => absurd h hout, hends.unchanged, hends.lock⟩⟩
  obtain ⟨data, ⟨newLsn', embeddedLn, p', hlog', -, -, -, heq, hinfo⟩, hdata⟩ := hends.migrated hout
  -- the one owner is the cleaner, so the value is that of the record
  obtain ⟨o, ho⟩ := List.length_eq_one_iff.mp (Prod.mk.inj hinfo).1
  have hmem : o ∈ (r.before.locks c.logLsn).owners := ho ▸ List.mem_singleton_self o
  have howns : r.before.Owns c.locker c.treeLsn :=
    ⟨o, heq.symm ▸ hmem, (h.unlocked hout).1 o hmem⟩
  obtain rfl := hdata howns
  obtain ⟨rebuilt', hparse', -, -, hzero⟩ := rebuild_migrationLn hsmall hkey hvalue embeddedLn
  obtain ⟨newLsn, e, p, hlog, ⟨rebuilt, hparse, -, -, hexp⟩, -⟩ := h.migrated hout
  obtain ⟨-, rfl⟩ : newLsn = newLsn' ∧ e = c.migrationLn data embeddedLn := by
    simpa [r] using hlog.symm.trans hlog'
  obtain rfl := Option.some.inj (hparse.symm.trans hparse')
  exact ⟨hexp.symm.trans hzero, howns⟩

/-! ### A record that expires -/

/-- A record with an expiration, at position 100. -/
def recordExpiringAt (expiration : Int32) : LnLogEntry where
  dbId := 3
  txnId := none
  abortLsn := nullLsn
  abortKnownDeleted := false
  abortKey := none
  abortData := none
  abortVlsn := nullVlsn
  abortExpiration := 0
  embeddedLn := false
  key := [7]
  data := some [1, 2]
  expiration := expiration

/-- A leaf with the record, whose value is not cached, and nothing locked. -/
def sharedExpiringAt (expiration : Int32) : Shared where
  bins := [{
    nodeId := 1
    slots := [⟨[7], 100, none, false, false, false, expiration.toUInt32.toNat⟩]
    keyWidth := none
    compactMaxKeyLength := defaultMaxKeyLength
    keyPrefix := []
    dirty := false
    isDelta := false
    lastFullLsn := nullLsn
    lastDeltaLsn := nullLsn
    expirationInHours := true
    cursorCount := 0
    prohibitNextDelta := false
    expirationEnabled := true
    maxEmbeddedLn := 1
    keyPrefixing := false }]
  locks := .empty
  log := [(100, recordExpiringAt expiration)]
  envInvalid := false

/-- The cleaner migrates it, and the log puts it at position 900. -/
def plainMigration : MigrationCall :=
  ⟨fun a b => a == b, fun _ _ => false, fun _ => none, 42, rfl, 3, [7], 100, 100⟩

/-- Nothing goes wrong. -/
def noFaults : MigrationFaults :=
  ⟨false, false, fun _ => false, false, false, none, false, some 900⟩

/-- Without an expiration it is preserved. -/
theorem migration_right_plain :
    plainMigration.MigrationRight (recordExpiringAt 0)
      (plainMigration.migrateLnSlot noFaults (fun _ s => s) (sharedExpiringAt 0)) := by
  refine (migration_right_iff plainMigration noFaults (fun _ s => s) (fun _ _ => .refl)
    (sharedExpiringAt 0) LockTable.ok_empty ?_ ?_ ?_ (recordExpiringAt 0) rfl rfl rfl ?_).1 rfl
    ⟨⟨42, .read⟩, by decide +kernel, rfl⟩
  · intro key p d hp hd
    have hmem : p.slot ∈ (sharedExpiringAt 0).bins.flatMap (·.slots) := by
      rw [locate_eq hp]
      simp [SlotPlace.put]
    rw [List.mem_singleton.mp hmem] at hd
    cases hd
  · rintro lsn ⟨o, ho, -⟩
    cases ho
  · intro lsn w hw
    cases hw
  · constructor <;> simp [recordExpiringAt]

/-- Before the publication an importunate locker takes the cleaner's lock and write locks the
record. -/
def thief (k : ℕ) (s : Shared) : Shared :=
  if k = 3 then
    { s with
      locks := (s.locks.call (fun _ => none) 100 (.stealLock 7 fun _ => true)).call (fun _ => none)
        100 (.lock .write 7 true false true) }
  else s

/-- **A record that expires is logged as one that does not**; and a record whose lock has been
stolen is migrated while the thief owns its lock. -/
theorem expiring_record_logged_without_expiration :
    (let r := plainMigration.migrateLnSlot noFaults (fun _ s => s) (sharedExpiringAt 5)
    r.outcome = .migrated ∧ ∃ e, r.after.log = r.before.log ++ [(900, e)] ∧
      (parsePayload .updateLN e.writeToLog).map (fun r => (r.key, r.data, r.expiration)) =
        some ([7], some [1, 2], 0) ∧ (recordExpiringAt 5).expiration = 5) ∧
    (∀ k s, Interferes plainMigration.same plainMigration.registry 42 s (thief k s)) ∧
    let r := plainMigration.migrateLnSlot noFaults thief (sharedExpiringAt 0)
    r.outcome = .migrated ∧ (r.before.locks 100).owners = [⟨7, .write⟩] := by
  refine ⟨⟨by decide +kernel, _, rfl, by decide +kernel, rfl⟩, fun k s => ?_, by decide +kernel,
    by decide +kernel⟩
  unfold thief
  split
  · exact .tail (.single (.call 100 (.stealLock 7 fun _ => true) (by decide)))
      (.call 100 (.lock .write 7 true false true) (by decide))
  · exact .refl

end Noxu
