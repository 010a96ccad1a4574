import Noxu.Library.Run
import Noxu.Txn.LockTable
import Noxu.Txn.WriteLocks

/-!
# Strict Two-Phase Locking

The locks of one transaction among those of other lockers. The transaction keeps two maps of
its own, the numbers it has read locks on and those it has write locks on, and the lock
manager keeps the owners and the waiters. One number may stand in both maps: **a read of a record
that the transaction has already written enters the number among the read locks**, although the one
lock the manager holds for it is the write lock.

A request that has to wait stays in the queue of its lock, while the others make their calls, until
one of them makes the transaction an owner or it gives up.

The log numbers of the written records are carried along. They have no counterpart in the
source.

## Main results

* `TwoPhaseInv.step`: what a step that meets the condition preserves;
* `written_stays_locked`: **while no write lock is released as a read lock, what the
  transaction has written stays write locked until its commit is durable or its abort
  releases the locks.**
-/

namespace Noxu

open Library

/-! ### The transaction -/

/-- The states of a transaction. -/
inductive LockerState
  | isOpen
  | mustAbort
  | committed
  | aborted
  deriving DecidableEq

/-- What the lock manager is asked for. -/
inductive LockUse (ι κ : Type)
  /-- `Locker::lock` -/
  | lock (request : LockType)
  /-- `move_write_lock_to_new_lsn` -/
  | move (oldLsn : Lsn)
  /-- `lock_after_lsn_change`, with what the write lock remembers if it is one -/
  | relock (info : Option (WriteLockInfo ι κ))

namespace LockUse

variable {ι κ : Type}

/-- The type of the request. -/
def request : LockUse ι κ → LockType
  | lock request => request
  | move _ | relock (some _) => .write
  | relock none => .read

/-- The request is for the new number of a write lock whose old number has been released. -/
def movesWriteLock : LockUse ι κ → Bool
  | relock (some _) => true
  | _ => false

end LockUse

/-- Where the transaction stands between two calls of the lock manager. -/
inductive LockerPc (ι κ : Type)
  | idle
  /-- in the queue of a lock, or just taken from it; in a wait for a restart nothing is granted -/
  | waiting (lsn : Lsn) (use : LockUse ι κ) (restart : Bool)
  /-- in `lock_after_lsn_change`: the old number is released, the new one not yet locked -/
  | relocking (newLsn : Lsn) (info : Option (WriteLockInfo ι κ))
  /-- in `commit_with_durability`: the read locks are being released -/
  | draining
  /-- the commit record is in the log buffer -/
  | appended

/-- A transaction and the locks of everybody. -/
structure LockingTxn (ι κ : Type) where
  locks : LockTable
  state : LockerState
  prepared : Bool
  cursors : ℕ
  readLocks : List Lsn
  writeLocks : WriteLockMap ι κ
  pc : LockerPc ι κ
  /-- the numbers of the records the transaction has written -/
  written : List Lsn
  /-- the commit is durable, or the abort has released the locks -/
  ended : Bool

/-- What the transaction does or, last, another locker. Whether the manager refuses a locker that
has been preempted, how long it waits and whether the log accepts a record is part of the event. -/
inductive LockingEvent (ι κ : Type)
  | lock (lsn : Lsn) (request : LockType) (nonBlocking refused : Bool)
  | stealLock (lsn : Lsn) (preemptable : Locker → Bool)
  | wakes
  | givesUp
  | releaseLock (lsn : Lsn)
  | demoteLock (lsn : Lsn)
  | moveWriteLockToNewLsn (oldLsn newLsn : Lsn) (refused : Bool)
  | setWriteLockAbortInfo (lsn : Lsn) (image : WriteLockInfo ι κ)
  | lockAfterLsnChange (oldLsn newLsn : Lsn)
  | relock (refused : Bool)
  | registerCursor
  | unregisterCursor
  | setOnlyAbortable
  | prepare (logged : Bool)
  | commit (resolved : Bool)
  | drainReadLock (lsn : Lsn)
  | commitAppendPhase (logged : Bool)
  | commitDurablePhase (durable : Bool)
  | abortCollectUndo
  | releaseAllLocks
  | other (lsn : Lsn) (c : LockCall)

namespace LockingTxn

variable {ι κ : Type} (registry : ShareRegistry) (me : Locker) (s : LockingTxn ι κ)

/-- The read locks with one more. -/
def addReadLock (lsn : Lsn) : List Lsn :=
  if lsn ∈ s.readLocks then s.readLocks else lsn :: s.readLocks

/-- The manager's table after a release by the transaction. -/
def release (lsn : Lsn) : LockTable := s.locks.call registry lsn (.release me true)

/-- What the caller of the lock manager does with the answer. `lock_after_lsn_change` does not look
at it. -/
def finish (lsn : Lsn) (granted : Bool) : LockUse ι κ → LockingTxn ι κ
  | .lock request =>
    if !granted then s
    else if request.isWriteLock then
      { s with readLocks := s.readLocks.erase lsn, writeLocks := s.writeLocks.lock lsn }
    else { s with readLocks := s.addReadLock lsn }
  | .move oldLsn =>
    if !granted then s
    else
      { s with
        writeLocks := s.writeLocks.moveWriteLockToNewLsn oldLsn lsn
        written := if oldLsn ∈ s.written then lsn :: s.written else s.written }
  | .relock (some info) => { s with writeLocks := s.writeLocks.insert lsn info }
  | .relock none => { s with readLocks := s.addReadLock lsn }

/-- The answer of the lock manager. -/
def answer (lsn : Lsn) (use : LockUse ι κ) (nonBlocking : Bool) : LockAttemptResult :=
  ((s.locks lsn).lockWithSharing use.request me nonBlocking false (registry.sharesFn me)).1

/-- Ask the lock manager, and go on with the answer or wait. -/
def ask (lsn : Lsn) (use : LockUse ι κ) (nonBlocking refused : Bool) : LockingTxn ι κ :=
  if refused then { s with pc := .idle }.finish lsn false use
  else
    let asked : LockingTxn ι κ :=
      { s with
        locks := s.locks.call registry lsn (.lock use.request me nonBlocking false true)
        pc := .idle }
    match s.answer registry me lsn use nonBlocking with
    | .grant .waitNew | .grant .waitPromotion => { asked with pc := .waiting lsn use false }
    | .grant .waitRestart => { asked with pc := .waiting lsn use true }
    | .grant grant => asked.finish lsn grant.isGranted use
    | .denied => asked.finish lsn false use

/-- Only an abort may follow. -/
def setOnlyAbortable : LockerState :=
  if s.state = .isOpen then .mustAbort else s.state

/-- The end of a wait by a timeout or as the victim of a deadlock: `validate_ownership_or_flush`. A
request of `Locker::lock` leaves only the abort. -/
def giveUp (lsn : Lsn) (use : LockUse ι κ) (restart : Bool) : LockingTxn ι κ :=
  if ⟨me, use.request⟩ ∈ (s.locks lsn).owners then
    { s with pc := .idle }.finish lsn (!restart) use
  else
    { s with
      locks := s.locks.call registry lsn (.flushWaiter me)
      pc := .idle
      state := match use with
        | .lock _ => s.setOnlyAbortable
        | _ => s.state }.finish lsn false use

/-- Release several numbers. -/
def releaseEach (lsns : List Lsn) : LockTable :=
  lsns.foldl (fun locks lsn => locks.call registry lsn (.release me true)) s.locks

/-- `release_all_locks`, the end of an abort and of a commit that fails. -/
def releaseAllLocks : LockingTxn ι κ :=
  { s with
    locks := s.releaseEach registry me (s.writeLocks.keys ++ s.readLocks)
    writeLocks := ∅
    readLocks := [] }

/-- The commit fails: everything is released, and only an abort may follow. -/
def failCommit : LockingTxn ι κ :=
  { s.releaseAllLocks registry me with state := .mustAbort, pc := .idle }

/-- The lock is demoted in the manager, whose thin form does not look at the locker. -/
def demoteStep (lsn : Lsn) : LockingTxn ι κ :=
  if s.state = .isOpen ∧ lsn ∈ s.writeLocks then
    { s with
      locks := s.locks.call registry lsn (.demote me)
      writeLocks := s.writeLocks.erase lsn
      readLocks := s.addReadLock lsn }
  else s

/-- The first half of `lock_after_lsn_change`: the old number is released first. -/
def lsnChangeStep (oldLsn newLsn : Lsn) : LockingTxn ι κ :=
  match s.writeLocks.lookup oldLsn with
  | some info =>
    { s with
      locks := s.release registry me oldLsn
      writeLocks := s.writeLocks.erase oldLsn
      pc := .relocking newLsn (some info)
      written := s.written.map fun lsn => if lsn = oldLsn then newLsn else lsn }
  | none =>
    if oldLsn ∈ s.readLocks then
      { s with
        locks := s.release registry me oldLsn
        readLocks := s.readLocks.erase oldLsn
        pc := .relocking newLsn none }
    else s

/-- The checks of `commit_with_durability`; `resolved` ends a prepared transaction. -/
def commitStep (resolved : Bool) : LockingTxn ι κ :=
  if resolved ≠ s.prepared then s
  else
    let s := { s with prepared := false }
    if s.state ≠ .isOpen then s.releaseAllLocks registry me
    else if s.cursors ≠ 0 then s
    else { s with pc := .draining }

/-- The calls on the transaction while no other is in progress. -/
def idleStep : LockingEvent ι κ → Option (LockingTxn ι κ)
  | .lock lsn request nonBlocking refused =>
    some (if s.state ≠ .isOpen ∨ request = .none ∨ request = .restart then s
    else s.ask registry me lsn (.lock request) nonBlocking refused)
  | .stealLock lsn preemptable =>
    some { s with locks := s.locks.call registry lsn (.stealLock me preemptable) }
  | .releaseLock lsn =>
    some (if lsn ∈ s.readLocks then
      { s with locks := s.release registry me lsn, readLocks := s.readLocks.erase lsn }
    else s)
  | .demoteLock lsn => some (s.demoteStep registry me lsn)
  | .moveWriteLockToNewLsn oldLsn newLsn refused =>
    some (if oldLsn ∈ s.writeLocks then s.ask registry me newLsn (.move oldLsn) false refused
    else s)
  | .setWriteLockAbortInfo lsn image =>
    some { s with
      writeLocks := s.writeLocks.setWriteLockAbortInfo lsn image
      written := if lsn ∈ s.writeLocks then lsn :: s.written else s.written }
  | .lockAfterLsnChange oldLsn newLsn => some (s.lsnChangeStep registry me oldLsn newLsn)
  | .registerCursor => some { s with cursors := s.cursors + 1 }
  | .unregisterCursor => some { s with cursors := s.cursors - 1 }
  | .setOnlyAbortable => some { s with state := s.setOnlyAbortable }
  | .prepare logged =>
    some (if s.prepared ∨ s.state ≠ .isOpen ∨ s.cursors ≠ 0 ∨ ¬ logged then s
    else { s with prepared := true })
  | .commit resolved => some (s.commitStep registry me resolved)
  | .abortCollectUndo =>
    some { s with state := if s.state = .committed then .committed else .aborted }
  | .releaseAllLocks =>
    if s.state = .aborted then some { s.releaseAllLocks registry me with ended := true } else none
  | _ => none

/-- The ends of a wait: the transaction has been taken from the queue, or it gives up. -/
def waitingStep (lsn : Lsn) (use : LockUse ι κ) (restart : Bool) :
    LockingEvent ι κ → Option (LockingTxn ι κ)
  | .wakes =>
    if ∀ w ∈ (s.locks lsn).waiters, w.locker ≠ me then
      some ({ s with pc := .idle }.finish lsn (!restart) use)
    else none
  | .givesUp => some (s.giveUp registry me lsn use restart)
  | _ => none

/-- The steps of a commit between its phases. -/
def drainingStep : LockingEvent ι κ → Option (LockingTxn ι κ)
  | .drainReadLock lsn =>
    if lsn ∈ s.readLocks then
      some { s with locks := s.release registry me lsn, readLocks := s.readLocks.erase lsn }
    else none
  | .commitAppendPhase logged =>
    if s.readLocks ≠ [] then none
    else if logged then some { s with pc := .appended }
    else some (s.failCommit registry me)
  | _ => none

/-- The end of a commit. -/
def appendedStep : LockingEvent ι κ → Option (LockingTxn ι κ)
  | .commitDurablePhase durable =>
    if durable then
      some { s with
        locks := s.releaseEach registry me s.writeLocks.keys
        writeLocks := ∅
        state := .committed
        pc := .idle
        ended := true }
    else some (s.failCommit registry me)
  | _ => none

/-- A call on the transaction, or the next step of the one in progress. -/
def callStep (e : LockingEvent ι κ) : Option (LockingTxn ι κ) :=
  match s.pc with
  | .idle => s.idleStep registry me e
  | .waiting lsn use restart => s.waitingStep registry me lsn use restart e
  | .relocking newLsn info =>
    match e with
    | .relock refused => some (s.ask registry me newLsn (.relock info) false refused)
    | _ => none
  | .draining => s.drainingStep registry me e
  | .appended => s.appendedStep registry me e

/-- One step of the transaction, or any call of another locker. -/
def step : LockingEvent ι κ → Option (LockingTxn ι κ)
  | .other lsn c =>
    if c.locker = me then none else some { s with locks := s.locks.call registry lsn c }
  | e => s.callStep registry me e

end LockingTxn

/-! ### The invariant -/

section

variable {ι κ : Type} {registry : ShareRegistry} {me : Locker} {s s' : LockingTxn ι κ}
  {lsn : Lsn} {use : LockUse ι κ}

/-- The transaction owns what it has noted as write locked, and has noted what it has written. -/
structure LockingTxn.Strict (me : Locker) (s : LockingTxn ι κ) : Prop where
  owned : ∀ lsn ∈ s.writeLocks, WriteOwner (s.locks lsn).owners me
  written : ∀ lsn ∈ s.written, lsn ∈ s.writeLocks

/-- What the runs keep; while the transaction waits for a write lock, it is in the queue or an
owner. -/
structure TwoPhaseInv (registry : ShareRegistry) (me : Locker) (s : LockingTxn ι κ) : Prop where
  compatible : s.locks.Ok registry
  strict : s.ended = false → s.Strict me
  pending : ∀ lsn use, s.pc = .waiting lsn use false → use.request.isWriteLock = true →
    ⟨me, use.request⟩ ∈ (s.locks lsn).waiters ∨ WriteOwner (s.locks lsn).owners me

/-- The table changes and keeps the write locks of the transaction; it does not wait afterwards. -/
theorem TwoPhaseInv.of_keep (h : TwoPhaseInv registry me s) (hc : s'.locks.Ok registry)
    (hpc : ∀ lsn use, s'.pc ≠ .waiting lsn use false) (hended : s'.ended = s.ended)
    (hstrict : s.Strict me → s'.Strict me) : TwoPhaseInv registry me s' :=
  ⟨hc, fun hlive => hstrict (h.strict (hended ▸ hlive)),
    fun lsn use hwait => absurd hwait (hpc lsn use)⟩

/-- The maps stay, and so does every write lock that is noted. -/
theorem LockingTxn.Strict.of_locks (h : s.Strict me) (hwl : s'.writeLocks = s.writeLocks)
    (hwr : s'.written = s.written)
    (hkeep : ∀ lsn ∈ s.writeLocks, WriteOwner (s.locks lsn).owners me →
      WriteOwner (s'.locks lsn).owners me) : s'.Strict me := by
  refine ⟨fun k hk => ?_, fun k hk => ?_⟩
  · rw [hwl] at hk
    exact hkeep k hk (h.owned k hk)
  · rw [hwr] at hk
    rw [hwl]
    exact h.written k hk

/-- A call on a number leaves the other locks alone. -/
theorem LockingTxn.Strict.call (h : s.Strict me) (registry : ShareRegistry) (c : LockCall)
    (hlsn : lsn ∉ s'.writeLocks)
    (hlocks : s'.locks = s.locks.call registry lsn c) (hwl : ∀ k ∈ s'.writeLocks, k ∈ s.writeLocks)
    (hwr : ∀ k ∈ s'.written, k ∈ s'.writeLocks) : s'.Strict me := by
  refine ⟨fun k hk => ?_, hwr⟩
  have hne : k ≠ lsn := fun hkl => hlsn (hkl ▸ hk)
  rw [hlocks, LockTable.call_of_ne hne]
  exact h.owned k (hwl k hk)

/-- The end of the transaction: what it has written is free. -/
theorem TwoPhaseInv.of_ended (hc : s'.locks.Ok registry) (hpc : s'.pc = .idle)
    (hended : s'.ended = true) : TwoPhaseInv registry me s' := by
  refine ⟨hc, fun hlive => ?_, fun lsn use hwait => ?_⟩
  · rw [hended] at hlive
    cases hlive
  · rw [hpc] at hwait
    cases hwait

theorem LockingTxn.ok_releaseEach (hc : s.locks.Ok registry) (lsns : List Lsn) :
    (s.releaseEach registry me lsns).Ok registry :=
  List.foldlRecOn lsns _ hc fun _ ih lsn _ => ih.call lsn _

/-- A step that ends a wait and changes nothing else. -/
theorem TwoPhaseInv.toIdle (h : TwoPhaseInv registry me s) :
    TwoPhaseInv registry me { s with pc := .idle } :=
  h.of_keep h.compatible (by simp) rfl fun hs => hs.of_locks rfl rfl fun _ _ => id

/-- **The answer is noted.** What is noted as a write lock is one that the manager has granted. -/
theorem TwoPhaseInv.finish (h : TwoPhaseInv registry me s) (hpc : s.pc = .idle) {granted : Bool}
    (hgot : granted = true → use.request.isWriteLock = true → WriteOwner (s.locks lsn).owners me)
    (hmoves : use.movesWriteLock = true → granted = true) :
    TwoPhaseInv registry me (s.finish lsn granted use) := by
  have hidle : ∀ k use, s.pc ≠ .waiting k use false := by simp [hpc]
  cases use with
  | lock request =>
    dsimp only [LockingTxn.finish]
    split
    · exact h
    · next hno =>
      have hgranted : granted = true := by simpa using hno
      split
      · next hwrite =>
        refine h.of_keep h.compatible hidle rfl fun hs => ⟨fun k hk => ?_, fun k hk => ?_⟩
        · obtain rfl | hk := WriteLockMap.mem_lock.mp hk
          · exact hgot hgranted hwrite
          · exact hs.owned k hk
        · exact WriteLockMap.mem_lock.mpr (.inr (hs.written k hk))
      · exact h.of_keep h.compatible hidle rfl fun hs => hs.of_locks rfl rfl fun _ _ => id
  | move oldLsn =>
    dsimp only [LockingTxn.finish]
    split
    · exact h
    · next hno =>
      have hgranted : granted = true := by simpa using hno
      have hmem : ∀ k, k ∈ s.writeLocks.moveWriteLockToNewLsn oldLsn lsn ↔
          (k = lsn ∧ oldLsn ∈ s.writeLocks) ∨ k ∈ s.writeLocks := by
        intro k
        by_cases hin : oldLsn ∈ s.writeLocks
        · simp [WriteLockMap.mem_move hin, hin]
        · simp [WriteLockMap.moveWriteLockToNewLsn, AList.lookup_eq_none.mpr hin, hin]
      refine h.of_keep h.compatible hidle rfl fun hs =>
        ⟨fun k hk => ?_, fun k hk => (hmem k).mpr ?_⟩
      · obtain ⟨rfl, -⟩ | hk := (hmem k).mp hk
        · exact hgot hgranted rfl
        · exact hs.owned k hk
      · dsimp only at hk
        split at hk
        · next hold =>
          obtain rfl | hk := List.mem_cons.mp hk
          · exact .inl ⟨rfl, hs.written oldLsn hold⟩
          · exact .inr (hs.written k hk)
        · exact .inr (hs.written k hk)
  | relock info =>
    cases info with
    | none => exact h.of_keep h.compatible hidle rfl fun hs => hs.of_locks rfl rfl fun _ _ => id
    | some info =>
      refine h.of_keep h.compatible hidle rfl fun hs => ⟨fun k hk => ?_, fun k hk => ?_⟩
      · obtain rfl | hk := (AList.mem_insert _).mp hk
        · exact hgot (hmoves rfl) rfl
        · exact hs.owned k hk
      · exact (AList.mem_insert _).mpr (.inr (hs.written k hk))

/-- **The manager is asked.** A request for the new number of a write lock must not fail. -/
theorem TwoPhaseInv.ask (h : TwoPhaseInv registry me s) {nonBlocking refused : Bool}
    (hmoves : use.movesWriteLock = true → refused = false ∧
      s.answer registry me lsn use nonBlocking ≠ .denied ∧
      s.answer registry me lsn use nonBlocking ≠ .grant .illegalUpgrade) :
    TwoPhaseInv registry me (s.ask registry me lsn use nonBlocking refused) := by
  unfold LockingTxn.ask
  split
  · next hrefused =>
    refine h.toIdle.finish rfl (by simp) fun hm => ?_
    rw [(hmoves hm).1] at hrefused
    cases hrefused
  · obtain ⟨hkeep, hgot⟩ := Lock.lock_self (h.compatible lsn) (u := me) use.request nonBlocking
    -- the table after the request
    have hat : s.locks.call registry lsn (.lock use.request me nonBlocking false true) lsn =
        ((s.locks lsn).lockWithSharing use.request me nonBlocking false
          (registry.sharesFn me)).2 := by
      unfold LockTable.call
      rw [Function.update_self]
      rfl
    have hasked : TwoPhaseInv registry me { s with
        locks := s.locks.call registry lsn (.lock use.request me nonBlocking false true)
        pc := .idle } := by
      refine h.of_keep (h.compatible.call lsn (.lock use.request me nonBlocking false true))
        (by simp) rfl fun hs => hs.of_locks rfl rfl fun k _ hw => ?_
      by_cases hk : k = lsn
      · subst hk
        dsimp only
        rw [hat]
        exact hkeep hw
      · dsimp only
        rwa [LockTable.call_of_ne hk]
    have hwait : s.answer registry me lsn use nonBlocking = .grant .waitNew ∨
        s.answer registry me lsn use nonBlocking = .grant .waitPromotion →
        TwoPhaseInv registry me { s with
          locks := s.locks.call registry lsn (.lock use.request me nonBlocking false true)
          pc := .waiting lsn use false } := by
      intro hwaits
      refine ⟨hasked.compatible, fun hlive => (hasked.strict hlive).of_locks rfl rfl fun _ _ => id,
        fun k use' hpc hwrite => ?_⟩
      cases hpc
      dsimp only
      rw [hat]
      obtain hw | hw := hwaits
      · exact .inl ((hgot hwrite _ hw).2 (.inl rfl))
      · exact .inl ((hgot hwrite _ hw).2 (.inr rfl))
    dsimp only
    split
    · next hans => exact hwait (.inl hans)
    · next hans => exact hwait (.inr hans)
    · exact hasked.of_keep hasked.compatible (by simp) rfl fun hs =>
        hs.of_locks rfl rfl fun _ _ => id
    · next grant _ _ _ hans =>
      refine hasked.finish rfl (fun hg hwrite => ?_) fun hm => ?_
      · dsimp only
        rw [hat]
        exact (hgot hwrite grant hans).1 hg
      · cases grant with
        | new | existing | promotion => rfl
        | illegalUpgrade => exact absurd hans (hmoves hm).2.2
        | waitNew | waitPromotion | waitRestart => simp_all
    · next hans =>
      refine hasked.finish rfl (by simp) fun hm => ?_
      exact absurd hans (hmoves hm).2.1

/-- The transaction gives up a wait. -/
theorem TwoPhaseInv.giveUp (h : TwoPhaseInv registry me s) {restart : Bool}
    (hmoves : use.movesWriteLock = true →
      restart = false ∧ ⟨me, use.request⟩ ∈ (s.locks lsn).owners) :
    TwoPhaseInv registry me (s.giveUp registry me lsn use restart) := by
  unfold LockingTxn.giveUp
  split
  · next howner =>
    refine h.toIdle.finish rfl (fun _ hwrite => ⟨_, howner, rfl, hwrite⟩) fun hm => ?_
    rw [(hmoves hm).1]
    rfl
  · next hno =>
    have hflushed : ∀ state, TwoPhaseInv registry me { s with
        locks := s.locks.call registry lsn (.flushWaiter me), pc := .idle, state := state } := by
      intro state
      refine h.of_keep (h.compatible.call lsn (.flushWaiter me)) (by simp) rfl fun hs =>
        hs.of_locks rfl rfl fun k _ hw => ?_
      by_cases hk : k = lsn
      · subst hk
        dsimp only
        rwa [LockTable.owners_call_self, Lock.owners_apply_flushWaiter]
      · dsimp only
        rwa [LockTable.call_of_ne hk]
    exact (hflushed _).finish rfl (by simp) fun hm => absurd (hmoves hm).2 hno

/-! ### The condition -/

/-- **What keeps the write locks.** The transaction releases a number, as a read lock, only
while it has no write lock on it; it demotes or changes the number of no record it has
written, and a change of number gets the new lock; a commit starts on an open transaction
and the log accepts its record; nobody steals a write lock of it, or demotes one that is thin. -/
def LockingOk (registry : ShareRegistry) (me : Locker) (s : LockingTxn ι κ) :
    LockingEvent ι κ → Prop
  | .releaseLock lsn => lsn ∈ s.readLocks → lsn ∉ s.writeLocks
  | .drainReadLock lsn => lsn ∉ s.writeLocks
  | .demoteLock lsn => lsn ∉ s.written
  | .lockAfterLsnChange oldLsn _ => oldLsn ∉ s.written
  | .relock refused => match s.pc with
    | .relocking newLsn (some info) => refused = false ∧
        s.answer registry me newLsn (.relock (some info)) false ≠ .grant .illegalUpgrade ∧
        s.answer registry me newLsn (.relock (some info)) false ≠ .denied
    | _ => True
  | .wakes => match s.pc with
    | .waiting _ use restart => use.movesWriteLock = true → restart = false
    | _ => True
  | .givesUp => match s.pc with
    | .waiting lsn use restart => use.movesWriteLock = true →
        restart = false ∧ ⟨me, use.request⟩ ∈ (s.locks lsn).owners
    | _ => True
  | .commit resolved => resolved = s.prepared → s.state = .isOpen
  | .commitAppendPhase logged => logged = true
  | .commitDurablePhase durable => durable = true
  | .other lsn c => (s.locks lsn).Spares me c
  | _ => True

instance LockingOk.instDecidable (registry : ShareRegistry) (me : Locker) (s : LockingTxn ι κ)
    (e : LockingEvent ι κ) : Decidable (LockingOk registry me s e) := by
  cases e <;> dsimp only [LockingOk] <;> first | infer_instance | (split <;> infer_instance)

/-! ### Every step keeps the invariant -/

/-- The old number is released, and no written record has it. -/
theorem TwoPhaseInv.lsnChangeStep {oldLsn newLsn : Lsn} (h : TwoPhaseInv registry me s)
    (hold : oldLsn ∉ s.written) :
    TwoPhaseInv registry me (s.lsnChangeStep registry me oldLsn newLsn) := by
  unfold LockingTxn.lsnChangeStep
  split
  · refine h.of_keep (h.compatible.call oldLsn (.release me true)) (by simp) rfl fun hs => ?_
    refine hs.call registry (.release me true) (fun hmem => (AList.mem_erase.mp hmem).1 rfl) rfl
      (fun k hk => (AList.mem_erase.mp hk).2) fun k hk => ?_
    obtain ⟨j, hj, rfl⟩ := List.mem_map.mp hk
    have hne : j ≠ oldLsn := fun hjo => hold (hjo ▸ hj)
    rw [if_neg hne]
    exact AList.mem_erase.mpr ⟨hne, hs.written j hj⟩
  · next hnone =>
    split
    · refine h.of_keep (h.compatible.call oldLsn (.release me true)) (by simp) rfl fun hs => ?_
      exact hs.call registry (.release me true) (AList.lookup_eq_none.mp hnone) rfl
        (fun _ => id) hs.written
    · exact h

theorem TwoPhaseInv.demoteStep (h : TwoPhaseInv registry me s) (hpc : s.pc = .idle)
    (hlsn : lsn ∉ s.written) : TwoPhaseInv registry me (s.demoteStep registry me lsn) := by
  unfold LockingTxn.demoteStep
  split
  · refine h.of_keep (h.compatible.call lsn (.demote me)) (by simp [hpc]) rfl fun hs => ?_
    refine hs.call registry (.demote me) (fun hmem => (AList.mem_erase.mp hmem).1 rfl) rfl
      (fun k hk => (AList.mem_erase.mp hk).2) fun k hk => ?_
    exact AList.mem_erase.mpr ⟨fun hkl => hlsn (hkl ▸ hk), hs.written k hk⟩
  · exact h

/-- A release of a number as a read lock. -/
theorem TwoPhaseInv.releaseRead (h : TwoPhaseInv registry me s)
    (hpc : ∀ lsn use, s.pc ≠ .waiting lsn use false) (hlsn : lsn ∉ s.writeLocks) :
    TwoPhaseInv registry me
      { s with locks := s.release registry me lsn, readLocks := s.readLocks.erase lsn } :=
  h.of_keep (h.compatible.call lsn (.release me true)) hpc rfl fun hs =>
    hs.call registry (.release me true) hlsn rfl (fun _ => id) hs.written

/-- The transaction takes a lock from others. -/
theorem TwoPhaseInv.steal (h : TwoPhaseInv registry me s) (hpc : s.pc = .idle) (lsn : Lsn)
    (preemptable : Locker → Bool) : TwoPhaseInv registry me
      { s with locks := s.locks.call registry lsn (.stealLock me preemptable) } := by
  refine h.of_keep (h.compatible.call lsn (.stealLock me preemptable)) (by simp [hpc]) rfl fun hs =>
    hs.of_locks rfl rfl fun k _ hw => ?_
  by_cases hk : k = lsn
  · subst hk
    dsimp only
    have hnext := (Lock.apply_alike registry (.stealLock me preemptable)
      (s.locks k) nofun).2
    rw [LockTable.owners_call_self, hnext.owners_eq]
    obtain ⟨o, ho, hou, hwrite⟩ := hw
    rw [← Lock.owners_impl] at ho
    exact ⟨o, LockImpl.mem_stealLockPreemptable.mpr ⟨ho, .inl hou⟩, hou, hwrite⟩
  · dsimp only
    rwa [LockTable.call_of_ne hk]

theorem TwoPhaseInv.setAbortInfo (h : TwoPhaseInv registry me s) (hpc : s.pc = .idle)
    {image : WriteLockInfo ι κ} : TwoPhaseInv registry me { s with
      writeLocks := s.writeLocks.setWriteLockAbortInfo lsn image
      written := if lsn ∈ s.writeLocks then lsn :: s.written else s.written } := by
  have hmem : ∀ k, k ∈ s.writeLocks.setWriteLockAbortInfo lsn image ↔ k ∈ s.writeLocks :=
    fun _ => WriteLockMap.mem_setAbortInfo
  refine h.of_keep h.compatible (by simp [hpc]) rfl fun hs =>
    ⟨fun k hk => hs.owned k ((hmem k).mp hk), fun k hk => (hmem k).mpr ?_⟩
  dsimp only at hk
  split at hk
  · next hlsn =>
    obtain rfl | hk := List.mem_cons.mp hk
    · exact hlsn
    · exact hs.written k hk
  · exact hs.written k hk

theorem TwoPhaseInv.idleStep {e : LockingEvent ι κ} (h : TwoPhaseInv registry me s)
    (hpc : s.pc = .idle) (hok : LockingOk registry me s e)
    (hstep : s.idleStep registry me e = some s') : TwoPhaseInv registry me s' := by
  have hidle : ∀ k use, s.pc ≠ .waiting k use false := by simp [hpc]
  -- calls that leave the locks, the write locks and the written records alone
  have hframe : ∀ {s₁ : LockingTxn ι κ}, s₁.locks = s.locks → s₁.ended = s.ended →
      s₁.writeLocks = s.writeLocks → s₁.written = s.written →
      (∀ k use, s₁.pc ≠ .waiting k use false) → TwoPhaseInv registry me s₁ :=
    fun hl he hwl hwr hpc₁ => h.of_keep (hl ▸ h.compatible) hpc₁ he fun hs =>
      hs.of_locks hwl hwr fun _ _ hw => hl ▸ hw
  cases e with
  | lock lsn request nonBlocking refused =>
    obtain rfl := Option.some.inj hstep
    split
    · exact h
    · exact h.ask nofun
  | stealLock lsn preemptable =>
    obtain rfl := Option.some.inj hstep
    exact h.steal hpc lsn preemptable
  | releaseLock lsn =>
    obtain rfl := Option.some.inj hstep
    split
    · next hlsn => exact h.releaseRead hidle (hok hlsn)
    · exact h
  | demoteLock lsn =>
    obtain rfl := Option.some.inj hstep
    exact h.demoteStep hpc hok
  | moveWriteLockToNewLsn oldLsn newLsn refused =>
    obtain rfl := Option.some.inj hstep
    split
    · exact h.ask nofun
    · exact h
  | setWriteLockAbortInfo lsn image =>
    obtain rfl := Option.some.inj hstep
    exact h.setAbortInfo hpc
  | lockAfterLsnChange oldLsn newLsn =>
    obtain rfl := Option.some.inj hstep
    exact h.lsnChangeStep hok
  | registerCursor | unregisterCursor | setOnlyAbortable | abortCollectUndo =>
    obtain rfl := Option.some.inj hstep
    exact hframe rfl rfl rfl rfl hidle
  | prepare logged =>
    obtain rfl := Option.some.inj hstep
    split
    · exact h
    · exact hframe rfl rfl rfl rfl hidle
  | commit resolved =>
    obtain rfl := Option.some.inj hstep
    unfold LockingTxn.commitStep
    split
    · exact h
    · next hres =>
      dsimp only
      rw [if_neg (not_not.mpr (hok (not_not.mp hres)))]
      split
      · exact hframe rfl rfl rfl rfl hidle
      · exact hframe rfl rfl rfl rfl nofun
  | releaseAllLocks =>
    obtain ⟨-, heq⟩ := Option.ite_none_right_eq_some.mp hstep
    obtain rfl := Option.some.inj heq
    exact .of_ended (LockingTxn.ok_releaseEach h.compatible _) hpc rfl
  | wakes | givesUp | relock | drainReadLock | commitAppendPhase | commitDurablePhase | other =>
    cases hstep

/-- The end of a wait: a transaction that was taken from the queue of a write lock owns it. -/
theorem TwoPhaseInv.waitingStep {e : LockingEvent ι κ} {restart : Bool}
    (h : TwoPhaseInv registry me s) (hpc : s.pc = .waiting lsn use restart)
    (hok : LockingOk registry me s e)
    (hstep : s.waitingStep registry me lsn use restart e = some s') :
    TwoPhaseInv registry me s' := by
  unfold LockingTxn.waitingStep at hstep
  split at hstep
  · obtain ⟨hgone, heq⟩ := Option.ite_none_right_eq_some.mp hstep
    obtain rfl := Option.some.inj heq
    simp only [LockingOk, hpc] at hok
    refine h.toIdle.finish rfl (fun hgranted hwrite => ?_) fun hm => by rw [hok hm]; rfl
    obtain rfl : restart = false := by simpa using hgranted
    refine (h.pending lsn use hpc hwrite).resolve_left fun hqueued => ?_
    exact hgone _ hqueued rfl
  · obtain rfl := Option.some.inj hstep
    simp only [LockingOk, hpc] at hok
    exact h.giveUp hok
  · cases hstep

theorem TwoPhaseInv.callStep {e : LockingEvent ι κ} (h : TwoPhaseInv registry me s)
    (hok : LockingOk registry me s e) (hstep : s.callStep registry me e = some s') :
    TwoPhaseInv registry me s' := by
  unfold LockingTxn.callStep at hstep
  split at hstep
  · next hpc => exact h.idleStep hpc hok hstep
  · next hpc => exact h.waitingStep hpc hok hstep
  · next newLsn info hpc =>
    split at hstep
    · next refused =>
      obtain rfl := Option.some.inj hstep
      refine h.ask fun hm => ?_
      cases info with
      | none => cases hm
      | some info =>
        simp only [LockingOk, hpc] at hok
        exact ⟨hok.1, hok.2.2, hok.2.1⟩
    · cases hstep
  · next hpc =>
    unfold LockingTxn.drainingStep at hstep
    split at hstep
    · obtain ⟨-, heq⟩ := Option.ite_none_right_eq_some.mp hstep
      obtain rfl := Option.some.inj heq
      exact h.releaseRead (by simp [hpc]) hok
    · next logged =>
      obtain ⟨-, heq⟩ := Option.ite_none_left_eq_some.mp hstep
      rw [if_pos (show logged = true from hok)] at heq
      obtain rfl := Option.some.inj heq
      exact h.of_keep h.compatible nofun rfl fun hs => hs.of_locks rfl rfl fun _ _ => id
    · cases hstep
  · unfold LockingTxn.appendedStep at hstep
    split at hstep
    · next durable =>
      rw [if_pos (show durable = true from hok)] at hstep
      obtain rfl := Option.some.inj hstep
      exact .of_ended (LockingTxn.ok_releaseEach h.compatible _) rfl rfl
    · cases hstep

/-- **What a step that meets the condition preserves.** -/
theorem TwoPhaseInv.step {e : LockingEvent ι κ} (h : TwoPhaseInv registry me s)
    (hok : LockingOk registry me s e) (hstep : s.step registry me e = some s') :
    TwoPhaseInv registry me s' := by
  cases e with
  | other lsn c =>
    obtain ⟨hne, heq⟩ := Option.ite_none_left_eq_some.mp hstep
    obtain rfl := Option.some.inj heq
    have hspared := LockTable.spared_call h.compatible hne hok
    refine ⟨h.compatible.call lsn c, fun hlive => ?_, fun k use hpc hwrite => ?_⟩
    · exact (h.strict hlive).of_locks rfl rfl fun k _ => (hspared k).writes
    · exact (h.pending k use hpc hwrite).elim
        (fun hqueued => (hspared k).queued _ hqueued rfl hwrite)
        fun hw => .inr ((hspared k).writes hw)
  | _ => exact h.callStep hok hstep

/-! ### Strictness -/

/-- A transaction that has just begun, among lockers that hold the given locks. -/
def LockingTxn.begin (locks : LockTable) : LockingTxn ι κ where
  locks := locks
  state := .isOpen
  prepared := false
  cursors := 0
  readLocks := []
  writeLocks := ∅
  pc := .idle
  written := []
  ended := false

theorem TwoPhaseInv.begin {locks : LockTable} (hc : locks.Ok registry) :
    TwoPhaseInv registry me (LockingTxn.begin locks : LockingTxn ι κ) :=
  ⟨hc, fun _ => ⟨fun _ hlsn => absurd hlsn (AList.notMem_empty _), nofun⟩, nofun⟩

/-- **Strict two-phase locking.** In every run whose steps meet the condition, and until the
commit is durable or the abort releases the locks, the transaction owns a write lock on
every record it has written; and no locker outside its group owns a read or a write lock on it, or
is granted one. -/
theorem written_stays_locked {locks : LockTable} {es : List (LockingEvent ι κ)}
    (hc : locks.Ok registry)
    (hok : Meets (LockingTxn.step registry me) (LockingOk registry me) (.begin locks) es)
    (hrun : run (LockingTxn.step registry me) (.begin locks) es = some s')
    (hlive : s'.ended = false) :
    ∀ lsn ∈ s'.written, WriteOwner (s'.locks lsn).owners me ∧
      ∀ v ≠ me, registry.sharesFn v me = false →
        ∀ request ∈ [LockType.read, .rangeRead, .write, .rangeWrite],
          ⟨v, request⟩ ∉ (s'.locks lsn).owners ∧
          ∀ nonBlocking jump grant,
            ((s'.locks lsn).lockWithSharing request v nonBlocking jump (registry.sharesFn v)).1 =
              .grant grant → grant.isGranted = false := by
  have h : TwoPhaseInv registry me s' :=
    run_invariant (fun _ _ _ hi => TwoPhaseInv.step hi) (TwoPhaseInv.begin hc) hok hrun
  intro lsn hlsn
  have hs := h.strict hlive
  have hw := hs.owned lsn (hs.written lsn hlsn)
  refine ⟨hw, fun v hv hshare request hr => ⟨fun howner => ?_, fun nonBlocking jump grant => ?_⟩⟩
  · obtain ⟨o, ho, hou, hwrite⟩ := hw
    have hallow := (h.compatible lsn).allow o ho _ howner (fun heq => hv (heq.symm.trans hou))
      (by rw [registry.sharesFn_comm, hou]; exact hshare)
    have := LockType.not_of_isWriteLock hwrite hallow
    simp_all
  · refine Lock.answer_of_writes (h.compatible lsn) hw hv hshare ?_ nonBlocking jump
    revert hr
    cases request <;> decide

end

/-- Nobody shares locks. -/
def noGroups : ShareRegistry := fun _ => none

/-- Locker 1 writes a record, now at number 7, reads another, and has appended its commit
record. -/
def writeThenCommit : List (LockingEvent Unit Unit) :=
  [.lock 5 .write false false, .moveWriteLockToNewLsn 5 7 false, .setWriteLockAbortInfo 7 {},
    .lock 9 .read false false, .commit false, .drainReadLock 9, .commitAppendPhase true]

/-- Between the two phases of the commit, locker 2 is not granted a read of the record. -/
theorem write_is_locked_at_append :
    ∃ s', run (LockingTxn.step noGroups 1) (.begin .empty) writeThenCommit = some s' ∧
      7 ∈ s'.written ∧ WriteOwner (s'.locks 7).owners 1 ∧
      ((s'.locks 7).lockWithSharing .read 2 true false (noGroups.sharesFn 2)).1 ≠ .grant .new := by
  obtain ⟨s', hrun, hw, hlive⟩ := exists_run_of_any
    (P := fun s' : LockingTxn Unit Unit => 7 ∈ s'.written ∧ s'.ended = false)
    (show (run (LockingTxn.step noGroups 1) (.begin .empty) writeThenCommit).any _ = true by
      decide +kernel)
  obtain ⟨hown, hnone⟩ := written_stays_locked LockTable.ok_empty
    (show Meets (LockingTxn.step noGroups 1) (LockingOk noGroups 1) _ writeThenCommit by
      decide +kernel)
    hrun hlive 7 hw
  refine ⟨s', hrun, hw, hown, fun hgrant => ?_⟩
  cases (hnone 2 (by decide) rfl .read (by decide)).2 true false .new hgrant

/-- Locker 1 writes a record, reads it and commits; the read lock is released before the
commit record is logged. -/
def writeReadCommit : List (LockingEvent Unit Unit) :=
  [.lock 7 .write false false, .setWriteLockAbortInfo 7 {}, .lock 7 .read false false,
    .commit false, .drainReadLock 7, .other 7 (.lock .read 2 true false true)]

/-- Locker 1 writes a record, and locker 2 demotes the lock, which is thin, and reads it. -/
def demotedByStranger : List (LockingEvent Unit Unit) :=
  [.lock 7 .write false false, .setWriteLockAbortInfo 7 {}, .other 7 (.demote 2),
    .other 7 (.lock .read 2 true true true)]

/-- **The write lock goes with the read lock**: locker 2 reads what locker 1 has written and
not committed. It also does if it demotes the lock first. -/
theorem commit_releases_write_lock_early :
    (∃ s', run (LockingTxn.step noGroups 1) (.begin .empty) writeReadCommit = some s' ∧
      7 ∈ s'.written ∧ s'.ended = false ∧ ¬ WriteOwner (s'.locks 7).owners 1 ∧
      ⟨2, .read⟩ ∈ (s'.locks 7).owners) ∧
    ∃ s', run (LockingTxn.step noGroups 1) (.begin .empty) demotedByStranger = some s' ∧
      7 ∈ s'.written ∧ s'.ended = false ∧ ¬ WriteOwner (s'.locks 7).owners 1 ∧
      ⟨2, .read⟩ ∈ (s'.locks 7).owners := by
  constructor
  all_goals
    refine exists_run_of_any (P := fun s' : LockingTxn Unit Unit => 7 ∈ s'.written ∧
      s'.ended = false ∧ ¬ WriteOwner (s'.locks 7).owners 1 ∧ ⟨2, .read⟩ ∈ (s'.locks 7).owners) ?_
    decide +kernel

end Noxu
