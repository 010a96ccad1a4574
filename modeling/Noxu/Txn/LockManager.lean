import Mathlib.Data.List.AList
import Noxu.Library.Run
import Noxu.Library.Search
import Noxu.Tree.Key
import Noxu.Txn.LockImpl

/-!
# The Lock Manager

The table of locks, the lockers that wait, and the **waits-for graph** the deadlock check
reads. The graph is a table of its own: a locker enters it with the owners it found when it
began to wait, and leaves it when its wait ends. Nothing updates the entry in between, while
the owners of the lock may change.

A locker waits in one call at a time. The shards of the table, the statistics, the memory
charge and the preemption marks are left out. A hash set is iterated in any order: the order
is an argument of the check.
-/

namespace Noxu

open Library

/-! ### The detector -/

/-- `DeadlockDetector::detect`: a search from every owner for a path back. -/
def detect (next : Locker → List Locker) (bound : ℕ) (requester : Locker) :
    List Locker → Option (List Locker)
  | [] => none
  | owner :: owners =>
    if owner = requester then detect next bound requester owners
    else
      let (found, _, path) := dfs next requester bound owner [] [requester, owner]
      if found then some path else detect next bound requester owners

/-- The order in which victims are preferred: fewest locks, then the youngest. -/
def preferred (counts : Locker → ℕ) (u v : Locker) : Bool :=
  decide (counts u < counts v) || (decide (counts u = counts v) && decide (v < u))

/-- `DeadlockDetector::select_victim`. -/
def selectVictim (counts : Locker → ℕ) : List Locker → Option Locker
  | [] => none
  | u :: us => some (us.foldl (fun best v => if preferred counts v best then v else best) u)

/-! ### The manager -/

/-- Where a locker stands in `lock_with_timeout_and_txn`. -/
inductive WaitPc
  /-- queued on the lock, not yet in the graph -/
  | queued (lsn : Lsn) (request : LockType) (ownerIds : List Locker)
  /-- in the wait loop -/
  | waiting (lsn : Lsn) (request : LockType)

/-- The locks, the waiting threads and the graph of who waits for whom. -/
structure LockManager where
  table : AList fun _ : Lsn => Lock
  waiterGraph : AList fun _ : Locker => List Locker
  threads : AList fun _ : Locker => WaitPc
  /-- whose notify flag is set -/
  granted : List Locker

/-- How a check ends: the wait goes on, or the lock has been granted meanwhile, or the
locker is the victim. -/
inductive CheckResult
  | goesOn
  | granted
  | deadlock
  deriving DecidableEq

/-- The owners of a lock. -/
def Lock.ownerIds (l : Lock) : List Locker := l.owners.map LockInfo.locker

/-- The locker is an owner with this type. -/
def Lock.isOwner (l : Lock) (u : Locker) (t : LockType) : Bool :=
  decide (⟨u, t⟩ ∈ l.owners)

namespace LockManager

/-- No locks. -/
def empty : LockManager where
  table := ∅
  waiterGraph := ∅
  threads := ∅
  granted := []

variable (s : LockManager)

/-- The owners of the lock of a record. -/
def ownerIds (lsn : Lsn) : List Locker :=
  match s.table.lookup lsn with
  | some lock => lock.ownerIds
  | none => []

/-- The same for the lock of a record. -/
def isOwner (lsn : Lsn) (u : Locker) (t : LockType) : Bool :=
  match s.table.lookup lsn with
  | some lock => lock.isOwner u t
  | none => false

/-- `compute_lock_counts`, for one locker. -/
def lockCount (u : Locker) : ℕ :=
  (s.table.entries.map fun e => e.2.ownerIds.count u).sum

/-- A lock without owners and waiters leaves the table. -/
def putLock (lsn : Lsn) (lock : Lock) : LockManager :=
  { s with
    table :=
      if lock.owners = [] ∧ lock.waiters = [] then s.table.erase lsn
      else s.table.insert lsn lock }

/-- The end of a wait: out of the graph and out of the call. -/
def endWait (u : Locker) : LockManager :=
  { s with
    waiterGraph := s.waiterGraph.erase u
    threads := s.threads.erase u
    granted := s.granted.erase u }

/-- `validate_ownership_or_flush`: is the lock granted already? If not the waiter is
dropped. -/
def validateOwnershipOrFlush (lsn : Lsn) (u : Locker) (request : LockType) :
    Bool × LockManager :=
  match s.table.lookup lsn with
  | some lock =>
    if lock.isOwner u request then (true, s) else (false, s.putLock lsn (lock.flushWaiter u))
  | none => (false, s)

/-- The snapshot of the graph, with an entry for the requester. -/
def waitsForMap (u : Locker) (ownerIds : List Locker) : AList fun _ : Locker => List Locker :=
  if u ∈ s.waiterGraph then s.waiterGraph else s.waiterGraph.insert u ownerIds

/-- `check_deadlock_for_waiter`; `iterate` is the order of each hash set. -/
def checkDeadlockForWaiter (iterate : Locker → List Locker → List Locker) (u : Locker)
    (ownerIds : List Locker) : Bool :=
  let waitsFor := s.waitsForMap u ownerIds
  let next (v : Locker) : List Locker := iterate v ((waitsFor.lookup v).getD [])
  match detect next (waitsFor.keys.length + 1) u ownerIds with
  | none => false
  | some cycle =>
    -- a member that owns nothing shows that an edge is stale
    if cycle.any fun v => decide (s.lockCount v = 0) then false
    else decide (selectVictim s.lockCount cycle = some u)

/-- One turn of the wait loop: the check against the current owners, and its end if the
locker is the victim. -/
def check (iterate : Locker → List Locker → List Locker) (u : Locker) :
    CheckResult × LockManager :=
  match s.threads.lookup u with
  | some (.waiting lsn request) =>
    if s.checkDeadlockForWaiter iterate u (s.ownerIds lsn) then
      let (owner, s') := s.validateOwnershipOrFlush lsn u request
      (if owner then .granted else .deadlock, s'.endWait u)
    else (.goesOn, s)
  | _ => (.goesOn, s)

/-- The lockers run a check each, one after the other; was one of them a victim? -/
def someVictim : LockManager → List (Locker × (Locker → List Locker → List Locker)) → Bool
  | _, [] => false
  | s, (u, iterate) :: checks =>
    decide ((s.check iterate u).1 = .deadlock) || someVictim (s.check iterate u).2 checks

end LockManager

/-! ### Its steps -/

/-- What happens to the lock manager. -/
inductive LockManagerEvent
  | lock (u : Locker) (lsn : Lsn) (request : LockType) (nonBlocking jumpAheadOfWaiters : Bool)
  | recordWait (u : Locker)
  | check (u : Locker) (iterate : Locker → List Locker → List Locker)
  | timeout (u : Locker)
  | wake (u : Locker)
  | release (u : Locker) (lsn : Lsn)
  | demote (u : Locker) (lsn : Lsn)
  | stealLock (u : Locker) (lsn : Lsn) (preemptable : Locker → Bool)

namespace LockManager

variable (registry : ShareRegistry) (s : LockManager)

/-- Phase 1 of a request. -/
def lockStep (u : Locker) (lsn : Lsn) (request : LockType)
    (nonBlocking jumpAheadOfWaiters : Bool) : LockManager :=
  if request = .none ∨ request = .restart then s
  else
    let lock := (s.table.lookup lsn).getD (.new false)
    let (result, lock') :=
      lock.lockWithSharing request u nonBlocking jumpAheadOfWaiters (registry.sharesFn u)
    let s := { s with table := s.table.insert lsn lock' }
    match result with
    | .grant .waitNew | .grant .waitPromotion | .grant .waitRestart =>
      { s with
        threads := s.threads.insert u (.queued lsn request lock'.ownerIds)
        granted := s.granted.erase u }
    | _ => s

/-- **One event.** -/
def step : LockManagerEvent → Option LockManager
  | .lock u lsn request nonBlocking jump =>
    if u ∈ s.threads then none
    else some (s.lockStep registry u lsn request nonBlocking jump)
  | .recordWait u =>
    match s.threads.lookup u with
    | some (.queued lsn request ownerIds) =>
      some { s with
        waiterGraph := s.waiterGraph.insert u ownerIds
        threads := s.threads.insert u (.waiting lsn request) }
    | _ => none
  | .check u iterate => some (s.check iterate u).2
  | .timeout u =>
    match s.threads.lookup u with
    | some (.queued lsn request _) | some (.waiting lsn request) =>
      some ((s.validateOwnershipOrFlush lsn u request).2.endWait u)
    | none => none
  | .wake u =>
    match s.threads.lookup u with
    | some (.waiting _ _) => if u ∈ s.granted then some (s.endWait u) else none
    | _ => none
  | .release u lsn =>
    match s.table.lookup lsn with
    | some lock =>
      let (notify, lock') := lock.releaseWithSharing u (registry.sharesFn u)
      some { s.putLock lsn lock' with granted := notify.getD [] ++ s.granted }
    | none => some s
  | .demote u lsn =>
    match s.table.lookup lsn with
    | some lock => some { s with table := s.table.insert lsn (lock.demote u) }
    | none => some s
  | .stealLock u lsn preemptable =>
    let lock := (s.table.lookup lsn).getD (.new false)
    some { s with table := s.table.insert lsn (lock.stealLockPreemptable u preemptable) }

end LockManager

end Noxu
