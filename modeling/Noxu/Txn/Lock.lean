import Mathlib.Algebra.Ring.Nat
import Mathlib.Tactic.Common

/-!
# The Types of Locks

The types of record locks, and the two tables that decide a request: between the locks of two
lockers, and between two locks of one locker.
-/

namespace Noxu

/-! ### Lock types -/

/-- The types of locks. -/
inductive LockType
  | read
  | write
  | rangeRead
  | rangeWrite
  | rangeInsert
  /-- no lock, for a dirty read -/
  | none
  /-- marks a waiter that must restart -/
  | restart
  deriving DecidableEq

/-- What the lock of one locker says to the request of another. -/
inductive LockConflict
  | allow
  | block
  | restart
  deriving DecidableEq

/-- What becomes of a lock when its locker asks for another type. -/
inductive LockUpgrade
  | illegal
  | existing
  | writePromote
  | rangeReadImmed
  | rangeWriteImmed
  | rangeWritePromote
  deriving DecidableEq

/-- A write type. -/
def LockType.isWriteLock : LockType → Bool
  | .write | .rangeWrite => true
  | _ => false

/-- A type that covers the gap before the record: a next-key lock makes it restart. -/
def LockType.causesRestart : LockType → Bool
  | .rangeRead | .rangeWrite => true
  | _ => false

/-- `held.getConflict requested`, between the locks of two lockers. -/
def LockType.getConflict : LockType → LockType → LockConflict
  | .read, .write => .block
  | .read, .rangeWrite => .block
  | .write, .read => .block
  | .write, .write => .block
  | .write, .rangeRead => .block
  | .write, .rangeWrite => .block
  | .rangeRead, .write => .block
  | .rangeRead, .rangeWrite => .block
  | .rangeRead, .rangeInsert => .block
  | .rangeWrite, .read => .block
  | .rangeWrite, .write => .block
  | .rangeWrite, .rangeRead => .block
  | .rangeWrite, .rangeWrite => .block
  | .rangeWrite, .rangeInsert => .block
  | .rangeInsert, .rangeRead => .restart
  | .rangeInsert, .rangeWrite => .restart
  | _, _ => .allow

/-- `held.getUpgrade requested`, between two locks of one locker. -/
def LockType.getUpgrade : LockType → LockType → LockUpgrade
  | .read, .read => .existing
  | .read, .write => .writePromote
  | .read, .rangeRead => .rangeReadImmed
  | .read, .rangeWrite => .rangeWritePromote
  | .read, .rangeInsert => .illegal
  | .write, .read => .existing
  | .write, .write => .existing
  | .write, .rangeRead => .rangeWriteImmed
  | .write, .rangeWrite => .rangeWriteImmed
  | .write, .rangeInsert => .illegal
  | .rangeRead, .read => .existing
  | .rangeRead, .write => .rangeWritePromote
  | .rangeRead, .rangeRead => .existing
  | .rangeRead, .rangeWrite => .rangeWritePromote
  | .rangeRead, .rangeInsert => .illegal
  | .rangeWrite, .rangeInsert => .illegal
  | .rangeWrite, .read => .existing
  | .rangeWrite, .write => .existing
  | .rangeWrite, .rangeRead => .existing
  | .rangeWrite, .rangeWrite => .existing
  | .rangeInsert, .rangeInsert => .existing
  | .rangeInsert, .none => .existing
  | .rangeInsert, _ => .illegal
  | .none, _ => .illegal
  | _, .none => .existing
  | .restart, _ => .illegal
  | _, .restart => .illegal

/-- The type an upgrade changes the lock to, `none` if the held one is enough. -/
def LockUpgrade.getUpgradeType : LockUpgrade → Option LockType
  | .existing | .illegal => .none
  | .writePromote => some .write
  | .rangeReadImmed => some .rangeRead
  | .rangeWriteImmed | .rangeWritePromote => some .rangeWrite

/-- The upgrade makes a write lock of one that was not. -/
def LockUpgrade.isPromotion : LockUpgrade → Bool
  | .writePromote | .rangeWritePromote => true
  | _ => false

/-- The conflict table allows a pair in both orders or in none. -/
theorem LockType.getConflict_allow_comm (a b : LockType) :
    a.getConflict b = .allow ↔ b.getConflict a = .allow := by
  cases a <;> cases b <;> decide

/-- A lock that is compatible with what a locker holds and with what it asks for is
compatible with what the upgrade gives it. -/
theorem LockType.getConflict_upgrade {held request new other : LockType}
    (hnew : (held.getUpgrade request).getUpgradeType = some new)
    (hheld : other.getConflict held = .allow) (hreq : other.getConflict request = .allow) :
    other.getConflict new = .allow := by
  cases held <;> cases request <;>
    simp only [LockType.getUpgrade, LockUpgrade.getUpgradeType, reduceCtorEq,
      Option.some.injEq] at hnew <;>
    subst hnew <;> cases other <;> first
      | rfl
      | exact absurd hheld (by decide)
      | exact absurd hreq (by decide)

/-! ### Answers -/

/-- The identifier of a locker. -/
abbrev Locker := ℕ

/-- The answers to a request. -/
inductive LockGrantType
  | new
  | existing
  | promotion
  | waitNew
  | waitPromotion
  | waitRestart
  | illegalUpgrade
  deriving DecidableEq

/-- The request is granted. -/
def LockGrantType.isGranted : LockGrantType → Bool
  | .new | .existing | .promotion => true
  | _ => false

end Noxu
