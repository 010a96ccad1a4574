import Mathlib.Algebra.Ring.Nat
import Mathlib.Data.List.Basic
import Mathlib.Order.Fin.Basic
import Mathlib.Tactic.Basic

/-!
# Keys, Comparators and Log Sequence Numbers

The scalar vocabulary of the B+tree: keys are byte strings, compared as unsigned bytes
or by a user comparator, which may take different keys for equal; a log sequence number is a
raw 64-bit value with a null sentinel. The prefix functions are those of the key-compression
code.

## Main results

* `compare_append_left`: stripping a common prefix does not change the byte order;
* `take_getKeyPrefixLength_isPrefix`: the common-prefix length cuts both keys to one prefix.
-/

open Std

namespace Noxu

/-- A key: a byte string. -/
abbrev Key := List UInt8

instance Key.lawfulBEq : LawfulBEq Key := inferInstance

/-- A log sequence number in its raw 64-bit form. -/
abbrev Lsn := Fin (2 ^ 64)

instance Lsn.neZero : NeZero (2 ^ 64 : ℕ) := ⟨by decide⟩

/-- The sentinel of an uninitialised LSN (`u64::MAX`). -/
def nullLsn : Lsn := Fin.last _

/-- A user comparator: a total preorder of the keys. Different keys may compare equal; where a
result needs them told apart it asks for `LawfulEqCmp`. -/
structure KeyComparator where
  /-- The comparison of two full keys. -/
  compare : Key → Key → Ordering
  /-- The comparison is transitive and oriented. -/
  trans : TransCmp compare

/-- The comparison a tree uses: its comparator, or the unsigned byte order. -/
def keyCmp : Option KeyComparator → Key → Key → Ordering
  | some c => c.compare
  | none => compare

@[simp] theorem keyCmp_none : keyCmp none = compare := rfl

@[simp] theorem keyCmp_some (c : KeyComparator) : keyCmp (some c) = c.compare := rfl

instance (c : Option KeyComparator) : TransCmp (keyCmp c) := by
  cases c with
  | none => exact inferInstanceAs (TransCmp (compare : Key → Key → Ordering))
  | some c => exact c.trans

instance : LawfulEqCmp (keyCmp none) :=
  inferInstanceAs (LawfulEqCmp (compare : Key → Key → Ordering))

/-! ### Key prefixes -/

/-- The number of leading bytes two keys have in common. -/
def getKeyPrefixLength : Key → Key → ℕ
  | a :: as, b :: bs => if a = b then getKeyPrefixLength as bs + 1 else 0
  | _, _ => 0

/-- The common leading bytes of two keys, or nothing when they differ at once. -/
def createKeyPrefix (key₁ key₂ : Key) : Option Key :=
  let prefixLen := getKeyPrefixLength key₁ key₂
  if prefixLen = 0 then none else some (key₁.take prefixLen)

theorem take_getKeyPrefixLength_isPrefix (a b : Key) :
    a.take (getKeyPrefixLength a b) <+: b := by
  induction a generalizing b with
  | nil => simp
  | cons x xs ih =>
    cases b with
    | nil => simp [getKeyPrefixLength]
    | cons y ys =>
      rw [getKeyPrefixLength]
      split
      · rename_i hxy
        subst hxy
        simpa using ih ys
      · simp

theorem getKeyPrefixLength_le_length (a b : Key) : getKeyPrefixLength a b ≤ a.length := by
  induction a generalizing b with
  | nil => simp [getKeyPrefixLength]
  | cons x xs ih =>
    cases b with
    | nil => simp [getKeyPrefixLength]
    | cons y ys =>
      rw [getKeyPrefixLength]
      split
      · simpa using ih ys
      · simp

/-- A key that shares less than the whole prefix does not start with it. -/
theorem isPrefix_of_length_le_getKeyPrefixLength {a b : Key}
    (h : a.length ≤ getKeyPrefixLength a b) : a <+: b := by
  have := take_getKeyPrefixLength_isPrefix a b
  rwa [List.take_of_length_le h] at this

theorem createKeyPrefix_isPrefix (a b : Key) :
    (createKeyPrefix a b).getD [] <+: a ∧ (createKeyPrefix a b).getD [] <+: b := by
  unfold createKeyPrefix
  dsimp only
  split
  · simp
  · exact ⟨ List.take_prefix _ _, take_getKeyPrefixLength_isPrefix a b⟩

/-- **Prefix compression keeps the byte order**: stripping a common prefix does not
change how two keys compare. -/
theorem compare_append_left (p a b : Key) : compare (p ++ a) (p ++ b) = compare a b := by
  induction p with
  | nil => rfl
  | cons x xs ih =>
    rw [List.cons_append, List.cons_append, List.compare_cons_cons, ih]
    simp

end Noxu
