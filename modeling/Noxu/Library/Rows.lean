import Mathlib.Data.List.Basic
import Mathlib.Tactic.Basic

/-!
# Rows of a Flat Buffer

A buffer that holds rows of one width, one after the other, is the concatenation of its rows.
Reading, overwriting, inserting and removing at the offset of a row is what it says on the list
of the rows.

## Main results

* `take_drop_flatten`: a slice from the start of a row;
* `patch_flatten`: overwriting inside of a row;
* `insert_flatten`, `erase_flatten`: a row inserted, a row removed.
-/

namespace Noxu.Library

variable {α : Type*} {w : ℕ} {rows : List (List α)} {i : ℕ} {r : List α}

/-- Overwrite a buffer from an offset on. -/
def patch (buf : List α) (off : ℕ) (xs : List α) : List α :=
  buf.take off ++ xs ++ buf.drop (off + xs.length)

/-- Overwriting stays inside of the part it falls into. -/
theorem patch_append {pre post xs : List α} {j : ℕ} (hfit : j + xs.length ≤ r.length) :
    patch (pre ++ r ++ post) (pre.length + j) xs = pre ++ patch r j xs ++ post := by
  have hj : j ≤ r.length := by omega
  rw [patch, patch, List.append_assoc pre, Nat.add_assoc, List.take_length_add_append,
    List.drop_length_add_append, List.take_append_of_le_length hj,
    List.drop_append_of_le_length hfit]
  simp only [List.append_assoc]

theorem length_patch {buf xs : List α} {off : ℕ} (hfit : off + xs.length ≤ buf.length) :
    (patch buf off xs).length = buf.length := by
  rw [patch, List.length_append, List.length_append, List.length_take, List.length_drop]
  omega

theorem length_flatten_rows (h : ∀ r ∈ rows, r.length = w) :
    rows.flatten.length = rows.length * w := by
  induction rows with
  | nil => simp
  | cons r rows ih =>
    rw [List.flatten_cons, List.length_append, ih fun x hx => h x (List.mem_cons_of_mem _ hx),
      h r List.mem_cons_self, List.length_cons, Nat.add_mul, Nat.one_mul, Nat.add_comm]

/-- The buffer splits at the offset of a row. -/
theorem take_flatten (h : ∀ r ∈ rows, r.length = w) (i : ℕ) :
    rows.flatten.take (i * w) = (rows.take i).flatten ∧
      rows.flatten.drop (i * w) = (rows.drop i).flatten := by
  have hsplit : rows.flatten = (rows.take i).flatten ++ (rows.drop i).flatten := by
    rw [← List.flatten_append, List.take_append_drop]
  have hlen := length_flatten_rows fun r hr => h r (List.mem_of_mem_take (i := i) hr)
  rcases Nat.le_total i rows.length with hi | hi
  · rw [List.length_take, Nat.min_eq_left hi] at hlen
    rw [hsplit, List.take_left' hlen, List.drop_left' hlen]
    exact ⟨rfl, rfl⟩
  · have hle : rows.flatten.length ≤ i * w := by
      rw [length_flatten_rows h]
      exact Nat.mul_le_mul_right w hi
    rw [List.take_of_length_le hle, List.drop_of_length_le hle, List.take_of_length_le hi,
      List.drop_of_length_le hi]
    exact ⟨rfl, rfl⟩

/-- The rows around one of them. -/
theorem flatten_split (h : ∀ r ∈ rows, r.length = w) (hr : rows[i]? = some r) :
    rows.flatten = (rows.take i).flatten ++ r ++ (rows.drop (i + 1)).flatten ∧
      (rows.take i).flatten.length = i * w ∧ r.length = w ∧ i < rows.length := by
  obtain ⟨hi, hget⟩ := List.getElem?_eq_some_iff.mp hr
  have hlen := length_flatten_rows fun x hx => h x (List.mem_of_mem_take (i := i) hx)
  rw [List.length_take, Nat.min_eq_left (Nat.le_of_lt hi)] at hlen
  refine ⟨?_, hlen, h r (hget ▸ List.getElem_mem hi), hi⟩
  rw [List.append_assoc, ← List.flatten_cons, ← hget, ← List.drop_eq_getElem_cons hi,
    ← List.flatten_append, List.take_append_drop]

/-- **A slice from the start of a row.** -/
theorem take_drop_flatten (h : ∀ r ∈ rows, r.length = w) (hr : rows[i]? = some r) {k : ℕ}
    (hk : k ≤ w) : (rows.flatten.drop (i * w)).take k = r.take k := by
  obtain ⟨hsplit, hpre, hw, -⟩ := flatten_split h hr
  rw [hsplit, List.append_assoc, List.drop_left' hpre,
    List.take_append_of_le_length (hw.symm ▸ hk)]

/-- **Overwriting inside of a row.** -/
theorem patch_flatten (h : ∀ r ∈ rows, r.length = w) (hr : rows[i]? = some r) {j : ℕ}
    {xs : List α} (hfit : j + xs.length ≤ w) :
    patch rows.flatten (i * w + j) xs = (rows.set i (patch r j xs)).flatten := by
  obtain ⟨hsplit, hpre, hw, hi⟩ := flatten_split h hr
  rw [hsplit, ← hpre, patch_append (hw.symm ▸ hfit), List.set_eq_take_append_cons_drop,
    if_pos hi, List.flatten_append, List.flatten_cons, List.append_assoc]

theorem insertIdx_eq_take_append {l : List α} (hi : i ≤ l.length) (a : α) :
    l.insertIdx i a = l.take i ++ a :: l.drop i := by
  induction l generalizing i with
  | nil =>
    obtain rfl : i = 0 := by simpa using hi
    rfl
  | cons b l ih =>
    cases i with
    | zero => rfl
    | succ i =>
      rw [List.insertIdx_succ_cons, ih (Nat.le_of_succ_le_succ hi)]
      rfl

/-- **A row inserted.** -/
theorem insert_flatten (h : ∀ r ∈ rows, r.length = w) (hi : i ≤ rows.length) (r : List α) :
    rows.flatten.take (i * w) ++ r ++ rows.flatten.drop (i * w) =
      (rows.insertIdx i r).flatten := by
  rw [(take_flatten h i).1, (take_flatten h i).2, insertIdx_eq_take_append hi,
    List.flatten_append, List.flatten_cons, List.append_assoc]

/-- **A row removed.** -/
theorem erase_flatten (h : ∀ r ∈ rows, r.length = w) (i : ℕ) :
    rows.flatten.take (i * w) ++ rows.flatten.drop (i * w + w) = (rows.eraseIdx i).flatten := by
  have hnext : i * w + w = (i + 1) * w := (Nat.succ_mul i w).symm
  rw [hnext, (take_flatten h i).1, (take_flatten h (i + 1)).2, List.eraseIdx_eq_take_drop_succ,
    List.flatten_append]

end Noxu.Library
