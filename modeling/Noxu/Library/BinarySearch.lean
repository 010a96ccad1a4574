import Mathlib.Data.List.Basic
import Mathlib.Tactic.Basic

/-!
# Binary Search over Lists

The two half-interval loops that array code runs over a sorted slice: a **three-way
search**, which stops at a hit or returns the insertion point, and a **partition
point**, which returns the first index at which a predicate fails. Both are written as
the `lo`/`hi` loop they model, with the slice length as fuel: every turn shrinks the
interval, so the fuel never runs out before the interval is empty.

## Main results

* `binarySearchBy_ok`: a hit is an element that compares equal, at the reported index;
* `binarySearchBy_error`: a miss on a monotone slice splits it at the reported index
  into the smaller and the greater elements;
* `partitionPoint_spec`: on a partitioned slice the reported index separates the
  elements that satisfy the predicate from those that do not.
-/

namespace Noxu.Library

universe u

variable {α : Type u}

/-! ### The loops -/

/-- The three-way half-interval loop over `[lo, hi)`. -/
def bsearchLoop (f : ℕ → Ordering) : ℕ → ℕ → ℕ → Except ℕ ℕ
  | 0, lo, _ => .error lo
  | fuel + 1, lo, hi =>
    if lo < hi then
      let mid := lo + (hi - lo) / 2
      match f mid with
      | .lt => bsearchLoop f fuel (mid + 1) hi
      | .gt => bsearchLoop f fuel lo mid
      | .eq => .ok mid
    else .error lo

/-- The two-way half-interval loop over `[lo, hi)`. -/
def partitionLoop (p : ℕ → Bool) : ℕ → ℕ → ℕ → ℕ
  | 0, lo, _ => lo
  | fuel + 1, lo, hi =>
    if lo < hi then
      let mid := lo + (hi - lo) / 2
      if p mid then partitionLoop p fuel (mid + 1) hi else partitionLoop p fuel lo mid
    else lo

/-- Three-way binary search of a list: `ok` with the index of a hit, or `error` with
the insertion point. The comparison is of the element against the sought key. -/
def binarySearchBy (cmp : α → Ordering) (l : List α) : Except ℕ ℕ :=
  bsearchLoop (fun i => (l[i]?.map cmp).getD .gt) l.length 0 l.length

/-- The first index at which `p` fails, on a list partitioned by `p`. -/
def partitionPoint (p : α → Bool) (l : List α) : ℕ :=
  partitionLoop (fun i => (l[i]?.map p).getD false) l.length 0 l.length

/-- A comparison is monotone along a list: once past the sought key, always past it. -/
def MonotoneAlong (cmp : α → Ordering) (l : List α) : Prop :=
  l.Pairwise fun a b => (cmp b = .lt → cmp a = .lt) ∧ (cmp a = .gt → cmp b = .gt)

theorem binarySearchBy_map {β : Type u} (f : α → β) (cmp : β → Ordering) (l : List α) :
    binarySearchBy cmp (l.map f) = binarySearchBy (fun a => cmp (f a)) l := by
  simp [binarySearchBy, Function.comp_def]

theorem partitionPoint_map {β : Type u} (f : α → β) (p : β → Bool) (l : List α) :
    partitionPoint p (l.map f) = partitionPoint (fun a => p (f a)) l := by
  simp [partitionPoint, Function.comp_def]

/-! ### The index-level specifications -/

/-- A hit of the loop is an index of the interval that compares equal. -/
theorem bsearchLoop_ok {f : ℕ → Ordering} {m : ℕ} :
    ∀ {fuel lo hi : ℕ}, bsearchLoop f fuel lo hi = .ok m → m < hi ∧ f m = .eq := by
  intro fuel
  induction fuel with
  | zero => intro lo hi h; simp [bsearchLoop] at h
  | succ fuel ih =>
    intro lo hi h
    rw [bsearchLoop] at h
    split at h
    · rename_i hlt
      dsimp only at h
      split at h
      · exact ih h
      · have := ih h
        exact ⟨by omega, this.2⟩
      · rename_i heq
        obtain rfl : lo + (hi - lo) / 2 = m := by simpa using h
        exact ⟨by omega, heq⟩
    · simp at h

/-- A miss of the loop separates the smaller indices from the greater ones. -/
theorem bsearchLoop_error {f : ℕ → Ordering} {n m : ℕ}
    (hlt : ∀ i j, i < j → j < n → f j = .lt → f i = .lt)
    (hgt : ∀ i j, i < j → j < n → f i = .gt → f j = .gt) :
    ∀ {fuel lo hi : ℕ}, hi - lo ≤ fuel → lo ≤ hi → hi ≤ n →
      (∀ i < lo, f i = .lt) → (∀ i, hi ≤ i → i < n → f i = .gt) →
      bsearchLoop f fuel lo hi = .error m →
      m ≤ n ∧ (∀ i < m, f i = .lt) ∧ (∀ i, m ≤ i → i < n → f i = .gt) := by
  intro fuel
  induction fuel with
  | zero =>
    intro lo hi hfuel hle hn hlo hhi h
    obtain rfl : lo = m := by simpa [bsearchLoop] using h
    exact ⟨by omega, hlo, fun i hi' => hhi i (by omega)⟩
  | succ fuel ih =>
    intro lo hi hfuel hle hn hlo hhi h
    rw [bsearchLoop] at h
    split at h
    · rename_i hlthi
      dsimp only at h
      split at h
      · rename_i hmid
        refine ih (by omega) (by omega) hn (fun i hi' => ?_) hhi h
        rcases Nat.lt_or_ge i (lo + (hi - lo) / 2) with hi'' | hi''
        · exact hlt i _ hi'' (by omega) hmid
        · obtain rfl : i = lo + (hi - lo) / 2 := by omega
          exact hmid
      · rename_i hmid
        refine ih (by omega) (by omega) (by omega) hlo (fun i hi' hin => ?_) h
        rcases Nat.lt_or_ge (lo + (hi - lo) / 2) i with hi'' | hi''
        · exact hgt _ i hi'' hin hmid
        · obtain rfl : i = lo + (hi - lo) / 2 := by omega
          exact hmid
      · simp at h
    · obtain rfl : lo = m := by simpa using h
      exact ⟨by omega, hlo, fun i hi' => hhi i (by omega)⟩

/-- The two-way loop is the three-way loop of a comparison that never hits. -/
theorem bsearchLoop_ite (p : ℕ → Bool) : ∀ fuel lo hi : ℕ,
    bsearchLoop (fun i => if p i then .lt else .gt) fuel lo hi =
      .error (partitionLoop p fuel lo hi) := by
  intro fuel
  induction fuel with
  | zero => exact fun _ _ => rfl
  | succ fuel ih =>
    intro lo hi
    rw [bsearchLoop, partitionLoop]
    by_cases hlt : lo < hi
    · rw [if_pos hlt, if_pos hlt]
      cases hp : p (lo + (hi - lo) / 2) with
      | true => simp [hp, ih]
      | false => simp [hp, ih]
    · rw [if_neg hlt, if_neg hlt]

/-! ### The list-level specifications -/

private theorem split_at_index {l : List α} {m : ℕ} (h : m ≤ l.length) :
    ∃ pre post, l = pre ++ post ∧ pre.length = m :=
  ⟨l.take m, l.drop m, (List.take_append_drop m l).symm, by simp [h]⟩

/-- **A hit** splits the list at an element that compares equal. -/
theorem binarySearchBy_ok {cmp : α → Ordering} {l : List α} {m : ℕ}
    (h : binarySearchBy cmp l = .ok m) :
    ∃ pre a post, l = pre ++ a :: post ∧ pre.length = m ∧ cmp a = .eq := by
  obtain ⟨hm, hf⟩ := bsearchLoop_ok h
  refine ⟨l.take m, l[m], l.drop (m + 1), ?_, by simp; omega, ?_⟩
  · rw [← List.drop_eq_getElem_cons hm, List.take_append_drop]
  · simpa [List.getElem?_eq_getElem hm] using hf

/-- **A miss** on a monotone list splits it into smaller and greater elements. -/
theorem binarySearchBy_error {cmp : α → Ordering} {l : List α} {m : ℕ}
    (hl : MonotoneAlong cmp l) (h : binarySearchBy cmp l = .error m) :
    ∃ pre post, l = pre ++ post ∧ pre.length = m ∧ (∀ a ∈ pre, cmp a = .lt) ∧
      ∀ a ∈ post, cmp a = .gt := by
  have hpair := List.pairwise_iff_getElem.mp hl
  obtain ⟨hm, hlt, hgt⟩ := bsearchLoop_error (n := l.length) (m := m)
    (f := fun i => (l[i]?.map cmp).getD .gt)
    (fun i j hij hj hfj => by
      have hi : i < l.length := by omega
      simp only [List.getElem?_eq_getElem hi, List.getElem?_eq_getElem hj, Option.map_some,
        Option.getD_some] at hfj ⊢
      exact (hpair i j hi hj hij).1 hfj)
    (fun i j hij hj hfi => by
      have hi : i < l.length := by omega
      simp only [List.getElem?_eq_getElem hi, List.getElem?_eq_getElem hj, Option.map_some,
        Option.getD_some] at hfi ⊢
      exact (hpair i j hi hj hij).2 hfi)
    (by omega) (Nat.zero_le _) (Nat.le_refl _) (by simp) (fun i hi hin => absurd hin (by omega)) h
  obtain ⟨pre, post, rfl, rfl⟩ := split_at_index hm
  refine ⟨pre, post, rfl, rfl, fun a ha => ?_, fun a ha => ?_⟩
  · obtain ⟨i, hi, rfl⟩ := List.getElem_of_mem ha
    simpa [List.getElem?_append_left hi, List.getElem?_eq_getElem hi] using hlt i hi
  · obtain ⟨i, hi, rfl⟩ := List.getElem_of_mem ha
    have := hgt (pre.length + i) (by omega) (by simp; omega)
    simpa [List.getElem?_append_right, List.getElem?_eq_getElem hi] using this

theorem binarySearchBy_ite (p : α → Bool) (l : List α) :
    binarySearchBy (fun a => if p a then .lt else .gt) l = .error (partitionPoint p l) := by
  have hcmp : (fun i : ℕ => (l[i]?.map fun a => if p a then Ordering.lt else .gt).getD .gt) =
      fun i => if (l[i]?.map p).getD false then .lt else .gt := by
    funext i
    cases l[i]? <;> rfl
  rw [binarySearchBy, hcmp, bsearchLoop_ite, partitionPoint]

/-- **The partition point** splits a partitioned list at the first failing element. -/
theorem partitionPoint_spec {p : α → Bool} {l : List α}
    (hl : l.Pairwise fun a b => p b = true → p a = true) :
    ∃ pre post, l = pre ++ post ∧ pre.length = partitionPoint p l ∧
      (∀ a ∈ pre, p a = true) ∧ ∀ a ∈ post, p a = false := by
  have hmono : MonotoneAlong (fun a => if p a then Ordering.lt else .gt) l := by
    refine hl.imp fun {a b} hab => ⟨fun hb => ?_, fun ha => ?_⟩
    · simpa using hab (by simpa using hb)
    · cases hb : p b with
      | true => simp [hab hb] at ha
      | false => simp [hb]
  obtain ⟨pre, post, heq, hlen, hpre, hpost⟩ :=
    binarySearchBy_error hmono (binarySearchBy_ite p l)
  exact ⟨pre, post, heq, hlen, fun a ha => by simpa using hpre a ha,
    fun a ha => by simpa using hpost a ha⟩

theorem partitionPoint_append {p : α → Bool} {l m : List α} (hl : ∀ a ∈ l, p a = true)
    (hm : ∀ a ∈ m, p a = false) : partitionPoint p (l ++ m) = l.length := by
  have hmono : (l ++ m).Pairwise fun a b => p b = true → p a = true := by
    refine List.pairwise_append.mpr ⟨?_, ?_, fun a ha _ _ _ => hl a ha⟩
    · exact List.pairwise_of_forall_mem_list fun a ha _ _ _ => hl a ha
    · exact List.pairwise_of_forall_mem_list fun _ _ b hb h => by simp [hm b hb] at h
  obtain ⟨pre, post, heq, hlen, hpre, hpost⟩ := partitionPoint_spec hmono
  -- both cuts count the elements that satisfy the predicate
  have hcount : ∀ l m : List α, (∀ a ∈ l, p a = true) → (∀ a ∈ m, p a = false) →
      (l ++ m).countP p = l.length := by
    intro l m hl hm
    rw [List.countP_append, List.countP_eq_length.mpr hl,
      List.countP_eq_zero.mpr fun a ha => by simp [hm a ha], Nat.add_zero]
  rw [← hlen, ← hcount pre post hpre hpost, ← heq, hcount l m hl hm]

end Noxu.Library
