import Mathlib.Algebra.Ring.Int.Defs
import Mathlib.Data.List.Basic
import Mathlib.Data.List.Find
import Mathlib.Data.List.Sort
import Mathlib.Tactic.Basic

/-!
# Sorted Slots and Separator Chains

The ordered-key vocabulary of a multi-level search tree, over an arbitrary comparator.
A leaf holds a list of slots sorted by key (`SortedBy`), read by `lookup`. A key range
`[lo, hi)` has optional bounds, absent at the edges of the tree. An upper node is a
**separator chain** (`Chain`): its first entry covers the range from `lo` to the second
entry's key, every later entry covers the range from its own key to the next one, and
the last one ends at `hi`. The key of the first entry takes no part in the chain: it is
the virtual minus infinity of the node.

## Main results

* `chain_append`: cutting a chain at an entry gives two chains that meet at its key;
* `Chain.route`: a key is routed to exactly one entry, and that entry may be replaced
  by any chain over the same range;
* `Chain.contents`: the slots below a chain are sorted and lie in its range;
* `EditsKey.sum_map`: an edit of one key changes a sum over the slots by the slot of the key;
* `alterKey_cut`, `alterKey_sorted`: insertion, update and removal of one key as one function. Two
  keys that compare equal may differ, and then the new slot decides which of them is stored.
-/

open Std

namespace Noxu.Library

universe u v w

variable {K : Type u} {S : Type v} {ε : Type w} (cmp : K → K → Ordering)

/-! ### Sorted slots -/

/-- The keys of a slot list are strictly increasing. -/
def SortedBy (key : S → K) (l : List S) : Prop :=
  l.Pairwise fun a b => cmp (key a) (key b) = .lt

/-- The slot of a key, if the list has one. -/
def lookup (key : S → K) (k : K) (l : List S) : Option S :=
  l.find? fun s => cmp (key s) k == .eq

section Edits

variable {α : Type u} (pre post : List α) (a : α)

/-- Modifying a list at a marked position. -/
theorem modify_length_append (f : α → α) :
    (pre ++ a :: post).modify pre.length f = pre ++ f a :: post := by
  induction pre with
  | nil => rfl
  | cons x xs ih => simpa using ih

/-- Reading a list at a marked position. -/
theorem getElem?_length_append : (pre ++ a :: post)[pre.length]? = some a := by
  simp

/-- Modifying the image of a list, along a pair of functions that commute with it. -/
theorem map_modify {β : Type v} {g : α → β} {f : α → α} {k : β → β}
    (h : ∀ a, g (f a) = k (g a)) (l : List α) (i : ℕ) :
    (l.modify i f).map g = (l.map g).modify i k := by
  induction l generalizing i with
  | nil => simp
  | cons x xs ih =>
    cases i with
    | zero => simp [h]
    | succ i => simpa using ih i

/-- Inserting into a list at a marked position. -/
theorem insertIdx_length_append :
    (pre ++ post).insertIdx pre.length a = pre ++ a :: post := by
  induction pre with
  | nil => simp
  | cons x xs ih => simpa using ih

/-- Erasing a list at a marked position. -/
theorem eraseIdx_length_append : (pre ++ a :: post).eraseIdx pre.length = pre ++ post := by
  induction pre with
  | nil => rfl
  | cons x xs ih => simpa using ih

end Edits

/-- Sortedness is a property of the keys alone. -/
theorem sortedBy_congr {cmp : K → K → Ordering} {key : S → K} {l m : List S}
    (h : l.map key = m.map key) : SortedBy cmp key l ↔ SortedBy cmp key m := by
  simp only [SortedBy, ← List.pairwise_map (f := key) (R := fun a b => cmp a b = .lt), h]

/-- Inserting between the smaller and the greater slots keeps a list sorted. -/
theorem SortedBy.insert {cmp : K → K → Ordering} [TransCmp cmp] {key : S → K}
    {pre post : List S} {s : S} (h : SortedBy cmp key (pre ++ post))
    (hpre : ∀ a ∈ pre, cmp (key a) (key s) = .lt)
    (hpost : ∀ a ∈ post, cmp (key a) (key s) = .gt) :
    SortedBy cmp key (pre ++ s :: post) := by
  obtain ⟨h₁, h₂, h₁₂⟩ := List.pairwise_append.mp h
  refine List.pairwise_append.mpr ⟨h₁, List.pairwise_cons.mpr ⟨fun a ha => ?_, h₂⟩, ?_⟩
  · exact OrientedCmp.lt_of_gt (hpost a ha)
  · intro a ha b hb
    rcases List.mem_cons.mp hb with rfl | hb
    · exact hpre a ha
    · exact h₁₂ a ha b hb

/-- A slot may take a key that compares equal to its own. -/
theorem SortedBy.replace {cmp : K → K → Ordering} [TransCmp cmp] {key : S → K}
    {pre post : List S} {s t : S} (h : SortedBy cmp key (pre ++ s :: post))
    (hst : cmp (key s) (key t) = .eq) : SortedBy cmp key (pre ++ t :: post) := by
  obtain ⟨h₁, h₂, h₁₂⟩ := List.pairwise_append.mp h
  obtain ⟨hs, h₂⟩ := List.pairwise_cons.mp h₂
  refine List.pairwise_append.mpr ⟨h₁, List.pairwise_cons.mpr ⟨fun a ha => ?_, h₂⟩, ?_⟩
  · exact TransCmp.lt_of_eq_of_lt (OrientedCmp.eq_symm hst) (hs a ha)
  · intro a ha b hb
    rcases List.mem_cons.mp hb with rfl | hb
    · exact TransCmp.lt_of_lt_of_eq (h₁₂ a ha s (by simp)) hst
    · exact h₁₂ a ha b (List.mem_cons_of_mem _ hb)

theorem SortedBy.sublist {cmp : K → K → Ordering} {key : S → K} {l m : List S}
    (h : SortedBy cmp key m) (hl : l.Sublist m) : SortedBy cmp key l :=
  List.Pairwise.sublist hl h

section Lookup

variable {cmp} {key : S → K} {k : K} {l m : List S} {s : S}

@[simp] theorem lookup_nil : lookup cmp key k [] = none := rfl

theorem lookup_append :
    lookup cmp key k (l ++ m) = (lookup cmp key k l).or (lookup cmp key k m) := by
  simp [lookup, List.find?_append]

theorem lookup_cons_of_eq (h : cmp (key s) k = .eq) : lookup cmp key k (s :: l) = some s := by
  simp [lookup, h]

theorem lookup_cons_of_ne (h : cmp (key s) k ≠ .eq) :
    lookup cmp key k (s :: l) = lookup cmp key k l := by
  simp [lookup, h]

theorem lookup_eq_none (h : ∀ s ∈ l, cmp (key s) k ≠ .eq) : lookup cmp key k l = none := by
  simpa [lookup] using h

/-- What a lookup returns is a slot of the list with that key. -/
theorem of_lookup_eq_some (h : lookup cmp key k l = some s) : s ∈ l ∧ cmp (key s) k = .eq :=
  ⟨List.mem_of_find?_eq_some h, by simpa using List.find?_some h⟩

/-- A key missing on both sides is looked up in the middle. -/
theorem lookup_middle {n : List S} (hl : ∀ s ∈ l, cmp (key s) k ≠ .eq)
    (hn : ∀ s ∈ n, cmp (key s) k ≠ .eq) :
    lookup cmp key k (l ++ m ++ n) = lookup cmp key k m := by
  simp [lookup_append, lookup_eq_none hl, lookup_eq_none hn]

variable [TransCmp cmp]

/-- In a sorted list every slot is found under its own key. -/
theorem lookup_of_mem (hl : SortedBy cmp key l) (hs : s ∈ l) (hk : cmp (key s) k = .eq) :
    lookup cmp key k l = some s := by
  obtain ⟨pre, post, rfl⟩ := List.append_of_mem hs
  have hpre : ∀ a ∈ pre, cmp (key a) k ≠ .eq := by
    intro a ha hak
    have hlt := (List.pairwise_append.mp hl).2.2 a ha s (by simp)
    simp [TransCmp.lt_of_lt_of_eq hlt hk] at hak
  rw [lookup_append, lookup_eq_none hpre, lookup_cons_of_eq hk]
  rfl

/-- Keys that compare equal have the same slot. -/
theorem lookup_congr {k' : K} (hk : cmp k k' = .eq) :
    lookup cmp key k l = lookup cmp key k' l := by
  refine congrArg (List.find? · l) (funext fun s => ?_)
  rw [TransCmp.congr_right hk]

/-- A sorted slot list is determined by its slots. -/
theorem SortedBy.ext_mem {l' : List S} (hl : SortedBy cmp key l) (hl' : SortedBy cmp key l')
    (h : ∀ s, s ∈ l ↔ s ∈ l') : l = l' := by
  have hirrefl : Std.Irrefl fun a b : S => cmp (key a) (key b) = .lt :=
    ⟨fun a ha => by simp [ReflCmp.compare_self] at ha⟩
  have hantisymm : Std.Antisymm fun a b : S => cmp (key a) (key b) = .lt :=
    ⟨fun a b hab hba => by simp [OrientedCmp.gt_of_lt hab] at hba⟩
  exact List.Pairwise.eq_of_mem_iff hl hl' fun {s} => h s

theorem SortedBy.ext {l' : List S} (hl : SortedBy cmp key l) (hl' : SortedBy cmp key l')
    (h : ∀ k, lookup cmp key k l = lookup cmp key k l') : l = l' := by
  refine hl.ext_mem hl' fun a => ⟨fun ha => ?_, fun ha => ?_⟩
  · exact (of_lookup_eq_some (h (key a) ▸ lookup_of_mem hl ha ReflCmp.compare_self)).1
  · exact (of_lookup_eq_some ((h (key a)).symm ▸ lookup_of_mem hl' ha ReflCmp.compare_self)).1

end Lookup

/-! ### Edits of one key -/

/-- An edit of one key: its slot becomes `g` of what it was, every other key keeps its
slot. -/
structure EditsKey (key : S → K) (k : K) (g : Option S → Option S) (l l' : List S) : Prop where
  here : lookup cmp key k l' = g (lookup cmp key k l)
  elsewhere : ∀ k', cmp k k' ≠ .eq → lookup cmp key k' l' = lookup cmp key k' l

section EditsKey

variable {cmp} {key : S → K} {k : K} {g : Option S → Option S} {l l' pre post : List S}
variable {s t : S}

/-- An edit between slots of other keys. -/
theorem EditsKey.append (h : EditsKey cmp key k g l l')
    (hpre : ∀ s ∈ pre, cmp (key s) k ≠ .eq) (hpost : ∀ s ∈ post, cmp (key s) k ≠ .eq) :
    EditsKey cmp key k g (pre ++ l ++ post) (pre ++ l' ++ post) := by
  refine ⟨?_, fun k' hk' => ?_⟩
  · rw [lookup_middle hpre hpost, lookup_middle hpre hpost, h.here]
  · simp only [lookup_append, h.elsewhere k' hk']

/-- The edit that changes nothing. -/
theorem EditsKey.refl (hg : g (lookup cmp key k l) = lookup cmp key k l) :
    EditsKey cmp key k g l l := ⟨hg.symm, fun _ _ => rfl⟩

theorem EditsKey.comp {g' : Option S → Option S} {l'' : List S}
    (h : EditsKey cmp key k g l l') (h' : EditsKey cmp key k g' l' l'') :
    EditsKey cmp key k (g' ∘ g) l l'' :=
  ⟨by rw [h'.here, h.here]; rfl,
    fun k' hk' => (h'.elsewhere k' hk').trans (h.elsewhere k' hk')⟩

variable [TransCmp cmp]

/-- In a sorted list the slots around a slot of the key belong to other keys. -/
theorem SortedBy.ne_of_middle (h : SortedBy cmp key (pre ++ s :: post))
    (hs : cmp (key s) k = .eq) :
    (∀ a ∈ pre, cmp (key a) k ≠ .eq) ∧ ∀ a ∈ post, cmp (key a) k ≠ .eq := by
  obtain ⟨-, h₂, h₁₂⟩ := List.pairwise_append.mp h
  refine ⟨fun a ha hak => ?_, fun a ha hak => ?_⟩
  · simp [TransCmp.lt_of_lt_of_eq (h₁₂ a ha s (by simp)) hs] at hak
  · have hlt := (List.pairwise_cons.mp h₂).1 a ha
    have hsa : cmp (key s) (key a) = .eq := TransCmp.eq_trans hs (OrientedCmp.eq_symm hak)
    simp [hlt] at hsa

theorem editsKey_replace (h : SortedBy cmp key (pre ++ s :: post)) (hs : cmp (key s) k = .eq)
    (ht : cmp (key t) k = .eq) (hg : g (some s) = some t) :
    EditsKey cmp key k g (pre ++ s :: post) (pre ++ t :: post) := by
  obtain ⟨hpre, hpost⟩ := h.ne_of_middle hs
  have hmid : EditsKey cmp key k g [s] [t] := by
    refine ⟨by rw [lookup_cons_of_eq hs, lookup_cons_of_eq ht, hg], fun k' hk' => ?_⟩
    have hne : ∀ x, cmp (key x) k = .eq → cmp (key x) k' ≠ .eq := fun x hx hxk' =>
      hk' (TransCmp.eq_trans (OrientedCmp.eq_symm hx) hxk')
    rw [lookup_cons_of_ne (hne s hs), lookup_cons_of_ne (hne t ht)]
  simpa using hmid.append hpre hpost

theorem editsKey_erase (h : SortedBy cmp key (pre ++ s :: post)) (hs : cmp (key s) k = .eq)
    (hg : g (some s) = none) : EditsKey cmp key k g (pre ++ s :: post) (pre ++ post) := by
  obtain ⟨hpre, hpost⟩ := h.ne_of_middle hs
  have hmid : EditsKey cmp key k g [s] [] := by
    refine ⟨by rw [lookup_cons_of_eq hs, hg, lookup_nil], fun k' hk' => ?_⟩
    refine (lookup_cons_of_ne fun hsk' => hk' ?_).symm
    exact TransCmp.eq_trans (OrientedCmp.eq_symm hs) hsk'
  simpa using hmid.append hpre hpost

/-- Adding the slot of a key that has none. -/
theorem editsKey_insert (hpre : ∀ a ∈ pre, cmp (key a) k = .lt)
    (hpost : ∀ a ∈ post, cmp (key a) k = .gt) (ht : cmp (key t) k = .eq)
    (hg : g none = some t) : EditsKey cmp key k g (pre ++ post) (pre ++ t :: post) := by
  have hmid : EditsKey cmp key k g [] [t] := by
    refine ⟨by rw [lookup_nil, lookup_cons_of_eq ht, hg], fun k' hk' => ?_⟩
    refine lookup_cons_of_ne fun htk' => hk' ?_
    exact TransCmp.eq_trans (OrientedCmp.eq_symm ht) htk'
  simpa using hmid.append (fun a ha => by simp [hpre a ha]) fun a ha => by simp [hpost a ha]

/-- A sum over a sorted list, the slot of a key apart. -/
theorem SortedBy.sum_map (hl : SortedBy cmp key l) (k : K) (f : S → ℤ) :
    (l.map f).sum = ((lookup cmp key k l).map f).getD 0 +
      ((l.filter fun s => cmp (key s) k != .eq).map f).sum := by
  induction l with
  | nil => rfl
  | cons s l ih =>
    by_cases hs : cmp (key s) k = .eq
    · have hrest : l.filter (fun s => cmp (key s) k != .eq) = l :=
        List.filter_eq_self.mpr fun a ha => by
          simpa using (@SortedBy.ne_of_middle _ _ cmp key k [] l s _ hl hs).2 a ha
      rw [lookup_cons_of_eq hs, List.filter_cons_of_neg (by simp [hs]), hrest]
      simp
    · rw [lookup_cons_of_ne hs, List.filter_cons_of_pos (by simp [hs]), List.map_cons,
        List.map_cons, List.sum_cons, List.sum_cons, ih (List.pairwise_cons.mp hl).2]
      omega

/-- **An edit of one key changes a sum by the slot of the key.** -/
theorem EditsKey.sum_map (h : EditsKey cmp key k g l l') (hl : SortedBy cmp key l)
    (hl' : SortedBy cmp key l') (f : S → ℤ) :
    (l'.map f).sum - ((g (lookup cmp key k l)).map f).getD 0 =
      (l.map f).sum - ((lookup cmp key k l).map f).getD 0 := by
  have hfilter : ∀ (m : List S) (k' : K), SortedBy cmp key m →
      lookup cmp key k' (m.filter fun s => cmp (key s) k != .eq) =
        if cmp k k' = .eq then none else lookup cmp key k' m := by
    intro m k' hm
    split
    · rename_i heq
      refine lookup_eq_none fun s hs hsk => ?_
      have hne := (List.mem_filter.mp hs).2
      simp [TransCmp.eq_trans hsk (OrientedCmp.eq_symm heq)] at hne
    · rename_i hne
      rw [lookup, List.find?_filter]
      refine List.find?_congr fun s _ => ?_
      by_cases hsk : cmp (key s) k' = .eq
      · have : cmp (key s) k ≠ .eq := fun hs =>
          hne (TransCmp.eq_trans (OrientedCmp.eq_symm hs) hsk)
        simp [hsk, this]
      · simp [hsk]
  have hsame : l'.filter (fun s => cmp (key s) k != .eq) =
      l.filter fun s => cmp (key s) k != .eq := by
    refine SortedBy.ext (hl'.sublist List.filter_sublist) (hl.sublist List.filter_sublist)
      fun k' => ?_
    rw [hfilter l' k' hl', hfilter l k' hl]
    split
    · rfl
    · rename_i hne
      exact h.elsewhere k' hne
  rw [hl.sum_map k f, hl'.sum_map k f, h.here, hsame]
  omega

end EditsKey

/-! ### Key ranges -/

/-- `k` is not below the lower bound. -/
def AtLeast (lo : Option K) (k : K) : Prop := ∀ l, lo = some l → (cmp l k).isLE = true

/-- `k` is strictly above the lower bound. -/
def Above (lo : Option K) (k : K) : Prop := ∀ l, lo = some l → cmp l k = .lt

/-- `k` is strictly below the upper bound. -/
def Below (hi : Option K) (k : K) : Prop := ∀ u, hi = some u → cmp k u = .lt

/-- The half-open range `[lo, hi)`. -/
structure InRange (lo hi : Option K) (k : K) : Prop where
  atLeast : AtLeast cmp lo k
  below : Below cmp hi k

/-- A separator strictly inside the range. -/
structure Between (lo hi : Option K) (k : K) : Prop where
  above : Above cmp lo k
  below : Below cmp hi k

section Ranges

variable {cmp} {lo hi : Option K} {a b k : K}

@[simp] theorem atLeast_none : AtLeast cmp none k := by simp [AtLeast]

@[simp] theorem atLeast_some : AtLeast cmp (some a) k ↔ (cmp a k).isLE = true := by
  simp [AtLeast]

@[simp] theorem above_some : Above cmp (some a) k ↔ cmp a k = .lt := by simp [Above]

@[simp] theorem below_none : Below cmp none k := by simp [Below]

@[simp] theorem below_some : Below cmp (some b) k ↔ cmp k b = .lt := by simp [Below]

theorem Above.atLeast (h : Above cmp lo k) : AtLeast cmp lo k :=
  fun l hl => by simp [h l hl]

variable [TransCmp cmp]

theorem AtLeast.trans_lt (h : AtLeast cmp lo a) (hab : cmp a b = .lt) : Above cmp lo b :=
  fun l hl => TransCmp.lt_of_isLE_of_lt (h l hl) hab

theorem AtLeast.trans (h : AtLeast cmp lo a) (hab : (cmp a b).isLE = true) :
    AtLeast cmp lo b :=
  fun l hl => TransCmp.isLE_trans (h l hl) hab

theorem Above.trans_le (h : Above cmp lo a) (hab : (cmp a b).isLE = true) : Above cmp lo b :=
  fun l hl => TransCmp.lt_of_lt_of_isLE (h l hl) hab

theorem Below.trans_lt (h : Below cmp hi b) (hab : cmp a b = .lt) : Below cmp hi a :=
  fun u hu => TransCmp.lt_trans hab (h u hu)

/-- A smaller range is contained in a greater one: raise the upper bound to one that a
separator of the range stays below. -/
theorem InRange.widen_hi (h : InRange cmp lo (some b) k) (hb : Below cmp hi b) :
    InRange cmp lo hi k :=
  ⟨h.atLeast, hb.trans_lt (by simpa using h.below)⟩

/-- Lower the lower bound of a range below one of its separators. -/
theorem InRange.widen_lo (h : InRange cmp (some a) hi k) (ha : AtLeast cmp lo a) :
    InRange cmp lo hi k :=
  ⟨ha.trans (by simpa using h.atLeast), h.below⟩

/-- Two separators in a row, cut either way. -/
theorem between_cut_iff :
    Between cmp lo hi a ∧ Between cmp (some a) hi b ↔
      Between cmp lo (some b) a ∧ Between cmp lo hi b := by
  constructor
  · rintro ⟨h₁, h₂⟩
    have hab : cmp a b = .lt := by simpa using h₂.above
    exact ⟨⟨h₁.above, by simpa using hab⟩, ⟨h₁.above.trans_le (by simp [hab]), h₂.below⟩⟩
  · rintro ⟨h₁, h₂⟩
    have hab : cmp a b = .lt := by simpa using h₁.below
    exact ⟨⟨h₁.above, h₂.below.trans_lt hab⟩, ⟨by simpa using hab, h₂.below⟩⟩

end Ranges

/-! ### Separator chains -/

/-- The entries of an upper node split the range `[lo, hi)`: the first entry starts at
`lo` whatever its own key is, every later one at its key. -/
def Chain (key : ε → K) (P : Option K → Option K → ε → Prop) :
    Option K → Option K → List ε → Prop
  | _, _, [] => False
  | lo, hi, [e] => P lo hi e
  | lo, hi, e :: e' :: es =>
    P lo (some (key e')) e ∧ Between cmp lo hi (key e') ∧
      Chain key P (some (key e')) hi (e' :: es)

section Chains

variable {cmp} {key : ε → K} {P Q : Option K → Option K → ε → Prop}
variable {lo hi : Option K} {e e' : ε} {es l m : List ε} {k : K}

@[simp] theorem chain_nil : Chain cmp key P lo hi [] ↔ False := Iff.rfl

@[simp] theorem chain_singleton : Chain cmp key P lo hi [e] ↔ P lo hi e := Iff.rfl

@[simp] theorem chain_cons_cons :
    Chain cmp key P lo hi (e :: e' :: es) ↔
      P lo (some (key e')) e ∧ Between cmp lo hi (key e') ∧
        Chain cmp key P (some (key e')) hi (e' :: es) := Iff.rfl

theorem Chain.ne_nil (h : Chain cmp key P lo hi l) : l ≠ [] := by
  rintro rfl
  exact h

/-- Every entry of a chain satisfies its predicate over some range. -/
theorem Chain.exists_of_mem :
    ∀ {l : List ε} {lo hi : Option K}, Chain cmp key P lo hi l →
      ∀ e ∈ l, ∃ a b, P a b e
  | [], _, _, h, _, _ => h.elim
  | [x], lo, hi, h, e, he => by
    obtain rfl : e = x := by simpa using he
    exact ⟨lo, hi, h⟩
  | x :: y :: xs, lo, hi, h, e, he => by
    rcases List.mem_cons.mp he with rfl | he
    · exact ⟨lo, some (key y), h.1⟩
    · exact h.2.2.exists_of_mem e he

/-- Entries of a chain may be replaced by others under their keys. -/
theorem Chain.map {g : ε → ε} (hkey : ∀ e, key (g e) = key e)
    (hP : ∀ a b, ∀ e ∈ l, P a b e → P a b (g e)) (h : Chain cmp key P lo hi l) :
    Chain cmp key P lo hi (l.map g) := by
  induction l generalizing lo with
  | nil => exact h
  | cons x xs ih =>
    cases xs with
    | nil => exact hP _ _ x (by simp) h
    | cons y ys =>
      have hrest := ih (fun a b e he => hP a b e (List.mem_cons_of_mem _ he)) h.2.2
      simp only [List.map_cons, chain_cons_cons, hkey] at hrest ⊢
      exact ⟨hP _ _ x (by simp) h.1, h.2.1, hrest⟩

variable [TransCmp cmp]

/-- **Cutting a chain**: a chain cut at an entry is two chains that meet at its key. -/
theorem chain_append (hl : l ≠ []) :
    Chain cmp key P lo hi (l ++ e :: es) ↔
      Chain cmp key P lo (some (key e)) l ∧ Between cmp lo hi (key e) ∧
        Chain cmp key P (some (key e)) hi (e :: es) := by
  induction l generalizing lo with
  | nil => exact absurd rfl hl
  | cons x xs ih =>
    cases xs with
    | nil => simp
    | cons y ys =>
      have hcut : Between cmp lo hi (key y) ∧ Between cmp (some (key y)) hi (key e) ↔
          Between cmp lo (some (key e)) (key y) ∧ Between cmp lo hi (key e) :=
        between_cut_iff
      simp only [List.cons_append, chain_cons_cons] at ih ⊢
      rw [ih (by simp)]
      tauto

/-- The separators of a chain increase and lie inside its range. -/
theorem Chain.tail_sorted (h : Chain cmp key P lo hi (e :: es)) :
    SortedBy cmp key es ∧ ∀ x ∈ es, Between cmp lo hi (key x) := by
  induction es generalizing lo e with
  | nil => exact ⟨List.Pairwise.nil, by simp⟩
  | cons y ys ih =>
    obtain ⟨hs, hb⟩ := ih h.2.2
    refine ⟨List.pairwise_cons.mpr ⟨fun x hx => by simpa using (hb x hx).above, hs⟩, ?_⟩
    intro x hx
    rcases List.mem_cons.mp hx with rfl | hx
    · exact h.2.1
    · have hyx : cmp (key y) (key x) = .lt := by simpa using (hb x hx).above
      exact ⟨h.2.1.above.trans_le (by simp [hyx]), (hb x hx).below⟩

/-- Raising the upper bound of a chain whose entries allow it. -/
theorem Chain.widen_hi {b : K} (hP : ∀ a e, P a (some b) e → P a hi e)
    (hb : Below cmp hi b) (h : Chain cmp key P lo (some b) l) : Chain cmp key P lo hi l := by
  induction l generalizing lo with
  | nil => exact h
  | cons x xs ih =>
    cases xs with
    | nil => exact hP _ _ h
    | cons y ys =>
      exact ⟨h.1, ⟨h.2.1.above, hb.trans_lt (by simpa using h.2.1.below)⟩, ih h.2.2⟩

/-- Lowering the lower bound of a chain whose entries allow it. -/
theorem Chain.widen_lo {a : K} (hP : ∀ b e, P (some a) b e → P lo b e)
    (ha : AtLeast cmp lo a) (h : Chain cmp key P (some a) hi l) : Chain cmp key P lo hi l := by
  cases l with
  | nil => exact h
  | cons x xs =>
    cases xs with
    | nil => exact hP _ _ h
    | cons y ys =>
      exact ⟨hP _ _ h.1, ⟨ha.trans_lt (by simpa using h.2.1.above), h.2.1.below⟩, h.2.2⟩

/-- An entry of a chain may be replaced by one over the same sub-range. -/
theorem Chain.focus {pre post : List ε} (h : Chain cmp key P lo hi (pre ++ e :: post)) :
    ∃ a b, P a b e ∧ ∀ e', key e' = key e → P a b e' →
      Chain cmp key P lo hi (pre ++ e' :: post) := by
  have htail : ∀ lo, Chain cmp key P lo hi (e :: post) →
      ∃ b, P lo b e ∧ ∀ e', P lo b e' → Chain cmp key P lo hi (e' :: post) := by
    intro lo h
    cases post with
    | nil => exact ⟨hi, h, fun _ he' => he'⟩
    | cons y ys => exact ⟨some (key y), h.1, fun _ he' => ⟨he', h.2⟩⟩
  cases pre with
  | nil =>
    obtain ⟨b, hP, hctx⟩ := htail lo h
    exact ⟨lo, b, hP, fun e' _ he' => hctx e' he'⟩
  | cons x xs =>
    obtain ⟨hleft, hsep, hright⟩ := (chain_append (List.cons_ne_nil x xs)).mp h
    obtain ⟨b, hP, hctx⟩ := htail (some (key e)) hright
    refine ⟨some (key e), b, hP, fun e' hkey he' => ?_⟩
    refine (chain_append (List.cons_ne_nil x xs)).mpr ?_
    rw [hkey]
    exact ⟨hleft, hsep, hctx e' he'⟩

/-- **Dropping an entry**: its range goes to a neighbour, if there is one. -/
theorem Chain.drop_entry {pre post : List ε}
    (hlo : ∀ {lo a b e}, AtLeast cmp lo a → P (some a) b e → P lo b e)
    (hhi : ∀ {hi a b e}, Below cmp hi b → P a (some b) e → P a hi e)
    (h : Chain cmp key P lo hi (pre ++ e :: post)) (hne : pre ++ post ≠ []) :
    Chain cmp key P lo hi (pre ++ post) := by
  cases pre with
  | nil =>
    cases post with
    | nil => exact absurd rfl hne
    | cons y ys =>
      exact h.2.2.widen_lo (fun _ _ => hlo h.2.1.above.atLeast) h.2.1.above.atLeast
  | cons x xs =>
    obtain ⟨hleft, hsep, hright⟩ := (chain_append (List.cons_ne_nil x xs)).mp h
    cases post with
    | nil =>
      rw [List.append_nil]
      exact hleft.widen_hi (fun _ _ => hhi hsep.below) hsep.below
    | cons y ys =>
      have hey : cmp (key e) (key y) = .lt := by simpa using hright.2.1.above
      refine (chain_append (List.cons_ne_nil x xs)).mpr ⟨?_, ?_, hright.2.2⟩
      · exact hleft.widen_hi (fun _ _ => hhi (by simpa using hey)) (by simpa using hey)
      · exact ⟨hsep.above.trans_le (by simp [hey]), hright.2.1.below⟩

/-- **Routing**: a key of the range belongs to one entry — the last whose key does not
exceed it — and that entry may be replaced by any chain over the same sub-range. -/
theorem Chain.route {pre post : List ε} (h : Chain cmp key P lo hi (pre ++ e :: post))
    (hk : InRange cmp lo hi k) (hpre : pre ≠ [] → (cmp (key e) k).isLE = true)
    (hpost : ∀ x ∈ post, cmp k (key x) = .lt) :
    ∃ a b, P a b e ∧ InRange cmp a b k ∧
      ∀ m ms, key m = key e → Chain cmp key P a b (m :: ms) →
        Chain cmp key P lo hi (pre ++ m :: ms ++ post) := by
  -- first the tail `e :: post`, over the range that starts at `e`
  have htail : ∀ lo, InRange cmp lo hi k → Chain cmp key P lo hi (e :: post) →
      ∃ b, P lo b e ∧ InRange cmp lo b k ∧
        ∀ m ms, Chain cmp key P lo b (m :: ms) →
          Chain cmp key P lo hi (m :: ms ++ post) := by
    intro lo hk h
    cases post with
    | nil => exact ⟨hi, h, hk, fun m ms hm => by simpa using hm⟩
    | cons y ys =>
      refine ⟨some (key y), h.1, ⟨hk.atLeast, by simpa using hpost y (by simp)⟩, ?_⟩
      intro m ms hm
      rw [List.cons_append, ← List.cons_append]
      exact (chain_append (by simp)).mpr ⟨hm, h.2.1, h.2.2⟩
  cases pre with
  | nil =>
    obtain ⟨b, hP, hkb, hctx⟩ := htail lo hk h
    exact ⟨lo, b, hP, hkb, fun m ms _ hm => hctx m ms hm⟩
  | cons x xs =>
    obtain ⟨hleft, hsep, hright⟩ := (chain_append (List.cons_ne_nil x xs)).mp h
    obtain ⟨b, hP, hkb, hctx⟩ :=
      htail (some (key e)) ⟨by simpa using hpre (by simp), hk.below⟩ hright
    refine ⟨some (key e), b, hP, hkb, fun m ms hkey hm => ?_⟩
    rw [List.append_assoc, List.cons_append]
    refine (chain_append (List.cons_ne_nil x xs)).mpr ?_
    rw [hkey]
    exact ⟨hleft, hsep, by simpa using hctx m ms hm⟩

/-- **Contents of a chain**: if the slots below every entry are sorted and in the
entry's range, the slots below the chain are sorted and in its range. -/
theorem Chain.contents {skey : S → K} {flat : ε → List S}
    (hP : ∀ a b e, P a b e →
      SortedBy cmp skey (flat e) ∧ ∀ s ∈ flat e, InRange cmp a b (skey s))
    (h : Chain cmp key P lo hi l) :
    SortedBy cmp skey (l.flatMap flat) ∧
      ∀ s ∈ l.flatMap flat, InRange cmp lo hi (skey s) := by
  induction l generalizing lo with
  | nil => exact h.elim
  | cons x xs ih =>
    cases xs with
    | nil => simpa using hP _ _ _ h
    | cons y ys =>
      obtain ⟨hsx, hrx⟩ := hP _ _ _ h.1
      obtain ⟨hsy, hry⟩ := ih h.2.2
      rw [List.flatMap_cons]
      refine ⟨List.pairwise_append.mpr ⟨hsx, hsy, fun s hs t ht => ?_⟩, ?_⟩
      · exact TransCmp.lt_of_lt_of_isLE (by simpa using (hrx s hs).below)
          (by simpa using (hry t ht).atLeast)
      · intro s hs
        rcases List.mem_append.mp hs with hs | hs
        · exact (hrx s hs).widen_hi h.2.1.below
        · exact (hry s hs).widen_lo h.2.1.above.atLeast

end Chains

/-! ### Altering one key -/

section AlterKey

variable {K : Type u} {S : Type v} (cmp : K → K → Ordering) (key : S → K)

/-- The slot of the key becomes `g` of what it was. -/
def alterKey (k : K) (g : Option S → Option S) : List S → List S
  | [] => (g none).toList
  | s :: l =>
    match cmp (key s) k with
    | .lt => s :: alterKey k g l
    | .eq => (g (some s)).toList ++ l
    | .gt => (g none).toList ++ s :: l

variable {cmp key} {k k' : K} {g : Option S → Option S} {l : List S}

/-- The function keeps to the key. -/
def AtKey (cmp : K → K → Ordering) (key : S → K) (k : K) (g : Option S → Option S) : Prop :=
  ∀ o, (∀ s ∈ o, cmp (key s) k = .eq) → ∀ t ∈ g o, cmp (key t) k = .eq

variable [TransCmp cmp]

/-- The list around the key: smaller slots, the slot of the key if there is one, and larger
slots. -/
theorem alterKey_cut (k : K) (g : Option S → Option S) (hl : SortedBy cmp key l) :
    ∃ pre o post, l = pre ++ (o.toList ++ post) ∧
      alterKey cmp key k g l = pre ++ ((g o).toList ++ post) ∧
      (∀ a ∈ pre, cmp (key a) k = .lt) ∧ (∀ s ∈ o, cmp (key s) k = .eq) ∧
        ∀ a ∈ post, cmp (key a) k = .gt := by
  induction l with
  | nil => exact ⟨[], none, [], by simp, by simp [alterKey], by simp, by simp, by simp⟩
  | cons s l ih =>
    obtain ⟨hs, hl⟩ := List.pairwise_cons.mp hl
    cases hc : cmp (key s) k with
    | lt =>
      obtain ⟨pre, o, post, hcut, halter, hpre, ho, hpost⟩ := ih hl
      refine ⟨s :: pre, o, post, by rw [hcut, List.cons_append], ?_, ?_, ho, hpost⟩
      · simp only [alterKey, hc, halter, List.cons_append]
      · exact List.forall_mem_cons.mpr ⟨hc, hpre⟩
    | eq =>
      refine ⟨[], some s, l, rfl, by simp only [alterKey, hc, List.nil_append], by simp, ?_, ?_⟩
      · intro t ht
        obtain rfl := Option.some.inj ht
        exact hc
      · intro a ha
        exact OrientedCmp.gt_of_lt (TransCmp.lt_of_eq_of_lt (OrientedCmp.eq_symm hc) (hs a ha))
    | gt =>
      refine ⟨[], none, s :: l, rfl, by simp only [alterKey, hc, List.nil_append], by simp,
        by simp, List.forall_mem_cons.mpr ⟨hc, fun a ha => ?_⟩⟩
      exact OrientedCmp.gt_of_lt (TransCmp.lt_trans (OrientedCmp.lt_of_gt hc) (hs a ha))

/-- **The list stays sorted.** -/
theorem alterKey_sorted (hg : AtKey cmp key k g) (hl : SortedBy cmp key l) :
    SortedBy cmp key (alterKey cmp key k g l) := by
  obtain ⟨pre, o, post, hcut, halter, hpre, ho, hpost⟩ := alterKey_cut k g hl
  rw [halter]
  rw [hcut] at hl
  obtain ⟨hsp, hrest, hbetween⟩ := List.pairwise_append.mp hl
  have hpost' : post.Pairwise fun a b => cmp (key a) (key b) = .lt :=
    (List.pairwise_append.mp hrest).2.1
  have hmid : ∀ t ∈ (g o).toList, cmp (key t) k = .eq := fun t ht =>
    hg o ho t (Option.mem_toList.mp ht)
  refine List.pairwise_append.mpr ⟨hsp, List.pairwise_append.mpr ⟨?_, hpost', ?_⟩, ?_⟩
  · cases g o with
    | none => exact List.Pairwise.nil
    | some t => exact List.pairwise_singleton _ t
  · intro t ht a ha
    exact TransCmp.lt_of_eq_of_lt (hmid t ht) (OrientedCmp.lt_of_gt (hpost a ha))
  · intro a ha b hb
    rcases List.mem_append.mp hb with hb | hb
    · exact TransCmp.lt_of_lt_of_eq (hpre a ha) (OrientedCmp.eq_symm (hmid b hb))
    · exact hbetween a ha b (List.mem_append_right _ hb)

end AlterKey

end Noxu.Library
