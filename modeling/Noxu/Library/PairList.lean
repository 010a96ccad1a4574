import Mathlib.Data.List.Induction
import Mathlib.Data.List.Nodup
import Mathlib.Data.List.Perm.Basic
import Mathlib.Logic.Function.Basic

/-!
# Partial Maps as Lists of Pairs

A partial map kept as an unordered list of pairs, no two of which have one key. The order of the
pairs says nothing, so what an operation does to the map is said up to a permutation of the list.
A loop that remembers the keys it has seen and skips what has one of them leaves such a list.

## Main results

* `Lists.drop`, `Lists.add`, `Lists.filter_ne`, `Lists.relabel`: the lists of a map after a key is
  dropped, added or renamed;
* `Lists.find?`: the search for a key finds its value;
* `Lists.foldl_update`: the map is the one that its pairs are written into;
* `nodup_map_keepFirst`, `mem_map_keepFirst`: each key of a list is kept exactly once;
* `keepFirst_concat`, `keepFirst_congr`: what one more element does, and keys that tell the same
  elements apart.
-/

namespace Noxu.Library

open Function

/-- Remove an element by moving the last one into its place. -/
def swapRemove {α : Type} (l : List α) (i : ℕ) : List α :=
  match l.getLast? with
  | some a => (l.set i a).dropLast
  | none => l

theorem swapRemove_perm {α : Type} {l : List α} {i : ℕ} (hi : i < l.length) :
    (swapRemove l i).Perm (l.eraseIdx i) := by
  induction l using List.reverseRecOn with
  | nil => cases hi
  | append_singleton l a _ =>
    have heq : swapRemove (l ++ [a]) i = ((l ++ [a]).set i a).dropLast := by
      rw [swapRemove, List.getLast?_concat]
    rw [List.length_append, List.length_singleton] at hi
    rw [heq]
    rcases Nat.lt_succ_iff_lt_or_eq.mp hi with hi | rfl
    · rw [List.set_append_left _ _ hi, List.eraseIdx_append_of_lt_length hi, List.dropLast_concat]
      exact (List.set_perm_cons_eraseIdx hi a).trans (List.perm_append_singleton a _).symm
    · rw [List.eraseIdx_append_of_length_le (Nat.le_refl _)]
      simp

/-- An element found in a list stands, up to the order, in front of the others. -/
theorem perm_of_findIdx? {α : Type} {l : List α} {p : α → Bool} {pos : ℕ}
    (hpos : l.findIdx? p = some pos) :
    ∃ a, p a ∧ l[pos]? = some a ∧ l.Perm (a :: l.eraseIdx pos) ∧
      (swapRemove l pos).Perm (l.eraseIdx pos) ∧
      ∀ f, (l.modify pos f).Perm (f a :: l.eraseIdx pos) := by
  obtain ⟨hlt, hp, -⟩ := List.findIdx?_eq_some_iff_getElem.mp hpos
  refine ⟨l[pos], hp, List.getElem?_eq_getElem hlt, (List.getElem_cons_eraseIdx_perm hlt).symm,
    swapRemove_perm hlt, fun f => ?_⟩
  rw [List.modify_eq_take_cons_drop hlt, List.eraseIdx_eq_take_drop_succ]
  exact List.perm_middle

/-- The list holds the pairs of the map, each once. -/
structure Lists {K α : Type} (v : List (K × α)) (m : K → Option α) : Prop where
  nodup : (v.map Prod.fst).Nodup
  mem : ∀ k c, (k, c) ∈ v ↔ m k = some c

variable {K α : Type} {v w : List (K × α)} {m m' : K → Option α} {k : K} {c : α}

theorem Lists.perm (h : Lists v m) (hvw : v.Perm w) : Lists w m :=
  ⟨(hvw.map Prod.fst).nodup_iff.mp h.nodup, fun k c => hvw.mem_iff.symm.trans (h.mem k c)⟩

theorem Lists.nil : Lists ([] : List (K × α)) fun _ => none :=
  ⟨List.nodup_nil, fun _ _ => ⟨nofun, nofun⟩⟩

/-- The keys outside of the list have no value. -/
theorem Lists.eq_none (h : Lists v m) (hk : k ∉ v.map Prod.fst) : m k = none := by
  cases hm : m k with
  | none => rfl
  | some c => exact absurd (List.mem_map.mpr ⟨(k, c), (h.mem k c).mpr hm, rfl⟩) hk

theorem Lists.notMem (h : Lists v m) (hk : m k = none) : k ∉ v.map Prod.fst := by
  intro hmem
  obtain ⟨⟨k', c⟩, hp, rfl⟩ := List.mem_map.mp hmem
  rw [(h.mem k' c).mp hp] at hk
  cases hk

/-- **Renaming.** -/
theorem Lists.relabel (h : Lists v m) (g : K → K)
    (hinj : ∀ i j, m i ≠ none → m j ≠ none → g i = g j → i = j)
    (hmap : ∀ i c, m' i = some c ↔ ∃ j, m j = some c ∧ g j = i) :
    Lists (v.map fun p => (g p.1, p.2)) m' := by
  have hsome : ∀ p ∈ v, m p.1 ≠ none := fun p hp => by
    rw [(h.mem p.1 p.2).mp hp]
    exact Option.some_ne_none p.2
  refine ⟨?_, fun i c => ?_⟩
  · have hkeys : ((v.map fun p => (g p.1, p.2)).map Prod.fst) = (v.map Prod.fst).map g := by
      rw [List.map_map, List.map_map]
      rfl
    rw [hkeys]
    refine List.Nodup.map_on (fun i hi j hj heq => ?_) h.nodup
    obtain ⟨p, hp, rfl⟩ := List.mem_map.mp hi
    obtain ⟨q, hq, rfl⟩ := List.mem_map.mp hj
    exact hinj p.1 q.1 (hsome p hp) (hsome q hq) heq
  · rw [hmap, List.mem_map]
    constructor
    · rintro ⟨p, hp, heq⟩
      obtain ⟨rfl, rfl⟩ := Prod.mk.inj heq
      exact ⟨p.1, (h.mem p.1 p.2).mp hp, rfl⟩
    · rintro ⟨j, hj, rfl⟩
      exact ⟨(j, c), (h.mem j c).mpr hj, rfl⟩

variable [DecidableEq K]

/-- The map without a key. -/
theorem Lists.filter_ne (h : Lists v m) (k : K) :
    Lists (v.filter fun p => p.1 ≠ k) (update m k none) := by
  refine ⟨h.nodup.sublist (List.filter_sublist.map _), fun k' c => ?_⟩
  rw [List.mem_filter, h.mem, decide_eq_true_iff]
  by_cases hk : k' = k
  · rw [hk, update_self]
    exact ⟨fun h => absurd rfl h.2, nofun⟩
  · rw [update_of_ne hk]
    exact and_iff_left hk

theorem Lists.drop (h : Lists ((k, c) :: v) m) : Lists v (update m k none) := by
  have hfilter := h.filter_ne k
  have hk : k ∉ v.map Prod.fst := (List.nodup_cons.mp h.nodup).1
  have hkeep : v.filter (fun p => p.1 ≠ k) = v :=
    List.filter_eq_self.mpr fun p hp =>
      decide_eq_true fun heq => hk (heq ▸ List.mem_map_of_mem hp)
  rwa [List.filter_cons_of_neg (by simp), hkeep] at hfilter

theorem Lists.add (h : Lists v m) (hk : m k = none) (c : α) :
    Lists ((k, c) :: v) (update m k (some c)) := by
  refine ⟨List.nodup_cons.mpr ⟨h.notMem hk, h.nodup⟩, fun k' c' => ?_⟩
  rw [List.mem_cons, h.mem]
  by_cases hk' : k' = k
  · rw [hk', update_self, hk, Prod.mk.injEq, Option.some.injEq]
    exact ⟨fun h => (h.resolve_right nofun).2.symm, fun h => Or.inl ⟨rfl, h.symm⟩⟩
  · rw [update_of_ne hk']
    exact or_iff_right fun heq => hk' (Prod.mk.inj heq).1

theorem Lists.find? (h : Lists v m) (k : K) :
    (v.find? fun p => p.1 == k).map Prod.snd = m k := by
  cases hfind : v.find? fun p => p.1 == k with
  | none =>
    refine (h.eq_none fun hk => ?_).symm
    obtain ⟨p, hp, rfl⟩ := List.mem_map.mp hk
    exact List.find?_eq_none.mp hfind p hp (beq_self_eq_true _)
  | some p =>
    obtain rfl : p.1 = k := by simpa using List.find?_some hfind
    exact ((h.mem p.1 p.2).mp (List.mem_of_find?_eq_some hfind)).symm

/-- **The map of a list**, pair by pair. -/
theorem Lists.foldl_update (h : Lists v m) :
    v.foldl (fun (m : K → Option α) p => update m p.1 (some p.2)) (fun _ => none) = m := by
  induction v using List.reverseRecOn generalizing m with
  | nil => exact funext fun k => (h.eq_none List.not_mem_nil).symm
  | append_singleton v p ih =>
    have hp := h.perm (List.perm_append_singleton p v)
    have hval : m p.1 = some p.2 := (hp.mem p.1 p.2).mp List.mem_cons_self
    rw [List.foldl_concat, ih hp.drop, update_idem, ← hval, update_eq_self]

/-! ### Keeping the first of each key -/

section KeepFirst

variable {α β : Type*} [DecidableEq β] {key : α → β} {xs : List α} {x : α} {b : β}

/-- The elements whose key no earlier element has. -/
def keepFirst (key : α → β) (xs : List α) : List α :=
  xs.foldl (fun kept x => if key x ∈ kept.map key then kept else kept ++ [x]) []

@[simp] theorem keepFirst_nil : keepFirst key [] = [] := rfl

theorem keepFirst_concat (key : α → β) (xs : List α) (x : α) :
    keepFirst key (xs ++ [x]) =
      if key x ∈ (keepFirst key xs).map key then keepFirst key xs else keepFirst key xs ++ [x] := by
  rw [keepFirst, List.foldl_append, List.foldl_cons, List.foldl_nil, keepFirst]

theorem nodup_map_keepFirst (key : α → β) (xs : List α) : ((keepFirst key xs).map key).Nodup := by
  induction xs using List.reverseRecOn with
  | nil => exact List.nodup_nil
  | append_singleton xs x ih =>
    rw [keepFirst_concat]
    split
    · exact ih
    · rename_i hx
      rw [List.map_append, List.map_singleton, ← List.concat_eq_append]
      exact ih.concat hx

theorem mem_map_keepFirst : b ∈ (keepFirst key xs).map key ↔ b ∈ xs.map key := by
  induction xs using List.reverseRecOn with
  | nil => rfl
  | append_singleton xs x ih =>
    rw [keepFirst_concat, List.map_append, List.mem_append, ← ih, List.map_singleton,
      List.mem_singleton]
    split
    · rename_i hx
      exact ⟨.inl, fun h => h.elim id fun hb => hb ▸ hx⟩
    · rw [List.map_append, List.mem_append, List.map_singleton, List.mem_singleton]

theorem mem_keepFirst_concat {y : α} :
    x ∈ keepFirst key (xs ++ [y]) ↔ x ∈ keepFirst key xs ∨ x = y ∧ key y ∉ xs.map key := by
  rw [← mem_map_keepFirst, keepFirst_concat]
  split
  · rename_i hy
    exact ⟨.inl, fun h => h.resolve_right fun hx => hx.2 hy⟩
  · rename_i hy
    rw [List.mem_append, List.mem_singleton, and_iff_left hy]

theorem mem_of_mem_keepFirst (h : x ∈ keepFirst key xs) : x ∈ xs := by
  induction xs using List.reverseRecOn with
  | nil => exact h
  | append_singleton xs y ih =>
    exact List.mem_append.mpr
      ((mem_keepFirst_concat.mp h).imp ih fun hx => List.mem_singleton.mpr hx.1)

/-- Keys that tell the same elements apart keep the same ones. -/
theorem keepFirst_congr {γ : Type*} [DecidableEq γ] {f : α → β} {g : α → γ}
    (h : ∀ x ∈ xs, ∀ y ∈ xs, f x = f y ↔ g x = g y) :
    keepFirst f xs = keepFirst g xs := by
  induction xs using List.reverseRecOn with
  | nil => rfl
  | append_singleton xs x ih =>
    have hx : x ∈ xs ++ [x] := List.mem_append_right _ (List.mem_singleton.mpr rfl)
    have hxs : ∀ y ∈ xs, y ∈ xs ++ [x] := fun y hy => List.mem_append_left _ hy
    have hkept := ih fun y hy z hz => h y (hxs y hy) z (hxs z hz)
    have hmem : f x ∈ (keepFirst g xs).map f ↔ g x ∈ (keepFirst g xs).map g := by
      rw [List.mem_map, List.mem_map]
      exact exists_congr fun y => and_congr_right fun hy =>
        h y (hxs y (mem_of_mem_keepFirst hy)) x hx
    rw [keepFirst_concat, keepFirst_concat, hkept]
    simp only [hmem]

end KeepFirst

end Noxu.Library
