import Mathlib.Data.List.MinMax
import Noxu.Library.PairList
import Noxu.Library.Run

/-!
# The Children of a Node

A node keeps the children that are in memory in one of three forms: none at all, a few pairs of a
slot and a child in no order, or a vector with one place for each slot. A node goes from one form
to the next as children are set, and back when it is compacted.

The slots of the pairs are 16 bits wide, and the number of entries of a node is not checked against
that: a child of slot 65536 or above that becomes one of the pairs is found at another slot.

## Main results

* `TargetRep.Represents.set`, `TargetRep.Represents.insertShift`,
  `TargetRep.Represents.removeShift`, `TargetRep.Represents.compact`: what the operations do to the
  children;
* `target_rep_right_iff`: the children of a node are those of a plain map throughout a sequence of
  calls exactly if no pair is ever needed for a slot of 65536 or above.
-/

namespace Noxu

open Library Function

/-- The three forms (`TargetRep`). -/
inductive TargetRep (α : Type) where
  | protected none
  /-- A few slots with their children. -/
  | sparse (v : List (UInt16 × α))
  /-- One place for each slot. -/
  | default (v : List (Option α))
  deriving DecidableEq, Repr

namespace TargetRep

variable {α : Type}

/-- The number of pairs above which a vector is used (`SPARSE_MAX_ENTRIES`). -/
def sparseMaxEntries : ℕ := 4

/-- The child of a slot. -/
def get : TargetRep α → ℕ → Option α
  | .none, _ => none
  | sparse v, idx => (v.find? fun p => p.1.toNat == idx).map Prod.snd
  | default v, idx => v[idx]?.join

/-- The pair of a slot. -/
def position (v : List (UInt16 × α)) (idx : ℕ) : Option ℕ :=
  v.findIdx? fun p => p.1.toNat == idx

/-- The vector of the pairs and one more child, as long as its highest slot needs. -/
def inflated (v : List (UInt16 × α)) (idx : ℕ) (child : α) : List (Option α) :=
  let cap := max ((v.map fun p => p.1.toNat).foldr max 0) idx + 1
  (v.foldl (fun d p => d.set p.1.toNat (some p.2)) (List.replicate cap none)).set idx (some child)

/-- Set or clear the child of a slot. -/
def set (rep : TargetRep α) (idx : ℕ) (node : Option α) : TargetRep α :=
  match rep with
  | .none =>
    match node with
    | some child => sparse [(UInt16.ofNat idx, child)]
    | none => .none
  | sparse v =>
    match position v idx, node with
    | some pos, some child => sparse (v.modify pos fun p => (p.1, child))
    | some pos, none => sparse (swapRemove v pos)
    | none, none => sparse v
    | none, some child =>
      if v.length < sparseMaxEntries then sparse (v ++ [(UInt16.ofNat idx, child)])
      else default (inflated v idx child)
  | default v =>
    if idx < v.length then default (v.set idx node)
    else if node.isNone then default v
    else default ((v ++ List.replicate (idx + 1 - v.length) none).set idx node)

/-- Clear a slot and return its child. -/
def take (rep : TargetRep α) (idx : ℕ) : TargetRep α × Option α :=
  match rep with
  | .none => (.none, none)
  | sparse v =>
    match position v idx with
    | some pos => (sparse (swapRemove v pos), v[pos]?.map Prod.snd)
    | none => (sparse v, none)
  | default v => (default (v.set idx none), v[idx]?.join)

/-- A slot is inserted, the later ones move up. The increment wraps. -/
def insertShift (rep : TargetRep α) (idx : ℕ) : TargetRep α :=
  match rep with
  | .none => .none
  | sparse v => sparse (v.map fun p => (if idx ≤ p.1.toNat then p.1 + 1 else p.1, p.2))
  | default v => default (if idx ≤ v.length then v.insertIdx idx none else v)

/-- A slot is removed, the later ones move down. -/
def removeShift (rep : TargetRep α) (idx : ℕ) : TargetRep α :=
  match rep with
  | .none => .none
  | sparse v =>
    sparse ((v.filter fun p => p.1.toNat ≠ idx).map fun p =>
      (if idx < p.1.toNat then p.1 - 1 else p.1, p.2))
  | default v => default (if idx < v.length then v.eraseIdx idx else v)

/-- The number of children in memory. -/
def residentCount : TargetRep α → ℕ
  | .none => 0
  | sparse v => v.length
  | default v => v.countP Option.isSome

/-- The pairs of a vector. -/
def pairsOf (v : List (Option α)) : List (UInt16 × α) :=
  v.zipIdx.filterMap fun p => p.1.map fun c => (UInt16.ofNat p.2, c)

/-- Go back to the smallest form. -/
def compact (rep : TargetRep α) : TargetRep α :=
  if rep.residentCount = 0 then .none
  else
    match rep with
    | .none => .none
    | sparse v => sparse v
    | default v =>
      if v.countP Option.isSome ≤ sparseMaxEntries then sparse (pairsOf v) else default v

end TargetRep

/-! ### Calls -/

/-- A call to the children of a node. -/
inductive TargetCall (α : Type) where
  | get (idx : ℕ)
  | set (idx : ℕ) (node : Option α)
  | take (idx : ℕ)
  | insertShift (idx : ℕ)
  | removeShift (idx : ℕ)
  | compact
  deriving DecidableEq, Repr

variable {α : Type}

/-- A call to the representation, with the child it returns. -/
def TargetRep.step (rep : TargetRep α) : TargetCall α → TargetRep α × Option α
  | .get idx => (rep, rep.get idx)
  | .set idx node => (rep.set idx node, none)
  | .take idx => rep.take idx
  | .insertShift idx => (rep.insertShift idx, none)
  | .removeShift idx => (rep.removeShift idx, none)
  | .compact => (rep.compact, none)

/-- The children after a slot is inserted. -/
def shiftedUp (m : ℕ → Option α) (idx i : ℕ) : Option α :=
  if i < idx then m i else if i = idx then none else m (i - 1)

/-- The children after a slot is removed. -/
def shiftedDown (m : ℕ → Option α) (idx i : ℕ) : Option α :=
  if i < idx then m i else m (i + 1)

/-- The same call to a plain map. -/
def childStep (m : ℕ → Option α) : TargetCall α → (ℕ → Option α) × Option α
  | .get idx => (m, m idx)
  | .set idx node => (update m idx node, none)
  | .take idx => (update m idx none, m idx)
  | .insertShift idx => (shiftedUp m idx, none)
  | .removeShift idx => (shiftedDown m idx, none)
  | .compact => (m, none)

/-- The representation holds the children of a map, and no two pairs have one slot. -/
structure TargetRep.Holds (rep : TargetRep α) (m : ℕ → Option α) : Prop where
  get : ∀ idx, rep.get idx = m idx
  nodup : ∀ v, rep = sparse v → (v.map Prod.fst).Nodup

/-- The slots that a call writes into pairs fit 16 bits: that of a new child while there is room for
a pair, that of a child that moves up, and all those of a vector that goes back to pairs. -/
def PairsFit : TargetRep α × (ℕ → Option α) → TargetCall α → Prop
  | (.none, _), .set idx (some _) => idx < 65536
  | (.sparse v, _), .set idx (some _) => v.length < TargetRep.sparseMaxEntries → idx < 65536
  | (.sparse _, m), .insertShift idx => idx < 65536 → m 65535 = none
  | (.default v, m), .compact =>
    v.countP Option.isSome ≤ TargetRep.sparseMaxEntries → ∀ i, (m i).isSome → i < 65536
  | _, _ => True

namespace TargetRep

variable {v w : List (UInt16 × α)} {u : List (Option α)} {m : ℕ → Option α} {idx : ℕ}

/-! ### Vectors -/

/-- The children of a vector. -/
def read (u : List (Option α)) (i : ℕ) : Option α := u[i]?.join

theorem read_set {node : Option α} (h : idx < u.length ∨ node = none) :
    read (u.set idx node) = update (read u) idx node := by
  funext i
  rw [read, List.getElem?_set]
  by_cases hi : i = idx
  · rw [hi, update_self, if_pos rfl]
    rcases h with h | rfl
    · rw [if_pos h, Option.join_some]
    · split <;> rfl
  · rw [update_of_ne hi, if_neg (Ne.symm hi), read]

theorem read_replicate (n : ℕ) : read (List.replicate n (none : Option α)) = fun _ => none := by
  funext i
  rw [read, List.getElem?_replicate]
  split <;> rfl

theorem read_append_replicate (n : ℕ) : read (u ++ List.replicate n none) = read u := by
  funext i
  rcases Nat.lt_or_ge i u.length with hi | hi
  · rw [read, read, List.getElem?_append_left hi]
  · have hend : read u i = none := by rw [read, List.getElem?_eq_none hi, Option.join_none]
    rw [hend, read, List.getElem?_append_right hi]
    exact congrFun (read_replicate n) (i - u.length)

/-! ### Pairs -/

/-- The pairs with their slots as numbers. -/
def widened (v : List (UInt16 × α)) : List (ℕ × α) := v.map fun p => (p.1.toNat, p.2)

theorem get_sparse (h : Lists (widened v) m) (idx : ℕ) : (sparse v).get idx = m idx := by
  rw [← h.find? idx, widened, List.find?_map, Option.map_map]
  rfl

theorem position_eq_none (h : Lists (widened v) m) (hpos : position v idx = none) :
    m idx = none := by
  refine h.eq_none fun hmem => ?_
  obtain ⟨p, hp, rfl⟩ := List.mem_map.mp hmem
  obtain ⟨q, hq, rfl⟩ := List.mem_map.mp hp
  exact absurd (List.findIdx?_eq_none_iff.mp hpos q hq) (by simp)

/-- The pair of a slot has its child; without it the others have the other children. -/
theorem position_eq_some (h : Lists (widened v) m) {pos : ℕ} (hpos : position v idx = some pos) :
    v[pos]?.map Prod.snd = m idx ∧ Lists (widened (swapRemove v pos)) (update m idx none) ∧
      ∀ child, Lists (widened (v.modify pos fun p => (p.1, child)))
        (update m idx (some child)) := by
  obtain ⟨p, hp, hget, hperm, hswap, hmodify⟩ := perm_of_findIdx? hpos
  obtain rfl : p.1.toNat = idx := beq_iff_eq.mp hp
  have hfront := h.perm (hperm.map _)
  have hdrop := hfront.drop
  refine ⟨?_, hdrop.perm (hswap.map _).symm, fun child => ?_⟩
  · rw [hget, Option.map_some]
    exact ((hfront.mem _ _).mp List.mem_cons_self).symm
  · have hadd := hdrop.add (update_self _ _ _) child
    rw [update_idem] at hadd
    have hperm : (widened (v.modify pos fun p => (p.1, child))).Perm
        ((p.1.toNat, child) :: widened (v.eraseIdx pos)) :=
      (hmodify fun p => (p.1, child)).map fun p : UInt16 × α => (p.1.toNat, p.2)
    exact hadd.perm hperm.symm

theorem toNat_ofNat_of_lt (h : idx < 65536) : (UInt16.ofNat idx).toNat = idx := by
  rw [UInt16.toNat_ofNat']
  exact Nat.mod_eq_of_lt h

theorem lists_append (h : Lists (widened v) m) (hidx : idx < 65536) (hm : m idx = none)
    (child : α) :
    Lists (widened (v ++ [(UInt16.ofNat idx, child)])) (update m idx (some child)) := by
  have hwide : widened (v ++ [(UInt16.ofNat idx, child)]) = widened v ++ [(idx, child)] := by
    rw [widened, List.map_append, List.map_singleton, toNat_ofNat_of_lt hidx, widened]
  rw [hwide]
  exact (h.add hm child).perm (List.perm_append_singleton _ _).symm

/-- The pairs written into a vector. -/
theorem read_foldl (hlt : ∀ p ∈ v, p.1.toNat < u.length) :
    (v.foldl (fun d p => d.set p.1.toNat (some p.2)) u).length = u.length ∧
      read (v.foldl (fun d p => d.set p.1.toNat (some p.2)) u) =
        (widened v).foldl (fun (m : ℕ → Option α) p => update m p.1 (some p.2)) (read u) := by
  induction v generalizing u with
  | nil => exact ⟨rfl, rfl⟩
  | cons p v ih =>
    obtain ⟨hlen, hread⟩ := ih (u := u.set p.1.toNat (some p.2)) fun q hq => by
      rw [List.length_set]
      exact hlt q (List.mem_cons_of_mem _ hq)
    rw [List.length_set] at hlen
    rw [read_set (Or.inl (hlt p List.mem_cons_self))] at hread
    exact ⟨hlen, hread⟩

theorem read_inflated (h : Lists (widened v) m) (child : α) :
    read (inflated v idx child) = update m idx (some child) := by
  rw [inflated]
  generalize hcap : max ((v.map fun p => p.1.toNat).foldr max 0) idx + 1 = cap
  have hlt : ∀ p ∈ v, p.1.toNat < (List.replicate cap (none : Option α)).length := by
    intro p hp
    have hmem : p.1.toNat ∈ v.map fun p => p.1.toNat := List.mem_map_of_mem hp
    have hmax : p.1.toNat ≤ (v.map fun p => p.1.toNat).foldr max 0 :=
      List.le_max_of_le' 0 hmem le_rfl
    rw [List.length_replicate]
    omega
  obtain ⟨hlen, hread⟩ := read_foldl hlt
  rw [List.length_replicate] at hlen
  rw [read_set (Or.inl (by omega)), hread, read_replicate, h.foldl_update]

/-! ### Shifts -/

theorem lists_insertShift (h : Lists (widened v) m) (hfit : idx < 65536 → m 65535 = none) :
    Lists (widened (v.map fun p => (if idx ≤ p.1.toNat then p.1 + 1 else p.1, p.2)))
      (shiftedUp m idx) := by
  have hwide : widened (v.map fun p => (if idx ≤ p.1.toNat then p.1 + 1 else p.1, p.2)) =
      (widened v).map fun p => (if idx ≤ p.1 then p.1 + 1 else p.1, p.2) := by
    rw [widened, widened, List.map_map, List.map_map]
    refine List.map_congr_left fun p hp => ?_
    have hval : m p.1.toNat = some p.2 :=
      (h.mem _ _).mp (List.mem_map.mpr ⟨p, hp, rfl⟩)
    simp only [Function.comp_apply, Prod.mk.injEq, and_true]
    split
    case isTrue hle =>
      have hlt := p.1.toNat_lt
      have hne : p.1.toNat ≠ 65535 := fun heq => by
        rw [heq, hfit (by omega)] at hval
        cases hval
      rw [UInt16.toNat_add, UInt16.toNat_one]
      exact Nat.mod_eq_of_lt (by omega)
    · rfl
  rw [hwide]
  refine h.relabel (fun i => if idx ≤ i then i + 1 else i) (fun i j _ _ heq => ?_) fun i c => ?_
  · split at heq <;> split at heq <;> omega
  · constructor
    · intro hc
      rw [shiftedUp] at hc
      split at hc
      · exact ⟨i, hc, if_neg (by omega)⟩
      · split at hc
        · cases hc
        · exact ⟨i - 1, hc, by rw [if_pos (by omega)]; omega⟩
    · rintro ⟨j, hj, rfl⟩
      rw [shiftedUp]
      split
      · rw [if_neg (by omega), if_neg (by omega), Nat.add_sub_cancel, hj]
      · rw [if_pos (by omega), hj]

theorem lists_removeShift (h : Lists (widened v) m) (idx : ℕ) :
    Lists (widened ((v.filter fun p => p.1.toNat ≠ idx).map fun p =>
      (if idx < p.1.toNat then p.1 - 1 else p.1, p.2))) (shiftedDown m idx) := by
  have hwide : widened ((v.filter fun p => p.1.toNat ≠ idx).map fun p =>
      (if idx < p.1.toNat then p.1 - 1 else p.1, p.2)) =
      ((widened v).filter fun p => p.1 ≠ idx).map fun p =>
        (if idx < p.1 then p.1 - 1 else p.1, p.2) := by
    rw [widened, widened, List.filter_map, List.map_map, List.map_map]
    refine List.map_congr_left fun p _ => ?_
    simp only [Function.comp_apply, Prod.mk.injEq, and_true]
    split
    · rw [UInt16.toNat_sub_of_le _ _ (UInt16.le_iff_toNat_le.mpr (by
        rw [UInt16.toNat_one]; omega)), UInt16.toNat_one]
    · rfl
  rw [hwide]
  have hne : ∀ i, update m idx none i ≠ none → i ≠ idx := by
    rintro i hi rfl
    exact hi (update_self _ _ _)
  refine (h.filter_ne idx).relabel (fun i => if idx < i then i - 1 else i)
    (fun i j hi hj heq => ?_) fun i c => ?_
  · have := hne i hi
    have := hne j hj
    split at heq <;> split at heq <;> omega
  · constructor
    · intro hc
      rw [shiftedDown] at hc
      split at hc
      · exact ⟨i, by rwa [update_of_ne (by omega)], if_neg (by omega)⟩
      · exact ⟨i + 1, by rwa [update_of_ne (by omega)], if_pos (by omega)⟩
    · rintro ⟨j, hj, rfl⟩
      have hjne := hne j (by rw [hj]; exact Option.some_ne_none c)
      rw [update_of_ne hjne] at hj
      rw [shiftedDown]
      split
      · rw [if_neg (by omega), Nat.sub_add_cancel (by omega), hj]
      · rw [if_pos (by omega), hj]

theorem read_insertShift (idx : ℕ) :
    read (if idx ≤ u.length then u.insertIdx idx none else u) = shiftedUp (read u) idx := by
  funext i
  simp only [shiftedUp, read]
  split
  · rw [List.getElem?_insertIdx]
    split
    · rfl
    · split
      · split <;> rfl
      · rfl
  case isFalse hlen =>
    split
    · rfl
    · rw [List.getElem?_eq_none (by omega)]
      split
      · rfl
      · rw [List.getElem?_eq_none (by omega)]

theorem read_removeShift (idx : ℕ) :
    read (if idx < u.length then u.eraseIdx idx else u) = shiftedDown (read u) idx := by
  funext i
  simp only [shiftedDown, read]
  split
  · rw [List.getElem?_eraseIdx]
    split <;> rfl
  case isFalse hlen =>
    split
    · rfl
    · rw [List.getElem?_eq_none (by omega), List.getElem?_eq_none (by omega)]

/-! ### Compaction -/

theorem lists_pairsOf (hfit : ∀ i, (read u i).isSome → i < 65536) :
    Lists (widened (pairsOf u)) (read u) := by
  have hread : ∀ i c, (some c, i) ∈ u.zipIdx ↔ read u i = some c := fun i c => by
    rw [List.mk_mem_zipIdx_iff_getElem?, read, Option.join_eq_some_iff]
  have hwide : widened (pairsOf u) = u.zipIdx.filterMap fun p => p.1.map fun c => (p.2, c) := by
    rw [widened, pairsOf, List.map_filterMap]
    refine List.filterMap_congr fun p hp => ?_
    obtain ⟨o, i⟩ := p
    cases o with
    | none => rfl
    | some c =>
      have hi := hfit i (by rw [(hread i c).mp hp]; rfl)
      simp only [Option.map_some, toNat_ofNat_of_lt hi]
  rw [hwide]
  refine ⟨?_, fun k c => ?_⟩
  · rw [List.Nodup, List.pairwise_map, List.pairwise_filterMap]
    have hpos : (u.zipIdx.map Prod.snd).Nodup := by
      rw [List.zipIdx_map_snd]
      exact List.nodup_range' 1
    refine (List.pairwise_map.mp hpos).imp fun hne p hp q hq => ?_
    obtain ⟨c, -, rfl⟩ := Option.map_eq_some_iff.mp hp
    obtain ⟨d, -, rfl⟩ := Option.map_eq_some_iff.mp hq
    exact hne
  · rw [List.mem_filterMap, ← hread]
    constructor
    · rintro ⟨⟨o, i⟩, hp, hmap⟩
      obtain ⟨d, rfl, heq⟩ := Option.map_eq_some_iff.mp hmap
      obtain ⟨rfl, rfl⟩ := Prod.mk.inj heq
      exact hp
    · exact fun hp => ⟨(some c, k), hp, rfl⟩

/-! ### Refinement -/

/-- The representation has the children of a map, in any of its forms. -/
def Represents : TargetRep α → (ℕ → Option α) → Prop
  | .none, m => m = fun _ => none
  | sparse v, m => Lists (widened v) m
  | default u, m => m = read u

variable {rep : TargetRep α}

theorem Represents.holds (h : rep.Represents m) : rep.Holds m := by
  cases rep with
  | none => exact ⟨fun idx => (congrFun h idx).symm, nofun⟩
  | sparse v =>
    refine ⟨get_sparse h, fun w hw => ?_⟩
    obtain rfl := sparse.inj hw
    have hnodup := h.nodup
    rw [widened, List.map_map] at hnodup
    refine List.Nodup.of_map UInt16.toNat ?_
    rwa [List.map_map]
  | default u => exact ⟨fun idx => (congrFun h idx).symm, nofun⟩

/-- The slot of a pair fits 16 bits. -/
theorem Holds.lt (h : (sparse v).Holds m) {i : ℕ} (hi : (m i).isSome) : i < 65536 := by
  rw [← h.get i, TargetRep.get, Option.isSome_map] at hi
  obtain ⟨p, hp⟩ := Option.isSome_iff_exists.mp hi
  have hslot : p.1.toNat = i := by simpa using List.find?_some hp
  exact hslot ▸ p.1.toNat_lt

theorem Represents.set (h : rep.Represents m) {node : Option α}
    (hfit : PairsFit (rep, m) (.set idx node)) :
    (rep.set idx node).Represents (update m idx node) := by
  cases rep with
  | none =>
    obtain rfl : m = fun _ => none := h
    cases node with
    | none => exact update_eq_self idx _
    | some child =>
      exact lists_append (v := []) Lists.nil hfit rfl child
  | sparse v =>
    cases hpos : position v idx with
    | some pos =>
      obtain ⟨-, hremove, hmodify⟩ := position_eq_some h hpos
      cases node with
      | none =>
        simp only [TargetRep.set, hpos]
        exact hremove
      | some child =>
        simp only [TargetRep.set, hpos]
        exact hmodify child
    | none =>
      have hm := position_eq_none h hpos
      cases node with
      | none =>
        have hsame : update m idx none = m := by rw [← hm, update_eq_self]
        simp only [TargetRep.set, hpos, hsame]
        exact h
      | some child =>
        by_cases hroom : v.length < sparseMaxEntries
        · have hform : (sparse v).set idx (some child) =
              sparse (v ++ [(UInt16.ofNat idx, child)]) := by
            simp only [TargetRep.set, hpos, if_pos hroom]
          rw [hform]
          exact lists_append h (hfit hroom) hm child
        · have hform : (sparse v).set idx (some child) =
              default (inflated v idx child) := by
            simp only [TargetRep.set, hpos, if_neg hroom]
          rw [hform]
          exact (read_inflated h child).symm
  | default u =>
    obtain rfl : m = read u := h
    rw [TargetRep.set]
    split
    case isTrue hidx => exact (read_set (Or.inl hidx)).symm
    case isFalse hidx =>
      split
      case isTrue hnone =>
        obtain rfl := Option.isNone_iff_eq_none.mp hnone
        have hend : read u idx = none := by
          rw [read, List.getElem?_eq_none (Nat.not_lt.mp hidx), Option.join_none]
        show update (read u) idx none = read u
        rw [← hend, update_eq_self]
      · refine Eq.symm ((read_set (Or.inl ?_)).trans ?_)
        · rw [List.length_append, List.length_replicate]
          omega
        · rw [read_append_replicate]

theorem Represents.take (h : rep.Represents m) (idx : ℕ) :
    (rep.take idx).2 = m idx ∧ (rep.take idx).1.Represents (update m idx none) := by
  cases rep with
  | none =>
    obtain rfl : m = fun _ => none := h
    exact ⟨rfl, update_eq_self idx _⟩
  | sparse v =>
    rw [TargetRep.take]
    cases hpos : position v idx with
    | some pos =>
      obtain ⟨hval, hremove, -⟩ := position_eq_some h hpos
      exact ⟨hval, hremove⟩
    | none =>
      have hm := position_eq_none h hpos
      refine ⟨hm.symm, ?_⟩
      rw [← hm, update_eq_self]
      exact h
  | default u =>
    obtain rfl : m = read u := h
    exact ⟨rfl, (read_set (Or.inr rfl)).symm⟩

theorem Represents.insertShift (h : rep.Represents m)
    (hfit : PairsFit (rep, m) (.insertShift idx)) :
    (rep.insertShift idx).Represents (shiftedUp m idx) := by
  cases rep with
  | none =>
    obtain rfl : m = fun _ => none := h
    funext i
    simp only [shiftedUp, ite_self]
  | sparse v => exact lists_insertShift h hfit
  | default u =>
    obtain rfl : m = read u := h
    exact (read_insertShift idx).symm

theorem Represents.removeShift (h : rep.Represents m) (idx : ℕ) :
    (rep.removeShift idx).Represents (shiftedDown m idx) := by
  cases rep with
  | none =>
    obtain rfl : m = fun _ => none := h
    funext i
    simp only [shiftedDown, ite_self]
  | sparse v => exact lists_removeShift h idx
  | default u =>
    obtain rfl : m = read u := h
    exact (read_removeShift idx).symm

/-- A node without children in memory. -/
theorem Represents.eq_none (h : rep.Represents m) (hcount : rep.residentCount = 0) :
    m = fun _ => none := by
  cases rep with
  | none => exact h
  | sparse v =>
    obtain rfl := List.eq_nil_of_length_eq_zero hcount
    exact funext fun i => h.eq_none List.not_mem_nil
  | default u =>
    obtain rfl : m = read u := h
    funext i
    rw [read]
    cases hi : u[i]? with
    | none => rfl
    | some o =>
      have hnone := List.countP_eq_zero.mp hcount o (List.mem_of_getElem? hi)
      rwa [Option.not_isSome_iff_eq_none] at hnone

theorem Represents.compact (h : rep.Represents m) (hfit : PairsFit (rep, m) .compact) :
    rep.compact.Represents m := by
  by_cases hcount : rep.residentCount = 0
  · simp only [TargetRep.compact, if_pos hcount]
    exact h.eq_none hcount
  · cases rep with
    | none => exact absurd rfl hcount
    | sparse v => simpa only [TargetRep.compact, if_neg hcount] using h
    | default u =>
      obtain rfl : m = read u := h
      by_cases hfew : u.countP Option.isSome ≤ sparseMaxEntries
      · have hform : (TargetRep.default u).compact = sparse (pairsOf u) := by
          simp only [TargetRep.compact, if_neg hcount, if_pos hfew]
        rw [hform]
        exact lists_pairsOf (hfit hfew)
      · simp only [TargetRep.compact, if_neg hcount, if_neg hfew]
        rfl

/-- **One call.** -/
theorem Represents.step (h : rep.Represents m) {call : TargetCall α}
    (hfit : PairsFit (rep, m) call) :
    (rep.step call).2 = (childStep m call).2 ∧
      (rep.step call).1.Represents (childStep m call).1 := by
  cases call with
  | get idx => exact ⟨h.holds.get idx, h⟩
  | set idx node => exact ⟨rfl, h.set hfit⟩
  | take idx => exact h.take idx
  | insertShift idx => exact ⟨rfl, h.insertShift hfit⟩
  | removeShift idx => exact ⟨rfl, h.removeShift idx⟩
  | compact => exact ⟨rfl, h.compact hfit⟩

/-- **And only then**: pairs that hold the children have the slots of all of them. -/
theorem Represents.pairsFit (h : rep.Represents m) {call : TargetCall α}
    (hholds : (rep.step call).1.Holds (childStep m call).1) : PairsFit (rep, m) call := by
  cases rep with
  | none =>
    cases call with
    | set idx node =>
      cases node with
      | none => trivial
      | some child => exact hholds.lt (i := idx) (by simp [childStep])
    | _ => trivial
  | sparse v =>
    cases call with
    | set idx node =>
      cases node with
      | none => trivial
      | some child =>
        intro hroom
        have hform : ∃ w, (sparse v).set idx (some child) = sparse w := by
          cases hpos : position v idx with
          | some pos => exact ⟨_, by simp only [TargetRep.set, hpos]; rfl⟩
          | none => exact ⟨_, by simp only [TargetRep.set, hpos, if_pos hroom]; rfl⟩
        obtain ⟨w, hw⟩ := hform
        rw [TargetRep.step, hw] at hholds
        exact hholds.lt (i := idx) (by simp [childStep])
    | insertShift idx =>
      intro hidx
      by_contra hsome
      refine absurd (hholds.lt (i := 65536) ?_) (lt_irrefl _)
      have hup : shiftedUp m idx 65536 = m 65535 := by
        rw [shiftedUp, if_neg (by omega), if_neg (by omega)]
      show (shiftedUp m idx 65536).isSome = true
      rw [hup]
      exact Option.isSome_iff_ne_none.mpr hsome
    | _ => trivial
  | default u =>
    cases call with
    | compact =>
      intro hfew i hi
      by_cases hcount : (TargetRep.default u).residentCount = 0
      · rw [h.eq_none hcount] at hi
        cases hi
      · rw [TargetRep.step, TargetRep.compact, if_neg hcount, if_pos hfew] at hholds
        exact hholds.lt hi
    | _ => trivial

end TargetRep

open TargetRep in
/-- **The children of a node.** From a node without children, every sequence of calls gives the
children that a plain map gives and leaves its children behind, no two pairs for one slot, after
every part of the sequence, exactly if every slot that a call writes into pairs is below 65536. -/
theorem target_rep_right_iff (calls : List (TargetCall α)) :
    (∀ done rest m given, calls = done ++ rest →
        answers (fun m call => some (childStep m call)) (fun _ => none) done = some (m, given) →
          ∃ rep : TargetRep α,
            answers (fun rep call => some (rep.step call)) .none done = some (rep, given) ∧
              rep.Holds m) ↔
      Meets (both (fun rep call => some (rep.step call)) fun m call => some (childStep m call))
        PairsFit (.none, fun _ => none) calls := by
  refine refines_throughout_iff (R := Represents) (fun _ _ h => h.holds) (fun _ _ _ _ => nofun)
    (fun rep m call m' o h hcall hfit => ?_) (fun rep m call m' o rep' h hcall hstep hholds => ?_)
    (show Represents .none fun _ => none from rfl) calls
  · obtain ⟨hout, hrep⟩ := h.step hfit
    obtain ⟨rfl, rfl⟩ := Prod.mk.inj (Option.some.inj hcall)
    exact ⟨_, congrArg some (Prod.ext rfl hout), hrep⟩
  · obtain ⟨rfl, -⟩ := Prod.mk.inj (Option.some.inj hcall)
    obtain ⟨rfl, -⟩ := Prod.mk.inj (Option.some.inj hstep)
    exact h.pairsFit hholds

/-- A child of slot 65536 is not found there, and is found at slot 0. -/
theorem target_rep_moves :
    (answers (fun m call => some (childStep m call)) (fun _ => none)
        [.set 65536 (some true), .get 65536, .get 0]).map Prod.snd =
      some [none, some true, none] ∧
    (answers (fun (rep : TargetRep Bool) call => some (rep.step call)) .none
        [.set 65536 (some true), .get 65536, .get 0]).map Prod.snd =
      some [none, none, some true] :=
  ⟨by decide, by decide⟩

end Noxu
