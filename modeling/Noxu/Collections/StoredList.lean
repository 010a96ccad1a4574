import Mathlib.Algebra.Ring.Nat
import Mathlib.Data.List.Sort
import Noxu.Library.PairList
import Noxu.Library.Run

/-!
# Stored Lists

A stored list keeps a sequence in a database: element `i` under the key that is `i` in eight bytes.
The length is not kept; every call takes it from the last key of the database, and a removal moves
the later elements down one by one.

The last key is the last one in the order of the database, which may have its own comparator. The
calls are right as long as that order puts the highest index last.

## Main results

* `Dense.remove`: a removal moves the records behind it, up to the end it finds;
* `stored_list_right_iff`: the calls give what a plain vector gives, and leave its elements, exactly
  if at each call the database orders the indices as the call needs.
-/

namespace Noxu.StoredList

open Library Function

/-! ### The database -/

/-- The order of the keys under the comparator of the database. A comparator that equates the keys
of two indices is left out: such a list has one record for both. -/
structure KeyOrder where
  le : ℕ → ℕ → Bool
  total : ∀ i j, le i j ∨ le j i
  trans : ∀ i j k, le i j → le j k → le i k
  antisymm : ∀ i j, le i j → le j i → i = j

/-- A binding of values: what is written is read back. -/
structure ValueBinding (V : Type) where
  encode : V → List UInt8
  decode : List UInt8 → Option V
  decode_encode : ∀ v, decode (encode v) = some v

/-- The records, by index. -/
abbrev Records := List (ℕ × List UInt8)

/-- Read a record. -/
def dbGet (db : Records) (index : ℕ) : Option (List UInt8) :=
  (db.find? fun p => p.1 == index).map Prod.snd

/-- Remove a record. -/
def dbDelete (db : Records) (index : ℕ) : Records := db.filter fun p => p.1 ≠ index

/-- Write a record. -/
def dbPut (db : Records) (index : ℕ) (data : List UInt8) : Records :=
  (index, data) :: dbDelete db index

/-- The last key (`Get::Last`). -/
def lastKey (order : KeyOrder) (db : Records) : Option ℕ :=
  match db.map Prod.fst with
  | [] => none
  | k :: ks => some (ks.foldl (fun a b => if order.le a b then b else a) k)

/-- The records in the order of the database. -/
def inOrder (order : KeyOrder) (db : Records) : Records :=
  db.insertionSort fun p q => order.le p.1 q.1

/-! ### The list -/

/-- The index behind the last key (`persistent_end`). -/
def persistentEnd (order : KeyOrder) (db : Records) : ℕ :=
  match lastKey order db with
  | some last => min (last + 1) (2 ^ 64 - 1)
  | none => 0

/-- What a call returns. -/
inductive ListAnswer (V : Type) where
  | done
  | index (n : ℕ)
  | value (v : Option V)
  | values (vs : List V)
  | failed
  deriving DecidableEq, Repr

section
variable {V : Type} (order : KeyOrder) (binding : ValueBinding V)

/-- Append a value; an index that is taken is an error. -/
def push (db : Records) (v : V) : Records × ListAnswer V :=
  let index := persistentEnd order db
  if (dbGet db index).isSome then (db, .failed)
  else (dbPut db index (binding.encode v), .index index)

/-- Decode a record that was read; the outer `none` is a value the binding refuses. -/
def readValue (data : Option (List UInt8)) : Option (Option V) :=
  match data with
  | none => some none
  | some bytes => (binding.decode bytes).map some

/-- Remove the last element. -/
def pop (db : Records) : Records × ListAnswer V :=
  let stop := persistentEnd order db
  if stop = 0 then (db, .value none)
  else
    match readValue binding (dbGet db (stop - 1)) with
    | none => (db, .failed)
    | some val => (if val.isSome then dbDelete db (stop - 1) else db, .value val)

/-- Move one record down. -/
def moveDown (db : Records) (src : ℕ) : Records :=
  match dbGet db src with
  | some bytes => dbDelete (dbPut db (src - 1) bytes) src
  | none => dbDelete db (src - 1)

/-- Remove an element and move the later ones down. -/
def remove (db : Records) (index : ℕ) : Records × ListAnswer V :=
  let high := persistentEnd order db
  if high ≤ index then (db, .value none)
  else
    match readValue binding (dbGet db index) with
    | none => (db, .failed)
    | some removed =>
      let moved := (List.range' (index + 1) (high - (index + 1))).foldl moveDown db
      (if index = high - 1 ∧ removed.isSome then dbDelete moved index else moved, .value removed)

/-- All values in the order of the database. -/
def iter (db : Records) : ListAnswer V :=
  ((inOrder order db).mapM fun p => binding.decode p.2).elim .failed .values

end

/-! ### Calls -/

/-- A call to the list, or the boundary of a transaction. -/
inductive ListCall (V : Type) where
  | push (v : V)
  | pop
  | remove (index : ℕ)
  | get (index : ℕ)
  | len
  | iter
  | clear
  | begin
  | commit
  /-- The transaction, or a call of its own, fails and is rolled back. -/
  | rollback
  deriving DecidableEq, Repr

/-- The state of a transaction around a sequence: what it is now, and what it was when the
transaction began. -/
abbrev InTxn (S : Type) := S × Option S

/-- The boundaries of a transaction. -/
def InTxn.step {S V : Type} (s : InTxn S) : ListCall V → Option (InTxn S × ListAnswer V)
  | .begin => if s.2.isNone then some ((s.1, some s.1), .done) else none
  | .commit => if s.2.isSome then some ((s.1, none), .done) else none
  | .rollback => some ((s.2.getD s.1, none), .failed)
  | _ => none

/-- A call to the stored list. -/
def storedStep {V : Type} (order : KeyOrder) (binding : ValueBinding V) (s : InTxn Records)
    (call : ListCall V) : Option (InTxn Records × ListAnswer V) :=
  match call with
  | .push v => some (((push order binding s.1 v).1, s.2), (push order binding s.1 v).2)
  | .pop => some (((pop order binding s.1).1, s.2), (pop order binding s.1).2)
  | .remove i => some (((remove order binding s.1 i).1, s.2), (remove order binding s.1 i).2)
  | .get i => some (s, (readValue binding (dbGet s.1 i)).elim .failed .value)
  | .len => some (s, .index (persistentEnd order s.1))
  | .iter => some (s, iter order binding s.1)
  | .clear => some (([], s.2), .done)
  | call => s.step call

/-- The same call to a plain vector. -/
def vecStep {V : Type} (s : InTxn (List V)) (call : ListCall V) :
    Option (InTxn (List V) × ListAnswer V) :=
  match call with
  | .push v => some ((s.1 ++ [v], s.2), .index s.1.length)
  | .pop => some ((s.1.dropLast, s.2), .value s.1.getLast?)
  | .remove i => some ((s.1.eraseIdx i, s.2), .value s.1[i]?)
  | .get i => some (s, .value s.1[i]?)
  | .len => some (s, .index s.1.length)
  | .iter => some (s, .values s.1)
  | .clear => some (([], s.2), .done)
  | call => s.step call

/-- The records are the elements of a vector, at the indices from zero on. -/
def Dense {V : Type} (binding : ValueBinding V) (db : Records) (vec : List V) : Prop :=
  Lists db fun i => vec[i]?.map binding.encode

/-- The database puts the highest of the first `n` indices last, and the next one is an index. -/
def EndsLast (order : KeyOrder) (n : ℕ) : Prop :=
  n < 2 ^ 64 ∧ ∀ i < n, order.le i (n - 1)

/-- The condition of a call. -/
def Ordered {V : Type} (order : KeyOrder) (s : InTxn Records × InTxn (List V)) : ListCall V → Prop
  | .push _ => EndsLast order s.2.1.length
  | .pop => EndsLast order s.2.1.length
  | .len => EndsLast order s.2.1.length
  | .remove i => i < s.2.1.length → EndsLast order s.2.1.length
  | .iter => ((List.range s.2.1.length).insertionSort fun i j => order.le i j).map (s.2.1[·]?) =
      s.2.1.map some
  | _ => True

/-! ### Records -/

variable {V : Type} {order : KeyOrder} {binding : ValueBinding V} {db : Records} {vec : List V}
  {m : ℕ → Option (List UInt8)}

theorem lists_dbDelete (h : Lists db m) (i : ℕ) : Lists (dbDelete db i) (update m i none) :=
  h.filter_ne i

theorem lists_dbPut (h : Lists db m) (i : ℕ) (data : List UInt8) :
    Lists (dbPut db i data) (update m i (some data)) := by
  have hadd := (lists_dbDelete h i).add (update_self _ _ _) data
  rwa [update_idem] at hadd

/-- The map with some records moved down by one. -/
def movedDown (m : ℕ → Option (List UInt8)) (index steps k : ℕ) : Option (List UInt8) :=
  if index ≤ k ∧ k < index + steps then m (k + 1) else m k

theorem movedDown_zero (m : ℕ → Option (List UInt8)) (index : ℕ) : movedDown m index 0 = m := by
  funext k
  exact if_neg (by omega)

theorem movedDown_succ (m : ℕ → Option (List UInt8)) (index steps : ℕ) :
    update (movedDown m index steps) (index + steps) (m (index + steps + 1)) =
      movedDown m index (steps + 1) := by
  funext k
  rcases eq_or_ne k (index + steps) with rfl | hk
  · rw [update_self, movedDown, if_pos (by omega)]
  · rw [update_of_ne hk, movedDown, movedDown]
    exact if_congr (by omega) rfl rfl

/-- **The loop of a removal** leaves the place of the last record it moved free. -/
theorem lists_foldl_moveDown (h : Lists db m) (index steps : ℕ)
    (hfull : ∀ k, index < k → k ≤ index + steps → (m k).isSome) :
    Lists ((List.range' (index + 1) steps).foldl moveDown db)
      (update (movedDown m index steps) (index + steps)
        (if steps = 0 then m index else none)) := by
  induction steps with
  | zero =>
    have hsame : update m index (m index) = m := update_eq_self index m
    rw [movedDown_zero, if_pos rfl]
    exact hsame.symm ▸ h
  | succ steps ih =>
    have hrest := ih fun k hk hle => hfull k hk (by omega)
    obtain ⟨data, hdata⟩ := Option.isSome_iff_exists.mp
      (hfull (index + steps + 1) (by omega) (by omega))
    have hsrc : index + 1 + steps = index + steps + 1 := by omega
    have hget : dbGet ((List.range' (index + 1) steps).foldl moveDown db) (index + steps + 1) =
        some data := by
      rw [dbGet, hrest.find?, update_of_ne (by omega), movedDown, if_neg (by omega), hdata]
    have hmoved := lists_dbDelete (lists_dbPut hrest (index + steps) data) (index + steps + 1)
    rw [update_idem, ← hdata, movedDown_succ] at hmoved
    rw [List.range'_1_concat, List.foldl_concat, hsrc, moveDown, hget]
    exact hmoved

/-! ### The end of the list -/

theorem foldl_last (order : KeyOrder) (k : ℕ) (ks : List ℕ) :
    ks.foldl (fun a b => if order.le a b then b else a) k ∈ k :: ks ∧
      ∀ j ∈ k :: ks, order.le j (ks.foldl (fun a b => if order.le a b then b else a) k) := by
  induction ks generalizing k with
  | nil =>
    refine ⟨List.mem_singleton.mpr rfl, fun j hj => ?_⟩
    rw [List.mem_singleton.mp hj]
    exact (order.total k k).elim id id
  | cons b ks ih =>
    rw [List.foldl_cons]
    by_cases hle : order.le k b
    · rw [if_pos hle]
      obtain ⟨hmem, hall⟩ := ih b
      refine ⟨List.mem_cons_of_mem _ hmem, fun j hj => ?_⟩
      rcases List.mem_cons.mp hj with rfl | hj
      · exact order.trans _ _ _ hle (hall b List.mem_cons_self)
      · exact hall j hj
    · rw [if_neg hle]
      obtain ⟨hmem, hall⟩ := ih k
      refine ⟨(List.mem_cons.mp hmem).elim (fun h => List.mem_cons.mpr (Or.inl h)) fun h =>
        List.mem_cons_of_mem _ (List.mem_cons_of_mem _ h), fun j hj => ?_⟩
      rcases List.mem_cons.mp hj with rfl | hj
      · exact hall _ List.mem_cons_self
      rcases List.mem_cons.mp hj with rfl | hj
      · exact order.trans _ _ _ ((order.total k _).resolve_left hle) (hall k List.mem_cons_self)
      · exact hall j (List.mem_cons_of_mem _ hj)

theorem Dense.mem_keys (h : Dense binding db vec) {i : ℕ} :
    i ∈ db.map Prod.fst ↔ i < vec.length := by
  rw [List.mem_map]
  constructor
  · rintro ⟨p, hp, rfl⟩
    obtain ⟨v, hv, -⟩ := Option.map_eq_some_iff.mp ((h.mem p.1 p.2).mp hp)
    exact (List.getElem?_eq_some_iff.mp hv).1
  · intro hi
    refine ⟨(i, binding.encode vec[i]), (h.mem _ _).mpr ?_, rfl⟩
    rw [List.getElem?_eq_getElem hi, Option.map_some]

/-- **The end of the list** is its length exactly if the highest index comes last. -/
theorem Dense.persistentEnd (h : Dense binding db vec) (order : KeyOrder) :
    persistentEnd order db ≤ vec.length ∧ (0 < vec.length → 0 < persistentEnd order db) ∧
      (persistentEnd order db = vec.length ↔ EndsLast order vec.length) := by
  rw [StoredList.persistentEnd, lastKey]
  cases hkeys : db.map Prod.fst with
  | nil =>
    have hzero : vec.length = 0 := by
      refine Nat.eq_zero_of_not_pos fun hpos => ?_
      have := h.mem_keys.mpr hpos
      rw [hkeys] at this
      cases this
    simp [hzero, EndsLast]
  | cons k ks =>
    obtain ⟨hmem, hall⟩ := foldl_last order k ks
    dsimp only
    generalize ks.foldl (fun a b => if order.le a b then b else a) k = last at hmem hall
    rw [← hkeys, h.mem_keys] at hmem
    refine ⟨by omega, by omega, fun heq => ?_, fun ⟨hlt, hends⟩ => ?_⟩
    · have hlast : vec.length - 1 = last := by omega
      refine ⟨by omega, fun i hi => ?_⟩
      rw [hlast]
      exact hall i (hkeys ▸ h.mem_keys.mpr hi)
    · have hlast : last = vec.length - 1 := order.antisymm _ _ (hends last hmem)
        (hall _ (hkeys ▸ h.mem_keys.mpr (by omega)))
      omega

/-! ### Calls -/

theorem Dense.dbGet (h : Dense binding db vec) (i : ℕ) :
    dbGet db i = vec[i]?.map binding.encode := h.find? i

theorem Dense.readValue (h : Dense binding db vec) (i : ℕ) :
    readValue binding (StoredList.dbGet db i) = some vec[i]? := by
  rw [h.dbGet]
  cases vec[i]? with
  | none => rfl
  | some v =>
    rw [Option.map_some, StoredList.readValue, binding.decode_encode]
    rfl

theorem Dense.lt (h : Dense binding db vec) {i : ℕ} (hi : (StoredList.dbGet db i).isSome) :
    i < vec.length := by
  rw [h.dbGet, Option.isSome_map] at hi
  exact (List.getElem?_eq_some_iff.mp (Option.eq_some_of_isSome hi)).1

theorem Dense.isSome_dbGet (h : Dense binding db vec) {i : ℕ} (hi : i < vec.length) :
    (StoredList.dbGet db i).isSome := by
  rw [h.dbGet, List.getElem?_eq_getElem hi]
  rfl

theorem Dense.push (h : Dense binding db vec) (hends : EndsLast order vec.length) (v : V) :
    (push order binding db v).2 = .index vec.length ∧
      Dense binding (push order binding db v).1 (vec ++ [v]) := by
  have hstop := (h.persistentEnd order).2.2.mpr hends
  have hfree : StoredList.dbGet db vec.length = none := by
    rw [h.dbGet, List.getElem?_eq_none (Nat.le_refl _), Option.map_none]
  have heq : StoredList.push order binding db v =
      (dbPut db vec.length (binding.encode v), .index vec.length) := by
    rw [StoredList.push, hstop, hfree]
    rfl
  rw [heq]
  refine ⟨rfl, ?_⟩
  have hput := lists_dbPut h vec.length (binding.encode v)
  have hmap : update (fun i => vec[i]?.map binding.encode) vec.length (some (binding.encode v)) =
      fun i => (vec ++ [v])[i]?.map binding.encode := by
    funext i
    rcases Nat.lt_trichotomy i vec.length with hi | rfl | hi
    · rw [update_of_ne (by omega), List.getElem?_append_left hi]
    · rw [update_self, List.getElem?_concat_length, Option.map_some]
    · rw [update_of_ne (by omega), List.getElem?_eq_none (by omega),
        List.getElem?_eq_none (by simp; omega)]
  rwa [hmap] at hput

/-- **A removal**, whatever index it takes for the end of the list. -/
theorem Dense.remove (h : Dense binding db vec) {index steps : ℕ}
    (hstop : StoredList.persistentEnd order db = index + 1 + steps) :
    (remove order binding db index).2 = .value vec[index]? ∧
      Lists (remove order binding db index).1
        (update (movedDown (fun i => vec[i]?.map binding.encode) index steps) (index + steps)
          none) := by
  have hle := (h.persistentEnd order).1
  have hfull : ∀ k < index + 1 + steps, vec[k]?.isSome := by
    intro k hk
    rw [List.getElem?_eq_getElem (by omega)]
    rfl
  have hmoved := lists_foldl_moveDown h index steps fun k _ hk => by
    rw [Option.isSome_map]
    exact hfull k (by omega)
  rw [StoredList.remove, hstop, if_neg (by omega), h.readValue, Nat.add_sub_cancel_left]
  refine ⟨rfl, ?_⟩
  dsimp only
  cases steps with
  | zero =>
    rw [if_pos ⟨rfl, hfull index (by omega)⟩]
    have hdeleted := lists_dbDelete hmoved (index + 0)
    rwa [update_idem] at hdeleted
  | succ steps =>
    rw [if_neg fun hlast => by omega]
    rwa [if_neg (Nat.succ_ne_zero steps)] at hmoved

theorem Dense.remove_right (h : Dense binding db vec) {index : ℕ}
    (hends : index < vec.length → EndsLast order vec.length) :
    (StoredList.remove order binding db index).2 = .value vec[index]? ∧
      Dense binding (StoredList.remove order binding db index).1 (vec.eraseIdx index) := by
  rcases Nat.lt_or_ge index vec.length with hindex | hindex
  · obtain ⟨steps, hlen⟩ : ∃ steps, vec.length = index + 1 + steps :=
      ⟨vec.length - (index + 1), by omega⟩
    obtain ⟨hout, hlists⟩ :=
      h.remove (((h.persistentEnd order).2.2.mpr (hends hindex)).trans hlen)
    refine ⟨hout, ?_⟩
    have hmap : update (movedDown (fun i => vec[i]?.map binding.encode) index steps)
        (index + steps) none = fun i => (vec.eraseIdx index)[i]?.map binding.encode := by
      funext k
      rw [List.getElem?_eraseIdx]
      rcases eq_or_ne k (index + steps) with rfl | hk
      · rw [update_self, if_neg (by omega), List.getElem?_eq_none (by omega), Option.map_none]
      rw [update_of_ne hk, movedDown]
      rcases Nat.lt_or_ge k index with hlow | hlow
      · rw [if_neg (by omega), if_pos hlow]
      rw [if_neg (Nat.not_lt.mpr hlow)]
      rcases Nat.lt_or_ge k (index + steps) with hhigh | hhigh
      · rw [if_pos ⟨hlow, hhigh⟩]
      · rw [if_neg (by omega), List.getElem?_eq_none (by omega), List.getElem?_eq_none (by omega)]
    rwa [hmap] at hlists
  · have hstop := (h.persistentEnd order).1.trans hindex
    rw [StoredList.remove, if_pos hstop, List.getElem?_eq_none hindex,
      List.eraseIdx_of_length_le hindex]
    exact ⟨rfl, h⟩

/-- The last element is removed like any other. -/
theorem pop_eq_remove (hstop : 0 < persistentEnd order db) :
    pop order binding db = remove order binding db (persistentEnd order db - 1) := by
  rw [pop, remove, if_neg (by omega), if_neg (by omega), Nat.sub_add_cancel hstop, Nat.sub_self]
  cases readValue binding (dbGet db (persistentEnd order db - 1)) with
  | none => rfl
  | some val => simp

theorem Dense.pop (h : Dense binding db vec) (hends : EndsLast order vec.length) :
    (pop order binding db).2 = .value vec.getLast? ∧
      Dense binding (pop order binding db).1 vec.dropLast := by
  have hstop := (h.persistentEnd order).2.2.mpr hends
  rcases Nat.eq_zero_or_pos vec.length with hzero | hpos
  · obtain rfl := List.eq_nil_of_length_eq_zero hzero
    rw [StoredList.pop, hstop]
    exact ⟨rfl, h⟩
  · rw [pop_eq_remove (hstop ▸ hpos), hstop, List.getLast?_eq_getElem?,
      List.dropLast_eq_eraseIdx (Nat.sub_add_cancel hpos)]
    exact h.remove_right fun _ => hends

/-! ### Iteration -/

theorem mapM_eq_some_iff {α β : Type} {f : α → Option β} (l : List α) (vs : List β) :
    l.mapM f = some vs ↔ l.map f = vs.map some := by
  induction l generalizing vs with
  | nil => cases vs <;> simp
  | cons a l ih =>
    rw [List.mapM_cons]
    cases vs with
    | nil => cases f a <;> simp [Option.bind_eq_some_iff]
    | cons v vs => simp [Option.bind_eq_some_iff, ← ih]

/-- The keys in the order of the database are the first indices, sorted. -/
theorem Dense.map_inOrder (h : Dense binding db vec) (order : KeyOrder) :
    (inOrder order db).map Prod.fst =
      (List.range vec.length).insertionSort fun i j => order.le i j := by
  have : Std.Total fun i j => (order.le i j : Prop) := ⟨order.total⟩
  have : IsTrans ℕ fun i j => order.le i j := ⟨order.trans⟩
  have : Std.Antisymm fun i j => (order.le i j : Prop) := ⟨order.antisymm⟩
  have hkeys : (db.map Prod.fst).Perm (List.range vec.length) :=
    (List.perm_ext_iff_of_nodup h.nodup List.nodup_range).mpr fun i => by
      rw [h.mem_keys, List.mem_range]
  rw [inOrder, List.map_insertionSort _ (fun i j => order.le i j = true) _ _ fun _ _ _ _ => Iff.rfl]
  exact List.Perm.eq_of_pairwise'
    (List.pairwise_insertionSort (fun i j => (order.le i j : Prop)) _)
    (List.pairwise_insertionSort (fun i j => (order.le i j : Prop)) _)
    ((List.perm_insertionSort _ _).trans (hkeys.trans (List.perm_insertionSort _ _).symm))

/-- **Iteration** gives the elements in the order of the database. -/
theorem Dense.iter (h : Dense binding db vec) (order : KeyOrder) (vs : List V) :
    iter order binding db = .values vs ↔
      ((List.range vec.length).insertionSort fun i j => order.le i j).map (vec[·]?) =
        vs.map some := by
  have hdecode : ∀ p ∈ inOrder order db, binding.decode p.2 = vec[p.1]? := by
    intro p hp
    have hmem := (h.mem p.1 p.2).mp ((List.perm_insertionSort _ _).mem_iff.mp hp)
    obtain ⟨v, hv, hp⟩ := Option.map_eq_some_iff.mp hmem
    rw [hv, ← hp, binding.decode_encode]
  have hmap : (inOrder order db).map (fun p => binding.decode p.2) =
      (inOrder order db).map ((vec[·]?) ∘ Prod.fst) := List.map_congr_left hdecode
  rw [← h.map_inOrder, List.map_map, ← hmap, ← mapM_eq_some_iff, StoredList.iter]
  cases (inOrder order db).mapM fun p => binding.decode p.2 with
  | none => simp
  | some ws => simp

/-! ### Whole runs -/

/-- An end that is wrong is too low, and the last record is behind it. -/
theorem Dense.persistentEnd_lt (h : Dense binding db vec) (hends : ¬ EndsLast order vec.length) :
    0 < StoredList.persistentEnd order db ∧
      StoredList.persistentEnd order db < vec.length := by
  obtain ⟨hle, hpos, hiff⟩ := h.persistentEnd order
  have hne : StoredList.persistentEnd order db ≠ vec.length := fun heq => hends (hiff.mp heq)
  omega

/-- Calls that leave the last record are not right for a shorter vector. -/
theorem Dense.not_shorter {after : List V} {db' : Records} (h : Dense binding db vec)
    (hafter : Dense binding db' after) (hlen : after.length = vec.length - 1)
    (hlast : StoredList.dbGet db' (vec.length - 1) = StoredList.dbGet db (vec.length - 1)) :
    vec.length = 0 := by
  refine Nat.eq_zero_of_not_pos fun hpos => ?_
  have hsome : (StoredList.dbGet db' (vec.length - 1)).isSome := by
    rw [hlast]
    exact h.isSome_dbGet (by omega)
  have := hafter.lt hsome
  omega

/-- A removal before a wrong end leaves the last record. -/
theorem Dense.dbGet_remove (h : Dense binding db vec) {index : ℕ}
    (hindex : index < StoredList.persistentEnd order db)
    (hlt : StoredList.persistentEnd order db < vec.length) :
    StoredList.dbGet (StoredList.remove order binding db index).1 (vec.length - 1) =
      StoredList.dbGet db (vec.length - 1) := by
  obtain ⟨steps, hstop⟩ : ∃ steps, StoredList.persistentEnd order db = index + 1 + steps :=
    ⟨StoredList.persistentEnd order db - (index + 1), by omega⟩
  rw [StoredList.dbGet, (h.remove hstop).2.find?, update_of_ne (by omega), movedDown,
    if_neg (by omega), h.dbGet]

/-- The records of a transaction are the elements, and so are those it goes back to. -/
def InTxn.Holds (binding : ValueBinding V) (c : InTxn Records) (a : InTxn (List V)) : Prop :=
  Dense binding c.1 a.1 ∧ Option.Rel (Dense binding) c.2 a.2

theorem InTxn.Holds.step {c : InTxn Records} {a a' : InTxn (List V)} {o : ListAnswer V}
    {call : ListCall V} (h : InTxn.Holds binding c a) (hcall : vecStep a call = some (a', o))
    (hordered : Ordered order (c, a) call) :
    ∃ c', storedStep order binding c call = some (c', o) ∧ InTxn.Holds binding c' a' := by
  obtain ⟨db, saved⟩ := c
  obtain ⟨vec, old⟩ := a
  obtain ⟨hdense, hsaved⟩ := h
  cases call with
  | push v =>
    obtain ⟨rfl, rfl⟩ := Prod.mk.inj (Option.some.inj hcall)
    obtain ⟨hout, hnext⟩ := hdense.push hordered v
    exact ⟨_, congrArg some (Prod.ext rfl hout), hnext, hsaved⟩
  | pop =>
    obtain ⟨rfl, rfl⟩ := Prod.mk.inj (Option.some.inj hcall)
    obtain ⟨hout, hnext⟩ := hdense.pop hordered
    exact ⟨_, congrArg some (Prod.ext rfl hout), hnext, hsaved⟩
  | remove i =>
    obtain ⟨rfl, rfl⟩ := Prod.mk.inj (Option.some.inj hcall)
    obtain ⟨hout, hnext⟩ := hdense.remove_right hordered
    exact ⟨_, congrArg some (Prod.ext rfl hout), hnext, hsaved⟩
  | get i =>
    obtain ⟨rfl, rfl⟩ := Prod.mk.inj (Option.some.inj hcall)
    refine ⟨_, congrArg some (Prod.ext rfl ?_), hdense, hsaved⟩
    rw [hdense.readValue]
    rfl
  | len =>
    obtain ⟨rfl, rfl⟩ := Prod.mk.inj (Option.some.inj hcall)
    have hstop := (hdense.persistentEnd order).2.2.mpr hordered
    exact ⟨_, congrArg some (Prod.ext rfl (congrArg ListAnswer.index hstop)), hdense, hsaved⟩
  | iter =>
    obtain ⟨rfl, rfl⟩ := Prod.mk.inj (Option.some.inj hcall)
    exact ⟨_, congrArg some (Prod.ext rfl ((hdense.iter order vec).mpr hordered)), hdense,
      hsaved⟩
  | clear =>
    obtain ⟨rfl, rfl⟩ := Prod.mk.inj (Option.some.inj hcall)
    exact ⟨_, rfl, Lists.nil, hsaved⟩
  | begin =>
    cases hsaved with
    | none =>
      obtain ⟨rfl, rfl⟩ := Prod.mk.inj (Option.some.inj hcall)
      exact ⟨_, rfl, hdense, .some hdense⟩
    | some _ => cases hcall
  | commit =>
    cases hsaved with
    | none => cases hcall
    | some _ =>
      obtain ⟨rfl, rfl⟩ := Prod.mk.inj (Option.some.inj hcall)
      exact ⟨_, rfl, hdense, .none⟩
  | rollback =>
    obtain ⟨rfl, rfl⟩ := Prod.mk.inj (Option.some.inj hcall)
    cases hsaved with
    | none => exact ⟨_, rfl, hdense, .none⟩
    | some hold => exact ⟨_, rfl, hold, .none⟩

/-- A call that gives what the vector gives, and leaves its elements, found the end of the list. -/
theorem Dense.ordered {saved : Option Records} {old : Option (List V)} {c' : InTxn Records}
    {a' : InTxn (List V)} {o : ListAnswer V} {call : ListCall V} (h : Dense binding db vec)
    (hcall : vecStep (vec, old) call = some (a', o))
    (hstored : storedStep order binding (db, saved) call = some (c', o))
    (hafter : Dense binding c'.1 a'.1) : Ordered order ((db, saved), (vec, old)) call := by
  cases call with
  | push v =>
    obtain ⟨rfl, rfl⟩ := Prod.mk.inj (Option.some.inj hcall)
    obtain ⟨rfl, hout⟩ := Prod.mk.inj (Option.some.inj hstored)
    by_contra hends
    -- the index it takes is not free
    have htaken := h.isSome_dbGet (h.persistentEnd_lt hends).2
    rw [StoredList.push, if_pos htaken] at hout
    cases hout
  | pop =>
    obtain ⟨rfl, rfl⟩ := Prod.mk.inj (Option.some.inj hcall)
    obtain ⟨rfl, hout⟩ := Prod.mk.inj (Option.some.inj hstored)
    by_contra hends
    obtain ⟨hpos, hlt⟩ := h.persistentEnd_lt hends
    have hbefore : StoredList.persistentEnd order db - 1 < StoredList.persistentEnd order db := by
      omega
    have hkept := h.dbGet_remove hbefore hlt
    rw [← pop_eq_remove hpos] at hkept
    have := h.not_shorter hafter List.length_dropLast hkept
    omega
  | remove i =>
    obtain ⟨rfl, rfl⟩ := Prod.mk.inj (Option.some.inj hcall)
    obtain ⟨rfl, hout⟩ := Prod.mk.inj (Option.some.inj hstored)
    intro hi
    by_contra hends
    obtain ⟨hpos, hlt⟩ := h.persistentEnd_lt hends
    by_cases hstop : StoredList.persistentEnd order db ≤ i
    · rw [StoredList.remove, if_pos hstop, List.getElem?_eq_getElem hi] at hout
      cases hout
    · have hkept := h.dbGet_remove (Nat.not_le.mp hstop) hlt
      have := h.not_shorter hafter (List.length_eraseIdx_of_lt hi) hkept
      omega
  | len =>
    obtain ⟨rfl, rfl⟩ := Prod.mk.inj (Option.some.inj hcall)
    obtain ⟨-, hout⟩ := Prod.mk.inj (Option.some.inj hstored)
    exact (h.persistentEnd order).2.2.mp (ListAnswer.index.inj hout)
  | iter =>
    obtain ⟨rfl, rfl⟩ := Prod.mk.inj (Option.some.inj hcall)
    obtain ⟨-, hout⟩ := Prod.mk.inj (Option.some.inj hstored)
    exact (h.iter order vec).mp hout
  | get i => trivial
  | clear => trivial
  | begin => trivial
  | commit => trivial
  | rollback => trivial

/-- **A stored list is a vector.** From an empty database, every sequence of calls and transaction
boundaries gives the answers a plain vector gives and leaves its elements under the keys from zero
on, after every part of the sequence, exactly if at each call the database orders the indices as
the call needs. -/
theorem stored_list_right_iff (order : KeyOrder) (binding : ValueBinding V)
    (calls : List (ListCall V)) :
    (∀ done rest vec given, calls = done ++ rest →
        answers vecStep ([], none) done = some (vec, given) →
          ∃ db, answers (storedStep order binding) ([], none) done = some (db, given) ∧
            Dense binding db.1 vec.1) ↔
      Meets (both (storedStep order binding) vecStep) (Ordered order)
        (([], none), ([], none)) calls := by
  refine refines_throughout_iff (R := InTxn.Holds binding) (fun _ _ h => h.1)
    (fun c a call _ hcall => ?_) (fun c a call a' o h hcall hordered => ?_)
    (fun c a call a' o c' h hcall hstored hafter => ?_)
    (show InTxn.Holds binding ([], none) ([], none) from ⟨Lists.nil, .none⟩) calls
  · cases call with
    | begin => trivial
    | commit => trivial
    | push | pop | remove | get | len | iter | clear | rollback => cases hcall
  · exact h.step hcall hordered
  · exact Dense.ordered h.1 hcall hstored hafter

/-- The comparator that turns the order of the keys around. -/
def reversed : KeyOrder where
  le i j := decide (j ≤ i)
  total i j := by simpa using Nat.le_total j i
  trans i j k := by simpa using fun hij hjk => Nat.le_trans hjk hij
  antisymm i j := by simpa using fun hij hji => Nat.le_antisymm hji hij

/-- The binding of byte arrays. -/
def byteArrayBinding : ValueBinding (List UInt8) where
  encode v := v
  decode bytes := some bytes
  decode_encode _ := rfl

/-- Under the reversed order the third value is refused: the first key comes last, and the index
behind it is taken. -/
theorem stored_list_refuses :
    (answers vecStep ([], none) [.push [1], .push [2], .push [3]]).map Prod.snd =
      some [.index 0, .index 1, .index 2] ∧
    (answers (storedStep reversed byteArrayBinding) ([], none)
        [.push [1], .push [2], .push [3]]).map Prod.snd =
      some [.index 0, .index 1, .failed] :=
  ⟨by decide, by decide⟩

end Noxu.StoredList
