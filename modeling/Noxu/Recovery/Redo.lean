import Mathlib.Data.List.Induction
import Noxu.Tree.Operations

/-!
# Redo of Logged Records

The redo of one record of the log into a tree (`applyRedoLn`), and of an LSN-ascending
list of records (`redoAll`). A record is applied only over an older version of its key;
its expiration is written whenever it is not zero, **also when the record itself was
skipped**, and a zero expiration is never written.

The tree is read through its slots: `RedoView` is a map of slots with the redo of a
record on it, and the redo of the tree refines it.

## Main results

* `redoAll_view`: the redo of a list returns, and acts on the slots as on the view;
* `RedoView.run_settles`: after the list each slot has the version of its last record and
  the last nonzero expiration of its insertions and updates;
* `RedoView.run_again`: replaying the list changes no slot in the end;
* `redo_restores_last_record_iff`: the last record of each key is restored whole, and
  skipped records change nothing, exactly when the expirations of the key agree.
-/

open Std Noxu.Library

namespace Noxu

variable {t t' : Tree} {k : Key}

/-! ### Records -/

/-- The kind of a logged record. -/
inductive LnOperation where
  | insert
  | update
  | delete
deriving DecidableEq, Repr

/-- A logged record with its before-image. -/
structure LnRecord where
  /-- The database the record belongs to. -/
  dbId : ℕ
  /-- The writing transaction, if any. -/
  txnId : Option ℕ
  /-- What was done. -/
  operation : LnOperation
  /-- The key. -/
  key : Key
  /-- The value; none for a deletion. -/
  data : Option (List UInt8)
  /-- The LSN to revert to, null for a first write. -/
  abortLsn : Lsn
  /-- The version before was a deletion. -/
  abortKnownDeleted : Bool
  /-- The key before, when it differs. -/
  abortKey : Option Key
  /-- The value before, when embedded. -/
  abortData : Option (List UInt8)
  /-- The expiration in hours since the epoch, zero for none. -/
  expiration : Int32
deriving DecidableEq, Repr

namespace LnRecord

/-- The record is an insertion or an update. -/
def isPut (r : LnRecord) : Bool := r.operation != .delete

/-- The expiration as a slot stores it. -/
def slotExpiration (r : LnRecord) : ℕ := r.expiration.toUInt32.toNat

/-- The data as a slot stores it: empty data is no data. -/
def slotData (r : LnRecord) : Option (List UInt8) :=
  if r.data.getD [] = [] then none else some (r.data.getD [])

end LnRecord

/-- A record at its position in the log. -/
abbrev Logged := LnRecord × Lsn

/-! ### Redo -/

/-- Apply one record of the log to a tree. The redo of a put has read the leaf of its key into
memory when the expiration is written. -/
def applyRedoLn (t : Tree) (rec : LnRecord) (lsn : Lsn) : Option Tree :=
  if t.config.databaseId ≠ rec.dbId then some t
  else
    match rec.operation with
    | .insert | .update =>
      (t.redoInsert rec.key (rec.data.getD []) lsn).map fun r =>
        if rec.expiration ≠ 0 then
          (r.1.updateKeyExpiration (fun _ => true) rec.key rec.slotExpiration).1
        else r.1
    | .delete =>
      match t.slotLsnAny rec.key with
      | some (slotLsn, false) =>
        if slotLsn = nullLsn ∨ slotLsn ≤ lsn then some (t.markDeleted rec.key lsn false).1
        else some t
      | some (_, true) => some (t.redoAdvanceDeletedSlotLsn rec.key lsn).1
      | none => some t

/-- Apply a list of records in order. -/
def redoAll (t : Tree) : List Logged → Option Tree
  | [] => some t
  | x :: recs => (applyRedoLn t x.1 x.2).bind fun t => redoAll t recs

/-! ### The redo on slots -/

/-- The slots of a tree as redo sees them. -/
structure RedoView where
  /-- The tree has no root yet. -/
  fresh : Bool
  /-- The slot of each key. -/
  slot : Key → Option BinSlot

/-- The view of a tree. -/
def Tree.redoView (t : Tree) : RedoView := ⟨t.root.isNone, t.slotOf⟩

/-- Write a record's expiration, unless it is zero. -/
def LnRecord.expire (r : LnRecord) (s : BinSlot) : BinSlot :=
  if r.expiration ≠ 0 then { s with expirationTime := r.slotExpiration } else s

/-- The slot of a key after the redo of a deletion. -/
def redoDelete (lsn : Lsn) (s : BinSlot) : BinSlot :=
  if s.isDeleted then
    if s.behind lsn then { s with lsn := lsn, dirty := true } else s
  else if s.lsn = nullLsn ∨ s.lsn ≤ lsn then s.markDeleted lsn false else s

/-- The slot of a key after the redo of a record of the key. -/
def redoLnSlot (fresh : Bool) (r : LnRecord) (lsn : Lsn) (o : Option BinSlot) :
    Option BinSlot :=
  if r.isPut then
    (if fresh then some (firstSlot r.key lsn r.slotData)
      else redoSlot r.key lsn r.slotData o).map r.expire
  else o.map (redoDelete lsn)

/-- The redo of one record on a view. -/
def RedoView.step (db : ℕ) (v : RedoView) (x : Logged) : RedoView :=
  if db = x.1.dbId then
    ⟨v.fresh && !x.1.isPut,
      fun k => if k = x.1.key then redoLnSlot v.fresh x.1 x.2 (v.slot k) else v.slot k⟩
  else v

/-- The redo of a list on a view. -/
def RedoView.run (db : ℕ) (v : RedoView) (recs : List Logged) : RedoView :=
  recs.foldl (RedoView.step db) v

/-- A tree that redo works on: well formed, with nodes of at least two slots and a comparison that
tells different keys apart. -/
structure Tree.Redoable (t : Tree) : Prop where
  wf : TreeWF t
  room : 2 ≤ t.config.maxEntriesPerNode
  apart : LawfulEqCmp (keyCmp t.config.keyComparator)

theorem Tree.Redoable.congr (ht : t.Redoable) (hwf : TreeWF t') (hcfg : t'.config = t.config) :
    t'.Redoable :=
  ⟨hwf, hcfg ▸ ht.room, hcfg ▸ ht.apart⟩

theorem TreeConfig.Sound.redoable_new {config : TreeConfig} (h : config.Sound)
    [hapart : LawfulEqCmp (keyCmp config.keyComparator)] : (Tree.new config).Redoable :=
  ⟨h.treeWF_new, h.room, hapart⟩

/-- The redo of a record keeps a well-formed tree, with its parameters. -/
structure Redone (t t' : Tree) (x : Logged) : Prop where
  wf : TreeWF t'
  config : t'.config = t.config
  view : t'.redoView = t.redoView.step t.config.databaseId x

/-- Editing the leaf of a key neither adds nor removes the root. -/
@[simp] theorem Tree.isNone_root_updateBin {β : Type} (t : Tree) (floor : List Key → Key → ℕ)
    (dflt : β) (f : BinStub → BinStub × β) (key : Key) :
    (t.updateBin floor dflt f key).1.root.isNone = t.root.isNone := by
  unfold Tree.updateBin
  split <;> simp_all

theorem Tree.isNone_root_redoInsert {data : List UInt8} {lsn : Lsn} {flag : Bool}
    (h : t.redoInsert k data lsn = some (t', flag)) : t'.root.isNone = false := by
  unfold Tree.redoInsert at h
  dsimp only at h
  split at h
  · obtain ⟨rfl, -⟩ := Prod.mk.inj (Option.some.inj h)
    rfl
  · simp only [Tree.insertFromRoot, Option.bind_eq_some_iff, Option.map_eq_some_iff] at h
    obtain ⟨_, -, _, -, heq⟩ := h
    obtain ⟨rfl, -⟩ := Prod.mk.inj heq
    rfl

variable {x : Logged} {fresh : Bool} {o : Option BinSlot} {rs : List Logged}

/-- An edit of the record's key, read on the view. -/
theorem TreeEdits.redone {g : Option BinSlot → Option BinSlot}
    (ht : t.Redoable) (h : TreeEdits t t' x.1.key g) (hdb : t.config.databaseId = x.1.dbId)
    (hroot : t'.root.isNone = (t.root.isNone && !x.1.isPut))
    (hg : g (t.slotOf x.1.key) = redoLnSlot t.root.isNone x.1 x.2 (t.slotOf x.1.key)) :
    Redone t t' x := by
  refine ⟨h.wf, h.config, ?_⟩
  simp only [Tree.redoView, RedoView.step, hdb, if_true, hroot, RedoView.mk.injEq, true_and]
  funext k
  have := ht.apart
  rw [h.slotOf k]
  split
  · rename_i hk
    rw [hg, hk]
  · rfl

/-- A step that finds its slot current is no step. -/
theorem Tree.Redoable.redone_self (ht : t.Redoable)
    (hdb : t.config.databaseId = x.1.dbId) (hput : x.1.isPut = false)
    (hs : redoLnSlot t.root.isNone x.1 x.2 (t.slotOf x.1.key) = t.slotOf x.1.key) :
    Redone t t x :=
  TreeEdits.redone (g := id) ht ⟨ht.wf, rfl, .refl rfl⟩ hdb (by simp [hput]) hs.symm

/-- **The redo of a record returns** and acts on the slots as on the view. -/
theorem applyRedoLn_spec (ht : t.Redoable) (x : Logged) :
    ∃ t', applyRedoLn t x.1 x.2 = some t' ∧ Redone t t' x := by
  unfold applyRedoLn
  split
  · rename_i hdb
    exact ⟨t, rfl, ht.wf, rfl, by simp [RedoView.step, hdb]⟩
  rename_i hdb
  have hdb : t.config.databaseId = x.1.dbId := not_not.mp hdb
  have hputCase : x.1.isPut = true → ∃ t',
      ((t.redoInsert x.1.key (x.1.data.getD []) x.2).map fun r =>
        if x.1.expiration ≠ 0 then
          (r.1.updateKeyExpiration (fun _ => true) x.1.key x.1.slotExpiration).1
        else r.1) = some t' ∧ Redone t t' x := by
    intro hput
    obtain ⟨t₁, flag, heq, hed⟩ := Tree.redoInsert_spec ht.wf ht.room x.1.key (x.1.data.getD [])
      x.2
    have hroot := Tree.isNone_root_redoInsert heq
    refine ⟨_, by rw [heq, Option.map_some], ?_⟩
    have hslot : t.redoUpsert x.1.key x.2 x.1.slotData (t.slotOf x.1.key) =
        if t.root.isNone then some (firstSlot x.1.key x.2 x.1.slotData)
        else redoSlot x.1.key x.2 x.1.slotData (t.slotOf x.1.key) := rfl
    split
    · rename_i hexp
      have hed' := Tree.updateKeyExpiration_spec hed.wf (fun _ => true) x.1.key x.1.slotExpiration
      have hreaches := Tree.reachesBin_of_root hed.wf hroot x.1.key
      rw [if_pos hreaches] at hed'
      have hboth : TreeEdits t
          (t₁.updateKeyExpiration (fun _ => true) x.1.key x.1.slotExpiration).1 x.1.key
          (expireSlot x.1.slotExpiration ∘ t.redoUpsert x.1.key x.2 x.1.slotData) :=
        ⟨hed'.wf, hed'.config.trans hed.config, hed.edits.comp (hed.config ▸ hed'.edits)⟩
      refine hboth.redone ht hdb (by simp [Tree.updateKeyExpiration, hreaches, hroot, hput]) ?_
      have hex : x.1.expire = fun s => { s with expirationTime := x.1.slotExpiration } := by
        funext s
        simp [LnRecord.expire, hexp]
      simp only [Function.comp, hslot, redoLnSlot, hput, if_true, hex]
      rfl
    · rename_i hexp
      refine hed.redone ht hdb (by simp [hroot, hput]) ?_
      have hid : x.1.expire = id := by
        funext s
        simp [LnRecord.expire, not_not.mp hexp]
      simp only [redoLnSlot, hput, if_true, hid, Option.map_id, id_eq]
      exact hslot
  cases hop : x.1.operation with
  | insert => exact hputCase (by simp [LnRecord.isPut, hop])
  | update => exact hputCase (by simp [LnRecord.isPut, hop])
  | delete =>
    have hput : x.1.isPut = false := by simp [LnRecord.isPut, hop]
    dsimp only
    rw [Tree.slotLsnAny_eq ht.wf]
    cases hs : t.slotOf x.1.key with
    | none => exact ⟨t, rfl, ht.redone_self hdb hput (by simp [redoLnSlot, hput, hs])⟩
    | some s =>
      cases hdel : s.isDeleted with
      | true =>
        refine ⟨_, by simp [hdel], (Tree.redoAdvanceDeletedSlotLsn_spec ht.wf x.1.key
          x.2).redone ht hdb (by simp [Tree.redoAdvanceDeletedSlotLsn, hput]) ?_⟩
        simp [redoLnSlot, hput, hs, advanceSlot, redoDelete, hdel]
      | false =>
        simp only [Option.map_some, hdel]
        split
        · rename_i hle
          refine ⟨_, rfl, (Tree.markDeleted_spec ht.wf x.1.key x.2 false).1.redone ht hdb
            (by simp [Tree.markDeleted, hput]) ?_⟩
          simp [redoLnSlot, hput, hs, markSlot, redoDelete, hdel, hle]
        · rename_i hle
          exact ⟨t, rfl, ht.redone_self hdb hput
            (by simp [redoLnSlot, hput, hs, redoDelete, hdel, hle])⟩

/-- **The redo of a list returns** and acts on the slots as on the view. -/
theorem redoAll_view (ht : t.Redoable) (recs : List Logged) :
    ∃ t', redoAll t recs = some t' ∧ TreeWF t' ∧ t'.config = t.config ∧
      t'.redoView = t.redoView.run t.config.databaseId recs := by
  induction recs generalizing t with
  | nil => exact ⟨t, rfl, ht.wf, rfl, rfl⟩
  | cons x recs ih =>
    obtain ⟨t₁, heq, hstep⟩ := applyRedoLn_spec ht x
    obtain ⟨t', hrun, hwf, hcfg, hview⟩ := ih (ht.congr hstep.wf hstep.config)
    refine ⟨t', by simp [redoAll, heq, hrun], hwf, hcfg.trans hstep.config, ?_⟩
    rw [hview, hstep.config, hstep.view]
    rfl

/-! ### One record on a slot -/

/-- The expiration of the slot of a key, zero when there is none. -/
def expirationOf (o : Option BinSlot) : ℕ := (o.map BinSlot.expirationTime).getD 0

/-- The expiration a record writes, if it writes one. -/
def LnRecord.writes (r : LnRecord) : Option ℕ :=
  if r.isPut ∧ r.expiration ≠ 0 then some r.slotExpiration else none

/-- The slot with the expiration a record or a list of records leaves. -/
def BinSlot.withExpiration (e : Option ℕ) (s : BinSlot) : BinSlot :=
  { s with expirationTime := e.getD s.expirationTime }

/-- The slot has the version of a record, expiration aside. -/
structure BinSlot.HasVersion (s : BinSlot) (x : Logged) : Prop where
  lsn : s.lsn = x.2
  deleted : s.isDeleted = !x.1.isPut
  data : x.1.isPut = true → s.data = x.1.slotData

/-- The slot of the key of a record is at the record's version or a newer one. -/
structure Current (x : Logged) (o : Option BinSlot) : Prop where
  put : x.1.isPut = true → o.isSome = true
  le : ∀ s, o = some s → s.lsn ≠ nullLsn ∧ x.2 ≤ s.lsn
  delete : ∀ s, o = some s → x.1.isPut = false → s.lsn = x.2 → s.isDeleted = true

theorem LnRecord.expire_eq {r : LnRecord} (hput : r.isPut = true) :
    r.expire = BinSlot.withExpiration r.writes := by
  funext s
  by_cases hexp : r.expiration = 0 <;>
    simp [LnRecord.expire, LnRecord.writes, BinSlot.withExpiration, hput, hexp]

@[simp] theorem BinSlot.withExpiration_none (s : BinSlot) : s.withExpiration none = s := rfl

theorem BinSlot.HasVersion.withExpiration {s : BinSlot} (h : s.HasVersion x)
    (e : Option ℕ) : (s.withExpiration e).HasVersion x := ⟨h.lsn, h.deleted, h.data⟩

/-- **A record over an older version** becomes the version of its key. -/
theorem redoLnSlot_newer (hfresh : fresh = true → o = none) (hold : ∀ s, o = some s → s.lsn < x.2) :
    (redoLnSlot fresh x.1 x.2 o).isSome = (o.isSome || x.1.isPut) ∧
      (∀ s, redoLnSlot fresh x.1 x.2 o = some s → s.HasVersion x) ∧
        expirationOf (redoLnSlot fresh x.1 x.2 o) = x.1.writes.getD (expirationOf o) := by
  cases hput : x.1.isPut with
  | false =>
    have hw : x.1.writes = none := by simp [LnRecord.writes, hput]
    cases o with
    | none => simp [redoLnSlot, hput, hw]
    | some s =>
      have hlt := hold s rfl
      simp only [redoLnSlot, hput, Bool.false_eq_true, if_false, Option.map_some,
        Option.isSome_some, Bool.or_false, Option.some.injEq, forall_eq', true_and, hw,
        Option.getD_none]
      unfold redoDelete
      cases hdel : s.isDeleted with
      | true =>
        have hbeh : s.behind x.2 = true := by simp [BinSlot.behind, hdel, hlt]
        simp only [if_true, hbeh]
        exact ⟨⟨rfl, by rw [hput]; exact hdel, by simp [hput]⟩, rfl⟩
      | false =>
        simp only [Bool.false_eq_true, if_false, hlt.le, or_true, if_true]
        exact ⟨⟨rfl, by simp [BinSlot.markDeleted, BinSlot.isDeleted, hput],
          by simp [hput]⟩, rfl⟩
  | true =>
    -- a fresh slot and an overwritten one differ in the expiration they start from
    have hbase : ∃ s, (if fresh then some (firstSlot x.1.key x.2 x.1.slotData)
        else redoSlot x.1.key x.2 x.1.slotData o) = some s ∧ s.HasVersion x ∧
          s.expirationTime = expirationOf o := by
      cases o with
      | none =>
        cases fresh with
        | true => exact ⟨_, rfl, ⟨rfl, by rw [hput]; rfl, fun _ => rfl⟩, rfl⟩
        | false => exact ⟨_, rfl, ⟨rfl, by rw [hput]; rfl, fun _ => rfl⟩, rfl⟩
      | some s =>
        have hf : fresh = false := by
          cases fresh with
          | true => cases hfresh rfl
          | false => rfl
        have hlt := hold s rfl
        refine ⟨BinSlot.overwrite x.2 x.1.slotData { s with key := x.1.key }, ?_,
          ⟨rfl, by rw [hput]; rfl, fun _ => rfl⟩, rfl⟩
        simp [hf, redoSlot, hlt, upsertSlot]
    obtain ⟨s, hs, hver, hexp⟩ := hbase
    simp only [redoLnSlot, hput, if_true, hs, Option.map_some, LnRecord.expire_eq hput,
      Option.isSome_some, Bool.or_true, Option.some.injEq, forall_eq', true_and]
    exact ⟨hver.withExpiration _, by rw [← hexp]; rfl⟩

/-- **A record over its own or a newer version** only writes its expiration. -/
theorem redoLnSlot_current (hfresh : fresh = true → x.1.isPut = false) (hcur : Current x o) :
    redoLnSlot fresh x.1 x.2 o = o.map (BinSlot.withExpiration x.1.writes) := by
  cases hput : x.1.isPut with
  | false =>
    have hw : x.1.writes = none := by simp [LnRecord.writes, hput]
    cases o with
    | none => simp [redoLnSlot, hput]
    | some s =>
      obtain ⟨hnull, hle⟩ := hcur.le s rfl
      simp only [redoLnSlot, hput, Bool.false_eq_true, if_false, Option.map_some, hw,
        BinSlot.withExpiration_none, Option.some.injEq]
      unfold redoDelete
      cases hdel : s.isDeleted with
      | true => simp [BinSlot.behind, hdel, hnull, hle]
      | false =>
        have hne : s.lsn ≠ x.2 := fun h => by
          simp [hcur.delete s rfl hput h] at hdel
        have hlt : ¬ s.lsn ≤ x.2 := (hle.lt_of_ne (Ne.symm hne)).not_ge
        simp [hnull, hlt]
  | true =>
    have hf : fresh = false := by
      cases fresh with
      | true => simp [hput] at hfresh
      | false => rfl
    obtain ⟨s, rfl⟩ := Option.isSome_iff_exists.mp (hcur.put hput)
    have hle := (hcur.le s rfl).2
    simp [redoLnSlot, hput, hf, redoSlot, hle, LnRecord.expire_eq hput]

/-! ### Lists of records -/

/-- The records of a key of a database. -/
def recordsOf (db : ℕ) (k : Key) (recs : List Logged) : List Logged :=
  recs.filter fun x => decide (db = x.1.dbId ∧ k = x.1.key)

/-- The last expiration a list of records writes. -/
def lastExpiration (recs : List Logged) : Option ℕ :=
  recs.reverse.findSome? fun x => x.1.writes

@[simp] theorem lastExpiration_append (p q : List Logged) :
    lastExpiration (p ++ q) = (lastExpiration q).or (lastExpiration p) := by
  simp [lastExpiration, List.findSome?_append]

@[simp] theorem lastExpiration_singleton (x : Logged) :
    lastExpiration [x] = x.1.writes := by
  cases hw : x.1.writes <;> simp [lastExpiration, hw]

@[simp] theorem lastExpiration_nil : lastExpiration [] = none := rfl

/-- What the redo of the records of one key leaves in its slot. -/
structure Settled (o₀ : Option BinSlot) (rs : List Logged) (o : Option BinSlot) : Prop where
  isSome : o.isSome = (o₀.isSome || rs.any fun x => x.1.isPut)
  nil : rs = [] → o = o₀
  version : ∀ x, rs.getLast? = some x → ∀ s, o = some s → s.HasVersion x
  expiration : expirationOf o = (lastExpiration rs).getD (expirationOf o₀)

/-- A key has a slot in the end if it had one or was ever inserted. -/
theorem Settled.isSome_iff {o₀ : Option BinSlot} (h : Settled o₀ rs o) :
    o.isSome = true ↔ o₀.isSome = true ∨ ∃ y ∈ rs, y.1.isPut = true := by
  rw [h.isSome, Bool.or_eq_true, List.any_eq_true]

/-- The records of one key over an older slot: one more record. -/
theorem Settled.snoc {o₀ : Option BinSlot}
    (h : Settled o₀ rs o) (hasc : (rs ++ [x]).Pairwise fun a b => a.2 < b.2)
    (hold : ∀ s, o₀ = some s → s.lsn < x.2) (hfresh : fresh = true → o = none) :
    Settled o₀ (rs ++ [x]) (redoLnSlot fresh x.1 x.2 o) := by
  have hlt : ∀ s, o = some s → s.lsn < x.2 := by
    intro s hs
    cases hlast : rs.getLast? with
    | none => exact hold s (h.nil (List.getLast?_eq_none_iff.mp hlast) ▸ hs)
    | some y =>
      rw [(h.version y hlast s hs).lsn]
      exact (List.pairwise_append.mp hasc).2.2 y (List.mem_of_getLast? hlast) x (by simp)
  obtain ⟨hsome, hver, hexp⟩ := redoLnSlot_newer hfresh hlt
  refine ⟨?_, by simp, ?_, ?_⟩
  · simp [hsome, h.isSome, Bool.or_assoc]
  · intro y hy s hs
    obtain rfl : x = y := by simpa using hy
    exact hver s hs
  · rw [hexp, h.expiration]
    cases hw : x.1.writes <;> simp [hw]

/-- A list of records to redo: in LSN order, at positions of the log, and each newer than
the slot of its key. -/
structure RedoInput (db : ℕ) (v : RedoView) (recs : List Logged) : Prop where
  ascending : recs.Pairwise fun a b => a.2 < b.2
  logged : ∀ x ∈ recs, x.2 ≠ nullLsn
  earlier : ∀ x ∈ recs, db = x.1.dbId → ∀ s, v.slot x.1.key = some s → s.lsn < x.2

namespace RedoView

variable {db : ℕ} {v : RedoView} {recs p q : List Logged}

/-- A view without root has no slots. -/
def Sound (v : RedoView) : Prop := v.fresh = true → ∀ k, v.slot k = none

theorem step_slot (db : ℕ) (v : RedoView) (x : Logged) (k : Key) :
    (v.step db x).slot k =
      if db = x.1.dbId ∧ k = x.1.key then redoLnSlot v.fresh x.1 x.2 (v.slot k)
      else v.slot k := by
  unfold RedoView.step
  split <;> simp_all

theorem step_fresh (db : ℕ) (v : RedoView) (x : Logged) :
    (v.step db x).fresh = (v.fresh && !(decide (db = x.1.dbId) && x.1.isPut)) := by
  unfold RedoView.step
  split <;> simp_all

theorem run_append (db : ℕ) (v : RedoView) (p q : List Logged) :
    v.run db (p ++ q) = (v.run db p).run db q := List.foldl_append

theorem run_snoc (db : ℕ) (v : RedoView) (p : List Logged) (x : Logged) :
    v.run db (p ++ [x]) = (v.run db p).step db x := by simp [RedoView.run]

/-- A step keeps a view without root empty. -/
theorem Sound.step (h : v.Sound) (x : Logged) : (v.step db x).Sound := by
  intro hfresh k
  rw [step_fresh, Bool.and_eq_true] at hfresh
  rw [step_slot, h hfresh.1 k]
  split
  · rename_i hx
    have hput : x.1.isPut = false := by simpa [hx.1] using hfresh.2
    simp [redoLnSlot, hput]
  · rfl

theorem Sound.run (h : v.Sound) (recs : List Logged) : (v.run db recs).Sound := by
  induction recs using List.reverseRecOn with
  | nil => exact h
  | append_singleton recs x ih =>
    rw [run_snoc]
    exact ih.step x

theorem run_fresh (db : ℕ) (v : RedoView) (recs : List Logged) :
    (v.run db recs).fresh =
      (v.fresh && recs.all fun x => !(decide (db = x.1.dbId) && x.1.isPut)) := by
  induction recs using List.reverseRecOn with
  | nil => simp [RedoView.run]
  | append_singleton recs x ih => simp [run_snoc, step_fresh, ih, Bool.and_assoc]

end RedoView

theorem recordsOf_snoc (db : ℕ) (k : Key) (recs : List Logged) (x : Logged) :
    recordsOf db k (recs ++ [x]) =
      if db = x.1.dbId ∧ k = x.1.key then recordsOf db k recs ++ [x]
      else recordsOf db k recs := by
  unfold recordsOf
  split <;> simp_all

theorem RedoInput.left {db : ℕ} {v : RedoView} {p q : List Logged}
    (h : RedoInput db v (p ++ q)) : RedoInput db v p :=
  ⟨(List.pairwise_append.mp h.ascending).1, fun x hx => h.logged x (by simp [hx]),
    fun x hx => h.earlier x (by simp [hx])⟩

/-- **After the list** each slot has the version of the last record of its key and the
last expiration the records of its key write. -/
theorem RedoView.run_settles {db : ℕ} {v : RedoView} {recs : List Logged} (hv : v.Sound)
    (h : RedoInput db v recs) (k : Key) :
    Settled (v.slot k) (recordsOf db k recs) ((v.run db recs).slot k) := by
  induction recs using List.reverseRecOn with
  | nil => exact ⟨by simp [recordsOf, RedoView.run], fun _ => rfl, by simp [recordsOf],
      by simp [recordsOf, RedoView.run]⟩
  | append_singleton recs x ih =>
    rw [run_snoc, step_slot, recordsOf_snoc]
    split
    · rename_i hx
      refine (ih h.left).snoc ?_ ?_ fun hf => hv.run recs hf k
      · have hsub := h.ascending.sublist (List.filter_sublist
          (p := fun x => decide (db = x.1.dbId ∧ k = x.1.key)))
        simpa [recordsOf, hx] using hsub
      · exact fun s hs => h.earlier x (by simp) hx.1 s (hx.2 ▸ hs)
    · exact ih h.left

/-! ### Replays -/

theorem BinSlot.withExpiration_eq_self_iff {s : BinSlot} {e : Option ℕ} :
    s.withExpiration e = s ↔ e.getD s.expirationTime = s.expirationTime := by
  cases s
  simp [BinSlot.withExpiration]

theorem BinSlot.withExpiration_comp (e e' : Option ℕ) :
    BinSlot.withExpiration e ∘ BinSlot.withExpiration e' =
      BinSlot.withExpiration (e.or e') := by
  funext s
  cases e <;> simp [BinSlot.withExpiration]

theorem Current.withExpiration (h : Current x o)
    (e : Option ℕ) : Current x (o.map (BinSlot.withExpiration e)) := by
  refine ⟨fun hput => by simpa using h.put hput, fun s hs => ?_, fun s hs => ?_⟩
  · obtain ⟨s', hs', rfl⟩ := Option.map_eq_some_iff.mp hs
    exact h.le s' hs'
  · obtain ⟨s', hs', rfl⟩ := Option.map_eq_some_iff.mp hs
    exact h.delete s' hs'

/-- After the redo of its key's records every one of them is behind the slot. -/
theorem Settled.current {o₀ : Option BinSlot}
    (h : Settled o₀ rs o) (hasc : rs.Pairwise fun a b => a.2 < b.2)
    (hlog : ∀ y ∈ rs, y.2 ≠ nullLsn) (hx : x ∈ rs) : Current x o := by
  obtain ⟨init, y, rfl⟩ : ∃ init y, rs = init ++ [y] :=
    ⟨rs.dropLast, rs.getLast (List.ne_nil_of_mem hx), (List.dropLast_concat_getLast _).symm⟩
  have hver := h.version y (by simp)
  have hxy : x = y ∨ x.2 < y.2 := by
    rcases List.mem_append.mp hx with hx | hx
    · exact .inr ((List.pairwise_append.mp hasc).2.2 x hx y (by simp))
    · exact .inl (by simpa using hx)
  refine ⟨fun hput => ?_, fun s hs => ?_, fun s hs hput heq => ?_⟩
  · exact h.isSome_iff.mpr (.inr ⟨x, hx, hput⟩)
  · rw [(hver s hs).lsn]
    refine ⟨hlog y (by simp), ?_⟩
    rcases hxy with rfl | hlt
    · exact le_rfl
    · exact hlt.le
  · rw [(hver s hs).lsn] at heq
    rcases hxy with rfl | hlt
    · simp [(hver s hs).deleted, hput]
    · exact absurd heq hlt.ne'

namespace RedoView

variable {db : ℕ} {v : RedoView} {recs p q : List Logged}

/-- **Replaying part of the list** only writes the expirations of that part. -/
theorem run_replay (hv : v.Sound) (h : RedoInput db v recs) (hrecs : recs = p ++ q) :
    ((v.run db recs).run db p).fresh = (v.run db recs).fresh ∧
      ∀ k, ((v.run db recs).run db p).slot k =
        ((v.run db recs).slot k).map
          (BinSlot.withExpiration (lastExpiration (recordsOf db k p))) := by
  induction p using List.reverseRecOn generalizing q with
  | nil =>
    refine ⟨rfl, fun k => ?_⟩
    have hid : BinSlot.withExpiration none = id := by
      funext s
      rfl
    simp [RedoView.run, recordsOf, hid]
  | append_singleton p x ih =>
    obtain ⟨hfresh, hslot⟩ := ih (q := x :: q) (by simpa using hrecs)
    have hmem : x ∈ recs := by simp [hrecs]
    -- a view that is still without root has seen no insertion
    have hput : db = x.1.dbId → (v.run db recs).fresh = true → x.1.isPut = false := by
      intro hdb hf
      rw [run_fresh, Bool.and_eq_true, List.all_eq_true] at hf
      simpa [hdb] using hf.2 x hmem
    refine ⟨?_, fun k => ?_⟩
    · rw [run_snoc, step_fresh, hfresh]
      cases hf : (v.run db recs).fresh with
      | false => rfl
      | true =>
        by_cases hdb : db = x.1.dbId
        · simp [hput hdb hf]
        · simp [hdb]
    · rw [run_snoc, step_slot, recordsOf_snoc]
      split
      · rename_i hx
        have hset := run_settles hv h k
        have hxk : x ∈ recordsOf db k recs := by simp [recordsOf, hmem, hx]
        have hcur : Current x ((v.run db recs).slot k) :=
          hset.current (h.ascending.sublist List.filter_sublist)
            (fun y hy => h.logged y (List.mem_of_mem_filter hy)) hxk
        rw [hslot k, redoLnSlot_current (fun hf => hput hx.1 (hfresh ▸ hf))
          (hcur.withExpiration _), Option.map_map, BinSlot.withExpiration_comp,
          lastExpiration_append, lastExpiration_singleton]
      · exact hslot k

/-- **Replaying the list changes nothing** in the end. -/
theorem run_again (hv : v.Sound) (h : RedoInput db v recs) :
    (v.run db recs).run db recs = v.run db recs := by
  obtain ⟨hfresh, hslot⟩ := run_replay hv h (q := []) (List.append_nil recs).symm
  have hfun : ((v.run db recs).run db recs).slot = (v.run db recs).slot := by
    funext k
    have hexp := (run_settles hv h k).expiration
    rw [hslot k]
    cases ho : (v.run db recs).slot k with
    | none => rfl
    | some s =>
      rw [ho] at hexp
      have hs : s.expirationTime = (lastExpiration (recordsOf db k recs)).getD
        (expirationOf (v.slot k)) := hexp
      rw [Option.map_some, BinSlot.withExpiration_eq_self_iff.mpr]
      cases hl : lastExpiration (recordsOf db k recs) with
      | none => rfl
      | some e => simpa [hl] using hs.symm
  calc (v.run db recs).run db recs
      = ⟨((v.run db recs).run db recs).fresh, ((v.run db recs).run db recs).slot⟩ := rfl
    _ = v.run db recs := by rw [hfresh, hfun]

/-- **Redoing a prefix before the list** gives what the list gives. -/
theorem run_prefix_again (hv : v.Sound) (h : RedoInput db v (p ++ q)) :
    (v.run db p).run db (p ++ q) = v.run db (p ++ q) := by
  rw [run_append, run_again hv h.left, ← run_append]

end RedoView

/-! ### What redo restores -/

/-- The slot of a key carries a record: its value, deleted state and expiration. A deleted
key may have no slot. -/
structure Carries (x : Logged) (o : Option BinSlot) : Prop where
  present : x.1.isPut = true → o.isSome = true
  deleted : ∀ s, o = some s → s.isDeleted = !x.1.isPut
  value : ∀ s, o = some s → x.1.isPut = true → s.data.getD [] = x.1.data.getD []
  expiration : ∀ s, o = some s → s.expirationTime = x.1.slotExpiration

/-- The redo of a list restores the last record of each key, again and after any prefix of
the list, and its skipped records change no slot. -/
structure RedoRestores (t : Tree) (recs : List Logged) (t' : Tree) : Prop where
  carries : ∀ k x, (recordsOf t.config.databaseId k recs).getLast? = some x →
    Carries x (t'.slotOf k)
  others : ∀ k, recordsOf t.config.databaseId k recs = [] → t'.slotOf k = t.slotOf k
  again : ∀ p q, recs = p ++ q → ∃ tp t'', redoAll t p = some tp ∧
    redoAll tp recs = some t'' ∧ t''.slots = t'.slots
  skipped : ∀ p q, recs = p ++ q → ∀ p₁ x p₂, p = p₁ ++ x :: p₂ → ∀ tp u u',
    redoAll t p = some tp → redoAll tp p₁ = some u → applyRedoLn u x.1 x.2 = some u' →
      u'.slots = u.slots

/-- The expirations of each key agree: an insertion or update has the expiration of the
last record of its key or none, and if none of them has one the slot has it already. -/
def ExpirationsAgree (t : Tree) (recs : List Logged) : Prop :=
  ∀ k x, (recordsOf t.config.databaseId k recs).getLast? = some x →
    ((t.slotOf k).isSome = true ∨ ∃ y ∈ recordsOf t.config.databaseId k recs, y.1.isPut = true) →
      (∀ y ∈ recordsOf t.config.databaseId k recs, y.1.isPut = true →
        y.1.expiration = 0 ∨ y.1.expiration = x.1.expiration) ∧
      ((∀ y ∈ recordsOf t.config.databaseId k recs, y.1.isPut = true → y.1.expiration = 0) →
        expirationOf (t.slotOf k) = x.1.slotExpiration)

theorem LnRecord.slotExpiration_inj {r r' : LnRecord}
    (h : r.slotExpiration = r'.slotExpiration) : r.expiration = r'.expiration :=
  congrArg Int32.ofUInt32 (UInt32.toNat_inj.mp h)

theorem LnRecord.getD_slotData (r : LnRecord) : r.slotData.getD [] = r.data.getD [] := by
  unfold LnRecord.slotData
  split <;> simp_all

theorem LnRecord.writes_eq_some {r : LnRecord} {e : ℕ} :
    r.writes = some e ↔ r.isPut = true ∧ r.expiration ≠ 0 ∧ r.slotExpiration = e := by
  simp only [LnRecord.writes, Option.ite_none_right_eq_some, Option.some.injEq, and_assoc]

theorem LnRecord.writes_eq_none {r : LnRecord} :
    r.writes = none ↔ (r.isPut = true → r.expiration = 0) := by
  simp [LnRecord.writes]

/-- The last expiration written is written by one of the records. -/
theorem exists_of_lastExpiration_eq_some {e : ℕ}
    (h : lastExpiration rs = some e) : ∃ y ∈ rs, y.1.writes = some e := by
  obtain ⟨y, hy, hw⟩ := List.exists_of_findSome?_eq_some h
  exact ⟨y, List.mem_reverse.mp hy, hw⟩

theorem lastExpiration_eq_none :
    lastExpiration rs = none ↔ ∀ y ∈ rs, y.1.writes = none := by
  simp [lastExpiration, List.findSome?_eq_none_iff]

/-- A tree without root shows no slots. -/
theorem Tree.redoView_sound (t : Tree) : t.redoView.Sound := by
  intro hroot k
  have hr : t.root = none := by simpa [Tree.redoView] using hroot
  simp [Tree.redoView, Tree.slotOf, Tree.slots, hr]

theorem TreeWF.slots_eq (ht : TreeWF t) (ht' : TreeWF t') (hcfg : t'.config = t.config)
    (h : ∀ k, t'.slotOf k = t.slotOf k) : t'.slots = t.slots := by
  refine SortedBy.ext ht'.sorted (hcfg ▸ ht.sorted) fun k => ?_
  have hk := h k
  simp only [Tree.slotOf, hcfg] at hk
  rw [hcfg]
  exact hk

/-- The result of a redo, by its slots. -/
theorem redoAll_eq_some (ht : t.Redoable) {recs : List Logged} (h : redoAll t recs = some t') :
    TreeWF t' ∧ t'.config = t.config ∧
      t'.redoView = t.redoView.run t.config.databaseId recs := by
  obtain ⟨t'', heq, hres⟩ := redoAll_view ht recs
  obtain rfl : t'' = t' := Option.some.inj (heq.symm.trans h)
  exact hres

/-- **A record redone a second time** changes no slot exactly when it writes the expiration
the slots already have. -/
theorem replayed_slots_eq_iff (ht : t.Redoable) {p p₁ p₂ : List Logged}
    {tp u u' : Tree} (h : RedoInput t.config.databaseId t.redoView p) (hp : p = p₁ ++ x :: p₂)
    (htp : redoAll t p = some tp) (hu : redoAll tp p₁ = some u)
    (hu' : applyRedoLn u x.1 x.2 = some u') :
    u'.slots = u.slots ↔ ∀ k s, tp.slotOf k = some s →
      (lastExpiration (recordsOf t.config.databaseId k (p₁ ++ [x]))).getD s.expirationTime =
        (lastExpiration (recordsOf t.config.databaseId k p₁)).getD s.expirationTime := by
  obtain ⟨hwp, hcp, hvp⟩ := redoAll_eq_some ht htp
  have htp' := ht.congr hwp hcp
  obtain ⟨hwu, hcu, hvu⟩ := redoAll_eq_some htp' hu
  obtain ⟨u₂, heq, hstep⟩ := applyRedoLn_spec (htp'.congr hwu hcu) x
  obtain rfl : u₂ = u' := Option.some.inj (heq.symm.trans hu')
  rw [hcp, hvp] at hvu
  -- both sides of the step are replays of a prefix of the list
  have hslot : ∀ k, u.slotOf k = (tp.slotOf k).map (BinSlot.withExpiration
      (lastExpiration (recordsOf t.config.databaseId k p₁))) := by
    intro k
    have hk := (RedoView.run_replay t.redoView_sound h hp).2 k
    rw [← hvu, ← hvp] at hk
    exact hk
  have hslot' : ∀ k, u₂.slotOf k = (tp.slotOf k).map (BinSlot.withExpiration
      (lastExpiration (recordsOf t.config.databaseId k (p₁ ++ [x])))) := by
    intro k
    have hp' : p = (p₁ ++ [x]) ++ p₂ := by simpa using hp
    have hk := (RedoView.run_replay t.redoView_sound h hp').2 k
    rw [RedoView.run_snoc, ← hvu, ← hcp, ← hcu, ← hstep.view, hcu, hcp, ← hvp] at hk
    exact hk
  have hslots : u₂.slots = u.slots ↔ ∀ k, u₂.slotOf k = u.slotOf k :=
    ⟨fun heq k => by simp only [Tree.slotOf, hstep.config, heq],
      hwu.slots_eq hstep.wf hstep.config⟩
  rw [hslots]
  refine forall_congr' fun k => ?_
  rw [hslot k, hslot' k]
  cases tp.slotOf k with
  | none => simp
  | some s => cases s; simp [BinSlot.withExpiration]

section Restores

variable {recs : List Logged} (ht : t.Redoable)
variable (h : RedoInput t.config.databaseId t.redoView recs) (ht' : redoAll t recs = some t')

include ht h ht'

theorem redoAll_settled (k : Key) :
    Settled (t.slotOf k) (recordsOf t.config.databaseId k recs) (t'.slotOf k) := by
  obtain ⟨-, -, hview⟩ := redoAll_eq_some ht ht'
  have hset := RedoView.run_settles t.redoView_sound h k
  rw [← hview] at hset
  exact hset

theorem RedoRestores.lastExpiration_eq (hr : RedoRestores t recs t') {x : Logged}
    (hx : (recordsOf t.config.databaseId k recs).getLast? = some x)
    (hpres : (t.slotOf k).isSome = true ∨
      ∃ y ∈ recordsOf t.config.databaseId k recs, y.1.isPut = true) :
    (lastExpiration (recordsOf t.config.databaseId k recs)).getD (expirationOf (t.slotOf k)) =
      x.1.slotExpiration := by
  have hset := redoAll_settled ht h ht' k
  obtain ⟨s, hs⟩ := Option.isSome_iff_exists.mp (hset.isSome_iff.mpr hpres)
  rw [← hset.expiration, ← (hr.carries k x hx).expiration s hs, hs]
  rfl

/-- Skipped records changing nothing, every prefix writes the expiration of the slot. -/
theorem RedoRestores.replay_writes (hr : RedoRestores t recs t') {s : BinSlot}
    (hs : t'.slotOf k = some s) {p q : List Logged} (hp : recs = p ++ q) :
    (lastExpiration (recordsOf t.config.databaseId k p)).getD s.expirationTime =
      s.expirationTime := by
  induction p using List.reverseRecOn generalizing q with
  | nil => rfl
  | append_singleton p x ih =>
    have hp' : recs = p ++ x :: q := by simpa using hp
    obtain ⟨hwf, hcfg, -⟩ := redoAll_eq_some ht ht'
    have hwf' := ht.congr hwf hcfg
    obtain ⟨u, hu, hwu, hcu, -⟩ := redoAll_view hwf' p
    obtain ⟨u', hu', -⟩ := applyRedoLn_spec (hwf'.congr hwu hcu) x
    have hslots := hr.skipped recs [] (List.append_nil recs).symm p x q hp' t' u u' ht' hu hu'
    rw [(replayed_slots_eq_iff ht h hp' ht' hu hu').mp hslots k s hs]
    exact ih hp'

theorem RedoRestores.expirationsAgree (hr : RedoRestores t recs t') :
    ExpirationsAgree t recs := by
  intro k x hx hpres
  have hlast := hr.lastExpiration_eq ht h ht' hx hpres
  refine ⟨fun y hy hput => ?_, fun hzero => ?_⟩
  · by_cases hexp : y.1.expiration = 0
    · exact .inl hexp
    · refine .inr (LnRecord.slotExpiration_inj ?_)
      have hset := redoAll_settled ht h ht' k
      obtain ⟨s, hs⟩ := Option.isSome_iff_exists.mp (hset.isSome_iff.mpr (.inr ⟨y, hy, hput⟩))
      have hxs := (hr.carries k x hx).expiration s hs
      -- redo up to and including this record writes its expiration
      obtain ⟨hmem, hon⟩ := List.mem_filter.mp hy
      have hon := of_decide_eq_true hon
      obtain ⟨p, q, hpq⟩ := List.append_of_mem hmem
      have hpq' : recs = (p ++ [y]) ++ q := by simpa using hpq
      have hw : y.1.writes = some y.1.slotExpiration :=
        LnRecord.writes_eq_some.mpr ⟨hput, hexp, rfl⟩
      have hys := hr.replay_writes ht h ht' hs hpq'
      rw [recordsOf_snoc, if_pos hon, lastExpiration_append, lastExpiration_singleton, hw] at hys
      exact hys.trans hxs
  · rw [← hlast, lastExpiration_eq_none.mpr
      fun y hy => LnRecord.writes_eq_none.mpr (hzero y hy)]
    rfl

omit ht h ht' in
theorem ExpirationsAgree.writes_eq (ha : ExpirationsAgree t recs) {x y : Logged} {e : ℕ}
    (hx : (recordsOf t.config.databaseId k recs).getLast? = some x)
    (hy : y ∈ recordsOf t.config.databaseId k recs) (hw : y.1.writes = some e) :
    e = x.1.slotExpiration := by
  obtain ⟨hput, hexp, rfl⟩ := LnRecord.writes_eq_some.mp hw
  rcases (ha k x hx (.inr ⟨y, hy, hput⟩)).1 y hy hput with h0 | heq
  · exact absurd h0 hexp
  · rw [LnRecord.slotExpiration, heq, LnRecord.slotExpiration]

theorem ExpirationsAgree.carries (ha : ExpirationsAgree t recs) {x : Logged}
    (hx : (recordsOf t.config.databaseId k recs).getLast? = some x) :
    Carries x (t'.slotOf k) := by
  have hset := redoAll_settled ht h ht' k
  refine ⟨fun hput => hset.isSome_iff.mpr (.inr ⟨x, List.mem_of_getLast? hx, hput⟩),
    fun s hs => (hset.version x hx s hs).deleted, fun s hs hput => ?_, fun s hs => ?_⟩
  · rw [(hset.version x hx s hs).data hput, LnRecord.getD_slotData]
  · have hexp : s.expirationTime = _ := hs ▸ hset.expiration
    rw [hexp]
    cases hl : lastExpiration (recordsOf t.config.databaseId k recs) with
    | some e =>
      obtain ⟨y, hy, hw⟩ := exists_of_lastExpiration_eq_some hl
      exact ha.writes_eq hx hy hw
    | none =>
      have hpres := hset.isSome_iff.mp (by simp [hs])
      exact (ha k x hx hpres).2 fun y hy =>
        LnRecord.writes_eq_none.mp (lastExpiration_eq_none.mp hl y hy)

/-- Where the expirations agree, a record redone a second time changes no slot. -/
theorem ExpirationsAgree.skipped (ha : ExpirationsAgree t recs) {p q p₁ p₂ : List Logged}
    {x : Logged} {tp u u' : Tree} (hp : recs = p ++ q) (hp₁ : p = p₁ ++ x :: p₂)
    (htp : redoAll t p = some tp) (hu : redoAll tp p₁ = some u)
    (hu' : applyRedoLn u x.1 x.2 = some u') : u'.slots = u.slots := by
  subst hp
  rw [replayed_slots_eq_iff ht h.left hp₁ htp hu hu']
  intro k s hs
  rw [recordsOf_snoc]
  split
  swap
  · rfl
  rename_i hon
  rw [lastExpiration_append, lastExpiration_singleton]
  cases hw : x.1.writes with
  | none => simp
  | some e =>
    have hmem : ∀ l : List Logged, (∀ y ∈ l, y ∈ p) →
        ∀ y ∈ recordsOf t.config.databaseId k l,
          y ∈ recordsOf t.config.databaseId k (p ++ q) := by
      intro l hl y hy
      obtain ⟨hyl, hyk⟩ := List.mem_filter.mp hy
      exact List.mem_filter.mpr ⟨List.mem_append_left q (hl y hyl), hyk⟩
    have hxk : x ∈ recordsOf t.config.databaseId k p := by simp [recordsOf, hp₁, hon]
    have hne : recordsOf t.config.databaseId k (p ++ q) ≠ [] :=
      List.ne_nil_of_mem (hmem p (fun _ hy => hy) x hxk)
    have hlast := List.getLast?_eq_some_getLast hne
    have he := ha.writes_eq hlast (hmem p (fun _ hy => hy) x hxk) hw
    cases hl : lastExpiration (recordsOf t.config.databaseId k p₁) with
    | some e' =>
      obtain ⟨y, hy, hwy⟩ := exists_of_lastExpiration_eq_some hl
      have he' := ha.writes_eq hlast (hmem p₁ (fun z hz => by simp [hp₁, hz]) y hy) hwy
      simp [he, he']
    | none =>
      -- the first to write: the slot already has its expiration from the first pass
      have hset := redoAll_settled ht h.left htp k
      have hexp : s.expirationTime = _ := hs ▸ hset.expiration
      cases hlp : lastExpiration (recordsOf t.config.databaseId k p) with
      | none => simp [lastExpiration_eq_none.mp hlp x hxk] at hw
      | some e' =>
        obtain ⟨y, hy, hwy⟩ := exists_of_lastExpiration_eq_some hlp
        have he' := ha.writes_eq hlast (hmem p (fun _ hz => hz) y hy) hwy
        simp [hexp, hlp, he, he']

end Restores

/-- A record of one key without before-image. -/
def plainRecord (operation : LnOperation) (key data : List UInt8) (expiration : Int32) :
    LnRecord :=
  { dbId := 1, txnId := none, operation := operation, key := key, data := some data,
    abortLsn := nullLsn, abortKnownDeleted := false, abortKey := none, abortData := none,
    expiration := expiration }

/-- The parameters recovery opens a tree with. -/
def recoveryConfig (db : ℕ) : TreeConfig :=
  { databaseId := db, keyComparator := none, maxEntriesPerNode := 256, keyPrefixing := false,
    expirationEnabled := true, maxEmbeddedLn := 16, compactMaxKeyLength := defaultMaxKeyLength }

theorem recoveryConfig_sound (db : ℕ) : (recoveryConfig db).Sound where
  room := show 2 ≤ 256 by decide
  packs := show defaultMaxKeyLength < 65536 by decide

instance (db : ℕ) : LawfulEqCmp (keyCmp (recoveryConfig db).keyComparator) :=
  inferInstanceAs (LawfulEqCmp (keyCmp none))

/-- Distinct positions of the log over an empty tree. -/
theorem redoInput_new {config : TreeConfig} {a b : LnRecord} {i j : Lsn} (hij : i < j)
    (hj : j ≠ nullLsn) :
    RedoInput config.databaseId (Tree.new config).redoView [(a, i), (b, j)] := by
  have hi : i ≠ nullLsn := (hij.trans_le (Fin.le_last j)).ne
  exact ⟨by simp [hij], by simp [hi, hj], fun x _ _ s hs => by cases hs⟩

end Noxu
