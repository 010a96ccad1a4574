import Noxu.Recovery.Drivers

/-!
# Before-Images that Cannot be Read

Undo and revert write the version before a record back; unless it is embedded in the record or
in the chain, it is read from the log. **If nothing can be read there, both remove the key**
and go on, although the recovery manager has a function that would report the missing
before-image as an error.

## Main results

* `UndoStep.apply_of_missing`, `UndoStep.apply_of_found`: what a step that reads its
  before-image leaves in the slot of its record;
* `undo_guards_images_iff`: a missing before-image never removes a key **exactly if none is
  missing**, for both recovery drivers.
-/

open Noxu.Library

namespace Noxu

/-! ### Steps that read their before-image -/

/-- The log has a record at a position. -/
def Readable (log : List PositionedEntry) (lsn : Lsn) : Prop :=
  ∃ rec, readAtLsn log lsn = some (.ln rec)

namespace UndoStep

/-- The position a step reads its before-image from, if it has to. -/
def image? : UndoStep → Option Lsn
  | .skip => none
  | .undo rec _ =>
    if rec.abortLsn = nullLsn ∨ rec.abortKnownDeleted = true ∨ rec.abortData.isSome = true
    then none else some rec.abortLsn
  | .revert _ _ ri =>
    if ri.revertKd = true ∨ ri.revertPd = true ∨ ri.revertData.isSome = true ∨
      ri.revertLsn = nullLsn then none else some ri.revertLsn

/-- The key a before-image is written back under. -/
def imageKey : UndoStep → LnRecord → Key
  | .skip, before => before.key
  | .undo .., before => before.abortKey.getD before.key
  | .revert _ _ ri, before => ri.revertKey.getD before.key

/-- What a step does to a current slot when it has to read the before-image. -/
def imageAction (log : List PositionedEntry) (step : UndoStep) (lsn : Lsn) : RevertAction :=
  match readAtLsn log lsn with
  | some (.ln before) =>
    match before.data with
    | some data => .write (step.imageKey before) data lsn
    | none =>
      match step with
      | .revert .. => .mark lsn
      | _ => .remove
  | _ => .remove

variable {log : List PositionedEntry} {t : Tree} {x : Logged} {step : UndoStep} {lsn : Lsn}

/-- A step that has to read its before-image does what that asks for. -/
theorem apply_of_image (hx : step.rec? = some x) (hlsn : step.image? = some lsn)
    (hcur : undoSlotIsCurrent t x.1.key x.2 = true) :
    step.apply log t =
      match step.imageAction log lsn with
      | .remove => some (t.delete x.1.key).1
      | .mark lsn => some (t.markDeleted x.1.key lsn false).1
      | .write k data lsn => (t.insert none k data lsn).map Prod.fst := by
  cases step with
  | skip => cases hx
  | undo rec l =>
    obtain rfl := Option.some.inj hx
    obtain ⟨hno, hlsn⟩ := Option.ite_none_left_eq_some.mp hlsn
    obtain rfl := Option.some.inj hlsn
    push Not at hno
    obtain ⟨hnull, hkd, hdata⟩ := hno
    have hdata : rec.abortData = none := by simpa using hdata
    dsimp only at hcur
    simp only [apply, undoLn, hcur, hnull, hkd, hdata, imageAction, Bool.not_true,
      Bool.false_eq_true, if_false]
    cases readAtLsn log rec.abortLsn with
    | none => rfl
    | some entry =>
      cases entry with
      | ln before =>
        dsimp only
        cases before.data <;> rfl
      | _ => rfl
  | revert rec l ri =>
    obtain rfl := Option.some.inj hx
    obtain ⟨hno, hlsn⟩ := Option.ite_none_left_eq_some.mp hlsn
    obtain rfl := Option.some.inj hlsn
    push Not at hno
    obtain ⟨hkd, hpd, hdata, hnull⟩ := hno
    have hdata : ri.revertData = none := by simpa using hdata
    dsimp only at hcur
    simp only [apply, applyRevertInfo, hcur, hnull, hkd, hpd, hdata, imageAction,
      revertToDeleted, Bool.not_true, Bool.false_eq_true, if_false, Bool.or_self]
    cases readAtLsn log ri.revertLsn with
    | none => rfl
    | some entry =>
      cases entry with
      | ln before =>
        dsimp only
        cases before.data <;> rfl
      | _ => rfl

/-- **A before-image that cannot be read removes the key.** -/
theorem apply_of_missing (ht : TreeWF t) (hx : step.rec? = some x)
    (hlsn : step.image? = some lsn) (hcur : undoSlotIsCurrent t x.1.key x.2 = true)
    (hmiss : ¬ Readable log lsn) :
    ∃ t', step.apply log t = some t' ∧ t'.slotOf x.1.key = none := by
  have haction : step.imageAction log lsn = .remove := by
    unfold imageAction
    cases hread : readAtLsn log lsn with
    | none => rfl
    | some entry =>
      cases entry with
      | ln before => exact absurd ⟨before, hread⟩ hmiss
      | _ => rfl
  refine ⟨_, (apply_of_image hx hlsn hcur).trans (by rw [haction]), ?_⟩
  rw [(Tree.delete_spec ht x.1.key).1.slotOf_cmp, if_pos Std.ReflCmp.compare_self]

/-- A before-image that is read and has data is written back. -/
theorem apply_of_found (ht : TreeWF t) (hmax : 2 ≤ t.config.maxEntriesPerNode)
    (hx : step.rec? = some x) (hlsn : step.image? = some lsn)
    (hcur : undoSlotIsCurrent t x.1.key x.2 = true) {before : LnRecord} {data : List UInt8}
    (hread : readAtLsn log lsn = some (.ln before)) (hdata : before.data = some data)
    (hkey : step.imageKey before = x.1.key) :
    ∃ t' s, step.apply log t = some t' ∧ t'.slotOf x.1.key = some s ∧ s.lsn = lsn ∧
      s.isDeleted = false ∧ s.data = some data := by
  have haction : step.imageAction log lsn = .write x.1.key data lsn := by
    simp only [imageAction, hread, hdata, hkey]
  obtain ⟨t', flag, l, heq, hins⟩ := Tree.insert_spec ht hmax none x.1.key data lsn
  have happly : step.apply log t = some t' := by
    rw [apply_of_image hx hlsn hcur, haction]
    simp [heq]
  have hhere := hins.edits.here
  rw [← hins.config] at hhere
  unfold Tree.upsert at hhere
  split at hhere
  · exact ⟨t', _, happly, hhere, rfl, rfl, rfl⟩
  · unfold upsertSlot at hhere
    cases hold : lookup (keyCmp t'.config.keyComparator) BinSlot.key x.1.key l with
    | none =>
      rw [hold] at hhere
      exact ⟨t', _, happly, hhere, rfl, rfl, rfl⟩
    | some s =>
      rw [hold] at hhere
      exact ⟨t', _, happly, hhere, rfl, rfl, rfl⟩

end UndoStep

/-! ### Passes -/

/-- A pass reaches an entry, decides on a step for it, and the slot of its record is current. -/
structure Acts {σ : Type} (access : TreeAccess σ) (log : List PositionedEntry)
    (a : AnalysisResult) (tracker : RollbackTracker) (s₀ : σ × Chains) (entries : List Scanned)
    (step : UndoStep) (t : Tree) (x : Logged) : Prop where
  reached : ∃ pre e post s chains, entries = pre ++ e :: post ∧
    pre.foldlM (undoScanned access log a tracker) s₀ = some s ∧
    undoDecision a tracker s.2 e = some (step, chains) ∧ access.get s.1 x.1.dbId = some t
  record : step.rec? = some x
  current : undoSlotIsCurrent t x.1.key x.2 = true

/-- A before-image that has to be read is never taken for a deletion: if it cannot be read the
pass fails and the key keeps its slot, and if it is read its data are written back. -/
def GuardsImages {σ : Type} (access : TreeAccess σ) (log : List PositionedEntry)
    (a : AnalysisResult) (tracker : RollbackTracker) (s₀ : σ × Chains)
    (entries : List Scanned) : Prop :=
  ∀ step t x, Acts access log a tracker s₀ entries step t x → ∀ lsn, step.image? = some lsn →
    (¬ Readable log lsn →
      entries.foldlM (undoScanned access log a tracker) s₀ = none ∧
        ∀ t', step.apply log t = some t' → (t'.slotOf x.1.key).isSome = true) ∧
    ∀ before data, readAtLsn log lsn = some (.ln before) → before.data = some data →
      step.imageKey before = x.1.key →
        ∃ t' s, step.apply log t = some t' ∧ t'.slotOf x.1.key = some s ∧ s.lsn = lsn ∧
          s.isDeleted = false ∧ s.data = some data

/-- Every before-image the pass has to read is in the log. -/
def ImagesFound {σ : Type} (access : TreeAccess σ) (log : List PositionedEntry)
    (a : AnalysisResult) (tracker : RollbackTracker) (s₀ : σ × Chains)
    (entries : List Scanned) : Prop :=
  ∀ step t x, Acts access log a tracker s₀ entries step t x → ∀ lsn, step.image? = some lsn →
    Readable log lsn

/-- A tree that operations work on. -/
def Tree.Usable (t : Tree) : Prop := TreeWF t ∧ 2 ≤ t.config.maxEntriesPerNode

/-- Setting a tree changes no other. -/
def TreeAccess.SetsOne {σ : Type} (access : TreeAccess σ) : Prop :=
  ∀ s db t db' u, access.get (access.set s db t) db' = some u → u = t ∨ access.get s db' = some u

section Passes

variable {σ : Type} {access : TreeAccess σ} {log : List PositionedEntry} {a : AnalysisResult}
  {tracker : RollbackTracker} {s₀ : σ × Chains} {entries : List Scanned}

theorem setsOne_all : TreeAccess.all.SetsOne := by
  intro trees db t db' u h
  simp only [TreeAccess.all, Function.update_apply] at h ⊢
  split at h
  · exact .inl (Option.some.inj h).symm
  · exact .inr h

theorem setsOne_single : TreeAccess.single.SetsOne := by
  intro s db t db' u h
  simp only [TreeAccess.single] at h
  split at h
  · exact .inl (Option.some.inj h).symm
  · cases h

/-- A step returns a tree that operations work on. -/
theorem UndoStep.apply_usable (log : List PositionedEntry) {t : Tree} (ht : t.Usable)
    (step : UndoStep) :
    ∃ t', step.apply log t = some t' ∧ t'.Usable := by
  have hof : ∀ {t'}, TreeWF t' → t'.config = t.config → t'.Usable :=
    fun hwf hconfig => ⟨hwf, hconfig ▸ ht.2⟩
  cases step with
  | skip => exact ⟨t, rfl, ht⟩
  | undo rec lsn =>
    obtain ⟨t', heq, hwf, hconfig, -⟩ := undoLn_spec log ht.1 ht.2 (rec, lsn)
    exact ⟨t', heq, hof hwf hconfig⟩
  | revert rec lsn ri =>
    rw [UndoStep.apply, applyRevertInfo_eq log t (rec, lsn) ri]
    split
    · split
      · have hdel := (Tree.delete_spec ht.1 rec.key).1
        exact ⟨_, rfl, hof hdel.wf hdel.config⟩
      · rename_i l _
        have hmark := (Tree.markDeleted_spec ht.1 rec.key l false).1
        exact ⟨_, rfl, hof hmark.wf hmark.config⟩
      · rename_i k data l _
        obtain ⟨t', flag, slots, heq, hins⟩ := Tree.insert_spec ht.1 ht.2 none k data l
        exact ⟨t', by simp [heq], hof hins.wf hins.config⟩
    · exact ⟨t, rfl, ht⟩

/-- One entry keeps the trees usable. -/
theorem undoScanned_usable (hset : access.SetsOne)
    (hs : ∀ db t, access.get s₀.1 db = some t → t.Usable) {e : Scanned} {s : σ × Chains}
    (h : undoScanned access log a tracker s₀ e = some s) :
    ∀ db t, access.get s.1 db = some t → t.Usable := by
  obtain ⟨d, -, h⟩ := Option.bind_eq_some_iff.mp h
  split at h
  · obtain rfl := Option.some.inj h
    exact hs
  · split at h
    · rename_i x _ u hu
      obtain ⟨t', heq, huse⟩ := UndoStep.apply_usable log (hs _ u hu) d.1
      rw [heq] at h
      obtain rfl := Option.some.inj h
      intro db t ht
      rcases hset _ _ _ _ _ ht with rfl | ht
      · exact huse
      · exact hs db t ht
    · obtain rfl := Option.some.inj h
      exact hs

/-- A pass keeps the trees usable. -/
theorem foldlM_undoScanned_usable (hset : access.SetsOne) (entries : List Scanned)
    {s : σ × Chains} (hs : ∀ db t, access.get s₀.1 db = some t → t.Usable)
    (h : entries.foldlM (undoScanned access log a tracker) s₀ = some s) :
    ∀ db t, access.get s.1 db = some t → t.Usable := by
  induction entries generalizing s₀ with
  | nil =>
    obtain rfl := Option.some.inj h
    exact hs
  | cons e entries ih =>
    obtain ⟨s₁, h₁, h⟩ := Option.bind_eq_some_iff.mp h
    exact ih (undoScanned_usable hset hs h₁) h

/-- **A pass guards the before-images exactly if it finds them.** -/
theorem guardsImages_iff (hset : access.SetsOne)
    (hs : ∀ db t, access.get s₀.1 db = some t → t.Usable) :
    GuardsImages access log a tracker s₀ entries ↔
      ImagesFound access log a tracker s₀ entries := by
  have huse : ∀ {step t x}, Acts access log a tracker s₀ entries step t x → t.Usable := by
    intro step t x h
    obtain ⟨pre, e, post, s, chains, -, hpre, -, ht⟩ := h.reached
    exact foldlM_undoScanned_usable hset pre hs hpre _ t ht
  constructor
  · intro hguards step t x hacts lsn hlsn
    by_contra hmiss
    obtain ⟨t', happly, hgone⟩ :=
      UndoStep.apply_of_missing (huse hacts).1 hacts.record hlsn hacts.current hmiss
    have hkept := ((hguards step t x hacts lsn hlsn).1 hmiss).2 t' happly
    rw [hgone] at hkept
    cases hkept
  · intro hfound step t x hacts lsn hlsn
    refine ⟨fun hmiss => absurd (hfound step t x hacts lsn hlsn) hmiss, ?_⟩
    intro before data hread hdata hkey
    exact UndoStep.apply_of_found (huse hacts).1 (huse hacts).2 hacts.record hlsn hacts.current
      hread hdata hkey

end Passes

/-! ### Both drivers -/

/-- **The exact condition for guarded before-images**, in the undo and the revert of all trees
and of one tree: no before-image that has to be read is missing from the log. -/
theorem undo_guards_images_iff (log : List Scanned) (a : AnalysisResult)
    (tracker : RollbackTracker) (trees : Trees) (t : Tree)
    (htrees : ∀ db u, trees db = some u → u.Usable) (ht : t.Usable) :
    (∀ chains, buildRollbackChains log tracker trees = some chains →
      (GuardsImages TreeAccess.all (plainLog log) a tracker (trees, chains)
          (undoVisits log a chains) ↔
        ImagesFound TreeAccess.all (plainLog log) a tracker (trees, chains)
          (undoVisits log a chains))) ∧
    ∀ chains, buildSingleTreeChains log tracker t = some chains →
      (GuardsImages TreeAccess.single (plainLog log) a tracker (t, chains)
          (undoVisits log a chains) ↔
        ImagesFound TreeAccess.single (plainLog log) a tracker (t, chains)
          (undoVisits log a chains)) := by
  refine ⟨fun chains _ => guardsImages_iff setsOne_all htrees,
    fun chains _ => guardsImages_iff setsOne_single fun db u hu => ?_⟩
  simp only [TreeAccess.single] at hu
  obtain ⟨-, hu⟩ := Option.ite_none_right_eq_some.mp hu
  exact Option.some.inj hu ▸ ht

/-- The update of a key by a transaction that does not end; its before-image is at position 1,
and not embedded. -/
def lostImageLn : LnRecord :=
  { plainRecord .update [1] [7] 0 with txnId := some 5, abortLsn := 1 }

/-- A tree that holds the update. -/
def lostImageTree : Tree :=
  (((Tree.new (recoveryConfig 1)).insert none [1] [7] 10).map Prod.fst).getD
    (Tree.new (recoveryConfig 1))

theorem lostImageTree_usable : lostImageTree.Usable := by
  obtain ⟨t', flag, l, heq, hins⟩ := Tree.insert_spec (recoveryConfig_sound 1).treeWF_new
    (recoveryConfig_sound 1).room none [1] [7] 10
  have hmax : 2 ≤ t'.config.maxEntriesPerNode := by rw [hins.config]; decide
  rw [lostImageTree, heq]
  exact ⟨hins.wf, hmax⟩

/-- The log of the update without its before-image. -/
def lostImageLog : List Scanned := [⟨10, .plain (.ln lostImageLn) none false⟩]

/-- The log of the update with its before-image. -/
def keptImageLog : List Scanned :=
  ⟨1, .plain (.ln (plainRecord .insert [1] [6] 0)) none false⟩ :: lostImageLog

/-- The before-image of the unfinished update is in the log, and guarded. -/
theorem undo_guards_kept_image :
    ImagesFound TreeAccess.single (plainLog keptImageLog) (analyse true (plainLog keptImageLog))
        .new (lostImageTree, [])
          (undoVisits keptImageLog (analyse true (plainLog keptImageLog)) []) ∧
      GuardsImages TreeAccess.single (plainLog keptImageLog)
        (analyse true (plainLog keptImageLog)) .new (lostImageTree, [])
        (undoVisits keptImageLog (analyse true (plainLog keptImageLog)) []) := by
  have hfound : ImagesFound TreeAccess.single (plainLog keptImageLog)
      (analyse true (plainLog keptImageLog)) .new (lostImageTree, [])
      (undoVisits keptImageLog (analyse true (plainLog keptImageLog)) []) := by
    rintro step t x ⟨⟨pre, e, post, s, chains, hentries, -, hdec, -⟩, hrec, -⟩ lsn hlsn
    have hvisits : undoVisits keptImageLog (analyse true (plainLog keptImageLog)) [] =
        [⟨10, .plain (.ln lostImageLn) none false⟩,
          ⟨1, .plain (.ln (plainRecord .insert [1] [6] 0)) none false⟩] := by decide +kernel
    have hmem : e ∈ pre ++ e :: post := by simp
    rw [← hentries, hvisits] at hmem
    rcases List.mem_cons.mp hmem with rfl | hmem
    · obtain ⟨rfl, -⟩ := Prod.mk.inj (Option.some.inj hdec)
      obtain rfl : 1 = lsn := Option.some.inj hlsn
      exact ⟨plainRecord .insert [1] [6] 0, by decide +kernel⟩
    · obtain rfl := List.mem_singleton.mp hmem
      obtain ⟨rfl, -⟩ := Prod.mk.inj (Option.some.inj hdec)
      cases hrec
  exact ⟨hfound, ((undo_guards_images_iff keptImageLog (analyse true (plainLog keptImageLog)) .new
    (fun _ => none) lostImageTree (by rintro _ _ ⟨⟩) lostImageTree_usable).2 [] rfl).mpr hfound⟩

/-- The before-image is gone from the log: undo removes the key and goes on. -/
theorem undo_deletes_for_lost_image :
    ¬ GuardsImages TreeAccess.single (plainLog lostImageLog)
      (analyse true (plainLog lostImageLog)) .new (lostImageTree, [])
      (undoVisits lostImageLog (analyse true (plainLog lostImageLog)) []) := by
  intro h
  have hacts : Acts TreeAccess.single (plainLog lostImageLog)
      (analyse true (plainLog lostImageLog)) .new (lostImageTree, [])
      (undoVisits lostImageLog (analyse true (plainLog lostImageLog)) [])
      (.undo lostImageLn 10) lostImageTree (lostImageLn, 10) := by
    refine ⟨⟨[], ⟨10, .plain (.ln lostImageLn) none false⟩, [], (lostImageTree, []), [], ?_, rfl,
      ?_, ?_⟩, rfl, by decide +kernel⟩
    · decide +kernel
    · rfl
    · have hdb : lostImageTree.config.databaseId = lostImageLn.dbId := by decide +kernel
      simp only [TreeAccess.single, hdb, if_true]
  have hmiss : ¬ Readable (plainLog lostImageLog) 1 := by
    rintro ⟨rec, hrec⟩
    have hnone : readAtLsn (plainLog lostImageLog) 1 = none := by decide +kernel
    rw [hnone] at hrec
    cases hrec
  obtain ⟨t', happly, hgone⟩ := UndoStep.apply_of_missing lostImageTree_usable.1 hacts.record
    (show UndoStep.image? (.undo lostImageLn 10) = some 1 by decide +kernel) hacts.current hmiss
  have hkept := ((h _ _ _ hacts 1 (by decide +kernel)).1 hmiss).2 t' happly
  rw [hgone] at hkept
  cases hkept

end Noxu
