import Noxu.Recovery.Analysis

/-!
# The Catalog of Database Names

The forward scan keeps one binding for each database name and one removal that is yet to
be decided; the mapping-tree pass repairs both once the fates of the transactions are
known. This module compares the catalog that is left with the one the events of the name
call for: the binding of its last effective event.

## Main results

* `foldl_process_view`: the scan's state for a name is a run over the events of the name;
* `runMappingTreeUndoPass_names`: what the pass keeps of a binding;
* `recovered_name_eq_expected_iff`: **the exact condition under which a name is
  recovered.**
-/

namespace Noxu

/-! ### The mapping-tree pass -/

/-- The binding of a name was made by a transaction that did not commit it: no commit is
recorded, or only one from before the binding. -/
def bindingUndone (a : AnalysisResult) (name : String) : Bool :=
  (a.recoveredDbNames name).isSome &&
    match a.recoveredDbTxnIds name with
    | none => false
    | some tid =>
      match a.committedTxns tid, a.recoveredDbNameLsns name with
      | none, _ => true
      | some commitLsn, some nameLsn => decide (commitLsn < nameLsn)
      | some _, none => false

/-- The deferred removal of a name was committed. -/
def deleteCommitted (a : AnalysisResult) (name : String) : Bool :=
  match a.pendingNameDeletes name with
  | some tid => a.isCommitted tid
  | none => false

/-- The pass that settles the catalog: bindings that were not committed are dropped, then
removals that were committed are applied. -/
def runMappingTreeUndoPass (a : AnalysisResult) : AnalysisResult :=
  let undone := { a with
    recoveredDbNames := fun n => if bindingUndone a n then none else a.recoveredDbNames n
    recoveredDbTxnIds := fun n => if bindingUndone a n then none else a.recoveredDbTxnIds n
    recoveredDbNameLsns := fun n =>
      if bindingUndone a n then none else a.recoveredDbNameLsns n }
  { undone with
    recoveredDbNames := fun n =>
      if deleteCommitted undone n then none else undone.recoveredDbNames n
    recoveredDbTxnIds := fun n =>
      if deleteCommitted undone n then none else undone.recoveredDbTxnIds n
    pendingNameDeletes := fun _ => none }

/-! ### The catalog the events call for -/

/-- An event of a name at its position. -/
abbrev NameEvent := Lsn × NameLnRecord

/-- The events of a name, in log order. -/
def nameEvents (name : String) (log : List PositionedEntry) : List NameEvent :=
  log.filterMap fun e =>
    match e.entry with
    | .nameLn rec => if rec.name = name then some (e.lsn, rec) else none
    | _ => none

instance (log : List PositionedEntry) (txnId : ℕ) : Decidable (Committed log txnId) :=
  inferInstanceAs (Decidable (∃ e ∈ log, e.entry = .txnCommit txnId))

/-- The event has no transaction, or one that committed. -/
def effective (log : List PositionedEntry) (e : NameEvent) : Bool :=
  e.2.txnId.all fun txnId => decide (Committed log txnId)

/-- The identifier of the last effective event of the name, if it is a binding. -/
def expectedCatalog (log : List PositionedEntry) (name : String) : Option ℕ :=
  ((nameEvents name log).filter (effective log)).getLast?.bind fun e =>
    if e.2.isDeleted then none else some e.2.dbId

/-- The writers of the transactional events of a list. -/
def writers (evs : List NameEvent) : List ℕ := evs.filterMap fun e => e.2.txnId

/-- The condition on the last binding `e` of a name, with the events `pre` before it and
the removals `post` after it. If the binding is effective and a transactional removal
after it is, so is the last one, unless one without a transaction follows; if it is not,
no earlier binding is still in force. -/
def LastBindingSettled (log : List PositionedEntry) (pre : List NameEvent) (e : NameEvent)
    (post : List NameEvent) : Prop :=
  (effective log e = true → (∃ x ∈ post, x.2.txnId = none) ∨
    ∀ txnId, (writers post).getLast? = some txnId →
      (∃ x ∈ post, effective log x = true) → Committed log txnId) ∧
  (effective log e = false → (∃ x ∈ post, effective log x = true) ∨
    ∀ x, (pre.filter (effective log)).getLast? = some x → x.2.isDeleted = true)

/-- The last binding of the name, if there is one, is settled. -/
def NameSettled (log : List PositionedEntry) (name : String) : Prop :=
  ∀ pre e post, nameEvents name log = pre ++ e :: post → e.2.isDeleted = false →
    (∀ x ∈ post, x.2.isDeleted = true) → LastBindingSettled log pre e post

/-! ### The scan of one name -/

/-- What the scan holds for one name. -/
@[ext]
structure NameView where
  /-- The identifier. -/
  binding : Option ℕ
  /-- The transaction that bound it. -/
  writer : Option ℕ
  /-- Where that transaction bound it. -/
  boundAt : Option Lsn
  /-- The transaction of the deferred removal. -/
  removal : Option ℕ

/-- The part of a result that concerns one name. -/
def AnalysisResult.view (a : AnalysisResult) (name : String) : NameView where
  binding := a.recoveredDbNames name
  writer := a.recoveredDbTxnIds name
  boundAt := a.recoveredDbNameLsns name
  removal := a.pendingNameDeletes name

/-- One event of the name. -/
def NameView.step (v : NameView) (e : NameEvent) : NameView :=
  if e.2.isDeleted then
    match e.2.txnId with
    | some tid => { v with removal := some tid }
    | none => { v with binding := none, writer := none, boundAt := none }
  else ⟨some e.2.dbId, e.2.txnId, e.2.txnId.map fun _ => e.1, none⟩

/-- An event of the name steps its view, and leaves those of other names. -/
theorem view_recordName (a : AnalysisResult) (lsn : Lsn) (rec : NameLnRecord)
    (name : String) : (a.recordName lsn rec).view name =
      if rec.name = name then (a.view name).step (lsn, rec) else a.view name := by
  by_cases hn : rec.name = name
  · subst hn
    unfold AnalysisResult.recordName NameView.step
    simp only [if_true]
    split
    · split <;> simp_all [AnalysisResult.view]
    · simp [AnalysisResult.view]
  · unfold AnalysisResult.recordName
    simp only [hn, if_false]
    split
    · split <;> simp [AnalysisResult.view, Function.update_of_ne (Ne.symm hn)]
    · simp [AnalysisResult.view, Function.update_of_ne (Ne.symm hn)]

/-- An entry that is no event of a name leaves the catalog as it is. -/
theorem view_process_of_ne (a : AnalysisResult) (e : PositionedEntry) (name : String)
    (h : ∀ rec, e.entry ≠ .nameLn rec) : (a.process e).view name = a.view name := by
  obtain ⟨lsn, entry⟩ := e
  cases entry with
  | ln rec =>
    obtain ⟨_, heq, -⟩ := a.process_ln lsn rec
    rw [heq]
    rfl
  | ckptEnd rec =>
    obtain ⟨_, _, _, _, heq⟩ := a.process_ckptEnd lsn rec
    rw [heq]
    rfl
  | nameLn rec => exact absurd rfl (h rec)
  | _ => rfl

/-- **The scan of a name is a run over its events.** -/
theorem foldl_process_view (log : List PositionedEntry) (a : AnalysisResult)
    (name : String) : (log.foldl AnalysisResult.process a).view name =
      (nameEvents name log).foldl NameView.step (a.view name) := by
  induction log generalizing a with
  | nil => rfl
  | cons e log ih =>
    rw [List.foldl_cons, ih]
    cases he : e.entry with
    | nameLn rec =>
      have hstep : a.process e = a.recordName e.lsn rec := by
        simp [AnalysisResult.process, he]
      rw [hstep, view_recordName]
      by_cases hn : rec.name = name <;> simp [nameEvents, he, hn]
    | _ =>
      rw [view_process_of_ne a e name (by simp [he])]
      simp [nameEvents, he]

/-! ### Removals after the last binding -/

section Removals

variable {post : List NameEvent} (v : NameView)

/-- A removal keeps an unbound name unbound. -/
theorem step_binding_none {x : NameEvent} (hx : x.2.isDeleted = true)
    (h : x.2.txnId = none ∨ v.binding = none) : (v.step x).binding = none := by
  simp only [NameView.step, hx, if_true]
  split
  · rename_i ht
    simpa [ht] using h
  · rfl

/-- A removal without a transaction leaves the name unbound. -/
theorem foldl_step_unbound (hpost : ∀ x ∈ post, x.2.isDeleted = true)
    (h : (∃ x ∈ post, x.2.txnId = none) ∨ v.binding = none) :
    (post.foldl NameView.step v).binding = none := by
  induction post generalizing v with
  | nil => simpa using h
  | cons x post ih =>
    rw [List.foldl_cons]
    refine ih _ (fun y hy => hpost y (List.mem_cons_of_mem _ hy)) ?_
    rcases h with ⟨y, hy, hnone⟩ | h
    · rcases List.mem_cons.mp hy with rfl | hy
      · exact .inr (step_binding_none v (hpost _ List.mem_cons_self) (.inl hnone))
      · exact .inl ⟨y, hy, hnone⟩
    · exact .inr (step_binding_none v (hpost _ List.mem_cons_self) (.inr h))

/-- Transactional removals are deferred: the binding stays, and the last of them is kept. -/
theorem foldl_step_deferred (hpost : ∀ x ∈ post, x.2.isDeleted = true)
    (h : ¬ ∃ x ∈ post, x.2.txnId = none) :
    post.foldl NameView.step v =
      { v with removal := (writers post).getLast?.or v.removal } := by
  induction post using List.reverseRecOn with
  | nil => simp [writers]
  | append_singleton post x ih =>
    have hx : x.2.isDeleted = true := hpost x (by simp)
    obtain ⟨t, ht⟩ : ∃ t, x.2.txnId = some t := by
      refine Option.ne_none_iff_exists'.mp fun hnone => h ⟨x, by simp, hnone⟩
    rw [List.foldl_append, ih (fun y hy => hpost y (List.mem_append_left _ hy))
      (fun ⟨y, hy, hnone⟩ => h ⟨y, List.mem_append_left _ hy, hnone⟩)]
    simp [NameView.step, writers, hx, ht]

end Removals

/-! ### What the events call for -/

section Expected

variable {log : List PositionedEntry} {name : String} {pre post : List NameEvent}
  {e : NameEvent}

/-- An effective removal after the last binding unbinds the name. -/
theorem expectedCatalog_removed (hevs : nameEvents name log = pre ++ e :: post)
    (hpost : ∀ x ∈ post, x.2.isDeleted = true) (h : ∃ x ∈ post, effective log x = true) :
    expectedCatalog log name = none := by
  obtain ⟨x, hx, hx'⟩ := h
  have hne : post.filter (effective log) ≠ [] :=
    List.ne_nil_of_mem (List.mem_filter.mpr ⟨hx, hx'⟩)
  have hlast := List.getLast_mem hne
  have hdel := hpost _ (List.mem_filter.mp hlast).1
  rw [expectedCatalog, hevs, List.append_cons, List.filter_append,
    List.getLast?_append_of_ne_nil _ hne, List.getLast?_eq_some_getLast hne, Option.bind_some,
    if_pos hdel]

/-- Without one, an effective last binding stands. -/
theorem expectedCatalog_bound (hevs : nameEvents name log = pre ++ e :: post)
    (hlive : e.2.isDeleted = false) (he : effective log e = true)
    (h : ¬ ∃ x ∈ post, effective log x = true) : expectedCatalog log name = some e.2.dbId := by
  have hnil : post.filter (effective log) = [] :=
    List.filter_eq_nil_iff.mpr fun x hx hx' => h ⟨x, hx, hx'⟩
  rw [expectedCatalog, hevs, List.filter_append, List.filter_cons, he, hnil]
  simp [hlive]

/-- Without one, a last binding that is not effective leaves the decision to what came
before it. -/
theorem expectedCatalog_before (hevs : nameEvents name log = pre ++ e :: post)
    (he : effective log e = false) (h : ¬ ∃ x ∈ post, effective log x = true) :
    expectedCatalog log name = none ↔
      ∀ x, (pre.filter (effective log)).getLast? = some x → x.2.isDeleted = true := by
  have hnil : post.filter (effective log) = [] :=
    List.filter_eq_nil_iff.mpr fun x hx hx' => h ⟨x, hx, hx'⟩
  rw [expectedCatalog, hevs, List.filter_append, List.filter_cons, he, hnil]
  simp [Option.bind_eq_none_iff]

end Expected

/-! ### The recovered name -/

/-- What the pass keeps of a binding. -/
theorem runMappingTreeUndoPass_names (a : AnalysisResult) (name : String) :
    (runMappingTreeUndoPass a).recoveredDbNames name =
      if deleteCommitted a name || bindingUndone a name then none
      else a.recoveredDbNames name := by
  have hdel : ∀ names txnIds lsns, deleteCommitted { a with
      recoveredDbNames := names
      recoveredDbTxnIds := txnIds
      recoveredDbNameLsns := lsns } name = deleteCommitted a name := fun _ _ _ => rfl
  simp only [runMappingTreeUndoPass, hdel]
  cases deleteCommitted a name <;> simp

section Recovered

variable {log : List PositionedEntry} {name : String} {pre post : List NameEvent}
  {e : NameEvent}

theorem mem_nameEvents {x : NameEvent} (h : x ∈ nameEvents name log) :
    ⟨x.1, .nameLn x.2⟩ ∈ log := by
  obtain ⟨⟨lsn, entry⟩, hmem, hx⟩ := List.mem_filterMap.mp h
  cases entry with
  | nameLn rec =>
    simp only [Option.ite_none_right_eq_some, Option.some.injEq] at hx
    obtain ⟨-, rfl⟩ := hx
    exact hmem
  | _ => simp at hx

/-- The scan's state for a name. -/
theorem runAnalysis_view (h : LogWF log) : (runAnalysis log).view name =
    (nameEvents name log).foldl NameView.step ⟨none, none, none, none⟩ := by
  rw [runAnalysis_eq h.whole, foldl_process_view]
  rcases findLastCheckpoint_cases log with heq | ⟨_, _, _, heq⟩ <;> rw [heq] <;> rfl

/-- The scan's state for a name with a last binding. -/
theorem runAnalysis_view_of_binding (h : LogWF log)
    (hevs : nameEvents name log = pre ++ e :: post) (hlive : e.2.isDeleted = false) :
    (runAnalysis log).view name = post.foldl NameView.step
      ⟨some e.2.dbId, e.2.txnId, e.2.txnId.map fun _ => e.1, none⟩ := by
  rw [runAnalysis_view h, hevs, List.foldl_append, List.foldl_cons]
  simp [NameView.step, hlive]

/-- The pass undoes a binding exactly when it is not effective. -/
theorem bindingUndone_eq (h : LogWF log) (hmem : e ∈ nameEvents name log)
    {removal : Option ℕ} (hview : (runAnalysis log).view name =
      ⟨some e.2.dbId, e.2.txnId, e.2.txnId.map fun _ => e.1, removal⟩) :
    bindingUndone (runAnalysis log) name = !effective log e := by
  obtain ⟨hname, htxn, hlsn, -⟩ := NameView.mk.injEq .. ▸ hview
  rw [bindingUndone, hname, htxn, hlsn, effective]
  cases ht : e.2.txnId with
  | none => rfl
  | some t =>
    cases hc : (runAnalysis log).committedTxns t with
    | none =>
      have hnot : ¬ Committed log t := by
        rw [← runAnalysis_committed h.whole, AnalysisResult.isCommitted, hc]
        simp
      simp [hc, hnot]
    | some c =>
      have hcommit := runAnalysis_commit_lsn h.whole hc
      have hlt : e.1 < c := h.lt_commit (mem_nameEvents hmem) ht (by simp [LogEntry.ends])
        hcommit
      have hyes : Committed log t := ⟨_, hcommit, rfl⟩
      simp [hc, hyes, hlt.le]

/-- The pass applies the last transactional removal exactly when it committed. -/
theorem deleteCommitted_iff (h : LogWF log) :
    deleteCommitted (runAnalysis log) name = true ↔
      ∃ txnId, ((runAnalysis log).view name).removal = some txnId ∧ Committed log txnId := by
  rw [deleteCommitted]
  cases hp : (runAnalysis log).pendingNameDeletes name with
  | none => simp [AnalysisResult.view, hp]
  | some t => simp [AnalysisResult.view, hp, runAnalysis_committed h.whole]

/-- A removal without a transaction settles the name. -/
theorem settled_of_removed (h : LogWF log) (hevs : nameEvents name log = pre ++ e :: post)
    (hlive : e.2.isDeleted = false) (hpost : ∀ x ∈ post, x.2.isDeleted = true)
    (hrem : ∃ x ∈ post, x.2.txnId = none) :
    (runMappingTreeUndoPass (runAnalysis log)).recoveredDbNames name =
      expectedCatalog log name ↔ LastBindingSettled log pre e post := by
  have heff : ∃ x ∈ post, effective log x = true := by
    obtain ⟨x, hx, ht⟩ := hrem
    exact ⟨x, hx, by simp [effective, ht]⟩
  have hcode : (runAnalysis log).recoveredDbNames name = none := by
    have := congrArg NameView.binding (runAnalysis_view_of_binding h hevs hlive)
    rw [foldl_step_unbound _ hpost (.inl hrem)] at this
    exact this
  rw [runMappingTreeUndoPass_names, hcode, expectedCatalog_removed hevs hpost heff, ite_self]
  exact iff_of_true rfl ⟨fun _ => .inl hrem, fun _ => .inl heff⟩

/-- The name as the pass leaves it when every removal after its last binding is deferred. -/
theorem recovered_of_deferred (h : LogWF log) (hevs : nameEvents name log = pre ++ e :: post)
    (hlive : e.2.isDeleted = false) (hpost : ∀ x ∈ post, x.2.isDeleted = true)
    (hrem : ¬ ∃ x ∈ post, x.2.txnId = none) :
    ((runMappingTreeUndoPass (runAnalysis log)).recoveredDbNames name = none ∧
        (effective log e = false ∨
          ∃ txnId, (writers post).getLast? = some txnId ∧ Committed log txnId)) ∨
      ((runMappingTreeUndoPass (runAnalysis log)).recoveredDbNames name = some e.2.dbId ∧
        effective log e = true ∧
          ∀ txnId, (writers post).getLast? = some txnId → ¬ Committed log txnId) := by
  have hview := runAnalysis_view_of_binding h hevs hlive
  rw [foldl_step_deferred _ hpost hrem, Option.or_none] at hview
  have hundone := bindingUndone_eq h (hevs ▸ by simp) hview
  have hdelete : deleteCommitted (runAnalysis log) name = true ↔ _ := deleteCommitted_iff h
  rw [hview] at hdelete
  have hname : (runAnalysis log).recoveredDbNames name = some e.2.dbId :=
    congrArg NameView.binding hview
  rw [runMappingTreeUndoPass_names, hundone, hname]
  cases he : effective log e with
  | false => exact .inl ⟨by simp, .inl rfl⟩
  | true =>
    by_cases hd : deleteCommitted (runAnalysis log) name = true
    · exact .inl ⟨by simp [hd], .inr (hdelete.mp hd)⟩
    · exact .inr ⟨by simp [hd], rfl, fun t ht hc => hd (hdelete.mpr ⟨t, ht, hc⟩)⟩

/-- Deferred removals have a last one. -/
theorem exists_last_writer {x : NameEvent} (hx : x ∈ post)
    (hrem : ¬ ∃ x ∈ post, x.2.txnId = none) : ∃ txnId, (writers post).getLast? = some txnId := by
  obtain ⟨t, ht⟩ : ∃ t, x.2.txnId = some t :=
    Option.ne_none_iff_exists'.mp fun hnone => hrem ⟨x, hx, hnone⟩
  have hne : writers post ≠ [] := List.ne_nil_of_mem (List.mem_filterMap.mpr ⟨x, hx, ht⟩)
  exact ⟨_, List.getLast?_eq_some_getLast hne⟩

/-- The last binding of a name decides whether the name is recovered. -/
theorem settled_of_binding (h : LogWF log) (hevs : nameEvents name log = pre ++ e :: post)
    (hlive : e.2.isDeleted = false) (hpost : ∀ x ∈ post, x.2.isDeleted = true) :
    (runMappingTreeUndoPass (runAnalysis log)).recoveredDbNames name =
      expectedCatalog log name ↔ LastBindingSettled log pre e post := by
  by_cases hrem : ∃ x ∈ post, x.2.txnId = none
  · exact settled_of_removed h hevs hlive hpost hrem
  by_cases heff : ∃ x ∈ post, effective log x = true
  · -- the name is to be unbound, and is unless the last removal did not commit
    rw [expectedCatalog_removed hevs hpost heff]
    obtain ⟨x, hx, -⟩ := id heff
    obtain ⟨t, ht⟩ := exists_last_writer hx hrem
    rcases recovered_of_deferred h hevs hlive hpost hrem with ⟨hcode, hwhy⟩ | ⟨hcode, he, hlast⟩
    · refine iff_of_true hcode ⟨fun he => .inr fun t' ht' _ => ?_, fun _ => .inl heff⟩
      rcases hwhy with hwhy | ⟨t'', ht'', hc⟩
      · rw [he] at hwhy
        exact absurd hwhy (by decide)
      · rw [ht''] at ht'
        exact Option.some.inj ht' ▸ hc
    · rw [hcode]
      refine iff_of_false (by simp) fun hset => ?_
      rcases hset.1 he with hrem' | hall
      · exact hrem hrem'
      · exact hlast t ht (hall t ht heff)
  · -- the removals do not count: the binding stands if it is effective
    have hnone : ∀ txnId, (writers post).getLast? = some txnId → ¬ Committed log txnId := by
      intro t ht hc
      obtain ⟨x, hx, hxt⟩ := List.mem_filterMap.mp (List.mem_of_getLast? ht)
      exact heff ⟨x, hx, by simp [effective, hxt, hc]⟩
    rcases recovered_of_deferred h hevs hlive hpost hrem with ⟨hcode, hwhy⟩ | ⟨hcode, he, -⟩
    · have he : effective log e = false :=
        hwhy.resolve_right fun ⟨t, ht, hc⟩ => hnone t ht hc
      rw [hcode, eq_comm, expectedCatalog_before hevs he heff]
      simp [LastBindingSettled, he, heff]
    · rw [hcode, expectedCatalog_bound hevs hlive he heff]
      simp [LastBindingSettled, he, heff]

end Recovered

/-! ### Main result -/

theorem exists_last_of_mem {evs : List NameEvent} (h : ∃ x ∈ evs, x.2.isDeleted = false) :
    ∃ pre e post, evs = pre ++ e :: post ∧ e.2.isDeleted = false ∧
      ∀ x ∈ post, x.2.isDeleted = true := by
  obtain ⟨x, hx, hlive⟩ := h
  have hsome : (evs.reverse.find? fun y => !y.2.isDeleted).isSome = true :=
    List.find?_isSome.mpr ⟨x, List.mem_reverse.mpr hx, by simp [hlive]⟩
  obtain ⟨e, he⟩ := Option.isSome_iff_exists.mp hsome
  obtain ⟨hlive', as, bs, heq, has⟩ := List.find?_eq_some_iff_append.mp he
  refine ⟨bs.reverse, e, as.reverse, ?_, by simpa using hlive', fun y hy => ?_⟩
  · rw [← List.reverse_reverse evs, heq]
    simp
  · simpa using has y (List.mem_reverse.mp hy)

/-- A name without a binding is neither recovered nor expected. -/
theorem unbound_of_no_binding {log : List PositionedEntry} {name : String} (h : LogWF log)
    (hevs : ∀ x ∈ nameEvents name log, x.2.isDeleted = true) :
    (runMappingTreeUndoPass (runAnalysis log)).recoveredDbNames name = none ∧
      expectedCatalog log name = none := by
  refine ⟨?_, ?_⟩
  · have hcode : (runAnalysis log).recoveredDbNames name = none :=
      (congrArg NameView.binding (runAnalysis_view h)).trans
        (foldl_step_unbound _ hevs (.inr rfl))
    rw [runMappingTreeUndoPass_names, hcode, ite_self]
  · rw [expectedCatalog, Option.bind_eq_none_iff]
    intro x hx
    have hmem := (List.mem_filter.mp (List.mem_of_getLast? hx)).1
    rw [if_pos (hevs x hmem)]

/-- **The exact condition under which a name is recovered**: the catalog has the binding
of the last effective event of the name exactly when its last binding is settled. -/
theorem recovered_name_eq_expected_iff (log : List PositionedEntry) (h : LogWF log)
    (name : String) :
    (runMappingTreeUndoPass (runAnalysis log)).recoveredDbNames name =
      expectedCatalog log name ↔ NameSettled log name := by
  refine ⟨fun heq pre e post hevs hlive hpost =>
    (settled_of_binding h hevs hlive hpost).mp heq, fun hset => ?_⟩
  by_cases hlive : ∃ x ∈ nameEvents name log, x.2.isDeleted = false
  · obtain ⟨pre, e, post, hevs, he, hpost⟩ := exists_last_of_mem hlive
    exact (settled_of_binding h hevs he hpost).mpr (hset pre e post hevs he hpost)
  · have hdel : ∀ x ∈ nameEvents name log, x.2.isDeleted = true := by
      intro x hx
      exact Bool.eq_true_of_not_eq_false fun hf => hlive ⟨x, hx, hf⟩
    obtain ⟨hcode, hexp⟩ := unbound_of_no_binding h hdel
    rw [hcode, hexp]

/-- A database created without a transaction, then removed and created again by a
transaction that commits. -/
def recreatedLog : List PositionedEntry :=
  [⟨32, .nameLn ⟨"a", 1, false, none⟩⟩, ⟨64, .nameLn ⟨"a", 1, true, some 7⟩⟩,
    ⟨96, .nameLn ⟨"a", 2, false, some 7⟩⟩, ⟨128, .txnCommit 7⟩]

/-- The same log cut before the commit. -/
def uncommittedRecreateLog : List PositionedEntry := recreatedLog.take 3

/-- Its positions ascend and its transaction ends last. -/
theorem recreatedLog_wf : LogWF recreatedLog := by
  refine ⟨by decide, ⟨?_, ?_⟩, ?_⟩
  · simp [recreatedLog, LogEntry.ends, LogEntry.txn]
  · simp [recreatedLog]
  · simp [ScansWholeLog, recreatedLog]

/-- The name that a committed transaction removed and created again is settled, and bound
to its second identifier. -/
theorem recreated_name_settled : NameSettled recreatedLog "a" ∧
    (runMappingTreeUndoPass (runAnalysis recreatedLog)).recoveredDbNames "a" = some 2 :=
  ⟨(recovered_name_eq_expected_iff recreatedLog recreatedLog_wf "a").mp (by decide),
    by decide⟩

/-- **A name that a transaction removed and created again is lost when the transaction
does not commit**: the first database is committed and nothing else is. -/
theorem uncommitted_recreate_loses_name : LogWF uncommittedRecreateLog ∧
    expectedCatalog uncommittedRecreateLog "a" = some 1 ∧
    (runMappingTreeUndoPass (runAnalysis uncommittedRecreateLog)).recoveredDbNames "a" =
      none := by
  refine ⟨⟨by decide, ⟨?_, ?_⟩, ?_⟩, by decide, by decide⟩
  · simp [uncommittedRecreateLog, recreatedLog, LogEntry.ends]
  · simp [uncommittedRecreateLog, recreatedLog]
  · simp [ScansWholeLog, uncommittedRecreateLog, recreatedLog]

end Noxu
