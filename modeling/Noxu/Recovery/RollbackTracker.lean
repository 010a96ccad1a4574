import Mathlib.Data.List.Nodup
import Noxu.Library.Run
import Noxu.Tree.Bin

/-!
# Rollback Periods

A replica that rolls back its log to a matchpoint writes a record when it starts, with the
transactions that are rolled back, and another one when it is done. The tracker pairs them as
recovery reads them: starts wait in a table under their matchpoint, and move to the list of
periods when their end is seen.

A start to a matchpoint that is still waiting **takes the place of the earlier start**, with its
own transactions. An end without its start waits under the position of the start, **without a
matchpoint**, and comparing with that one is a panic.

## Main results

* `TrackInv.step`: what the tracker holds stays what was recorded, under the condition;
* `tracker_answers_as_recorded`: it answers as the records say in every run whose steps meet the
  condition.
-/

open Noxu.Library

namespace Noxu

/-! ### Periods -/

/-- Comparison of positions, a panic if one of them is null. -/
def lsnLt (a b : Lsn) : Option Bool :=
  if a = nullLsn ∨ b = nullLsn then none else some (decide (a < b))

/-- A range of positions that was rolled back, with the transactions it was rolled back for. -/
structure RollbackPeriod where
  matchpointLsn : Lsn
  rollbackStartLsn : Lsn
  rollbackEndLsn : Lsn
  activeTxnIds : List ℤ
deriving DecidableEq, Repr

namespace RollbackPeriod

variable (p : RollbackPeriod)

/-- The end of the rollback was seen. -/
def isComplete : Bool := decide (p.rollbackEndLsn ≠ nullLsn)

/-- The position is inside the period. -/
def contains (lsn : Lsn) : Option Bool :=
  (lsnLt p.matchpointLsn lsn).bind fun b =>
    if b then lsnLt lsn p.rollbackStartLsn else some false

/-- The position is inside the period, and of one of its transactions. -/
def containsLn (lsn : Lsn) (txnId : ℤ) : Option Bool :=
  (p.contains lsn).map fun b => b && decide (txnId ∈ p.activeTxnIds)

end RollbackPeriod

/-- The first period with a property, in the order they are looked at. -/
def findPeriod (q : RollbackPeriod → Option Bool) :
    List RollbackPeriod → Option (Option RollbackPeriod)
  | [] => some none
  | p :: ps => (q p).bind fun b => if b then some (some p) else findPeriod q ps

/-! ### The tracker -/

/-- The completed periods by matchpoint, and the table of those that wait. -/
structure RollbackTracker where
  rollbackPeriods : List RollbackPeriod
  pendingRollbackStarts : List (Lsn × RollbackPeriod)
deriving DecidableEq, Repr

namespace RollbackTracker

/-- No rollback yet. -/
def new : RollbackTracker := ⟨[], []⟩

variable (t : RollbackTracker)

/-- The entry of the table under a key. -/
def pending? (key : Lsn) : Option RollbackPeriod :=
  (t.pendingRollbackStarts.find? fun q => decide (q.1 = key)).map Prod.snd

/-- Take a period off the pending ones. -/
def removePending (key : Lsn) : RollbackTracker :=
  { t with pendingRollbackStarts := t.pendingRollbackStarts.filter fun q => decide (q.1 ≠ key) }

/-- Add one to them. -/
def insertPending (key : Lsn) (p : RollbackPeriod) : RollbackTracker :=
  { t with
    pendingRollbackStarts :=
      (t.pendingRollbackStarts.filter fun q => decide (q.1 ≠ key)) ++ [(key, p)] }

/-- Insert a completed period in the order of matchpoints. -/
def addCompletedPeriod (p : RollbackPeriod) : RollbackTracker :=
  { t with
    rollbackPeriods :=
      t.rollbackPeriods.takeWhile (fun q => decide (q.matchpointLsn < p.matchpointLsn)) ++
        p :: t.rollbackPeriods.dropWhile (fun q => decide (q.matchpointLsn < p.matchpointLsn)) }

/-- `register_rollback_start_with_txns`. -/
def registerRollbackStartWithTxns (matchpoint start : Lsn) (txns : List ℤ) : RollbackTracker :=
  match t.pending? matchpoint with
  | some p =>
    let p := { p with rollbackStartLsn := start, activeTxnIds := txns }
    if p.rollbackEndLsn ≠ nullLsn then (t.removePending matchpoint).addCompletedPeriod p
    else (t.removePending matchpoint).insertPending matchpoint p
  | none => t.insertPending matchpoint ⟨matchpoint, start, nullLsn, txns⟩

/-- `register_rollback_end`. -/
def registerRollbackEnd (matchpoint lsn : Lsn) : RollbackTracker :=
  match t.pending? matchpoint with
  | some p => (t.removePending matchpoint).addCompletedPeriod { p with rollbackEndLsn := lsn }
  | none => t.insertPending matchpoint ⟨matchpoint, nullLsn, lsn, []⟩

/-- A start of the log, at its position. -/
def recordRollbackStart (lsn matchpoint : Lsn) (txns : List ℤ) : RollbackTracker :=
  t.registerRollbackStartWithTxns matchpoint lsn txns

/-- An end of the log, at its position; it names the position of its start. -/
def recordRollbackEnd (lsn start : Lsn) : RollbackTracker :=
  match t.pendingRollbackStarts.find? fun q => decide (q.2.rollbackStartLsn = start) with
  | some q => t.registerRollbackEnd q.2.matchpointLsn lsn
  | none => t.insertPending start ⟨nullLsn, start, lsn, []⟩

/-- The periods that wait and whose start is known. -/
def pendingPeriods : List RollbackPeriod :=
  (t.pendingRollbackStarts.map Prod.snd).filter fun p => decide (p.rollbackStartLsn ≠ nullLsn)

/-- The period a record of a transaction is rolled back by. -/
def findPeriodForLn (lsn : Lsn) (txnId : ℤ) : Option (Option RollbackPeriod) :=
  findPeriod (fun p => p.containsLn lsn txnId) (t.rollbackPeriods ++ t.pendingPeriods)

/-- `contains_ln`: whether a record was rolled back. -/
def containsLn (lsn : Lsn) (txnId : ℤ) : Option Bool :=
  (t.findPeriodForLn lsn txnId).map Option.isSome

/-- The position is inside some period. -/
def isInRollbackPeriod (lsn : Lsn) : Option Bool :=
  (findPeriod (fun p => p.contains lsn) (t.rollbackPeriods ++ t.pendingPeriods)).map Option.isSome

/-- The transaction is one of those of some period. -/
def isRollbackActiveTxn (txnId : ℤ) : Bool :=
  (t.rollbackPeriods ++ t.pendingRollbackStarts.map Prod.snd).any fun p =>
    decide (txnId ∈ p.activeTxnIds)

end RollbackTracker

/-! ### Records in the order of the log -/

/-- A record about a rollback, at its position. -/
inductive RollbackRecord where
  | start (lsn matchpoint : Lsn) (txns : List ℤ)
  | finish (lsn start : Lsn)
deriving DecidableEq, Repr

/-- Where the record is. -/
def RollbackRecord.lsn : RollbackRecord → Lsn
  | start lsn _ _ => lsn
  | finish lsn _ => lsn

/-- The tracker with the records it has seen. -/
structure TrackedRollbacks where
  tracker : RollbackTracker
  recorded : List RollbackRecord

namespace TrackedRollbacks

variable (s : TrackedRollbacks)

/-- One more record, after all others. -/
def step (r : RollbackRecord) : Option TrackedRollbacks :=
  if (∀ q ∈ s.recorded, q.lsn < r.lsn) ∧ r.lsn ≠ nullLsn then
    some ⟨match r with
      | .start lsn matchpoint txns => s.tracker.recordRollbackStart lsn matchpoint txns
      | .finish lsn start => s.tracker.recordRollbackEnd lsn start, s.recorded ++ [r]⟩
  else none

/-- The tracker answers as the records say: what is rolled back, and which periods are
complete. -/
structure Answers : Prop where
  contains : ∀ lsn, lsn ≠ nullLsn → ∀ txnId, ∃ b, s.tracker.containsLn lsn txnId = some b ∧
    (b = true ↔ ∃ start matchpoint txns, .start start matchpoint txns ∈ s.recorded ∧
      matchpoint < lsn ∧ lsn < start ∧ txnId ∈ txns)
  complete : ∀ start matchpoint txns, .start start matchpoint txns ∈ s.recorded →
    ((∃ p ∈ s.tracker.rollbackPeriods ++ s.tracker.pendingPeriods,
      p.rollbackStartLsn = start ∧ p.isComplete = true) ↔ ∃ lsn, .finish lsn start ∈ s.recorded)

end TrackedRollbacks

/-- A start has a matchpoint, and repeats the transactions of an earlier start that still waits
under the same one; an end finds its start waiting. -/
def TrackOk (s : TrackedRollbacks) : RollbackRecord → Prop
  | .start _ matchpoint txns => matchpoint ≠ nullLsn ∧
      ∀ p ∈ s.tracker.pending? matchpoint, ∀ t ∈ p.activeTxnIds, t ∈ txns
  | .finish _ start => ∃ q ∈ s.tracker.pendingRollbackStarts, q.2.rollbackStartLsn = start

instance instDecidableTrackOk (s : TrackedRollbacks) :
    (r : RollbackRecord) → Decidable (TrackOk s r)
  | .start _ _ _ => inferInstanceAs (Decidable (_ ∧ _))
  | .finish _ _ => inferInstanceAs (Decidable (∃ q ∈ _, _))

/-! ### Looking at periods -/

section Find

variable {q : RollbackPeriod → Option Bool} {ps : List RollbackPeriod}

/-- A search that never panics finds a period exactly if there is one. -/
theorem findPeriod_isSome (h : ∀ p ∈ ps, ∃ b, q p = some b) :
    ∃ b, (findPeriod q ps).map Option.isSome = some b ∧
      (b = true ↔ ∃ p ∈ ps, q p = some true) := by
  induction ps with
  | nil => exact ⟨false, rfl, by simp⟩
  | cons p ps ih =>
    obtain ⟨b, hb⟩ := h p List.mem_cons_self
    cases b with
    | true => exact ⟨true, by simp [findPeriod, hb], by simp [hb]⟩
    | false =>
      obtain ⟨c, hc, hiff⟩ := ih fun p' hp' => h p' (List.mem_cons_of_mem _ hp')
      exact ⟨c, by simpa [findPeriod, hb] using hc, by simpa [hb] using hiff⟩

/-- A period between two positions never panics. -/
theorem RollbackPeriod.containsLn_eq {p : RollbackPeriod} {lsn : Lsn} {txnId : ℤ}
    (hm : p.matchpointLsn ≠ nullLsn) (hs : p.rollbackStartLsn ≠ nullLsn) (hl : lsn ≠ nullLsn) :
    p.containsLn lsn txnId = some (decide (p.matchpointLsn < lsn ∧ lsn < p.rollbackStartLsn ∧
      txnId ∈ p.activeTxnIds)) := by
  have hlt : ∀ {a b : Lsn}, a ≠ nullLsn → b ≠ nullLsn → lsnLt a b = some (decide (a < b)) :=
    fun ha hb => if_neg (not_or.mpr ⟨ha, hb⟩)
  rw [containsLn, contains, hlt hm hl, Option.bind_some]
  by_cases h : p.matchpointLsn < lsn
  · simp [h, hlt hl hs]
  · simp [h]

end Find

/-! ### The table -/

namespace RollbackTracker

variable {t : RollbackTracker} {key : Lsn} {p : RollbackPeriod} {q : Lsn × RollbackPeriod}

theorem mem_of_pending? (h : t.pending? key = some p) : (key, p) ∈ t.pendingRollbackStarts := by
  obtain ⟨q, hq, rfl⟩ := Option.map_eq_some_iff.mp h
  have hkey : q.1 = key := by simpa using List.find?_some hq
  rw [← hkey]
  exact List.mem_of_find?_eq_some hq

theorem pending?_of_mem (hnodup : (t.pendingRollbackStarts.map Prod.fst).Nodup)
    (h : q ∈ t.pendingRollbackStarts) : t.pending? q.1 = some q.2 := by
  cases hp : t.pending? q.1 with
  | none =>
    have hno := List.find?_eq_none.mp (Option.map_eq_none_iff.mp hp) q h
    simp at hno
  | some p =>
    have heq := List.inj_on_of_nodup_map hnodup (mem_of_pending? hp) h rfl
    rw [← heq]

theorem mem_removePending : q ∈ (t.removePending key).pendingRollbackStarts ↔
    q ∈ t.pendingRollbackStarts ∧ q.1 ≠ key := by
  simp [removePending]

theorem mem_insertPending : q ∈ (t.insertPending key p).pendingRollbackStarts ↔
    (q ∈ t.pendingRollbackStarts ∧ q.1 ≠ key) ∨ q = (key, p) := by
  simp [insertPending]

theorem mem_addCompletedPeriod {r : RollbackPeriod} :
    r ∈ (t.addCompletedPeriod p).rollbackPeriods ↔ r ∈ t.rollbackPeriods ∨ r = p := by
  have hsplit := List.takeWhile_append_dropWhile
    (p := fun q : RollbackPeriod => decide (q.matchpointLsn < p.matchpointLsn))
    (l := t.rollbackPeriods)
  simp only [addCompletedPeriod, List.mem_append, List.mem_cons]
  rw [← hsplit, List.mem_append, hsplit]
  exact ⟨fun h => by tauto, fun h => by tauto⟩

theorem nodup_removePending (h : (t.pendingRollbackStarts.map Prod.fst).Nodup) :
    ((t.removePending key).pendingRollbackStarts.map Prod.fst).Nodup :=
  h.sublist (List.filter_sublist.map _)

theorem nodup_insertPending (h : (t.pendingRollbackStarts.map Prod.fst).Nodup) :
    ((t.insertPending key p).pendingRollbackStarts.map Prod.fst).Nodup := by
  simp only [insertPending, List.map_append, List.map_cons, List.map_nil]
  refine List.nodup_append.mpr ⟨h.sublist (List.filter_sublist.map _), List.nodup_singleton _, ?_⟩
  intro a ha b hb
  obtain ⟨q, hq, rfl⟩ := List.mem_map.mp ha
  obtain rfl := List.mem_singleton.mp hb
  exact of_decide_eq_true (List.mem_filter.mp hq).2

end RollbackTracker

/-! ### What the tracker holds -/

/-- The tracker holds what was recorded: each period is that of a start, completed exactly if it
is ended, and each start is covered by a period under its matchpoint. -/
structure TrackInv (s : TrackedRollbacks) : Prop where
  ascending : s.recorded.Pairwise fun a b => a.lsn < b.lsn
  nodup : (s.tracker.pendingRollbackStarts.map Prod.fst).Nodup
  waiting : ∀ q ∈ s.tracker.pendingRollbackStarts, q.1 = q.2.matchpointLsn ∧
    q.2.rollbackEndLsn = nullLsn ∧
      .start q.2.rollbackStartLsn q.2.matchpointLsn q.2.activeTxnIds ∈ s.recorded ∧
        ∀ lsn, .finish lsn q.2.rollbackStartLsn ∉ s.recorded
  done : ∀ p ∈ s.tracker.rollbackPeriods, p.rollbackEndLsn ≠ nullLsn ∧
    .start p.rollbackStartLsn p.matchpointLsn p.activeTxnIds ∈ s.recorded ∧
      ∃ lsn, .finish lsn p.rollbackStartLsn ∈ s.recorded
  covered : ∀ start matchpoint txns, .start start matchpoint txns ∈ s.recorded →
    (matchpoint ≠ nullLsn ∧ start ≠ nullLsn) ∧
      ∃ p ∈ s.tracker.rollbackPeriods ++ s.tracker.pendingRollbackStarts.map Prod.snd,
        p.matchpointLsn = matchpoint ∧ start ≤ p.rollbackStartLsn ∧
          ∀ t ∈ txns, t ∈ p.activeTxnIds
  finished : ∀ lsn start, .finish lsn start ∈ s.recorded →
    ∃ p ∈ s.tracker.rollbackPeriods, p.rollbackStartLsn = start

namespace TrackInv

variable {s s' : TrackedRollbacks} {r : RollbackRecord}

theorem new : TrackInv ⟨RollbackTracker.new, []⟩ where
  ascending := .nil
  nodup := .nil
  waiting := fun _ hq => absurd hq (List.not_mem_nil)
  done := fun _ hp => absurd hp (List.not_mem_nil)
  covered := fun _ _ _ h => absurd h (List.not_mem_nil)
  finished := fun _ _ h => absurd h (List.not_mem_nil)

theorem unique (h : TrackInv s) {a b : RollbackRecord} (ha : a ∈ s.recorded)
    (hb : b ∈ s.recorded) (hlsn : a.lsn = b.lsn) : a = b :=
  List.inj_on_of_nodup_map (List.pairwise_map.mpr (h.ascending.imp fun hlt => hlt.ne)) ha hb hlsn

theorem ascending_snoc (h : TrackInv s) (hr : ∀ q ∈ s.recorded, q.lsn < r.lsn) :
    (s.recorded ++ [r]).Pairwise fun a b => a.lsn < b.lsn := by
  refine List.pairwise_append.mpr ⟨h.ascending, List.pairwise_singleton _ _, fun a ha b hb => ?_⟩
  obtain rfl := List.mem_singleton.mp hb
  exact hr a ha

/-- A start takes the place of the one that waits under its matchpoint, if any. -/
theorem tracker_start (h : TrackInv s) (lsn matchpoint : Lsn) (txns : List ℤ) :
    s.tracker.recordRollbackStart lsn matchpoint txns =
      s.tracker.insertPending matchpoint ⟨matchpoint, lsn, nullLsn, txns⟩ := by
  unfold RollbackTracker.recordRollbackStart RollbackTracker.registerRollbackStartWithTxns
  cases hp : s.tracker.pending? matchpoint with
  | none => rfl
  | some p =>
    obtain ⟨hkey, hend, -⟩ := h.waiting _ (RollbackTracker.mem_of_pending? hp)
    have hkey : matchpoint = p.matchpointLsn := hkey
    have hend : p.rollbackEndLsn = nullLsn := hend
    simp only [hend, ne_eq, not_true_eq_false, if_false]
    rw [hkey]
    simp [RollbackTracker.insertPending, RollbackTracker.removePending, List.filter_filter]

/-- The end of a start that waits completes its period. -/
theorem tracker_finish (h : TrackInv s) {q : Lsn × RollbackPeriod}
    (hq : q ∈ s.tracker.pendingRollbackStarts) (lsn : Lsn) :
    s.tracker.recordRollbackEnd lsn q.2.rollbackStartLsn =
      (s.tracker.removePending q.1).addCompletedPeriod { q.2 with rollbackEndLsn := lsn } := by
  unfold RollbackTracker.recordRollbackEnd
  cases hf : s.tracker.pendingRollbackStarts.find? fun p =>
      decide (p.2.rollbackStartLsn = q.2.rollbackStartLsn) with
  | none => simpa using List.find?_eq_none.mp hf q hq
  | some q' =>
    -- one position has one start, so the one that is found is the one meant
    have hq' := List.mem_of_find?_eq_some hf
    have hstart : q'.2.rollbackStartLsn = q.2.rollbackStartLsn := by
      simpa using List.find?_some hf
    obtain ⟨hkey, -, hrec, -⟩ := h.waiting q hq
    obtain ⟨hkey', -, hrec', -⟩ := h.waiting q' hq'
    have heq := h.unique hrec' hrec hstart
    have hmatch : q'.2.matchpointLsn = q.2.matchpointLsn := by
      injection heq
    obtain rfl : q' = q := List.inj_on_of_nodup_map h.nodup hq' hq
      ((hkey'.trans hmatch).trans hkey.symm)
    have hp := RollbackTracker.pending?_of_mem h.nodup hq
    rw [hkey] at hp ⊢
    dsimp only
    rw [RollbackTracker.registerRollbackEnd, hp]

theorem step_start (h : TrackInv s) {lsn matchpoint : Lsn} {txns : List ℤ}
    (hok : TrackOk s (.start lsn matchpoint txns))
    (hlast : ∀ q ∈ s.recorded, q.lsn < lsn) (hnull : lsn ≠ nullLsn) :
    TrackInv ⟨s.tracker.recordRollbackStart lsn matchpoint txns,
      s.recorded ++ [.start lsn matchpoint txns]⟩ := by
  obtain ⟨hmatch, hrepeat⟩ := hok
  rw [h.tracker_start]
  have hfinish : ∀ {l start}, .finish l start ∈ s.recorded ++ [.start lsn matchpoint txns] →
      .finish l start ∈ s.recorded := by
    intro l start hmem
    simpa using hmem
  refine ⟨h.ascending_snoc hlast, RollbackTracker.nodup_insertPending h.nodup, ?_, ?_, ?_, ?_⟩
  · intro q hq
    rcases RollbackTracker.mem_insertPending.mp hq with ⟨hq, -⟩ | rfl
    · obtain ⟨hkey, hend, hrec, hopen⟩ := h.waiting q hq
      exact ⟨hkey, hend, List.mem_append_left _ hrec, fun l hl => hopen l (hfinish hl)⟩
    · refine ⟨rfl, rfl, List.mem_append_right _ List.mem_cons_self, fun l hl => ?_⟩
      -- an end names a start before it
      obtain ⟨p, hp, hstart⟩ := h.finished l lsn (hfinish hl)
      have hlt := hlast _ (h.done p hp).2.1
      exact absurd hstart (show p.rollbackStartLsn < lsn from hlt).ne
  · intro p hp
    obtain ⟨hend, hrec, l, hl⟩ := h.done p hp
    exact ⟨hend, List.mem_append_left _ hrec, l, List.mem_append_left _ hl⟩
  · intro start m ts hmem
    rcases List.mem_append.mp hmem with hmem | hmem
    · obtain ⟨hreal, p, hp, hm, hle, hts⟩ := h.covered start m ts hmem
      refine ⟨hreal, ?_⟩
      rcases List.mem_append.mp hp with hp | hp
      · exact ⟨p, List.mem_append_left _ hp, hm, hle, hts⟩
      obtain ⟨q, hq, rfl⟩ := List.mem_map.mp hp
      obtain ⟨hkey, -, hrec, -⟩ := h.waiting q hq
      by_cases hsame : q.1 = matchpoint
      · -- the start in its place goes further and has its transactions
        subst hsame
        have hpend := RollbackTracker.pending?_of_mem h.nodup hq
        refine ⟨⟨q.1, lsn, nullLsn, txns⟩, List.mem_append_right _ (List.mem_map.mpr
          ⟨_, RollbackTracker.mem_insertPending.mpr (.inr rfl), rfl⟩), hkey.trans hm, ?_, ?_⟩
        · exact hle.trans (hlast _ hrec).le
        · exact fun t ht => hrepeat q.2 hpend t (hts t ht)
      · exact ⟨q.2, List.mem_append_right _ (List.mem_map.mpr ⟨q,
          RollbackTracker.mem_insertPending.mpr (.inl ⟨hq, hsame⟩), rfl⟩), hm, hle, hts⟩
    · injection List.mem_singleton.mp hmem with h1 h2 h3
      subst h1 h2 h3
      exact ⟨⟨hmatch, hnull⟩, _, List.mem_append_right _ (List.mem_map.mpr ⟨_,
        RollbackTracker.mem_insertPending.mpr (.inr rfl), rfl⟩), rfl, le_rfl, fun _ ht => ht⟩
  · exact fun l start hl => h.finished l start (hfinish hl)

theorem step_finish (h : TrackInv s) {lsn start : Lsn} (hok : TrackOk s (.finish lsn start))
    (hlast : ∀ q ∈ s.recorded, q.lsn < lsn) (hnull : lsn ≠ nullLsn) :
    TrackInv ⟨s.tracker.recordRollbackEnd lsn start, s.recorded ++ [.finish lsn start]⟩ := by
  obtain ⟨q, hq, rfl⟩ := hok
  rw [h.tracker_finish hq]
  obtain ⟨hkey, hend, hrec, hopen⟩ := h.waiting q hq
  have hstart : ∀ {a m ts}, .start a m ts ∈ s.recorded ++ [.finish lsn q.2.rollbackStartLsn] →
      .start a m ts ∈ s.recorded := by
    intro a m ts hmem
    simpa using hmem
  refine ⟨h.ascending_snoc hlast, RollbackTracker.nodup_removePending h.nodup, ?_, ?_, ?_, ?_⟩
  · intro p hp
    obtain ⟨hp, hne⟩ := RollbackTracker.mem_removePending.mp hp
    obtain ⟨hkey', hend', hrec', hopen'⟩ := h.waiting p hp
    refine ⟨hkey', hend', List.mem_append_left _ hrec', fun l hl => ?_⟩
    rcases List.mem_append.mp hl with hl | hl
    · exact hopen' l hl
    · injection List.mem_singleton.mp hl with _ hsame
      have heq := h.unique hrec' hrec hsame
      injection heq with _ hm
      exact hne ((hkey'.trans hm).trans hkey.symm)
  · intro p hp
    rcases RollbackTracker.mem_addCompletedPeriod.mp hp with hp | rfl
    · obtain ⟨hend', hrec', l, hl⟩ := h.done p hp
      exact ⟨hend', List.mem_append_left _ hrec', l, List.mem_append_left _ hl⟩
    · exact ⟨hnull, List.mem_append_left _ hrec, lsn,
        List.mem_append_right _ List.mem_cons_self⟩
  · intro a m ts hmem
    obtain ⟨hreal, p, hp, hm, hle, hts⟩ := h.covered a m ts (hstart hmem)
    refine ⟨hreal, ?_⟩
    rcases List.mem_append.mp hp with hp | hp
    · exact ⟨p, List.mem_append_left _ (RollbackTracker.mem_addCompletedPeriod.mpr (.inl hp)), hm,
        hle, hts⟩
    obtain ⟨q', hq', rfl⟩ := List.mem_map.mp hp
    by_cases hsame : q'.1 = q.1
    · obtain rfl := List.inj_on_of_nodup_map h.nodup hq' hq hsame
      exact ⟨{ q'.2 with rollbackEndLsn := lsn }, List.mem_append_left _
        (RollbackTracker.mem_addCompletedPeriod.mpr (.inr rfl)), hm, hle, hts⟩
    · exact ⟨q'.2, List.mem_append_right _ (List.mem_map.mpr ⟨q',
        RollbackTracker.mem_removePending.mpr ⟨hq', hsame⟩, rfl⟩), hm, hle, hts⟩
  · intro l a hl
    rcases List.mem_append.mp hl with hl | hl
    · obtain ⟨p, hp, hpa⟩ := h.finished l a hl
      exact ⟨p, RollbackTracker.mem_addCompletedPeriod.mpr (.inl hp), hpa⟩
    · injection List.mem_singleton.mp hl with _ ha
      exact ⟨_, RollbackTracker.mem_addCompletedPeriod.mpr (.inr rfl), ha.symm⟩

/-- **Every record that meets the condition** keeps what the tracker holds. -/
theorem step (h : TrackInv s) (hok : TrackOk s r) (hstep : s.step r = some s') :
    TrackInv s' := by
  obtain ⟨⟨hlast, hnull⟩, hs⟩ := Option.ite_none_right_eq_some.mp hstep
  obtain rfl := Option.some.inj hs
  cases r with
  | start lsn matchpoint txns => exact h.step_start hok hlast hnull
  | finish lsn start => exact h.step_finish hok hlast hnull

/-- What the tracker holds answers as the records say. -/
theorem answers (h : TrackInv s) : s.Answers := by
  have hreal : ∀ p ∈ s.tracker.rollbackPeriods ++ s.tracker.pendingRollbackStarts.map Prod.snd,
      .start p.rollbackStartLsn p.matchpointLsn p.activeTxnIds ∈ s.recorded := by
    intro p hp
    rcases List.mem_append.mp hp with hp | hp
    · exact (h.done p hp).2.1
    · obtain ⟨q, hq, rfl⟩ := List.mem_map.mp hp
      exact (h.waiting q hq).2.2.1
  -- every period that waits has a start, so all of them are looked at
  have hperiods : s.tracker.pendingPeriods = s.tracker.pendingRollbackStarts.map Prod.snd := by
    refine List.filter_eq_self.mpr fun p hp => decide_eq_true ?_
    exact (h.covered _ _ _ (hreal p (List.mem_append_right _ hp))).1.2
  refine ⟨fun lsn hlsn txnId => ?_, fun start matchpoint txns hmem => ?_⟩
  · have hlooks : ∀ p ∈ s.tracker.rollbackPeriods ++ s.tracker.pendingRollbackStarts.map Prod.snd,
        p.containsLn lsn txnId = some (decide (p.matchpointLsn < lsn ∧
          lsn < p.rollbackStartLsn ∧ txnId ∈ p.activeTxnIds)) := by
      intro p hp
      obtain ⟨⟨hm, hs⟩, -⟩ := h.covered _ _ _ (hreal p hp)
      exact RollbackPeriod.containsLn_eq hm hs hlsn
    obtain ⟨b, hb, hiff⟩ := findPeriod_isSome fun p hp => ⟨_, hlooks p hp⟩
    refine ⟨b, ?_, hiff.trans ⟨?_, ?_⟩⟩
    · rw [RollbackTracker.containsLn, RollbackTracker.findPeriodForLn, hperiods]
      exact hb
    · rintro ⟨p, hp, htrue⟩
      have hin := of_decide_eq_true (Option.some.inj ((hlooks p hp).symm.trans htrue))
      exact ⟨_, _, _, hreal p hp, hin⟩
    · rintro ⟨start, matchpoint, txns, hmem, hlo, hhi, htxn⟩
      obtain ⟨-, p, hp, hm, hle, hts⟩ := h.covered _ _ _ hmem
      exact ⟨p, hp, (hlooks p hp).trans (congrArg some (decide_eq_true
        ⟨hm ▸ hlo, hhi.trans_le hle, hts txnId htxn⟩))⟩
  · constructor
    · rintro ⟨p, hp, rfl, hcomplete⟩
      rcases List.mem_append.mp hp with hp | hp
      · exact (h.done p hp).2.2
      · rw [hperiods] at hp
        obtain ⟨q, hq, rfl⟩ := List.mem_map.mp hp
        exact absurd (h.waiting q hq).2.1 (of_decide_eq_true hcomplete)
    · rintro ⟨lsn, hl⟩
      obtain ⟨p, hp, hpstart⟩ := h.finished lsn start hl
      exact ⟨p, List.mem_append_left _ hp, hpstart, decide_eq_true (h.done p hp).1⟩

end TrackInv

/-! ### Runs -/

/-- **The tracker answers as the records say** in every run whose steps meet the condition. -/
theorem tracker_answers_as_recorded (rs : List RollbackRecord) (s : TrackedRollbacks)
    (hok : Meets TrackedRollbacks.step TrackOk ⟨RollbackTracker.new, []⟩ rs)
    (hrun : run TrackedRollbacks.step ⟨RollbackTracker.new, []⟩ rs = some s) : s.Answers :=
  (run_invariant (fun _ _ _ (hi : TrackInv _) hk hs => hi.step hk hs) TrackInv.new hok
    hrun).answers

/-- A rollback that is done, one to the same matchpoint that is not, and its repetition. -/
theorem tracker_answers_after_retry :
    ∃ s, run TrackedRollbacks.step ⟨RollbackTracker.new, []⟩
      [.start 200 100 [7], .finish 210 200, .start 300 100 [7, 8], .start 400 100 [7, 8, 9]] =
        some s ∧ s.Answers := by
  obtain ⟨s, hs, -⟩ := exists_run_of_any (P := fun _ => True)
    (show (run TrackedRollbacks.step ⟨RollbackTracker.new, []⟩
      [.start 200 100 [7], .finish 210 200, .start 300 100 [7, 8],
        .start 400 100 [7, 8, 9]]).any _ = true by decide +kernel)
  exact ⟨s, hs, tracker_answers_as_recorded _ s (by decide +kernel) hs⟩

/-- A second rollback to the matchpoint of one that never completed, for another transaction:
the record of the first transaction is no longer rolled back. An end whose start was not seen
ends in a panic. -/
theorem tracker_forgets_start :
    (∃ s, run TrackedRollbacks.step ⟨RollbackTracker.new, []⟩
      [.start 200 100 [7], .start 300 100 [8]] = some s ∧
        s.tracker.containsLn 150 7 = some false ∧ .start 200 100 [7] ∈ s.recorded) ∧
    ∃ s, run TrackedRollbacks.step ⟨RollbackTracker.new, []⟩ [.finish 210 200] = some s ∧
      s.tracker.containsLn 150 7 = none := by
  constructor
  · exact exists_run_of_any (show (run TrackedRollbacks.step ⟨RollbackTracker.new, []⟩
      [.start 200 100 [7], .start 300 100 [8]]).any _ = true by decide +kernel)
  · exact exists_run_of_any (show (run TrackedRollbacks.step ⟨RollbackTracker.new, []⟩
      [.finish 210 200]).any _ = true by decide +kernel)

end Noxu
