import Mathlib.Logic.Function.Basic
import Noxu.Library.Run
import Noxu.Rep.VlsnIndex

/-!
# Ranges of VLSNs over Time

A range has four marks: its first and its last VLSN, the last sync point and the last end of a
transaction; 0 stands for a mark that is not set. The calls of this module run over any number of
named ranges, since a merge takes a second range that has a history of its own. Next to each range
stand the ends of transactions that were registered in it and that no cut has removed.

Two calls set a mark **without a look at the others**. A cut behind a VLSN makes that VLSN the last
one, also if it lies above the last one, and lowers the last transaction end to it, also if no
transaction ends there. A cut of the head sets the first VLSN and keeps the sync point.

## Main results

* `RangeInv.step`: a sound call keeps the marks of every range in order;
* `ranges_right_iff`: **the calls of a run leave the ranges right exactly if each is sound** in the
  state it finds.
-/

open Noxu.Library

namespace Noxu

namespace VlsnRange

/-- A range between two VLSNs; a first VLSN above the last one is a fault. -/
def withRange (first last : ℕ) : Option VlsnRange :=
  if first = 0 ∨ first ≤ last then some ⟨first, last, 0, 0⟩ else none

/-- The smaller of two marks, where 0 is not set. -/
def mergeMin (a b : ℕ) : ℕ := if a = 0 then b else if b = 0 then a else min a b

/-- The greater of two marks, where 0 is not set. -/
def mergeMax (a b : ℕ) : ℕ := if a = 0 then b else if b = 0 then a else max a b

/-- The range that spans two. -/
def merge (r other : VlsnRange) : VlsnRange where
  first := mergeMin r.first other.first
  last := mergeMax r.last other.last
  commitVlsn := mergeMax r.commitVlsn other.commitVlsn
  syncVlsn := mergeMax r.syncVlsn other.syncVlsn

theorem mergeMax_eq (a b : ℕ) : mergeMax a b = max a b := by
  unfold mergeMax
  split_ifs <;> omega

end VlsnRange

/-! ### Calls on ranges -/

/-- A range with the transaction ends that were registered in it and not cut off. -/
structure TrackedRange where
  /-- The range. -/
  range : VlsnRange
  /-- The ends of transactions. -/
  txnEnds : List ℕ
  deriving DecidableEq

namespace TrackedRange

/-- A registration. -/
def updateForNewMapping (t : TrackedRange) (vlsn : ℕ) (entryType : LogEntryType) :
    TrackedRange where
  range := t.range.updateForNewMapping vlsn entryType
  txnEnds := if entryType.isTxnEnd then vlsn :: t.txnEnds else t.txnEnds

/-- A cut behind a VLSN. -/
def truncateAfter (t : TrackedRange) (vlsn : ℕ) : TrackedRange where
  range := t.range.truncateAfter vlsn
  txnEnds := t.txnEnds.filter fun v => decide (v ≤ vlsn)

/-- A cut of the head. -/
def shortenFromHead (t : TrackedRange) (deleteEnd : ℕ) : TrackedRange where
  range := t.range.shortenFromHead deleteEnd
  txnEnds := t.txnEnds.filter fun v => decide (deleteEnd < v)

/-- A merge. -/
def merge (t other : TrackedRange) : TrackedRange where
  range := t.range.merge other.range
  txnEnds := t.txnEnds ++ other.txnEnds

end TrackedRange

/-- A call on one of the ranges. -/
inductive RangeCall (ι : Type) where
  | new (i : ι)
  | withRange (i : ι) (first last : ℕ)
  | extend (i : ι) (vlsn : ℕ)
  | updateForNewMapping (i : ι) (vlsn : ℕ) (entryType : LogEntryType)
  | truncateAfter (i : ι) (vlsn : ℕ)
  | shortenFromHead (i : ι) (deleteEnd : ℕ)
  | merge (i other : ι)

namespace RangeCall

variable {ι : Type}

/-- The range that a call changes. -/
def target : RangeCall ι → ι
  | new i | withRange i _ _ | extend i _ | updateForNewMapping i _ _ | truncateAfter i _
  | shortenFromHead i _ | merge i _ => i

/-- The range after a call. The null VLSN cannot be registered. The first VLSN behind a head cut has
to fit 64 bits: a build that checks the addition stops there, as is modelled; a release build wraps
to 0 and goes on. -/
def result (s : ι → TrackedRange) : RangeCall ι → Option TrackedRange
  | new _ => some ⟨.new, []⟩
  | withRange _ first last => (VlsnRange.withRange first last).map fun r => ⟨r, []⟩
  | extend i vlsn => if vlsn = 0 then none else some { s i with range := (s i).range.extend vlsn }
  | updateForNewMapping i vlsn entryType =>
    if vlsn = 0 then none else some ((s i).updateForNewMapping vlsn entryType)
  | truncateAfter i vlsn => some ((s i).truncateAfter vlsn)
  | shortenFromHead i deleteEnd =>
    if deleteEnd ≠ (s i).range.last ∧ 2 ^ 64 ≤ deleteEnd + 1 then none
    else some ((s i).shortenFromHead deleteEnd)
  | merge i other => some ((s i).merge (s other))

/-- One call. -/
def step [DecidableEq ι] (s : ι → TrackedRange) (c : RangeCall ι) : Option (ι → TrackedRange) :=
  (c.result s).map (Function.update s c.target)

end RangeCall

/-! ### What a range promises -/

/-- A mark is not set or lies between the first and the last VLSN. -/
def VlsnRange.Within (r : VlsnRange) (mark : ℕ) : Prop :=
  mark = 0 ∨ r.first ≤ mark ∧ mark ≤ r.last

/-- The marks of a range that is not empty are in order, and the last transaction end is one. -/
def TrackedRange.Right (t : TrackedRange) : Prop :=
  (t.range.first ≠ 0 → t.range.first ≤ t.range.last ∧ t.range.Within t.range.syncVlsn ∧
    t.range.Within t.range.commitVlsn) ∧
  (t.range.commitVlsn = 0 ∨ t.range.commitVlsn ∈ t.txnEnds)

/-- A cut behind a VLSN does not raise the last VLSN, and empties a range exactly if the VLSN lies
below it. -/
def TrackedRange.CutAt (before after : TrackedRange) (vlsn : ℕ) : Prop :=
  after.range.last ≤ before.range.last ∧
    (before.range.first ≠ 0 → (after.range.first = 0 ↔ vlsn < before.range.first))

/-- The call does what it promises: every range is right after it, and a cut is one. -/
def RangeCall.RightIn {ι : Type} [DecidableEq ι] (s : ι → TrackedRange) (c : RangeCall ι) : Prop :=
  ∀ s', RangeCall.step s c = some s' →
    (∀ i, (s' i).Right) ∧ ∀ i vlsn, c = .truncateAfter i vlsn → (s i).CutAt (s' i) vlsn

/-- A cut behind a VLSN of the range: the VLSN is not above the last one and, if the last
transaction end lies behind it, is itself one. -/
def TrackedRange.TailSound (t : TrackedRange) (vlsn : ℕ) : Prop :=
  t.range.first ≠ 0 → t.range.first ≤ vlsn →
    vlsn ≤ t.range.last ∧ (vlsn < t.range.commitVlsn → vlsn ∈ t.txnEnds)

/-- A head cut does not go past the last VLSN, and not past the sync point unless it takes
everything. -/
def TrackedRange.HeadSound (t : TrackedRange) (deleteEnd : ℕ) : Prop :=
  deleteEnd = t.range.last ∨
    deleteEnd < t.range.last ∧ (t.range.syncVlsn = 0 ∨ deleteEnd < t.range.syncVlsn)

/-- The condition on a call and the range it finds. -/
def RangeCall.Sound {ι : Type} (s : ι → TrackedRange) : RangeCall ι → Prop
  | .truncateAfter i vlsn => (s i).TailSound vlsn
  | .shortenFromHead i deleteEnd => deleteEnd + 1 < 2 ^ 64 → (s i).HeadSound deleteEnd
  | _ => True

/-! ### One call -/

/-- A range is right, and an empty one has neither a sync point nor a transaction end. -/
structure RangeOk (t : TrackedRange) : Prop where
  right : t.Right
  empty : t.range.first = 0 → t.range.syncVlsn = 0 ∧ t.range.commitVlsn = 0

/-- Every range is right. -/
def RangeInv {ι : Type} (s : ι → TrackedRange) : Prop := ∀ i, RangeOk (s i)

section Step

variable {ι : Type} {s : ι → TrackedRange} {t t' : TrackedRange} {c : RangeCall ι}

theorem RangeOk.extend (h : RangeOk t) {vlsn : ℕ} (hv : vlsn ≠ 0) :
    RangeOk { t with range := t.range.extend vlsn } := by
  obtain ⟨⟨hmarks, hend⟩, hempty⟩ := h
  refine ⟨⟨fun _ => ?_, hend⟩, fun hfirst => ?_⟩
  · simp only [VlsnRange.Within, VlsnRange.extend] at hmarks ⊢
    by_cases hzero : t.range.first = 0
    · obtain ⟨hsync, hcommit⟩ := hempty hzero
      rw [hsync, hcommit, if_pos (.inl hzero)]
      exact ⟨by split_ifs <;> omega, .inl rfl, .inl rfl⟩
    · obtain ⟨hle, hsync, hcommit⟩ := hmarks hzero
      refine ⟨?_, hsync.imp_right fun h => ?_, hcommit.imp_right fun h => ?_⟩ <;>
        split_ifs <;> omega
  · simp only [VlsnRange.extend] at hfirst
    split_ifs at hfirst <;> omega

/-- **A registration** keeps the marks in order; the VLSN is the new last transaction end if it
ends a transaction and lies behind the one so far. -/
theorem RangeOk.updateForNewMapping (h : RangeOk t) {vlsn : ℕ} (hv : vlsn ≠ 0)
    (entryType : LogEntryType) : RangeOk (t.updateForNewMapping vlsn entryType) := by
  obtain ⟨⟨hmarks, hend⟩, -⟩ := h.extend hv
  have hfirst : (t.range.extend vlsn).first ≠ 0 := by
    simp only [VlsnRange.extend]
    split_ifs <;> omega
  obtain ⟨hle, hsync, hcommit⟩ := hmarks hfirst
  -- the new VLSN lies between the first and the last one
  have hin : (t.range.extend vlsn).Within vlsn := by
    refine .inr ⟨?_, ?_⟩ <;> simp only [VlsnRange.extend] <;> split_ifs <;> omega
  refine ⟨⟨fun _ => ⟨hle, ?_, ?_⟩, ?_⟩, fun hzero => absurd hzero hfirst⟩
  · show (t.range.extend vlsn).Within (if _ then vlsn else (t.range.extend vlsn).syncVlsn)
    split_ifs
    exacts [hin, hsync]
  · show (t.range.extend vlsn).Within (if _ then vlsn else (t.range.extend vlsn).commitVlsn)
    split_ifs
    exacts [hin, hcommit]
  · simp only [TrackedRange.updateForNewMapping, VlsnRange.updateForNewMapping]
    cases entryType.isTxnEnd with
    | false => simpa using hend
    | true =>
      by_cases hlt : (t.range.extend vlsn).commitVlsn < vlsn
      · simp [hlt]
      · simpa [hlt] using hend.imp_right fun hmem => Or.inr hmem

/-- **A merge** keeps the marks in order. -/
theorem RangeOk.merge (h : RangeOk t) (h' : RangeOk t') :
    RangeOk (t.merge t') := by
  obtain ⟨⟨hmarks, hend⟩, hempty⟩ := h
  obtain ⟨⟨hmarks', hend'⟩, hempty'⟩ := h'
  -- the greater of two marks lies in the merged range
  have hwithin : ∀ {mark mark' : ℕ},
      (t.range.first ≠ 0 → t.range.Within mark) → (t.range.first = 0 → mark = 0) →
      (t'.range.first ≠ 0 → t'.range.Within mark') → (t'.range.first = 0 → mark' = 0) →
      (t.merge t').range.Within (VlsnRange.mergeMax mark mark') := by
    intro mark mark' hin hzero hin' hzero'
    simp only [VlsnRange.Within, TrackedRange.merge, VlsnRange.merge, VlsnRange.mergeMax_eq,
      VlsnRange.mergeMin] at hin hin' ⊢
    split_ifs <;> omega
  refine ⟨⟨fun _ => ⟨?_, ?_, ?_⟩, ?_⟩, fun hfirst => ?_⟩
  · simp only [TrackedRange.merge, VlsnRange.merge, VlsnRange.mergeMax_eq, VlsnRange.mergeMin]
    split_ifs <;> omega
  · exact hwithin (fun h => (hmarks h).2.1) (fun h => (hempty h).1) (fun h => (hmarks' h).2.1)
      fun h => (hempty' h).1
  · exact hwithin (fun h => (hmarks h).2.2) (fun h => (hempty h).2) (fun h => (hmarks' h).2.2)
      fun h => (hempty' h).2
  · simp only [TrackedRange.merge, VlsnRange.merge, VlsnRange.mergeMax_eq, List.mem_append]
    rcases Nat.le_total t.range.commitVlsn t'.range.commitVlsn with hle | hle
    · rw [Nat.max_eq_right hle]
      exact hend'.imp_right .inr
    · rw [Nat.max_eq_left hle]
      exact hend.imp_right .inl
  · simp only [TrackedRange.merge, VlsnRange.merge, VlsnRange.mergeMax_eq,
      VlsnRange.mergeMin] at hfirst ⊢
    split_ifs at hfirst <;> omega

/-- A cut behind a VLSN of the range, mark by mark. -/
theorem truncateAfter_of_le {vlsn : ℕ} (hfirst : t.range.first ≠ 0) (hle : t.range.first ≤ vlsn) :
    t.range.truncateAfter vlsn =
      { t.range with
        last := vlsn
        commitVlsn := min t.range.commitVlsn vlsn
        syncVlsn := min t.range.syncVlsn vlsn } := by
  rw [VlsnRange.truncateAfter, if_neg (by omega), if_neg hfirst]
  congr 1 <;> split_ifs <;> omega

theorem truncateAfter_of_lt {vlsn : ℕ} (hlt : vlsn < t.range.first) :
    t.range.truncateAfter vlsn = .new := by
  rw [VlsnRange.truncateAfter, if_pos (.inr ⟨by omega, hlt⟩)]

theorem truncateAfter_of_empty {vlsn : ℕ} (hfirst : t.range.first = 0) :
    t.range.truncateAfter vlsn = if vlsn = 0 then .new else t.range := by
  rw [VlsnRange.truncateAfter, hfirst]
  simp

theorem rangeOk_new (txnEnds : List ℕ) : RangeOk ⟨.new, txnEnds⟩ :=
  ⟨⟨fun h => absurd rfl h, .inl rfl⟩, fun _ => ⟨rfl, rfl⟩⟩

/-- The last transaction end after a cut is one exactly if the cut is sound there. -/
theorem commit_after_cut (h : RangeOk t) (vlsn : ℕ) (hv : vlsn ≠ 0) :
    (min t.range.commitVlsn vlsn = 0 ∨
        min t.range.commitVlsn vlsn ∈ t.txnEnds.filter fun v => decide (v ≤ vlsn)) ↔
      (vlsn < t.range.commitVlsn → vlsn ∈ t.txnEnds) := by
  simp only [List.mem_filter, decide_eq_true_eq]
  rcases Nat.lt_or_ge vlsn t.range.commitVlsn with hlt | hge
  · rw [Nat.min_eq_right hlt.le]
    simp [hv, hlt]
  · rw [Nat.min_eq_left hge]
    exact iff_of_true (h.right.2.imp_right fun hmem => ⟨hmem, hge⟩) fun hlt => by omega

/-- **A cut behind a VLSN** is right exactly if it is sound, and then keeps the marks in order. -/
theorem RangeOk.truncateAfter (h : RangeOk t) (vlsn : ℕ) :
    (t.TailSound vlsn → RangeOk (t.truncateAfter vlsn)) ∧
      ((t.truncateAfter vlsn).Right ∧ t.CutAt (t.truncateAfter vlsn) vlsn ↔ t.TailSound vlsn) := by
  by_cases hfirst : t.range.first = 0
  · have hok : RangeOk (t.truncateAfter vlsn) := by
      obtain ⟨hsync, hcommit⟩ := h.empty hfirst
      rw [TrackedRange.truncateAfter, truncateAfter_of_empty hfirst]
      split_ifs
      · exact rangeOk_new _
      · exact ⟨⟨fun hne => absurd hfirst hne, .inl hcommit⟩, fun _ => ⟨hsync, hcommit⟩⟩
    refine ⟨fun _ => hok, iff_of_true ⟨hok.right, ?_, fun hne => absurd hfirst hne⟩
      fun hne => absurd hfirst hne⟩
    rw [TrackedRange.truncateAfter, truncateAfter_of_empty hfirst]
    split_ifs
    exacts [Nat.zero_le _, le_rfl]
  rcases Nat.lt_or_ge vlsn t.range.first with hlt | hle
  · have heq : t.truncateAfter vlsn = ⟨.new, _⟩ :=
      congrArg (TrackedRange.mk · _) (truncateAfter_of_lt hlt)
    have hsound : t.TailSound vlsn := fun _ hle => by omega
    rw [heq]
    exact ⟨fun _ => rangeOk_new _, iff_of_true
      ⟨(rangeOk_new _).right, Nat.zero_le _, fun _ => iff_of_true rfl hlt⟩ hsound⟩
  · have heq : t.truncateAfter vlsn = ⟨_, _⟩ :=
      congrArg (TrackedRange.mk · _) (truncateAfter_of_le hfirst hle)
    obtain ⟨-, hsync, hcommit⟩ := h.right.1 hfirst
    have hend := commit_after_cut h vlsn (by omega)
    have hmarks : t.range.first ≤ vlsn ∧
        (min t.range.syncVlsn vlsn = 0 ∨
          t.range.first ≤ min t.range.syncVlsn vlsn ∧ min t.range.syncVlsn vlsn ≤ vlsn) ∧
        (min t.range.commitVlsn vlsn = 0 ∨
          t.range.first ≤ min t.range.commitVlsn vlsn ∧ min t.range.commitVlsn vlsn ≤ vlsn) := by
      simp only [VlsnRange.Within] at hsync hcommit
      omega
    rw [heq]
    refine ⟨fun hs => ⟨⟨fun _ => hmarks, hend.mpr (hs hfirst hle).2⟩,
      fun hne => absurd hne hfirst⟩, ?_⟩
    constructor
    · rintro ⟨⟨-, hcommit'⟩, hlast, -⟩ - -
      exact ⟨hlast, hend.mp hcommit'⟩
    · intro hs
      obtain ⟨hlast, hcommit'⟩ := hs hfirst hle
      exact ⟨⟨fun _ => hmarks, hend.mpr hcommit'⟩, hlast,
        fun _ => iff_of_false hfirst (Nat.not_lt.mpr hle)⟩

/-- **A cut of the head** is right exactly if it is sound, and then keeps the marks in order. -/
theorem RangeOk.shortenFromHead (h : RangeOk t) (deleteEnd : ℕ) :
    (t.HeadSound deleteEnd → RangeOk (t.shortenFromHead deleteEnd)) ∧
      ((t.shortenFromHead deleteEnd).Right ↔ t.HeadSound deleteEnd) := by
  by_cases hall : deleteEnd = t.range.last
  · have hok : RangeOk (t.shortenFromHead deleteEnd) := by
      refine ⟨⟨fun hne => absurd ?_ hne, .inl ?_⟩, fun _ => ⟨?_, ?_⟩⟩ <;>
        simp [TrackedRange.shortenFromHead, VlsnRange.shortenFromHead, hall]
    exact ⟨fun _ => hok, iff_of_true hok.right (.inl hall)⟩
  · have hrange : t.range.shortenFromHead deleteEnd =
        { first := deleteEnd + 1
          last := t.range.last
          commitVlsn := if deleteEnd + 1 < t.range.commitVlsn then t.range.commitVlsn else 0
          syncVlsn := t.range.syncVlsn } := by
      simp [VlsnRange.shortenFromHead, hall]
    have heq : t.shortenFromHead deleteEnd = ⟨_, _⟩ := congrArg (TrackedRange.mk · _) hrange
    have hright : (t.shortenFromHead deleteEnd).Right ↔ t.HeadSound deleteEnd := by
      have hin := h.right.1
      have hempty := h.empty
      rw [heq]
      simp only [TrackedRange.Right, TrackedRange.HeadSound, VlsnRange.Within, List.mem_filter,
        decide_eq_true_eq] at hin ⊢
      constructor
      · rintro ⟨hmarks, -⟩
        have := hmarks (Nat.succ_ne_zero _)
        omega
      · intro hs
        refine ⟨fun _ => ⟨by omega, by omega, ?_⟩, ?_⟩ <;> split_ifs with hkept
        · omega
        · exact .inl rfl
        · exact h.right.2.imp_right fun hmem => ⟨hmem, by omega⟩
        · exact .inl rfl
    refine ⟨fun hs => ⟨hright.mpr hs, fun hzero => ?_⟩, hright⟩
    rw [heq] at hzero
    exact absurd hzero (Nat.succ_ne_zero _)

end Step

/-! ### Runs -/

section Runs

variable {ι : Type} {s s' : ι → TrackedRange} {c : RangeCall ι}

theorem RangeCall.result_ok {t : TrackedRange} (h : RangeInv s) (hs : c.Sound s)
    (ht : c.result s = some t) : RangeOk t := by
  cases c with
  | new i =>
    obtain rfl := Option.some.inj ht
    exact rangeOk_new []
  | withRange i first last =>
    obtain ⟨r, hr, rfl⟩ := Option.map_eq_some_iff.mp ht
    obtain ⟨hle, hr⟩ := Option.ite_none_right_eq_some.mp hr
    obtain rfl := Option.some.inj hr
    exact ⟨⟨fun hne => ⟨hle.resolve_left hne, .inl rfl, .inl rfl⟩, .inl rfl⟩, fun _ => ⟨rfl, rfl⟩⟩
  | extend i vlsn =>
    obtain ⟨hv, ht⟩ := Option.ite_none_left_eq_some.mp ht
    obtain rfl := Option.some.inj ht
    exact (h i).extend hv
  | updateForNewMapping i vlsn entryType =>
    obtain ⟨hv, ht⟩ := Option.ite_none_left_eq_some.mp ht
    obtain rfl := Option.some.inj ht
    exact (h i).updateForNewMapping hv entryType
  | truncateAfter i vlsn =>
    obtain rfl := Option.some.inj ht
    exact ((h i).truncateAfter vlsn).1 hs
  | shortenFromHead i deleteEnd =>
    obtain ⟨hfit, ht⟩ := Option.ite_none_left_eq_some.mp ht
    obtain rfl := Option.some.inj ht
    refine ((h i).shortenFromHead deleteEnd).1 ?_
    by_cases hall : deleteEnd = (s i).range.last
    · exact .inl hall
    · exact hs (by omega)
  | merge i other =>
    obtain rfl := Option.some.inj ht
    exact (h i).merge (h other)

/-- No range has been used. -/
def noRanges : ι → TrackedRange := fun _ => ⟨.new, []⟩

theorem rangeInv_noRanges : RangeInv (noRanges : ι → TrackedRange) := fun _ => rangeOk_new []

variable [DecidableEq ι]

/-- **One call.** -/
theorem RangeInv.step (h : RangeInv s) (hs : c.Sound s) (hstep : c.step s = some s') :
    RangeInv s' := by
  obtain ⟨t, ht, rfl⟩ := Option.map_eq_some_iff.mp hstep
  intro i
  rcases eq_or_ne i c.target with rfl | hne
  · rw [Function.update_self]
    exact RangeCall.result_ok h hs ht
  · rw [Function.update_of_ne hne]
    exact h i

/-- **A call leaves the ranges right exactly if it is sound.** -/
theorem RangeCall.rightIn_iff (h : RangeInv s) : c.RightIn s ↔ c.Sound s := by
  constructor
  · intro hright
    cases c with
    | truncateAfter i vlsn =>
      obtain ⟨hall, hcut⟩ := hright _ rfl
      have hi := hall i
      have hcut := hcut i vlsn rfl
      rw [RangeCall.target, Function.update_self] at hi hcut
      exact ((h i).truncateAfter vlsn).2.mp ⟨hi, hcut⟩
    | shortenFromHead i deleteEnd =>
      intro hfit
      have hresult : (RangeCall.shortenFromHead i deleteEnd).result s =
          some ((s i).shortenFromHead deleteEnd) := if_neg fun hover => by omega
      have hi := (hright _ (congrArg (Option.map _) hresult)).1 i
      rw [RangeCall.target, Function.update_self] at hi
      exact ((h i).shortenFromHead deleteEnd).2.mp hi
    | new | withRange | extend | updateForNewMapping | merge => trivial
  · intro hs s' hstep
    refine ⟨fun i => (h.step hs hstep i).right, ?_⟩
    rintro i vlsn rfl
    obtain rfl := Option.some.inj hstep
    rw [RangeCall.target, Function.update_self]
    exact (((h i).truncateAfter vlsn).2.mpr hs).2

/-- The runs that leave every range right, from any ranges that are. -/
theorem RangeInv.meets_iff (h : RangeInv s) (calls : List (RangeCall ι)) :
    Meets RangeCall.step RangeCall.RightIn s calls ↔
      Meets RangeCall.step RangeCall.Sound s calls := by
  refine meets_congr (?_ : ∀ s c s', RangeInv s → _) ?_ h
  · intro s c s' h hs hstep
    exact h.step hs hstep
  · intro s c h
    exact RangeCall.rightIn_iff h

/-- **When a run leaves every range right.** -/
theorem ranges_right_iff (calls : List (RangeCall ι)) :
    Meets RangeCall.step RangeCall.RightIn (noRanges : ι → TrackedRange) calls ↔
      Meets RangeCall.step RangeCall.Sound (noRanges : ι → TrackedRange) calls :=
  rangeInv_noRanges.meets_iff calls

end Runs

instance (t : TrackedRange) (vlsn : ℕ) : Decidable (t.TailSound vlsn) :=
  inferInstanceAs (Decidable (_ → _ → _))

instance (t : TrackedRange) (deleteEnd : ℕ) : Decidable (t.HeadSound deleteEnd) :=
  inferInstanceAs (Decidable (_ ∨ _))

instance {ι : Type} (s : ι → TrackedRange) : ∀ c, Decidable (RangeCall.Sound s c)
  | .truncateAfter i vlsn => inferInstanceAs (Decidable ((s i).TailSound vlsn))
  | .shortenFromHead i deleteEnd =>
    inferInstanceAs (Decidable (deleteEnd + 1 < 2 ^ 64 → (s i).HeadSound deleteEnd))
  | .new _ | .withRange _ _ _ | .extend _ _ | .updateForNewMapping _ _ _ | .merge _ _ =>
    .isTrue trivial

/-- **A cut invents a transaction end, raises the last VLSN, or puts the first VLSN behind it.**
VLSN 1 and a commit at 4; then a cut behind 2, one behind 9, or one of the head up to 7. -/
theorem cuts_misplace_marks :
    (((VlsnRange.new.extend 1).updateForNewMapping 4 .txnCommit).truncateAfter 2).commitVlsn = 2 ∧
      (((VlsnRange.new.extend 1).updateForNewMapping 4 .txnCommit).truncateAfter 9).last = 9 ∧
      ∀ c ∈ [RangeCall.truncateAfter () 2, .truncateAfter () 9, .shortenFromHead () 7],
        ¬ Meets RangeCall.step RangeCall.RightIn (noRanges : Unit → TrackedRange)
          [.extend () 1, .updateForNewMapping () 4 .txnCommit, c] := by
  refine ⟨by decide, by decide, fun c hc => ?_⟩
  rw [rangeInv_noRanges.meets_iff]
  revert c
  decide

end Noxu
