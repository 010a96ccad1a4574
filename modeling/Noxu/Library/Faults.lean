import Mathlib.Data.List.Basic
import Mathlib.Order.Nat

/-!
# Reads that May Fail

A computation makes reads of several kinds, numbered in the order in which it makes them, and an
oracle says which of them fail. A read is loud if its failure ends the computation with an error
that names it, and quiet if the computation goes on without the value.

## Main results

* `Judged.bind`: the rule for one computation after another; what holds of a result needs to hold
  only if no read has failed;
* `Judged.error_first_iff`: the first failure is reported exactly if its kind is.
-/

namespace Noxu.Library

/-- The oracle, the number of reads made, and those that failed, with their kinds. -/
structure World (κ : Type) where
  fails : ℕ → Bool
  clock : ℕ
  failed : List (ℕ × κ)

/-- Before any read. -/
def World.start {κ : Type} (fails : ℕ → Bool) : World κ := ⟨fails, 0, []⟩

/-- A computation with reads; an error names the read. -/
abbrev Reading (κ α : Type) := ExceptT ℕ (StateM (World κ)) α

namespace Reading

variable {κ α β : Type} {reported : κ → Prop}

/-- The world after the next read. -/
def tick (kind : κ) (w : World κ) : World κ :=
  { w with
    clock := w.clock + 1
    failed := if w.fails w.clock then w.failed ++ [(w.clock, kind)] else w.failed }

/-- A read whose failure is only told to the caller. -/
def quiet (kind : κ) : Reading κ Bool := fun w => (.ok (!w.fails w.clock), tick kind w)

/-- A read whose failure is an error. -/
def loud (kind : κ) : Reading κ Unit := fun w =>
  (if w.fails w.clock then .error w.clock else .ok (), tick kind w)

/-- What a computation does from a world `w`: the reads that failed on the way are of kinds that
are not reported, but for one that ends it; and if none failed, the result is as promised. -/
structure Ends (reported : κ → Prop) (Q : α → Prop) (w : World κ) (r : Except ℕ α) (w' : World κ)
    (l : List (ℕ × κ)) : Prop where
  log : w'.failed = w.failed ++ l
  numbers : l.Pairwise (·.1 < ·.1) ∧ ∀ f ∈ l, w.clock ≤ f.1 ∧ f.1 < w'.clock
  clock : w.clock ≤ w'.clock
  ok : ∀ x, r = .ok x → (∀ f ∈ l, ¬ reported f.2) ∧ (l = [] → Q x)
  error : ∀ m, r = .error m → ∃ before kind, l = before ++ [(m, kind)] ∧ reported kind ∧
    ∀ f ∈ before, ¬ reported f.2

/-- The judgement on a computation, from every world. -/
def Judged (reported : κ → Prop) (a : Reading κ α) (Q : α → Prop) : Prop :=
  ∀ w, ∃ l, Ends reported Q w (a w).1 (a w).2 l

theorem Judged.pure (x : α) {Q : α → Prop} (h : Q x) : Judged reported (pure x) Q := fun w =>
  ⟨[], (List.append_nil w.failed).symm, by simp, le_rfl,
    fun y hy => ⟨nofun, fun _ => Except.ok.inj hy ▸ h⟩, nofun⟩

theorem Judged.mono {a : Reading κ α} {Q R : α → Prop} (h : Judged reported a Q)
    (hQR : ∀ x, Q x → R x) : Judged reported a R := fun w => by
  obtain ⟨l, hl⟩ := h w
  exact ⟨l, hl.log, hl.numbers, hl.clock,
    fun x hx => ⟨(hl.ok x hx).1, fun hnil => hQR x ((hl.ok x hx).2 hnil)⟩, hl.error⟩

theorem judged_quiet {kind : κ} (hkind : ¬ reported kind) :
    Judged reported (quiet kind) (· = true) := fun w => by
  cases hf : w.fails w.clock with
  | false =>
    exact ⟨[], by simp [quiet, tick, hf], by simp, by simp [quiet, tick],
      fun x hx => ⟨nofun, fun _ => by simpa [quiet, hf] using hx.symm⟩, nofun⟩
  | true =>
    refine ⟨[(w.clock, kind)], by simp [quiet, tick, hf], by simp [quiet, tick],
      by simp [quiet, tick], fun x hx => ⟨by simpa using hkind, nofun⟩, nofun⟩

theorem judged_loud {kind : κ} (hkind : reported kind) :
    Judged reported (loud kind) fun _ => True := fun w => by
  cases hf : w.fails w.clock with
  | false =>
    refine ⟨[], by simp [loud, tick, hf], by simp, by simp [loud, tick], fun x _ => by simp, ?_⟩
    intro m hm
    simp [loud, hf] at hm
  | true =>
    refine ⟨[(w.clock, kind)], by simp [loud, tick, hf], by simp [loud, tick],
      by simp [loud, tick], fun x hx => by simp [loud, hf] at hx,
      fun m hm => ⟨[], kind, ?_, hkind, nofun⟩⟩
    simp only [loud, hf, if_true, Except.error.injEq] at hm
    simp [hm]

/-- **One computation after another.** -/
theorem Judged.bind {a : Reading κ α} {f : α → Reading κ β} {Q : α → Prop} {R : β → Prop}
    (ha : Judged reported a Q) (hf : ∀ x, Judged reported (f x) fun y => Q x → R y) :
    Judged reported (a >>= f) R := fun w => by
  obtain ⟨l, hl⟩ := ha w
  have hbind : (a >>= f) w = match a w with
      | (.ok x, w') => f x w'
      | (.error m, w') => (.error m, w') := by
    rcases haw : a w with ⟨e | x, w'⟩
    · simp only [Bind.bind, ExceptT.bind, ExceptT.mk, StateT.bind, haw, ExceptT.bindCont]
      rfl
    · simp only [Bind.bind, ExceptT.bind, ExceptT.mk, StateT.bind, haw, ExceptT.bindCont]
  rw [hbind]
  rcases haw : a w with ⟨e | x, w'⟩
  · rw [haw] at hl
    exact ⟨l, hl.log, hl.numbers, hl.clock, nofun, fun m hm => hl.error m (by simpa using hm)⟩
  · rw [haw] at hl
    obtain ⟨hquiet, hpost⟩ := hl.ok x rfl
    obtain ⟨k, hk⟩ := hf x w'
    refine ⟨l ++ k, ?_, ⟨?_, ?_⟩, hl.clock.trans hk.clock, fun y hy => ?_, fun m hm => ?_⟩
    · rw [hk.log, hl.log, List.append_assoc]
    · refine List.pairwise_append.mpr ⟨hl.numbers.1, hk.numbers.1, fun g hg h hh => ?_⟩
      exact (hl.numbers.2 g hg).2.trans_le (hk.numbers.2 h hh).1
    · intro g hg
      obtain hg | hg := List.mem_append.mp hg
      · exact ⟨(hl.numbers.2 g hg).1, (hl.numbers.2 g hg).2.trans_le hk.clock⟩
      · exact ⟨hl.clock.trans (hk.numbers.2 g hg).1, (hk.numbers.2 g hg).2⟩
    · obtain ⟨hquiet', hpost'⟩ := hk.ok y hy
      refine ⟨fun g hg => (List.mem_append.mp hg).elim (hquiet g) (hquiet' g), fun hnil => ?_⟩
      obtain ⟨rfl, rfl⟩ := List.append_eq_nil_iff.mp hnil
      exact hpost' rfl (hpost rfl)
    · obtain ⟨before, kind, rfl, hkind, hbefore⟩ := hk.error m hm
      exact ⟨l ++ before, kind, (List.append_assoc ..).symm, hkind,
        fun g hg => (List.mem_append.mp hg).elim (hquiet g) (hbefore g)⟩

theorem Judged.mapM {f : α → Reading κ β} {g : α → β}
    (h : ∀ x, Judged reported (f x) (· = g x)) (l : List α) :
    Judged reported (l.mapM f) (· = l.map g) := by
  induction l with
  | nil => exact .pure _ rfl
  | cons x l ih =>
    rw [List.mapM_cons]
    refine (h x).bind fun y => ih.bind fun ys => .pure _ fun hys hy => ?_
    rw [hys, hy, List.map_cons]

/-- **The verdict**: a computation reports the first read that failed exactly if its kind is
reported. -/
theorem Judged.error_first_iff {a : Reading κ α} {Q : α → Prop} (h : Judged reported a Q)
    (fails : ℕ → Bool) {n : ℕ} {kind : κ} {rest : List (ℕ × κ)}
    (hfirst : (a (.start fails)).2.failed = (n, kind) :: rest) :
    (a (.start fails)).1 = .error n ↔ reported kind := by
  obtain ⟨l, hl⟩ := h (.start fails)
  have hlog : l = (n, kind) :: rest := hl.log.symm.trans hfirst
  subst hlog
  constructor
  · intro herr
    obtain ⟨before, last, hsplit, hlast, -⟩ := hl.error n herr
    cases before with
    | nil =>
      simp only [List.nil_append, List.cons.injEq, Prod.mk.injEq] at hsplit
      exact hsplit.1.2 ▸ hlast
    | cons f before =>
      -- The read that ends the computation would come after itself.
      simp only [List.cons_append, List.cons.injEq] at hsplit
      have hlater := (List.pairwise_cons.mp hl.numbers.1).1 (n, last) (by simp [hsplit.2])
      exact absurd hlater (lt_irrefl n)
  · intro hkind
    cases hr : (a (.start fails)).1 with
    | ok x => exact absurd hkind ((hl.ok x hr).1 (n, kind) List.mem_cons_self)
    | error m =>
      obtain ⟨before, last, hsplit, -, hquiet⟩ := hl.error m hr
      cases before with
      | nil =>
        simp only [List.nil_append, List.cons.injEq, Prod.mk.injEq] at hsplit
        rw [hsplit.1.1]
      | cons f before =>
        simp only [List.cons_append, List.cons.injEq] at hsplit
        have hfirst := hquiet f List.mem_cons_self
        rw [← hsplit.1] at hfirst
        exact absurd hkind hfirst

/-- With no read failed the result is the promised one. -/
theorem Judged.ok_of_none_failed {a : Reading κ α} {Q : α → Prop} (h : Judged reported a Q)
    (fails : ℕ → Bool) (hnone : (a (.start fails)).2.failed = []) :
    ∃ x, (a (.start fails)).1 = .ok x ∧ Q x := by
  obtain ⟨l, hl⟩ := h (.start fails)
  have hlog : l = [] := hl.log.symm.trans hnone
  subst hlog
  cases hr : (a (.start fails)).1 with
  | ok x => exact ⟨x, rfl, (hl.ok x hr).2 rfl⟩
  | error m =>
    obtain ⟨before, last, hsplit, -⟩ := hl.error m hr
    simp at hsplit

end Reading

end Noxu.Library
