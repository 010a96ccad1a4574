import Mathlib.Data.List.Basic
import Mathlib.Order.Basic

/-!
# Runs of a Transition System

A system is a step function on states and events; an event that cannot happen in a state
has no result. A run is a list of events, and a side condition on the events of a run is
read off the state each event happens in.

An **object** answers calls: from a state and a call it goes to the next state and gives an answer,
or refuses the call. A concrete object refines an abstract one throughout a sequence of calls if
it accepts every part of the sequence the abstract one accepts, gives the same answers, and ends
in a state that represents the abstract one.

## Main results

* `run_invariant`: a property kept by every step that meets the condition holds at the end
  of every run that meets it;
* `right_throughout_iff`: a run is right throughout exactly if its events meet the condition
  under which one step is;
* `run_related`: a preorder kept by every such step relates the two ends of the run;
* `meets_congr`: conditions that agree while an invariant holds are met by the same runs;
* `refines_throughout_iff`: an object that goes wrong at some calls refines the abstract one
  throughout a sequence exactly if the sequence has no such call.
-/

namespace Noxu.Library

variable {S E : Type*} {step : S → E → Option S} {ok : S → E → Prop}

/-- The state after a list of events, `none` as soon as one of them cannot happen. -/
def run (step : S → E → Option S) : S → List E → Option S
  | s, [] => some s
  | s, e :: es => (step s e).bind fun s' => run step s' es

/-- Every event of the run meets the condition in the state it happens in. -/
def Meets (step : S → E → Option S) (ok : S → E → Prop) : S → List E → Prop
  | _, [] => True
  | s, e :: es => ok s e ∧ ∀ s' ∈ step s e, Meets step ok s' es

instance Meets.instDecidable [∀ s e, Decidable (ok s e)] :
    ∀ (es : List E) (s : S), Decidable (Meets step ok s es)
  | [], _ => .isTrue trivial
  | e :: es, s =>
    match h : step s e with
    | none => decidable_of_iff (ok s e) (by simp [Meets, h])
    | some s' =>
      have := Meets.instDecidable es s'
      decidable_of_iff (ok s e ∧ Meets step ok s' es) (by simp [Meets, h])

@[simp] theorem run_nil (s : S) : run step s [] = some s := rfl

theorem run_cons (s : S) (e : E) (es : List E) :
    run step s (e :: es) = (step s e).bind fun s' => run step s' es := rfl

variable {s : S} {es : List E} {Inv : S → Prop}

/-- A run that starts with an event goes on from the state after it. -/
theorem run_cons_eq_some {s' : S} {e : E} :
    run step s (e :: es) = some s' ↔
      ∃ m, step s e = some m ∧ run step m es = some s' := by
  rw [run_cons, Option.bind_eq_some_iff]

/-- A run that has been evaluated: the state it reaches has the property. -/
theorem exists_run_of_any {P : S → Prop} [DecidablePred P]
    (h : (run step s es).any P = true) : ∃ s', run step s es = some s' ∧ P s' := by
  cases hr : run step s es with
  | none =>
    rw [hr] at h
    cases h
  | some s' =>
    rw [hr] at h
    exact ⟨s', rfl, of_decide_eq_true h⟩

@[simp] theorem meets_nil (s : S) : Meets step ok s [] := trivial

theorem meets_cons {e : E} :
    Meets step ok s (e :: es) ↔ ok s e ∧ ∀ m, step s e = some m → Meets step ok m es :=
  Iff.rfl

/-- The parts of a run that meets a condition meet it. -/
theorem meets_append {fs : List E} :
    Meets step ok s (es ++ fs) ↔
      Meets step ok s es ∧ ∀ m, run step s es = some m → Meets step ok m fs := by
  induction es generalizing s with
  | nil => simp
  | cons e es ih =>
    rw [List.cons_append, meets_cons, meets_cons, and_assoc]
    refine and_congr_right fun _ => ⟨fun h => ⟨fun m hm => (ih.mp (h m hm)).1, ?_⟩, ?_⟩
    · intro m hm
      obtain ⟨k, hk, hkm⟩ := run_cons_eq_some.mp hm
      exact (ih.mp (h k hk)).2 m hkm
    · rintro ⟨h, hrest⟩ m hm
      exact ih.mpr ⟨h m hm, fun k hk => hrest k (run_cons_eq_some.mpr ⟨m, hm, hk⟩)⟩

/-- **The invariant rule.** -/
theorem run_invariant (hstep : ∀ s e s', Inv s → ok s e → step s e = some s' → Inv s')
    {s' : S} (hs : Inv s) (hok : Meets step ok s es) (hrun : run step s es = some s') : Inv s' := by
  induction es generalizing s with
  | nil =>
    obtain rfl : s = s' := Option.some.inj hrun
    exact hs
  | cons e es ih =>
    obtain ⟨m, hm, hrest⟩ := run_cons_eq_some.mp hrun
    exact ih (hstep s e m hs hok.1 hm) (hok.2 m hm) hrest

/-- **Right throughout.** If a step from a right state leaves a right one exactly if it meets
the condition, and an event that cannot happen meets it, then a run is right throughout exactly
if its events meet the condition. -/
theorem right_throughout_iff {Right : S → Prop}
    (hstep : ∀ s e, Inv s → Right s → (step s e).elim (ok s e) fun s' =>
      (Right s' ↔ ok s e) ∧ (ok s e → Inv s')) (hs : Inv s) (hright : Right s) (es : List E) :
    (∀ done rest s', es = done ++ rest → run step s done = some s' → Right s') ↔
      Meets step ok s es := by
  induction es generalizing s with
  | nil =>
    refine ⟨fun _ => meets_nil s, fun _ done rest s' hcut hrun => ?_⟩
    obtain ⟨rfl, -⟩ := List.append_eq_nil_iff.mp hcut.symm
    obtain rfl := Option.some.inj hrun
    exact hright
  | cons e es ih =>
    have hone := hstep s e hs hright
    constructor
    · intro hall
      cases hm : step s e with
      | none =>
        rw [hm] at hone
        exact meets_cons.mpr ⟨hone, fun m hm' => by rw [hm] at hm'; cases hm'⟩
      | some m =>
        rw [hm] at hone
        have hright' := hall [e] es m rfl (run_cons_eq_some.mpr ⟨m, hm, rfl⟩)
        have hok := hone.1.mp hright'
        refine meets_cons.mpr ⟨hok, fun m' hm' => ?_⟩
        obtain rfl : m = m' := Option.some.inj (hm.symm.trans hm')
        refine (ih (hone.2 hok) hright').mp fun done rest s' hcut hrun => ?_
        exact hall (e :: done) rest s' (by rw [hcut, List.cons_append])
          (run_cons_eq_some.mpr ⟨m, hm, hrun⟩)
    · rintro ⟨hok, hrest⟩ done rest s' hcut hrun
      cases done with
      | nil =>
        obtain rfl := Option.some.inj hrun
        exact hright
      | cons e' done =>
        obtain ⟨rfl, htail⟩ := List.cons.inj hcut
        obtain ⟨m, hm, hrun⟩ := run_cons_eq_some.mp hrun
        rw [hm] at hone
        exact (ih (hone.2 hok) (hone.1.mpr hok)).mpr (hrest m hm) done rest s' htail hrun

/-- **A preorder kept by the steps relates the ends of a run**; the steps may rely on an
invariant. -/
theorem run_related {R : S → S → Prop} (hrefl : ∀ s, R s s)
    (htrans : ∀ {a b c}, R a b → R b c → R a c)
    (hinv : ∀ s e s', Inv s → ok s e → step s e = some s' → Inv s')
    (hstep : ∀ s e s', Inv s → ok s e → step s e = some s' → R s s')
    {s' : S} (hs : Inv s) (hok : Meets step ok s es) (hrun : run step s es = some s') : R s s' := by
  have hkeeps : ∀ a e b, (Inv a ∧ R s a) → ok a e → step a e = some b → Inv b ∧ R s b :=
    fun a e b h hok hab => ⟨hinv a e b h.1 hok hab, htrans h.2 (hstep a e b h.1 hok hab)⟩
  exact (run_invariant hkeeps ⟨hs, hrefl s⟩ hok hrun).2

/-- A condition that follows from an invariant of the steps is met by every run. -/
theorem meets_of_invariant
    (hinv : ∀ s e s', Inv s → step s e = some s' → Inv s') (himp : ∀ s e, Inv s → ok s e)
    (hs : Inv s) : Meets step ok s es := by
  induction es generalizing s with
  | nil => exact trivial
  | cons e es ih => exact ⟨himp s e hs, fun m hm => ih (hinv s e m hs hm)⟩

/-- A condition that follows from another one while an invariant holds. -/
theorem meets_mono {ok' : S → E → Prop}
    (hinv : ∀ s e s', Inv s → ok s e → step s e = some s' → Inv s')
    (himp : ∀ s e, Inv s → ok s e → ok' s e) (hs : Inv s)
    (h : Meets step ok s es) : Meets step ok' s es := by
  induction es generalizing s with
  | nil => exact trivial
  | cons e es ih =>
    obtain ⟨hok, hrest⟩ := h
    exact ⟨himp s e hs hok, fun m hm => ih (hinv s e m hs hok hm) (hrest m hm)⟩

/-- **Two conditions that agree while an invariant holds** are met by the same runs. -/
theorem meets_congr {ok' : S → E → Prop}
    (hinv : ∀ s e s', Inv s → ok' s e → step s e = some s' → Inv s')
    (hiff : ∀ s e, Inv s → (ok s e ↔ ok' s e)) (hs : Inv s) :
    Meets step ok s es ↔ Meets step ok' s es := by
  refine ⟨meets_mono ?_ ?_ hs, meets_mono hinv ?_ hs⟩
  · intro s e s' h hok hstep
    exact hinv s e s' h ((hiff s e h).mp hok) hstep
  · intro s e h hok
    exact (hiff s e h).mp hok
  · intro s e h hok
    exact (hiff s e h).mpr hok

/-! ### Refinement of objects -/

section Refine

variable {C A E O : Type*} {cstep : C → E → Option (C × O)} {astep : A → E → Option (A × O)}

/-- The state after a sequence of calls and their answers, `none` if a call is refused. -/
def answers {S : Type*} (step : S → E → Option (S × O)) : S → List E → Option (S × List O)
  | s, [] => some (s, [])
  | s, e :: es => (step s e).bind fun r => (answers step r.1 es).map fun q => (q.1, r.2 :: q.2)

/-- Both objects get the call; the answers are left out. -/
def both (cstep : C → E → Option (C × O)) (astep : A → E → Option (A × O)) (s : C × A) (e : E) :
    Option (C × A) :=
  (cstep s.1 e).bind fun c => (astep s.2 e).map fun a => (c.1, a.1)

theorem answers_cons_eq_some {S : Type*} {step : S → E → Option (S × O)} {s s' : S} {e : E}
    {es : List E} {os : List O} :
    answers step s (e :: es) = some (s', os) ↔
      ∃ m o rest, step s e = some (m, o) ∧ answers step m es = some (s', rest) ∧
        os = o :: rest := by
  rw [answers, Option.bind_eq_some_iff]
  constructor
  · rintro ⟨⟨m, o⟩, hstep, hrest⟩
    obtain ⟨⟨s'', rest⟩, hes, heq⟩ := Option.map_eq_some_iff.mp hrest
    obtain ⟨rfl, rfl⟩ := Prod.mk.inj heq
    exact ⟨m, o, rest, hstep, hes, rfl⟩
  · rintro ⟨m, o, rest, hstep, hes, rfl⟩
    exact ⟨(m, o), hstep, Option.map_eq_some_iff.mpr ⟨(s', rest), hes, rfl⟩⟩

/-- **Refinement throughout.** If a call that meets the condition keeps related objects related and
gives the same answer, and no other call gives a right state, the objects agree throughout a
sequence of calls exactly if its calls meet the condition. -/
theorem refines_throughout_iff {R View : C → A → Prop} {ok : C × A → E → Prop}
    (hview : ∀ c a, R c a → View c a)
    (hrefused : ∀ c a e, R c a → astep a e = none → ok (c, a) e)
    (hgood : ∀ c a e a' o, R c a → astep a e = some (a', o) → ok (c, a) e →
      ∃ c', cstep c e = some (c', o) ∧ R c' a')
    (hbad : ∀ c a e a' o c', R c a → astep a e = some (a', o) → cstep c e = some (c', o) →
      View c' a' → ok (c, a) e)
    {c : C} {a : A} (h : R c a) (es : List E) :
    (∀ done rest a' os, es = done ++ rest → answers astep a done = some (a', os) →
        ∃ c', answers cstep c done = some (c', os) ∧ View c' a') ↔
      Meets (both cstep astep) ok (c, a) es := by
  induction es generalizing c a with
  | nil =>
    refine ⟨fun _ => meets_nil _, fun _ done rest a' os hcut hrun => ?_⟩
    obtain ⟨rfl, -⟩ := List.append_eq_nil_iff.mp hcut.symm
    obtain ⟨rfl, rfl⟩ := Prod.mk.inj (Option.some.inj hrun)
    exact ⟨c, rfl, hview c a h⟩
  | cons e es ih =>
    constructor
    · intro hall
      -- the sequence of this one call tells whether it is right
      have hok : ok (c, a) e := by
        cases ha : astep a e with
        | none => exact hrefused c a e h ha
        | some r =>
          obtain ⟨c₁, hrun₁, hview₁⟩ := hall [e] es r.1 [r.2] rfl
            (answers_cons_eq_some.mpr ⟨r.1, r.2, [], ha, rfl, rfl⟩)
          obtain ⟨m, o, tail, hm, hrest, hos⟩ := answers_cons_eq_some.mp hrun₁
          obtain ⟨rfl, rfl⟩ := Prod.mk.inj (Option.some.inj hrest)
          obtain ⟨rfl, -⟩ := List.cons.inj hos
          exact hbad c a e r.1 r.2 m h ha hm hview₁
      refine meets_cons.mpr ⟨hok, fun s hs => ?_⟩
      obtain ⟨⟨m, o'⟩, hm, hs⟩ := Option.bind_eq_some_iff.mp hs
      obtain ⟨⟨a₁, o⟩, ha, rfl⟩ := Option.map_eq_some_iff.mp hs
      obtain ⟨c₁, hc₁, hR₁⟩ := hgood c a e a₁ o h ha hok
      obtain ⟨rfl, rfl⟩ := Prod.mk.inj (Option.some.inj (hm.symm.trans hc₁))
      refine (ih hR₁).mp fun done rest a' os hcut hrun => ?_
      obtain ⟨c', hc', hv⟩ := hall (e :: done) rest a' (o' :: os)
        (by rw [hcut, List.cons_append])
        (answers_cons_eq_some.mpr ⟨a₁, o', os, ha, hrun, rfl⟩)
      obtain ⟨m', o'', tail, hm', hrest', hos⟩ := answers_cons_eq_some.mp hc'
      obtain ⟨rfl, -⟩ := Prod.mk.inj (Option.some.inj (hm.symm.trans hm'))
      obtain ⟨-, rfl⟩ := List.cons.inj hos
      exact ⟨c', hrest', hv⟩
    · rintro ⟨hok, hrest⟩ done rest a' os hcut hrun
      cases done with
      | nil =>
        obtain ⟨rfl, rfl⟩ := Prod.mk.inj (Option.some.inj hrun)
        exact ⟨c, rfl, hview c a h⟩
      | cons e' done =>
        obtain ⟨rfl, htail⟩ := List.cons.inj hcut
        obtain ⟨a₁, o, tail, ha, hdone, rfl⟩ := answers_cons_eq_some.mp hrun
        obtain ⟨c₁, hc₁, hR₁⟩ := hgood c a e a₁ o h ha hok
        have hboth : both cstep astep (c, a) e = some (c₁, a₁) := by
          rw [both, hc₁, ha]
          rfl
        obtain ⟨c', hc', hv⟩ := (ih hR₁).mpr (hrest _ hboth) done rest a' tail htail hdone
        exact ⟨c', answers_cons_eq_some.mpr ⟨c₁, o, tail, hc₁, hc', rfl⟩, hv⟩

end Refine

end Noxu.Library
