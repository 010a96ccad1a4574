import Mathlib.Logic.Function.Basic
import Noxu.Library.Run
import Noxu.Rep.Choice

/-!
# The Commit Freeze Latch

While an election is under way a replica must not replay a commit. A promise of a round freezes the
latch, the result of that round or of a later one thaws it, a freeze ends by itself when its time
is over, and the thread that replays a commit first waits until the latch is not frozen. Any number
of threads may wait.

A thread that wakes up compares the **generation** of the latch with the one it began to wait in. If
they differ and the latch is frozen it returns, which lets the commit behind it through. The round
in force may then be one that the thread has never waited for.

Next to the latch stand the freezes that took effect and that neither a result nor a clear has
answered, each with the time at which it ends.

## Main results

* `LatchInv.step`: an open latch has no freeze whose time is not over;
* `awaitThaw_right_iff`: **a thread returns only from an open latch exactly if none wakes up in a
  frozen one of another generation**, and so in every run in which no freeze takes effect while a
  thread waits.
-/

open Noxu.Library

namespace Noxu

/-- The identity of an election round for the latch: the round is in every leading key of the
ranking. -/
def roundProposal (term : ℕ) : Proposal String where
  nodeName := ""
  dtvlsn := term
  vlsn := term
  priority := 0
  term := term
  timestampMs := 0

theorem roundProposal_isBetterThan (p q : ℕ) :
    (roundProposal p).isBetterThan (roundProposal q) = decide (q < p) := by
  rw [Bool.eq_iff_iff, Proposal.isBetterThan_iff, decide_eq_true_eq, Proposal.rank, Proposal.rank,
    Prod.Lex.toLex_lt_toLex]
  dsimp only [roundProposal]
  rw [Prod.Lex.toLex_lt_toLex, Prod.Lex.toLex_lt_toLex]
  simp

/-! ### The latch -/

/-- The state behind the latch's mutex. -/
structure FreezeState where
  proposal : Option (Proposal String)
  freezeEnd : Option ℕ
  generation : ℕ
  frozen : Bool
  thawedByElection : Bool

namespace FreezeState

/-- Not frozen. -/
def new : FreezeState := ⟨none, none, 0, false, false⟩

/-- The next generation, which wraps around. -/
def nextGeneration (st : FreezeState) : ℕ := (st.generation + 1) % 2 ^ 64

/-- A freeze is ignored unless its round is newer than the one in place. -/
def takesEffect (st : FreezeState) (p : Proposal String) : Bool :=
  st.proposal.all fun cur => p.isBetterThan cur

/-- `freeze`. -/
def freeze (st : FreezeState) (timeout now : ℕ) (p : Proposal String) : FreezeState :=
  if st.takesEffect p then
    { proposal := some p
      freezeEnd := some (now + timeout)
      generation := if st.proposal.isSome then st.nextGeneration else st.generation
      frozen := true
      thawedByElection := false }
  else st

/-- `vlsn_event`. -/
def vlsnEvent (st : FreezeState) (listener : Proposal String) : FreezeState :=
  match st.proposal with
  | none => st
  | some cur =>
    if cur.isBetterThan listener then st
    else
      { st with frozen := false, thawedByElection := true, generation := st.nextGeneration }

/-- `clear_latch`. -/
def clearLatch (st : FreezeState) : FreezeState where
  proposal := none
  freezeEnd := none
  generation := st.nextGeneration
  frozen := false
  thawedByElection := false

/-- One look of a waiting thread at the latch: what it returns, or nothing if it goes on waiting. -/
def awaitLoop (st : FreezeState) (myGeneration now : ℕ) : FreezeState × Option Bool :=
  if !st.frozen then
    ({ st with thawedByElection := false, proposal := none, freezeEnd := none }, some true)
  else if st.generation ≠ myGeneration then (st, some false)
  else if st.freezeEnd.getD now ≤ now then
    ({ st with frozen := false, proposal := none, freezeEnd := none }, some false)
  else (st, none)

/-- The call up to the first wait. -/
def awaitThaw (st : FreezeState) (now : ℕ) : FreezeState × Option Bool :=
  if st.thawedByElection then
    ({ st with thawedByElection := false, frozen := false, proposal := none, freezeEnd := none },
      some true)
  else if !st.frozen then (st, some false)
  else st.awaitLoop st.generation now

end FreezeState

/-! ### Threads around the latch -/

/-- The latch, the threads that wait with the generation they began in, the time, and the freezes
not answered yet: round and end. -/
structure LatchSystem (θ : Type) where
  latch : FreezeState
  waiting : θ → Option ℕ
  clock : ℕ
  unanswered : List (ℕ × ℕ)

/-- What happens to the latch. -/
inductive LatchEvent (θ : Type) where
  | freeze (now term : ℕ)
  | vlsnEvent (term : ℕ)
  | clearLatch
  | awaitThaw (thread : θ) (now : ℕ)
  | wake (thread : θ) (now : ℕ)

namespace LatchSystem

variable {θ : Type}

/-- Nobody waits. -/
def new : LatchSystem θ := ⟨.new, fun _ => none, 0, []⟩

/-- A thread after a look at the latch: it waits in a generation unless it returns. -/
def look [DecidableEq θ] (s : LatchSystem θ) (thread : θ) (now generation : ℕ)
    (seen : FreezeState × Option Bool) : LatchSystem θ :=
  { s with
    latch := seen.1
    waiting := Function.update s.waiting thread (if seen.2.isSome then none else some generation)
    clock := now }

/-- One event; the time does not go back, and a thread that waits makes no call. -/
def step [DecidableEq θ] (timeout : ℕ) (s : LatchSystem θ) : LatchEvent θ → Option (LatchSystem θ)
  | .freeze now term =>
    if now < s.clock then none
    else
      some
        { s with
          latch := s.latch.freeze timeout now (roundProposal term)
          clock := now
          unanswered :=
            if s.latch.takesEffect (roundProposal term) then (term, now + timeout) :: s.unanswered
            else s.unanswered }
  | .vlsnEvent term =>
    some
      { s with
        latch := s.latch.vlsnEvent (roundProposal term)
        unanswered := s.unanswered.filter fun f => decide (term < f.1) }
  | .clearLatch => some { s with latch := s.latch.clearLatch, unanswered := [] }
  | .awaitThaw thread now =>
    if now < s.clock ∨ (s.waiting thread).isSome then none
    else some (s.look thread now s.latch.generation (s.latch.awaitThaw now))
  | .wake thread now =>
    if now < s.clock then none
    else
      (s.waiting thread).map fun generation =>
        s.look thread now generation (s.latch.awaitLoop generation now)

end LatchSystem

/-- The thread that looks at the latch. -/
def LatchEvent.thread? {θ : Type} : LatchEvent θ → Option θ
  | .awaitThaw t _ | .wake t _ => some t
  | _ => none

/-! ### What the latch is for -/

section Runs

variable {θ : Type} {timeout : ℕ} {s s' : LatchSystem θ} {e : LatchEvent θ}

/-- The latch is open, and every freeze has been answered by a result of its round or a later one,
by a clear, or by the end of its time. -/
def LatchSystem.Open (s : LatchSystem θ) : Prop :=
  s.latch.frozen = false ∧ ∀ f ∈ s.unanswered, f.2 ≤ s.clock

/-- A thread that returns finds the latch open. -/
def LatchSystem.RightIn [DecidableEq θ] (timeout : ℕ) (s : LatchSystem θ) (e : LatchEvent θ) :
    Prop :=
  ∀ s', s.step timeout e = some s' → ∀ t, e.thread? = some t → s'.waiting t = none → s'.Open

/-- A thread that wakes up in a frozen latch began to wait in its generation. -/
def LatchSystem.Sound (s : LatchSystem θ) : LatchEvent θ → Prop
  | .wake t now =>
    s.clock ≤ now → s.latch.frozen = true → ∀ g, s.waiting t = some g → g = s.latch.generation
  | _ => True

/-- A freeze that takes effect finds no thread waiting. -/
def LatchSystem.Quiet (s : LatchSystem θ) : LatchEvent θ → Prop
  | .freeze now term =>
    s.clock ≤ now → s.latch.takesEffect (roundProposal term) = true → ∀ t, s.waiting t = none
  | _ => True

/-! ### Freezes and their answers -/

/-- A freeze in force outlasts every other one that is not answered, and those of later rounds are
over; an open latch has none that is not over. -/
structure LatchInv (timeout : ℕ) (s : LatchSystem θ) : Prop where
  thawed : s.latch.thawedByElection = true → s.latch.frozen = false
  round : ∀ p, s.latch.proposal = some p → ∃ term, p = roundProposal term
  frozen : s.latch.frozen = true → ∃ term freezeEnd,
    s.latch.proposal = some (roundProposal term) ∧ s.latch.freezeEnd = some freezeEnd ∧
      ∀ f ∈ s.unanswered, f.2 ≤ freezeEnd ∧ (f.1 ≤ term ∨ f.2 ≤ s.clock)
  thaw : s.latch.frozen = false → ∀ f ∈ s.unanswered, f.2 ≤ s.clock
  bound : ∀ f ∈ s.unanswered, f.2 ≤ s.clock + timeout

theorem latchInv_new : LatchInv timeout (LatchSystem.new : LatchSystem θ) where
  thawed := nofun
  round := nofun
  frozen := nofun
  thaw := nofun
  bound := nofun

/-- A freeze takes effect if its round is newer than the one in place. -/
theorem LatchInv.takesEffect (h : LatchInv timeout s) {term : ℕ} :
    s.latch.takesEffect (roundProposal term) = true ↔
      ∀ cur, s.latch.proposal = some (roundProposal cur) → cur < term := by
  unfold FreezeState.takesEffect
  cases hp : s.latch.proposal with
  | none => simp
  | some p =>
    obtain ⟨cur, rfl⟩ := h.round p hp
    rw [Option.all_some, roundProposal_isBetterThan, decide_eq_true_eq]
    refine ⟨fun hlt c hc => ?_, fun hall => hall cur rfl⟩
    have : cur = c := congrArg Proposal.term (Option.some.inj hc)
    exact this ▸ hlt

/-- **A freeze.** -/
theorem LatchInv.freeze (h : LatchInv timeout s) {now term : ℕ} (hnow : s.clock ≤ now)
    (heffect : s.latch.takesEffect (roundProposal term) = true) :
    LatchInv timeout
      { s with
        latch := s.latch.freeze timeout now (roundProposal term)
        clock := now
        unanswered := (term, now + timeout) :: s.unanswered } := by
  rw [FreezeState.freeze, if_pos heffect]
  have hbound : ∀ f ∈ (term, now + timeout) :: s.unanswered, f.2 ≤ now + timeout := by
    refine List.forall_mem_cons.mpr ⟨le_rfl, fun f hf => ?_⟩
    exact (h.bound f hf).trans (Nat.add_le_add_right hnow _)
  have hround : ∀ f ∈ s.unanswered, f.1 ≤ term ∨ f.2 ≤ now := by
    intro f hf
    cases hfrozen : s.latch.frozen with
    | false => exact .inr ((h.thaw hfrozen f hf).trans hnow)
    | true =>
      obtain ⟨cur, _, hcur, -, hall⟩ := h.frozen hfrozen
      have hlt := h.takesEffect.mp heffect cur hcur
      exact (hall f hf).2.imp (fun hle => hle.trans hlt.le) fun hle => hle.trans hnow
  refine ⟨nofun, fun p hp => ⟨term, (Option.some.inj hp).symm⟩, fun _ => ?_,
    nofun, hbound⟩
  refine ⟨term, now + timeout, rfl, rfl, fun f hf => ⟨hbound f hf, ?_⟩⟩
  rcases List.mem_cons.mp hf with rfl | hf
  · exact .inl le_rfl
  · exact hround f hf

/-- **The result of an election** answers the freezes of its round and of earlier ones. -/
theorem LatchInv.vlsnEvent (h : LatchInv timeout s) (term : ℕ) :
    LatchInv timeout
      { s with
        latch := s.latch.vlsnEvent (roundProposal term)
        unanswered := s.unanswered.filter fun f => decide (term < f.1) } := by
  have hbound : ∀ f ∈ s.unanswered.filter (fun f => decide (term < f.1)),
      f.2 ≤ s.clock + timeout := fun f hf => h.bound f (List.mem_of_mem_filter hf)
  have hkept : LatchInv timeout
      { s with unanswered := s.unanswered.filter fun f => decide (term < f.1) } := by
    refine ⟨h.thawed, h.round, fun hf => ?_, fun hf f hmem => ?_, hbound⟩
    · obtain ⟨cur, freezeEnd, hcur, hend, hall⟩ := h.frozen hf
      exact ⟨cur, freezeEnd, hcur, hend, fun f hmem => hall f (List.mem_of_mem_filter hmem)⟩
    · exact h.thaw hf f (List.mem_of_mem_filter hmem)
  unfold FreezeState.vlsnEvent
  cases hp : s.latch.proposal with
  | none => exact hkept
  | some p =>
    obtain ⟨cur, rfl⟩ := h.round p hp
    dsimp only
    rw [roundProposal_isBetterThan]
    split_ifs with hlt
    · exact hkept
    · refine ⟨fun _ => rfl, fun p heq => h.round p (hp.trans heq), nofun, fun _ f hmem => ?_,
        hbound⟩
      -- what is not answered by this result is of a later round than the one in force
      obtain ⟨hmem, hterm⟩ := List.mem_filter.mp hmem
      cases hfrozen : s.latch.frozen with
      | false => exact h.thaw hfrozen f hmem
      | true =>
        obtain ⟨cur', _, hcur, -, hall⟩ := h.frozen hfrozen
        have heq : cur = cur' := congrArg Proposal.term (Option.some.inj (hp.symm.trans hcur))
        refine (hall f hmem).2.resolve_left fun hle => ?_
        have hterm := of_decide_eq_true hterm
        exact hlt (decide_eq_true (by omega))

/-- A latch that is open after a look of a thread. -/
theorem LatchInv.opened (h : LatchInv timeout s) {now : ℕ} (hnow : s.clock ≤ now)
    (hopen : ∀ f ∈ s.unanswered, f.2 ≤ now) (waiting : θ → Option ℕ) (st : FreezeState)
    (hfrozen : st.frozen = false) (hprop : st.proposal = none) :
    LatchInv timeout { s with latch := st, waiting := waiting, clock := now } where
  thawed := fun _ => hfrozen
  round := fun p hp => by rw [hprop] at hp; cases hp
  frozen := fun hf => by rw [hfrozen] at hf; cases hf
  thaw := fun _ => hopen
  bound := fun f hf => (h.bound f hf).trans (Nat.add_le_add_right hnow _)

/-- The time goes on. -/
theorem LatchInv.tick (h : LatchInv timeout s) {now : ℕ} (hnow : s.clock ≤ now)
    (waiting : θ → Option ℕ) :
    LatchInv timeout { s with waiting := waiting, clock := now } := by
  refine ⟨h.thawed, h.round, fun hf => ?_, fun hf f hmem => (h.thaw hf f hmem).trans hnow,
    fun f hmem => (h.bound f hmem).trans (Nat.add_le_add_right hnow _)⟩
  obtain ⟨cur, freezeEnd, hcur, hend, hall⟩ := h.frozen hf
  exact ⟨cur, freezeEnd, hcur, hend,
    fun f hmem => ⟨(hall f hmem).1, (hall f hmem).2.imp_right fun hle => hle.trans hnow⟩⟩

/-- **One look of a waiting thread.** It returns from an open latch, unless it finds the latch
frozen in another generation. -/
theorem LatchInv.awaitLoop [DecidableEq θ] (h : LatchInv timeout s) {now g : ℕ}
    (hnow : s.clock ≤ now) (t : θ) :
    LatchInv timeout (s.look t now g (s.latch.awaitLoop g now)) ∧
      ((s.look t now g (s.latch.awaitLoop g now)).waiting t = none →
        (s.look t now g (s.latch.awaitLoop g now)).Open ∨
          s.latch.frozen = true ∧ g ≠ s.latch.generation) := by
  unfold FreezeState.awaitLoop
  split_ifs with hfrozen hgen hend
  · have hfrozen : s.latch.frozen = false := by simpa using hfrozen
    have hopen : ∀ f ∈ s.unanswered, f.2 ≤ now := fun f hf => (h.thaw hfrozen f hf).trans hnow
    exact ⟨h.opened hnow hopen _ _ hfrozen rfl, fun _ => .inl ⟨hfrozen, hopen⟩⟩
  · exact ⟨h.tick hnow _, fun _ => .inr ⟨by simpa using hfrozen, Ne.symm hgen⟩⟩
  · obtain ⟨cur, freezeEnd, -, hfreezeEnd, hall⟩ := h.frozen (by simpa using hfrozen)
    rw [hfreezeEnd] at hend
    have hopen : ∀ f ∈ s.unanswered, f.2 ≤ now := fun f hf => (hall f hf).1.trans hend
    exact ⟨h.opened hnow hopen _ _ rfl rfl, fun _ => .inl ⟨rfl, hopen⟩⟩
  · refine ⟨h.tick hnow _, fun hwaiting => ?_⟩
    simp [LatchSystem.look] at hwaiting

theorem LatchInv.awaitThaw [DecidableEq θ] (h : LatchInv timeout s) {now : ℕ}
    (hnow : s.clock ≤ now) (t : θ) :
    LatchInv timeout (s.look t now s.latch.generation (s.latch.awaitThaw now)) ∧
      ((s.look t now s.latch.generation (s.latch.awaitThaw now)).waiting t = none →
        (s.look t now s.latch.generation (s.latch.awaitThaw now)).Open) := by
  unfold FreezeState.awaitThaw
  split_ifs with hthawed hfrozen
  · have hopen : ∀ f ∈ s.unanswered, f.2 ≤ now :=
      fun f hf => (h.thaw (h.thawed hthawed) f hf).trans hnow
    exact ⟨h.opened hnow hopen _ _ rfl rfl, fun _ => ⟨rfl, hopen⟩⟩
  · have hfrozen : s.latch.frozen = false := by simpa using hfrozen
    exact ⟨h.tick hnow _, fun _ => ⟨hfrozen, fun f hf => (h.thaw hfrozen f hf).trans hnow⟩⟩
  · obtain ⟨hinv, hreturn⟩ := h.awaitLoop hnow t
    exact ⟨hinv, fun hw => (hreturn hw).resolve_right fun hne => hne.2 rfl⟩

variable [DecidableEq θ]

/-- **One event.** -/
theorem LatchInv.step (h : LatchInv timeout s) (hstep : s.step timeout e = some s') :
    LatchInv timeout s' := by
  cases e with
  | freeze now term =>
    obtain ⟨hnow, hstep⟩ := Option.ite_none_left_eq_some.mp hstep
    obtain rfl := Option.some.inj hstep
    have hnow : s.clock ≤ now := Nat.not_lt.mp hnow
    by_cases heffect : s.latch.takesEffect (roundProposal term) = true
    · rw [if_pos heffect]
      exact h.freeze hnow heffect
    · rw [if_neg heffect, FreezeState.freeze, if_neg heffect]
      exact h.tick hnow s.waiting
  | vlsnEvent term =>
    obtain rfl := Option.some.inj hstep
    exact h.vlsnEvent term
  | clearLatch =>
    obtain rfl := Option.some.inj hstep
    exact ⟨nofun, nofun, nofun, nofun, nofun⟩
  | awaitThaw t now =>
    obtain ⟨hguard, hstep⟩ := Option.ite_none_left_eq_some.mp hstep
    obtain rfl := Option.some.inj hstep
    exact (h.awaitThaw (by omega) t).1
  | wake t now =>
    obtain ⟨hnow, hstep⟩ := Option.ite_none_left_eq_some.mp hstep
    obtain ⟨g, -, rfl⟩ := Option.map_eq_some_iff.mp hstep
    exact (h.awaitLoop (Nat.not_lt.mp hnow) t).1

/-- **A thread returns from an open latch exactly if it does not wake up in another generation of a
frozen one.** -/
theorem LatchInv.rightIn_iff (h : LatchInv timeout s) : s.RightIn timeout e ↔ s.Sound e := by
  cases e with
  | freeze | vlsnEvent | clearLatch => exact iff_of_true (fun _ _ _ => nofun) trivial
  | awaitThaw t now =>
    refine iff_of_true (fun s' hstep t' ht hw => ?_) trivial
    obtain rfl : t = t' := Option.some.inj ht
    obtain ⟨hguard, hstep⟩ := Option.ite_none_left_eq_some.mp hstep
    obtain rfl := Option.some.inj hstep
    exact (h.awaitThaw (by omega) t).2 hw
  | wake t now =>
    constructor
    · intro hright hnow hfrozen g hg
      by_contra hne
      have hloop : s.latch.awaitLoop g now = (s.latch, some false) := by
        rw [FreezeState.awaitLoop, hfrozen, Bool.not_true, if_neg Bool.false_ne_true,
          if_pos (Ne.symm hne)]
      have hstep : s.step timeout (.wake t now) =
          some (s.look t now g (s.latch, some false)) := by
        rw [LatchSystem.step, if_neg (Nat.not_lt.mpr hnow), hg, Option.map_some, hloop]
      have hopen := hright _ hstep t rfl (Function.update_self ..)
      exact absurd (hfrozen.symm.trans hopen.1) (by simp)
    · intro hsound s' hstep t' ht hw
      obtain rfl : t = t' := Option.some.inj ht
      obtain ⟨hnow, hstep⟩ := Option.ite_none_left_eq_some.mp hstep
      obtain ⟨g, hg, rfl⟩ := Option.map_eq_some_iff.mp hstep
      have hnow := Nat.not_lt.mp hnow
      refine ((h.awaitLoop hnow t).2 hw).resolve_right fun hne => ?_
      exact hne.2 (hsound hnow hne.1 g hg)

/-- While no freeze takes effect under a waiting thread, a thread that waits in a frozen latch waits
in its generation. -/
def LatchSystem.SameGeneration (s : LatchSystem θ) : Prop :=
  s.latch.frozen = true → ∀ t g, s.waiting t = some g → g = s.latch.generation

/-- What a look leaves of the latch: the generation, and a freeze only if there was one. -/
theorem FreezeState.awaitLoop_spec (st : FreezeState) (g now : ℕ) :
    (st.awaitLoop g now).1.generation = st.generation ∧
      ((st.awaitLoop g now).1.frozen = true → st.frozen = true) ∧
      ((st.awaitLoop g now).2 = none → g = st.generation) := by
  unfold FreezeState.awaitLoop
  split_ifs with hfrozen hgen hend
  · exact ⟨rfl, id, nofun⟩
  · exact ⟨rfl, id, nofun⟩
  · exact ⟨rfl, nofun, nofun⟩
  · exact ⟨rfl, id, fun _ => (not_not.mp hgen).symm⟩

theorem LatchSystem.SameGeneration.look (h : s.SameGeneration) {t : θ} {now g : ℕ}
    {seen : FreezeState × Option Bool} (hg : seen.1.generation = s.latch.generation)
    (hfrozen : seen.1.frozen = true → s.latch.frozen = true)
    (hwait : seen.2 = none → g = s.latch.generation) : (s.look t now g seen).SameGeneration := by
  intro hf u g' hu
  simp only [LatchSystem.look] at hf hu ⊢
  rw [hg]
  rcases eq_or_ne u t with rfl | hne
  · rw [Function.update_self] at hu
    split_ifs at hu with hsome
    rw [← Option.some.inj hu]
    exact hwait (by simpa using hsome)
  · rw [Function.update_of_ne hne] at hu
    exact h (hfrozen hf) u g' hu

theorem LatchSystem.SameGeneration.step (h : s.SameGeneration) (hq : s.Quiet e)
    (hstep : s.step timeout e = some s') : s'.SameGeneration := by
  cases e with
  | freeze now term =>
    obtain ⟨hnow, hstep⟩ := Option.ite_none_left_eq_some.mp hstep
    obtain rfl := Option.some.inj hstep
    intro hfrozen t g hg
    by_cases heffect : s.latch.takesEffect (roundProposal term) = true
    · rw [show s.waiting t = none from hq (Nat.not_lt.mp hnow) heffect t] at hg
      cases hg
    · simp only [FreezeState.freeze, if_neg heffect] at hfrozen ⊢
      exact h hfrozen t g hg
  | vlsnEvent term =>
    obtain rfl := Option.some.inj hstep
    unfold FreezeState.vlsnEvent
    split
    · exact h
    · split_ifs
      · exact h
      · exact nofun
  | clearLatch =>
    obtain rfl := Option.some.inj hstep
    exact nofun
  | awaitThaw t now =>
    obtain ⟨-, hstep⟩ := Option.ite_none_left_eq_some.mp hstep
    obtain rfl := Option.some.inj hstep
    unfold FreezeState.awaitThaw
    split_ifs
    · exact h.look rfl nofun nofun
    · exact h.look rfl id nofun
    · obtain ⟨hgen, hfrozen, hwait⟩ := s.latch.awaitLoop_spec s.latch.generation now
      exact h.look hgen hfrozen hwait
  | wake t now =>
    obtain ⟨-, hstep⟩ := Option.ite_none_left_eq_some.mp hstep
    obtain ⟨g, -, rfl⟩ := Option.map_eq_some_iff.mp hstep
    obtain ⟨hgen, hfrozen, hwait⟩ := s.latch.awaitLoop_spec g now
    exact h.look hgen hfrozen hwait

/-- **When a thread returns from an open latch.** In every run of freezes, results, clears and waits
of any threads: whenever a thread returns, the latch is open and every freeze has been answered or
is over, exactly if no thread wakes up in a frozen latch of another generation than it began to
wait in. No thread does so while no freeze takes effect under a waiting one. -/
theorem awaitThaw_right_iff (timeout : ℕ) (events : List (LatchEvent θ)) :
    (Meets (LatchSystem.step timeout) (LatchSystem.RightIn timeout) .new events ↔
      Meets (LatchSystem.step timeout) LatchSystem.Sound .new events) ∧
    (Meets (LatchSystem.step timeout) LatchSystem.Quiet .new events →
      Meets (LatchSystem.step timeout) (LatchSystem.RightIn timeout) .new events) := by
  have hiff : Meets (LatchSystem.step timeout) (LatchSystem.RightIn timeout) .new events ↔
      Meets (LatchSystem.step timeout) LatchSystem.Sound .new events := by
    refine meets_congr (?_ : ∀ s e s', LatchInv timeout s → _) ?_ latchInv_new
    · intro s e s' h _ hstep
      exact h.step hstep
    · intro s e h
      exact h.rightIn_iff
  refine ⟨hiff, fun hquiet => hiff.mpr ?_⟩
  refine meets_mono (?_ : ∀ s e s', LatchSystem.SameGeneration s → _) ?_ (by nofun) hquiet
  · intro s e s' h hq hstep
    exact h.step hq hstep
  · intro s e h _
    cases e with
    | wake t now => exact fun _ hfrozen g hg => h hfrozen t g hg
    | freeze | vlsnEvent | clearLatch | awaitThaw => trivial

end Runs

/-- **A newer freeze lets a waiting thread through.** -/
theorem superseded_wait_returns :
    ∃ s : LatchSystem Unit,
      run (LatchSystem.step 5000) .new
          [.freeze 0 1, .awaitThaw () 0, .freeze 10 2, .wake () 10] = some s ∧
        s.waiting () = none ∧ s.latch.frozen = true ∧ (2, 5010) ∈ s.unanswered := by
  exact ⟨_, rfl, by decide⟩

end Noxu
