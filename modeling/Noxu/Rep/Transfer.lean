import Noxu.Library.Run
import Noxu.Rep.Election

/-!
# The Hand-Off of Mastership

One call of `transfer_master` on the master, step by step, together with the threads that
commit there and with the network to the target. A committing thread passes the commit
block, takes a VLSN from the counter, writes its commit record and tells the VLSN index, in
separate steps; the transfer reads the last VLSN of the index.

## Main results

* `HandOff.Inv.step`: what a step that meets `SeesEveryCommit` keeps;
* `transfer_covers_commits`: **in runs whose steps all meet `SeesEveryCommit` the target has
  acknowledged every commit of the old master, and the two are not both master when the call
  returns.**
-/

open Noxu.Library

namespace Noxu

/-! ### The state -/

/-- How far the call has come. `guarded` tells whether it holds the commit block. -/
inductive TransferPhase
  | idle
  /-- waits for the target to acknowledge the VLSN -/
  | waiting (goal : ℕ)
  | caughtUp
  /-- has engaged the commit block -/
  | frozen
  /-- is about to tell the target -/
  | confirmed (guarded : Bool)
  /-- waits for the reply of the target -/
  | sent (guarded : Bool)
  /-- has read the acknowledgement -/
  | acknowledged (guarded : Bool)
  | returned (ok : Bool)
  deriving DecidableEq

/-- The master, its committing threads, the feeder of the target, the target and the
network. `assigned` only records the VLSNs given out while the node is master, and `told`
what the target had acknowledged when it became master. -/
structure HandOff where
  master : NodeState
  target : NodeState
  phase : TransferPhase
  /-- the commit block is engaged -/
  blocked : Bool
  /-- the last VLSN given out -/
  counter : ℕ
  /-- the last VLSN of the index -/
  indexLast : ℕ
  /-- threads past the commit block that have no VLSN yet -/
  passed : Finset ℕ
  /-- threads with a VLSN whose commit record is not written yet -/
  holding : Finset (ℕ × ℕ)
  /-- threads with a written commit record that the index does not know of yet -/
  logged : Finset (ℕ × ℕ)
  /-- the VLSN the feeder of the target knows to be acknowledged -/
  runner : Option ℕ
  acked : ℕ
  /-- the transfer message is on its way -/
  request : Bool
  /-- the answer of the target is on its way -/
  reply : Option Bool
  assigned : List ℕ
  told : Option ℕ

/-- What happens on the master, at the target and between them. -/
inductive HandOffEvent
  /-- a committing thread gets past the commit block -/
  | pass (i : ℕ)
  /-- it takes the next VLSN -/
  | assign (i : ℕ)
  /-- it writes its commit record -/
  | write (i v : ℕ)
  /-- the VLSN of a written record is registered -/
  | register (i v : ℕ)
  /-- the same by way of the entry's replication, which waits for the commit block -/
  | replicate (i v : ℕ)
  /-- a recovered prepared transaction takes a VLSN for its commit -/
  | assignRecovered (i : ℕ)
  /-- the target acknowledges a VLSN -/
  | ack (v : ℕ)
  | connect
  | disconnect
  /-- the call starts -/
  | start
  /-- the loop of the first phase finds the target caught up -/
  | poll
  /-- the first phase runs out of time -/
  | timeout
  | freeze
  /-- the call compares the target with the index once more -/
  | confirm
  | send
  /-- the target handles the message -/
  | handle
  /-- the target's service rejects the message: the caller is not authorised, or the node closes -/
  | refuse
  | readReply
  /-- the call gets no reply -/
  | giveUp
  /-- the master makes itself replica -/
  | demote

/-! ### Steps -/

/-- The call returns; a commit block it holds is lifted. -/
def HandOff.finish (s : HandOff) (guarded ok : Bool) : HandOff :=
  { s with phase := .returned ok, blocked := s.blocked && !guarded }

/-- A VLSN is given out; it counts as a commit of the master while the node is master. -/
def HandOff.giveVlsn (s : HandOff) (i v : ℕ) : HandOff :=
  { s with
    holding := insert (i, v) s.holding
    assigned := if s.master = .master then v :: s.assigned else s.assigned }

/-- The index learns of a VLSN. -/
def HandOff.registerVlsn (s : HandOff) (i v : ℕ) : HandOff :=
  { s with logged := s.logged.erase (i, v), indexLast := max s.indexLast v }

/-- One event. -/
def HandOff.step (s : HandOff) : HandOffEvent → Option HandOff
  | .pass i => if s.blocked then none else some { s with passed := insert i s.passed }
  | .assign i =>
    if i ∈ s.passed then
      some ({ s with passed := s.passed.erase i, counter := s.counter + 1 }.giveVlsn i
        (s.counter + 1))
    else none
  | .write i v =>
    if (i, v) ∈ s.holding then
      some { s with holding := s.holding.erase (i, v), logged := insert (i, v) s.logged }
    else none
  | .register i v => if (i, v) ∈ s.logged then some (s.registerVlsn i v) else none
  | .replicate i v =>
    if (i, v) ∈ s.logged ∧ s.blocked = false then some (s.registerVlsn i v) else none
  | .assignRecovered i =>
    if s.master = .master then some (s.giveVlsn i (s.indexLast + 1)) else none
  | .ack v =>
    s.runner.map fun a => { s with runner := some (max a v), acked := max s.acked v }
  | .connect => some { s with runner := some 0 }
  | .disconnect => some { s with runner := none }
  | .start =>
    if s.phase = .idle ∧ s.master = .master then
      if s.indexLast = 0 then some { s with phase := .confirmed false }
      else if s.runner = none then some { s with phase := .returned false }
      else some { s with phase := .waiting s.indexLast }
    else none
  | .poll =>
    match s.phase with
    | .waiting goal =>
      if goal ≤ s.runner.getD 0 then some { s with phase := .caughtUp } else none
    | _ => none
  | .timeout =>
    match s.phase with
    | .waiting _ => some { s with phase := .returned false }
    | _ => none
  | .freeze =>
    if s.phase = .caughtUp then some { s with phase := .frozen, blocked := true } else none
  | .confirm =>
    if s.phase = .frozen then
      if s.runner.getD 0 < s.indexLast then some (s.finish true false)
      else some { s with phase := .confirmed true }
    else none
  | .send =>
    match s.phase with
    | .confirmed guarded => some { s with phase := .sent guarded, request := true }
    | _ => none
  | .handle =>
    if s.request then
      match transitionViaUnknown s.target .master with
      | some state =>
        some { s with
          target := state, request := false, reply := some true, told := some s.acked }
      | none => some { s with request := false, reply := some false }
    else none
  | .refuse => if s.request then some { s with request := false, reply := some false } else none
  | .readReply =>
    match s.phase, s.reply with
    | .sent guarded, some true => some { s with phase := .acknowledged guarded, reply := none }
    | .sent guarded, some false => some ({ s with reply := none }.finish guarded false)
    | _, _ => none
  | .giveUp =>
    match s.phase with
    | .sent guarded => some (s.finish guarded false)
    | _ => none
  | .demote =>
    match s.phase with
    | .acknowledged guarded =>
      match transitionViaUnknown s.master .replica with
      | some state => some ({ s with master := state }.finish guarded true)
      | none => some (s.finish guarded false)
    | _ => none

/-- Before the call: the node is master, the target is not, and no message is on its
way. -/
structure HandOff.Before (s : HandOff) : Prop where
  phase : s.phase = .idle
  master : s.master = .master
  target : s.target ≠ .master
  quiet : s.request = false ∧ s.reply = none ∧ s.told = none
  runner : ∀ a ∈ s.runner, a ≤ s.acked

/-- The condition on a step. The call starts when the index holds a VLSN; it confirms the
target when no thread is between the commit block and the counter and the index knows every
VLSN given out; no recovered commit takes a VLSN while the block is engaged; and the target
handles the message only while the call waits, which then does not give up. -/
def SeesEveryCommit (s : HandOff) : HandOffEvent → Prop
  | .start => 0 < s.indexLast
  | .confirm => s.passed = ∅ ∧ ∀ v ∈ s.assigned, v ≤ s.indexLast
  | .assignRecovered _ => s.blocked = false
  | .handle => s.phase = .sent true
  | .giveUp => s.told = none
  | _ => True

instance SeesEveryCommit.instDecidable (s : HandOff) (e : HandOffEvent) :
    Decidable (SeesEveryCommit s e) := by
  cases e <;> dsimp only [SeesEveryCommit] <;> infer_instance

/-! ### The invariant -/

/-- The target has not been told: it is not master and has answered nothing. -/
structure HandOff.Untold (s : HandOff) : Prop where
  told : s.told = none
  target : s.target ≠ .master
  reply : s.reply = none

/-- The commit block is engaged, no thread can take a VLSN, and the target has acknowledged
all VLSNs given out. -/
structure HandOff.Covered (s : HandOff) : Prop where
  blocked : s.blocked = true
  passed : s.passed = ∅
  acked : ∀ v ∈ s.assigned, v ≤ s.acked

/-- The target is master only if it has been told, and then it had acknowledged all VLSNs
given out. -/
structure HandOff.Told (s : HandOff) : Prop where
  target : s.told = none → s.target ≠ .master
  covers : ∀ a ∈ s.told, ∀ v ∈ s.assigned, v ≤ a

/-- What holds in each phase of the call. -/
def HandOff.PhaseOk (s : HandOff) : TransferPhase → Prop
  | .idle | .waiting _ | .caughtUp => s.Untold ∧ s.request = false
  | .frozen => s.Untold ∧ s.request = false ∧ s.blocked = true
  | .confirmed guarded => s.Untold ∧ s.request = false ∧ guarded = true ∧ s.Covered
  | .sent guarded =>
    guarded = true ∧ s.Covered ∧ s.Told ∧ (s.request = true → s.Untold) ∧
      (s.reply = some false → s.told = none)
  | .acknowledged guarded => guarded = true ∧ s.Covered ∧ s.Told
  | .returned _ => s.Told ∧ (s.master = .master → s.told = none)

/-- The invariant of the hand-off. -/
structure HandOff.Inv (s : HandOff) : Prop where
  runner : ∀ a ∈ s.runner, a ≤ s.acked
  phase : s.PhaseOk s.phase

/-- A step of the threads and of the feeder: the call, the target and the network stay, no
acknowledgement is lost, and a node that is blocked or no longer master gives out no
VLSN. -/
structure Background (s s' : HandOff) : Prop where
  phase : s'.phase = s.phase
  master : s'.master = s.master
  target : s'.target = s.target
  blocked : s'.blocked = s.blocked
  request : s'.request = s.request
  reply : s'.reply = s.reply
  told : s'.told = s.told
  acked : s.acked ≤ s'.acked
  runner : (∀ a ∈ s.runner, a ≤ s.acked) → ∀ a ∈ s'.runner, a ≤ s'.acked
  frozen : s.blocked = true → s.passed = ∅ → s'.passed = ∅ ∧ s'.assigned = s.assigned
  demoted : s.master ≠ .master → s'.assigned = s.assigned

section Background

variable {s s' : HandOff}

theorem HandOff.Untold.background (h : s.Untold) (hb : Background s s') : s'.Untold :=
  ⟨hb.told ▸ h.told, hb.target ▸ h.target, hb.reply ▸ h.reply⟩

theorem HandOff.Covered.background (h : s.Covered) (hb : Background s s') :
    s'.Covered ∧ s'.assigned = s.assigned := by
  obtain ⟨hpassed, hassigned⟩ := hb.frozen h.blocked h.passed
  refine ⟨⟨hb.blocked ▸ h.blocked, hpassed, fun v hv => ?_⟩, hassigned⟩
  rw [hassigned] at hv
  exact (h.acked v hv).trans hb.acked

theorem HandOff.Told.background (h : s.Told) (hb : Background s s')
    (hassigned : s.told ≠ none → s'.assigned = s.assigned) : s'.Told := by
  refine ⟨fun hn => hb.target ▸ h.target (hb.told ▸ hn), fun a ha v hv => ?_⟩
  rw [hb.told] at ha
  rw [hassigned (fun hn => by rw [hn] at ha; cases ha)] at hv
  exact h.covers a ha v hv

/-- Steps in the background keep the invariant. -/
theorem HandOff.Inv.background (h : s.Inv) (hb : Background s s') : s'.Inv := by
  refine ⟨hb.runner h.runner, ?_⟩
  have hphase := h.phase
  rw [hb.phase]
  cases hp : s.phase with
  | idle | waiting | caughtUp =>
    rw [hp] at hphase
    exact ⟨hphase.1.background hb, hb.request ▸ hphase.2⟩
  | frozen =>
    rw [hp] at hphase
    exact ⟨hphase.1.background hb, hb.request ▸ hphase.2.1, hb.blocked ▸ hphase.2.2⟩
  | confirmed guarded =>
    rw [hp] at hphase
    obtain ⟨huntold, hrequest, hguarded, hcovered⟩ := hphase
    exact ⟨huntold.background hb, hb.request ▸ hrequest, hguarded,
      (hcovered.background hb).1⟩
  | sent guarded =>
    rw [hp] at hphase
    obtain ⟨hguarded, hcovered, htold, hrequest, hreply⟩ := hphase
    obtain ⟨hcovered', hassigned⟩ := hcovered.background hb
    exact ⟨hguarded, hcovered', htold.background hb fun _ => hassigned,
      fun hr => (hrequest (hb.request ▸ hr)).background hb,
      fun hr => hb.told ▸ hreply (hb.reply ▸ hr)⟩
  | acknowledged guarded =>
    rw [hp] at hphase
    obtain ⟨hguarded, hcovered, htold⟩ := hphase
    obtain ⟨hcovered', hassigned⟩ := hcovered.background hb
    exact ⟨hguarded, hcovered', htold.background hb fun _ => hassigned⟩
  | returned ok =>
    rw [hp] at hphase
    obtain ⟨htold, hmaster⟩ := hphase
    refine ⟨htold.background hb fun hne => hb.demoted fun hm => hne (hmaster hm), ?_⟩
    rw [hb.master, hb.told]
    exact hmaster

/-- The steps of the threads and of the feeder. -/
def HandOffEvent.isBackground : HandOffEvent → Bool
  | .pass _ | .assign _ | .assignRecovered _ | .write .. | .register .. | .replicate ..
  | .ack _ | .connect | .disconnect => true
  | _ => false

/-- The threads and the feeder take steps in the background. -/
theorem background_of_step {e : HandOffEvent} (hok : SeesEveryCommit s e)
    (hstep : s.step e = some s') (he : e.isBackground = true) : Background s s' := by
  cases e with
  | pass i =>
    simp only [HandOff.step] at hstep
    split at hstep
    · cases hstep
    next hopen =>
      obtain rfl := Option.some.inj hstep
      exact ⟨rfl, rfl, rfl, rfl, rfl, rfl, rfl, le_rfl, id, fun hb => absurd hb hopen,
        fun _ => rfl⟩
  | assign i =>
    simp only [HandOff.step] at hstep
    split at hstep
    next hi =>
      obtain rfl := Option.some.inj hstep
      refine ⟨rfl, rfl, rfl, rfl, rfl, rfl, rfl, le_rfl, id, fun _ hnone => ?_, fun hm => ?_⟩
      · rw [hnone] at hi
        exact absurd hi (Finset.notMem_empty i)
      · simp [HandOff.giveVlsn, hm]
    · cases hstep
  | assignRecovered i =>
    simp only [HandOff.step] at hstep
    split at hstep
    next hm =>
      obtain rfl := Option.some.inj hstep
      refine ⟨rfl, rfl, rfl, rfl, rfl, rfl, rfl, le_rfl, id, fun hb => ?_, fun hn => ?_⟩
      · rw [show s.blocked = false from hok] at hb
        cases hb
      · exact absurd hm hn
    · cases hstep
  | write i v | register i v | replicate i v =>
    simp only [HandOff.step] at hstep
    split at hstep
    · obtain rfl := Option.some.inj hstep
      exact ⟨rfl, rfl, rfl, rfl, rfl, rfl, rfl, le_rfl, id, fun _ h => ⟨h, rfl⟩, fun _ => rfl⟩
    · cases hstep
  | ack v =>
    obtain ⟨a, ha, rfl⟩ := Option.map_eq_some_iff.mp hstep
    refine ⟨rfl, rfl, rfl, rfl, rfl, rfl, rfl, le_max_left .., fun h b hb => ?_,
      fun _ h => ⟨h, rfl⟩, fun _ => rfl⟩
    obtain rfl := Option.some.inj hb
    exact max_le_max (h a ha) le_rfl
  | connect =>
    obtain rfl := Option.some.inj hstep
    refine ⟨rfl, rfl, rfl, rfl, rfl, rfl, rfl, le_rfl, fun _ b hb => ?_, fun _ h => ⟨h, rfl⟩,
      fun _ => rfl⟩
    obtain rfl := Option.some.inj hb
    exact Nat.zero_le _
  | disconnect =>
    obtain rfl := Option.some.inj hstep
    exact ⟨rfl, rfl, rfl, rfl, rfl, rfl, rfl, le_rfl, (fun _ b hb => by cases hb),
      fun _ h => ⟨h, rfl⟩, fun _ => rfl⟩
  | _ => cases he

end Background

/-! ### Steps of the call -/

section Call

variable {s s' : HandOff}

/-- A target that has not been told is in order for a call that returns. -/
theorem HandOff.Untold.told_ok (h : s.Untold) : s.Told :=
  ⟨fun _ => h.target, fun a ha => by rw [h.told] at ha; cases ha⟩

/-- A call may return when the target has not been told. -/
theorem HandOff.Inv.finish_untold (hr : ∀ a ∈ s.runner, a ≤ s.acked) (ht : s.Told)
    (hn : s.told = none) (guarded ok : Bool) : (s.finish guarded ok).Inv :=
  ⟨hr, ⟨ht.target, ht.covers⟩, fun _ => hn⟩

theorem start_inv (h : s.Inv) (hok : 0 < s.indexLast) (hstep : s.step .start = some s') :
    s'.Inv := by
  simp only [HandOff.step] at hstep
  split at hstep
  next hcond =>
    have hphase := h.phase
    rw [hcond.1] at hphase
    obtain ⟨⟨htold, htarget, hreply⟩, hrequest⟩ := hphase
    rw [if_neg hok.ne'] at hstep
    split at hstep <;> obtain rfl := Option.some.inj hstep
    · exact ⟨h.runner, ⟨fun _ => htarget, fun a ha => by rw [htold] at ha; cases ha⟩,
        fun _ => htold⟩
    · exact ⟨h.runner, ⟨htold, htarget, hreply⟩, hrequest⟩
  · cases hstep

/-- **The comparison under the commit block covers every VLSN given out**, when the index
knows them all and no thread is about to take one. -/
theorem confirm_inv (h : s.Inv) (hok : s.passed = ∅ ∧ ∀ v ∈ s.assigned, v ≤ s.indexLast)
    (hstep : s.step .confirm = some s') : s'.Inv := by
  simp only [HandOff.step] at hstep
  split at hstep
  next hcond =>
    have hphase := h.phase
    rw [hcond] at hphase
    obtain ⟨huntold, hrequest, hblocked⟩ := hphase
    split at hstep <;> obtain rfl := Option.some.inj hstep
    · exact .finish_untold h.runner huntold.told_ok huntold.told true false
    next hcovers =>
      have hle : s.runner.getD 0 ≤ s.acked := by
        cases hr : s.runner with
        | none => exact Nat.zero_le _
        | some a => exact h.runner a hr
      refine ⟨h.runner, ⟨huntold.told, huntold.target, huntold.reply⟩, hrequest, rfl,
        hblocked, hok.1, fun v hv => ?_⟩
      exact (hok.2 v hv).trans ((Nat.le_of_not_lt hcovers).trans hle)
  · cases hstep

/-- The target is told while its acknowledgements cover every VLSN given out. -/
theorem handle_inv (h : s.Inv) (hok : s.phase = .sent true)
    (hstep : s.step .handle = some s') : s'.Inv := by
  have hphase := h.phase
  rw [hok] at hphase
  obtain ⟨-, hcovered, htold, hrequest, -⟩ := hphase
  simp only [HandOff.step] at hstep
  split at hstep
  next hreq =>
    have huntold := hrequest hreq
    split at hstep <;> obtain rfl := Option.some.inj hstep
    · refine ⟨h.runner, ?_⟩
      simp only [hok]
      refine ⟨rfl, ⟨hcovered.1, hcovered.2, hcovered.3⟩, ⟨nofun, fun a ha v hv => ?_⟩, nofun,
        nofun⟩
      obtain rfl := Option.some.inj ha
      exact hcovered.acked v hv
    · refine ⟨h.runner, ?_⟩
      simp only [hok]
      exact ⟨rfl, ⟨hcovered.1, hcovered.2, hcovered.3⟩, ⟨htold.1, htold.2⟩, nofun,
        fun _ => huntold.told⟩
  · cases hstep

/-- A message that is rejected leaves the target as it is. -/
theorem refuse_inv (h : s.Inv) (hstep : s.step .refuse = some s') : s'.Inv := by
  have hphase := h.phase
  simp only [HandOff.step] at hstep
  split at hstep
  next hreq =>
    obtain rfl := Option.some.inj hstep
    refine ⟨h.runner, ?_⟩
    dsimp only
    cases hp : s.phase with
    | idle | waiting | caughtUp | frozen | confirmed =>
      -- no message is on its way yet
      rw [hp] at hphase
      have hnone : s.request = false := by first | exact hphase.2 | exact hphase.2.1
      rw [hnone] at hreq
      cases hreq
    | sent guarded =>
      rw [hp] at hphase
      obtain ⟨hguarded, hcovered, htold, hrequest, -⟩ := hphase
      exact ⟨hguarded, ⟨hcovered.1, hcovered.2, hcovered.3⟩, ⟨htold.1, htold.2⟩, nofun,
        fun _ => (hrequest hreq).told⟩
    | acknowledged guarded =>
      rw [hp] at hphase
      obtain ⟨hguarded, hcovered, htold⟩ := hphase
      exact ⟨hguarded, ⟨hcovered.1, hcovered.2, hcovered.3⟩, htold.1, htold.2⟩
    | returned ok =>
      rw [hp] at hphase
      exact ⟨⟨hphase.1.1, hphase.1.2⟩, hphase.2⟩
  · cases hstep

theorem readReply_inv (h : s.Inv) (hstep : s.step .readReply = some s') : s'.Inv := by
  have hphase := h.phase
  simp only [HandOff.step] at hstep
  split at hstep
  next guarded hsent hreply =>
    obtain rfl := Option.some.inj hstep
    rw [hsent] at hphase
    obtain ⟨hguarded, hcovered, htold, -, -⟩ := hphase
    exact ⟨h.runner, hguarded, ⟨hcovered.1, hcovered.2, hcovered.3⟩, htold.1, htold.2⟩
  next guarded hsent hreply =>
    obtain rfl := Option.some.inj hstep
    rw [hsent] at hphase
    obtain ⟨-, -, htold, -, hrefused⟩ := hphase
    exact ⟨h.runner, ⟨htold.1, htold.2⟩, fun _ => hrefused hreply⟩
  · cases hstep

theorem demote_inv (h : s.Inv) (hstep : s.step .demote = some s') : s'.Inv := by
  have hphase := h.phase
  simp only [HandOff.step] at hstep
  split at hstep
  next guarded hack =>
    rw [hack] at hphase
    obtain ⟨-, -, htold⟩ := hphase
    rw [transitionViaUnknown_eq _ (.inr rfl)] at hstep
    by_cases hshut : s.master = .shutdown
    · rw [if_pos hshut] at hstep
      obtain rfl := Option.some.inj hstep
      exact ⟨h.runner, ⟨htold.1, htold.2⟩, fun hm => absurd (hshut.symm.trans hm) (by decide)⟩
    · rw [if_neg hshut] at hstep
      obtain rfl := Option.some.inj hstep
      exact ⟨h.runner, ⟨htold.1, htold.2⟩, nofun⟩
  · cases hstep

/-- **A step that meets the condition keeps the invariant.** -/
theorem HandOff.Inv.step (h : s.Inv) {e : HandOffEvent} (hok : SeesEveryCommit s e)
    (hstep : s.step e = some s') : s'.Inv := by
  by_cases hback : e.isBackground = true
  · exact h.background (background_of_step hok hstep hback)
  have hphase := h.phase
  cases e with
  | start => exact start_inv h hok hstep
  | poll =>
    simp only [HandOff.step] at hstep
    split at hstep
    next goal hw =>
      split at hstep
      · obtain rfl := Option.some.inj hstep
        rw [hw] at hphase
        exact ⟨h.runner, ⟨hphase.1.1, hphase.1.2, hphase.1.3⟩, hphase.2⟩
      · cases hstep
    · cases hstep
  | timeout =>
    simp only [HandOff.step] at hstep
    split at hstep
    next goal hw =>
      obtain rfl := Option.some.inj hstep
      rw [hw] at hphase
      exact ⟨h.runner, ⟨hphase.1.told_ok.1, hphase.1.told_ok.2⟩, fun _ => hphase.1.told⟩
    · cases hstep
  | freeze =>
    simp only [HandOff.step] at hstep
    split at hstep
    next hcaught =>
      obtain rfl := Option.some.inj hstep
      rw [hcaught] at hphase
      exact ⟨h.runner, ⟨hphase.1.1, hphase.1.2, hphase.1.3⟩, hphase.2, rfl⟩
    · cases hstep
  | confirm => exact confirm_inv h hok hstep
  | send =>
    simp only [HandOff.step] at hstep
    split at hstep
    next guarded hconfirmed =>
      obtain rfl := Option.some.inj hstep
      rw [hconfirmed] at hphase
      obtain ⟨huntold, -, hguarded, hcovered⟩ := hphase
      exact ⟨h.runner, hguarded, ⟨hcovered.1, hcovered.2, hcovered.3⟩,
        ⟨huntold.told_ok.1, huntold.told_ok.2⟩,
        fun _ => ⟨huntold.1, huntold.2, huntold.3⟩, fun _ => huntold.told⟩
    · cases hstep
  | handle => exact handle_inv h hok hstep
  | refuse => exact refuse_inv h hstep
  | readReply => exact readReply_inv h hstep
  | giveUp =>
    simp only [HandOff.step] at hstep
    split at hstep
    next guarded hsent =>
      obtain rfl := Option.some.inj hstep
      rw [hsent] at hphase
      exact .finish_untold h.runner hphase.2.2.1 hok guarded false
    · cases hstep
  | demote => exact demote_inv h hstep
  | _ => exact absurd rfl hback

theorem HandOff.Before.inv (h : s.Before) : s.Inv := by
  refine ⟨h.runner, ?_⟩
  rw [h.phase]
  exact ⟨⟨h.quiet.2.2, h.target, h.quiet.2.1⟩, h.quiet.1⟩

/-- **A transfer loses nothing.** In every run from a state before the call, if every step
meets `SeesEveryCommit`: when the target has been made master, each VLSN the old master has
given out as master is at most the VLSN the target had acknowledged at that moment; and when
the call has returned, the old master and the target are not both master. -/
theorem transfer_covers_commits (es : List HandOffEvent) (h : s.Before)
    (hok : Meets HandOff.step SeesEveryCommit s es)
    (hrun : Library.run HandOff.step s es = some s') :
    (∀ a, s'.told = some a → ∀ v ∈ s'.assigned, v ≤ a) ∧
      ∀ ok, s'.phase = .returned ok → ¬ (s'.master = .master ∧ s'.target = .master) := by
  have hinv : s'.Inv := run_invariant (fun _ _ _ hi ho hs => hi.step ho hs) h.inv hok hrun
  have hphase := hinv.phase
  refine ⟨fun a ha => ?_, fun ok hp => ?_⟩
  · have huntold : s'.Untold → ∀ v ∈ s'.assigned, v ≤ a := fun hu => by
      rw [hu.told] at ha
      cases ha
    cases hp : s'.phase with
    | idle | waiting | caughtUp =>
      rw [hp] at hphase
      exact huntold hphase.1
    | frozen | confirmed =>
      rw [hp] at hphase
      exact huntold hphase.1
    | sent =>
      rw [hp] at hphase
      exact hphase.2.2.1.covers a ha
    | acknowledged =>
      rw [hp] at hphase
      exact hphase.2.2.covers a ha
    | returned =>
      rw [hp] at hphase
      exact hphase.1.covers a ha
  · rw [hp] at hphase
    rintro ⟨hm, ht⟩
    exact hphase.1.target (hphase.2 hm) ht

/-- A master whose last registered VLSN is 3, with a target that has acknowledged 2. -/
def oneReplica : HandOff where
  master := .master
  target := .replica
  phase := .idle
  blocked := false
  counter := 3
  indexLast := 3
  passed := ∅
  holding := ∅
  logged := ∅
  runner := some 2
  acked := 2
  request := false
  reply := none
  assigned := [3, 2, 1]
  told := none

theorem oneReplica_before : oneReplica.Before :=
  ⟨rfl, rfl, by decide, ⟨rfl, rfl, rfl⟩, by decide⟩

/-- A commit during the first phase, registered and acknowledged before the block. -/
def quietTransfer : List HandOffEvent :=
  [.start, .pass 0, .assign 0, .write 0 4, .replicate 0 4, .ack 3, .poll, .ack 4, .freeze,
    .confirm, .send, .handle, .readReply, .demote]

/-- A transfer that meets the condition: the target has acknowledged all four commits. -/
theorem transfer_covers_quiet :
    ∃ s, Library.run HandOff.step oneReplica quietTransfer = some s ∧ s.told = some 4 ∧
      s.assigned = [4, 3, 2, 1] ∧
      (∀ a, s.told = some a → ∀ v ∈ s.assigned, v ≤ a) ∧
      ∀ ok, s.phase = .returned ok → ¬ (s.master = .master ∧ s.target = .master) := by
  obtain ⟨s, hs, htold, hassigned⟩ := exists_run_of_any
    (P := fun s => s.told = some 4 ∧ s.assigned = [4, 3, 2, 1])
    (show (Library.run HandOff.step oneReplica quietTransfer).any _ = true by decide +kernel)
  exact ⟨s, hs, htold, hassigned,
    transfer_covers_commits quietTransfer oneReplica_before (by decide +kernel) hs⟩

/-- A thread has taken VLSN 4 when the block is engaged and registers it later; the reply of
the target gets lost. -/
def racedTransfer : List HandOffEvent :=
  [.start, .ack 3, .poll, .pass 0, .assign 0, .freeze, .write 0 4, .confirm, .send, .handle,
    .giveUp]

/-- **VLSN 4 is a commit of the master that the target has not acknowledged when it becomes
master, and the call returns with two masters.** -/
theorem transfer_loses_commit :
    ∃ s, Library.run HandOff.step oneReplica racedTransfer = some s ∧ s.told = some 3 ∧
      4 ∈ s.assigned ∧ s.phase = .returned false ∧ s.master = .master ∧
      s.target = .master :=
  exists_run_of_any
    (show (Library.run HandOff.step oneReplica racedTransfer).any _ = true by decide +kernel)

end Call

end Noxu
