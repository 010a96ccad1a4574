import Noxu.Txn.LockImpl

/-!
# Waking the Waiters of a Lock

When an owner releases a lock, the waiters in front of the queue become owners, up to the
first one that must go on waiting. What should happen is said by the request path: the
waiters ask again in the order of the queue, each with the sharing group of its own locker.
The wake-up loop differs from it in two ways. **It grants without sharing**, so that a waiter
is held up by owners of its own group. And a waiter that is to restart is checked against the
group of the *releasing* locker, and only if the slot of the first owner is occupied.

## Main results

* `tryLockWithSharing_first`: the first in line is granted what the owners admit;
* `admits_nobody_iff`: when a request is admitted without sharing that is admitted with it;
* `grantWaiters_eq_iff`: when the loop wakes those that would be granted on a new request;
* `wake_up_exact`: **the same for a release, and when a range request is told to restart.**
-/

namespace Noxu

namespace LockImpl

variable {registry : ShareRegistry} {l : LockImpl} {u : Locker}

/-! ### Admission -/

/-- **The owners admit the request**: one says that it is covered already, or none decides it and
none blocks it. -/
def Admits (shares : Locker → Bool) (w : LockInfo) (os : List LockInfo) : Prop :=
  decided shares w os = some .existing ∨ decided shares w os = none ∧ ¬ Blocked shares w os

/-- The lock once the request is admitted: the locker is a new owner, or its entry has the type
that it is upgraded to. -/
def withGrant (shares : Locker → Bool) (w : LockInfo) (l : LockImpl) : LockImpl :=
  if decided shares w l.owners = some .existing then l
  else match ownUpgrade w l.owners with
    | none => l.addOwner w
    | some upgrade =>
      match upgrade.getUpgradeType with
      | some t => l.updateOwnerType w.locker t
      | none => l

/-! ### What should be woken -/

/-- Some owner outside the group of the waiter holds a next-key lock. -/
def rangeInsertRemains (registry : ShareRegistry) (l : LockImpl) (waiter : Locker) : Bool :=
  l.owners.any fun o =>
    decide (o.locker ≠ waiter) && !registry.sharesFn waiter o.locker &&
      decide (o.lockType = .rangeInsert)

/-- The waiters ask again in the order of the queue, as first in line and with the sharing of
their own group, until one is not granted. A waiter that is to restart is told so once no
next-key lock is in its way. -/
def regrant (registry : ShareRegistry) : List LockInfo → LockImpl → List Locker × LockImpl
  | [], l => ([], l)
  | w :: ws, l =>
    if w.lockType = .restart then
      if l.rangeInsertRemains registry w.locker then ([], l)
      else
        let (woken, l') := regrant registry ws l.removeNextWaiter
        (w.locker :: woken, l')
    else
      match l.lockWithSharing w.lockType w.locker true true (registry.sharesFn w.locker) with
      | (.grant grant, l') =>
        if grant.isGranted then
          let (woken, l'') := regrant registry ws l'.removeNextWaiter
          (w.locker :: woken, l'')
        else ([], l)
      | (.denied, _) => ([], l)

/-- No owner of the waiter's own group is in conflict with its request. -/
def GroupAllows (registry : ShareRegistry) (l : LockImpl) (w : LockInfo) : Prop :=
  ∀ o ∈ l.owners, o.locker ≠ w.locker → registry.sharesFn w.locker o.locker = true →
    o.lockType.getConflict w.lockType = .allow

/-- An owner other than the waiter that does not share with `u` holds a next-key lock. -/
def NextKeyOwner (registry : ShareRegistry) (l : LockImpl) (waiter u : Locker) : Prop :=
  ∃ o ∈ l.owners, o.locker ≠ waiter ∧ registry.sharesFn u o.locker = false ∧
    o.lockType = .rangeInsert

/-- At each waiter's turn, as the ones before it have left the owners. A waiter whose request the
owners outside its group admit: the owners of its group are not in conflict with it, or the locker
holds the lock already and no owner before its entry makes it restart. A waiter that is to restart:
an owner outside *its* group has a next-key lock exactly if the slot of the first owner is occupied
and an owner outside the group of the *releasing* locker has one. -/
def WakesAlike (registry : ShareRegistry) (u : Locker) : List LockInfo → LockImpl → Prop
  | [], _ => True
  | w :: ws, l =>
    if w.lockType = .restart then
      (l.NextKeyOwner registry w.locker w.locker ↔
          l.firstOwner.isSome = true ∧ l.NextKeyOwner registry w.locker u) ∧
        (¬ l.NextKeyOwner registry w.locker w.locker →
          WakesAlike registry u ws l.removeNextWaiter)
    else
      Admits (registry.sharesFn w.locker) w l.owners →
        (l.GroupAllows registry w ∨ decided (fun _ => false) w l.owners = some .existing) ∧
          WakesAlike registry u ws (withGrant (registry.sharesFn w.locker) w l).removeNextWaiter

/-! ### An attempt of the first in line -/

section

variable {shares : Locker → Bool} {w : LockInfo} {os : List LockInfo}

/-- **A first waiter in line is granted** what the owners admit, and to this effect. -/
theorem tryLockWithSharing_first (l : LockImpl) (w : LockInfo) (shares : Locker → Bool) :
    ((l.tryLockWithSharing w true shares).1.isGranted = true ↔ Admits shares w l.owners) ∧
      (Admits shares w l.owners →
        (l.tryLockWithSharing w true shares).2 = withGrant shares w l) := by
  rw [tryLockWithSharing_eq, Admits, withGrant]
  cases hdec : decided shares w l.owners with
  | some grant => obtain rfl | rfl | rfl := mem_of_decided hdec <;> simp [LockGrantType.isGranted]
  | none =>
    dsimp only
    cases hup : ownUpgrade w l.owners with
    | none => by_cases hb : Blocked shares w l.owners <;> simp [hb, LockGrantType.isGranted]
    | some upgrade =>
      obtain ⟨t, ht⟩ := getUpgradeType_of_decided hdec hup
      by_cases hb : Blocked shares w l.owners
      · simp [ht, hb, LockGrantType.isGranted]
      · cases hp : upgrade.isPromotion <;> simp [ht, hb, hp, LockGrantType.isGranted]

/-! ### With and without sharing -/

theorem verdict_of_nobody {o : LockInfo} {grant : LockGrantType}
    (h : verdict (fun _ => false) w o = some grant) (hgrant : grant ≠ .waitRestart) :
    verdict shares w o = some grant := by
  unfold verdict at h ⊢
  split at h
  · next hou => rwa [if_pos hou]
  · split at h
    · obtain rfl := Option.some.inj h
      exact absurd rfl hgrant
    · cases h

theorem verdict_eq_none_of_nobody {o : LockInfo} (h : verdict (fun _ => false) w o = none) :
    verdict shares w o = none := by
  unfold verdict at h ⊢
  split at h
  · next hou => rwa [if_pos hou]
  · next hou =>
    rw [if_neg hou]
    split at h
    · cases h
    · next hnot => exact if_neg fun hr => hnot ⟨rfl, hr.2⟩

/-- What is said without sharing is said with it, but for a restart. -/
theorem decided_of_nobody {grant : Option LockGrantType}
    (h : decided (fun _ => false) w os = grant) (hgrant : grant ≠ some .waitRestart) :
    decided shares w os = grant := by
  unfold decided at h ⊢
  cases grant with
  | none =>
    refine List.findSome?_eq_none_iff.mpr fun o ho => ?_
    exact verdict_eq_none_of_nobody (List.findSome?_eq_none_iff.mp h o ho)
  | some grant =>
    obtain ⟨before, o, after, rfl, ho, hbefore⟩ := List.findSome?_eq_some_iff.mp h
    refine List.findSome?_eq_some_iff.mpr ⟨before, o, after, rfl, ?_, fun b hb => ?_⟩
    · exact verdict_of_nobody ho fun heq => hgrant (congrArg some heq)
    · exact verdict_eq_none_of_nobody (hbefore b hb)

/-- **A request is admitted without sharing** if it is admitted with it and no owner of the group
is in conflict with it, or the locker holds the lock already. -/
theorem admits_nobody_iff :
    Admits (fun _ => false) w l.owners ↔
      Admits (registry.sharesFn w.locker) w l.owners ∧
        (l.GroupAllows registry w ∨ decided (fun _ => false) w l.owners = some .existing) := by
  constructor
  · rintro (hex | ⟨hnone, hblock⟩)
    · exact ⟨.inl (decided_of_nobody hex (by decide)), .inr hex⟩
    · refine ⟨.inr ⟨decided_of_nobody hnone (by decide), ?_⟩, .inl fun o ho hne _ => ?_⟩
      · rintro ⟨o, ho, hne, -, hconf⟩
        exact hblock ⟨o, ho, hne, rfl, hconf⟩
      · have hverdict := List.findSome?_eq_none_iff.mp hnone o ho
        rw [verdict, if_neg hne] at hverdict
        cases hconf : o.lockType.getConflict w.lockType with
        | allow => rfl
        | block => exact absurd ⟨o, ho, hne, rfl, hconf⟩ hblock
        | restart => simp [hconf] at hverdict
  · rintro ⟨hadmits, hallow | hex⟩
    · -- the owners of the group say nothing, so sharing plays no part
      have hverdict : ∀ o ∈ l.owners,
          verdict (fun _ => false) w o = verdict (registry.sharesFn w.locker) w o := by
        intro o ho
        unfold verdict
        by_cases hne : o.locker = w.locker
        · rw [if_pos hne, if_pos hne]
        · rw [if_neg hne, if_neg hne]
          cases hshare : registry.sharesFn w.locker o.locker with
          | false => rfl
          | true => simp [hallow o ho hne hshare]
      have hdec : decided (fun _ => false) w l.owners =
          decided (registry.sharesFn w.locker) w l.owners := by
        unfold decided
        generalize l.owners = os at hverdict
        induction os with
        | nil => rfl
        | cons o os ih =>
          obtain ⟨ho, hos⟩ := List.forall_mem_cons.mp hverdict
          rw [List.findSome?_cons, List.findSome?_cons, ho, ih hos]
      rw [Admits, hdec]
      refine hadmits.imp_right fun h => ⟨h.1, ?_⟩
      rintro ⟨o, ho, hne, -, hconf⟩
      refine h.2 ⟨o, ho, hne, ?_, hconf⟩
      by_contra hshare
      rw [hallow o ho hne (by simpa using hshare)] at hconf
      cases hconf
    · exact .inl hex

theorem withGrant_nobody (h : Admits (fun _ => false) w l.owners) :
    withGrant (fun _ => false) w l = withGrant shares w l := by
  unfold withGrant
  obtain hex | ⟨hnone, -⟩ := h
  · rw [hex, decided_of_nobody hex (by decide)]
  · rw [hnone, decided_of_nobody hnone (by decide)]

end

/-! ### The loop -/

section

variable {w : LockInfo} {ws : List LockInfo} {shares : Locker → Bool}

theorem grantWaiters_cons (h : l.waiters = w :: ws) :
    grantWaiters shares (w :: ws).length l =
      if (l.tryWaiter w shares).1.isGranted then
        (w.locker :: (grantWaiters shares ws.length (l.tryWaiter w shares).2.removeNextWaiter).1,
          (grantWaiters shares ws.length (l.tryWaiter w shares).2.removeNextWaiter).2)
      else ([], l) := by
  rw [List.length_cons, grantWaiters, (nextWaiter_of_waiters h).1]

theorem waiters_withGrant (shares : Locker → Bool) (w : LockInfo) (l : LockImpl) :
    (withGrant shares w l).waiters = l.waiters := by
  unfold withGrant addOwner updateOwnerType
  split
  · rfl
  · split
    · split <;> rfl
    · split
      · split <;> rfl
      · rfl

theorem regrant_cons (hw : w.lockType ≠ .restart) :
    (Admits (registry.sharesFn w.locker) w l.owners →
      regrant registry (w :: ws) l =
        (w.locker :: (regrant registry ws
            (withGrant (registry.sharesFn w.locker) w l).removeNextWaiter).1,
          (regrant registry ws (withGrant (registry.sharesFn w.locker) w l).removeNextWaiter).2)) ∧
    (¬ Admits (registry.sharesFn w.locker) w l.owners →
      regrant registry (w :: ws) l = ([], l)) := by
  obtain ⟨hgrant, heffect⟩ := l.tryLockWithSharing_first w (registry.sharesFn w.locker)
  rw [regrant, if_neg hw]
  unfold lockWithSharing
  rw [Bool.true_or]
  constructor
  · intro hadmits
    have hgranted := hgrant.mpr hadmits
    rw [← heffect hadmits]
    generalize l.tryLockWithSharing w true (registry.sharesFn w.locker) = attempt at hgranted ⊢
    obtain ⟨grant, l'⟩ := attempt
    cases grant <;> first | rfl | cases hgranted
  · intro hrefused
    have hwaits := mt hgrant.mp hrefused
    generalize l.tryLockWithSharing w true (registry.sharesFn w.locker) = attempt at hwaits ⊢
    obtain ⟨grant, l'⟩ := attempt
    cases grant <;> first | rfl | exact absurd rfl hwaits

/-- The loop's own test of a waiter that is to restart. -/
theorem rangeInsertConflict_iff {v : Locker} :
    l.rangeInsertConflictWithSharing v (registry.sharesFn u) = true ↔
      l.firstOwner.isSome = true ∧ l.NextKeyOwner registry v u := by
  unfold rangeInsertConflictWithSharing NextKeyOwner owners
  cases l.firstOwner with
  | none => simp
  | some first => simp [and_assoc]

theorem rangeInsertRemains_iff {v : Locker} :
    l.rangeInsertRemains registry v = true ↔ l.NextKeyOwner registry v v := by
  simp [rangeInsertRemains, NextKeyOwner, and_assoc]

/-- **When the loop wakes those that would be granted on a new request.** -/
theorem grantWaiters_eq_iff (u : Locker) (ws : List LockInfo) (h : l.waiters = ws) :
    ((grantWaiters (registry.sharesFn u) ws.length l).1 = (regrant registry ws l).1 ∧
      (grantWaiters (registry.sharesFn u) ws.length l).2.owners =
        (regrant registry ws l).2.owners) ↔
    WakesAlike registry u ws l := by
  induction ws generalizing l with
  | nil => exact iff_of_true ⟨rfl, rfl⟩ trivial
  | cons w ws ih =>
    rw [grantWaiters_cons h, WakesAlike]
    by_cases hw : w.lockType = .restart
    · have htry : l.tryWaiter w (registry.sharesFn u) =
          (if l.rangeInsertConflictWithSharing w.locker (registry.sharesFn u) then .waitNew
            else .new, l) := if_pos hw
      rw [htry, regrant, if_pos hw, if_pos hw, ← rangeInsertConflict_iff,
        ← rangeInsertRemains_iff]
      cases l.rangeInsertConflictWithSharing w.locker (registry.sharesFn u) <;>
        cases l.rangeInsertRemains registry w.locker <;>
        simp [LockGrantType.isGranted, ih (nextWaiter_of_waiters h).2]
    · have htry : l.tryWaiter w (registry.sharesFn u) = l.tryLock w true := if_neg hw
      have hcode : (l.tryLock w true).1.isGranted = true ↔ Admits (fun _ => false) w l.owners :=
        (l.tryLockWithSharing_first w _).1
      have heffect : Admits (fun _ => false) w l.owners →
          (l.tryLock w true).2 = withGrant (fun _ => false) w l :=
        (l.tryLockWithSharing_first w _).2
      rw [htry, if_neg hw]
      by_cases hspec : Admits (registry.sharesFn w.locker) w l.owners
      · rw [(regrant_cons hw).1 hspec, imp_iff_right hspec]
        have hnext := (nextWaiter_of_waiters
          ((waiters_withGrant (registry.sharesFn w.locker) w l).trans h)).2
        by_cases hnobody : Admits (fun _ => false) w l.owners
        · -- both grant, to the same effect
          have hsame : (l.tryLock w true).2 = withGrant (registry.sharesFn w.locker) w l :=
            (heffect hnobody).trans (withGrant_nobody hnobody)
          rw [if_pos (hcode.mpr hnobody), hsame, and_iff_right (admits_nobody_iff.mp hnobody).2,
            ← ih hnext]
          simp
        · rw [if_neg (mt hcode.mp hnobody)]
          refine iff_of_false (fun hc => by cases hc.1) fun hc => ?_
          exact hnobody (admits_nobody_iff.mpr ⟨hspec, hc.1⟩)
      · have hnobody : ¬ Admits (fun _ => false) w l.owners :=
          fun hc => hspec (admits_nobody_iff.mp hc).1
        rw [(regrant_cons hw).2 hspec, if_neg (mt hcode.mp hnobody)]
        exact iff_of_true ⟨rfl, rfl⟩ fun hc => absurd hc hspec

end

/-! ### Requests that restart -/

/-- An owner or a waiter outside the group of the locker holds or asks for a next-key lock. -/
def NextKeyAhead (registry : ShareRegistry) (l : LockImpl) (v : Locker) : Prop :=
  ∃ o ∈ l.owners ++ l.waiters, o.locker ≠ v ∧ registry.sharesFn v o.locker = false ∧
    o.lockType = .rangeInsert

theorem getConflict_rangeInsert {request : LockType} (h : request.causesRestart = true) :
    LockType.rangeInsert.getConflict request = .restart := by
  revert h
  cases request <;> decide

/-- **The request has to wait**: an owner outside the group blocks it; or the locker is not an
owner, somebody is in line before it, and there is an owner outside the group. -/
def MustWait (registry : ShareRegistry) (l : LockImpl) (w : LockInfo) (jump : Bool) : Prop :=
  Blocked (registry.sharesFn w.locker) w l.owners ∨
    (∀ o ∈ l.owners, o.locker ≠ w.locker) ∧ jump = false ∧ l.waiters ≠ [] ∧
      ∃ o ∈ l.owners, registry.sharesFn w.locker o.locker = false

/-- What an attempt that no owner decides comes to. -/
theorem tryLockWithSharing_waits_iff {w : LockInfo} (registry : ShareRegistry) (jump : Bool)
    (hdec : decided (registry.sharesFn w.locker) w l.owners = none) :
    ((l.tryLockWithSharing w (jump || decide (l.nWaiters = 0)) (registry.sharesFn w.locker)).1 =
        .waitNew ∨
      (l.tryLockWithSharing w (jump || decide (l.nWaiters = 0)) (registry.sharesFn w.locker)).1 =
        .waitPromotion) ↔ l.MustWait registry w jump := by
  have hwaiters : l.nWaiters = 0 ↔ l.waiters = [] := List.length_eq_zero_iff
  rw [tryLockWithSharing_eq, hdec, MustWait]
  dsimp only
  cases hup : ownUpgrade w l.owners with
  | none =>
    have hnone := ownUpgrade_eq_none_iff.mp hup
    by_cases hb : Blocked (registry.sharesFn w.locker) w l.owners
    · simp [hb]
    · have hothers : (∀ o ∈ l.owners, o.locker ≠ w.locker →
          registry.sharesFn w.locker o.locker = true) ↔
          ¬ ∃ o ∈ l.owners, registry.sharesFn w.locker o.locker = false := by
        push Not
        exact forall₂_congr fun o ho => by simp [hnone o ho]
      simp only [hb, hothers, not_false_eq_true, true_and, false_or, Bool.or_eq_true,
        decide_eq_true_eq, hwaiters, and_iff_right hnone]
      split
      · next hgrant =>
        simp only [reduceCtorEq, or_self, false_iff]
        rintro ⟨hjump, hqueue, hother⟩
        obtain hno | hyes | hempty := hgrant
        · exact hno hother
        · simp [hyes] at hjump
        · exact hqueue hempty
      · next hwait =>
        push Not at hwait
        simp [hwait]
  | some upgrade =>
    have hsome : ¬ ∀ o ∈ l.owners, o.locker ≠ w.locker := fun hnone => by
      rw [ownUpgrade_eq_none_iff.mpr hnone] at hup
      cases hup
    obtain ⟨t, ht⟩ := getUpgradeType_of_decided hdec hup
    by_cases hb : Blocked (registry.sharesFn w.locker) w l.owners
    · simp [ht, hb]
    · cases hp : upgrade.isPromotion <;> simp [ht, hb, hp, hsome]

/-- Without an owner that decides it, an attempt does not end in a restart. -/
theorem tryLockWithSharing_ne_restart {w : LockInfo} (first : Bool) {shares : Locker → Bool}
    (hdec : decided shares w l.owners = none) :
    (l.tryLockWithSharing w first shares).1 ≠ .waitRestart := by
  rw [tryLockWithSharing_eq, hdec]
  dsimp only
  split
  · split
    · simp
    · split
      · simp
      · dsimp only
        split <;> simp
  · split <;> simp

/-- A request that waits without being told to restart has met no next-key lock of an owner
outside its group. -/
theorem not_rangeInsert_of_decided {w : LockInfo} (hreq : w.lockType.causesRestart = true)
    {shares : Locker → Bool} {os : List LockInfo} (h : decided shares w os = none) :
    ∀ o ∈ os, o.locker ≠ w.locker → shares o.locker = false → o.lockType ≠ .rangeInsert := by
  intro o ho hne hshare htype
  have hverdict := List.findSome?_eq_none_iff.mp h o ho
  rw [verdict, if_neg hne, if_pos ⟨hshare, htype ▸ getConflict_rangeInsert hreq⟩] at hverdict
  cases hverdict

/-- With a next-key lock among the waiters, the scan over them finds it if the slot of the
first one is occupied. -/
theorem waiterRestarts_eq {v : Locker} {request : LockType} (hreq : request.causesRestart = true)
    (h : ∃ o ∈ l.waiters, o.locker ≠ v ∧ registry.sharesFn v o.locker = false ∧
      o.lockType = .rangeInsert) :
    l.waiterRestarts v request (registry.sharesFn v) = l.firstWaiter.isSome := by
  obtain ⟨o, ho, hne, hshare, htype⟩ := h
  unfold waiterRestarts
  unfold waiters at ho
  cases hf : l.firstWaiter with
  | none => rfl
  | some first =>
    rw [hf, Option.toList_some, List.singleton_append] at ho
    refine List.any_eq_true.mpr ⟨o, ho, ?_⟩
    simp [htype, hshare, hne.symm, getConflict_rangeInsert hreq]

/-- **When a range request that meets a next-key lock is told to restart.** -/
theorem lockWithSharing_restart_iff {v : Locker} {request : LockType} {nonBlocking jump : Bool}
    (hreq : request.causesRestart = true) (hahead : l.NextKeyAhead registry v) :
    (l.lockWithSharing request v nonBlocking jump (registry.sharesFn v)).1 =
        .grant .waitRestart ↔
      nonBlocking = false ∧
        (decided (registry.sharesFn v) ⟨v, request⟩ l.owners = some .waitRestart ∨
          decided (registry.sharesFn v) ⟨v, request⟩ l.owners = none ∧
            l.MustWait registry ⟨v, request⟩ jump ∧ l.firstWaiter.isSome = true) := by
  obtain ⟨firstOwner, ownerSet, hslots⟩ :=
    l.tryLockWithSharing_slots ⟨v, request⟩ (jump || decide (l.nWaiters = 0)) (registry.sharesFn v)
  unfold lockWithSharing
  cases hdec : decided (registry.sharesFn v) ⟨v, request⟩ l.owners with
  | some grant =>
    rw [tryLockWithSharing_eq, hdec]
    obtain rfl | rfl | rfl := mem_of_decided hdec <;> cases nonBlocking <;> simp
  | none =>
    have hwaits := tryLockWithSharing_waits_iff registry jump hdec
    -- the next-key lock is a waiter's
    obtain ⟨o, ho, hne, hshare, htype⟩ := hahead
    have hmem : o ∈ l.waiters := (List.mem_append.mp ho).resolve_left fun hown =>
      not_rangeInsert_of_decided (w := ⟨v, request⟩) hreq hdec o hown hne hshare htype
    have hscan : ∀ l', l' = { l with firstOwner := firstOwner, ownerSet := ownerSet } →
        l'.waiterRestarts v request (registry.sharesFn v) = l.firstWaiter.isSome := by
      rintro l' rfl
      exact waiterRestarts_eq (l := l) hreq ⟨o, hmem, hne, hshare, htype⟩
    have hno := tryLockWithSharing_ne_restart (jump || decide (l.nWaiters = 0)) hdec
    rw [← hwaits]
    generalize l.tryLockWithSharing ⟨v, request⟩ (jump || decide (l.nWaiters = 0))
      (registry.sharesFn v) = attempt at hslots hno ⊢
    obtain ⟨grant, l'⟩ := attempt
    have hfirst := hscan l' hslots
    cases grant with
    | new | existing | promotion | illegalUpgrade => simp
    | waitRestart => exact absurd rfl hno
    | waitNew =>
      cases nonBlocking <;> cases hf : l.firstWaiter.isSome <;> simp [hreq, hfirst, hf]
    | waitPromotion =>
      cases nonBlocking <;> cases hf : l.firstWaiter.isSome <;> simp [hreq, hfirst, hf]

/-- **The wake-up loop and the restarts, exactly.** A release by an owner wakes the waiters
that would be granted if they asked again in the order of the queue, and leaves the owners
that this would leave, exactly if they are woken alike. A range request that meets a next-key
lock of an owner or a waiter outside its group is told to restart exactly if it may wait, and the
first owner that decides it is one with a next-key lock, or no owner decides it, it has to wait and
the slot of the first waiter is occupied. -/
theorem wake_up_exact (registry : ShareRegistry) :
    (∀ (l l' : LockImpl) (u : Locker), l.flushOwner u = some l' →
      (((l.releaseWithSharing u (registry.sharesFn u)).1 =
            some (regrant registry l'.waiters l').1 ∧
          (l.releaseWithSharing u (registry.sharesFn u)).2.owners =
            (regrant registry l'.waiters l').2.owners) ↔
        WakesAlike registry u l'.waiters l')) ∧
    ∀ (l : LockImpl) (v : Locker) (request : LockType) (nonBlocking jump : Bool),
      request = .rangeRead ∨ request = .rangeWrite → l.NextKeyAhead registry v →
      ((l.lockWithSharing request v nonBlocking jump (registry.sharesFn v)).1 =
          .grant .waitRestart ↔
        nonBlocking = false ∧
          (decided (registry.sharesFn v) ⟨v, request⟩ l.owners = some .waitRestart ∨
            decided (registry.sharesFn v) ⟨v, request⟩ l.owners = none ∧
              l.MustWait registry ⟨v, request⟩ jump ∧ l.firstWaiter.isSome = true)) := by
  constructor
  · intro l l' u hflush
    rw [← grantWaiters_eq_iff u l'.waiters rfl]
    unfold releaseWithSharing
    rw [hflush, Option.some.injEq]
    rfl
  · intro l v request nonBlocking jump hreq hahead
    refine lockWithSharing_restart_iff ?_ hahead
    obtain rfl | rfl := hreq <;> rfl

/-- Lockers 1 and 2 share their locks. -/
def onePair : ShareRegistry := fun u => if u = 1 ∨ u = 2 then some 7 else none

/-- Lockers 3 and 1 read, and locker 2 waits to write. -/
def readersAndWriter : LockImpl where
  firstOwner := some ⟨3, .read⟩
  ownerSet := some [⟨1, .read⟩]
  firstWaiter := some ⟨2, .write⟩
  waiterList := none

/-- **A waiter is held up by an owner of its own group**, although its request would be
granted. -/
theorem waiter_held_up_by_its_group :
    (readersAndWriter.releaseWithSharing 3 (onePair.sharesFn 3)).1 = some [] ∧
      ((readersAndWriter.releaseWithSharing 3 (onePair.sharesFn 3)).2.lockWithSharing .write 2
        true true (onePair.sharesFn 2)).1 = .grant .new := by
  decide

end LockImpl

end Noxu
