import Mathlib.Logic.Function.Basic
import Noxu.Tree.Key
import Noxu.Txn.ThinLock

/-!
# The Locks of All Records

The table of locks as a function of the LSN, and what the calls of some lockers do to the locks of
another one. A request, a release, a wake-up and a demotion by the others leave its entries as they
are, with two exceptions: **an importunate locker takes the lock from it, and the demotion of a thin
lock does not look at who asks for it.** A release may make the locker an owner, if it is waiting.

## Main results

* `Spared`: what a call of another locker leaves of the entries of a locker;
* `Lock.spared_apply`: which calls of the others take no write lock from a locker;
* `Lock.answer_of_writes`: nobody outside its group is granted what conflicts with one.
-/

namespace Noxu

/-! ### The entries of one locker -/

/-- The locker is an owner with a write type. -/
def WriteOwner (os : List LockInfo) (u : Locker) : Prop :=
  ∃ o ∈ os, o.locker = u ∧ o.lockType.isWriteLock = true

instance (os : List LockInfo) (u : Locker) : Decidable (WriteOwner os u) :=
  inferInstanceAs (Decidable (∃ o ∈ os, _))

/-- **What is left of the entries of a locker** when the owners and the waiters of a lock change: a
write lock stays one; a waiter for one goes on waiting or has got it; and a locker that is not
waiting gets no place in the queue and no entry it did not have. -/
structure Spared (u : Locker) (os ws os' ws' : List LockInfo) : Prop where
  writes : WriteOwner os u → WriteOwner os' u
  queued : ∀ w ∈ ws, w.locker = u → w.lockType.isWriteLock = true → w ∈ ws' ∨ WriteOwner os' u
  waiters : (∀ w ∈ ws, w.locker ≠ u) → ∀ w ∈ ws', w.locker ≠ u
  owners : (∀ w ∈ ws, w.locker ≠ u) → ∀ o ∈ os', o.locker = u → o ∈ os

section

variable {u : Locker} {os os' os'' ws ws' ws'' : List LockInfo}

theorem Spared.refl : Spared u os ws os ws :=
  ⟨id, fun _ hw _ _ => .inl hw, id, fun _ _ ho _ => ho⟩

theorem Spared.trans (h : Spared u os ws os' ws') (h' : Spared u os' ws' os'' ws'') :
    Spared u os ws os'' ws'' where
  writes := h'.writes ∘ h.writes
  queued := fun w hw hu hwrite =>
    (h.queued w hw hu hwrite).elim (fun hw' => h'.queued w hw' hu hwrite) (.inr ∘ h'.writes)
  waiters := h'.waiters ∘ h.waiters
  owners := fun hnone o ho hu => h.owners hnone o (h'.owners (h.waiters hnone) o ho hu) hu

/-- The others change, and the queue gets at most others. -/
theorem Spared.of_others (howners : ∀ o, o.locker = u → (o ∈ os' ↔ o ∈ os))
    (hwaiters : ∀ w, w.locker = u → (w ∈ ws' ↔ w ∈ ws)) : Spared u os ws os' ws' where
  writes := fun ⟨o, ho, hu, hwrite⟩ => ⟨o, (howners o hu).mpr ho, hu, hwrite⟩
  queued := fun w hw hu _ => .inl ((hwaiters w hu).mpr hw)
  waiters := fun hnone w hw hu => hnone w ((hwaiters w hu).mp hw) hu
  owners := fun _ o ho hu => (howners o hu).mp ho

end

/-! ### One attempt -/

namespace LockImpl

variable {registry : ShareRegistry} {l : LockImpl} {u : Locker} {t : LockType} {o : LockInfo}

theorem mem_addOwner {info : LockInfo} : o ∈ (l.addOwner info).owners ↔ o = info ∨ o ∈ l.owners :=
  (l.owners_addOwner info).mem_iff.trans List.mem_cons

theorem mem_retype_of_ne {os : List LockInfo} (hne : o.locker ≠ u) :
    o ∈ retype u t os ↔ o ∈ os := by
  induction os with
  | nil => rfl
  | cons p os ih =>
    unfold retype
    split
    · next hp =>
      have hop : o ≠ p := fun heq => hne (heq ▸ hp)
      have hot : o ≠ { p with lockType := t } := fun heq => hne (heq ▸ hp)
      simp [hop, hot]
    · simp [ih]

theorem mem_retype_self {os : List LockInfo} (h : ∃ o ∈ os, o.locker = u) :
    ⟨u, t⟩ ∈ retype u t os := by
  induction os with
  | nil => simp at h
  | cons p os ih =>
    unfold retype
    split
    · next hp => exact List.mem_cons.mpr (.inl (by rw [hp]))
    · next hp =>
      obtain ⟨o, ho, hou⟩ := h
      obtain rfl | ho := List.mem_cons.mp ho
      · exact absurd hou hp
      · exact List.mem_cons_of_mem _ (ih ⟨o, ho, hou⟩)

/-- The entries of the others stay when a locker gets another type. -/
theorem mem_updateOwnerType_of_ne (hne : o.locker ≠ u) :
    o ∈ (l.updateOwnerType u t).owners ↔ o ∈ l.owners := by
  unfold updateOwnerType owners
  split
  · next hfirst =>
    cases hf : l.firstOwner with
    | none => simp [hf] at hfirst
    | some first =>
      have hfu : first.locker = u := by simpa [hf] using hfirst
      have hof : o ≠ first := fun heq => hne (heq ▸ hfu)
      have hot : o ≠ { first with lockType := t } := fun heq => hne (heq ▸ hfu)
      simp [hof, hot]
  · cases l.ownerSet with
    | none => rfl
    | some set => simp [mem_retype_of_ne hne]

/-- An owner has the type it gets. -/
theorem mem_updateOwnerType_self (h : ∃ o ∈ l.owners, o.locker = u) :
    ⟨u, t⟩ ∈ (l.updateOwnerType u t).owners := by
  obtain ⟨o, ho, hou⟩ := h
  unfold updateOwnerType owners
  split
  · next hfirst =>
    cases hf : l.firstOwner with
    | none => simp [hf] at hfirst
    | some first =>
      have hfu : first.locker = u := by simpa [hf] using hfirst
      simp [hfu]
  · next hfirst =>
    rcases List.mem_append.mp ho with ho | ho
    · have hf : l.firstOwner = some o := by simpa using ho
      simp [hf, hou] at hfirst
    · cases hs : l.ownerSet with
      | none => simp [hs] at ho
      | some set =>
        rw [hs] at ho
        exact List.mem_append_right _ (mem_retype_self ⟨o, ho, hou⟩)

section

variable {info : LockInfo} {first : Bool} {shares : Locker → Bool}

theorem waiters_tryLockWithSharing :
    (l.tryLockWithSharing info first shares).2.waiters = l.waiters := by
  obtain ⟨firstOwner, ownerSet, heq⟩ := l.tryLockWithSharing_slots info first shares
  rw [heq]
  rfl

/-- An attempt leaves the entries of the other lockers alone. -/
theorem mem_tryLockWithSharing_of_ne (hne : o.locker ≠ info.locker) :
    o ∈ (l.tryLockWithSharing info first shares).2.owners ↔ o ∈ l.owners := by
  obtain ⟨heq, -⟩ | ⟨-, ⟨heq, -⟩ | ⟨p, -, -, new, -, heq⟩⟩ :=
    l.tryLockWithSharing_spec info first shares
  · rw [heq]
  · rw [heq, mem_addOwner]
    exact or_iff_right fun ho => hne (congrArg LockInfo.locker ho)
  · rw [heq, mem_updateOwnerType_of_ne hne]

/-- An upgrade of a write type, or to one, is a write type. -/
theorem isWriteLock_upgrade {held request new : LockType}
    (hnew : (held.getUpgrade request).getUpgradeType = some new)
    (h : held.isWriteLock = true ∨ request.isWriteLock = true) : new.isWriteLock = true := by
  revert hnew h
  cases held <;> cases request <;> cases new <;> decide

/-- An attempt takes no write lock from anybody. -/
theorem writeOwner_tryLockWithSharing (hok : OwnersOk registry l.owners)
    (h : WriteOwner l.owners u) :
    WriteOwner (l.tryLockWithSharing info first shares).2.owners u := by
  obtain ⟨o, ho, hou, hwrite⟩ := h
  by_cases hu : o.locker = info.locker
  · obtain ⟨heq, -⟩ | ⟨-, ⟨-, hnone⟩ | ⟨p, hp, hpu, new, hnew, heq⟩⟩ :=
      l.tryLockWithSharing_spec info first shares
    · rw [heq]
      exact ⟨o, ho, hou, hwrite⟩
    · exact absurd hu (hnone o ho)
    · obtain rfl : o = p := List.inj_on_of_nodup_map hok.nodup ho hp (hu.trans hpu.symm)
      rw [heq]
      exact ⟨⟨info.locker, new⟩, mem_updateOwnerType_self ⟨o, ho, hpu⟩, hpu.symm.trans hou,
        isWriteLock_upgrade hnew (.inl hwrite)⟩
  · exact ⟨o, (mem_tryLockWithSharing_of_ne hu).mpr ho, hou, hwrite⟩

/-- **A locker that is granted a write lock owns one.** -/
theorem writeOwner_of_granted (hwrite : info.lockType.isWriteLock = true)
    (h : (l.tryLockWithSharing info first shares).1.isGranted = true) :
    WriteOwner (l.tryLockWithSharing info first shares).2.owners info.locker := by
  obtain ⟨heq, hold⟩ | ⟨-, ⟨heq, -⟩ | ⟨p, hp, hpu, new, hnew, heq⟩⟩ :=
    l.tryLockWithSharing_spec info first shares
  · obtain ⟨o, ho, hou, hup⟩ := hold h
    rw [heq]
    refine ⟨o, ho, hou, ?_⟩
    revert hup hwrite
    cases o.lockType <;> cases info.lockType <;> decide
  · rw [heq]
    exact ⟨info, mem_addOwner.mpr (.inl rfl), rfl, hwrite⟩
  · rw [heq]
    exact ⟨⟨info.locker, new⟩, mem_updateOwnerType_self ⟨p, hp, hpu⟩, rfl,
      isWriteLock_upgrade hnew (.inr hwrite)⟩

end

/-! ### Requests and releases -/

section

variable {shares : Locker → Bool} {v : Locker}

theorem mem_addWaiterToEndOfList {info w : LockInfo} :
    w ∈ (l.addWaiterToEndOfList info).waiters ↔ w = info ∨ w ∈ l.waiters := by
  unfold addWaiterToEndOfList waiters
  cases l.waiterList with
  | none => cases l.firstWaiter <;> simp [or_comm]
  | some list => cases l.firstWaiter <;> simp [or_comm, or_left_comm]

theorem mem_addWaiterToHeadOfList {info w : LockInfo} :
    w ∈ (l.addWaiterToHeadOfList info).waiters ↔ w = info ∨ w ∈ l.waiters := by
  unfold addWaiterToHeadOfList waiters
  cases l.firstWaiter <;> simp

/-- A request of another locker. -/
theorem spared_lockWithSharing {request : LockType} {nonBlocking jump : Bool} (hne : v ≠ u) :
    Spared u l.owners l.waiters (l.lockWithSharing request v nonBlocking jump shares).2.owners
      (l.lockWithSharing request v nonBlocking jump shares).2.waiters := by
  have hattempt : ∀ o : LockInfo, o.locker = u →
      (o ∈ (l.tryLockWithSharing ⟨v, request⟩ (jump || decide (l.nWaiters = 0)) shares).2.owners ↔
        o ∈ l.owners) :=
    fun o hu => mem_tryLockWithSharing_of_ne fun hv => hne (hv.symm.trans hu)
  refine .of_others (fun o hu => ?_) fun w hu => ?_
  · rw [owners_lockWithSharing]
    exact hattempt o hu
  · have hqueue : ∀ t : LockType, w ≠ ⟨v, t⟩ := by
      rintro t rfl
      exact hne hu
    have hwaiters : (l.tryLockWithSharing ⟨v, request⟩ (jump || decide (l.nWaiters = 0))
        shares).2.waiters = l.waiters := waiters_tryLockWithSharing
    unfold lockWithSharing
    generalize l.tryLockWithSharing ⟨v, request⟩ (jump || decide (l.nWaiters = 0)) shares =
      attempt at hwaiters ⊢
    obtain ⟨grant, l'⟩ := attempt
    dsimp only at hwaiters ⊢
    split_ifs <;> simp only [mem_addWaiterToHeadOfList, mem_addWaiterToEndOfList, hwaiters,
      hqueue, false_or]

/-- The attempt of the wake-up loop, which takes the waiter from the queue. -/
theorem spared_tryWaiter {w : LockInfo} {ws : List LockInfo} (hok : OwnersOk registry l.owners)
    (hw : l.waiters = w :: ws) (h : (l.tryWaiter w shares).1.isGranted = true) :
    Spared u l.owners l.waiters (l.tryWaiter w shares).2.removeNextWaiter.owners ws := by
  rw [owners_removeNextWaiter, hw]
  unfold tryWaiter at h ⊢
  split at h
  · next hrestart =>
    rw [if_pos hrestart]
    refine ⟨id, fun x hx _ hwrite => ?_, fun hnone x hx => hnone x (List.mem_cons_of_mem _ hx),
      fun _ _ ho _ => ho⟩
    obtain rfl | hx := List.mem_cons.mp hx
    · rw [hrestart] at hwrite
      cases hwrite
    · exact .inl hx
  · next hrestart =>
    rw [if_neg hrestart]
    refine ⟨writeOwner_tryLockWithSharing hok, fun x hx hxu hwrite => ?_,
      fun hnone x hx => hnone x (List.mem_cons_of_mem _ hx), fun hnone o ho hou => ?_⟩
    · obtain rfl | hx := List.mem_cons.mp hx
      · exact .inr (hxu ▸ writeOwner_of_granted hwrite h)
      · exact .inl hx
    · refine (mem_tryLockWithSharing_of_ne fun hw => ?_).mp ho
      exact hnone w List.mem_cons_self (hw.symm.trans hou)

/-- The wake-up loop. -/
theorem spared_grantWaiters (n : ℕ) (hok : OwnersOk registry l.owners) :
    Spared u l.owners l.waiters (grantWaiters shares n l).2.owners
      (grantWaiters shares n l).2.waiters := by
  induction n generalizing l with
  | zero => exact .refl
  | succ n ih =>
    cases hqueue : l.waiters with
    | nil =>
      have hnext : l.nextWaiter = none := by
        unfold waiters at hqueue
        obtain ⟨hfirst, hlist⟩ := List.append_eq_nil_iff.mp hqueue
        simp [nextWaiter, Option.toList_eq_nil_iff.mp hfirst, hlist]
      rw [grantWaiters, hnext]
      exact hqueue ▸ .refl
    | cons w ws =>
      obtain ⟨hnext, -⟩ := nextWaiter_of_waiters hqueue
      rw [grantWaiters, hnext]
      dsimp only
      split
      · next hgrant =>
        have hstep := spared_tryWaiter (u := u) hok hqueue hgrant
        have hrest : (l.tryWaiter w shares).2.removeNextWaiter.waiters = ws := by
          refine (nextWaiter_of_waiters (w := w) ?_).2
          unfold tryWaiter
          split
          · exact hqueue
          · exact waiters_tryLockWithSharing.trans hqueue
        have hlater := ih (l := (l.tryWaiter w shares).2.removeNextWaiter)
          (by simpa using hok.tryWaiter)
        rw [hrest] at hlater
        exact hqueue ▸ hstep.trans hlater
      · exact hqueue ▸ .refl

/-- One entry of an owner that leaves is taken out. -/
theorem perm_flushOwner {l' : LockImpl} (h : l.flushOwner v = some l') :
    ∃ p, p.locker = v ∧ l.owners.Perm (p :: l'.owners) := by
  unfold flushOwner at h
  unfold owners
  split_ifs at h with hfirst hset
  · obtain rfl := Option.some.inj h
    cases hf : l.firstOwner with
    | none => simp [hf] at hfirst
    | some first => exact ⟨first, by simpa [hf] using hfirst, by simp⟩
  · obtain rfl := Option.some.inj h
    cases hs : l.ownerSet with
    | none => simp [hs] at hset
    | some set =>
      obtain ⟨q, hq, hqv⟩ := List.any_eq_true.mp (hs ▸ hset)
      obtain ⟨p, os₁, os₂, -, hpv, hset, herase⟩ := 
        List.exists_of_eraseP (p := fun o => decide (o.locker = v)) hq hqv
      refine ⟨p, by simpa using hpv, ?_⟩
      rw [Option.getD_some] at hset herase
      rw [Option.map_some, Option.getD_some, Option.getD_some, herase, hset]
      exact (List.perm_middle.append_left _).trans List.perm_middle

/-- The entries of the others stay when an owner leaves. -/
theorem mem_flushOwner_of_ne {l' : LockImpl} (h : l.flushOwner v = some l') (hne : o.locker ≠ v) :
    o ∈ l'.owners ↔ o ∈ l.owners := by
  obtain ⟨p, hpv, hperm⟩ := perm_flushOwner h
  have hop : o ≠ p := fun heq => hne (heq ▸ hpv)
  simp [hperm.mem_iff, hop]

/-- A release by another locker. -/
theorem spared_releaseWithSharing (hok : OwnersOk registry l.owners) (hne : v ≠ u) :
    Spared u l.owners l.waiters (l.releaseWithSharing v shares).2.owners
      (l.releaseWithSharing v shares).2.waiters := by
  unfold releaseWithSharing
  split
  · exact .refl
  · next l' hflush =>
    have hqueue : l'.waiters = l.waiters := by
      unfold flushOwner at hflush
      split_ifs at hflush <;> exact Option.some.inj hflush ▸ rfl
    refine Spared.trans (.of_others (fun o hu => ?_) fun w _ => by rw [hqueue])
      (spared_grantWaiters _ (hok.sublist (owners_flushOwner hflush)))
    exact mem_flushOwner_of_ne hflush fun hv => hne (hv.symm.trans hu)

/-- A locker that releases its lock is not an owner, unless it was waiting. -/
theorem locker_ne_of_release (hok : OwnersOk registry l.owners)
    (hqueue : ∀ w ∈ l.waiters, w.locker ≠ u) (ho : o ∈ (l.releaseWithSharing u shares).2.owners) :
    o.locker ≠ u := by
  intro hou
  unfold releaseWithSharing at ho
  cases hflush : l.flushOwner u with
  | none =>
    simp only [hflush] at ho
    unfold flushOwner at hflush
    split_ifs at hflush with hfirst hset
    obtain ho | ho := List.mem_append.mp ho
    · have hf : l.firstOwner = some o := by simpa using ho
      simp [hf, hou] at hfirst
    · exact hset (List.any_eq_true.mpr ⟨o, ho, by simpa using hou⟩)
  | some l' =>
    simp only [hflush] at ho
    have hwaiters : l'.waiters = l.waiters := by
      unfold flushOwner at hflush
      split_ifs at hflush <;> exact Option.some.inj hflush ▸ rfl
    have hmem : o ∈ l'.owners :=
      (spared_grantWaiters (u := u) _ (hok.sublist (owners_flushOwner hflush))).owners
        (hwaiters ▸ hqueue) o ho hou
    obtain ⟨p, hpu, hperm⟩ := perm_flushOwner hflush
    have hnodup := (hperm.map LockInfo.locker).nodup_iff.mp hok.nodup
    rw [List.map_cons, List.nodup_cons, hpu] at hnodup
    exact hnodup.1 (List.mem_map.mpr ⟨o, hmem, hou⟩)

/-- A request that does not wait, of a locker that is not an owner. -/
theorem lock_nonBlocking_self {request : LockType} {jump : Bool}
    (hnone : ∀ o ∈ l.owners, o.locker ≠ u) :
    (∀ o ∈ (l.lockWithSharing request u true jump shares).2.owners, o.locker = u →
        o = ⟨u, request⟩ ∧
          (l.lockWithSharing request u true jump shares).1 = .grant .new) ∧
      (l.lockWithSharing request u true jump shares).2.waiters = l.waiters := by
  constructor
  · intro o ho hou
    rw [owners_lockWithSharing] at ho
    unfold lockWithSharing
    rw [tryLockWithSharing_eq] at ho ⊢
    -- the locker has no entry to upgrade
    have hup : ownUpgrade ⟨u, request⟩ l.owners = none := ownUpgrade_eq_none_iff.mpr hnone
    rw [hup] at ho ⊢
    split at ho
    · exact absurd hou (hnone o ho)
    · dsimp only at ho ⊢
      split at ho
      · next hfree =>
        rw [if_pos hfree]
        exact ⟨(mem_addOwner.mp ho).resolve_right fun ho => hnone o ho hou, by simp⟩
      · exact absurd hou (hnone o ho)
  · have hwaiters : (l.tryLockWithSharing ⟨u, request⟩ (jump || decide (l.nWaiters = 0))
        shares).2.waiters = l.waiters := waiters_tryLockWithSharing
    unfold lockWithSharing
    generalize l.tryLockWithSharing ⟨u, request⟩ (jump || decide (l.nWaiters = 0)) shares =
      attempt at hwaiters ⊢
    obtain ⟨grant, l'⟩ := attempt
    dsimp only at hwaiters ⊢
    split_ifs <;> simp_all

/-- A demotion by another locker. -/
theorem spared_demote (hne : v ≠ u) :
    Spared u l.owners l.waiters (l.demote v).owners (l.demote v).waiters := by
  unfold demote
  split
  · split
    · refine .of_others (fun o hu => ?_) fun w _ => ?_
      · exact mem_updateOwnerType_of_ne fun hv => hne (hv.symm.trans hu)
      · unfold updateOwnerType
        split <;> rfl
    · exact .refl
  · exact .refl

/-- Another locker leaves the queue. -/
theorem spared_flushWaiter (hne : v ≠ u) :
    Spared u l.owners l.waiters (l.flushWaiter v).owners (l.flushWaiter v).waiters := by
  refine .of_others (fun o _ => by rw [owners_flushWaiter]) fun w hu => ?_
  have hwv : w.locker ≠ v := fun hv => hne (hv.symm.trans hu)
  unfold flushWaiter waiters
  split
  · next hfirst =>
    cases hf : l.firstWaiter with
    | none => simp [hf] at hfirst
    | some first =>
      have hwf : w ≠ first := fun heq => hwv (heq ▸ by simpa [hf] using hfirst)
      simp [hwf]
  · cases l.waiterList <;> simp [hwv]

/-- A locker is stolen from if it is preemptable and not the thief. -/
theorem mem_stealLockPreemptable {preemptable : Locker → Bool} :
    o ∈ (l.stealLockPreemptable v preemptable).owners ↔
      o ∈ l.owners ∧ (o.locker = v ∨ preemptable o.locker = false) := by
  unfold stealLockPreemptable owners
  cases l.firstOwner with
  | none => cases l.ownerSet <;> simp
  | some first =>
    cases l.ownerSet with
    | none =>
      simp only [Option.map_none, Option.getD_none, List.append_nil, Option.mem_toList,
        Option.filter_eq_some_iff]
      simp
    | some set => simp [Option.filter_eq_some_iff, or_and_right, @eq_comm _ first o]

end

end LockImpl

/-- What conflicts with a write lock conflicts with a write type. -/
theorem LockType.block_of_isWriteLock {a request : LockType} (ha : a.isWriteLock = true)
    (h : LockType.getConflict .write request = .block) : a.getConflict request = .block := by
  revert ha h
  cases a <;> cases request <;> decide

/-- A type that covers a request which conflicts with a write lock conflicts with a write type. -/
theorem LockType.not_allow_of_existing {a b request : LockType} (ha : a.isWriteLock = true)
    (h : LockType.getConflict .write request = .block) (hup : b.getUpgrade request = .existing) :
    b.getConflict a ≠ .allow := by
  revert ha h hup
  cases a <;> cases b <;> cases request <;> decide

/-! ### The calls on a lock -/

/-- The locker that makes a call. -/
def LockCall.locker : LockCall → Locker
  | .lock _ u _ _ _ | .release u _ | .demote u | .flushWaiter u | .stealLock u _ => u

namespace Lock

variable {registry : ShareRegistry} {l : Lock} {u v : Locker} {c : LockCall}

/-- The call does not steal a write lock from the locker, and does not demote a thin one of it. -/
def Spares (l : Lock) (u : Locker) : LockCall → Prop
  | .demote _ => match l with
    | thin owner => ¬ WriteOwner owner.toList u
    | full _ => True
  | .stealLock _ preemptable => preemptable u = true → ¬ WriteOwner l.owners u
  | _ => True

instance (l : Lock) (u : Locker) : ∀ c, Decidable (l.Spares u c)
  | .demote _ => match l with
    | thin owner => inferInstanceAs (Decidable (¬ WriteOwner owner.toList u))
    | full _ => .isTrue trivial
  | .stealLock _ preemptable =>
    inferInstanceAs (Decidable (preemptable u = true → ¬ WriteOwner l.owners u))
  | .lock .. | .release .. | .flushWaiter _ => .isTrue trivial

/-- The full form of a lock. -/
def impl : Lock → LockImpl
  | thin owner => inflated owner
  | full impl => impl

theorem Alike.waiters_eq {l l' : Lock} (h : l.Alike l') : l.waiters = l'.waiters := by
  cases h <;> rfl

theorem alike_impl (l : Lock) : l.Alike (full l.impl) := by
  cases l with
  | thin owner => exact .inflate owner
  | full impl => exact .same impl

theorem owners_impl (l : Lock) : l.impl.owners = l.owners := l.alike_impl.owners_eq.symm

theorem waiters_impl (l : Lock) : l.impl.waiters = l.waiters := l.alike_impl.waiters_eq.symm

/-- **A lock does what its full form does**, demotions apart. -/
theorem apply_alike (registry : ShareRegistry) (c : LockCall) (l : Lock)
    (hc : ∀ v, c ≠ .demote v) :
    l.answer registry (.call c) = (full l.impl).answer registry (.call c) ∧
      (l.apply registry c).Alike ((full l.impl).apply registry c) := by
  cases l with
  | thin owner => exact op_inflate owner fun v heq => hc v (LockOp.call.inj heq)
  | full impl =>
    refine ⟨rfl, ?_⟩
    cases c <;> exact .same _

/-- The answer to a request is that of the full form. -/
theorem lockWithSharing_answer (l : Lock) (request : LockType) (v : Locker)
    (nonBlocking jump : Bool) :
    (l.lockWithSharing request v nonBlocking jump (registry.sharesFn v)).1 =
      (l.impl.lockWithSharing request v nonBlocking jump (registry.sharesFn v)).1 := by
  have h := (apply_alike registry (.lock request v nonBlocking jump true) l
    nofun).1
  exact LockAnswer.attempt.inj h

/-- A locker that leaves the queue changes no owner. -/
theorem owners_apply_flushWaiter : (l.apply registry (.flushWaiter v)).owners = l.owners := by
  cases l with
  | thin owner => rfl
  | full impl => exact impl.owners_flushWaiter v

/-- **A call of another locker** that does not take a write lock away. -/
theorem spared_apply (hok : OwnersOk registry l.owners) (hne : c.locker ≠ u)
    (hspares : l.Spares u c) :
    Spared u l.owners l.waiters (l.apply registry c).owners (l.apply registry c).waiters := by
  have hfull : (∀ v, c ≠ .demote v) →
      Spared u l.impl.owners l.impl.waiters ((full l.impl).apply registry c).owners
        ((full l.impl).apply registry c).waiters →
      Spared u l.owners l.waiters (l.apply registry c).owners (l.apply registry c).waiters := by
    intro hc h
    have hnext := (apply_alike registry c l hc).2
    rw [← l.owners_impl, ← l.waiters_impl, hnext.owners_eq, hnext.waiters_eq]
    exact h
  have hok : OwnersOk registry l.impl.owners := l.owners_impl ▸ hok
  cases c with
  | lock => exact hfull nofun (LockImpl.spared_lockWithSharing hne)
  | release => exact hfull nofun (LockImpl.spared_releaseWithSharing hok hne)
  | flushWaiter => exact hfull nofun (LockImpl.spared_flushWaiter hne)
  | stealLock v preemptable =>
    refine hfull nofun ⟨?_, fun w hw _ _ => .inl hw, id, fun _ o ho _ => ?_⟩
    · rintro ⟨o, ho, rfl, hwrite⟩
      refine ⟨o, LockImpl.mem_stealLockPreemptable.mpr ⟨ho, .inr ?_⟩, rfl, hwrite⟩
      exact Bool.eq_false_iff.mpr fun hpre => hspares hpre ⟨o, l.owners_impl ▸ ho, rfl, hwrite⟩
    · exact (LockImpl.mem_stealLockPreemptable.mp ho).1
  | demote v =>
    cases l with
    | full impl => exact LockImpl.spared_demote hne
    | thin owner =>
      have hspares : ¬ WriteOwner owner.toList u := hspares
      cases owner with
      | none => exact .refl
      | some o =>
        by_cases hw : o.lockType.isWriteLock = true
        · -- the write lock that is demoted is another locker's
          have hou : o.locker ≠ u := fun hou => hspares ⟨o, by simp, hou, hw⟩
          refine .of_others (fun p hp => ?_) fun _ _ => Iff.rfl
          have hpo : p ≠ o := fun heq => hou (heq ▸ hp)
          have hpd : p ≠ { o with lockType := LockImpl.demotedType o.lockType } := by
            rintro rfl
            exact hou hp
          simp [apply, demote, ThinLockImpl.demote, owners, hw, hpo, hpd]
        · have heq : (thin (some o)).apply registry (.demote v) = thin (some o) := by
            simp [apply, demote, ThinLockImpl.demote, hw]
          rw [heq]
          exact .refl

/-- **A request takes no write lock from the locker that makes it**; and if a write lock is granted
it owns one, and if it is to wait for one it is in the queue. -/
theorem lock_self (hok : OwnersOk registry l.owners) (request : LockType) (nonBlocking : Bool) :
    let r := l.lockWithSharing request u nonBlocking false (registry.sharesFn u)
    (WriteOwner l.owners u → WriteOwner r.2.owners u) ∧
      (request.isWriteLock = true → ∀ grant, r.1 = .grant grant →
        (grant.isGranted = true → WriteOwner r.2.owners u) ∧
        (grant = .waitNew ∨ grant = .waitPromotion → ⟨u, request⟩ ∈ r.2.waiters)) := by
  have hnext := (apply_alike registry (.lock request u nonBlocking false true) l
    nofun).2
  dsimp only
  rw [lockWithSharing_answer,
    show (l.lockWithSharing request u nonBlocking false (registry.sharesFn u)).2.owners =
      (l.impl.lockWithSharing request u nonBlocking false (registry.sharesFn u)).2.owners from
      hnext.owners_eq,
    show (l.lockWithSharing request u nonBlocking false (registry.sharesFn u)).2.waiters =
      (l.impl.lockWithSharing request u nonBlocking false (registry.sharesFn u)).2.waiters from
      hnext.waiters_eq, LockImpl.owners_lockWithSharing]
  have hok : OwnersOk registry l.impl.owners := l.owners_impl ▸ hok
  refine ⟨fun h => LockImpl.writeOwner_tryLockWithSharing hok (l.owners_impl ▸ h),
    fun hwrite grant hgrant => 
      ⟨fun hgranted => LockImpl.writeOwner_of_granted hwrite ?_, fun hwaits => ?_⟩⟩
  all_goals
    unfold LockImpl.lockWithSharing at hgrant
  · generalize l.impl.tryLockWithSharing ⟨u, request⟩ (false || decide (l.impl.nWaiters = 0))
      (registry.sharesFn u) = attempt at hgrant ⊢
    obtain ⟨g, l'⟩ := attempt
    dsimp only at hgrant ⊢
    split_ifs at hgrant <;> obtain rfl := LockAttemptResult.grant.inj hgrant <;>
      first | exact hgranted | cases hgranted
  · unfold LockImpl.lockWithSharing
    generalize l.impl.tryLockWithSharing ⟨u, request⟩ (false || decide (l.impl.nWaiters = 0))
      (registry.sharesFn u) = attempt at hgrant ⊢
    obtain ⟨g, l'⟩ := attempt
    dsimp only at hgrant ⊢
    split_ifs at hgrant ⊢ <;> obtain rfl := LockAttemptResult.grant.inj hgrant <;>
      simp_all [LockImpl.mem_addWaiterToHeadOfList, LockImpl.mem_addWaiterToEndOfList]

/-- **A request that does not wait**, of a locker that is not an owner: it is granted what it asked
for, or gets nothing. -/
theorem lock_nonBlocking (registry : ShareRegistry) (hnone : ∀ o ∈ l.owners, o.locker ≠ u)
    (request : LockType) :
    (∀ o ∈ (l.apply registry (.lock request u true false true)).owners, o.locker = u →
        o = ⟨u, request⟩ ∧
          (l.lockWithSharing request u true false (registry.sharesFn u)).1 = .grant .new) ∧
      (l.apply registry (.lock request u true false true)).waiters = l.waiters := by
  have hnext := (apply_alike registry (.lock request u true false true) l
    nofun).2
  rw [hnext.owners_eq, hnext.waiters_eq, ← l.waiters_impl, lockWithSharing_answer]
  exact LockImpl.lock_nonBlocking_self (l.owners_impl ▸ hnone)

/-- **A release** by a locker that is not waiting. -/
theorem locker_ne_of_release (hok : OwnersOk registry l.owners)
    (hqueue : ∀ w ∈ l.waiters, w.locker ≠ u) {o : LockInfo}
    (ho : o ∈ (l.apply registry (.release u true)).owners) : o.locker ≠ u := by
  have hnext := (apply_alike registry (.release u true) l nofun).2
  rw [hnext.owners_eq] at ho
  exact LockImpl.locker_ne_of_release (l.owners_impl ▸ hok) (l.waiters_impl ▸ hqueue) ho

/-- **Nobody outside the group is granted** what conflicts with a write lock. -/
theorem answer_of_writes (hok : OwnersOk registry l.owners) (hwrites : WriteOwner l.owners u)
    (hne : v ≠ u) (hshare : registry.sharesFn v u = false) {request : LockType}
    (hblock : LockType.getConflict .write request = .block) (nonBlocking jump : Bool)
    {grant : LockGrantType}
    (hgrant : (l.lockWithSharing request v nonBlocking jump (registry.sharesFn v)).1 =
      .grant grant) : grant.isGranted = false := by
  rw [← l.owners_impl] at hok hwrites
  obtain ⟨o, ho, rfl, hwrite⟩ := hwrites
  have hconf := LockType.block_of_isWriteLock hwrite hblock
  by_contra hgranted
  rw [lockWithSharing_answer] at hgrant
  -- the attempt is granted
  have hattempt : (l.impl.tryLockWithSharing ⟨v, request⟩ (jump || decide (l.impl.nWaiters = 0))
      (registry.sharesFn v)).1.isGranted = true := by
    unfold LockImpl.lockWithSharing at hgrant
    generalize l.impl.tryLockWithSharing ⟨v, request⟩ (jump || decide (l.impl.nWaiters = 0))
      (registry.sharesFn v) = attempt at hgrant ⊢
    obtain ⟨g, l'⟩ := attempt
    dsimp only at hgrant ⊢
    split_ifs at hgrant <;> obtain rfl := LockAttemptResult.grant.inj hgrant <;>
      first | exact Bool.eq_true_of_not_eq_false hgranted | exact absurd rfl hgranted
  obtain ⟨-, hold⟩ | ⟨hallow, -⟩ := l.impl.tryLockWithSharing_spec ⟨v, request⟩
    (jump || decide (l.impl.nWaiters = 0)) (registry.sharesFn v)
  · -- an entry that covers the request conflicts with the write lock
    obtain ⟨p, hp, hpv, hup⟩ := hold hattempt
    have hpo := hok.allow p hp o ho (hpv ▸ hne) (hpv ▸ hshare)
    exact LockType.not_allow_of_existing hwrite hblock hup hpo
  · rw [hallow o ho hne.symm hshare] at hconf
    cases hconf

end Lock

/-! ### The table -/

/-- The lock of every LSN; one that is not in the table is thin and has no owner. -/
abbrev LockTable := Lsn → Lock

/-- No lock is owned. -/
def LockTable.empty : LockTable := fun _ => .new false

/-- A lock without owners and waiters leaves the table. -/
def Lock.tidy (l : Lock) : Lock := if l.owners = [] ∧ l.waiters = [] then .new false else l

@[simp] theorem Lock.owners_tidy (l : Lock) : l.tidy.owners = l.owners := by
  unfold Lock.tidy
  split
  · next h => exact h.1.symm
  · rfl

@[simp] theorem Lock.waiters_tidy (l : Lock) : l.tidy.waiters = l.waiters := by
  unfold Lock.tidy
  split
  · next h => exact h.2.symm
  · rfl

namespace LockTable

variable {registry : ShareRegistry} {locks : LockTable} {lsn k : Lsn} {u : Locker} {c : LockCall}

/-- A call on the lock of an LSN. -/
def call (registry : ShareRegistry) (locks : LockTable) (lsn : Lsn) (c : LockCall) : LockTable :=
  Function.update locks lsn
    (match c with
    | .release .. | .flushWaiter _ => ((locks lsn).apply registry c).tidy
    | _ => (locks lsn).apply registry c)

/-- The owners of every lock are compatible and distinct. -/
def Ok (registry : ShareRegistry) (locks : LockTable) : Prop :=
  ∀ lsn, OwnersOk registry (locks lsn).owners

theorem call_of_ne (h : k ≠ lsn) : locks.call registry lsn c k = locks k :=
  Function.update_of_ne h _ _

theorem owners_call_self :
    (locks.call registry lsn c lsn).owners = ((locks lsn).apply registry c).owners := by
  unfold call
  rw [Function.update_self]
  cases c <;> simp

theorem waiters_call_self :
    (locks.call registry lsn c lsn).waiters = ((locks lsn).apply registry c).waiters := by
  unfold call
  rw [Function.update_self]
  cases c <;> simp

theorem Ok.call (h : locks.Ok registry) (lsn : Lsn) (c : LockCall) :
    (locks.call registry lsn c).Ok registry := by
  intro k
  by_cases hk : k = lsn
  · subst hk
    rw [owners_call_self]
    exact (h k).apply c
  · rw [call_of_ne hk]
    exact h k

theorem ok_empty : empty.Ok registry := fun _ => .nil

/-- A call of another locker, on any lock. -/
theorem spared_call (h : locks.Ok registry) (hne : c.locker ≠ u) (hspares : (locks lsn).Spares u c)
    (k : Lsn) :
    Spared u (locks k).owners (locks k).waiters (locks.call registry lsn c k).owners
      (locks.call registry lsn c k).waiters := by
  by_cases hk : k = lsn
  · subst hk
    rw [owners_call_self, waiters_call_self]
    exact Lock.spared_apply (h k) hne hspares
  · rw [call_of_ne hk]
    exact .refl

/-- A request that does not wait, of a locker that owns nothing and waits for nothing. -/
theorem call_lock_nonBlocking (registry : ShareRegistry)
    (hnone : ∀ k, ∀ o ∈ (locks k).owners, o.locker ≠ u)
    (hwaits : ∀ k, ∀ w ∈ (locks k).waiters, w.locker ≠ u) (lsn : Lsn) (request : LockType)
    (k : Lsn) :
    (∀ w ∈ (locks.call registry lsn (.lock request u true false true) k).waiters, w.locker ≠ u) ∧
      ∀ o ∈ (locks.call registry lsn (.lock request u true false true) k).owners, o.locker = u →
        k = lsn ∧ o.lockType = request ∧
          ((locks lsn).lockWithSharing request u true false (registry.sharesFn u)).1 =
            .grant .new := by
  by_cases hk : k = lsn
  · subst hk
    obtain ⟨howners, hqueue⟩ := Lock.lock_nonBlocking registry (hnone k) request
    rw [owners_call_self, waiters_call_self, hqueue]
    refine ⟨hwaits k, fun o ho hou => ?_⟩
    obtain ⟨rfl, hgrant⟩ := howners o ho hou
    exact ⟨rfl, rfl, hgrant⟩
  · rw [call_of_ne hk]
    exact ⟨hwaits k, fun o ho hou => absurd hou (hnone k o ho)⟩

end LockTable

end Noxu
