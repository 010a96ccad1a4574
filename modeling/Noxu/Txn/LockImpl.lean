import Mathlib.Data.List.Nodup
import Noxu.Txn.Lock

/-!
# One Lock, with its Owners and its Waiters

The lock of one LSN as the lock table stores it: a thin lock with at most one owner, or a
full one whose owners and waiters each live in a slot for the first and a list for the
others. A slot may be empty while its list is not. Lockers of one sharing group are not
checked against each other. What wakes a waiting thread is left out.

## Main results

* `LockImpl.tryLockWithSharing_eq`: an attempt, in terms of what the owners say to it;
* `LockImpl.tryLockWithSharing_spec`: what it has done to the owners;
* `OwnersOk.apply`: every call keeps the owners compatible and distinct;
* `owners_stay_compatible`: **after any calls on a lock, no two owners of different sharing
  groups hold types that conflict, and no locker is an owner twice.**
-/

namespace Noxu

/-! ### Sharing groups -/

/-- The group a locker has joined, if any. -/
abbrev ShareRegistry := Locker → Option ℤ

/-- The predicate `LockManager::build_shares_fn` builds for a locker. -/
def ShareRegistry.sharesFn (registry : ShareRegistry) (locker owner : Locker) : Bool :=
  match registry locker with
  | some group => decide (registry owner = some group)
  | none => false

theorem ShareRegistry.sharesFn_comm (registry : ShareRegistry) (u v : Locker) :
    registry.sharesFn u v = registry.sharesFn v u := by
  unfold ShareRegistry.sharesFn
  cases hu : registry u with
  | none => cases hv : registry v <;> simp
  | some g =>
    cases hv : registry v with
    | none => simp
    | some k => simp [eq_comm]

/-! ### The full lock -/

/-- An owner or a waiter. -/
structure LockInfo where
  locker : Locker
  lockType : LockType
  deriving DecidableEq

/-- What a request is answered: a grant, a place in the queue, or a refusal. -/
inductive LockAttemptResult
  | grant (grant : LockGrantType)
  | denied
  deriving DecidableEq

/-- The full form of a lock: the first of each list has a field of its own. -/
structure LockImpl where
  firstOwner : Option LockInfo
  ownerSet : Option (List LockInfo)
  firstWaiter : Option LockInfo
  waiterList : Option (List LockInfo)

/-- What the scan over the owners has found so far. -/
structure OwnerScan where
  upgrade : Option LockUpgrade
  ownerExists : Bool
  ownerConflicts : Bool

namespace LockImpl

/-- A free lock. -/
def new : LockImpl where
  firstOwner := none
  ownerSet := none
  firstWaiter := none
  waiterList := none

/-- The full form of a thin lock. -/
def fromFirstOwner (owner : LockInfo) : LockImpl :=
  { new with firstOwner := some owner }

/-- All owners. -/
def owners (l : LockImpl) : List LockInfo :=
  l.firstOwner.toList ++ l.ownerSet.getD []

/-- All waiters. -/
def waiters (l : LockImpl) : List LockInfo :=
  l.firstWaiter.toList ++ l.waiterList.getD []

/-- `n_owners`. -/
def nOwners (l : LockImpl) : ℕ := l.owners.length

/-- `n_waiters`. -/
def nWaiters (l : LockImpl) : ℕ := l.waiters.length

/-- `add_owner`. -/
def addOwner (l : LockImpl) (info : LockInfo) : LockImpl :=
  match l.firstOwner with
  | none => { l with firstOwner := some info }
  | some _ => { l with ownerSet := some (l.ownerSet.getD [] ++ [info]) }

/-- The lock without the locker among the owners, `none` if it is not one of them. -/
def flushOwner (l : LockImpl) (u : Locker) : Option LockImpl :=
  if l.firstOwner.any (·.locker = u) then some { l with firstOwner := none }
  else if (l.ownerSet.getD []).any (·.locker = u) then
    some { l with ownerSet := l.ownerSet.map (·.eraseP (·.locker = u)) }
  else none

/-- `get_owner_lock_info`. -/
def getOwnerLockInfo (l : LockImpl) (u : Locker) : Option LockInfo :=
  l.owners.find? (·.locker = u)

/-- The first entry of the locker gets another type. -/
def retype (u : Locker) (t : LockType) : List LockInfo → List LockInfo
  | [] => []
  | o :: os => if o.locker = u then { o with lockType := t } :: os else o :: retype u t os

/-- Change the type of an owner. -/
def updateOwnerType (l : LockImpl) (u : Locker) (t : LockType) : LockImpl :=
  if l.firstOwner.any (·.locker = u) then
    { l with firstOwner := l.firstOwner.map fun o => { o with lockType := t } }
  else { l with ownerSet := l.ownerSet.map (retype u t) }

/-- `add_waiter_to_end_of_list`. -/
def addWaiterToEndOfList (l : LockImpl) (info : LockInfo) : LockImpl :=
  match l.waiterList with
  | some list => { l with waiterList := some (list ++ [info]) }
  | none =>
    match l.firstWaiter with
    | none => { l with firstWaiter := some info }
    | some _ => { l with waiterList := some [info] }

/-- `add_waiter_to_head_of_list`. -/
def addWaiterToHeadOfList (l : LockImpl) (info : LockInfo) : LockImpl :=
  match l.firstWaiter with
  | some first =>
    { l with
      firstWaiter := some info
      waiterList := some (first :: l.waiterList.getD []) }
  | none => { l with firstWaiter := some info }

/-- The loop of `try_lock_with_sharing` over the owners; an `error` leaves the function. -/
def scanOwners (shares : Locker → Bool) (u : Locker) (request : LockType) :
    List LockInfo → OwnerScan → Except LockGrantType OwnerScan
  | [], scan => .ok scan
  | o :: os, scan =>
    if o.locker = u then
      let upgrade := o.lockType.getUpgrade request
      if upgrade = .illegal then .error .illegalUpgrade
      else if upgrade.getUpgradeType = none then .error .existing
      else scanOwners shares u request os { scan with upgrade := some upgrade }
    else if shares o.locker then scanOwners shares u request os scan
    else match o.lockType.getConflict request with
      | .restart => .error .waitRestart
      | .block =>
        scanOwners shares u request os
          { scan with ownerExists := true, ownerConflicts := true }
      | .allow => scanOwners shares u request os { scan with ownerExists := true }

/-- `try_lock_with_sharing`. -/
def tryLockWithSharing (l : LockImpl) (info : LockInfo) (firstWaiterInLine : Bool)
    (shares : Locker → Bool) : LockGrantType × LockImpl :=
  if l.nOwners = 0 then (.new, l.addOwner info)
  else match scanOwners shares info.locker info.lockType l.owners ⟨none, false, false⟩ with
    | .error grant => (grant, l)
    | .ok scan =>
      match scan.upgrade with
      | some upgrade =>
        match upgrade.getUpgradeType with
        | none => (.existing, l)
        | some new =>
          if scan.ownerConflicts then (.waitPromotion, l)
          else (if upgrade.isPromotion then .promotion else .existing,
            l.updateOwnerType info.locker new)
      | none =>
        if !scan.ownerConflicts && (!scan.ownerExists || firstWaiterInLine) then
          (.new, l.addOwner info)
        else (.waitNew, l)

/-- `try_lock`, for a waiter being woken: nobody shares. -/
def tryLock (l : LockImpl) (info : LockInfo) (firstWaiterInLine : Bool) :
    LockGrantType × LockImpl :=
  l.tryLockWithSharing info firstWaiterInLine fun _ => false

/-- Some waiter ahead makes a range request restart. The scan starts at the slot of the
first waiter and stops there if the slot is empty. -/
def waiterRestarts (l : LockImpl) (u : Locker) (request : LockType)
    (shares : Locker → Bool) : Bool :=
  match l.firstWaiter with
  | none => false
  | some first =>
    (first :: l.waiterList.getD []).any fun w =>
      decide (w.lockType ≠ .restart) && decide (u ≠ w.locker) && !shares w.locker &&
        decide (w.lockType.getConflict request = .restart)

/-- `lock_with_sharing`. -/
def lockWithSharing (l : LockImpl) (request : LockType) (u : Locker)
    (nonBlocking jumpAheadOfWaiters : Bool) (shares : Locker → Bool) :
    LockAttemptResult × LockImpl :=
  let (grant, l') :=
    l.tryLockWithSharing ⟨u, request⟩ (jumpAheadOfWaiters || decide (l.nWaiters = 0)) shares
  if grant = .waitNew ∨ grant = .waitPromotion ∨ grant = .waitRestart then
    let grant :=
      if request.causesRestart && decide (grant ≠ .waitRestart) &&
          l'.waiterRestarts u request shares
      then .waitRestart else grant
    if nonBlocking then (.denied, l')
    else (.grant grant,
      if grant = .waitPromotion then l'.addWaiterToHeadOfList ⟨u, request⟩
      else l'.addWaiterToEndOfList
        ⟨u, if grant = .waitRestart then .restart else request⟩)
  else (.grant grant, l')

/-- A restart request is woken unless a next-key lock of another group is in the way. The
scan stops at an empty slot of the first owner. -/
def rangeInsertConflictWithSharing (l : LockImpl) (waiter : Locker)
    (shares : Locker → Bool) : Bool :=
  match l.firstOwner with
  | none => false
  | some first =>
    (first :: l.ownerSet.getD []).any fun o =>
      decide (o.locker ≠ waiter) && !shares o.locker && decide (o.lockType = .rangeInsert)

/-- The waiter the wake-up loop looks at. -/
def nextWaiter (l : LockImpl) : Option LockInfo :=
  match l.firstWaiter with
  | some w => some w
  | none => (l.waiterList.getD []).head?

/-- Take the first waiter off. -/
def removeNextWaiter (l : LockImpl) : LockImpl :=
  match l.firstWaiter with
  | some _ => { l with firstWaiter := none }
  | none => { l with waiterList := l.waiterList.map List.tail }

/-- The attempt of the wake-up loop. A restart request is never granted the lock. -/
def tryWaiter (l : LockImpl) (w : LockInfo) (shares : Locker → Bool) :
    LockGrantType × LockImpl :=
  if w.lockType = .restart then
    (if l.rangeInsertConflictWithSharing w.locker shares then .waitNew else .new, l)
  else l.tryLock w true

/-- The wake-up loop: it stops at the first waiter that must go on waiting, and returns
those to notify. The first argument bounds the number of waiters. -/
def grantWaiters (shares : Locker → Bool) : ℕ → LockImpl → List Locker × LockImpl
  | 0, l => ([], l)
  | n + 1, l =>
    match l.nextWaiter with
    | none => ([], l)
    | some w =>
      let (grant, l') := l.tryWaiter w shares
      if grant.isGranted then
        let (notify, l'') := grantWaiters shares n l'.removeNextWaiter
        (w.locker :: notify, l'')
      else ([], l)

/-- `release_with_sharing`. -/
def releaseWithSharing (l : LockImpl) (u : Locker) (shares : Locker → Bool) :
    Option (List Locker) × LockImpl :=
  match l.flushOwner u with
  | none => (none, l)
  | some l' =>
    let (notify, l'') := grantWaiters shares l'.nWaiters l'
    (some notify, l'')

/-- What a write lock becomes when it is demoted. -/
def demotedType (t : LockType) : LockType :=
  if t = .rangeWrite then .rangeRead else .read

/-- `demote`. -/
def demote (l : LockImpl) (u : Locker) : LockImpl :=
  match l.getOwnerLockInfo u with
  | some o => if o.lockType.isWriteLock then l.updateOwnerType u (demotedType o.lockType) else l
  | none => l

/-- `steal_lock_preemptable`. -/
def stealLockPreemptable (l : LockImpl) (u : Locker) (preemptable : Locker → Bool) : LockImpl :=
  let stays (o : LockInfo) : Bool := decide (o.locker = u) || !preemptable o.locker
  { l with
    firstOwner := l.firstOwner.filter stays
    ownerSet := l.ownerSet.map (List.filter stays) }

/-- `flush_waiter`. -/
def flushWaiter (l : LockImpl) (u : Locker) : LockImpl :=
  if l.firstWaiter.any (·.locker = u) then { l with firstWaiter := none }
  else { l with waiterList := l.waiterList.map (List.filter fun w => decide (w.locker ≠ u)) }

end LockImpl

/-! ### Thin locks -/

/-- A lock is thin until a second locker asks for it. -/
inductive Lock
  | thin (owner : Option LockInfo)
  | full (impl : LockImpl)

/-- `ThinLockImpl::lock`; an `error` asks for the full form and gives its first owner. -/
def ThinLockImpl.lock (owner : Option LockInfo) (request : LockType) (u : Locker) :
    Except LockInfo (LockGrantType × Option LockInfo) :=
  match owner with
  | none => .ok (.new, some ⟨u, request⟩)
  | some o =>
    if o.locker ≠ u then .error o
    else
      let upgrade := o.lockType.getUpgrade request
      if upgrade = .illegal then .ok (.illegalUpgrade, some o)
      else match upgrade.getUpgradeType with
        | some new =>
          .ok (if upgrade.isPromotion then .promotion else .existing,
            some { o with lockType := new })
        | none => .ok (.existing, some o)

/-- `ThinLockImpl::demote` does not look at the locker. -/
def ThinLockImpl.demote (owner : Option LockInfo) : Option LockInfo :=
  owner.map fun o =>
    if o.lockType.isWriteLock then { o with lockType := LockImpl.demotedType o.lockType } else o

namespace Lock

/-- The two forms a lock is created in. -/
def new (full : Bool) : Lock :=
  if full then .full LockImpl.new else .thin none

/-- The owners of either form. -/
def owners : Lock → List LockInfo
  | thin owner => owner.toList
  | full impl => impl.owners

/-- The waiters of either form. -/
def waiters : Lock → List LockInfo
  | thin _ => []
  | full impl => impl.waiters

/-- A request to either form; a thin lock inflates. -/
def lockWithSharing (l : Lock) (request : LockType) (u : Locker)
    (nonBlocking jumpAheadOfWaiters : Bool) (shares : Locker → Bool) :
    LockAttemptResult × Lock :=
  let fullLock (impl : LockImpl) : LockAttemptResult × Lock :=
    let (result, impl') := impl.lockWithSharing request u nonBlocking jumpAheadOfWaiters shares
    (result, full impl')
  match l with
  | thin owner =>
    match ThinLockImpl.lock owner request u with
    | .ok (grant, owner') => (.grant grant, thin owner')
    | .error existing => fullLock (.fromFirstOwner existing)
  | full impl => fullLock impl

/-- A release of either form. -/
def releaseWithSharing (l : Lock) (u : Locker) (shares : Locker → Bool) :
    Option (List Locker) × Lock :=
  match l with
  | thin owner => if owner.any (·.locker = u) then (some [], thin none) else (none, thin owner)
  | full impl =>
    let (notify, impl') := impl.releaseWithSharing u shares
    (notify, full impl')

/-- A demotion. -/
def demote (u : Locker) : Lock → Lock
  | thin owner => thin (ThinLockImpl.demote owner)
  | full impl => full (impl.demote u)

/-- A steal. -/
def stealLockPreemptable (u : Locker) (preemptable : Locker → Bool) : Lock → Lock
  | thin owner =>
    thin (owner.filter fun o => decide (o.locker = u) || !preemptable o.locker)
  | full impl => full (impl.stealLockPreemptable u preemptable)

/-- A waiter goes. -/
def flushWaiter (u : Locker) : Lock → Lock
  | thin owner => thin owner
  | full impl => full (impl.flushWaiter u)

end Lock

/-! ### The calls on a lock -/

/-- The calls the lock manager makes on a lock. A request and a release come with the
sharing predicate of the locker, or without one. -/
inductive LockCall
  | lock (request : LockType) (u : Locker) (nonBlocking jumpAheadOfWaiters sharing : Bool)
  | release (u : Locker) (sharing : Bool)
  | demote (u : Locker)
  | flushWaiter (u : Locker)
  | stealLock (u : Locker) (preemptable : Locker → Bool)

/-- The predicate a call passes on. -/
def ShareRegistry.passed (registry : ShareRegistry) (sharing : Bool) (u : Locker) :
    Locker → Bool :=
  if sharing then registry.sharesFn u else fun _ => false

/-- A call to a lock. -/
def Lock.apply (registry : ShareRegistry) (l : Lock) : LockCall → Lock
  | .lock request u nonBlocking jump sharing =>
    (l.lockWithSharing request u nonBlocking jump (registry.passed sharing u)).2
  | .release u sharing => (l.releaseWithSharing u (registry.passed sharing u)).2
  | .demote u => l.demote u
  | .flushWaiter u => l.flushWaiter u
  | .stealLock u preemptable => l.stealLockPreemptable u preemptable

/-! ### Compatible owners -/

/-- No locker twice, and no conflict between owners that do not share. -/
structure OwnersOk (registry : ShareRegistry) (owners : List LockInfo) : Prop where
  nodup : (owners.map LockInfo.locker).Nodup
  allow : ∀ a ∈ owners, ∀ b ∈ owners, a.locker ≠ b.locker →
    registry.sharesFn a.locker b.locker = false → a.lockType.getConflict b.lockType = .allow

section

variable {registry : ShareRegistry} {owners owners' : List LockInfo}

theorem OwnersOk.nil : OwnersOk registry [] :=
  ⟨List.nodup_nil, fun _ h => absurd h List.not_mem_nil⟩

theorem OwnersOk.singleton (o : LockInfo) : OwnersOk registry [o] := by
  refine ⟨List.nodup_singleton _, fun a ha b hb hab _ => ?_⟩
  rw [List.mem_singleton] at ha hb
  rw [ha, hb] at hab
  exact absurd rfl hab

/-- Owners may leave. -/
theorem OwnersOk.sublist (h : OwnersOk registry owners) (hs : owners'.Sublist owners) :
    OwnersOk registry owners' :=
  ⟨h.nodup.sublist (hs.map _), fun a ha b hb => h.allow a (hs.subset ha) b (hs.subset hb)⟩

/-- One owner may get a type that the others allow, or join them with it. -/
theorem OwnersOk.change {u : Locker} {t : LockType} (h : OwnersOk registry owners)
    (hnodup : (owners'.map LockInfo.locker).Nodup)
    (hmem : ∀ o ∈ owners', o = ⟨u, t⟩ ∨ o ∈ owners)
    (hallow : ∀ o ∈ owners, o.locker ≠ u → registry.sharesFn u o.locker = false →
      o.lockType.getConflict t = .allow) : OwnersOk registry owners' := by
  refine ⟨hnodup, fun a ha b hb hab hshare => ?_⟩
  obtain rfl | ha := hmem a ha
  · obtain rfl | hb := hmem b hb
    · exact absurd rfl hab
    · exact (LockType.getConflict_allow_comm _ _).mp (hallow b hb hab.symm hshare)
  · obtain rfl | hb := hmem b hb
    · rw [registry.sharesFn_comm] at hshare
      exact hallow a ha hab hshare
    · exact h.allow a ha b hb hab hshare

end

/-! ### The slots and the lists -/

namespace LockImpl

variable {l : LockImpl} {u : Locker} {t : LockType}

theorem owners_addOwner (l : LockImpl) (info : LockInfo) :
    (l.addOwner info).owners.Perm (info :: l.owners) := by
  unfold addOwner owners
  cases hf : l.firstOwner with
  | none => simp
  | some o => simpa [← List.append_assoc] using (List.perm_append_singleton info (o :: _))

theorem owners_flushOwner {l' : LockImpl} (h : l.flushOwner u = some l') :
    l'.owners.Sublist l.owners := by
  unfold flushOwner at h
  split at h
  · obtain rfl := Option.some.inj h
    exact List.sublist_append_right _ _
  · split at h
    · obtain rfl := Option.some.inj h
      refine List.Sublist.append_left ?_ _
      cases hs : l.ownerSet with
      | none => exact List.Sublist.refl _
      | some set => exact List.eraseP_sublist
    · cases h

theorem map_locker_retype (os : List LockInfo) :
    (retype u t os).map LockInfo.locker = os.map LockInfo.locker := by
  induction os with
  | nil => rfl
  | cons o os ih =>
    unfold retype
    split
    · rfl
    · rw [List.map_cons, List.map_cons, ih]

theorem mem_retype {o : LockInfo} {os : List LockInfo} (h : o ∈ retype u t os) :
    o = ⟨u, t⟩ ∨ o ∈ os := by
  induction os with
  | nil => exact absurd h List.not_mem_nil
  | cons p os ih =>
    unfold retype at h
    split at h
    · next hp =>
      obtain rfl | h := List.mem_cons.mp h
      · exact .inl (by rw [hp])
      · exact .inr (List.mem_cons_of_mem _ h)
    · obtain rfl | h := List.mem_cons.mp h
      · exact .inr List.mem_cons_self
      · exact (ih h).imp id (List.mem_cons_of_mem _)

theorem map_locker_updateOwnerType (l : LockImpl) (u : Locker) (t : LockType) :
    (l.updateOwnerType u t).owners.map LockInfo.locker = l.owners.map LockInfo.locker := by
  unfold updateOwnerType owners
  split
  · cases l.firstOwner <;> rfl
  · cases l.ownerSet with
    | none => rfl
    | some set => simp [map_locker_retype]

theorem mem_updateOwnerType {o : LockInfo} (h : o ∈ (l.updateOwnerType u t).owners) :
    o = ⟨u, t⟩ ∨ o ∈ l.owners := by
  unfold updateOwnerType owners at h
  unfold owners
  split at h
  · next hf =>
    cases hl : l.firstOwner with
    | none => simp [hl] at hf
    | some first =>
      simp only [hl, Option.map_some, Option.toList_some, List.cons_append,
        List.nil_append, List.mem_cons, Option.any_some, decide_eq_true_eq] at h hf ⊢
      obtain rfl | h := h
      · exact .inl (by rw [hf])
      · exact .inr (.inr h)
  · cases hs : l.ownerSet with
    | none => exact .inr (by simpa [hs] using h)
    | some set =>
      simp only [hs, Option.map_some, Option.getD_some, List.mem_append] at h ⊢
      obtain h | h := h
      · exact .inr (.inl h)
      · exact (mem_retype h).imp id .inr

theorem owners_stealLockPreemptable (l : LockImpl) (u : Locker) (preemptable : Locker → Bool) :
    (l.stealLockPreemptable u preemptable).owners.Sublist l.owners := by
  unfold stealLockPreemptable owners
  refine List.Sublist.append ?_ ?_
  · cases l.firstOwner with
    | none => exact List.Sublist.refl _
    | some o => 
      simp only [Option.filter_some]
      split
      · exact List.Sublist.refl _
      · exact List.nil_sublist _
  · cases l.ownerSet with
    | none => exact List.Sublist.refl _
    | some set => exact List.filter_sublist

@[simp] theorem owners_flushWaiter (l : LockImpl) (u : Locker) :
    (l.flushWaiter u).owners = l.owners := by
  unfold flushWaiter
  split <;> rfl

@[simp] theorem owners_addWaiterToEndOfList (l : LockImpl) (info : LockInfo) :
    (l.addWaiterToEndOfList info).owners = l.owners := by
  unfold addWaiterToEndOfList
  split
  · rfl
  · split <;> rfl

@[simp] theorem owners_addWaiterToHeadOfList (l : LockImpl) (info : LockInfo) :
    (l.addWaiterToHeadOfList info).owners = l.owners := by
  unfold addWaiterToHeadOfList
  split <;> rfl

@[simp] theorem owners_removeNextWaiter (l : LockImpl) :
    l.removeNextWaiter.owners = l.owners := by
  unfold removeNextWaiter
  split <;> rfl

section

variable {w : LockInfo}

/-- The first waiter of the queue is the next one. -/
theorem nextWaiter_of_waiters {ws : List LockInfo} (h : l.waiters = w :: ws) :
    l.nextWaiter = some w ∧ l.removeNextWaiter.waiters = ws := by
  unfold waiters at h
  unfold nextWaiter removeNextWaiter waiters
  cases hf : l.firstWaiter with
  | none =>
    rw [hf, Option.toList_none, List.nil_append] at h
    cases hl : l.waiterList with
    | none =>
      rw [hl] at h
      cases h
    | some list =>
      rw [hl, Option.getD_some] at h
      simp [h]
  | some first =>
    rw [hf, Option.toList_some, List.singleton_append] at h
    obtain ⟨rfl, rfl⟩ := List.cons.inj h
    exact ⟨rfl, rfl⟩

end

/-! ### What the owners say to a request -/

/-- What one owner decides by itself, whoever the others are: the locker's own entry refuses the
request or covers it already, and a next-key lock outside the group makes a range request
restart. -/
def verdict (shares : Locker → Bool) (w o : LockInfo) : Option LockGrantType :=
  if o.locker = w.locker then
    if o.lockType.getUpgrade w.lockType = .illegal then some .illegalUpgrade
    else if (o.lockType.getUpgrade w.lockType).getUpgradeType = none then some .existing
    else none
  else if shares o.locker = false ∧ o.lockType.getConflict w.lockType = .restart then
    some .waitRestart
  else none

/-- The first owner that decides the request by itself, if there is one. -/
def decided (shares : Locker → Bool) (w : LockInfo) (os : List LockInfo) : Option LockGrantType :=
  os.findSome? (verdict shares w)

/-- An owner outside the group holds a type that the request has to wait for. -/
def Blocked (shares : Locker → Bool) (w : LockInfo) (os : List LockInfo) : Prop :=
  ∃ o ∈ os, o.locker ≠ w.locker ∧ shares o.locker = false ∧
    o.lockType.getConflict w.lockType = .block

instance (shares : Locker → Bool) (w : LockInfo) (os : List LockInfo) :
    Decidable (Blocked shares w os) :=
  inferInstanceAs (Decidable (∃ o ∈ os, _))

/-- What the entry of the locker itself becomes with the request. -/
def ownUpgrade (w : LockInfo) (os : List LockInfo) : Option LockUpgrade :=
  os.foldl (fun up o =>
    if o.locker = w.locker then some (o.lockType.getUpgrade w.lockType) else up) none

section

variable {shares : Locker → Bool} {w : LockInfo} {os : List LockInfo}

theorem decided_cons {o : LockInfo} :
    decided shares w (o :: os) = (verdict shares w o).or (decided shares w os) := by
  rw [decided, List.findSome?_cons]
  cases verdict shares w o <;> rfl

theorem blocked_cons {o : LockInfo} :
    Blocked shares w (o :: os) ↔
      (o.locker ≠ w.locker ∧ shares o.locker = false ∧
        o.lockType.getConflict w.lockType = .block) ∨ Blocked shares w os := by
  simp [Blocked]

/-- The scan over the owners ends at the first one that decides; else it has noted the locker's own
upgrade and whether others are there and block. -/
theorem scanOwners_eq (shares : Locker → Bool) (w : LockInfo) (os : List LockInfo) (s : OwnerScan) :
    scanOwners shares w.locker w.lockType os s =
      match decided shares w os with
      | some grant => .error grant
      | none => .ok {
          upgrade := os.foldl (fun up o =>
            if o.locker = w.locker then some (o.lockType.getUpgrade w.lockType) else up) s.upgrade
          ownerExists := s.ownerExists ||
            os.any fun o => decide (o.locker ≠ w.locker ∧ shares o.locker = false)
          ownerConflicts := s.ownerConflicts || decide (Blocked shares w os) } := by
  induction os generalizing s with
  | nil => simp [decided, Blocked, scanOwners]
  | cons o os ih =>
    rw [scanOwners, decided_cons, verdict]
    simp only [blocked_cons]
    by_cases hou : o.locker = w.locker
    · simp only [if_pos hou]
      split_ifs with hill hnone
      · rfl
      · rfl
      · simp [ih, hou]
    · simp only [if_neg hou]
      cases hshare : shares o.locker with
      | true => simp [ih, hou, hshare]
      | false =>
        cases hconf : o.lockType.getConflict w.lockType with
        | restart => simp
        | block => simp [ih, hou, hshare]
        | allow => simp [ih, hou, hshare]

/-- **An attempt**: what the first owner says that decides it; else a wait or a grant, as owners
outside the group block it or not. -/
theorem tryLockWithSharing_eq (l : LockImpl) (w : LockInfo) (first : Bool)
    (shares : Locker → Bool) :
    l.tryLockWithSharing w first shares =
      match decided shares w l.owners with
      | some grant => (grant, l)
      | none =>
        match ownUpgrade w l.owners with
        | some upgrade =>
          match upgrade.getUpgradeType with
          | none => (.existing, l)
          | some new =>
            if Blocked shares w l.owners then (.waitPromotion, l)
            else (if upgrade.isPromotion then .promotion else .existing,
              l.updateOwnerType w.locker new)
        | none =>
          if ¬ Blocked shares w l.owners ∧ ((∀ o ∈ l.owners, o.locker ≠ w.locker →
              shares o.locker = true) ∨ first = true) then (.new, l.addOwner w)
          else (.waitNew, l) := by
  unfold tryLockWithSharing nOwners
  split
  · next hnil => simp [List.length_eq_zero_iff.mp hnil, decided, ownUpgrade, Blocked]
  · rw [scanOwners_eq]
    cases decided shares w l.owners with
    | some grant => rfl
    | none =>
      dsimp only
      rw [← ownUpgrade]
      cases ownUpgrade w l.owners with
      | none => by_cases hb : Blocked shares w l.owners <;> simp [hb]
      | some upgrade =>
        dsimp only
        cases upgrade.getUpgradeType with
        | none => rfl
        | some new => by_cases hb : Blocked shares w l.owners <;> simp [hb]

/-- What an owner can decide by itself. -/
theorem mem_of_decided {grant : LockGrantType} (h : decided shares w os = some grant) :
    grant = .illegalUpgrade ∨ grant = .existing ∨ grant = .waitRestart := by
  obtain ⟨o, -, ho⟩ := List.exists_of_findSome?_eq_some h
  unfold verdict at ho
  split_ifs at ho <;> simp_all

/-- The locker has no upgrade exactly if it is not an owner. -/
theorem ownUpgrade_eq_none_iff :
    ownUpgrade w os = none ↔ ∀ o ∈ os, o.locker ≠ w.locker := by
  have hfold : ∀ start : Option LockUpgrade, os.foldl (fun up o =>
        if o.locker = w.locker then some (o.lockType.getUpgrade w.lockType) else up) start = none ↔
      start = none ∧ ∀ o ∈ os, o.locker ≠ w.locker := by
    induction os with
    | nil => simp
    | cons o os ih =>
      intro start
      rw [List.foldl_cons, ih, List.forall_mem_cons]
      by_cases ho : o.locker = w.locker <;> simp [ho]
  rw [ownUpgrade, hfold none]
  simp

/-- The upgrade of a locker is that of an entry of it. -/
theorem exists_of_ownUpgrade {upgrade : LockUpgrade} (h : ownUpgrade w os = some upgrade) :
    ∃ o ∈ os, o.locker = w.locker ∧ upgrade = o.lockType.getUpgrade w.lockType := by
  have hfold : ∀ start : Option LockUpgrade, os.foldl (fun up o =>
        if o.locker = w.locker then some (o.lockType.getUpgrade w.lockType) else up) start =
        some upgrade → start = some upgrade ∨
      ∃ o ∈ os, o.locker = w.locker ∧ upgrade = o.lockType.getUpgrade w.lockType := by
    clear h
    induction os with
    | nil => exact fun _ h => .inl h
    | cons o os ih =>
      intro start h
      rw [List.foldl_cons] at h
      obtain hstart | ⟨p, hp, hrest⟩ := ih _ h
      · split at hstart
        · next hou =>
          exact .inr ⟨o, List.mem_cons_self, hou, (Option.some.inj hstart).symm⟩
        · exact .inl hstart
      · exact .inr ⟨p, List.mem_cons_of_mem _ hp, hrest⟩
  exact (hfold none h).resolve_left nofun

/-- The upgrade of a locker that no owner decides is one to another type. -/
theorem getUpgradeType_of_decided (h : decided shares w os = none) {upgrade : LockUpgrade}
    (hup : ownUpgrade w os = some upgrade) : ∃ t, upgrade.getUpgradeType = some t := by
  obtain ⟨o, ho, hou, rfl⟩ := exists_of_ownUpgrade hup
  have hverdict := List.findSome?_eq_none_iff.mp h o ho
  rw [verdict, if_pos hou] at hverdict
  refine Option.ne_none_iff_exists'.mp fun hnone => ?_
  rw [if_pos hnone] at hverdict
  split at hverdict <;> cases hverdict

/-- Owners that neither decide nor block a request allow it, but for those of the group. -/
theorem allow_of_decided (hdec : decided shares w os = none) (hblock : ¬ Blocked shares w os)
    {o : LockInfo} (ho : o ∈ os) (hne : o.locker ≠ w.locker) (hshare : shares o.locker = false) :
    o.lockType.getConflict w.lockType = .allow := by
  have hverdict := List.findSome?_eq_none_iff.mp hdec o ho
  rw [verdict, if_neg hne] at hverdict
  cases hc : o.lockType.getConflict w.lockType with
  | allow => rfl
  | block => exact absurd ⟨o, ho, hne, hshare, hc⟩ hblock
  | restart =>
    rw [if_pos ⟨hshare, hc⟩] at hverdict
    cases hverdict

/-- A request that is covered already is so by an entry of the locker. -/
theorem exists_of_decided_existing (h : decided shares w os = some .existing) :
    ∃ o ∈ os, o.locker = w.locker ∧ o.lockType.getUpgrade w.lockType = .existing := by
  obtain ⟨o, ho, hverdict⟩ := List.exists_of_findSome?_eq_some h
  refine ⟨o, ho, ?_⟩
  revert hverdict
  unfold verdict
  by_cases hou : o.locker = w.locker
  · cases o.lockType.getUpgrade w.lockType <;> simp [hou, LockUpgrade.getUpgradeType]
  · simp [hou]

end

/-- **What an attempt has done**: nothing, if it is not granted or an entry of the locker covers
it; or the locker has joined the owners with what it asked for, or its entry has got the upgrade;
then every owner it does not share with allows the request. -/
theorem tryLockWithSharing_spec (l : LockImpl) (info : LockInfo) (first : Bool)
    (shares : Locker → Bool) :
    ((l.tryLockWithSharing info first shares).2 = l ∧
      ((l.tryLockWithSharing info first shares).1.isGranted = true →
        ∃ o ∈ l.owners, o.locker = info.locker ∧
          o.lockType.getUpgrade info.lockType = .existing)) ∨
    (∀ o ∈ l.owners, o.locker ≠ info.locker → shares o.locker = false →
      o.lockType.getConflict info.lockType = .allow) ∧
    ((l.tryLockWithSharing info first shares).2 = l.addOwner info ∧
        (∀ o ∈ l.owners, o.locker ≠ info.locker) ∨
      ∃ o ∈ l.owners, o.locker = info.locker ∧
        ∃ new, (o.lockType.getUpgrade info.lockType).getUpgradeType = some new ∧
          (l.tryLockWithSharing info first shares).2 = l.updateOwnerType info.locker new) := by
  rw [tryLockWithSharing_eq]
  cases hdec : decided shares info l.owners with
  | some grant =>
    refine .inl ⟨rfl, fun hgranted => ?_⟩
    obtain rfl | rfl | rfl := mem_of_decided hdec
    · cases hgranted
    · exact exists_of_decided_existing hdec
    · cases hgranted
  | none =>
    have hallow := fun hblock o ho hne hshare =>
      allow_of_decided hdec hblock (o := o) ho hne hshare
    dsimp only
    cases hup : ownUpgrade info l.owners with
    | none =>
      dsimp only
      split
      · next hfree => exact .inr ⟨hallow hfree.1, .inl ⟨rfl, ownUpgrade_eq_none_iff.mp hup⟩⟩
      · exact .inl ⟨rfl, nofun⟩
    | some upgrade =>
      obtain ⟨new, hnew⟩ := getUpgradeType_of_decided hdec hup
      obtain ⟨o, ho, hou, rfl⟩ := exists_of_ownUpgrade hup
      simp only [hnew]
      split
      · exact .inl ⟨rfl, nofun⟩
      · next hfree => exact .inr ⟨hallow hfree, .inr ⟨o, ho, hou, new, hnew, rfl⟩⟩

/-- An attempt leaves the queue alone. -/
theorem tryLockWithSharing_slots (l : LockImpl) (info : LockInfo) (first : Bool)
    (shares : Locker → Bool) :
    ∃ firstOwner ownerSet, (l.tryLockWithSharing info first shares).2 =
      { l with firstOwner := firstOwner, ownerSet := ownerSet } := by
  obtain ⟨heq, -⟩ | ⟨-, ⟨heq, -⟩ | ⟨o, -, -, new, -, heq⟩⟩ :=
    l.tryLockWithSharing_spec info first shares
  · exact ⟨l.firstOwner, l.ownerSet, heq⟩
  · rw [heq]
    unfold addOwner
    split <;> exact ⟨_, _, rfl⟩
  · rw [heq]
    unfold updateOwnerType
    split <;> exact ⟨_, _, rfl⟩

/-- A request that waits or is refused leaves the owners to the attempt. -/
theorem owners_lockWithSharing (l : LockImpl) (request : LockType) (u : Locker)
    (nonBlocking jump : Bool) (shares : Locker → Bool) :
    (l.lockWithSharing request u nonBlocking jump shares).2.owners =
      (l.tryLockWithSharing ⟨u, request⟩ (jump || decide (l.nWaiters = 0)) shares).2.owners := by
  unfold lockWithSharing
  obtain ⟨grant, l'⟩ :=
    l.tryLockWithSharing ⟨u, request⟩ (jump || decide (l.nWaiters = 0)) shares
  dsimp only
  split_ifs <;> simp

end LockImpl

/-! ### The calls keep the owners compatible -/

section

variable {registry : ShareRegistry} {l : LockImpl} {u : Locker} {shares : Locker → Bool}

/-- A locker shares at most within its group. -/
def SharesWithin (registry : ShareRegistry) (u : Locker) (shares : Locker → Bool) : Prop :=
  ∀ v, shares v → registry.sharesFn u v

theorem ShareRegistry.passed_within (registry : ShareRegistry) (sharing : Bool) (u : Locker) :
    SharesWithin registry u (registry.passed sharing u) := by
  intro v hv
  unfold ShareRegistry.passed at hv
  split at hv
  · exact hv
  · cases hv

/-- An attempt keeps the owners compatible. -/
theorem OwnersOk.tryLock {info : LockInfo} {first : Bool} (h : OwnersOk registry l.owners)
    (hs : SharesWithin registry info.locker shares) :
    OwnersOk registry (l.tryLockWithSharing info first shares).2.owners := by
  have hno : ∀ v, registry.sharesFn info.locker v = false → shares v = false := by
    intro v hv
    by_contra hc
    rw [hs v (by simpa using hc)] at hv
    cases hv
  obtain ⟨heq, -⟩ | ⟨hallow, ⟨heq, hne⟩ | ⟨o, ho, hou, new, hnew, heq⟩⟩ :=
    l.tryLockWithSharing_spec info first shares
  · rw [heq]
    exact h
  · rw [heq]
    have hperm := l.owners_addOwner info
    refine h.change ?_ (fun a ha => List.mem_cons.mp (hperm.mem_iff.mp ha))
      fun a ha hau hshare => hallow a ha hau (hno _ hshare)
    rw [(hperm.map _).nodup_iff, List.map_cons, List.nodup_cons]
    refine ⟨fun hmem => ?_, h.nodup⟩
    obtain ⟨a, ha, hau⟩ := List.mem_map.mp hmem
    exact hne a ha hau
  · rw [heq]
    refine h.change ?_ (fun a ha => LockImpl.mem_updateOwnerType ha) fun a ha hau hshare => ?_
    · rw [LockImpl.map_locker_updateOwnerType]
      exact h.nodup
    · -- the others allow what the locker held and what it asks for, hence the upgrade
      have hheld : a.lockType.getConflict o.lockType = .allow := by
        refine h.allow a ha o ho (hou ▸ hau) ?_
        rw [registry.sharesFn_comm, hou]
        exact hshare
      exact LockType.getConflict_upgrade hnew hheld (hallow a ha hau (hno _ hshare))

theorem OwnersOk.lockWithSharing {request : LockType} {nonBlocking jump : Bool}
    (h : OwnersOk registry l.owners) (hs : SharesWithin registry u shares) :
    OwnersOk registry (l.lockWithSharing request u nonBlocking jump shares).2.owners := by
  rw [LockImpl.owners_lockWithSharing]
  exact h.tryLock hs

theorem OwnersOk.tryWaiter {w : LockInfo} (h : OwnersOk registry l.owners) :
    OwnersOk registry (l.tryWaiter w shares).2.owners := by
  unfold LockImpl.tryWaiter
  split
  · exact h
  · exact h.tryLock fun _ hv => by cases hv

/-- The wake-up loop keeps the owners compatible: it grants without sharing. -/
theorem OwnersOk.grantWaiters (n : ℕ) (h : OwnersOk registry l.owners) :
    OwnersOk registry (LockImpl.grantWaiters shares n l).2.owners := by
  induction n generalizing l with
  | zero => exact h
  | succ n ih =>
    unfold LockImpl.grantWaiters
    split
    · exact h
    · next w _ =>
      simp only
      split
      · exact ih (by simpa using h.tryWaiter)
      · exact h

theorem OwnersOk.releaseWithSharing (h : OwnersOk registry l.owners) :
    OwnersOk registry (l.releaseWithSharing u shares).2.owners := by
  unfold LockImpl.releaseWithSharing
  split
  · exact h
  · next l' hflush => exact (h.sublist (LockImpl.owners_flushOwner hflush)).grantWaiters _

theorem LockImpl.demotedType_allow {a t : LockType} (ht : t.isWriteLock)
    (h : a.getConflict t = .allow) : a.getConflict (demotedType t) = .allow := by
  revert ht h
  cases a <;> cases t <;> decide

theorem OwnersOk.demote (h : OwnersOk registry l.owners) :
    OwnersOk registry (l.demote u).owners := by
  unfold LockImpl.demote
  split
  · next o ho =>
    split
    · next hwrite =>
      have hmem : o ∈ l.owners := List.mem_of_find?_eq_some ho
      have hou : o.locker = u := by simpa using List.find?_some ho
      refine h.change ?_ (fun a ha => LockImpl.mem_updateOwnerType ha) ?_
      · rw [LockImpl.map_locker_updateOwnerType]
        exact h.nodup
      · intro a ha hau hshare
        refine LockImpl.demotedType_allow hwrite (h.allow a ha o hmem (hou ▸ hau) ?_)
        rw [registry.sharesFn_comm, hou]
        exact hshare
    · exact h
  · exact h

end

/-- **Every call keeps the owners of a lock compatible and distinct.** -/
theorem OwnersOk.apply {registry : ShareRegistry} {l : Lock}
    (h : OwnersOk registry l.owners) (call : LockCall) :
    OwnersOk registry (l.apply registry call).owners := by
  cases l with
  | thin owner =>
    -- a thin lock has at most one owner
    have hthin : ∀ owner' : Option LockInfo, OwnersOk registry (Lock.thin owner').owners := by
      intro owner'
      cases owner' with
      | none => exact .nil
      | some o => exact .singleton o
    cases call with
    | lock request u nonBlocking jump sharing =>
      simp only [Lock.apply, Lock.lockWithSharing]
      split
      · exact hthin _
      · next existing _ =>
        exact OwnersOk.lockWithSharing (.singleton existing)
          (registry.passed_within sharing u)
    | release u sharing =>
      simp only [Lock.apply, Lock.releaseWithSharing]
      split <;> exact hthin _
    | demote u => exact hthin _
    | flushWaiter u => exact hthin _
    | stealLock u preemptable => exact hthin _
  | full impl =>
    have h : OwnersOk registry impl.owners := h
    cases call with
    | lock request u nonBlocking jump sharing =>
      exact h.lockWithSharing (registry.passed_within sharing u)
    | release u sharing => exact h.releaseWithSharing
    | demote u => exact h.demote
    | flushWaiter u =>
      change OwnersOk registry (impl.flushWaiter u).owners
      rwa [LockImpl.owners_flushWaiter]
    | stealLock u preemptable =>
      exact h.sublist (impl.owners_stealLockPreemptable u preemptable)

/-- The owners stay compatible along any calls. -/
theorem OwnersOk.foldl_apply {registry : ShareRegistry} {l : Lock}
    (h : OwnersOk registry l.owners) (calls : List LockCall) :
    OwnersOk registry (calls.foldl (Lock.apply registry) l).owners :=
  List.foldlRecOn (motive := fun l : Lock => OwnersOk registry l.owners) calls _ h
    fun _ ih call _ => ih.apply call

/-- A write owner excludes readers and writers. -/
theorem LockType.not_of_isWriteLock {a b : LockType} (hw : a.isWriteLock)
    (h : a.getConflict b = .allow) :
    b ≠ .read ∧ b ≠ .rangeRead ∧ b ≠ .write ∧ b ≠ .rangeWrite := by
  revert hw h
  cases a <;> cases b <;> decide

/-- **After any calls on a lock**, in thin or full form: no locker is an owner twice, and
two owners of different sharing groups hold types that do not conflict. -/
theorem owners_stay_compatible (registry : ShareRegistry) (full : Bool)
    (calls : List LockCall) :
    (((calls.foldl (Lock.apply registry) (Lock.new full)).owners.map LockInfo.locker).Nodup ∧
    ∀ a ∈ (calls.foldl (Lock.apply registry) (Lock.new full)).owners,
      ∀ b ∈ (calls.foldl (Lock.apply registry) (Lock.new full)).owners,
        a.locker ≠ b.locker → registry.sharesFn a.locker b.locker = false →
        a.lockType.getConflict b.lockType = .allow ∧
        (a.lockType.isWriteLock → b.lockType ≠ .read ∧ b.lockType ≠ .rangeRead ∧
          b.lockType ≠ .write ∧ b.lockType ≠ .rangeWrite) ∧
        (a.lockType = .rangeInsert → b.lockType ≠ .rangeRead ∧ b.lockType ≠ .rangeWrite)) := by
  have hstart : OwnersOk registry (Lock.new full).owners := by
    cases full <;> exact .nil
  have hok := hstart.foldl_apply calls
  refine ⟨hok.nodup, fun a ha b hb hab hshare => ?_⟩
  have hallow := hok.allow a ha b hb hab hshare
  refine ⟨hallow, fun hw => LockType.not_of_isWriteLock hw hallow, fun hins => ?_⟩
  rw [hins] at hallow
  revert hallow
  cases b.lockType <;> decide

end Noxu
