import Noxu.Txn.LockImpl

/-!
# Thin and Full Locks

A lock is created thin and turns full when a second locker asks for it. The thin form is an
implementation of its own: it has one owner and no waiters, and it answers what a full lock
with that owner would answer. **Its demotion does not look at the locker**: whoever asks, the
write lock of the owner becomes a read lock.

## Main results

* `Lock.op_inflate`: one operation on a thin lock and on the full lock with its owner;
* `thin_agrees_iff`: **two locks that start in the two forms agree along a sequence of
  operations exactly if no demotion in it hits the write lock of another locker.**
-/

namespace Noxu

/-! ### The operations and their answers -/

/-- The questions about the owners and the waiters of a lock. -/
inductive LockQuery
  | isOwner (u : Locker) (t : LockType)
  | isOwnedWriteLock (u : Locker)
  | getOwnedLockType (u : Locker)
  | getWriteOwnerLockerId
  | isWaiter (u : Locker)
  | nOwners
  | nWaiters

/-- What an operation returns. -/
inductive LockAnswer
  | attempt (result : LockAttemptResult)
  | notify (waiters : Option (List Locker))
  | preempted (owners : List Locker)
  | done
  | yesNo (answer : Bool)
  | lockType (t : Option LockType)
  | locker (u : Option Locker)
  | number (n : ℕ)
  deriving DecidableEq

/-- A call, or a question. -/
inductive LockOp
  | call (call : LockCall)
  | query (query : LockQuery)

/-- Does `steal_lock_preemptable` remove the owner? -/
def isPreempted (u : Locker) (preemptable : Locker → Bool) (o : LockInfo) : Bool :=
  decide (o.locker ≠ u) && preemptable o.locker

/-- The owners that `ThinLockImpl::steal_lock_preemptable` returns. -/
def ThinLockImpl.preempted (owner : Option LockInfo) (u : Locker) (preemptable : Locker → Bool) :
    List Locker :=
  (owner.filter (isPreempted u preemptable)).toList.map LockInfo.locker

/-- The owners that `LockImpl::steal_lock_preemptable` returns: the first one, then the set. -/
def LockImpl.preempted (l : LockImpl) (u : Locker) (preemptable : Locker → Bool) : List Locker :=
  ((l.firstOwner.filter (isPreempted u preemptable)).toList ++
    (l.ownerSet.getD []).filter (isPreempted u preemptable)).map LockInfo.locker

/-- The answers of a thin lock. -/
def ThinLockImpl.query (owner : Option LockInfo) : LockQuery → LockAnswer
  | .isOwner u t => .yesNo (owner.any fun o => decide (o.locker = u) && decide (o.lockType = t))
  | .isOwnedWriteLock u =>
    .yesNo (owner.any fun o => decide (o.locker = u) && o.lockType.isWriteLock)
  | .getOwnedLockType u =>
    .lockType (owner.bind fun o => if o.locker = u then some o.lockType else none)
  | .getWriteOwnerLockerId =>
    .locker (owner.bind fun o => if o.lockType.isWriteLock then some o.locker else none)
  | .isWaiter _ => .yesNo false
  | .nOwners => .number (if owner.isSome then 1 else 0)
  | .nWaiters => .number 0

/-- The answers of a full lock. -/
def LockImpl.query (l : LockImpl) : LockQuery → LockAnswer
  | .isOwner u t => .yesNo ((l.getOwnerLockInfo u).any fun o => decide (o.lockType = t))
  | .isOwnedWriteLock u => .yesNo ((l.getOwnerLockInfo u).any fun o => o.lockType.isWriteLock)
  | .getOwnedLockType u => .lockType ((l.getOwnerLockInfo u).map LockInfo.lockType)
  | .getWriteOwnerLockerId =>
    .locker ((l.owners.find? fun o => o.lockType.isWriteLock).map LockInfo.locker)
  | .isWaiter u => .yesNo (l.waiters.any fun w => decide (w.locker = u))
  | .nOwners => .number l.nOwners
  | .nWaiters => .number l.nWaiters

namespace Lock

variable (registry : ShareRegistry)

/-- What an operation answers. -/
def answer (l : Lock) : LockOp → LockAnswer
  | .call (.lock request u nonBlocking jump sharing) =>
    .attempt (l.lockWithSharing request u nonBlocking jump (registry.passed sharing u)).1
  | .call (.release u sharing) => .notify (l.releaseWithSharing u (registry.passed sharing u)).1
  | .call (.demote _) | .call (.flushWaiter _) => .done
  | .call (.stealLock u preemptable) =>
    .preempted (match l with
      | thin owner => ThinLockImpl.preempted owner u preemptable
      | full impl => impl.preempted u preemptable)
  | .query q =>
    match l with
    | thin owner => ThinLockImpl.query owner q
    | full impl => impl.query q

/-- The lock after an operation. -/
def next (l : Lock) : LockOp → Lock
  | .call call => l.apply registry call
  | .query _ => l

/-- Along a sequence of operations, the answer of each and the owners after it. -/
def transcript : Lock → List LockOp → List (LockAnswer × List LockInfo)
  | _, [] => []
  | l, op :: ops =>
    (l.answer registry op, (l.next registry op).owners) :: transcript (l.next registry op) ops

end Lock

/-! ### Demotions -/

/-- The operation is no demotion of a thin lock, or it is by the owner, or there is no write
lock to demote. -/
def Lock.DemotesOwn (l : Lock) : LockOp → Prop
  | .call (.demote u) =>
    match l with
    | .thin (some o) => o.locker = u ∨ o.lockType.isWriteLock = false
    | _ => True
  | _ => True

/-- Every operation of the sequence does so, on the lock as it is then. -/
def Lock.DemotionsOwn (registry : ShareRegistry) : Lock → List LockOp → Prop
  | _, [] => True
  | l, op :: ops => l.DemotesOwn op ∧ DemotionsOwn registry (l.next registry op) ops

/-! ### A thin lock and its full form -/

/-- The full lock with the owner of a thin one. -/
def inflated (owner : Option LockInfo) : LockImpl :=
  { LockImpl.new with firstOwner := owner }

/-- The two locks are one full lock, or one is thin and the other its full form. -/
inductive Lock.Alike : Lock → Lock → Prop
  | same (impl : LockImpl) : Alike (.full impl) (.full impl)
  | inflate (owner : Option LockInfo) : Alike (.thin owner) (.full (inflated owner))

theorem Lock.Alike.owners_eq {l l' : Lock} (h : l.Alike l') : l.owners = l'.owners := by
  cases h with
  | same impl => rfl
  | inflate owner => exact (List.append_nil _).symm

section

variable {registry : ShareRegistry}

/-- A request of the owner never asks a thin lock for the full form. -/
theorem ThinLockImpl.lock_ne_error (o e : LockInfo) (request : LockType) :
    ThinLockImpl.lock (some o) request o.locker ≠ .error e := by
  unfold ThinLockImpl.lock
  simp only [ne_eq, not_true_eq_false, if_false]
  by_cases hill : o.lockType.getUpgrade request = .illegal
  · simp [hill]
  · cases (o.lockType.getUpgrade request).getUpgradeType <;> simp [hill]

/-- A request of the owner is answered alike. -/
theorem lockWithSharing_inflated (o : LockInfo) (request : LockType) (nonBlocking jump : Bool)
    (shares : Locker → Bool) {r : LockGrantType × Option LockInfo}
    (h : ThinLockImpl.lock (some o) request o.locker = .ok r) :
    (inflated (some o)).lockWithSharing request o.locker nonBlocking jump shares =
      (.grant r.1, inflated r.2) := by
  have howners : (inflated (some o)).owners = [o] := rfl
  unfold ThinLockImpl.lock at h
  unfold LockImpl.lockWithSharing LockImpl.tryLockWithSharing
  rw [LockImpl.nOwners, howners]
  simp only [LockImpl.scanOwners]
  by_cases hill : o.lockType.getUpgrade request = .illegal
  · obtain rfl : (.illegalUpgrade, some o) = r := by simpa [hill] using h
    simp [hill]
  · cases hup : (o.lockType.getUpgrade request).getUpgradeType with
    | none =>
      obtain rfl : (.existing, some o) = r := by simpa [hill, hup] using h
      simp [hill]
    | some new =>
      obtain rfl : (if (o.lockType.getUpgrade request).isPromotion then .promotion
          else .existing, some { o with lockType := new }) = r := by
        simpa [hill, hup] using h
      cases hpro : (o.lockType.getUpgrade request).isPromotion <;>
        simp [hill, hup, hpro, LockImpl.updateOwnerType, inflated, LockImpl.new]

theorem releaseWithSharing_inflated (owner : Option LockInfo) (u : Locker)
    (shares : Locker → Bool) :
    (inflated owner).releaseWithSharing u shares =
      if owner.any (·.locker = u) then (some [], inflated none) else (none, inflated owner) := by
  unfold LockImpl.releaseWithSharing LockImpl.flushOwner
  by_cases hu : owner.any (·.locker = u) = true
  · rw [if_pos hu, if_pos (show (inflated owner).firstOwner.any (·.locker = u) = true from hu)]
    rfl
  · rw [if_neg hu, if_neg (show ¬ (inflated owner).firstOwner.any (·.locker = u) = true from hu)]
    rfl

/-- The full form lets the owner alone demote its lock. -/
theorem demote_inflated (o : LockInfo) (u : Locker) :
    (inflated (some o)).demote u =
      inflated (if o.locker = u then ThinLockImpl.demote (some o) else some o) := by
  have howners : (inflated (some o)).owners = [o] := rfl
  unfold LockImpl.demote LockImpl.getOwnerLockInfo
  rw [howners]
  by_cases hu : o.locker = u
  · by_cases hw : o.lockType.isWriteLock = true <;>
      simp [hu, hw, ThinLockImpl.demote, LockImpl.updateOwnerType, inflated, LockImpl.new]
  · simp [hu]

theorem query_inflated (owner : Option LockInfo) (q : LockQuery) :
    (inflated owner).query q = ThinLockImpl.query owner q := by
  cases owner with
  | none => cases q <;> rfl
  | some o =>
    have howners : (inflated (some o)).owners = [o] := rfl
    have hinfo : ∀ u, (inflated (some o)).getOwnerLockInfo u =
        if o.locker = u then some o else none := by
      intro u
      by_cases hu : o.locker = u <;> simp [LockImpl.getOwnerLockInfo, howners, hu]
    cases q with
    | isOwner u t | isOwnedWriteLock u | getOwnedLockType u =>
      by_cases hu : o.locker = u <;> simp [LockImpl.query, ThinLockImpl.query, hinfo, hu]
    | getWriteOwnerLockerId =>
      by_cases hw : o.lockType.isWriteLock <;>
        simp [LockImpl.query, ThinLockImpl.query, howners, hw]
    | isWaiter u | nOwners | nWaiters => rfl

/-- **One operation on a thin lock and on its full form**, demotions apart. -/
theorem Lock.op_inflate (owner : Option LockInfo) {op : LockOp}
    (hop : ∀ u, op ≠ .call (.demote u)) :
    (Lock.thin owner).answer registry op = (Lock.full (inflated owner)).answer registry op ∧
      Alike ((Lock.thin owner).next registry op)
        ((Lock.full (inflated owner)).next registry op) := by
  cases op with
  | query q => exact ⟨(query_inflated owner q).symm, .inflate owner⟩
  | call call =>
    cases call with
    | lock request u nonBlocking jump sharing =>
      simp only [answer, next, Lock.apply, Lock.lockWithSharing]
      cases owner with
      | none => exact ⟨rfl, .inflate _⟩
      | some o =>
        by_cases hu : o.locker = u
        · subst hu
          cases hthin : ThinLockImpl.lock (some o) request o.locker with
          | ok r =>
            rw [lockWithSharing_inflated o request nonBlocking jump _ hthin]
            exact ⟨rfl, .inflate _⟩
          | error e => exact absurd hthin (ThinLockImpl.lock_ne_error o e request)
        · have hthin : ThinLockImpl.lock (some o) request u = .error o := if_pos hu
          rw [hthin]
          exact ⟨rfl, .same _⟩
    | release u sharing =>
      simp only [answer, next, Lock.apply, Lock.releaseWithSharing]
      rw [releaseWithSharing_inflated]
      split <;> exact ⟨rfl, .inflate _⟩
    | demote u => exact absurd rfl (hop u)
    | flushWaiter u => exact ⟨rfl, .inflate _⟩
    | stealLock u preemptable =>
      refine ⟨congrArg LockAnswer.preempted ?_, .inflate _⟩
      simp [ThinLockImpl.preempted, LockImpl.preempted, inflated, LockImpl.new]

/-- **A demotion of a thin lock and of its full form** gives the same owners exactly if it is
by the owner or finds no write lock; then the locks stay alike. -/
theorem Lock.demote_inflate (owner : Option LockInfo) (u : Locker) :
    ((Lock.thin owner).DemotesOwn (.call (.demote u)) ∧
      Alike ((Lock.thin owner).demote u) ((Lock.full (inflated owner)).demote u)) ∨
    (¬ (Lock.thin owner).DemotesOwn (.call (.demote u)) ∧
      ((Lock.thin owner).demote u).owners ≠ ((Lock.full (inflated owner)).demote u).owners) := by
  cases owner with
  | none => exact .inl ⟨trivial, .inflate none⟩
  | some o =>
    simp only [Lock.demote, demote_inflated]
    by_cases hu : o.locker = u
    · rw [if_pos hu]
      exact .inl ⟨.inl hu, .inflate _⟩
    · rw [if_neg hu]
      cases hw : o.lockType.isWriteLock with
      | false =>
        have hsame : ThinLockImpl.demote (some o) = some o := by simp [ThinLockImpl.demote, hw]
        rw [hsame]
        exact .inl ⟨.inr hw, .inflate _⟩
      | true =>
        refine .inr ⟨fun hown => ?_, fun heq => ?_⟩
        · obtain hown | hown := hown
          · exact hu hown
          · rw [hw] at hown
            cases hown
        · -- a write lock is not what it is demoted to
          have hinfo : { o with lockType := LockImpl.demotedType o.lockType } = o := by
            simpa [ThinLockImpl.demote, hw] using List.singleton_inj.mp heq
          have htype : LockImpl.demotedType o.lockType = o.lockType :=
            congrArg LockInfo.lockType hinfo
          revert htype hw
          cases o.lockType <;> decide

end

/-! ### Sequences of operations -/

section

variable {registry : ShareRegistry}

theorem Lock.next_full (registry : ShareRegistry) (impl : LockImpl) (op : LockOp) :
    ∃ impl', (Lock.full impl).next registry op = .full impl' := by
  cases op with
  | query q => exact ⟨impl, rfl⟩
  | call call => cases call <;> exact ⟨_, rfl⟩

/-- A full lock looks at the locker of a demotion. -/
theorem Lock.demotionsOwn_full (impl : LockImpl) (ops : List LockOp) :
    (Lock.full impl).DemotionsOwn registry ops := by
  induction ops generalizing impl with
  | nil => trivial
  | cons op ops ih =>
    obtain ⟨impl', hnext⟩ := Lock.next_full registry impl op
    refine ⟨?_, hnext ▸ ih impl'⟩
    cases op with
    | query q => trivial
    | call call => cases call <;> trivial

theorem Lock.Alike.transcript_iff {l l' : Lock} (h : l.Alike l') (ops : List LockOp) :
    l.transcript registry ops = l'.transcript registry ops ↔ l.DemotionsOwn registry ops := by
  induction ops generalizing l l' with
  | nil => exact iff_of_true rfl trivial
  | cons op ops ih =>
    cases h with
    | same impl => exact iff_of_true rfl (Lock.demotionsOwn_full impl _)
    | inflate owner =>
      -- the step agrees and is allowed, or neither
      have hstep : ((Lock.thin owner).DemotesOwn op ∧
          (Lock.thin owner).answer registry op =
            (Lock.full (inflated owner)).answer registry op ∧
          Alike ((Lock.thin owner).next registry op)
            ((Lock.full (inflated owner)).next registry op)) ∨
          ¬ (Lock.thin owner).DemotesOwn op ∧
            ((Lock.thin owner).next registry op).owners ≠
              ((Lock.full (inflated owner)).next registry op).owners := by
        by_cases hop : ∃ u, op = .call (.demote u)
        · obtain ⟨u, rfl⟩ := hop
          exact (Lock.demote_inflate owner u).imp_left fun hown => ⟨hown.1, rfl, hown.2⟩
        · have hop' : ∀ u, op ≠ .call (.demote u) := fun u hu => hop ⟨u, hu⟩
          refine .inl ⟨?_, Lock.op_inflate owner hop'⟩
          cases op with
          | query q => trivial
          | call call =>
            cases call <;> first | trivial | exact absurd rfl (hop' _)
      unfold Lock.transcript Lock.DemotionsOwn
      rw [List.cons.injEq, Prod.mk.injEq]
      obtain ⟨hown, hanswer, halike⟩ | ⟨hnot, hne⟩ := hstep
      · rw [ih halike]
        exact and_congr_left fun _ => iff_of_true ⟨hanswer, halike.owners_eq⟩ hown
      · exact iff_of_false (fun hc => hne hc.1.2) fun hc => hnot hc.1

/-- **Thin and full locks.** Two locks that start in the two forms give the same answers and
have the same owners after every operation exactly if every demotion of the thin one is by its
owner or finds no write lock. A release by a locker that owns nothing changes nothing in
either form, and a demotion by one changes nothing exactly under this condition. -/
theorem thin_agrees_iff (registry : ShareRegistry) :
    (∀ ops, (Lock.new false).transcript registry ops = (Lock.new true).transcript registry ops ↔
      (Lock.new false).DemotionsOwn registry ops) ∧
    ∀ (l : Lock) (u : Locker), (∀ o ∈ l.owners, o.locker ≠ u) →
      (∀ shares, l.releaseWithSharing u shares = (none, l)) ∧
      (l.demote u = l ↔ l.DemotesOwn (.call (.demote u))) := by
  refine ⟨(Lock.Alike.inflate none).transcript_iff, fun l u hnot => ?_⟩
  cases l with
  | thin owner =>
    cases owner with
    | none => exact ⟨fun _ => rfl, iff_of_true rfl trivial⟩
    | some o =>
      have hne : o.locker ≠ u := hnot o (List.mem_singleton_self o)
      refine ⟨fun shares => by simp [Lock.releaseWithSharing, hne], ?_⟩
      obtain ⟨hown, -⟩ | ⟨hother, hdiffer⟩ := Lock.demote_inflate (some o) u
      · have hread := hown.resolve_left hne
        exact iff_of_true (by simp [Lock.demote, ThinLockImpl.demote, hread]) hown
      · refine iff_of_false (fun hsame => hdiffer ?_) hother
        rw [hsame, Lock.demote, demote_inflated, if_neg hne]
        rfl
  | full impl =>
    have howners : ∀ o ∈ impl.owners, o.locker ≠ u := hnot
    obtain ⟨hfirst, hset⟩ := List.forall_mem_append.mp howners
    have hflush : impl.flushOwner u = none := by
      unfold LockImpl.flushOwner
      rw [if_neg, if_neg]
      · simpa using hset
      · simpa [Option.any_eq_false] using hfirst
    have hinfo : impl.getOwnerLockInfo u = none :=
      List.find?_eq_none.mpr fun o ho => by simpa using howners o ho
    refine ⟨fun shares => ?_, iff_of_true ?_ trivial⟩
    · simp [Lock.releaseWithSharing, LockImpl.releaseWithSharing, hflush]
    · simp [Lock.demote, LockImpl.demote, hinfo]

/-- Locker 1 takes a write lock, and locker 2 demotes it. -/
def foreignDemotion : List LockOp :=
  [.call (.lock .write 1 false false false), .call (.demote 2)]

/-- **The thin lock lets a stranger demote the write lock of its owner.** -/
theorem thin_demotes_for_stranger :
    ((Lock.new false).transcript (fun _ => none) foreignDemotion).map Prod.snd =
        [[⟨1, .write⟩], [⟨1, .read⟩]] ∧
      ((Lock.new true).transcript (fun _ => none) foreignDemotion).map Prod.snd =
        [[⟨1, .write⟩], [⟨1, .write⟩]] := by
  decide

end

end Noxu
