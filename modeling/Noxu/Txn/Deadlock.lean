import Mathlib.Algebra.Order.BigOperators.Group.List
import Mathlib.Algebra.Order.Group.Nat
import Mathlib.Data.List.Dedup
import Noxu.Txn.LockManager

/-!
# Deadlock Detection

A locker waits for another if it is blocked on a lock that the other owns. The check a
blocked locker makes searches the recorded graph, not this relation, and it acts only if it
computes itself to be the victim. What its search can find is a set of paths of the recorded
graph, one for each order of the hash sets; the check is right or wrong with them. If the graph is
**fresh**, every entry belongs to a blocked locker and lists the present owners of its lock, and
the paths are cycles of waits.

## Main results

* `detect_eq_some`, `not_transGen_of_detect`: the detector against the recorded graph;
* `selectVictim_spec`: the victim is preferred to every other member;
* `detect_exact`: what the detector finds on any graph;
* `always_victim_iff`, `ever_victim_iff`: who is made a victim, in every order of the hash sets or
  in some;
* `deadlock_checks_exact`: **in which states the checks of a cycle find a victim among its
  members, and in which no locker is made a victim that lies on no cycle.**
-/

namespace Noxu

open Library Relation

/-! ### The detector -/

section

variable {next : Locker → List Locker} {bound : ℕ} {requester : Locker}
  {owners path : List Locker}

/-- The path leads from the requester to the first of the owners from which it can be reached, and
along a simple path back; the requester itself is passed over as an owner. -/
def LeadsBack (next : Locker → List Locker) (requester : Locker)
    (owners path : List Locker) : Prop :=
  ∃ before owner after q, owners = before ++ owner :: after ∧
    (∀ o ∈ before, o ≠ requester → ¬ TransGen (fun x y => y ∈ next x) o requester) ∧
    owner ≠ requester ∧ SimplePath next requester owner q ∧
    path = [requester, owner] ++ (q ++ [requester])

theorem LeadsBack.cons {o : Locker}
    (ho : o ≠ requester → ¬ TransGen (fun x y => y ∈ next x) o requester)
    (h : LeadsBack next requester owners path) : LeadsBack next requester (o :: owners) path := by
  obtain ⟨before, owner, after, q, rfl, hbefore, hfound⟩ := h
  exact ⟨o :: before, owner, after, q, rfl, List.forall_mem_cons.mpr ⟨ho, hbefore⟩, hfound⟩

theorem LeadsBack.transGen (h : LeadsBack next requester owners path) :
    ∃ owner ∈ owners, owner ≠ requester ∧
      TransGen (fun x y => y ∈ next x) owner requester := by
  obtain ⟨before, owner, after, q, rfl, -, hne, hq, -⟩ := h
  exact ⟨owner, by simp, hne, hq.transGen⟩

/-- From another vertex, the edges out of the target do not bear on reaching it. -/
theorem transGen_congr {next' : Locker → List Locker}
    (heq : ∀ x ≠ requester, ∀ y, y ∈ next x ↔ y ∈ next' x) {o : Locker} (ho : o ≠ requester)
    (h : TransGen (fun x y => y ∈ next x) o requester) :
    TransGen (fun x y => y ∈ next' x) o requester := by
  induction h using TransGen.head_induction_on with
  | single hstep => exact .single ((heq _ ho _).mp hstep)
  | @head x y hstep _ ih =>
    have hstep' := (heq x ho y).mp hstep
    by_cases hy : y = requester
    · exact .single (hy ▸ hstep')
    · exact .head hstep' (ih hy)

theorem LeadsBack.congr {next' : Locker → List Locker}
    (heq : ∀ x ≠ requester, ∀ y, y ∈ next x ↔ y ∈ next' x)
    (h : LeadsBack next requester owners path) : LeadsBack next' requester owners path := by
  obtain ⟨before, owner, after, q, howners, hbefore, hne, hq, hpath⟩ := h
  refine ⟨before, owner, after, q, howners, fun o ho hor hreach => ?_, hne, hq.congr heq hne, hpath⟩
  exact hbefore o ho hor (transGen_congr (fun x hx y => (heq x hx y).symm) hor hreach)

variable {vertices : List Locker}

/-- A cycle that is found leads from the requester back to it. -/
theorem detect_eq_some (hvert : ∀ x, next x ≠ [] → x ∈ vertices)
    (hbound : vertices.length < bound) (h : detect next bound requester owners = some path) :
    LeadsBack next requester owners path := by
  induction owners with
  | nil => cases h
  | cons o os ih =>
    unfold detect at h
    by_cases ho : o = requester
    · rw [if_pos ho] at h
      exact (ih h).cons fun hne => absurd ho hne
    · rw [if_neg ho] at h
      dsimp only at h
      split at h
      · next hfound =>
        obtain ⟨q, hq, hsimple, -⟩ := reaches_of_dfs hfound
        obtain rfl := Option.some.inj h
        exact ⟨[], o, os, q, rfl, by simp, ho, hsimple, hq⟩
      · next hfound =>
        exact (ih h).cons fun _ => not_transGen_of_dfs hvert hbound (by simpa using hfound)

/-- The search finds the simple path it is steered along, from the first owner that leads back. -/
theorem detect_of_heads {before after : List Locker} {owner : Locker} {q : List Locker}
    (hbefore : ∀ o ∈ before, o ≠ requester → ¬ TransGen (fun x y => y ∈ next x) o requester)
    (hne : owner ≠ requester)
    (hheads : List.IsChain (fun x y => (next x).head? = some y) (owner :: (q ++ [requester])))
    (hq : SimplePath next requester owner q) (hbound : q.length < bound) :
    detect next bound requester (before ++ owner :: after) =
      some ([requester, owner] ++ (q ++ [requester])) := by
  induction before with
  | nil =>
    obtain ⟨hfound, hpath⟩ := dfs_of_heads [] [requester, owner] hheads hq.nodup
      hq.avoids (by simp) hbound
    rw [List.nil_append, detect, if_neg hne]
    dsimp only
    rw [hfound, if_pos rfl, hpath]
  | cons o before ih =>
    obtain ⟨ho, hbefore⟩ := List.forall_mem_cons.mp hbefore
    rw [List.cons_append, detect]
    by_cases hor : o = requester
    · rw [if_pos hor, ih hbefore]
    · rw [if_neg hor]
      dsimp only
      rw [if_neg, ih hbefore]
      intro hfound
      obtain ⟨p, -, hp, -⟩ := reaches_of_dfs hfound
      exact ho hor hp.transGen

/-- Without a cycle no owner leads back to the requester. -/
theorem not_transGen_of_detect
    (hvert : ∀ x, next x ≠ [] → x ∈ vertices) (hbound : vertices.length < bound)
    (h : detect next bound requester owners = none) :
    ∀ owner ∈ owners, owner ≠ requester →
      ¬ TransGen (fun x y => y ∈ next x) owner requester := by
  induction owners with
  | nil => simp
  | cons o os ih =>
    unfold detect at h
    by_cases ho : o = requester
    · rw [if_pos ho] at h
      exact List.forall_mem_cons.mpr ⟨fun hne => absurd ho hne, ih h⟩
    · rw [if_neg ho] at h
      dsimp only at h
      split at h
      · cases h
      · next hfound =>
        refine List.forall_mem_cons.mpr ⟨fun _ => ?_, ih h⟩
        exact not_transGen_of_dfs hvert hbound (by simpa using hfound)

/-- The bound plays no part once it exceeds the number of lockers that wait. -/
theorem detect_eq_of_lt (hvert : ∀ x, next x ≠ [] → x ∈ vertices)
    {m n : ℕ} (hm : vertices.length < m) (hn : vertices.length < n) :
    detect next m requester owners = detect next n requester owners := by
  have hall : unvisited vertices [] = vertices.length := by simp [unvisited]
  induction owners with
  | nil => rfl
  | cons o os ih =>
    unfold detect
    rw [ih, dfs_eq_of_lt hvert (hall ▸ hm) (hall ▸ hn)]

end

/-! ### The victim -/

section

variable {counts : Locker → ℕ} {u v w : ℕ}

theorem preferred_iff :
    preferred counts u v ↔ counts u < counts v ∨ counts u = counts v ∧ v < u := by
  simp [preferred]

theorem preferred_trans (huv : preferred counts u v) (hvw : preferred counts v w) :
    preferred counts u w := by
  rw [preferred_iff] at huv hvw ⊢
  omega

theorem preferred_asymm (huv : preferred counts u v) : ¬ preferred counts v u := by
  rw [preferred_iff] at huv ⊢
  omega

theorem preferred_total (hne : u ≠ v) (hnot : ¬ preferred counts u v) :
    preferred counts v u := by
  rw [preferred_iff] at hnot ⊢
  omega

/-- The fold keeps a member that is preferred to all it has seen. -/
theorem foldl_preferred (counts : Locker → ℕ) (us : List Locker) (best : Locker) :
    us.foldl (fun best v => if preferred counts v best then v else best) best ∈ best :: us ∧
    ∀ w ∈ best :: us,
      w ≠ us.foldl (fun best v => if preferred counts v best then v else best) best →
      preferred counts
        (us.foldl (fun best v => if preferred counts v best then v else best) best) w := by
  induction us generalizing best with
  | nil => simp
  | cons v vs ih =>
    rw [List.foldl_cons]
    by_cases hv : preferred counts v best
    · rw [if_pos hv]
      obtain ⟨hmem, hpref⟩ := ih v
      refine ⟨List.mem_cons_of_mem _ hmem, List.forall_mem_cons.mpr ⟨fun hne => ?_, hpref⟩⟩
      by_cases heq : v = vs.foldl (fun best v => if preferred counts v best then v else best) v
      · rwa [← heq]
      · exact preferred_trans (hpref v List.mem_cons_self heq) hv
    · rw [if_neg hv]
      obtain ⟨hmem, hpref⟩ := ih best
      refine ⟨?_, ?_⟩
      · obtain hmem | hmem := List.mem_cons.mp hmem
        · rw [hmem]
          exact List.mem_cons_self
        · exact List.mem_cons_of_mem _ (List.mem_cons_of_mem _ hmem)
      · intro w hw hne
        obtain rfl | hw := List.mem_cons.mp hw
        · exact hpref w List.mem_cons_self hne
        obtain rfl | hw := List.mem_cons.mp hw
        · by_cases hwb : w = best
          · exact hpref w (hwb ▸ List.mem_cons_self) hne
          · have hbw := preferred_total hwb hv
            by_cases heq : best =
                vs.foldl (fun best v => if preferred counts v best then v else best) best
            · rwa [← heq]
            · exact preferred_trans (hpref best List.mem_cons_self heq) hbw
        · exact hpref w (List.mem_cons_of_mem _ hw) hne

/-- **The victim** is a member and preferred to every other one. -/
theorem selectVictim_spec (counts : Locker → ℕ) (cycle : List Locker) (hne : cycle ≠ []) :
    ∃ victim, selectVictim counts cycle = some victim ∧ victim ∈ cycle ∧
      ∀ v ∈ cycle, v ≠ victim → preferred counts victim v := by
  cases cycle with
  | nil => exact absurd rfl hne
  | cons u us =>
    obtain ⟨hmem, hpref⟩ := foldl_preferred counts us u
    exact ⟨_, rfl, hmem, hpref⟩

end

/-! ### The detector on any graph -/

/-- The lockers that a locker waits for, in the order in which its hash set is iterated. -/
def waitingFor (waitsFor : AList fun _ : Locker => List Locker) (u : Locker) : List Locker :=
  (waitsFor.lookup u).getD []

theorem mem_keys_of_waitingFor {waitsFor : AList fun _ : Locker => List Locker} {u : Locker}
    (h : waitingFor waitsFor u ≠ []) : u ∈ waitsFor.keys := by
  by_contra hnot
  rw [waitingFor, AList.lookup_eq_none.mpr fun hmem => hnot (AList.mem_keys.mp hmem)] at h
  exact h rfl

/-- **The detector on any waits-for graph**, for any requester and owners of the lock: the
search ends, whatever bound above the number of waiting lockers it is given; it finds a cycle
exactly if an owner other than the requester reaches the requester; the cycle goes from the
requester to an owner and from there along edges back; and the victim is one of its
members. -/
theorem detect_exact (waitsFor : AList fun _ : Locker => List Locker) (requester : Locker)
    (ownerIds : List Locker) :
    (∀ bound, waitsFor.keys.length < bound →
      detect (waitingFor waitsFor) bound requester ownerIds =
        detect (waitingFor waitsFor) (waitsFor.keys.length + 1) requester ownerIds) ∧
    ((detect (waitingFor waitsFor) (waitsFor.keys.length + 1) requester ownerIds).isSome ↔
      ∃ owner ∈ ownerIds, owner ≠ requester ∧
        TransGen (fun x y => y ∈ waitingFor waitsFor x) owner requester) ∧
    ∀ cycle,
      detect (waitingFor waitsFor) (waitsFor.keys.length + 1) requester ownerIds = some cycle →
      (∃ owner ∈ ownerIds, owner ≠ requester ∧
        TransGen (fun x y => y ∈ waitingFor waitsFor x) owner requester ∧
        ∃ q, cycle = requester :: owner :: q ∧
        List.IsChain (fun x y => y ∈ waitingFor waitsFor x) (owner :: q) ∧
        cycle.getLast? = some requester) ∧
      ∀ counts, ∃ victim ∈ cycle, selectVictim counts cycle = some victim := by
  have hvert : ∀ x, waitingFor waitsFor x ≠ [] → x ∈ waitsFor.keys :=
    fun x hx => mem_keys_of_waitingFor hx
  refine ⟨fun bound hbound => detect_eq_of_lt hvert hbound (Nat.lt_succ_self _), ?_, ?_⟩
  · constructor
    · intro hsome
      obtain ⟨path, hpath⟩ := Option.isSome_iff_exists.mp hsome
      exact (detect_eq_some hvert (Nat.lt_succ_self _) hpath).transGen
    · rintro ⟨o, ho, hne, hreach⟩
      by_contra hnot
      have hnone := Option.not_isSome_iff_eq_none.mp hnot
      exact not_transGen_of_detect hvert (Nat.lt_succ_self _) hnone o ho hne hreach
  · intro cycle hcycle
    obtain ⟨before, o, after, q, rfl, -, hne, hq, rfl⟩ :=
      detect_eq_some hvert (Nat.lt_succ_self _) hcycle
    refine ⟨⟨o, by simp, hne, hq.transGen, q ++ [requester], rfl, hq.chain, ?_⟩, fun counts => ?_⟩
    · rw [← List.append_assoc, List.getLast?_concat]
    · obtain ⟨victim, hv, hmem, -⟩ :=
        selectVictim_spec counts ([requester, o] ++ (q ++ [requester])) (by simp)
      exact ⟨victim, hmem, hv⟩

/-- **The requester is passed over as an owner**: it owns the lock it asks for and waits for
locker 2, which waits for it. -/
theorem detect_passes_over_requester :
    ∃ waitsFor : AList fun _ : Locker => List Locker,
      detect (waitingFor waitsFor) (waitsFor.keys.length + 1) 1 [1] = none ∧
      TransGen (fun x y => y ∈ waitingFor waitsFor x) 1 1 := by
  refine ⟨AList.insert 2 [1] (AList.insert 1 [2] ∅), by decide, ?_⟩
  exact .tail (.single (b := 2) (by decide)) (by decide)

/-! ### Who waits for whom -/

namespace LockManager

/-- The lock a locker is blocked on: it is in the wait loop and does not own what it asked
for. -/
def blockedOn (s : LockManager) (u : Locker) : Option Lsn :=
  match s.threads.lookup u with
  | some (.waiting lsn request) => if s.isOwner lsn u request then none else some lsn
  | _ => none

/-- The other owners of the lock a locker is blocked on. -/
def waitList (s : LockManager) (u : Locker) : List Locker :=
  match s.blockedOn u with
  | some lsn => (s.ownerIds lsn).filter (· ≠ u)
  | none => []

/-- The locker is blocked on a lock that the other owns. -/
def WaitsFor (s : LockManager) (u v : Locker) : Prop := v ∈ s.waitList u

instance (s : LockManager) (u v : Locker) : Decidable (s.WaitsFor u v) :=
  inferInstanceAs (Decidable (v ∈ s.waitList u))

/-- Blocked lockers that wait for each other, each for the next and the last for the
first. -/
def WaitCycle (s : LockManager) : List Locker → Prop
  | [] => False
  | u :: us => List.IsChain s.WaitsFor (u :: us ++ [u])

instance (s : LockManager) : ∀ cycle, Decidable (s.WaitCycle cycle)
  | [] => .isFalse id
  | u :: us => inferInstanceAs (Decidable (List.IsChain s.WaitsFor (u :: us ++ [u])))

/-- **The graph is fresh**: every blocked locker is recorded with the present owners of its
lock, and nobody else is recorded. -/
structure GraphFresh (s : LockManager) : Prop where
  recorded : ∀ u ∈ s.threads.keys, ∀ lsn ∈ s.blockedOn u, ∃ os ∈ s.waiterGraph.lookup u,
    os ⊆ s.ownerIds lsn ∧ s.ownerIds lsn ⊆ os
  blocked : ∀ u ∈ s.waiterGraph.keys, (s.blockedOn u).isSome

instance (s : LockManager) : Decidable s.GraphFresh :=
  have recorded (u : Locker) : Decidable (∀ lsn ∈ s.blockedOn u,
      ∃ os ∈ s.waiterGraph.lookup u, os ⊆ s.ownerIds lsn ∧ s.ownerIds lsn ⊆ os) :=
    match s.blockedOn u, s.waiterGraph.lookup u with
    | none, _ => .isTrue nofun
    | some _, none => .isFalse (by simp)
    | some lsn, some os =>
      decidable_of_iff (os ⊆ s.ownerIds lsn ∧ s.ownerIds lsn ⊆ os) (by simp)
  decidable_of_iff
    ((∀ u ∈ s.threads.keys, ∀ lsn ∈ s.blockedOn u, ∃ os ∈ s.waiterGraph.lookup u,
      os ⊆ s.ownerIds lsn ∧ s.ownerIds lsn ⊆ os) ∧
      ∀ u ∈ s.waiterGraph.keys, (s.blockedOn u).isSome)
    ⟨fun h => ⟨h.1, h.2⟩, fun h => ⟨h.1, h.2⟩⟩

variable {s : LockManager} {u v : Locker} {lsn : Lsn}

theorem waitsFor_iff :
    s.WaitsFor u v ↔ ∃ lsn, s.blockedOn u = some lsn ∧ v ∈ s.ownerIds lsn ∧ v ≠ u := by
  unfold WaitsFor waitList
  cases s.blockedOn u with
  | none => simp
  | some lsn => simp

theorem mem_threads_of_blockedOn (h : s.blockedOn u = some lsn) : u ∈ s.threads.keys := by
  rw [← AList.mem_keys, ← AList.lookup_isSome]
  unfold blockedOn at h
  cases hl : s.threads.lookup u with
  | none =>
    rw [hl] at h
    cases h
  | some pc => rfl

theorem lockCount_pos (h : u ∈ s.ownerIds lsn) : 0 < s.lockCount u := by
  unfold ownerIds at h
  cases hl : s.table.lookup lsn with
  | none =>
    rw [hl] at h
    cases h
  | some lock =>
    rw [hl] at h
    refine lt_of_lt_of_le (List.count_pos_iff.mpr h) (List.single_le_sum (by simp) _ ?_)
    exact List.mem_map.mpr ⟨⟨lsn, lock⟩, AList.mem_lookup_iff.mp hl, rfl⟩

/-! ### What a check can find -/

/-- Every hash set is iterated over its own elements, in any order. -/
def Iterates (iterate : Locker → List Locker → List Locker) : Prop :=
  ∀ v l, (iterate v l).Perm l.dedup

theorem Iterates.mem_iff {iterate : Locker → List Locker → List Locker} (h : Iterates iterate)
    {v x : Locker} {l : List Locker} : x ∈ iterate v l ↔ x ∈ l := by
  rw [(h v l).mem_iff, List.mem_dedup]

/-- Hash sets iterated as they were filled. -/
def inOrder (_ : Locker) (l : List Locker) : List Locker := l.dedup

theorem iterates_inOrder : Iterates inOrder := fun _ _ => .refl _

/-- Some order of the hash sets has, at each vertex of a path, the next one first. -/
theorem exists_steering {edges : Locker → List Locker} {p : List Locker} (hp : p.Nodup)
    (hchain : List.IsChain (fun x y => y ∈ edges x) p) :
    ∃ iterate, Iterates iterate ∧
      List.IsChain (fun x y => (iterate x (edges x)).head? = some y) p := by
  induction p with
  | nil => exact ⟨inOrder, iterates_inOrder, .nil⟩
  | cons x p ih =>
    obtain ⟨hx, hp⟩ := List.nodup_cons.mp hp
    obtain ⟨iterate, hit, hheads⟩ := ih hp hchain.of_cons
    cases p with
    | nil => exact ⟨iterate, hit, .singleton x⟩
    | cons y p =>
      -- only the set of the first vertex is reordered
      let first (l : List Locker) := if y ∈ l then y :: l.dedup.erase y else l.dedup
      refine ⟨fun v l => if v = x then first l else iterate v l, fun v l => ?_, ?_⟩
      · dsimp only
        split
        · unfold first
          split
          · next hy => exact (List.perm_cons_erase (List.mem_dedup.mpr hy)).symm
          · exact .refl _
        · exact hit v l
      · refine .cons_cons ?_ (hheads.imp_of_mem_imp fun a b ha _ hab => ?_)
        · simp [first, hchain.rel]
        · have hax : a ≠ x := fun heq => hx (heq ▸ ha)
          dsimp only
          rwa [if_neg hax]

/-- **What the check of a locker can find**, in one or another order of the hash sets: a path from
the locker to the first owner of its lock that the recorded graph leads back from, and on along a
simple path of recorded edges. -/
def CanFind (s : LockManager) (u : Locker) (path : List Locker) : Prop :=
  ∃ lsn ∈ s.blockedOn u, LeadsBack (waitingFor s.waiterGraph) u (s.ownerIds lsn) path

/-- **The path blames the locker**: every member owns a lock, and the locker is preferred to every
other one as the victim. -/
def Blames (s : LockManager) (u : Locker) (path : List Locker) : Prop :=
  ∀ x ∈ path, 0 < s.lockCount x ∧ (x ≠ u → preferred s.lockCount u x)

section

variable {iterate : Locker → List Locker → List Locker} {path : List Locker}

/-- The search follows the recorded edges; only the requester may have another entry. -/
theorem mem_next_iff (hit : Iterates iterate) (os : List Locker) {x : Locker} (hx : x ≠ u)
    (y : Locker) :
    y ∈ iterate x (waitingFor (s.waitsForMap u os) x) ↔ y ∈ waitingFor s.waiterGraph x := by
  rw [hit.mem_iff, waitsForMap]
  split
  · rfl
  · rw [waitingFor, waitingFor, AList.lookup_insert_ne hx]

theorem mem_keys_of_next (hit : Iterates iterate) {waitsFor : AList fun _ : Locker => List Locker}
    (x : Locker) (h : iterate x (waitingFor waitsFor x) ≠ []) : x ∈ waitsFor.keys := by
  refine mem_keys_of_waitingFor fun hnil => ?_
  obtain ⟨y, hy⟩ := List.exists_mem_of_ne_nil _ h
  rw [hit.mem_iff, hnil] at hy
  cases hy

theorem selectVictim_eq_some_iff {counts : Locker → ℕ} (hu : u ∈ path) :
    selectVictim counts path = some u ↔ ∀ x ∈ path, x ≠ u → preferred counts u x := by
  obtain ⟨v, hv, hmem, hpref⟩ := selectVictim_spec counts path (List.ne_nil_of_mem hu)
  rw [hv, Option.some.injEq]
  constructor
  · rintro rfl
    exact hpref
  · intro hall
    by_contra hne
    exact preferred_asymm (hall v hmem hne) (hpref u hu (Ne.symm hne))

/-- What the search of a check returns. -/
def found (s : LockManager) (iterate : Locker → List Locker → List Locker) (u : Locker)
    (os : List Locker) : Option (List Locker) :=
  detect (fun v => iterate v (waitingFor (s.waitsForMap u os) v))
    ((s.waitsForMap u os).keys.length + 1) u os

/-- A check makes a victim of its locker if the path it finds blames it. -/
theorem checkDeadlock_iff (hit : Iterates iterate) :
    s.checkDeadlockForWaiter iterate u (s.ownerIds lsn) = true ↔
      ∃ path, s.found iterate u (s.ownerIds lsn) = some path ∧ s.Blames u path := by
  have hunfold : s.checkDeadlockForWaiter iterate u (s.ownerIds lsn) =
      (s.found iterate u (s.ownerIds lsn)).elim false fun cycle =>
        if cycle.any fun v => decide (s.lockCount v = 0) then false
        else decide (selectVictim s.lockCount cycle = some u) := by
    unfold checkDeadlockForWaiter found waitingFor
    dsimp only
    cases detect _ _ u (s.ownerIds lsn) <;> rfl
  rw [hunfold]
  cases hfound : s.found iterate u (s.ownerIds lsn) with
  | none => simp
  | some cycle =>
    rw [Option.elim_some]
    obtain ⟨before, o, after, q, -, -, -, -, rfl⟩ :=
      detect_eq_some (mem_keys_of_next hit) (Nat.lt_succ_self _) hfound
    simp only [Option.some.injEq, exists_eq_left', Blames]
    split
    · next hany =>
      obtain ⟨x, hx, hzero⟩ := List.any_eq_true.mp hany
      refine iff_of_false (by simp) fun hall => ?_
      exact (hall x hx).1.ne' (of_decide_eq_true hzero)
    · next hany =>
      rw [decide_eq_true_iff, selectVictim_eq_some_iff (by simp)]
      refine ⟨fun hpref x hx => ⟨Nat.pos_of_ne_zero fun hzero => hany ?_, hpref x hx⟩,
        fun hall x hx => (hall x hx).2⟩
      exact List.any_eq_true.mpr ⟨x, hx, decide_eq_true hzero⟩

theorem canFind_of_found (hit : Iterates iterate) (hlsn : s.blockedOn u = some lsn)
    (h : s.found iterate u (s.ownerIds lsn) = some path) : s.CanFind u path := by
  have hlead := detect_eq_some (mem_keys_of_next hit) (Nat.lt_succ_self _) h
  exact ⟨lsn, hlsn, hlead.congr fun x hx y => mem_next_iff hit _ hx y⟩

/-- In every order of the hash sets something is found if the graph leads back from an owner. -/
theorem exists_found (hit : Iterates iterate) {o : Locker} (ho : o ∈ s.ownerIds lsn) (hne : o ≠ u)
    (hreach : TransGen (fun x y => y ∈ waitingFor s.waiterGraph x) o u) :
    ∃ path, s.found iterate u (s.ownerIds lsn) = some path := by
  cases hfound : s.found iterate u (s.ownerIds lsn) with
  | some path => exact ⟨path, rfl⟩
  | none =>
    refine absurd ?_ (not_transGen_of_detect (mem_keys_of_next hit) (Nat.lt_succ_self _) hfound o
      ho hne)
    exact transGen_congr (fun x hx y => (mem_next_iff hit _ hx y).symm) hne hreach

/-- Every path that can be found is found in some order of the hash sets. -/
theorem CanFind.exists_found (h : s.CanFind u path) :
    ∃ lsn iterate, s.blockedOn u = some lsn ∧ Iterates iterate ∧
      s.found iterate u (s.ownerIds lsn) = some path := by
  obtain ⟨lsn, hlsn, before, o, after, q, howners, hbefore, hne, hq, rfl⟩ := h
  have hedges : ∀ x ≠ u, ∀ y, y ∈ waitingFor s.waiterGraph x ↔
      y ∈ waitingFor (s.waitsForMap u (s.ownerIds lsn)) x := by
    intro x hx y
    rw [← mem_next_iff iterates_inOrder _ hx y, iterates_inOrder.mem_iff]
  have hpath := hq.congr hedges hne
  have hnodup : (o :: (q ++ [u])).Nodup := by
    rw [← List.cons_append, List.nodup_append_comm, List.singleton_append, List.nodup_cons]
    exact ⟨List.not_mem_cons_of_ne_of_not_mem (Ne.symm hne) hq.avoids, hq.nodup⟩
  obtain ⟨iterate, hit, hheads⟩ := exists_steering hnodup hpath.chain
  refine ⟨lsn, iterate, hlsn, hit, ?_⟩
  have hnext : ∀ x ≠ u, ∀ y, y ∈ waitingFor s.waiterGraph x ↔
      y ∈ iterate x (waitingFor (s.waitsForMap u (s.ownerIds lsn)) x) :=
    fun x hx y => (mem_next_iff hit _ hx y).symm
  rw [found, howners]
  rw [howners] at hheads hnext
  refine detect_of_heads (fun b hb hbu hreach => ?_) hne hheads (hq.congr hnext hne) ?_
  · exact hbefore b hb hbu (transGen_congr (fun x hx y => (hnext x hx y).symm) hbu hreach)
  · -- the members are distinct keys of the graph
    have hsub := hq.nodup.length_le_of_subset fun x hx =>
      mem_keys_of_next hit x ((hq.congr hnext hne).ne_nil x hx)
    rw [List.length_cons] at hsub
    omega

/-! ### One turn of the wait loop -/

theorem validateOwnershipOrFlush_fst (s : LockManager) (lsn : Lsn) (u : Locker)
    (request : LockType) :
    (s.validateOwnershipOrFlush lsn u request).1 = s.isOwner lsn u request := by
  unfold validateOwnershipOrFlush isOwner
  split
  · next lock _ => cases h : lock.isOwner u request <;> simp
  · rfl

/-- A blocked locker is in the wait loop and not an owner. -/
theorem exists_waiting_of_blockedOn (h : s.blockedOn u = some lsn) :
    ∃ request, s.threads.lookup u = some (.waiting lsn request) ∧
      s.isOwner lsn u request = false := by
  unfold blockedOn at h
  split at h
  · next lsn' request hpc =>
    obtain ⟨hown, heq⟩ := Option.ite_none_left_eq_some.mp h
    obtain rfl := Option.some.inj heq
    exact ⟨request, hpc, by simpa using hown⟩
  · cases h

/-- The check of a blocked locker makes it a victim or changes nothing. -/
theorem check_of_blockedOn (iterate : Locker → List Locker → List Locker)
    (h : s.blockedOn u = some lsn) :
    s.checkDeadlockForWaiter iterate u (s.ownerIds lsn) = true ∧
        (s.check iterate u).1 = .deadlock ∨
      s.checkDeadlockForWaiter iterate u (s.ownerIds lsn) = false ∧
        s.check iterate u = (.goesOn, s) := by
  obtain ⟨request, hpc, hown⟩ := exists_waiting_of_blockedOn h
  unfold check
  rw [hpc]
  dsimp only
  cases s.checkDeadlockForWaiter iterate u (s.ownerIds lsn) with
  | true =>
    rw [if_pos rfl, validateOwnershipOrFlush_fst, hown]
    exact .inl ⟨rfl, rfl⟩
  | false => exact .inr ⟨rfl, rfl⟩

/-- Only a blocked locker is made a victim. -/
theorem blockedOn_of_check (h : (s.check iterate u).1 = .deadlock) :
    ∃ lsn, s.blockedOn u = some lsn := by
  unfold check at h
  split at h
  · next lsn request hpc =>
    split at h
    · dsimp only at h
      rw [validateOwnershipOrFlush_fst] at h
      cases hown : s.isOwner lsn u request with
      | true =>
        rw [hown] at h
        cases h
      | false => exact ⟨lsn, by simp [blockedOn, hpc, hown]⟩
    · cases h
  · cases h

/-- A locker is made a victim if it is blocked and the path that its check finds blames it. -/
theorem check_deadlock_iff (hit : Iterates iterate) :
    (s.check iterate u).1 = .deadlock ↔ ∃ lsn path, s.blockedOn u = some lsn ∧
      s.found iterate u (s.ownerIds lsn) = some path ∧ s.Blames u path := by
  constructor
  · intro h
    obtain ⟨lsn, hlsn⟩ := blockedOn_of_check h
    obtain ⟨hdead, -⟩ | ⟨-, hsame⟩ := check_of_blockedOn iterate hlsn
    · obtain ⟨path, hpath⟩ := (checkDeadlock_iff hit).mp hdead
      exact ⟨lsn, path, hlsn, hpath⟩
    · rw [hsame] at h
      cases h
  · rintro ⟨lsn, path, hlsn, hpath⟩
    have hdead := (checkDeadlock_iff hit).mpr ⟨path, hpath⟩
    obtain ⟨-, h⟩ | ⟨hno, -⟩ := check_of_blockedOn iterate hlsn
    · exact h
    · rw [hno] at hdead
      cases hdead

/-- A locker is made a victim in every order of the hash sets if something can be found and all
that can be found blames it. -/
theorem always_victim_iff :
    (∀ iterate, Iterates iterate → (s.check iterate u).1 = .deadlock) ↔
      (∃ path, s.CanFind u path) ∧ ∀ path, s.CanFind u path → s.Blames u path := by
  constructor
  · intro h
    constructor
    · obtain ⟨lsn, path, hlsn, hfound, -⟩ := (check_deadlock_iff iterates_inOrder).mp
        (h inOrder iterates_inOrder)
      exact ⟨path, canFind_of_found iterates_inOrder hlsn hfound⟩
    · intro path hpath
      obtain ⟨lsn, iterate, hlsn, hit, hfound⟩ := hpath.exists_found
      obtain ⟨lsn', path', hlsn', hfound', hblames⟩ := (check_deadlock_iff hit).mp (h iterate hit)
      obtain rfl : lsn = lsn' := Option.some.inj (hlsn.symm.trans hlsn')
      obtain rfl : path = path' := Option.some.inj (hfound.symm.trans hfound')
      exact hblames
  · rintro ⟨⟨path, lsn, hlsn, hlead⟩, hall⟩ iterate hit
    obtain ⟨o, ho, hne, hreach⟩ := hlead.transGen
    obtain ⟨path', hfound⟩ := exists_found hit ho hne hreach
    exact (check_deadlock_iff hit).mpr
      ⟨lsn, path', hlsn, hfound, hall path' (canFind_of_found hit hlsn hfound)⟩

/-- A locker is made a victim in some order of the hash sets if something that can be found blames
it. -/
theorem ever_victim_iff :
    (∃ iterate, Iterates iterate ∧ (s.check iterate u).1 = .deadlock) ↔
      ∃ path, s.CanFind u path ∧ s.Blames u path := by
  constructor
  · rintro ⟨iterate, hit, h⟩
    obtain ⟨lsn, path, hlsn, hfound, hblames⟩ := (check_deadlock_iff hit).mp h
    exact ⟨path, canFind_of_found hit hlsn hfound, hblames⟩
  · rintro ⟨path, hpath, hblames⟩
    obtain ⟨lsn, iterate, hlsn, hit, hfound⟩ := hpath.exists_found
    exact ⟨iterate, hit, (check_deadlock_iff hit).mpr ⟨lsn, path, hlsn, hfound, hblames⟩⟩

/-- Checks of blocked lockers find a victim if one of them would be the victim now: the others
change nothing. -/
theorem someVictim_iff {checks : List (Locker × (Locker → List Locker → List Locker))}
    (hblocked : ∀ p ∈ checks, ∃ lsn, s.blockedOn p.1 = some lsn) :
    s.someVictim checks ↔ ∃ p ∈ checks, (s.check p.2 p.1).1 = .deadlock := by
  induction checks with
  | nil => simp [someVictim]
  | cons p checks ih =>
    obtain ⟨v, iter⟩ := p
    obtain ⟨⟨lsn, hlsn⟩, hblocked⟩ := List.forall_mem_cons.mp hblocked
    rw [someVictim]
    obtain ⟨-, hdead⟩ | ⟨-, hsame⟩ := check_of_blockedOn iter hlsn
    · simp [hdead]
    · simp [hsame, ih hblocked]

end

/-! ### Cycles -/

variable {cycle : List Locker}

/-- The members of a cycle reach each other. -/
theorem WaitCycle.transGen (h : s.WaitCycle cycle) :
    ∀ x ∈ cycle, TransGen s.WaitsFor x x := by
  cases cycle with
  | nil => exact h.elim
  | cons u us =>
    have h : List.IsChain s.WaitsFor (u :: us ++ [u]) := h
    have hfrom : ∀ x ∈ u :: us ++ [u], ReflTransGen s.WaitsFor u x :=
      h.induction (ReflTransGen s.WaitsFor u) _ (fun _ _ he hx => hx.tail he) fun _ => .refl
    have hback : ∀ x ∈ u :: us, TransGen s.WaitsFor x u := by
      obtain ⟨w, hw⟩ : ∃ w, (u :: us).getLast? = some w :=
        Option.ne_none_iff_exists'.mp (by simp)
      have hlast : s.WaitsFor w u :=
        (List.isChain_append.mp h).2.2 w hw u (by simp)
      refine (List.isChain_append.mp h).1.backwards_induction
        (TransGen s.WaitsFor · u) _ (fun _ _ he hy => hy.head he) fun hne => ?_
      rw [List.getLast?_eq_getLast_of_ne_nil hne] at hw
      rw [Option.some.inj hw]
      exact .single hlast
    intro x hx
    exact TransGen.trans_left (hback x hx) (hfrom x (List.mem_append_left _ hx))

/-- The members of a cycle are blocked. -/
theorem WaitCycle.blockedOn (h : s.WaitCycle cycle) :
    ∀ x ∈ cycle, ∃ lsn, s.blockedOn x = some lsn := by
  intro x hx
  obtain ⟨y, hxy, -⟩ := TransGen.head'_iff.mp (h.transGen x hx)
  obtain ⟨lsn, hlsn, -⟩ := waitsFor_iff.mp hxy
  exact ⟨lsn, hlsn⟩

/-- The checks of a cycle find a victim, whatever their order and that of the hash sets, if one of
its members is made a victim in every order of the hash sets. -/
theorem WaitCycle.someVictim_iff (h : s.WaitCycle cycle) :
    (∀ checks : List (Locker × (Locker → List Locker → List Locker)),
      (checks.map Prod.fst).Perm cycle → (∀ p ∈ checks, Iterates p.2) → s.someVictim checks) ↔
      ∃ u ∈ cycle, ∀ iterate, Iterates iterate → (s.check iterate u).1 = .deadlock := by
  have hblocked : ∀ checks : List (Locker × (Locker → List Locker → List Locker)),
      (checks.map Prod.fst).Perm cycle → ∀ p ∈ checks, ∃ lsn, s.blockedOn p.1 = some lsn :=
    fun checks hperm p hp => h.blockedOn _ (hperm.mem_iff.mp (List.mem_map_of_mem hp))
  constructor
  · intro hall
    by_contra hnone
    push Not at hnone
    -- each member has an order in which its check goes on
    choose! iterate hit hgoes using hnone
    have hperm : ((cycle.map fun u => (u, iterate u)).map Prod.fst).Perm cycle := by
      rw [List.map_map]
      exact .of_eq (List.map_id' cycle)
    have hvictim := hall _ hperm (by simpa using hit)
    rw [LockManager.someVictim_iff (hblocked _ hperm)] at hvictim
    obtain ⟨p, hp, hdead⟩ := hvictim
    obtain ⟨u, hu, rfl⟩ := List.mem_map.mp hp
    exact hgoes u hu hdead
  · rintro ⟨u, hu, hdead⟩ checks hperm hit
    obtain ⟨p, hp, rfl⟩ := List.mem_map.mp (hperm.mem_iff.mpr hu)
    exact (LockManager.someVictim_iff (hblocked _ hperm)).mpr ⟨p, hp, hdead p.2 (hit p hp)⟩

/-! ### A fresh graph -/

section

variable {path : List Locker}

/-- The recorded edges are the owners of the locks that lockers are blocked on. -/
theorem GraphFresh.mem_waitingFor_iff (hf : s.GraphFresh) :
    v ∈ waitingFor s.waiterGraph u ↔ ∃ lsn, s.blockedOn u = some lsn ∧ v ∈ s.ownerIds lsn := by
  unfold waitingFor
  constructor
  · intro hv
    cases hl : s.waiterGraph.lookup u with
    | none =>
      rw [hl] at hv
      cases hv
    | some os =>
      rw [hl, Option.getD_some] at hv
      have hkey : u ∈ s.waiterGraph.keys := by
        rw [← AList.mem_keys, ← AList.lookup_isSome, hl]
        rfl
      obtain ⟨lsn, hlsn⟩ := Option.isSome_iff_exists.mp (hf.blocked u hkey)
      obtain ⟨os', hos', hsub, -⟩ := hf.recorded u (mem_threads_of_blockedOn hlsn) lsn hlsn
      obtain rfl : os = os' := Option.some.inj (hl.symm.trans hos')
      exact ⟨lsn, hlsn, hsub hv⟩
  · rintro ⟨lsn, hlsn, hv⟩
    obtain ⟨os, hos, -, hsub⟩ := hf.recorded u (mem_threads_of_blockedOn hlsn) lsn hlsn
    rw [Option.mem_def.mp hos, Option.getD_some]
    exact hsub hv

/-- An edge that is followed is a wait, or leads from a locker to itself. -/
theorem GraphFresh.reflTransGen_of_edge (hf : s.GraphFresh)
    (h : v ∈ waitingFor s.waiterGraph u) : ReflTransGen s.WaitsFor u v := by
  obtain ⟨lsn, hlsn, hv⟩ := hf.mem_waitingFor_iff.mp h
  by_cases hvu : v = u
  · rw [hvu]
  · exact .single (waitsFor_iff.mpr ⟨lsn, hlsn, hv, hvu⟩)

/-- What is known of a path that can be found: it is a cycle of waits through the locker, and all
of its members own locks. -/
structure FoundCycle (s : LockManager) (u : Locker) (path : List Locker) : Prop where
  cycle : TransGen s.WaitsFor u u
  reach : ∀ x ∈ path, ReflTransGen s.WaitsFor u x ∧ ReflTransGen s.WaitsFor x u
  owns : ∀ x ∈ path, 0 < s.lockCount x

theorem GraphFresh.foundCycle (hf : s.GraphFresh) (h : s.CanFind u path) :
    s.FoundCycle u path := by
  obtain ⟨lsn, hlsn, before, o, after, q, howners, -, hne, hq, rfl⟩ := h
  have ho : o ∈ s.ownerIds lsn := by simp [howners]
  have hwait : s.WaitsFor u o := waitsFor_iff.mpr ⟨lsn, hlsn, ho, hne⟩
  have hlast : (o :: (q ++ [u])).getLast (List.cons_ne_nil _ _) = u := by simp
  have hu : u ∈ o :: (q ++ [u]) := by simp
  -- every member is reached from the first owner and leads back
  have hfrom : ∀ x ∈ o :: (q ++ [u]), ReflTransGen s.WaitsFor o x :=
    hq.chain.induction (ReflTransGen s.WaitsFor o) _
      (fun _ _ he hx => hx.trans (hf.reflTransGen_of_edge he)) fun _ => .refl
  have hback : ∀ x ∈ o :: (q ++ [u]), ReflTransGen s.WaitsFor x u :=
    hq.chain.backwards_cons_induction (ReflTransGen s.WaitsFor · u) _ hlast
      (fun _ _ he hy => (hf.reflTransGen_of_edge he).trans hy) .refl
  have howns : ∀ x ∈ o :: (q ++ [u]), 0 < s.lockCount x := by
    refine hq.chain.induction (fun x => 0 < s.lockCount x) _ (fun x y he _ => ?_)
      fun _ => lockCount_pos ho
    obtain ⟨k, -, hy⟩ := hf.mem_waitingFor_iff.mp he
    exact lockCount_pos hy
  refine ⟨.head' hwait (hfrom u hu), ?_, ?_⟩
  · refine List.forall_mem_cons.mpr ⟨⟨.refl, .refl⟩, fun x hx => ⟨?_, hback x hx⟩⟩
    exact ReflTransGen.head hwait (hfrom x hx)
  · exact List.forall_mem_cons.mpr ⟨howns u hu, howns⟩

/-- A locker on a cycle finds something. -/
theorem GraphFresh.exists_canFind (hf : s.GraphFresh) (hcycle : TransGen s.WaitsFor u u) :
    ∃ path, s.CanFind u path := by
  obtain ⟨o, huo, hou⟩ := TransGen.head'_iff.mp hcycle
  obtain ⟨lsn, hlsn, ho, hne⟩ := waitsFor_iff.mp huo
  have hpath : TransGen s.WaitsFor o u :=
    (reflTransGen_iff_eq_or_transGen.mp hou).resolve_left (Ne.symm hne)
  have hreach : TransGen (fun x y => y ∈ waitingFor s.waiterGraph x) o u := by
    refine hpath.lift id fun x y hxy => ?_
    obtain ⟨j, hj, hy, -⟩ := waitsFor_iff.mp hxy
    exact hf.mem_waitingFor_iff.mpr ⟨j, hj, hy⟩
  obtain ⟨path, hfound⟩ := exists_found iterates_inOrder ho hne hreach
  exact ⟨path, canFind_of_found iterates_inOrder hlsn hfound⟩

/-- With a fresh graph, a cycle that no larger one contains has a member that is blamed by all that
its check can find: the one that is preferred to all others. -/
theorem GraphFresh.exists_blamed (hf : s.GraphFresh) {cycle : List Locker}
    (hcycle : s.WaitCycle cycle)
    (hclosed : ∀ x ∈ cycle, ∀ y, TransGen s.WaitsFor x y → TransGen s.WaitsFor y x → y ∈ cycle) :
    ∃ u ∈ cycle, (∃ path, s.CanFind u path) ∧ ∀ path, s.CanFind u path → s.Blames u path := by
  have hne : cycle ≠ [] := by
    rintro rfl
    exact hcycle
  obtain ⟨m, -, hm, hpref⟩ := selectVictim_spec s.lockCount cycle hne
  refine ⟨m, hm, hf.exists_canFind (hcycle.transGen m hm), fun path hpath x hx => ?_⟩
  have hfound := hf.foundCycle hpath
  refine ⟨hfound.owns x hx, fun hxm => hpref x (hclosed m hm x ?_ ?_) hxm⟩
  · exact (reflTransGen_iff_eq_or_transGen.mp (hfound.reach x hx).1).resolve_left hxm
  · exact (reflTransGen_iff_eq_or_transGen.mp (hfound.reach x hx).2).resolve_left (Ne.symm hxm)

end

/-- Lockers 1 and 2 own a lock each and wait for the other's. -/
def crossedRequests : List LockManagerEvent :=
  [.lock 1 20 .write false false, .lock 2 10 .write false false,
    .lock 1 10 .write false false, .recordWait 1, .lock 2 20 .write false false,
    .recordWait 2]

/-- Lockers 3 and 1 queue for the lock of locker 2; it goes to locker 3, which then asks for
the lock of locker 1. -/
def handedOver : List LockManagerEvent :=
  [.lock 2 10 .write false false, .lock 1 20 .write false false,
    .lock 3 10 .write false false, .recordWait 3, .lock 1 10 .write false false,
    .recordWait 1, .release 2 10, .wake 3, .lock 3 20 .write false false, .recordWait 3]

/-- Lockers 4 and 1 queue for a lock of locker 2; it goes to locker 4, and locker 2 asks for
the lock of locker 1. -/
def handedOn : List LockManagerEvent :=
  [.lock 2 10 .write false false, .lock 2 30 .write false false,
    .lock 1 20 .write false false, .lock 4 10 .write false false, .recordWait 4,
    .lock 1 10 .write false false, .recordWait 1, .release 2 10, .wake 4,
    .lock 2 20 .write false false, .recordWait 2]

end LockManager

end Noxu
