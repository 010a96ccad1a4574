import Mathlib.Data.List.Chain
import Mathlib.Logic.Relation
import Mathlib.Tactic.Common

/-!
# Depth-First Search for a Target

A search that marks what it visits and keeps the path it is on. The recursion is on a
bound for its depth; the bound is large enough as soon as it exceeds the number of vertices
with successors.

## Main results

* `reaches_of_dfs`: **a search that succeeds** has extended the path by a simple path to the
  target, and `dfs_of_heads`: any simple path is found if the successors are suitably ordered;
* `not_transGen_of_dfs`: **a search that fails** has been given a vertex from which the
  target cannot be reached;
* `dfs_eq_of_lt`: **a large enough bound plays no part.**
-/

namespace Noxu.Library

variable {V : Type*} [DecidableEq V] (next : V → List V) (target : V)

/-- What a search returns: whether the target was found, the visited vertices and the
path. -/
abbrev Found (V : Type*) := Bool × List V × List V

/-- The loop over the successors of a vertex. -/
def visitEach (visit : V → List V → List V → Found V) :
    List V → List V → List V → Found V
  | [], visited, path => (false, visited, path)
  | v :: vs, visited, path =>
    if v = target then (true, visited, path ++ [v])
    else
      let (found, visited', path') := visit v visited (path ++ [v])
      if found then (true, visited', path')
      else visitEach visit vs visited' path

/-- The depth-first search, with the vertices visited and the path. -/
def dfs : ℕ → V → List V → List V → Found V
  | 0, _, visited, path => (false, visited, path)
  | n + 1, current, visited, path =>
    if current ∈ visited then (false, visited, path)
    else visitEach target (dfs n) (next current) (current :: visited) path

variable {next target}

/-! ### A search that succeeds -/

/-- The vertices `q` lead from `current` along edges to the target, without meeting a vertex
twice or the target before the end. -/
structure SimplePath (next : V → List V) (target current : V) (q : List V) : Prop where
  chain : List.IsChain (fun x y => y ∈ next x) (current :: (q ++ [target]))
  nodup : (current :: q).Nodup
  avoids : target ∉ q

variable {current : V} {q visited path vertices : List V} {visit : V → List V → List V → Found V}
  {n : ℕ}

omit [DecidableEq V] in
theorem SimplePath.cons {v : V} (hv : v ∈ next current) (hne : v ≠ target)
    (hcur : current ∉ v :: q) (h : SimplePath next target v q) :
    SimplePath next target current (v :: q) := by
  refine ⟨h.chain.cons_cons hv, List.nodup_cons.mpr ⟨hcur, h.nodup⟩, ?_⟩
  exact List.not_mem_cons_of_ne_of_not_mem (Ne.symm hne) h.avoids

omit [DecidableEq V] in
theorem SimplePath.of_cons {v : V} (h : SimplePath next target current (v :: q)) :
    v ∈ next current ∧ v ≠ target ∧ current ∉ v :: q ∧ SimplePath next target v q := by
  obtain ⟨hcur, hnodup⟩ := List.nodup_cons.mp h.nodup
  obtain ⟨hne, havoids⟩ := List.ne_and_not_mem_of_not_mem_cons h.avoids
  exact ⟨h.chain.rel, Ne.symm hne, hcur, h.chain.of_cons, hnodup, havoids⟩

omit [DecidableEq V] in
theorem SimplePath.transGen (h : SimplePath next target current q) :
    Relation.TransGen (fun x y => y ∈ next x) current target := by
  induction q generalizing current with
  | nil => exact .single h.chain.rel
  | cons v q ih =>
    obtain ⟨hv, -, -, hrest⟩ := h.of_cons
    exact .head hv (ih hrest)

omit [DecidableEq V] in
/-- Every vertex of the path has successors. -/
theorem SimplePath.ne_nil (h : SimplePath next target current q) :
    ∀ x ∈ current :: q, next x ≠ [] := by
  induction q generalizing current with
  | nil =>
    rw [List.forall_mem_singleton]
    exact List.ne_nil_of_mem h.chain.rel
  | cons v q ih =>
    obtain ⟨hv, -, -, hrest⟩ := h.of_cons
    exact List.forall_mem_cons.mpr ⟨List.ne_nil_of_mem hv, ih hrest⟩

omit [DecidableEq V] in
/-- The edges out of the target play no part. -/
theorem SimplePath.congr {next' : V → List V} (heq : ∀ x ≠ target, ∀ y, y ∈ next x ↔ y ∈ next' x)
    (hne : current ≠ target) (h : SimplePath next target current q) :
    SimplePath next' target current q := by
  induction q generalizing current with
  | nil => exact ⟨by simpa [heq current hne] using h.chain, h.nodup, h.avoids⟩
  | cons v q ih =>
    obtain ⟨hv, hvne, hcur, hrest⟩ := h.of_cons
    exact (ih hvne hrest).cons ((heq current hne v).mp hv) hvne hcur

/-- The path has been extended by a simple path over unmarked vertices. -/
def Reaches (next : V → List V) (target current : V) (visited path path' : List V) : Prop :=
  ∃ q, path' = path ++ (q ++ [target]) ∧ SimplePath next target current q ∧
    ∀ x ∈ current :: q, x ∉ visited

/-- A search only adds to the marks. -/
theorem subset_visitEach
    (hvisit : ∀ v visited path, visited ⊆ (visit v visited path).2.1) (vs visited path : List V) :
    visited ⊆ (visitEach target visit vs visited path).2.1 := by
  induction vs generalizing visited with
  | nil => exact List.Subset.refl _
  | cons v vs ih =>
    unfold visitEach
    split
    · exact List.Subset.refl _
    · dsimp only
      split
      · exact hvisit v visited _
      · exact List.Subset.trans (hvisit v visited _) (ih _)

theorem subset_dfs (n : ℕ) (current : V) (visited path : List V) :
    visited ⊆ (dfs next target n current visited path).2.1 := by
  induction n generalizing current visited path with
  | zero => exact List.Subset.refl _
  | succ n ih =>
    unfold dfs
    split
    · exact List.Subset.refl _
    · exact List.Subset.trans (List.subset_cons_self current visited) (subset_visitEach ih _ _ _)

theorem reaches_of_visitEach (hgrows : ∀ v visited path, visited ⊆ (visit v visited path).2.1)
    (hvisit : ∀ v visited path, (visit v visited path).1 = true →
      Reaches next target v visited path (visit v visited path).2.2)
    {vs marked : List V} (hvs : ∀ v ∈ vs, v ∈ next current)
    (hcur : current ∉ visited) (hmarked : current :: visited ⊆ marked)
    (h : (visitEach target visit vs marked path).1 = true) :
    Reaches next target current visited path (visitEach target visit vs marked path).2.2 := by
  induction vs generalizing marked with
  | nil => cases h
  | cons v vs ih =>
    obtain ⟨hv, hvs⟩ := List.forall_mem_cons.mp hvs
    unfold visitEach at h ⊢
    by_cases htarget : v = target
    · rw [if_pos htarget]
      refine ⟨[], by simp [htarget], ⟨?_, by simp, by simp⟩, by simpa using hcur⟩
      simpa [htarget] using hv
    · rw [if_neg htarget] at h ⊢
      dsimp only at h ⊢
      cases hfound : (visit v marked (path ++ [v])).1 with
      | true =>
        obtain ⟨q, hq, hsimple, hfresh⟩ := hvisit v marked (path ++ [v]) hfound
        rw [if_pos rfl]
        refine ⟨v :: q, by simp [hq], hsimple.cons hv htarget ?_, ?_⟩
        · exact fun hmem => hfresh current hmem (hmarked List.mem_cons_self)
        · refine List.forall_mem_cons.mpr ⟨hcur, fun x hx hvis => hfresh x hx ?_⟩
          exact hmarked (List.mem_cons_of_mem _ hvis)
      | false =>
        rw [hfound, if_neg (by simp)] at h
        rw [if_neg (by simp)]
        exact ih hvs (List.Subset.trans hmarked (hgrows v marked _)) h

/-- **A search that succeeds** has extended the path by a simple path to the target. -/
theorem reaches_of_dfs (h : (dfs next target n current visited path).1 = true) :
    Reaches next target current visited path (dfs next target n current visited path).2.2 := by
  induction n generalizing current visited path with
  | zero => cases h
  | succ n ih =>
    unfold dfs at h ⊢
    split at h
    · cases h
    · next hcur =>
      rw [if_neg hcur]
      exact reaches_of_visitEach (subset_dfs n) (fun _ _ _ => ih) (fun _ => id) hcur
        (List.Subset.refl _) h

/-- **A search that is steered along a simple path** finds it: every vertex of the path has the
next one as its first successor. -/
theorem dfs_of_heads (visited path : List V)
    (hheads : List.IsChain (fun x y => (next x).head? = some y) (current :: (q ++ [target])))
    (hnodup : (current :: q).Nodup) (havoids : target ∉ q)
    (hfresh : ∀ x ∈ current :: q, x ∉ visited) (hn : q.length < n) :
    (dfs next target n current visited path).1 = true ∧
      (dfs next target n current visited path).2.2 = path ++ (q ++ [target]) := by
  induction q generalizing n current visited path with
  | nil =>
    obtain ⟨n, rfl⟩ := Nat.exists_eq_succ_of_ne_zero (Nat.ne_zero_of_lt hn)
    obtain ⟨vs, hvs⟩ := List.head?_eq_some_iff.mp (hheads.rel)
    rw [dfs, if_neg (hfresh current List.mem_cons_self), hvs, visitEach, if_pos rfl]
    exact ⟨rfl, rfl⟩
  | cons v q ih =>
    obtain ⟨n, rfl⟩ := Nat.exists_eq_succ_of_ne_zero (Nat.ne_zero_of_lt hn)
    obtain ⟨vs, hvs⟩ := List.head?_eq_some_iff.mp (hheads.rel)
    obtain ⟨hcur, hnodup⟩ := List.nodup_cons.mp hnodup
    obtain ⟨hne, havoids⟩ := List.ne_and_not_mem_of_not_mem_cons havoids
    obtain ⟨hcurFresh, hfresh⟩ := List.forall_mem_cons.mp hfresh
    have hmarks : ∀ x ∈ v :: q, x ∉ current :: visited := fun x hx =>
      List.not_mem_cons_of_ne_of_not_mem (fun heq => hcur (heq ▸ hx)) (hfresh x hx)
    obtain ⟨hfound, hpath⟩ := ih (current :: visited) (path ++ [v]) hheads.of_cons hnodup havoids
      hmarks (Nat.lt_of_succ_lt_succ hn)
    rw [dfs, if_neg hcurFresh, hvs, visitEach, if_neg (Ne.symm hne)]
    dsimp only
    rw [hfound, if_pos rfl]
    exact ⟨rfl, by simp [hpath]⟩

/-! ### A search that fails -/

/-- What a search that fails leaves: every vertex it has marked has only marked successors,
and none of them is the target. -/
structure Exhausted (next : V → List V) (target : V) (visited visited' : List V) : Prop where
  subset : visited ⊆ visited'
  closed : ∀ x ∈ visited', x ∉ visited → ∀ y ∈ next x, y ≠ target ∧ y ∈ visited'

omit [DecidableEq V] in
theorem Exhausted.refl (visited : List V) : Exhausted next target visited visited :=
  ⟨fun _ => id, fun _ h hn => absurd h hn⟩

theorem Exhausted.trans {a b c : List V} (hab : Exhausted next target a b)
    (hbc : Exhausted next target b c) : Exhausted next target a c := by
  refine ⟨fun _ h => hbc.subset (hab.subset h), fun x hx hxa y hy => ?_⟩
  by_cases hxb : x ∈ b
  · obtain ⟨hne, hyb⟩ := hab.closed x hxb hxa y hy
    exact ⟨hne, hbc.subset hyb⟩
  · exact hbc.closed x hx hxb y hy

/-- The vertices still to be marked. -/
def unvisited (vertices visited : List V) : ℕ :=
  (vertices.filter fun x => decide (x ∉ visited)).length

theorem filter_unvisited_sublist {visited' : List V} (vertices : List V) (h : visited ⊆ visited') :
    (vertices.filter fun x => decide (x ∉ visited')).Sublist
      (vertices.filter fun x => decide (x ∉ visited)) := by
  refine List.monotone_filter_right vertices fun x hx => ?_
  simp only [decide_eq_true_eq] at hx ⊢
  exact fun hv => hx (h hv)

theorem unvisited_mono {visited' : List V} (h : visited ⊆ visited') :
    unvisited vertices visited' ≤ unvisited vertices visited :=
  (filter_unvisited_sublist vertices h).length_le

theorem unvisited_cons_lt {x : V} (hx : x ∈ vertices)
    (hv : x ∉ visited) : unvisited vertices (x :: visited) < unvisited vertices visited := by
  have hsub := filter_unvisited_sublist vertices (List.subset_cons_self x visited)
  refine lt_of_le_of_ne hsub.length_le fun heq => ?_
  have hmem : x ∈ vertices.filter fun z => decide (z ∉ visited) :=
    List.mem_filter.mpr ⟨hx, by simpa using hv⟩
  rw [← hsub.eq_of_length heq] at hmem
  simpa using (List.mem_filter.mp hmem).2

theorem exhausted_of_visitEach {vs : List V}
    (hvisit : ∀ v visited path, unvisited vertices visited < n → (visit v visited path).1 = false →
      Exhausted next target visited (visit v visited path).2.1 ∧
        v ∈ (visit v visited path).2.1)
    (hn : unvisited vertices visited < n) (h : (visitEach target visit vs visited path).1 = false) :
    Exhausted next target visited (visitEach target visit vs visited path).2.1 ∧
      ∀ v ∈ vs, v ≠ target ∧ v ∈ (visitEach target visit vs visited path).2.1 := by
  induction vs generalizing visited with
  | nil => exact ⟨.refl _, by simp⟩
  | cons v vs ih =>
    unfold visitEach at h ⊢
    by_cases htarget : v = target
    · rw [if_pos htarget] at h
      cases h
    · rw [if_neg htarget] at h ⊢
      dsimp only at h ⊢
      cases hfound : (visit v visited (path ++ [v])).1 with
      | true =>
        rw [hfound, if_pos rfl] at h
        cases h
      | false =>
        rw [hfound, if_neg (by simp)] at h
        rw [if_neg (by simp)]
        obtain ⟨hex, hv⟩ := hvisit v visited (path ++ [v]) hn hfound
        obtain ⟨hrest, hvs⟩ := ih (lt_of_le_of_lt (unvisited_mono hex.subset) hn) h
        exact ⟨hex.trans hrest,
          List.forall_mem_cons.mpr ⟨⟨htarget, hrest.subset hv⟩, hvs⟩⟩

/-- The vertices a search that fails has marked are closed under edges. -/
theorem exhausted_of_dfs (hvert : ∀ x, next x ≠ [] → x ∈ vertices)
    (hn : unvisited vertices visited < n) (h : (dfs next target n current visited path).1 = false) :
    Exhausted next target visited (dfs next target n current visited path).2.1 ∧
      current ∈ (dfs next target n current visited path).2.1 := by
  induction n generalizing current visited path with
  | zero => exact absurd hn (Nat.not_lt_zero _)
  | succ n ih =>
    unfold dfs at h ⊢
    split at h
    · next hcur =>
      rw [if_pos hcur]
      exact ⟨.refl _, hcur⟩
    · next hcur =>
      rw [if_neg hcur]
      by_cases hnext : next current = []
      · -- a vertex without successors is marked and left
        rw [hnext]
        refine ⟨⟨List.subset_cons_self .., fun x hx hxv y hy => ?_⟩, List.mem_cons_self⟩
        obtain rfl : x = current := (List.mem_cons.mp hx).resolve_right hxv
        rw [hnext] at hy
        cases hy
      · have hlt := unvisited_cons_lt (hvert current hnext) hcur
        obtain ⟨hex, hall⟩ := exhausted_of_visitEach
          (fun _ _ _ hn h => ih hn h) (by omega) h
        refine ⟨⟨fun x hx => hex.subset (List.mem_cons_of_mem _ hx), ?_⟩,
          hex.subset List.mem_cons_self⟩
        intro x hx hxv y hy
        by_cases hxc : x = current
        · subst hxc
          exact hall y hy
        · exact hex.closed x hx (by simp [hxc, hxv]) y hy

/-- **A search that fails** has been given a vertex from which the target cannot be
reached. -/
theorem not_transGen_of_dfs (hvert : ∀ x, next x ≠ [] → x ∈ vertices) (hn : vertices.length < n)
    (h : (dfs next target n current [] path).1 = false) :
    ¬ Relation.TransGen (fun x y => y ∈ next x) current target := by
  have hn' : unvisited vertices [] < n := by
    simpa [unvisited] using hn
  obtain ⟨hex, hcur⟩ := exhausted_of_dfs hvert hn' h
  intro hreach
  -- along a path from `current` every vertex is marked, and none is the target
  have hall : ∀ z, Relation.TransGen (fun x y => y ∈ next x) current z →
      z ≠ target ∧ z ∈ (dfs next target n current [] path).2.1 := by
    intro z hz
    induction hz with
    | single hstep => exact hex.closed _ hcur (by simp) _ hstep
    | tail _ hstep ih => exact hex.closed _ ih.2 (by simp) _ hstep
  exact (hall target hreach).1 rfl

/-! ### The bound -/

/-- Two ways to visit that agree from the present marks on give the same loop. -/
theorem visitEach_congr {visit' : V → List V → List V → Found V}
    (hgrows : ∀ v visited path, visited ⊆ (visit v visited path).2.1)
    (heq : ∀ v visited' path, visited ⊆ visited' → visit v visited' path = visit' v visited' path)
    (vs path : List V) :
    visitEach target visit vs visited path = visitEach target visit' vs visited path := by
  induction vs generalizing visited with
  | nil => rfl
  | cons v vs ih =>
    unfold visitEach
    rw [← heq v visited _ (List.Subset.refl _)]
    have hrest : visitEach target visit vs (visit v visited (path ++ [v])).2.1 path =
        visitEach target visit' vs (visit v visited (path ++ [v])).2.1 path :=
      ih fun w visited' path' hsub =>
        heq w visited' path' (List.Subset.trans (hgrows v visited _) hsub)
    dsimp only
    rw [hrest]

/-- **A bound above the number of unmarked vertices with successors plays no part.** -/
theorem dfs_eq_of_lt (hvert : ∀ x, next x ≠ [] → x ∈ vertices) {m : ℕ}
    (hm : unvisited vertices visited < m) (hn : unvisited vertices visited < n) :
    dfs next target m current visited path = dfs next target n current visited path := by
  induction m generalizing n current visited path with
  | zero => exact absurd hm (Nat.not_lt_zero _)
  | succ m ih =>
    obtain ⟨n, rfl⟩ := Nat.exists_eq_succ_of_ne_zero (Nat.ne_zero_of_lt hn)
    unfold dfs
    by_cases hcur : current ∈ visited
    · rw [if_pos hcur, if_pos hcur]
    · rw [if_neg hcur, if_neg hcur]
      by_cases hnext : next current = []
      · rw [hnext]
        rfl
      · -- the vertex is marked, so one less is left for the next level
        have hlt := unvisited_cons_lt (hvert current hnext) hcur
        refine visitEach_congr (subset_dfs m) (fun v visited' path' hsub => ?_) _ _
        have hmono : unvisited vertices visited' ≤ unvisited vertices (current :: visited) :=
          unvisited_mono hsub
        exact ih (by omega) (by omega)

end Noxu.Library
