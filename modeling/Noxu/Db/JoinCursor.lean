import Mathlib.Data.List.Sort
import Mathlib.Data.Prod.Lex
import Noxu.Library.Faults

/-!
# Join Cursors

A join cursor takes secondary cursors, each on an entry of its own index, and gives the primary
keys that stand under the secondary keys of all of them (noxu-db, `join_cursor.rs`, and the
helpers of `secondary_cursor.rs`). Unless told not to, it first sorts the cursors by how many
duplicates each has; it then drains the first one and probes the others for every candidate.

A read of a cursor may fail. The estimates, the reads of the current entry and the probes swallow
the failure; only the step to the next entry and the read of the primary record report it. The
first cursor is drained from where it stands, so what comes before is left out.

An index is the list of its entries, in order; `SearchBoth` moves a probed cursor, but nothing
reads its position afterwards, so it stays where it is here.

## Main results

* `new_spec`, `getNext_spec`: the candidates, and the next record, if no read fails;
* `join_right_iff`: when the join gives the intersection, or the error of the first failed read.
-/

namespace Noxu.Join

open Noxu.Library Reading

variable {S P D : Type} [LinearOrder S] [LinearOrder P]

/-! ### Secondary cursors -/

/-- The reads of a join: `Cursor::count`, `get` with `Get::Current`, `Get::Next` and
`Get::SearchBoth`, and the read of the primary. -/
inductive Read
  | count
  | current
  | next
  | searchBoth
  | primary
  deriving DecidableEq

/-- The reads whose errors the join hands on. -/
def Reported (r : Read) : Prop := r = .next ∨ r = .primary

/-- A secondary index: the pairs of a secondary and a primary key, in order. -/
structure Index (S P : Type) [LinearOrder S] [LinearOrder P] where
  entries : List (S × P)
  sorted : entries.Pairwise fun a b => a.1 < b.1 ∨ a.1 = b.1 ∧ a.2 < b.2

/-- A cursor on an entry of an index. -/
structure SecondaryCursor (S P : Type) [LinearOrder S] [LinearOrder P] where
  index : Index S P
  before : List (S × P)
  current : S × P
  after : List (S × P)
  placed : index.entries = before ++ current :: after
  /-- The secondary key that probes ask for, once it has been read. -/
  joinProbeKey : Option S
  captured : ∀ k ∈ joinProbeKey, k = current.1

/-- `Cursor::count`, which takes an error for no duplicates. -/
def countEstimate (c : SecondaryCursor S P) : Reading Read ℕ := do
  if ← quiet .count then pure (c.index.entries.countP (·.1 = c.current.1)) else pure 0

/-- The primary key of the current entry; an error is taken for no entry. -/
def getCurrentPrimaryKeyOnly (entry : S × P) : Reading Read (Option P) := do
  if ← quiet .current then pure (some entry.2) else pure none

/-- Whether the next entry, if there is one, has the same secondary key as the current one, which
is read first (`get_current_sec_key_bytes`). -/
def getNextDup (entry : S × P) (next : Option (S × P)) : Reading Read Bool := do
  if ← quiet .current then do
    loud .next
    pure (next.any (·.1 = entry.1))
  else pure false

/-- The loop of `JoinCursor::new` from an entry on. -/
def drain : S × P → List (S × P) → Reading Read (List P)
  | entry, [] => do
    let _ ← getNextDup entry none
    pure []
  | entry, next :: rest => do
    if ← getNextDup entry (some next) then do
      let pk ← getCurrentPrimaryKeyOnly next
      let more ← drain next rest
      pure (pk.toList ++ more)
    else pure []

/-- The exact pair of the probe key and a candidate. -/
def searchBoth (c : SecondaryCursor S P) (key : S) (candidate : P) : Reading Read Bool := do
  if ← quiet .searchBoth then pure (decide ((key, candidate) ∈ c.index.entries)) else pure false

/-- Whether the candidate stands under the secondary key on which the join found the cursor, which
is read once. -/
def hasCandidatePrimaryKey (c : SecondaryCursor S P) (candidate : P) :
    Reading Read (Bool × SecondaryCursor S P) := do
  match c.joinProbeKey with
  | some key => do
    let found ← searchBoth c key candidate
    pure (found, c)
  | none => do
    if ← quiet .current then do
      let found ← searchBoth c c.current.1 candidate
      pure (found, { c with joinProbeKey := some c.current.1, captured := by simp })
    else pure (false, c)

/-! ### The join -/

/-- A join under way. -/
structure JoinCursor (S P : Type) [LinearOrder S] [LinearOrder P] where
  /-- All cursors but the first. -/
  cursors : List (SecondaryCursor S P)
  candidates : List P

/-- A stable sort by the estimates, smallest first. -/
def sortByEstimate (cursors : List (SecondaryCursor S P)) (estimates : List ℕ) :
    List (SecondaryCursor S P) :=
  ((cursors.zip estimates).mergeSort fun a b => a.2 ≤ b.2).map (·.1)

/-- `JoinCursor::new`: sort the cursors, unless told not to, and drain the first. -/
def new (cursors : List (SecondaryCursor S P)) (noSort : Bool) :
    Reading Read (JoinCursor S P) := do
  let cursors ← (if !noSort && decide (1 < cursors.length) then do
      let estimates ← cursors.mapM countEstimate
      pure (sortByEstimate cursors estimates)
    else pure cursors)
  match cursors with
  | [] => pure ⟨[], []⟩
  | first :: rest => do
    match ← getCurrentPrimaryKeyOnly first.current with
    | none => pure ⟨rest, []⟩
    | some pk => do
      let more ← drain first.current first.after
      pure ⟨rest, pk :: more⟩

/-- Probe the cursors up to the first that does not have the candidate. -/
def probe : List (SecondaryCursor S P) → P → Reading Read (Bool × List (SecondaryCursor S P))
  | [], _ => pure (true, [])
  | c :: cs, candidate => do
    let (found, c) ← hasCandidatePrimaryKey c candidate
    if found then do
      let (all, cs) ← probe cs candidate
      pure (all, c :: cs)
    else pure (false, c :: cs)

/-- The record of a key in the primary, if it is asked for. -/
def fetch (primary : Option (P → Option D)) (candidate : P) :
    Reading Read (Option (P × Option D)) :=
  match primary with
  | none => pure (some (candidate, none))
  | some get => do
    loud .primary
    pure ((get candidate).map (candidate, some ·))

/-- `JoinCursor::get_next`, and `get_next_key` if there is no primary to ask. The loop that skips
records which are gone is one with the loop of `next_matching_candidate`. -/
def getNext (primary : Option (P → Option D)) : List (SecondaryCursor S P) → List P →
    Reading Read (Option ((P × Option D) × JoinCursor S P))
  | _, [] => pure none
  | cs, candidate :: candidates => do
    let (all, cs) ← probe cs candidate
    if all then do
      match ← fetch primary candidate with
      | some record => pure (some (record, ⟨cs, candidates⟩))
      | none => getNext primary cs candidates
    else getNext primary cs candidates

/-- Call `get_next` until it gives nothing; every call that gives something uses up a candidate. -/
def takeAll (primary : Option (P → Option D)) :
    ℕ → JoinCursor S P → Reading Read (List (P × Option D))
  | 0, _ => pure []
  | n + 1, join => do
    match ← getNext primary join.cursors join.candidates with
    | none => pure []
    | some (record, join) => do
      let rest ← takeAll primary n join
      pure (record :: rest)

/-- A whole join. -/
def joinAll (primary : Option (P → Option D)) (cursors : List (SecondaryCursor S P))
    (noSort : Bool) : Reading Read (List (P × Option D)) := do
  let join ← new cursors noSort
  takeAll primary (join.candidates.length + 1) join

/-! ### What each step gives if no read fails -/

/-- The candidate stands under the secondary key of the cursor. -/
def SecondaryCursor.Has (c : SecondaryCursor S P) (p : P) : Prop :=
  (c.current.1, p) ∈ c.index.entries

instance (c : SecondaryCursor S P) (p : P) : Decidable (c.Has p) :=
  inferInstanceAs (Decidable (_ ∈ _))

/-- The duplicates from the position of the cursor on. -/
def SecondaryCursor.dups (c : SecondaryCursor S P) : List P :=
  c.current.2 :: (c.after.takeWhile (·.1 = c.current.1)).map (·.2)

omit [LinearOrder S] [LinearOrder P] in
theorem getCurrentPrimaryKeyOnly_spec (entry : S × P) :
    Judged Reported (getCurrentPrimaryKeyOnly entry) (· = some entry.2) := by
  refine (judged_quiet (by simp [Reported])).bind fun x => ?_
  cases x with
  | false => exact .pure _ nofun
  | true => exact .pure _ fun _ => rfl

omit [LinearOrder P] in
theorem getNextDup_spec (entry : S × P) (next : Option (S × P)) :
    Judged Reported (getNextDup entry next) (· = next.any (·.1 = entry.1)) := by
  refine (judged_quiet (by simp [Reported])).bind fun x => ?_
  cases x with
  | false => exact .pure _ nofun
  | true => exact (judged_loud (by simp [Reported])).bind fun _ => .pure _ fun _ _ => rfl

omit [LinearOrder P] in
theorem drain_spec (entry : S × P) (after : List (S × P)) :
    Judged Reported (drain entry after) (· = (after.takeWhile (·.1 = entry.1)).map (·.2)) := by
  induction after generalizing entry with
  | nil => exact (getNextDup_spec entry none).bind fun _ => .pure _ fun _ => rfl
  | cons next rest ih =>
    refine (getNextDup_spec entry (some next)).bind fun same => ?_
    cases same with
    | false =>
      refine .pure _ fun hsame => ?_
      have hne : ¬ next.1 = entry.1 := by simpa using hsame
      simp [hne]
    | true =>
      refine (getCurrentPrimaryKeyOnly_spec next).bind fun pk => (ih next).bind fun more => ?_
      refine .pure _ fun hmore hpk hsame => ?_
      have heq : next.1 = entry.1 := by simpa using hsame
      rw [hpk, hmore, List.takeWhile_cons_of_pos (by simpa using heq), heq]
      rfl

theorem searchBoth_spec (c : SecondaryCursor S P) (p : P) :
    Judged Reported (searchBoth c c.current.1 p) (· = decide (c.Has p)) := by
  refine (judged_quiet (by simp [Reported])).bind fun x => ?_
  cases x with
  | false => exact .pure _ nofun
  | true => exact .pure _ fun _ => rfl

theorem hasCandidatePrimaryKey_spec (c : SecondaryCursor S P) (p : P) :
    Judged Reported (hasCandidatePrimaryKey c p)
      fun r => r.1 = decide (c.Has p) ∧ ∀ q, r.2.Has q ↔ c.Has q := by
  rw [hasCandidatePrimaryKey]
  cases hk : c.joinProbeKey with
  | some key =>
    obtain rfl := c.captured key hk
    exact (searchBoth_spec c p).bind fun found => .pure _ fun h => ⟨h, fun _ => Iff.rfl⟩
  | none =>
    refine (judged_quiet (by simp [Reported])).bind fun x => ?_
    cases x with
    | false => exact .pure _ nofun
    | true =>
      exact (searchBoth_spec c p).bind fun found => .pure _ fun h _ => ⟨h, fun _ => Iff.rfl⟩

/-- All of the cursors have the candidate. -/
def All (cs : List (SecondaryCursor S P)) (p : P) : Prop := ∀ c ∈ cs, c.Has p

instance (cs : List (SecondaryCursor S P)) (p : P) : Decidable (All cs p) :=
  inferInstanceAs (Decidable (∀ c ∈ cs, c.Has p))

theorem probe_spec (cs : List (SecondaryCursor S P)) (p : P) :
    Judged Reported (probe cs p) fun r => r.1 = decide (All cs p) ∧ ∀ q, All r.2 q ↔ All cs q := by
  induction cs with
  | nil => exact .pure _ ⟨by simp [All], fun _ => Iff.rfl⟩
  | cons c cs ih =>
    refine (hasCandidatePrimaryKey_spec c p).bind fun r => ?_
    obtain ⟨found, c'⟩ := r
    cases found with
    | false =>
      refine .pure _ fun ⟨hno, hsame⟩ => ⟨?_, fun q => by simp [All, hsame]⟩
      simp only [All, List.forall_mem_cons]
      simpa using fun h => absurd h (by simpa using hno)
    | true =>
      refine ih.bind fun r => ?_
      obtain ⟨all, cs'⟩ := r
      refine .pure _ fun ⟨hall, hsame'⟩ ⟨hyes, hsame⟩ => ⟨?_, fun q => ?_⟩
      · rw [hall]
        refine decide_eq_decide.mpr ?_
        simp only [All, List.forall_mem_cons, show c.Has p by simpa using hyes, true_and]
      · simp only [All, List.forall_mem_cons, hsame] at hsame' ⊢
        rw [hsame']

/-- The record of a candidate that the join gives. -/
def record (primary : Option (P → Option D)) (p : P) : Option (P × Option D) :=
  match primary with
  | none => some (p, none)
  | some get => (get p).map (p, some ·)

omit [LinearOrder P] in
theorem fetch_spec (primary : Option (P → Option D)) (p : P) :
    Judged Reported (fetch primary p) (· = record primary p) := by
  cases primary with
  | none => exact .pure _ rfl
  | some get => exact (judged_loud (by simp [Reported])).bind fun _ => .pure _ fun _ => rfl

/-- What a join with these candidates still gives. -/
def remaining (primary : Option (P → Option D)) (cs : List (SecondaryCursor S P))
    (candidates : List P) : List (P × Option D) :=
  (candidates.filter (All cs ·)).filterMap (record primary)

theorem getNext_spec (primary : Option (P → Option D)) (cs : List (SecondaryCursor S P))
    (candidates : List P) :
    Judged Reported (getNext primary cs candidates) fun r => remaining primary cs candidates =
      match r with
      | none => []
      | some (a, join) => a :: remaining primary join.cursors join.candidates := by
  induction candidates generalizing cs with
  | nil => exact .pure _ rfl
  | cons p candidates ih =>
    refine (probe_spec cs p).bind fun r => ?_
    obtain ⟨all, cs'⟩ := r
    have hrest : (∀ q, All cs' q ↔ All cs q) →
        remaining primary cs' candidates = remaining primary cs candidates := by
      intro hsame
      simp [remaining, hsame]
    cases all with
    | false =>
      refine (ih cs').mono fun r hr ⟨hno, hsame⟩ => ?_
      rw [← hr, hrest hsame, remaining, List.filter_cons_of_neg (by simpa using hno)]
      rfl
    | true =>
      refine (fetch_spec primary p).bind fun a => ?_
      have hcons : (true = decide (All cs p)) → remaining primary cs (p :: candidates) =
          (record primary p).toList ++ remaining primary cs candidates := by
        intro hyes
        rw [remaining, List.filter_cons_of_pos (by simpa using hyes)]
        cases hr : record primary p with
        | none => simp [hr, remaining]
        | some b => simp [hr, remaining]
      cases a with
      | none =>
        refine (ih cs').mono fun r hr hnone ⟨hyes, hsame⟩ => ?_
        rw [hcons hyes, ← hnone, ← hrest hsame, ← hr]
        rfl
      | some b =>
        refine .pure _ fun hsome ⟨hyes, hsame⟩ => ?_
        rw [hcons hyes, ← hsome, ← hrest hsame]
        rfl

theorem takeAll_spec (primary : Option (P → Option D)) (n : ℕ) (join : JoinCursor S P) :
    Judged Reported (takeAll primary n join) fun l =>
      (remaining primary join.cursors join.candidates).length < n →
        l = remaining primary join.cursors join.candidates := by
  induction n generalizing join with
  | zero => exact .pure _ nofun
  | succ n ih =>
    refine (getNext_spec primary join.cursors join.candidates).bind fun r => ?_
    cases r with
    | none => exact .pure _ fun hnil _ => hnil.symm
    | some r =>
      refine (ih r.2).bind fun rest => .pure _ fun hrest hcons hlt => ?_
      rw [hcons] at hlt ⊢
      rw [hrest (by simpa using hlt)]

theorem countEstimate_spec (c : SecondaryCursor S P) :
    Judged Reported (countEstimate c) (· = c.index.entries.countP (·.1 = c.current.1)) := by
  refine (judged_quiet (by simp [Reported])).bind fun x => ?_
  cases x with
  | false => exact .pure _ nofun
  | true => exact .pure _ fun _ => rfl

/-- The order in which the join takes the cursors. -/
def ordered (cursors : List (SecondaryCursor S P)) (noSort : Bool) : List (SecondaryCursor S P) :=
  if !noSort && decide (1 < cursors.length) then
    sortByEstimate cursors (cursors.map fun c => c.index.entries.countP (·.1 = c.current.1))
  else cursors

theorem mem_ordered {cursors : List (SecondaryCursor S P)} {noSort : Bool}
    {c : SecondaryCursor S P} : c ∈ ordered cursors noSort ↔ c ∈ cursors := by
  rw [ordered]
  split
  · rw [sortByEstimate]
    rw [((List.mergeSort_perm _ _).map _).mem_iff, List.map_fst_zip (by simp)]
  · rfl

theorem new_spec (cursors : List (SecondaryCursor S P)) (noSort : Bool) :
    Judged Reported (new cursors noSort) fun join =>
      join.cursors = (ordered cursors noSort).tail ∧
        join.candidates = ((ordered cursors noSort).head?.map (·.dups)).getD [] := by
  have horder : Judged Reported (if !noSort && decide (1 < cursors.length) then do
      let estimates ← cursors.mapM countEstimate
      pure (sortByEstimate cursors estimates)
    else pure cursors) (· = ordered cursors noSort) := by
    rw [ordered]
    split
    · exact (Judged.mapM countEstimate_spec cursors).bind fun e => .pure _ fun he => by rw [he]
    · exact .pure _ rfl
  refine horder.bind fun cs => ?_
  cases cs with
  | nil => exact .pure _ fun h => by rw [← h]; exact ⟨rfl, rfl⟩
  | cons first rest =>
    refine (getCurrentPrimaryKeyOnly_spec first.current).bind fun pk => ?_
    cases pk with
    | none => exact .pure _ nofun
    | some pk =>
      refine (drain_spec first.current first.after).bind fun more => .pure _ ?_
      intro hmore hpk h
      rw [← h, hmore, Option.some.inj hpk]
      exact ⟨rfl, rfl⟩

/-! ### Duplicate sets -/

namespace SecondaryCursor

variable (c : SecondaryCursor S P)

omit [LinearOrder P] in
/-- The entries of one key behind an entry of it come first. -/
theorem takeWhile_eq_filter {k : S} {l : List (S × P)} (hge : ∀ e ∈ l, k ≤ e.1)
    (hsorted : l.Pairwise fun a b => a.1 ≤ b.1) :
    l.takeWhile (·.1 = k) = l.filter (·.1 = k) := by
  induction l with
  | nil => rfl
  | cons e l ih =>
    obtain ⟨hhead, htail⟩ := List.pairwise_cons.mp hsorted
    by_cases he : e.1 = k
    · rw [List.takeWhile_cons_of_pos (by simpa using he),
        List.filter_cons_of_pos (by simpa using he),
        ih (fun x hx => hge x (List.mem_cons_of_mem _ hx)) htail]
    · have hlt : k < e.1 := lt_of_le_of_ne (hge e List.mem_cons_self) (Ne.symm he)
      rw [List.takeWhile_cons_of_neg (by simpa using he),
        List.filter_cons_of_neg (by simpa using he), List.filter_eq_nil_iff.mpr]
      intro x hx
      simpa using (hlt.trans_le (hhead x hx)).ne'

/-- The duplicates, as the entries behind the cursor. -/
theorem dups_eq : c.dups = c.current.2 :: (c.after.filter (·.1 = c.current.1)).map (·.2) := by
  have hsorted := c.index.sorted
  rw [c.placed] at hsorted
  obtain ⟨hcurrent, hafter⟩ := List.pairwise_cons.mp (List.pairwise_append.mp hsorted).2.1
  rw [dups, takeWhile_eq_filter (fun e he => ?_) (hafter.imp fun {a b} h => ?_)]
  · exact (hcurrent e he).elim le_of_lt fun h => h.1.le
  · exact h.elim le_of_lt fun h => h.1.le

/-- What is drained: the duplicates that do not stand before the cursor. -/
theorem mem_dups {p : P} : p ∈ c.dups ↔ c.Has p ∧ c.current.2 ≤ p := by
  have hsorted := c.index.sorted
  rw [c.placed] at hsorted
  obtain ⟨-, hrest, hbefore⟩ := List.pairwise_append.mp hsorted
  have hcurrent := (List.pairwise_cons.mp hrest).1
  have hmem : p ∈ c.dups ↔ p = c.current.2 ∨ (c.current.1, p) ∈ c.after := by
    simp [dups_eq]
  have hhas : c.Has p ↔ (c.current.1, p) ∈ c.before ∨ (c.current.1, p) = c.current ∨
      (c.current.1, p) ∈ c.after := by
    rw [Has, c.placed, List.mem_append, List.mem_cons]
  rw [hmem, hhas]
  constructor
  · rintro (rfl | hp)
    · exact ⟨.inr (.inl rfl), le_rfl⟩
    · have := hcurrent _ hp
      simp only [lt_irrefl, false_or, true_and] at this
      exact ⟨.inr (.inr hp), this.le⟩
  · rintro ⟨hp | hp | hp, hle⟩
    · have := hbefore _ hp c.current List.mem_cons_self
      simp only [lt_irrefl, false_or, true_and] at this
      exact absurd this (not_lt.mpr hle)
    · exact .inl (congrArg Prod.snd hp)
    · exact .inr hp

theorem nodup_dups : c.dups.Nodup := by
  have hsorted := c.index.sorted
  rw [c.placed] at hsorted
  have hrest := (List.pairwise_append.mp hsorted).2.1
  have hsub : (c.current :: c.after.filter (·.1 = c.current.1)).Sublist (c.current :: c.after) :=
    List.filter_sublist.cons_cons _
  rw [dups_eq, show c.current.2 :: (c.after.filter (·.1 = c.current.1)).map (·.2) =
    (c.current :: c.after.filter (·.1 = c.current.1)).map (·.2) from rfl]
  refine List.pairwise_map.mpr ((hrest.sublist hsub).imp_of_mem fun {a b} ha hb h heq => ?_)
  have hkey : ∀ e ∈ c.current :: c.after.filter (·.1 = c.current.1), e.1 = c.current.1 := by
    simp
  rw [hkey a ha, hkey b hb, heq] at h
  simp at h

end SecondaryCursor

/-- The intersection of the duplicate sets. -/
def InAll (cursors : List (SecondaryCursor S P)) (p : P) : Prop :=
  cursors ≠ [] ∧ All cursors p

/-- What a join gives if no read fails. -/
def given (primary : Option (P → Option D)) (cursors : List (SecondaryCursor S P))
    (noSort : Bool) : List (P × Option D) :=
  remaining primary (ordered cursors noSort).tail
    (((ordered cursors noSort).head?.map (·.dups)).getD [])

theorem joinAll_spec (primary : Option (P → Option D)) (cursors : List (SecondaryCursor S P))
    (noSort : Bool) :
    Judged Reported (joinAll primary cursors noSort) (· = given primary cursors noSort) := by
  refine (new_spec cursors noSort).bind fun join => (takeAll_spec primary _ join).mono ?_
  intro l hl ⟨hcursors, hcandidates⟩
  have hlen : (remaining primary join.cursors join.candidates).length ≤ join.candidates.length :=
    (List.length_filterMap_le _ _).trans (List.length_filter_le _ _)
  rw [hl (Nat.lt_succ_of_le hlen), hcursors, hcandidates]
  rfl

/-- No key of the intersection that has a record stands before the first cursor. -/
def NoneBefore (primary : Option (P → Option D)) (cursors : List (SecondaryCursor S P))
    (noSort : Bool) : Prop :=
  ∀ first ∈ (ordered cursors noSort).head?, ∀ p, InAll cursors p → (record primary p).isSome →
    first.current.2 ≤ p

theorem mem_given {primary : Option (P → Option D)} {cursors : List (SecondaryCursor S P)}
    {noSort : Bool} {a : P × Option D} :
    a ∈ given primary cursors noSort ↔ ∃ p, InAll cursors p ∧ record primary p = some a ∧
      ∀ first ∈ (ordered cursors noSort).head?, first.current.2 ≤ p := by
  have hall : ∀ p, All cursors p ↔ All (ordered cursors noSort) p := fun p => by
    simp only [All, mem_ordered]
  have hnil : cursors = [] ↔ ordered cursors noSort = [] := by
    simp only [List.eq_nil_iff_forall_not_mem, mem_ordered]
  simp only [given, remaining, InAll]
  simp only [hall, ne_eq, hnil, List.mem_filterMap, List.mem_filter, decide_eq_true_eq]
  cases ordered cursors noSort with
  | nil => simp
  | cons first rest =>
    simp only [List.head?_cons, Option.map_some, Option.getD_some, List.tail_cons,
      SecondaryCursor.mem_dups, Option.mem_some_iff, forall_eq', All, List.forall_mem_cons]
    grind

omit [LinearOrder P] in
theorem fst_of_record {primary : Option (P → Option D)} {p : P} {a : P × Option D}
    (h : record primary p = some a) : a.1 = p := by
  cases primary with
  | none => exact (congrArg Prod.fst (Option.some.inj h)).symm
  | some get =>
    obtain ⟨d, -, rfl⟩ := Option.map_eq_some_iff.mp h
    rfl

omit [LinearOrder P] in
theorem record_sublist (primary : Option (P → Option D)) (l : List P) :
    ((l.filterMap (record primary)).map (·.1)).Sublist l := by
  induction l with
  | nil => exact .slnil
  | cons p l ih =>
    cases hr : record primary p with
    | none =>
      rw [List.filterMap_cons_none hr]
      exact ih.cons p
    | some a =>
      rw [List.filterMap_cons_some hr, List.map_cons, fst_of_record hr]
      exact ih.cons_cons p

theorem nodup_given (primary : Option (P → Option D)) (cursors : List (SecondaryCursor S P))
    (noSort : Bool) : ((given primary cursors noSort).map (·.1)).Nodup := by
  refine ((record_sublist primary _).trans List.filter_sublist).nodup ?_
  cases ordered cursors noSort with
  | nil => exact List.nodup_nil
  | cons first rest => exact first.nodup_dups

/-! ### When the join is right -/

/-- The join gives every key of the intersection once, or the error of the first read that
failed. -/
def Right (primary : Option (P → Option D)) (cursors : List (SecondaryCursor S P))
    (out : Except ℕ (List (P × Option D))) : List (ℕ × Read) → Prop
  | [] => ∃ l, out = .ok l ∧ (l.map (·.1)).Nodup ∧
      ∀ a, a ∈ l ↔ ∃ p, InAll cursors p ∧ record primary p = some a
  | (n, _) :: _ => out = .error n

/-- Nothing of the intersection stands before the first cursor, and the first read that fails is a
step to the next entry or a read of the primary. -/
def Holds (primary : Option (P → Option D)) (cursors : List (SecondaryCursor S P))
    (noSort : Bool) : List (ℕ × Read) → Prop
  | [] => NoneBefore primary cursors noSort
  | (_, kind) :: _ => kind = .next ∨ kind = .primary

/-- **A join is right exactly if** it leaves nothing before the first cursor and no failure is
swallowed. -/
theorem join_right_iff (primary : Option (P → Option D)) (cursors : List (SecondaryCursor S P))
    (noSort : Bool) (fails : ℕ → Bool) :
    Right primary cursors (joinAll primary cursors noSort (.start fails)).1
        (joinAll primary cursors noSort (.start fails)).2.failed ↔
      Holds primary cursors noSort (joinAll primary cursors noSort (.start fails)).2.failed := by
  have hspec := joinAll_spec primary cursors noSort
  cases hfailed : (joinAll primary cursors noSort (.start fails)).2.failed with
  | cons f rest => exact hspec.error_first_iff fails hfailed
  | nil =>
    obtain ⟨l, hl, rfl⟩ := hspec.ok_of_none_failed fails hfailed
    rw [hl]
    constructor
    · rintro ⟨l, heq, -, hmem⟩ first hfirst p hp hsome
      obtain rfl := Except.ok.inj heq
      obtain ⟨a, ha⟩ := Option.isSome_iff_exists.mp hsome
      obtain ⟨q, -, hq, hle⟩ := mem_given.mp ((hmem a).mpr ⟨p, hp, ha⟩)
      obtain rfl : q = p := (fst_of_record hq).symm.trans (fst_of_record ha)
      exact hle first hfirst
    · intro hnone
      refine ⟨_, rfl, nodup_given primary cursors noSort, fun a => mem_given.trans ?_⟩
      refine exists_congr fun p => and_congr_right fun hp => and_iff_left_of_imp fun hr => ?_
      exact fun first hfirst => hnone first hfirst p hp (by rw [hr]; rfl)

/-- A cursor on the second of two entries under one key. -/
private def onSecond : SecondaryCursor ℕ ℕ where
  index := ⟨[(0, 1), (0, 2)], by decide⟩
  before := [(0, 1)]
  current := (0, 2)
  after := []
  placed := rfl
  joinProbeKey := none
  captured := by simp

/-- The key before the first cursor is left out; and so are all keys, without an error, if the first
read fails. -/
theorem join_leaves_out :
    (joinAll (D := ℕ) none [onSecond, onSecond] true (.start fun _ => false)).1 =
        .ok [(2, none)] ∧ InAll [onSecond, onSecond] 1 ∧
      (joinAll (D := ℕ) none [onSecond, onSecond] true (.start (· = 0))).1 = .ok [] ∧
      InAll [onSecond, onSecond] 2 :=
  ⟨by decide, ⟨nofun, by decide⟩, by decide, nofun, by decide⟩

end Noxu.Join
