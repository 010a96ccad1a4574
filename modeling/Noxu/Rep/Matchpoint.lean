import Mathlib.Order.Lattice.Nat
import Noxu.Rep.Syncup

/-!
# The Search for the Matchpoint

The replica goes down through its sync points from the last one on and stops at the first one
that the feeder has with the same fingerprint. Its VLSNs may have holes; the search keeps to the
run without a hole that ends at the top, **except for the sync point it starts with**. That one is
also taken for a sync point without looking: a later entry with the same VLSN may have replaced it
in the view.

## Main results

* `talkFrom_eq_found_iff`: what a search finds that gives up where it is not served;
* `findMatchpoint_right_iff`: **when the matchpoint is the last sync point of the top run on which
  the nodes agree.**
-/

open Noxu.Library

namespace Noxu

/-! ### What the search is for -/

/-- The VLSN is a sync point of the replica in its top run, and the feeder has the same record. -/
def SyncupView.AgreesAt (replica : SyncupView) (feeder : ℕ → Option VlsnEntry) (v : ℕ) : Prop :=
  replica.firstVlsn ≤ v ∧
    ∃ e, replica.entry v = some e ∧ e.isSync = true ∧ sameRecord feeder v e = true

/-- The last VLSN of a set with the position of its entry, or nothing if the set is empty. -/
def Matchpoint.IsLast (replica : SyncupView) (s : Set ℕ) : Matchpoint → Prop
  | found v lsn => IsGreatest s v ∧ (replica.entry v).map VlsnEntry.lsn = some lsn
  | none => s = ∅

/-- Every VLSN from one up to the last of the entries is there. -/
def NoHoleAbove (entries : List ScannedEntry) (v : ℕ) : Prop :=
  ∀ x ∈ entries, ∀ u, v ≤ u → u ≤ x.vlsn → ∃ y ∈ entries, y.vlsn = u

/-- What a syncup reads of a log. -/
def ReplicaLog.view (crc : List UInt8 → UInt32) (log : ReplicaLog) : SyncupView :=
  (SyncupLogView.ofScan log.scan).toView crc

/-! ### Where a search ends -/

section Views

variable (replica : SyncupView) (feeder : ℕ → Option VlsnEntry)

/-- The sync points of a node. -/
def SyncupView.syncPoints : Set ℕ :=
  {v | v ≠ 0 ∧ replica.firstVlsn ≤ v ∧ (replica.entry v).any VlsnEntry.isSync = true}

/-- The VLSNs that a search from `s` may come to: `s` and the sync points below it. -/
def SyncupView.candidates (s : ℕ) : Set ℕ :=
  {v | (replica.entry s).isSome ∧ (v = s ∨ v < s ∧ v ∈ replica.syncPoints)}

/-- Both nodes have the same record at a VLSN. -/
def Common (v : ℕ) : Prop := ∃ e, replica.entry v = some e ∧ sameRecord feeder v e = true

/-- A search through these VLSNs, from the last one down, ends with `v`: it is the last one at
which both nodes have the same record, and the search may go on at all that it comes to before. -/
structure Settles (tried : Set ℕ) (served : ℕ → Bool) (v : ℕ) : Prop where
  greatest : IsGreatest {w ∈ tried | Common replica feeder w} v
  served : ∀ w ∈ tried, v ≤ w → served w = true

/-- The search that gives up where it is not served. -/
def talkDown (served : ℕ → Bool) : ℕ → Matchpoint
  | 0 => .none
  | v + 1 =>
    if v + 1 < replica.firstVlsn then .none
    else
      match (replica.entry (v + 1)).filter VlsnEntry.isSync with
      | some e =>
        if !served (v + 1) then .none
        else if sameRecord feeder (v + 1) e then .found (v + 1) e.lsn
        else talkDown served v
      | none => talkDown served v

/-- The rest of a handshake that asks for an entry. -/
def talkFrom (served : ℕ → Bool) (s : ℕ) : Matchpoint :=
  match replica.entry s with
  | some e =>
    if !served s then .none
    else if sameRecord feeder s e then .found s e.lsn
    else talkDown replica feeder served (s - 1)
  | none => .none

end Views

section Search

variable {replica : SyncupView} {feeder : ℕ → Option VlsnEntry} {served : ℕ → Bool}
  {tried : Set ℕ} {lsn : LogPos} {s v w : ℕ}

/-- A search that comes to `v` first: it ends there, or it goes on with the others. -/
theorem settles_insert_iff (hlt : ∀ w ∈ tried, w < v) :
    Settles replica feeder (insert v tried) served w ↔
      served v = true ∧ (Common replica feeder v ∧ w = v ∨
        ¬ Common replica feeder v ∧ Settles replica feeder tried served w) := by
  constructor
  · rintro ⟨⟨⟨hmem, hcommon⟩, hmax⟩, hserved⟩
    rcases Set.mem_insert_iff.mp hmem with rfl | hw
    · exact ⟨hserved w hmem le_rfl, .inl ⟨hcommon, rfl⟩⟩
    · refine ⟨hserved v (Set.mem_insert v tried) (hlt w hw).le, .inr ⟨fun hv => ?_, ?_⟩⟩
      · exact absurd (hmax ⟨Set.mem_insert v tried, hv⟩) (Nat.not_le_of_lt (hlt w hw))
      · exact ⟨⟨⟨hw, hcommon⟩, fun u hu => hmax ⟨Set.mem_insert_of_mem v hu.1, hu.2⟩⟩,
          fun u hu => hserved u (Set.mem_insert_of_mem v hu)⟩
  · rintro ⟨hv, ⟨hcommon, rfl⟩ | ⟨hcommon, ⟨⟨hw, hw'⟩, hmax⟩, hserved⟩⟩
    · refine ⟨⟨⟨Set.mem_insert w tried, hcommon⟩, fun u hu => ?_⟩, fun u hu hle => ?_⟩
      · exact (Set.mem_insert_iff.mp hu.1).elim le_of_eq fun hu => (hlt u hu).le
      · rcases Set.mem_insert_iff.mp hu with rfl | hu
        · exact hv
        · exact absurd (hlt u hu) (Nat.not_lt_of_le hle)
    · refine ⟨⟨⟨Set.mem_insert_of_mem v hw, hw'⟩, fun u hu => ?_⟩, fun u hu hle => ?_⟩
      · rcases Set.mem_insert_iff.mp hu.1 with rfl | hu'
        · exact absurd hu.2 hcommon
        · exact hmax ⟨hu', hu.2⟩
      · rcases Set.mem_insert_iff.mp hu with rfl | hu'
        · exact hv
        · exact hserved u hu' hle

theorem not_settles_empty : ¬ Settles replica feeder ∅ served w := fun h => h.greatest.1.1

/-- One VLSN of a search, with what the search does below it. -/
theorem found_at_iff {e : VlsnEntry} {below : Matchpoint} (he : replica.entry v = some e)
    (hlt : ∀ w ∈ tried, w < v)
    (hbelow : below = .found w lsn ↔ Settles replica feeder tried served w ∧
      (replica.entry w).map VlsnEntry.lsn = some lsn) :
    (if !served v then Matchpoint.none
      else if sameRecord feeder v e then .found v e.lsn else below) = .found w lsn ↔
      Settles replica feeder (insert v tried) served w ∧
        (replica.entry w).map VlsnEntry.lsn = some lsn := by
  have hcommon : Common replica feeder v ↔ sameRecord feeder v e = true :=
    ⟨fun ⟨e', he', hsame⟩ => Option.some.inj (he.symm.trans he') ▸ hsame, fun h => ⟨e, he, h⟩⟩
  rw [settles_insert_iff hlt, hcommon]
  cases hserved : served v with
  | false => simp
  | true =>
    by_cases hsame : sameRecord feeder v e = true
    · simp only [hsame, Bool.not_true, Bool.false_eq_true, if_false, if_true,
        Matchpoint.found.injEq, true_and, not_true, false_and, or_false]
      constructor
      · rintro ⟨rfl, rfl⟩
        exact ⟨rfl, by rw [he, Option.map_some]⟩
      · rintro ⟨rfl, hlsn⟩
        rw [he, Option.map_some] at hlsn
        exact ⟨rfl, Option.some.inj hlsn⟩
    · simp only [hsame, Bool.not_true, Bool.false_eq_true, if_false, false_and, false_or,
        not_false_iff, true_and]
      exact hbelow

theorem not_any_isSync {o : Option VlsnEntry} (h : o.filter VlsnEntry.isSync = none) :
    ¬ o.any VlsnEntry.isSync = true := by
  cases o with
  | none => exact Bool.false_ne_true
  | some e =>
    intro (hs : e.isSync = true)
    rw [Option.filter_some, if_pos hs] at h
    cases h

/-- **Below a VLSN**: the search settles on a sync point. -/
theorem talkDown_eq_found_iff (v : ℕ) :
    talkDown replica feeder served v = .found w lsn ↔
      Settles replica feeder {u | u ≤ v ∧ u ∈ replica.syncPoints} served w ∧
        (replica.entry w).map VlsnEntry.lsn = some lsn := by
  induction v with
  | zero =>
    have hempty : {u | u ≤ 0 ∧ u ∈ replica.syncPoints} = ∅ :=
      Set.eq_empty_of_forall_notMem fun u hu => hu.2.1 (Nat.le_zero.mp hu.1)
    rw [hempty]
    exact ⟨fun h => (by cases h), fun h => absurd h.1 not_settles_empty⟩
  | succ v ih =>
    unfold talkDown
    by_cases hfirst : v + 1 < replica.firstVlsn
    · have hempty : {u | u ≤ v + 1 ∧ u ∈ replica.syncPoints} = ∅ :=
        Set.eq_empty_of_forall_notMem fun u hu =>
          absurd (hu.2.2.1.trans hu.1) (Nat.not_le_of_lt hfirst)
      rw [if_pos hfirst, hempty]
      exact ⟨fun h => (by cases h), fun h => absurd h.1 not_settles_empty⟩
    rw [if_neg hfirst]
    cases hentry : (replica.entry (v + 1)).filter VlsnEntry.isSync with
    | none =>
      -- it is not a sync point: the sync points up to it are those below it
      have hsame : {u | u ≤ v + 1 ∧ u ∈ replica.syncPoints} =
          {u | u ≤ v ∧ u ∈ replica.syncPoints} := by
        refine Set.ext fun u => and_congr_left fun hu => ⟨fun hle => ?_, fun hle => by omega⟩
        rcases Nat.lt_or_eq_of_le hle with hlt | rfl
        · exact Nat.le_of_lt_succ hlt
        · exact absurd hu.2.2 (not_any_isSync hentry)
      rw [hsame]
      exact ih
    | some e =>
      obtain ⟨he, hs⟩ := Option.filter_eq_some_iff.mp hentry
      have hinsert : {u | u ≤ v + 1 ∧ u ∈ replica.syncPoints} =
          insert (v + 1) {u | u ≤ v ∧ u ∈ replica.syncPoints} := by
        refine Set.ext fun u => ⟨fun hu => ?_, fun hu => ?_⟩
        · rcases Nat.lt_or_eq_of_le hu.1 with hlt | rfl
          · exact Set.mem_insert_of_mem _ ⟨Nat.le_of_lt_succ hlt, hu.2⟩
          · exact Set.mem_insert _ _
        · rcases Set.mem_insert_iff.mp hu with rfl | hu
          · exact ⟨le_rfl, v.succ_ne_zero, Nat.le_of_not_lt hfirst, by rw [he]; exact hs⟩
          · exact ⟨hu.1.trans v.le_succ, hu.2⟩
      rw [hinsert]
      exact found_at_iff he (fun u hu => Nat.lt_succ_of_le hu.1) ih

/-- **From a VLSN on** the same. -/
theorem talkFrom_eq_found_iff :
    talkFrom replica feeder served s = .found w lsn ↔
      Settles replica feeder (replica.candidates s) served w ∧
        (replica.entry w).map VlsnEntry.lsn = some lsn := by
  unfold talkFrom SyncupView.candidates
  cases he : replica.entry s with
  | none =>
    simp only [Option.isSome_none, Bool.false_eq_true, false_and, Set.ofPred_false]
    exact ⟨fun h => (by cases h), fun h => absurd h.1 not_settles_empty⟩
  | some e =>
    have hinsert : {u | (some e).isSome = true ∧ (u = s ∨ u < s ∧ u ∈ replica.syncPoints)} =
        insert s {u | u ≤ s - 1 ∧ u ∈ replica.syncPoints} := by
      refine Set.ext fun u => ?_
      have hlt : u < s ∧ u ∈ replica.syncPoints ↔ u ≤ s - 1 ∧ u ∈ replica.syncPoints :=
        and_congr_left fun hu => by
          have := hu.1
          omega
      simp only [Set.mem_ofPred_eq, Option.isSome_some, true_and, Set.mem_insert_iff, hlt]
    rw [hinsert]
    refine found_at_iff he (fun u hu => ?_) (talkDown_eq_found_iff (s - 1))
    have := hu.1
    have := hu.2.1
    omega

/-- The local search does not ask whether the feeder serves an entry. -/
theorem searchDown_eq_talkDown (v : ℕ) :
    searchDown replica feeder v = talkDown replica feeder (fun _ => true) v := by
  induction v with
  | zero => rfl
  | succ v ih =>
    unfold searchDown talkDown
    rw [ih]
    rfl

theorem findMatchpoint_eq_talkFrom (hsync : replica.lastSync ≠ 0) :
    findMatchpoint replica feeder =
      talkFrom replica feeder (fun _ => true) replica.lastSync := by
  unfold findMatchpoint talkFrom
  rw [if_neg hsync, searchDown_eq_talkDown]
  rfl

/-- The local search finds the last sync point that both nodes have. -/
theorem findMatchpoint_eq_found_iff (hsync : replica.lastSync ≠ 0) {v : ℕ} {lsn : LogPos} :
    findMatchpoint replica feeder = .found v lsn ↔
      IsGreatest {w ∈ replica.candidates replica.lastSync | Common replica feeder w} v ∧
        (replica.entry v).map VlsnEntry.lsn = some lsn := by
  rw [findMatchpoint_eq_talkFrom hsync, talkFrom_eq_found_iff]
  exact and_congr_left fun _ => ⟨fun h => h.greatest, fun h => ⟨h, fun _ _ _ => rfl⟩⟩

theorem Common.exists_lsn {v : ℕ} (h : Common replica feeder v) :
    ∃ lsn, (replica.entry v).map VlsnEntry.lsn = some lsn := by
  obtain ⟨e, he, -⟩ := h
  exact ⟨e.lsn, by rw [he, Option.map_some]⟩

/-- The local search finds the last candidate on which the nodes agree, if there is one. -/
theorem findMatchpoint_isLast (hsync : replica.lastSync ≠ 0) :
    (findMatchpoint replica feeder).IsLast replica
      {w ∈ replica.candidates replica.lastSync | Common replica feeder w} := by
  cases hfound : findMatchpoint replica feeder with
  | found v lsn => exact (findMatchpoint_eq_found_iff hsync).mp hfound
  | none =>
    refine Set.not_nonempty_iff_eq_empty.mp fun hne => ?_
    have hbdd : BddAbove {w ∈ replica.candidates replica.lastSync | Common replica feeder w} :=
      ⟨replica.lastSync, fun w hw => hw.1.2.elim le_of_eq fun h => h.1.le⟩
    have hmem := Nat.sSup_mem hne hbdd
    obtain ⟨lsn, hlsn⟩ := hmem.2.exists_lsn
    have := (findMatchpoint_eq_found_iff hsync).mpr ⟨⟨hmem, fun w hw => le_csSup hbdd hw⟩, hlsn⟩
    rw [hfound] at this
    cases this

/-- The search as a whole, when no sync point lies above the one it starts with. -/
theorem findMatchpoint_isLast_iff (hzero : replica.entry 0 = none)
    (hlast : replica.lastSync ≠ 0 → ∃ e, replica.entry replica.lastSync = some e)
    (habove : ∀ v e, replica.entry v = some e → e.isSync = true → v ≤ replica.lastSync) :
    (findMatchpoint replica feeder).IsLast replica {v | replica.AgreesAt feeder v} ↔
      ∀ e, replica.entry replica.lastSync = some e →
        sameRecord feeder replica.lastSync e = true →
        replica.firstVlsn ≤ replica.lastSync ∧ e.isSync = true := by
  have hne : ∀ v e, replica.entry v = some e → v ≠ 0 := by
    rintro v e he rfl
    rw [hzero] at he
    cases he
  by_cases hnull : replica.lastSync = 0
  · unfold findMatchpoint
    rw [if_pos hnull, hnull, hzero]
    refine iff_of_true (Set.eq_empty_of_forall_notMem ?_) fun e he => (by cases he)
    rintro v ⟨-, e, he, hsync, -⟩
    exact hne v e he (Nat.le_zero.mp (hnull ▸ habove v e he hsync))
  obtain ⟨e, he⟩ := hlast hnull
  have hfind := @findMatchpoint_isLast replica feeder hnull
  constructor
  · intro h e' he' hsame
    obtain rfl := Option.some.inj (he.symm.trans he')
    -- the nodes agree where the search starts, so that it ends there
    have hmem : replica.lastSync ∈
        {w ∈ replica.candidates replica.lastSync | Common replica feeder w} :=
      ⟨⟨by rw [he]; rfl, .inl rfl⟩, e, he, hsame⟩
    cases hfound : findMatchpoint replica feeder with
    | none =>
      rw [hfound] at hfind
      exact absurd hmem (Set.eq_empty_iff_forall_notMem.mp hfind _)
    | found v lsn =>
      rw [hfound] at hfind h
      obtain ⟨hfirst, e', he', hsync, -⟩ := h.1.1
      obtain rfl := Nat.le_antisymm (habove v e' he' hsync) (hfind.1.2 hmem)
      obtain rfl := Option.some.inj (he.symm.trans he')
      exact ⟨hfirst, hsync⟩
  · intro h
    have hset : {w ∈ replica.candidates replica.lastSync | Common replica feeder w} =
        {v | replica.AgreesAt feeder v} := by
      refine Set.ext fun v => ⟨?_, ?_⟩
      · rintro ⟨⟨-, rfl | ⟨-, -, hfirst, hsync⟩⟩, e, he, hsame⟩
        · obtain ⟨hfirst, hsync⟩ := h e he hsame
          exact ⟨hfirst, e, he, hsync, hsame⟩
        · rw [he] at hsync
          exact ⟨hfirst, e, he, hsync, hsame⟩
      · rintro ⟨hfirst, e', he', hsync, hsame⟩
        refine ⟨⟨by rw [he]; rfl, ?_⟩, e', he', hsame⟩
        refine (Nat.eq_or_lt_of_le (habove v e' he' hsync)).imp_right fun hlt => ?_
        exact ⟨hlt, hne v e' he', hfirst, by rw [he']; exact hsync⟩
    rw [← hset]
    exact hfind

end Search

/-! ### The view of a log -/

section View

variable {entries scanned : List ScannedEntry} {x : ScannedEntry}

theorem noteEntry_pos {pos : LogPos} {e : RawEntry} (h : x ∈ (noteEntry pos e).toList) :
    0 < x.vlsn := by
  obtain ⟨v, hv, rfl⟩ := Option.map_eq_some_iff.1 (Option.mem_toList.1 h)
  have hplausible := (Option.ite_none_right_eq_some.1 (Option.ite_none_left_eq_some.1 hv).2).2
  obtain ⟨⟨hpos, -⟩, heq⟩ := Option.ite_none_right_eq_some.1 hplausible
  rwa [← Option.some.inj heq]

/-- The VLSNs of a scan are not null. -/
theorem ReplicaLog.vlsn_pos {log : ReplicaLog} (h : x ∈ log.scan) : 0 < x.vlsn := by
  have hslots : ∀ file offset slots, x ∈ scanSlots file offset slots → 0 < x.vlsn := by
    intro file offset slots hx
    induction slots generalizing offset with
    | nil => cases hx
    | cons slot slots ih =>
      cases slot with
      | unreadable n => cases hx
      | entry e =>
        rw [scanSlots] at hx
        split at hx
        · cases hx
        · rcases List.mem_append.1 hx with hx | hx
          · exact noteEntry_pos hx
          · exact ih _ hx
  obtain ⟨f, -, hx⟩ := List.mem_flatMap.1 h
  exact hslots _ _ _ hx

/-- The maximum of a list is a bound and, unless it is the start, a member. -/
theorem foldl_max_spec (vs : List ℕ) (a : ℕ) :
    (∀ v ∈ a :: vs, v ≤ vs.foldl max a) ∧ vs.foldl max a ∈ a :: vs := by
  induction vs generalizing a with
  | nil => simp
  | cons v vs ih =>
    obtain ⟨hle, hmem⟩ := ih (max a v)
    obtain ⟨hmax, hvs⟩ := List.forall_mem_cons.mp hle
    rw [List.foldl_cons]
    refine ⟨?_, ?_⟩
    · refine List.forall_mem_cons.mpr ⟨(le_max_left a v).trans hmax, ?_⟩
      exact List.forall_mem_cons.mpr ⟨(le_max_right a v).trans hmax, hvs⟩
    · rcases List.mem_cons.mp hmem with h | h
      · rw [h]
        rcases max_choice a v with hm | hm <;> rw [hm] <;> simp
      · exact List.mem_cons_of_mem _ (List.mem_cons_of_mem _ h)

theorem le_lastSync (hx : x ∈ scanned) (hsync : x.isSync = true) :
    x.vlsn ≤ (SyncupLogView.ofScan scanned).lastSync := by
  refine (foldl_max_spec _ 0).1 _ (List.mem_cons_of_mem _ ?_)
  exact List.mem_map_of_mem (List.mem_filter.2 ⟨hx, hsync⟩)

theorem exists_of_lastSync (h : (SyncupLogView.ofScan scanned).lastSync ≠ 0) :
    ∃ y ∈ viewEntries scanned, y.vlsn = (SyncupLogView.ofScan scanned).lastSync := by
  obtain ⟨y, hy, hvlsn⟩ := List.mem_map.1 ((List.mem_cons.mp (foldl_max_spec _ 0).2).resolve_left h)
  obtain ⟨z, hz, hzy⟩ := exists_mem_viewEntries (List.mem_of_mem_filter hy)
  exact ⟨z, hz, hzy.trans hvlsn⟩

theorem toView_entry_eq_some {crc : List UInt8 → UInt32} {v : ℕ} {e : VlsnEntry}
    (h : ((SyncupLogView.ofScan scanned).toView crc).entry v = some e) :
    ∃ y ∈ viewEntries scanned, y.vlsn = v ∧ e.isSync = y.isSync := by
  obtain ⟨y, hy, rfl⟩ := Option.map_eq_some_iff.1 h
  exact ⟨y, List.mem_of_find?_eq_some hy, by simpa using List.find?_some hy, rfl⟩

theorem exists_toView_entry {crc : List UInt8 → UInt32} (hx : x ∈ viewEntries scanned) :
    ∃ e, ((SyncupLogView.ofScan scanned).toView crc).entry x.vlsn = some e := by
  have hsome : ((viewEntries scanned).find? fun e => e.vlsn == x.vlsn).isSome := by
    rw [List.find?_isSome]
    exact ⟨x, hx, by simp⟩
  obtain ⟨y, hy⟩ := Option.isSome_iff_exists.mp hsome
  exact ⟨_, Option.map_eq_some_iff.2 ⟨y, hy, rfl⟩⟩

/-- The run that goes down from a VLSN has no hole. -/
theorem mem_of_runLow {low u : ℕ} {vs : List ℕ} (h : runLow low vs ≤ u) (hu : u < low) :
    u ∈ vs := by
  induction vs generalizing low with
  | nil => exact absurd h (Nat.not_le.mpr hu)
  | cons v vs ih =>
    unfold runLow at h
    split at h
    · next hv =>
      rcases Nat.lt_or_ge u v with hlt | hge
      · exact List.mem_cons_of_mem _ (ih h hlt)
      · obtain rfl : u = v := by omega
        exact List.mem_cons_self
    · exact absurd h (Nat.not_le.mpr hu)

/-- **There is no hole above the first VLSN of the top run.** -/
theorem noHoleAbove_first {v : ℕ} (h : (SyncupLogView.ofScan scanned).first ≤ v) :
    NoHoleAbove (viewEntries scanned) v := by
  intro x hx u hvu hux
  have hsorted : ((viewEntries scanned).map ScannedEntry.vlsn).reverse.Pairwise (· > ·) := by
    rw [List.pairwise_reverse, List.pairwise_map]
    exact (viewEntries_spec scanned).1.imp fun hab => compare_lt_iff_lt.1 hab
  have hmem : x.vlsn ∈ ((viewEntries scanned).map ScannedEntry.vlsn).reverse :=
    List.mem_reverse.2 (List.mem_map_of_mem hx)
  suffices hin : u ∈ ((viewEntries scanned).map ScannedEntry.vlsn).reverse by
    obtain ⟨y, hy, hyu⟩ := List.mem_map.1 (List.mem_reverse.1 hin)
    exact ⟨y, hy, hyu⟩
  unfold SyncupLogView.ofScan at h
  dsimp only at h
  split at h
  · next hnil =>
    rw [hnil] at hmem
    cases hmem
  · next top rest htop =>
    rw [htop] at hmem hsorted ⊢
    have hxtop : x.vlsn ≤ top := by
      rcases List.mem_cons.mp hmem with rfl | hrest
      · exact le_rfl
      · exact ((List.pairwise_cons.mp hsorted).1 _ hrest).le
    rcases (hux.trans hxtop).lt_or_eq with hlt | rfl
    · exact List.mem_cons_of_mem _ (mem_of_runLow (h.trans hvu) hlt)
    · exact List.mem_cons_self

end View

/-! ### The search between two logs -/

/-- **When the search is right.** For any two logs: the matchpoint is the last sync point of the
replica's top run that the feeder has with the same fingerprint, and there is no hole above it,
exactly if the entry that the search starts with is a sync point of the top run or differs from
what the feeder has. -/
theorem findMatchpoint_right_iff (crc : List UInt8 → UInt32) (replica feeder : ReplicaLog) :
    ((findMatchpoint (replica.view crc) (feeder.view crc).entry).IsLast (replica.view crc)
        {v | (replica.view crc).AgreesAt (feeder.view crc).entry v} ∧
      ∀ v lsn, findMatchpoint (replica.view crc) (feeder.view crc).entry = .found v lsn →
        NoHoleAbove (viewEntries replica.scan) v) ↔
    ∀ e, (replica.view crc).entry (replica.view crc).lastSync = some e →
      sameRecord (feeder.view crc).entry (replica.view crc).lastSync e = true →
      (replica.view crc).firstVlsn ≤ (replica.view crc).lastSync ∧ e.isSync = true := by
  have hzero : (replica.view crc).entry 0 = none := by
    by_contra hsome
    obtain ⟨e, he⟩ := Option.ne_none_iff_exists'.mp hsome
    obtain ⟨y, hy, hy0, -⟩ := toView_entry_eq_some he
    exact (ReplicaLog.vlsn_pos (mem_of_mem_viewEntries hy)).ne' hy0
  have hlast : (replica.view crc).lastSync ≠ 0 →
      ∃ e, (replica.view crc).entry (replica.view crc).lastSync = some e := by
    intro hne
    obtain ⟨y, hy, hvlsn⟩ := exists_of_lastSync hne
    rw [show (replica.view crc).lastSync = y.vlsn from hvlsn.symm]
    exact exists_toView_entry hy
  have habove : ∀ v e, (replica.view crc).entry v = some e → e.isSync = true →
      v ≤ (replica.view crc).lastSync := by
    intro v e he hsync
    obtain ⟨y, hy, rfl, hsame⟩ := toView_entry_eq_some he
    exact le_lastSync (mem_of_mem_viewEntries hy) (hsame ▸ hsync)
  rw [← findMatchpoint_isLast_iff hzero hlast habove]
  refine and_iff_left_of_imp fun hright v lsn hfound => ?_
  rw [hfound] at hright
  exact noHoleAbove_first hright.1.1.1

/-- A replica with a commit at VLSN 1 and an insertion at VLSN 3. -/
def logWithHole : ReplicaLog where
  files := [⟨0, fileHeaderSize,
    [.entry ⟨LogEntryType.txnCommit.typeNum, 0x08, 1, []⟩,
      .entry ⟨LogEntryType.insertLNTxn.typeNum, 0x08, 3, []⟩]⟩]
  ascending := List.pairwise_singleton _ _

/-- A feeder with the commit alone. -/
def logWithCommit : ReplicaLog where
  files := [⟨0, fileHeaderSize, [.entry ⟨LogEntryType.txnCommit.typeNum, 0x08, 1, []⟩]⟩]
  ascending := List.pairwise_singleton _ _

/-- **The search returns a VLSN below the hole.** -/
theorem matchpoint_below_hole :
    findMatchpoint (logWithHole.view fun _ => 0) (logWithCommit.view fun _ => 0).entry =
        .found 1 (0, fileHeaderSize) ∧
      (logWithHole.view fun _ => 0).firstVlsn = 3 := by
  decide +kernel

end Noxu
