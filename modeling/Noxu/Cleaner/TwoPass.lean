import Mathlib.Algebra.Order.Ring.Int
import Noxu.Log.Entry

/-!
# The Dry-Run Pass of the Cleaner

Before a file whose utilisation is uncertain is cleaned, the cleaner scans it, adds up what its
expired records occupy, and skips the file if it turns out to be too full. The check compares the
percentage of the **obsolete and expired** bytes with the required utilisation, where the
utilisation is the percentage of the other bytes: the fuller a file, the less it is skipped.

## Main results

* `getExpiredBytes_trackAll`: the bins of the tracker hold the records' sizes by expiration;
* `twoPassCheck_eq`: what the check computes;
* `two_pass_agrees_iff`: when that is the answer it should give.
-/

namespace Noxu

/-! ### Log files -/

/-- An entry as the strict reader of a file returns it. -/
structure FileEntry where
  entryType : LogEntryType
  /-- The bytes of the entry with its header. -/
  size : ℕ
  /-- The expiration of the record in a user's LN, in hours; zero for none. -/
  expiration : ℕ
  size_pos : 0 < size

/-- A log file: its header, the entries the strict reader returns, and its length. -/
structure ScannedFile where
  headerSize : ℕ
  entries : List FileEntry
  length : ℕ
  headerSize_pos : 0 < headerSize

/-- The position behind the last entry. -/
def ScannedFile.endOffset (f : ScannedFile) : ℕ := f.headerSize + (f.entries.map FileEntry.size).sum

/-- `is_user_ln_type`. -/
def LogEntryType.isUserLnType : LogEntryType → Bool
  | insertLN | updateLN | deleteLN | insertLNTxn | updateLNTxn | deleteLNTxn => true
  | _ => false

/-- The other types whose lifetime the cleaner knows. -/
def LogEntryType.isSupportedType : LogEntryType → Bool
  | inNode | bin | binDelta | nameLN | nameLNTxn | fileSummaryLN | txnCommit | txnAbort | ckptStart
  | ckptEnd | fileHeader | trace => true
  | _ => false

/-- Why a file cannot be read. -/
inductive FileCleaningError where
  | unsupported (entryType : LogEntryType)
  | incomplete
  deriving DecidableEq, Repr

/-- The user's LNs among the entries. -/
def decodeLnEntries : List FileEntry → Except FileCleaningError (List FileEntry)
  | [] => .ok []
  | e :: es =>
    if e.entryType.isUserLnType then (decodeLnEntries es).map (e :: ·)
    else if e.entryType.isSupportedType then decodeLnEntries es
    else .error (.unsupported e.entryType)

/-- The user's LNs of a file that is read up to its end. -/
def decodeLnEntriesFromFile (f : ScannedFile) : Except FileCleaningError (List FileEntry) :=
  match decodeLnEntries f.entries with
  | .error e => .error e
  | .ok lns => if f.endOffset = f.length then .ok lns else .error .incomplete

/-! ### The summary of a file -/

/-- The counters of a file that a scan sets. -/
structure FileSummary where
  totalCount : ℤ := 0
  totalSize : ℤ := 0
  totalInCount : ℤ := 0
  totalInSize : ℤ := 0
  totalLnCount : ℤ := 0
  totalLnSize : ℤ := 0
  maxLnSize : ℤ := 0
  deriving DecidableEq, Repr

/-- Addition in 32 bits. -/
def addI32 (a b : ℤ) : Option ℤ := if -2 ^ 31 ≤ a + b ∧ a + b < 2 ^ 31 then some (a + b) else none

/-- One entry of the scan; the counters are 32-bit. -/
def scanEntry (summary : FileSummary) (e : FileEntry) : Option FileSummary := do
  let count ← addI32 summary.totalCount 1
  let summary := { summary with totalCount := count }
  if e.entryType.isLnType then do
    let lnCount ← addI32 summary.totalLnCount 1
    let lnSize ← addI32 summary.totalLnSize e.size
    pure { summary with
      totalLnCount := lnCount, totalLnSize := lnSize, maxLnSize := max summary.maxLnSize e.size }
  else if e.entryType.isInType then do
    let inCount ← addI32 summary.totalInCount 1
    let inSize ← addI32 summary.totalInSize e.size
    pure { summary with totalInCount := inCount, totalInSize := inSize }
  else pure summary

/-- `scan_file_summary`. -/
def scanFileSummary (f : ScannedFile) : Option (Except FileCleaningError FileSummary) := do
  let summary ← f.entries.foldlM scanEntry { totalSize := min f.length (2 ^ 31 - 1) }
  match decodeLnEntriesFromFile f with
  | .error e => pure (.error e)
  | .ok _ => pure (.ok summary)

/-! ### Expired bytes -/

/-- The bytes that expire at one time. -/
structure ExpirationBin where
  expirationTime : ℕ
  count : ℤ
  size : ℤ
  deriving DecidableEq, Repr

/-- Count a record in the bin of its expiration; without an expiration it has none. -/
def track (expirationTime : ℕ) (size : ℤ) : List ExpirationBin → Option (List ExpirationBin)
  | [] => some (if expirationTime = 0 then [] else [⟨expirationTime, 1, size⟩])
  | b :: bs =>
    if expirationTime = 0 then some (b :: bs)
    else if b.expirationTime = expirationTime then do
      let count ← addI32 b.count 1
      let size ← addI32 b.size size
      pure ({ b with count, size } :: bs)
    else (track expirationTime size bs).map (b :: ·)

/-- `get_expired_bytes`: the bytes of the bins that are due. -/
def getExpiredBytes (currentTime : ℕ) (bins : List ExpirationBin) : ℤ :=
  (bins.map fun b =>
    if 0 < b.expirationTime ∧ b.expirationTime ≤ currentTime then b.size else 0).sum

/-- The clock and the settings of the cleaner that bear on expiration. -/
structure ExpirationClock where
  expirationEnabled : Bool
  nowMs : ℕ
  clockToleranceMs : ℕ

/-- The current hour, with the tolerance of the clock. -/
def ExpirationClock.hoursNow (c : ExpirationClock) : ℕ := (c.nowMs - c.clockToleranceMs) / 3600000

/-- A number as a signed one of 32 bits. -/
def wrapI32 (v : ℤ) : ℤ := (v + 2 ^ 31) % 2 ^ 32 - 2 ^ 31

/-- Whether the file is to be skipped. -/
def twoPassCheck (getObsoleteSize : FileSummary → ℤ) (c : ExpirationClock) (f : ScannedFile)
    (requiredUtil : ℤ) : Option Bool := do
  match ← scanFileSummary f with
  | .error _ => pure false
  | .ok summary =>
    if summary.totalSize ≤ 0 then pure false
    else
      match decodeLnEntriesFromFile f with
      | .error _ => pure false
      | .ok entries => do
        let bins ← entries.foldlM (fun bins e => track e.expiration e.size bins) []
        let expiredBytes := if c.expirationEnabled then getExpiredBytes c.hoursNow bins else 0
        let obsolete := getObsoleteSize summary
        let recalcUtil := wrapI32 (((obsolete + expiredBytes) * 100).tdiv summary.totalSize)
        pure (decide (requiredUtil < recalcUtil))

/-! ### The scan -/

/-- A sum within 32 bits. -/
theorem addI32_of_lt {a b : ℤ} (ha : 0 ≤ a + b) (hb : a + b < 2 ^ 31) :
    addI32 a b = some (a + b) := if_pos ⟨by omega, hb⟩

/-- The counters of a scan are within the bytes it has read. -/
structure FileSummary.Within (s : FileSummary) (n : ℤ) : Prop where
  count : 0 ≤ s.totalCount ∧ s.totalCount ≤ n
  lnCount : 0 ≤ s.totalLnCount ∧ s.totalLnCount ≤ n
  lnSize : 0 ≤ s.totalLnSize ∧ s.totalLnSize ≤ n
  inCount : 0 ≤ s.totalInCount ∧ s.totalInCount ≤ n
  inSize : 0 ≤ s.totalInSize ∧ s.totalInSize ≤ n

/-- **One entry** keeps the counters below the bytes read. -/
theorem scanEntry_within {s : FileSummary} {n : ℤ} (h : s.Within n) (e : FileEntry)
    (hlen : n + e.size < 2 ^ 31) :
    ∃ s', scanEntry s e = some s' ∧ s'.Within (n + e.size) ∧ s'.totalSize = s.totalSize := by
  have hpos := e.size_pos
  obtain ⟨hcount, hlnCount, hlnSize, hinCount, hinSize⟩ := h
  rw [scanEntry, addI32_of_lt (by omega) (by omega)]
  simp only [Option.bind_eq_bind, Option.bind_some]
  split
  · rw [addI32_of_lt (by omega) (by omega), addI32_of_lt (by omega) (by omega)]
    refine ⟨_, rfl, ?_, rfl⟩
    constructor <;> dsimp only <;> omega
  · split
    · rw [addI32_of_lt (by omega) (by omega), addI32_of_lt (by omega) (by omega)]
      refine ⟨_, rfl, ?_, rfl⟩
      constructor <;> dsimp only <;> omega
    · refine ⟨_, rfl, ?_, rfl⟩
      constructor <;> dsimp only <;> omega

/-- **All entries.** -/
theorem scanEntries_within (es : List FileEntry) {s : FileSummary} {n : ℤ} (h : s.Within n)
    (hlen : n + (es.map FileEntry.size).sum < 2 ^ 31) :
    ∃ s', es.foldlM scanEntry s = some s' ∧ s'.totalSize = s.totalSize := by
  induction es generalizing s n with
  | nil => exact ⟨s, rfl, rfl⟩
  | cons e es ih =>
    rw [List.map_cons, List.sum_cons] at hlen
    obtain ⟨s₁, hstep, hwithin, htotal⟩ := scanEntry_within h e (by omega)
    obtain ⟨s₂, hrest, htotal'⟩ := ih hwithin (by omega)
    exact ⟨s₂, by rw [List.foldlM_cons, hstep]; exact hrest, htotal'.trans htotal⟩

/-- The entries of a file that is read to its end fit into it. -/
theorem ScannedFile.sum_size_le (f : ScannedFile) (hend : f.endOffset = f.length) :
    (f.entries.map FileEntry.size).sum ≤ f.length := by
  rw [← hend, ScannedFile.endOffset]
  exact Nat.le_add_left _ _

variable {lns : List FileEntry} {bins : List ExpirationBin}

/-- A file of less than 2 GiB has a summary with its length. -/
theorem scanFileSummary_ok {f : ScannedFile}
    (hread : decodeLnEntriesFromFile f = .ok lns) (hlen : f.length < 2 ^ 31)
    (hend : f.endOffset = f.length) :
    ∃ s, scanFileSummary f = some (.ok s) ∧ s.totalSize = f.length := by
  have hsum := f.sum_size_le hend
  have hzero : FileSummary.Within { totalSize := min (f.length : ℤ) (2 ^ 31 - 1) } 0 := by
    constructor <;> exact ⟨le_rfl, le_rfl⟩
  obtain ⟨s, hscan, htotal⟩ := scanEntries_within f.entries hzero (by omega)
  refine ⟨s, ?_, htotal.trans (min_eq_left (by omega))⟩
  rw [scanFileSummary, hscan, hread]
  rfl

/-- What is decoded are the user LNs of the file. -/
theorem decodeLnEntries_eq {es : List FileEntry} (h : decodeLnEntries es = .ok lns) :
    lns = es.filter fun e => e.entryType.isUserLnType := by
  induction es generalizing lns with
  | nil =>
    rw [decodeLnEntries] at h
    exact (Except.ok.inj h).symm
  | cons e es ih =>
    rw [decodeLnEntries] at h
    rw [List.filter_cons]
    split at h
    · next huser =>
      cases hrest : decodeLnEntries es with
      | error err =>
        rw [hrest] at h
        cases h
      | ok rest =>
        rw [hrest] at h
        rw [if_pos huser, ← ih hrest]
        exact (Except.ok.inj h).symm
    · next huser =>
      rw [if_neg huser]
      split at h
      · exact ih h
      · cases h

/-- A file that is read has been read up to its end. -/
theorem decodeLnEntriesFromFile_eq {f : ScannedFile} (h : decodeLnEntriesFromFile f = .ok lns) :
    f.endOffset = f.length ∧ lns = f.entries.filter fun e => e.entryType.isUserLnType := by
  rw [decodeLnEntriesFromFile] at h
  cases hdec : decodeLnEntries f.entries with
  | error err =>
    rw [hdec] at h
    cases h
  | ok rest =>
    rw [hdec] at h
    dsimp only at h
    split at h
    · next hend => exact ⟨hend, (Except.ok.inj h) ▸ decodeLnEntries_eq hdec⟩
    · cases h

/-! ### The tracker -/

/-- What a record adds to the expired bytes. -/
def expiredSize (now : ℕ) (expiration : ℕ) (size : ℤ) : ℤ :=
  if 0 < expiration ∧ expiration ≤ now then size else 0

/-- The bins are within the bytes of the records they count. -/
def BinsWithin (bins : List ExpirationBin) (n : ℤ) : Prop :=
  ∀ b ∈ bins, (0 ≤ b.count ∧ b.count ≤ n) ∧ 0 ≤ b.size ∧ b.size ≤ n

/-- A larger bound holds as well. -/
theorem BinsWithin.mono {n m : ℤ} (h : BinsWithin bins n) (hnm : n ≤ m) : BinsWithin bins m := by
  intro b hb
  have := h b hb
  omega

/-- A record is counted in the bin of its expiration. -/
theorem track_spec {n : ℤ} (t : ℕ) (size : ℤ) (h : BinsWithin bins n)
    (hn : 0 ≤ n) (hsize : 0 < size) (hlen : n + size < 2 ^ 31) :
    ∃ bins', track t size bins = some bins' ∧ BinsWithin bins' (n + size) ∧
      ∀ now, getExpiredBytes now bins' = getExpiredBytes now bins + expiredSize now t size := by
  by_cases ht : t = 0
  · subst ht
    refine ⟨bins, ?_, h.mono (by omega), fun now => by simp [expiredSize]⟩
    cases bins <;> rfl
  induction bins with
  | nil =>
    refine ⟨[⟨t, 1, size⟩], by rw [track, if_neg ht], ?_, fun now => ?_⟩
    · intro b hb
      obtain rfl := List.mem_singleton.mp hb
      dsimp only
      omega
    · simp [getExpiredBytes, expiredSize]
  | cons b bs ih =>
    have hb := h b List.mem_cons_self
    have hbs : BinsWithin bs n := fun x hx => h x (List.mem_cons_of_mem b hx)
    by_cases hkey : b.expirationTime = t
    · refine ⟨{ b with count := b.count + 1, size := b.size + size } :: bs, ?_, ?_, ?_⟩
      · rw [track, if_neg ht, if_pos hkey, addI32_of_lt (by omega) (by omega),
          addI32_of_lt (by omega) (by omega)]
        rfl
      · intro x hx
        rcases List.mem_cons.mp hx with rfl | hx
        · dsimp only
          omega
        · have := hbs x hx
          omega
      · intro now
        simp only [getExpiredBytes, expiredSize, List.map_cons, List.sum_cons, hkey]
        split <;> omega
    · obtain ⟨bs', htrack, hwithin, hexp⟩ := ih hbs
      refine ⟨b :: bs', ?_, ?_, ?_⟩
      · rw [track, if_neg ht, if_neg hkey, htrack]
        rfl
      · intro x hx
        rcases List.mem_cons.mp hx with rfl | hx
        · omega
        · exact hwithin x hx
      · intro now
        have := hexp now
        simp only [getExpiredBytes, List.map_cons, List.sum_cons] at this ⊢
        omega

/-- **The bins hold the sizes of the records by their expiration.** -/
theorem getExpiredBytes_trackAll (lns : List FileEntry) {n : ℤ} (h : BinsWithin bins n) (hn : 0 ≤ n)
    (hlen : n + (lns.map FileEntry.size).sum < 2 ^ 31) :
    ∃ bins', lns.foldlM (fun bins e => track e.expiration e.size bins) bins = some bins' ∧
      ∀ now, getExpiredBytes now bins' = getExpiredBytes now bins +
        (lns.map fun e => expiredSize now e.expiration e.size).sum := by
  induction lns generalizing bins n with
  | nil => exact ⟨bins, rfl, fun now => by simp⟩
  | cons e lns ih =>
    rw [List.map_cons, List.sum_cons] at hlen
    have hpos := e.size_pos
    obtain ⟨bins₁, hstep, hwithin, hexp⟩ :=
      track_spec e.expiration e.size h hn (by omega) (by omega)
    obtain ⟨bins₂, hrest, hexp'⟩ := ih hwithin (by omega) (by omega)
    refine ⟨bins₂, by rw [List.foldlM_cons, hstep]; exact hrest, fun now => ?_⟩
    rw [hexp', hexp, List.map_cons, List.sum_cons]
    omega

/-! ### The check -/

/-- The bytes of the records that have expired, as far as expiration is on. -/
def ScannedFile.expiredBytes (f : ScannedFile) (c : ExpirationClock) : ℤ :=
  if c.expirationEnabled then
    ((f.entries.filter fun e => e.entryType.isUserLnType).map fun e =>
      expiredSize c.hoursNow e.expiration e.size).sum
  else 0

/-- The expired bytes are among all of them. -/
theorem sum_expiredSize_bounds (now : ℕ) (es : List FileEntry) :
    0 ≤ (es.map fun e => expiredSize now e.expiration e.size).sum ∧
      (es.map fun e => expiredSize now e.expiration e.size).sum ≤
        ((es.map FileEntry.size).sum : ℕ) := by
  induction es with
  | nil => exact ⟨le_rfl, le_rfl⟩
  | cons e es ih =>
    simp only [List.map_cons, List.sum_cons, expiredSize] at ih ⊢
    split <;> omega

/-- Some of the entries have at most the bytes of all. -/
theorem sum_filter_le (p : FileEntry → Bool) (es : List FileEntry) :
    ((es.filter p).map FileEntry.size).sum ≤ (es.map FileEntry.size).sum := by
  induction es with
  | nil => exact le_rfl
  | cons e es ih =>
    rw [List.filter_cons]
    split <;> simp only [List.map_cons, List.sum_cons] <;> omega

/-- **What the check computes**: whether the obsolete and expired bytes are a greater part than
required, in whole percent. -/
theorem twoPassCheck_eq {getObsoleteSize : FileSummary → ℤ} {c : ExpirationClock} {f : ScannedFile}
    {s : FileSummary} (hread : decodeLnEntriesFromFile f = .ok lns)
    (hlen : f.length < 2 ^ 31) (hscan : scanFileSummary f = some (.ok s))
    (htotal : s.totalSize = f.length)
    (hobs : 0 ≤ getObsoleteSize s ∧ getObsoleteSize s ≤ f.length) (r : ℤ) :
    twoPassCheck getObsoleteSize c f r =
      some (decide ((r + 1) * f.length ≤ (getObsoleteSize s + f.expiredBytes c) * 100)) := by
  obtain ⟨hend, rfl⟩ := decodeLnEntriesFromFile_eq hread
  have hpos : 0 < f.length := by
    rw [← hend, ScannedFile.endOffset]
    exact Nat.add_pos_left f.headerSize_pos _
  have hfilter := sum_filter_le (fun e => e.entryType.isUserLnType) f.entries
  have hsum := f.sum_size_le hend
  have hnone : BinsWithin [] 0 := fun b hb => absurd hb List.not_mem_nil
  obtain ⟨bins, hbins, hexp⟩ :=
    getExpiredBytes_trackAll (f.entries.filter fun e => e.entryType.isUserLnType) hnone le_rfl
      (by omega)
  have hexpired : (if c.expirationEnabled then getExpiredBytes c.hoursNow bins else 0) =
      f.expiredBytes c := by
    rw [ScannedFile.expiredBytes, hexp]
    simp [getExpiredBytes]
  have hbound : 0 ≤ f.expiredBytes c ∧ f.expiredBytes c ≤ f.length := by
    have hall := sum_expiredSize_bounds c.hoursNow
      (f.entries.filter fun e => e.entryType.isUserLnType)
    rw [ScannedFile.expiredBytes]
    split <;> omega
  simp only [twoPassCheck, hscan, hread, hbins, htotal, hexpired, Option.bind_eq_bind,
    Option.bind_some, if_neg (show ¬ (f.length : ℤ) ≤ 0 by omega), Option.pure_def]
  have hdead : 0 ≤ getObsoleteSize s + f.expiredBytes c ∧
      getObsoleteSize s + f.expiredBytes c ≤ 2 * f.length := by omega
  generalize getObsoleteSize s + f.expiredBytes c = dead at hdead ⊢
  have hdiv : (dead * 100).tdiv f.length = dead * 100 / f.length :=
    Int.tdiv_eq_ediv_of_nonneg (by omega)
  have hlow : 0 ≤ dead * 100 / (f.length : ℤ) := Int.ediv_nonneg (by omega) (by omega)
  have hhigh : dead * 100 / (f.length : ℤ) ≤ 200 := by
    refine Int.ediv_le_of_le_mul (by omega) ?_
    omega
  have hwrap : wrapI32 ((dead * 100).tdiv f.length) = dead * 100 / f.length := by
    rw [hdiv, wrapI32, Int.emod_eq_of_lt (by omega) (by omega)]
    omega
  rw [hwrap]
  congr 2
  rw [eq_iff_iff, ← Int.add_one_le_iff, Int.le_ediv_iff_mul_le (by omega)]

/-- The percentage of the bytes that are neither obsolete nor expired is greater than required. -/
def ScannedFile.TooFull (f : ScannedFile) (dead r : ℤ) : Prop :=
  r * f.length < (f.length - dead) * 100

/-- **When the check gives the answer it should.** For a file that can be read it returns, and it
skips exactly the files that are too full if and only if the obsolete and expired bytes lie between
the two thresholds. Of two files of one length, the one with fewer of these bytes is accepted and
the other skipped if and only if the threshold of the check lies between them. -/
theorem two_pass_agrees_iff (getObsoleteSize : FileSummary → ℤ) (c : ExpirationClock)
    {f g : ScannedFile} {lns lns' : List FileEntry} (hread : decodeLnEntriesFromFile f = .ok lns)
    (hread' : decodeLnEntriesFromFile g = .ok lns') (hlen : f.length < 2 ^ 31)
    (hsame : g.length = f.length) (r : ℤ) :
    ∃ s s', scanFileSummary f = some (.ok s) ∧ scanFileSummary g = some (.ok s') ∧
      ((0 ≤ getObsoleteSize s ∧ getObsoleteSize s ≤ f.length) →
        (0 ≤ getObsoleteSize s' ∧ getObsoleteSize s' ≤ f.length) →
        ∃ skip skip', twoPassCheck getObsoleteSize c f r = some skip ∧
          twoPassCheck getObsoleteSize c g r = some skip' ∧
          let dead := getObsoleteSize s + f.expiredBytes c
          let dead' := getObsoleteSize s' + g.expiredBytes c
          ((skip = true ↔ f.TooFull dead r) ↔
            min ((r + 1) * f.length) ((100 - r) * f.length) ≤ dead * 100 ∧
              dead * 100 < max ((r + 1) * f.length) ((100 - r) * f.length)) ∧
          ((skip = false → skip' = false) ↔
            ¬ (dead * 100 < (r + 1) * f.length ∧ (r + 1) * f.length ≤ dead' * 100))) := by
  obtain ⟨s, hscan, htotal⟩ := scanFileSummary_ok hread hlen (decodeLnEntriesFromFile_eq hread).1
  obtain ⟨s', hscan', htotal'⟩ :=
    scanFileSummary_ok hread' (hsame ▸ hlen) (decodeLnEntriesFromFile_eq hread').1
  refine ⟨s, s', hscan, hscan', fun hobs hobs' => ⟨_, _,
    twoPassCheck_eq hread hlen hscan htotal hobs r,
    twoPassCheck_eq hread' (hsame ▸ hlen) hscan' htotal' (hsame ▸ hobs') r, ?_, ?_⟩⟩
  · have hfull : f.TooFull (getObsoleteSize s + f.expiredBytes c) r ↔
        (getObsoleteSize s + f.expiredBytes c) * 100 < (100 - r) * f.length := by
      rw [ScannedFile.TooFull, Int.sub_mul, Int.sub_mul]
      omega
    rw [decide_eq_true_iff, hfull]
    omega
  · rw [decide_eq_false_iff_not, decide_eq_false_iff_not, hsame]
    omega

/-- A file of 1000 bytes with a header of 40 and one insertion. -/
def oneRecordFile (expiration : ℕ) : ScannedFile where
  headerSize := 40
  entries := [⟨.insertLN, 960, expiration, by decide⟩]
  length := 1000
  headerSize_pos := by decide

/-- The obsolete size of a scanned file, in which no entry is counted obsolete: what is neither an
LN nor a node. -/
def leftoverSize (s : FileSummary) : ℤ := s.totalSize - (s.totalInSize + s.totalLnSize)

/-- At a required utilisation of 45 percent, the file whose record has not expired is 96 percent
full and accepted, and with the record expired it is empty and skipped. -/
theorem full_file_accepted_empty_file_skipped :
    (oneRecordFile 0).TooFull 40 45 ∧
      twoPassCheck leftoverSize ⟨true, 7200000, 0⟩ (oneRecordFile 0) 45 = some false ∧
      ¬ (oneRecordFile 1).TooFull 1000 45 ∧
      twoPassCheck leftoverSize ⟨true, 7200000, 0⟩ (oneRecordFile 1) 45 = some true := by
  refine ⟨by unfold ScannedFile.TooFull; decide, by decide +kernel,
    by unfold ScannedFile.TooFull; decide, by decide +kernel⟩

/-- A file of 1000 bytes with an expired record of 460 and a live one of 500. -/
def halfExpiredFile : ScannedFile where
  headerSize := 40
  entries := [⟨.insertLN, 460, 1, by decide⟩, ⟨.insertLN, 500, 0, by decide⟩]
  length := 1000
  headerSize_pos := by decide

/-- Half of the file is dead, which lies between the two thresholds at 45 percent: it is too full
and skipped. -/
theorem two_pass_agrees_iff_halfExpiredFile :
    halfExpiredFile.TooFull 500 45 ∧
      twoPassCheck leftoverSize ⟨true, 7200000, 0⟩ halfExpiredFile 45 = some true := by
  have hread : decodeLnEntriesFromFile halfExpiredFile = .ok halfExpiredFile.entries := rfl
  obtain ⟨s, s', hscan, hscan', hcheck⟩ :=
    two_pass_agrees_iff leftoverSize ⟨true, 7200000, 0⟩ hread hread (by decide) rfl 45
  obtain rfl : s = ⟨2, 1000, 0, 0, 2, 960, 500⟩ :=
    Except.ok.inj (Option.some.inj (hscan.symm.trans rfl))
  obtain rfl := Except.ok.inj (Option.some.inj (hscan.symm.trans hscan'))
  obtain ⟨skip, skip', h, -, hagrees, -⟩ := hcheck (by decide) (by decide)
  have hfull : halfExpiredFile.TooFull 500 45 := by
    unfold ScannedFile.TooFull
    decide
  refine ⟨hfull, ?_⟩
  rw [h, (hagrees.mpr (by decide)).mpr hfull]

end Noxu
