import Mathlib.Data.List.TakeWhile
import Noxu.Library.PairList
import Noxu.Library.Run
import Noxu.Recovery.Redo

/-!
# The Disk-Ordered Cursor

A disk-ordered cursor returns the records of some databases in the order of the log. A producer
thread scans the log file by file, drops deletions and the records of other databases, drops the
later records of a key if that is asked for, and hands the rest over a queue with a bounded length
and a bound on its bytes; the cursor takes them from there and reports the end when the producer is
done.

The scan of a file has no way to fail. It ends at the first entry that cannot be read and passes
over a file that cannot be loaded, and the producer goes on with the next file. The keys seen so far
are remembered without their database.

## Main results

* `DocState.handed_over`: what a run of the two threads hands over;
* `disk_ordered_right_iff`: a cursor that reports the end has returned the records it is to return
  exactly if the log can be read whole, or a file is refused, and no two of the records that are to
  be returned once for each key have one key in two databases.
-/

namespace Noxu

open Library

/-! ### The log -/

/-- A logged record, with the bytes its entry has for the data. -/
structure LoggedLn where
  dbId : ℕ
  operation : LnOperation
  key : Key
  payload : List UInt8
  deriving DecidableEq, Repr

/-- The data as it is parsed: a deletion has none. -/
def LoggedLn.data (ln : LoggedLn) : Option (List UInt8) :=
  match ln.operation with
  | .delete => none
  | _ => some ln.payload

/-- What the scan finds at an offset. -/
inductive Segment where
  /-- An entry, which may be of another type. -/
  | entry (ln : Option LoggedLn)
  /-- An LN whose payload is refused; the scan goes on behind it. -/
  | refused
  /-- Bytes that are no entry (`parse_entry_from_bytes` gives `None`). -/
  | damaged
  deriving DecidableEq, Repr

/-- The bytes are an entry, and the scan goes on. -/
def Segment.isEntry : Segment → Bool
  | .entry _ | .refused => true
  | .damaged => false

/-- The bytes are an entry that can be read. -/
def Segment.isReadable : Segment → Bool
  | .entry _ => true
  | .refused | .damaged => false

/-- The record of an entry. -/
def Segment.ln : Segment → Option LoggedLn
  | .entry ln => ln
  | .refused | .damaged => none

/-- A file of the log. -/
structure LogFile where
  number : ℕ
  /-- The highest number is that of transient positions. -/
  number_lt : number < 2 ^ 32 - 1
  /-- The header is accepted (`get_file_handle`). -/
  headerOk : Bool
  /-- The bytes can be read (`load_file_bytes`). -/
  loads : Bool
  segments : List Segment

/-- The records of a file, up to the start of the next one (`scan_forward`). -/
def LogFile.scanForward (f : LogFile) : List LoggedLn :=
  let stop := min (f.number + 1) (2 ^ 32 - 1)
  if f.loads ∧ f.number < stop then
    (f.segments.takeWhile Segment.isEntry).filterMap Segment.ln
  else []

/-! ### The producer -/

/-- The options that the result depends on, and the limits of the queue. -/
structure DocOptions where
  queueSize : ℕ
  /-- `none` for no limit. -/
  internalMemoryLimit : Option ℕ
  keysOnly : Bool
  dedupKeys : Bool
  producerQueueTimeoutMs : ℕ

/-- A key and its data. -/
abbrev Doc := Key × List UInt8

/-- What the producer sends. -/
inductive DocItem where
  | doc (d : Doc)
  | failed
  deriving DecidableEq, Repr

/-- What is returned for a record. -/
def DocOptions.docOf (opts : DocOptions) (ln : LoggedLn) : Doc :=
  (ln.key, if opts.keysOnly then [] else ln.data.getD [])

/-- One entry of the scan, with what was sent and the keys seen so far. -/
def emit (opts : DocOptions) (targets : List ℕ) (s : List Doc × List Key) (ln : LoggedLn) :
    List Doc × List Key :=
  if ln.operation = .delete ∨ ln.data.isNone then s
  else if ln.dbId ∉ targets then s
  else if opts.dedupKeys ∧ ln.key ∈ s.2 then s
  else (s.1 ++ [opts.docOf ln], if opts.dedupKeys then s.2 ++ [ln.key] else s.2)

/-- The producer from some file on. -/
def produceFiles (opts : DocOptions) (targets : List ℕ) (s : List Doc × List Key) :
    List LogFile → List DocItem
  | [] => s.1.map .doc
  | f :: fs =>
    if f.headerOk then produceFiles opts targets (f.scanForward.foldl (emit opts targets) s) fs
    else s.1.map .doc ++ [.failed]

/-- All that the producer sends; `none` if the files cannot be listed. -/
def produce (opts : DocOptions) (targets : List ℕ) : Option (List LogFile) → List DocItem
  | none => [.failed]
  | some files => produceFiles opts targets ([], []) files

/-! ### The queue -/

/-- How far the cursor is. -/
inductive DocStatus where
  | reading
  /-- The end was reported. -/
  | drained
  /-- An error was reported. -/
  | failed
  deriving DecidableEq, Repr

theorem DocStatus.cases (status : DocStatus) :
    status = .reading ∨ status = .drained ∨ status = .failed := by
  cases status <;> simp

/-- The two threads: what is still to be sent, what is in the queue and what was returned. -/
structure DocState where
  pending : List DocItem
  queue : List DocItem
  inUse : ℕ
  received : List Doc
  status : DocStatus
  deriving DecidableEq, Repr

/-- The producer sends an item, or gives up on a full queue; the cursor asks for an item. -/
inductive DocEvent where
  | send
  | timeOut
  | receive
  deriving DecidableEq, Repr

/-- The bytes of an item. -/
def Doc.bytes (d : Doc) : ℕ := d.1.length + d.2.length

/-- There is room for an item (`reserve`); one item always has. -/
def DocOptions.reserves (opts : DocOptions) (s : DocState) (d : Doc) : Prop :=
  ∀ limit ∈ opts.internalMemoryLimit, s.inUse = 0 ∨ s.inUse + d.bytes ≤ limit

instance (opts : DocOptions) (s : DocState) (d : Doc) : Decidable (opts.reserves s d) :=
  match h : opts.internalMemoryLimit with
  | none => .isTrue (by simp [DocOptions.reserves, h])
  | some limit =>
    decidable_of_iff (s.inUse = 0 ∨ s.inUse + d.bytes ≤ limit) (by simp [DocOptions.reserves, h])

/-- A step of one of the threads; `none` while it waits. -/
def DocState.step (opts : DocOptions) (s : DocState) : DocEvent → Option DocState
  | .send =>
    if s.queue.length < max opts.queueSize 1 then
      match s.pending with
      | .doc d :: rest =>
        if opts.reserves s d then
          some { s with
            pending := rest
            queue := s.queue ++ [.doc d]
            inUse := s.inUse + d.bytes }
        else none
      | .failed :: rest => some { s with pending := rest, queue := s.queue ++ [.failed] }
      | [] => none
    else none
  | .timeOut =>
    match s.pending with
    | .doc d :: _ =>
      if opts.producerQueueTimeoutMs ≠ 0 ∧ opts.reserves s d ∧
          max opts.queueSize 1 ≤ s.queue.length then some { s with pending := [.failed] }
      else none
    | _ => none
  | .receive =>
    if s.status ≠ .reading then none
    else
      match s.queue with
      | .doc d :: rest =>
        some { s with
          queue := rest
          inUse := s.inUse - d.bytes
          received := s.received ++ [d] }
      | .failed :: rest => some { s with queue := rest, status := .failed }
      | [] => if s.pending = [] then some { s with status := .drained } else none

/-- A cursor that was opened. -/
def DocState.opened (items : List DocItem) : DocState := ⟨items, [], 0, [], .reading⟩

/-! ### What the cursor is to return -/

/-- The file can be read to its end, every entry of it. -/
def LogFile.Whole (f : LogFile) : Prop :=
  f.headerOk ∧ f.loads ∧ ∀ seg ∈ f.segments, seg.isReadable

instance (f : LogFile) : Decidable f.Whole := inferInstanceAs (Decidable (_ ∧ _ ∧ _))

/-- The record is one of a target database and no deletion. -/
def LoggedLn.isWanted (targets : List ℕ) (ln : LoggedLn) : Bool :=
  ln.operation ≠ .delete ∧ ln.dbId ∈ targets

/-- The records that are wanted, in the order of the log. -/
def wantedOf (targets : List ℕ) (files : List LogFile) : List LoggedLn :=
  (files.flatMap fun f => f.segments.filterMap Segment.ln).filter (LoggedLn.isWanted targets)

/-- The result, `none` for an error: of each key of each database only the first if so asked. -/
def expected (opts : DocOptions) (targets : List ℕ) (files : List LogFile) : Option (List Doc) :=
  if ∀ f ∈ files, f.Whole then
    let wanted := wantedOf targets files
    some ((if opts.dedupKeys then keepFirst (fun ln => (ln.dbId, ln.key)) wanted
      else wanted).map opts.docOf)
  else none

/-- The log is one for which the cursor is right. -/
def RightLog (opts : DocOptions) (targets : List ℕ) : Option (List LogFile) → Prop
  | none => True
  | some files => (∃ f ∈ files, f.headerOk = false) ∨
      (∀ f ∈ files, f.Whole) ∧
        (opts.dedupKeys → ∀ ln ∈ wantedOf targets files, ∀ ln' ∈ wantedOf targets files,
          ln.key = ln'.key → ln.dbId = ln'.dbId)

/-! ### What is sent -/

variable {opts : DocOptions} {targets : List ℕ} {files : List LogFile} {items : List DocItem}

/-- The records that the producer keeps: with the option, the first of each key. -/
def DocOptions.keep (opts : DocOptions) (lns : List LoggedLn) : List LoggedLn :=
  if opts.dedupKeys then keepFirst LoggedLn.key lns else lns

/-- The keys that the producer remembers. -/
def DocOptions.seen (opts : DocOptions) (lns : List LoggedLn) : List Key :=
  if opts.dedupKeys then (opts.keep lns).map LoggedLn.key else []

/-- **The scan** drops what is not wanted and what is not kept. -/
theorem foldl_emit (opts : DocOptions) (targets : List ℕ) (lns : List LoggedLn) :
    lns.foldl (emit opts targets) ([], []) =
      ((opts.keep (lns.filter (LoggedLn.isWanted targets))).map opts.docOf,
        opts.seen (lns.filter (LoggedLn.isWanted targets))) := by
  induction lns using List.reverseRecOn with
  | nil => cases hdedup : opts.dedupKeys <;> simp [DocOptions.keep, DocOptions.seen, hdedup]
  | append_singleton lns ln ih =>
    rw [List.foldl_concat, ih, List.filter_append]
    generalize lns.filter (LoggedLn.isWanted targets) = wanted
    have hdata : (ln.operation = .delete ∨ ln.data.isNone) ↔ ln.operation = .delete := by
      cases hop : ln.operation <;> simp [LoggedLn.data, hop]
    rw [emit]
    simp only [hdata]
    by_cases hln : ln.operation ≠ .delete ∧ ln.dbId ∈ targets
    · have hkeep : [ln].filter (LoggedLn.isWanted targets) = [ln] := by
        simp [LoggedLn.isWanted, hln.1, hln.2]
      rw [if_neg hln.1, if_neg (not_not.mpr hln.2), hkeep]
      cases hdedup : opts.dedupKeys with
      | false => simp [DocOptions.keep, DocOptions.seen, hdedup]
      | true =>
        simp only [DocOptions.keep, DocOptions.seen, hdedup, if_true, true_and,
          keepFirst_concat]
        split
        · rfl
        · rw [List.map_append, List.map_append, List.map_singleton, List.map_singleton]
    · have hdrop : [ln].filter (LoggedLn.isWanted targets) = [] := by
        simpa [LoggedLn.isWanted] using hln
      rw [hdrop, List.append_nil]
      split
      · rfl
      case isFalse hop => rw [if_pos fun hdb => hln ⟨hop, hdb⟩]

/-- All headers are accepted: the files are scanned one after the other. -/
theorem produceFiles_eq (hheader : ∀ f ∈ files, f.headerOk) (s : List Doc × List Key) :
    produceFiles opts targets s files =
      ((files.flatMap LogFile.scanForward).foldl (emit opts targets) s).1.map .doc := by
  induction files generalizing s with
  | nil => rfl
  | cons f fs ih =>
    rw [produceFiles, if_pos (hheader f List.mem_cons_self),
      ih fun g hg => hheader g (List.mem_cons_of_mem _ hg), List.flatMap_cons, List.foldl_append]

theorem failed_mem_produceFiles (hheader : ∃ f ∈ files, f.headerOk = false)
    (s : List Doc × List Key) : .failed ∈ produceFiles opts targets s files := by
  induction files generalizing s with
  | nil =>
    obtain ⟨f, hf, -⟩ := hheader
    cases hf
  | cons f fs ih =>
    rw [produceFiles]
    split
    case isTrue hok =>
      obtain ⟨g, hg, hbad⟩ := hheader
      rcases List.mem_cons.mp hg with rfl | hg
      · rw [hbad] at hok
        cases hok
      · exact ih ⟨g, hg, hbad⟩ _
    · exact List.mem_append_right _ (List.mem_singleton.mpr rfl)

theorem LogFile.Whole.scanForward {f : LogFile} (h : f.Whole) :
    f.scanForward = f.segments.filterMap Segment.ln := by
  have hnum := f.number_lt
  have hstop : f.number < min (f.number + 1) (2 ^ 32 - 1) := by omega
  have hentries : ∀ seg ∈ f.segments, seg.isEntry = true := by
    intro seg hseg
    have hread := h.2.2 seg hseg
    cases seg with
    | entry ln => rfl
    | refused | damaged => cases hread
  rw [LogFile.scanForward, if_pos ⟨h.2.1, hstop⟩, List.takeWhile_eq_self_iff.mpr hentries]

/-! ### What is handed over -/

/-- The items are handed over in order, or an error is on its way. -/
def DocState.Inv (items : List DocItem) (s : DocState) : Prop :=
  s.status = .failed ∨ s.status = .reading ∧ .failed ∈ s.queue ++ s.pending ∨
    s.received.map .doc ++ s.queue ++ s.pending = items ∧
      (s.status = .drained → s.queue = [] ∧ s.pending = [])

/-- The producer moves an item from one list to the other. -/
theorem DocState.Inv.send {s s' : DocState} (h : s.Inv items)
    (hmoved : s'.queue ++ s'.pending = s.queue ++ s.pending) (hwork : s.pending ≠ [])
    (hstatus : s'.status = s.status) (hreceived : s'.received = s.received) : s'.Inv items := by
  rcases h with h | ⟨h, hfail⟩ | ⟨h, hend⟩
  · exact Or.inl (hstatus.trans h)
  · exact Or.inr (Or.inl ⟨hstatus.trans h, hmoved ▸ hfail⟩)
  · refine Or.inr (Or.inr ⟨?_, fun hd => absurd (hend (hstatus ▸ hd)).2 hwork⟩)
    rwa [hreceived, List.append_assoc, hmoved, ← List.append_assoc]

/-- **One step.** -/
theorem DocState.Inv.step {s s' : DocState} {e : DocEvent} (h : s.Inv items)
    (hstep : s.step opts e = some s') : s'.Inv items := by
  cases e with
  | send =>
    rw [DocState.step] at hstep
    split at hstep
    · split at hstep
      case h_1 d rest hp =>
        split at hstep
        · obtain rfl := Option.some.inj hstep
          exact h.send (by simp [hp]) (by simp [hp]) rfl rfl
        · cases hstep
      case h_2 rest hp =>
        obtain rfl := Option.some.inj hstep
        exact h.send (by simp [hp]) (by simp [hp]) rfl rfl
      · cases hstep
    · cases hstep
  | timeOut =>
    rw [DocState.step] at hstep
    split at hstep
    case h_1 d rest hp =>
      split at hstep
      · obtain rfl := Option.some.inj hstep
        rcases h with h | ⟨h, -⟩ | ⟨-, hend⟩
        · exact Or.inl h
        · exact Or.inr (Or.inl ⟨h, by simp⟩)
        · rcases DocStatus.cases s.status with hs | hs | hs
          · exact Or.inr (Or.inl ⟨hs, by simp⟩)
          · rw [(hend hs).2] at hp
            cases hp
          · exact Or.inl hs
      · cases hstep
    · cases hstep
  | receive =>
    rw [DocState.step] at hstep
    split at hstep
    · cases hstep
    case isFalse hreading =>
      have hs : s.status = .reading := not_not.mp hreading
      split at hstep
      case h_1 d rest hq =>
        obtain rfl := Option.some.inj hstep
        rcases h with h | ⟨-, hfail⟩ | ⟨h, -⟩
        · exact Or.inl h
        · rw [hq] at hfail
          exact Or.inr (Or.inl ⟨hs, by simpa using hfail⟩)
        · rw [hq] at h
          exact Or.inr (Or.inr ⟨by simpa using h, fun hd => absurd (hs.symm.trans hd) nofun⟩)
      · obtain rfl := Option.some.inj hstep
        exact Or.inl rfl
      case h_3 hq =>
        split at hstep
        case isTrue hp =>
          obtain rfl := Option.some.inj hstep
          rcases h with h | ⟨-, hfail⟩ | ⟨h, -⟩
          · exact absurd (hs.symm.trans h) nofun
          · rw [hq, hp] at hfail
            cases hfail
          · exact Or.inr (Or.inr ⟨h, fun _ => ⟨hq, hp⟩⟩)
        · cases hstep

/-- **What a run hands over**: a cursor that reports the end has returned all items, and no item
was an error. -/
theorem DocState.handed_over {es : List DocEvent} {s : DocState}
    (hrun : run (DocState.step opts) (.opened items) es = some s) (hend : s.status = .drained) :
    items = s.received.map .doc := by
  have hstart : (DocState.opened items).Inv items := Or.inr (Or.inr ⟨rfl, nofun⟩)
  have hmeets : Meets (DocState.step opts) (fun _ _ => True) (.opened items) es :=
    meets_of_invariant (fun _ _ _ (_ : True) _ => trivial) (fun _ _ (_ : True) => trivial) trivial
  have hinv : s.Inv items := run_invariant (fun _ _ _ h _ hstep => h.step hstep) hstart hmeets hrun
  rcases hinv with h | ⟨h, -⟩ | ⟨h, hnil⟩
  · exact absurd (hend.symm.trans h) nofun
  · exact absurd (hend.symm.trans h) nofun
  · obtain ⟨hq, hp⟩ := hnil hend
    rw [hq, hp, List.append_nil, List.append_nil] at h
    exact h.symm

/-- The threads can take turns: then all items are handed over and the end is reported. -/
theorem DocState.exists_drained (opts : DocOptions) (docs received : List Doc) :
    ∃ es, run (DocState.step opts) ⟨docs.map .doc, [], 0, received, .reading⟩ es =
      some ⟨[], [], 0, received ++ docs, .drained⟩ := by
  induction docs generalizing received with
  | nil => exact ⟨[.receive], by simp [run, DocState.step]⟩
  | cons d docs ih =>
    obtain ⟨es, hes⟩ := ih (received ++ [d])
    refine ⟨.send :: .receive :: es, ?_⟩
    have hroom : opts.reserves ⟨.doc d :: docs.map .doc, [], 0, received, .reading⟩ d :=
      fun _ _ => Or.inl rfl
    rw [List.append_assoc, List.singleton_append] at hes
    simp only [run, DocState.step, List.map_cons, List.length_nil, if_pos hroom]
    rw [if_pos (by omega)]
    simpa using hes

/-! ### The result -/

/-- The first of each key is the first of each key of each database exactly if no key is in two
databases. -/
theorem keep_eq_iff {lns : List LoggedLn} :
    (keepFirst LoggedLn.key lns).map opts.docOf =
        (keepFirst (fun ln : LoggedLn => (ln.dbId, ln.key)) lns).map opts.docOf ↔
      ∀ ln ∈ lns, ∀ ln' ∈ lns, ln.key = ln'.key → ln.dbId = ln'.dbId := by
  constructor
  · intro heq ln hln ln' hln' hkey
    have hkeys : (keepFirst LoggedLn.key lns).map LoggedLn.key =
        (keepFirst (fun ln : LoggedLn => (ln.dbId, ln.key)) lns).map LoggedLn.key := by
      simpa [DocOptions.docOf, Function.comp_def] using congrArg (List.map Prod.fst) heq
    have hnodup := hkeys ▸ nodup_map_keepFirst LoggedLn.key lns
    -- both records are kept for their databases, under one key
    have hkept : ∀ x ∈ lns, ∃ y ∈ keepFirst (fun ln : LoggedLn => (ln.dbId, ln.key)) lns,
        (y.dbId, y.key) = (x.dbId, x.key) := fun x hx =>
      List.mem_map.mp (mem_map_keepFirst.mpr (List.mem_map.mpr ⟨x, hx, rfl⟩))
    obtain ⟨y, hy, hyeq⟩ := hkept ln hln
    obtain ⟨y', hy', hyeq'⟩ := hkept ln' hln'
    obtain ⟨hdb, hk⟩ := Prod.mk.inj hyeq
    obtain ⟨hdb', hk'⟩ := Prod.mk.inj hyeq'
    have hsame := List.inj_on_of_nodup_map hnodup hy hy' (by rw [hk, hk', hkey])
    rw [← hdb, ← hdb', hsame]
  · intro h
    have hsame : keepFirst LoggedLn.key lns = keepFirst (fun ln => (ln.dbId, ln.key)) lns :=
      keepFirst_congr fun x hx y hy =>
        ⟨fun hkey => Prod.ext (h x hx y hy hkey) hkey, fun hpair => (Prod.mk.inj hpair).2⟩
    rw [hsame]

/-- What is sent if no file is refused. -/
def sentDocs (opts : DocOptions) (targets : List ℕ) (files : List LogFile) : List Doc :=
  ((files.flatMap LogFile.scanForward).foldl (emit opts targets) ([], [])).1

theorem sentDocs_whole (hwhole : ∀ f ∈ files, f.Whole) :
    sentDocs opts targets files = (opts.keep (wantedOf targets files)).map opts.docOf := by
  have hscan : files.flatMap LogFile.scanForward =
      files.flatMap fun f => f.segments.filterMap Segment.ln :=
    List.flatMap_congr fun f hf => (hwhole f hf).scanForward
  rw [sentDocs, hscan, foldl_emit, wantedOf]

/-- What is sent is what is to be returned. -/
theorem expected_eq_sentDocs_iff :
    expected opts targets files = some (sentDocs opts targets files) ↔
      (∀ f ∈ files, f.Whole) ∧
        (opts.dedupKeys → ∀ ln ∈ wantedOf targets files, ∀ ln' ∈ wantedOf targets files,
          ln.key = ln'.key → ln.dbId = ln'.dbId) := by
  rw [expected]
  split
  case isTrue hwhole =>
    rw [sentDocs_whole hwhole, Option.some.injEq, and_iff_right hwhole, DocOptions.keep]
    cases hdedup : opts.dedupKeys with
    | false => simp
    | true =>
      rw [if_pos rfl, if_pos rfl, ← keep_eq_iff]
      exact ⟨fun h _ => h.symm, fun h => (h rfl).symm⟩
  case isFalse hwhole => exact ⟨fun h => (by cases h), fun h => absurd h.1 hwhole⟩

/-- The threads take turns until the end is reported, or run in any other way. -/
theorem drained_iff (hok : ∀ f ∈ files, f.headerOk) (P : List Doc → Prop) :
    (∀ es s, run (DocState.step opts) (.opened (produce opts targets (some files))) es = some s →
        s.status = .drained → P s.received) ↔ P (sentDocs opts targets files) := by
  have hsent : produce opts targets (some files) = (sentDocs opts targets files).map .doc :=
    produceFiles_eq hok _
  constructor
  · intro hall
    obtain ⟨es, hes⟩ := DocState.exists_drained opts (sentDocs opts targets files) []
    rw [← hsent] at hes
    exact hall es _ hes rfl
  · intro hP es s hrun hend
    have hitems := DocState.handed_over hrun hend
    rw [hsent] at hitems
    have hinj : Function.Injective DocItem.doc := fun _ _ h => DocItem.doc.inj h
    rwa [← (List.map_injective_iff.mpr hinj) hitems]

/-- **The disk-ordered cursor.** Every cursor that reports the end has returned the wanted records,
once for each key of each database if so asked, and the log could be read whole, exactly if a file
is refused, or the files cannot be listed, or the log can be read whole and no two records that are
returned once for each key have one key in two databases. -/
theorem disk_ordered_right_iff (opts : DocOptions) (targets : List ℕ)
    (log : Option (List LogFile)) :
    (∀ es s, run (DocState.step opts) (.opened (produce opts targets log)) es = some s →
        s.status = .drained →
          ∃ files, log = some files ∧ expected opts targets files = some s.received) ↔
      RightLog opts targets log := by
  have hfailed : .failed ∈ produce opts targets log →
      ∀ es s, run (DocState.step opts) (.opened (produce opts targets log)) es = some s →
        s.status ≠ .drained := by
    intro hmem es s hrun hend
    rw [DocState.handed_over hrun hend] at hmem
    obtain ⟨d, -, hd⟩ := List.mem_map.mp hmem
    cases hd
  cases log with
  | none =>
    refine ⟨fun _ => trivial, fun _ es s hrun hend => ?_⟩
    exact absurd hend (hfailed (List.mem_singleton.mpr rfl) es s hrun)
  | some files =>
    by_cases hheader : ∃ f ∈ files, f.headerOk = false
    · refine ⟨fun _ => Or.inl hheader, fun _ es s hrun hend => ?_⟩
      exact absurd hend (hfailed (failed_mem_produceFiles hheader _) es s hrun)
    · have hok : ∀ f ∈ files, f.headerOk := fun f hf => by
        cases hf' : f.headerOk with
        | true => rfl
        | false => exact absurd ⟨f, hf, hf'⟩ hheader
      rw [RightLog, or_iff_right hheader, ← expected_eq_sentDocs_iff,
        ← drained_iff hok fun docs => expected opts targets files = some docs]
      simp only [Option.some.injEq, exists_eq_left']

/-- A damaged entry: the end is reported and the record behind it is missing. -/
theorem disk_ordered_ends_early :
    let opts : DocOptions := ⟨10, none, false, false, 10000⟩
    let files : List LogFile := [⟨0, by decide, true, true,
      [.damaged, .entry (some ⟨1, .insert, [7], [1]⟩)]⟩]
    expected opts [1] files = none ∧
      (run (DocState.step opts) (.opened (produce opts [1] (some files))) [.receive]).map
        (fun s => (s.received, s.status)) = some ([], .drained) := by
  decide

end Noxu
