import Mathlib.Data.List.Basic
import Noxu.Library.Run

/-!
# Serving Peers from the In-Memory Queue

A node keeps the entries it has received in a bounded queue and serves downstream nodes from it.
A push raises the cached last VLSN, appends to the queue, evicts from its front and publishes the
VLSN of the new front, each under a lock of its own. A downstream is answered from the cached
range, and is then sent what its adapter takes off the front of **the one queue**: the adapter
discards what is below its cursor and pops what it sends, and it does not publish the front.

Pushes, connections and pulls interleave at the locks. What has been pushed and what was evicted is
kept next to the queue, which is always the last part of what was pushed. A downstream has received
everything from its start on that was not evicted, up to what still waits for it, as long as no
other one takes that away: as long as each pull removes only entries below the cursors of the
others, and the range is reported while its first VLSN is the one of the front entry.

## Main results

* `PeerInv.step`: one atomic step under the condition keeps what every downstream is owed;
* `peer_feed_loses_nothing`: **in every such run** nothing is lost and no entry that is gone is
  reported;
* `two_downstreams_share`: two downstreams split the queue between them.
-/

open Noxu.Library

namespace Noxu

/-! ### The scanner -/

/-- An entry of the queue. -/
structure PeerEntry where
  /-- The VLSN. -/
  vlsn : ℕ
  /-- The type of the entry. -/
  entryType : UInt8
  /-- The payload. -/
  payload : List UInt8
  deriving DecidableEq, Repr

/-- The bounded queue and the cached range. -/
structure PeerLogScanner where
  /-- The entries held, the oldest first. -/
  queue : List PeerEntry
  /-- The cached VLSN of the front; 0 if there is none. -/
  firstVlsn : ℕ
  /-- The greatest VLSN pushed. -/
  lastVlsn : ℕ
  /-- The bound on the entries. -/
  maxEntries : ℕ
  /-- The bound on the payload bytes. -/
  maxBytes : ℕ
  /-- The payload bytes counted. -/
  currentBytes : ℕ
  /-- The number of entries evicted. -/
  evictedCount : ℕ

namespace PeerLogScanner

/-- An empty scanner with the given bounds. -/
def withCapacity (maxEntries maxBytes : ℕ) : PeerLogScanner where
  queue := []
  firstVlsn := 0
  lastVlsn := 0
  maxEntries := max maxEntries 1
  maxBytes := max maxBytes 1
  currentBytes := 0
  evictedCount := 0

/-- Drop the oldest entries until both bounds are honoured: what is dropped, what is kept, and
the bytes counted then. -/
def evict (maxEntries maxBytes : ℕ) : List PeerEntry → ℕ →
    List PeerEntry × List PeerEntry × ℕ
  | [], bytes => ([], [], bytes)
  | e :: q, bytes =>
    if maxEntries < (e :: q).length ∨ maxBytes < bytes then
      let r := evict maxEntries maxBytes q (bytes - e.payload.length)
      (e :: r.1, r.2)
    else ([], e :: q, bytes)

/-- The VLSN of the front entry, 0 without one. -/
def frontVlsn (queue : List PeerEntry) : ℕ := (queue.head?.map PeerEntry.vlsn).getD 0

/-- The first section of a push. -/
def raiseLast (p : PeerLogScanner) (vlsn : ℕ) : PeerLogScanner :=
  { p with lastVlsn := if p.lastVlsn < vlsn then vlsn else p.lastVlsn }

/-- The second section of a push: append and evict. Returns what is evicted as well. -/
def append (p : PeerLogScanner) (e : PeerEntry) : PeerLogScanner × List PeerEntry :=
  let r := evict p.maxEntries p.maxBytes (p.queue ++ [e]) (p.currentBytes + e.payload.length)
  ({ p with
      queue := r.2.1
      currentBytes := r.2.2
      evictedCount := p.evictedCount + r.1.length }, r.1)

/-- The third section of a push. -/
def publishFirst (p : PeerLogScanner) (newFirst : ℕ) : PeerLogScanner :=
  { p with firstVlsn := newFirst }

/-- The reported range of two cached VLSNs. -/
def logRange (first last : ℕ) : Option (ℕ × ℕ) := if first = 0 then none else some (first, last)

/-- The adapter's `next_entry` takes from the shared queue only: neither the bytes nor the cached
first VLSN follow. -/
def adapterTake (p : PeerLogScanner) (fromVlsn : ℕ) : PeerLogScanner × Option PeerEntry :=
  let rest := p.queue.dropWhile fun e => decide (e.vlsn < fromVlsn)
  ({ p with queue := rest.tail }, rest.head?)

end PeerLogScanner

/-- Whether a range serves a start VLSN. -/
inductive SyncupResult where
  | canServe (startVlsn : ℕ)
  | needsRestore
  deriving DecidableEq, Repr

/-- The answer to a downstream. -/
def negotiateSyncup (peerRange : Option (ℕ × ℕ)) (replicaNeeds : ℕ) : SyncupResult :=
  match peerRange with
  | some (first, last) =>
    if first ≤ replicaNeeds ∧ replicaNeeds ≤ last then .canServe replicaNeeds else .needsRestore
  | none => .needsRestore

/-! ### Interleavings -/

/-- Where a connection stands. -/
inductive DownstreamPhase where
  /-- The start VLSN was read. -/
  | asked
  /-- The first VLSN of the range was read. -/
  | readFirst (first : ℕ)
  /-- It was answered that it can be served. -/
  | serving
  /-- It was sent to a restore. -/
  | refused
  /-- The channel is closed. -/
  | closed
  deriving DecidableEq

/-- A connection of a downstream node. The feeder loop asks from the VLSN behind the last one it
sent, which is the cursor of the adapter. -/
structure Downstream where
  /-- The VLSN it asked for. -/
  start : ℕ
  /-- The cursor of its adapter. -/
  cursorVlsn : ℕ
  /-- Where it stands. -/
  phase : DownstreamPhase
  /-- What it was sent. -/
  received : List PeerEntry

/-- A push between two of its sections. -/
inductive PushPhase where
  | raised (e : PeerEntry)
  | appended (newFirst : ℕ)
  deriving DecidableEq

/-- The scanner, the push under way and the connections, with what was ever appended and what
was evicted. -/
structure PeerState where
  /-- The scanner. -/
  scanner : PeerLogScanner
  /-- The push under way. -/
  pushing : Option PushPhase
  /-- The connections. -/
  downstreams : List Downstream
  /-- What was appended to the queue. -/
  pushed : List PeerEntry
  /-- What the bounds have evicted. -/
  evicted : List PeerEntry

/-- An atomic step of the receiver or of a connection. -/
inductive PeerEvent where
  | pushLast (e : PeerEntry)
  | pushQueue
  | pushFirst
  | connect (start : ℕ)
  | readFirst (i : ℕ)
  | answer (i : ℕ)
  | pull (i : ℕ)
  | close (i : ℕ)

namespace PeerState

/-- Nothing pushed, nobody connected. -/
def new (maxEntries maxBytes : ℕ) : PeerState :=
  ⟨.withCapacity maxEntries maxBytes, none, [], [], []⟩

/-- Change one connection. -/
def update (s : PeerState) (i : ℕ) (d : Downstream) : PeerState :=
  { s with downstreams := s.downstreams.set i d }

/-- A connection after a pull. -/
def pulled (s : PeerState) (d : Downstream) : Downstream :=
  match (s.scanner.adapterTake d.cursorVlsn).2 with
  | some e => { d with cursorVlsn := e.vlsn + 1, received := d.received ++ [e] }
  | none => d

/-- A pull of a connection. -/
def pull (s : PeerState) (i : ℕ) (d : Downstream) : PeerState :=
  { s with
    scanner := (s.scanner.adapterTake d.cursorVlsn).1
    downstreams := s.downstreams.set i (s.pulled d) }

/-- The answer to a connection that has read the first VLSN; one that can be served gets a feeder
loop of its own. -/
def answer (s : PeerState) (i : ℕ) (d : Downstream) (first : ℕ) : PeerState :=
  match negotiateSyncup (PeerLogScanner.logRange first s.scanner.lastVlsn) d.start with
  | .canServe startVlsn =>
    s.update i { d with phase := .serving, cursorVlsn := startVlsn, received := [] }
  | .needsRestore => s.update i { d with phase := .refused }

/-- One atomic step. Pushes come in VLSN order. -/
def step (s : PeerState) : PeerEvent → Option PeerState
  | .pushLast e =>
    if s.pushing = none ∧ s.scanner.lastVlsn < e.vlsn then
      some { s with scanner := s.scanner.raiseLast e.vlsn, pushing := some (.raised e) }
    else none
  | .pushQueue =>
    match s.pushing with
    | some (.raised e) =>
      let r := s.scanner.append e
      some { s with
        scanner := r.1
        pushing := some (.appended (PeerLogScanner.frontVlsn r.1.queue))
        pushed := s.pushed ++ [e]
        evicted := s.evicted ++ r.2 }
    | _ => none
  | .pushFirst =>
    match s.pushing with
    | some (.appended newFirst) =>
      some { s with scanner := s.scanner.publishFirst newFirst, pushing := none }
    | _ => none
  | .connect start => some { s with downstreams := s.downstreams ++ [⟨start, start, .asked, []⟩] }
  | .readFirst i =>
    s.downstreams[i]?.bind fun d =>
      if d.phase = .asked then
        some (s.update i { d with phase := .readFirst s.scanner.firstVlsn })
      else none
  | .answer i =>
    s.downstreams[i]?.bind fun d =>
      match d.phase with
      | .readFirst first => some (s.answer i d first)
      | _ => none
  | .pull i =>
    s.downstreams[i]?.bind fun d => if d.phase = .serving then some (s.pull i d) else none
  | .close i => s.downstreams[i]?.map fun d => s.update i { d with phase := .closed }

/-- What a pull from a cursor takes off the queue. -/
def removedBy (s : PeerState) (cursorVlsn : ℕ) : List PeerEntry :=
  s.scanner.queue.takeWhile (fun e => decide (e.vlsn < cursorVlsn)) ++
    (s.scanner.queue.dropWhile fun e => decide (e.vlsn < cursorVlsn)).head?.toList

end PeerState

/-! ### The condition and what is owed -/

/-- A pull removes only entries that every other connection is past. -/
def PullOk (s : PeerState) (i : ℕ) : Prop :=
  ∀ d ∈ s.downstreams[i]?, ∀ d' ∈ s.downstreams.eraseIdx i, d'.phase = .serving →
    ∀ e ∈ s.removedBy d.cursorVlsn, e.vlsn < d'.cursorVlsn

/-- The range is reported while the first VLSN that was read is the one of the front entry. -/
def AnswerOk (s : PeerState) (i : ℕ) : Prop :=
  ∀ d ∈ s.downstreams[i]?, match d.phase with
    | .readFirst first => first = 0 ∨ PeerLogScanner.frontVlsn s.scanner.queue = first
    | _ => True

/-- The condition on a step, read off the state before it. -/
def PeerEvent.ok (s : PeerState) : PeerEvent → Prop
  | .pull i => PullOk s i
  | .answer i => AnswerOk s i
  | _ => True

instance AnswerOk.instDecidable (s : PeerState) (i : ℕ) : Decidable (AnswerOk s i) := by
  unfold AnswerOk
  have : ∀ d : Downstream, Decidable (match d.phase with
      | .readFirst first => first = 0 ∨ PeerLogScanner.frontVlsn s.scanner.queue = first
      | _ => True) := fun d => by
    cases d.phase <;> dsimp only <;> infer_instance
  infer_instance

instance PeerEvent.instDecidableOk (s : PeerState) (e : PeerEvent) : Decidable (e.ok s) := by
  cases e <;> simp only [PeerEvent.ok, PullOk] <;> infer_instance

/-- A connection has been sent, in VLSN order, every entry from its start on that was not
evicted, up to those that wait for it in the queue. -/
structure FedInOrder (s : PeerState) (d : Downstream) : Prop where
  ordered : d.received.Pairwise fun a b => a.vlsn < b.vlsn
  pushed : ∀ e ∈ d.received, e ∈ s.pushed ∧ d.start ≤ e.vlsn
  complete : ∀ e ∈ s.pushed, d.start ≤ e.vlsn →
    e ∈ d.received ∨ e ∈ s.scanner.queue ∧ d.cursorVlsn ≤ e.vlsn ∨ e ∈ s.evicted

/-- The range a connection is about to be answered from holds no entry that has left the queue. -/
def ReportsHeld (s : PeerState) (i : ℕ) : Prop :=
  ∀ d ∈ s.downstreams[i]?, ∀ first, d.phase = .readFirst first →
    ∀ r ∈ PeerLogScanner.logRange first s.scanner.lastVlsn, ∀ e ∈ s.pushed,
      r.1 ≤ e.vlsn → e.vlsn ≤ r.2 → e ∈ s.scanner.queue

/-! ### The invariant -/

/-- The least VLSN that may still be appended. -/
def PeerState.nextVlsn (s : PeerState) : ℕ :=
  match s.pushing with
  | some (.raised e) => e.vlsn
  | _ => s.scanner.lastVlsn + 1

/-- What a served connection is owed. -/
structure Served (s : PeerState) (d : Downstream) : Prop extends FedInOrder s d where
  start_le : d.start ≤ d.cursorVlsn
  cursor_le : d.cursorVlsn ≤ s.nextVlsn
  past : ∀ e ∈ d.received, e.vlsn < d.cursorVlsn

/-- The queue is the last part of what was pushed in VLSN order, and every served connection has
what it is owed. -/
structure PeerInv (s : PeerState) : Prop where
  sorted : s.pushed.Pairwise fun a b => a.vlsn < b.vlsn
  suffix : ∃ gone, s.pushed = gone ++ s.scanner.queue
  bounds : ∀ e ∈ s.pushed, e.vlsn < s.nextVlsn
  raised : ∀ e, s.pushing = some (.raised e) → s.scanner.lastVlsn = e.vlsn
  served : ∀ d ∈ s.downstreams, d.phase = .serving → Served s d

variable {s s' : PeerState}

/-- What is evicted comes off the front. -/
theorem PeerLogScanner.evict_append (maxEntries maxBytes : ℕ) (q : List PeerEntry) (bytes : ℕ) :
    (evict maxEntries maxBytes q bytes).1 ++ (evict maxEntries maxBytes q bytes).2.1 = q := by
  induction q generalizing bytes with
  | nil => rfl
  | cons e q ih =>
    rw [evict]
    split
    · rw [List.cons_append, ih]
    · rfl

theorem PeerInv.mem_queue (h : PeerInv s) {e : PeerEntry} (he : e ∈ s.pushed)
    (hpos : PeerLogScanner.frontVlsn s.scanner.queue ≠ 0)
    (hle : PeerLogScanner.frontVlsn s.scanner.queue ≤ e.vlsn) : e ∈ s.scanner.queue := by
  obtain ⟨gone, hgone⟩ := h.suffix
  have hsorted := h.sorted
  rw [hgone] at he hsorted
  rcases List.mem_append.1 he with he | he
  · cases hq : s.scanner.queue with
    | nil => exact absurd (by rw [hq]; rfl) hpos
    | cons x q =>
      have hlt := (List.pairwise_append.1 hsorted).2.2 e he x (by simp [hq])
      rw [hq] at hle
      have hle' : x.vlsn ≤ e.vlsn := hle
      omega
  · exact he

theorem PeerInv.queue_sorted (h : PeerInv s) :
    s.scanner.queue.Pairwise fun a b => a.vlsn < b.vlsn := by
  obtain ⟨gone, hgone⟩ := h.suffix
  have hsorted := h.sorted
  rw [hgone] at hsorted
  exact (List.pairwise_append.1 hsorted).2.1

theorem peerInv_new (maxEntries maxBytes : ℕ) : PeerInv (PeerState.new maxEntries maxBytes) :=
  ⟨List.Pairwise.nil, ⟨[], rfl⟩, by simp [PeerState.new], by simp [PeerState.new],
    by simp [PeerState.new]⟩

/-- What may still be appended is at most one behind the cached last VLSN. -/
theorem PeerInv.last_le (h : PeerInv s) :
    s.scanner.lastVlsn ≤ s.nextVlsn ∧ s.nextVlsn ≤ s.scanner.lastVlsn + 1 := by
  unfold PeerState.nextVlsn
  split
  · rename_i e he
    have := h.raised e he
    omega
  · omega

/-- A connection keeps what it is owed as long as what waits for it is not taken away. -/
theorem Served.mono {d : Downstream} (h : Served s d) (hpushed : s'.pushed = s.pushed)
    (hqueue : ∀ e ∈ s.scanner.queue, d.cursorVlsn ≤ e.vlsn → e ∈ s'.scanner.queue)
    (hevicted : s'.evicted = s.evicted) (hnext : s.nextVlsn ≤ s'.nextVlsn) : Served s' d := by
  refine ⟨⟨h.ordered, hpushed ▸ h.pushed, fun e he hle => ?_⟩, h.start_le,
    Nat.le_trans h.cursor_le hnext, h.past⟩
  rw [hpushed] at he
  rcases h.complete e he hle with hr | ⟨hq, hc⟩ | hev
  · exact .inl hr
  · exact .inr (.inl ⟨hqueue e hq hc, hc⟩)
  · exact .inr (.inr (hevicted ▸ hev))

/-- A connection of a list with one exchanged is the new one or one of the others. -/
theorem mem_set_cases {l : List Downstream} {i : ℕ} {a x : Downstream} (h : x ∈ l.set i a) :
    x = a ∨ x ∈ l.eraseIdx i := by
  obtain ⟨j, hj⟩ := List.mem_iff_getElem?.1 h
  rw [List.getElem?_set] at hj
  split at hj
  · split at hj
    · exact .inl (Option.some.inj hj).symm
    · cases hj
  · rename_i hne
    exact .inr (List.mem_eraseIdx_iff_getElem?.2 ⟨j, Ne.symm hne, hj⟩)

/-- Exchanging a connection for one that is owed what it should be keeps the invariant. -/
theorem PeerInv.update (h : PeerInv s) {i : ℕ} {d : Downstream}
    (hd : d.phase = .serving → Served s d) : PeerInv (s.update i d) := by
  refine ⟨h.sorted, h.suffix, h.bounds, h.raised, fun x hx hserving => ?_⟩
  have hx' : Served s x := by
    rcases mem_set_cases hx with rfl | hx
    · exact hd hserving
    · exact h.served x (List.mem_of_mem_eraseIdx hx) hserving
  exact hx'.mono rfl (fun _ he _ => he) rfl (Nat.le_refl _)

/-! ### The steps -/

/-- The first section of a push. -/
theorem PeerInv.pushLast (h : PeerInv s) {e : PeerEntry} (hidle : s.pushing = none)
    (hlt : s.scanner.lastVlsn < e.vlsn) :
    PeerInv { s with scanner := s.scanner.raiseLast e.vlsn, pushing := some (.raised e) } := by
  have hnext : s.nextVlsn ≤ e.vlsn := by
    unfold PeerState.nextVlsn
    rw [hidle]
    exact hlt
  refine ⟨h.sorted, h.suffix, fun x hx => Nat.lt_of_lt_of_le (h.bounds x hx) hnext,
    fun x hx => ?_, fun d hd hserving => ?_⟩
  · obtain rfl : e = x := by simpa using hx
    exact if_pos hlt
  · exact (h.served d hd hserving).mono rfl (fun _ he _ => he) rfl hnext

/-- The second section of a push: the entry waits for every connection, or was evicted. -/
theorem PeerInv.pushQueue (h : PeerInv s) {e : PeerEntry} (hraised : s.pushing = some (.raised e)) :
    PeerInv { s with
      scanner := (s.scanner.append e).1
      pushing := some (.appended (PeerLogScanner.frontVlsn (s.scanner.append e).1.queue))
      pushed := s.pushed ++ [e]
      evicted := s.evicted ++ (s.scanner.append e).2 } := by
  have hnext : s.nextVlsn = e.vlsn := by
    unfold PeerState.nextVlsn
    rw [hraised]
  have hlast := h.raised e hraised
  have hsplit : (s.scanner.append e).2 ++ (s.scanner.append e).1.queue = s.scanner.queue ++ [e] :=
    PeerLogScanner.evict_append _ _ _ _
  have hwhere : ∀ x ∈ s.scanner.queue ++ [e],
      x ∈ (s.scanner.append e).1.queue ∨ x ∈ s.evicted ++ (s.scanner.append e).2 := by
    intro x hx
    rw [← hsplit] at hx
    exact (List.mem_append.1 hx).elim (fun hx => .inr (List.mem_append_right _ hx)) .inl
  refine ⟨?_, ?_, fun x hx => ?_, by simp, fun d hd hserving => ?_⟩
  · refine List.pairwise_append.2 ⟨h.sorted, List.pairwise_singleton _ _, fun x hx y hy => ?_⟩
    obtain rfl := List.mem_singleton.1 hy
    exact hnext ▸ h.bounds x hx
  · obtain ⟨gone, hgone⟩ := h.suffix
    refine ⟨gone ++ (s.scanner.append e).2, ?_⟩
    show s.pushed ++ [e] = _
    rw [hgone, List.append_assoc, List.append_assoc, hsplit]
  · show x.vlsn < s.scanner.lastVlsn + 1
    rcases List.mem_append.1 hx with hx | hx
    · have := h.bounds x hx
      omega
    · obtain rfl := List.mem_singleton.1 hx
      omega
  · have hd' := h.served d hd hserving
    have hcursor := hd'.cursor_le
    refine ⟨⟨hd'.ordered, fun x hx => ?_, fun x hx hle => ?_⟩, hd'.start_le, ?_, hd'.past⟩
    · exact ⟨List.mem_append_left _ (hd'.pushed x hx).1, (hd'.pushed x hx).2⟩
    · have hdone : x ∈ s.scanner.queue ++ [e] → d.cursorVlsn ≤ x.vlsn →
          x ∈ d.received ∨ x ∈ (s.scanner.append e).1.queue ∧ d.cursorVlsn ≤ x.vlsn ∨
            x ∈ s.evicted ++ (s.scanner.append e).2 := fun hx hc =>
        .inr ((hwhere x hx).imp (fun hx => ⟨hx, hc⟩) id)
      rcases List.mem_append.1 hx with hx | hx
      · rcases hd'.complete x hx hle with hr | ⟨hq, hc⟩ | hev
        · exact .inl hr
        · exact hdone (List.mem_append_left _ hq) hc
        · exact .inr (.inr (List.mem_append_left _ hev))
      · obtain rfl := List.mem_singleton.1 hx
        exact hdone (by simp) (by omega)
    · show d.cursorVlsn ≤ s.scanner.lastVlsn + 1
      omega

theorem PeerInv.answer (h : PeerInv s) {i first : ℕ} {d : Downstream}
    (hok : first = 0 ∨ PeerLogScanner.frontVlsn s.scanner.queue = first) :
    PeerInv (s.answer i d first) := by
  unfold PeerState.answer
  split
  · rename_i startVlsn hserve
    refine h.update fun _ => ?_
    unfold negotiateSyncup PeerLogScanner.logRange at hserve
    split at hserve
    · rename_i f l hrange
      rw [Option.ite_none_left_eq_some] at hrange
      obtain ⟨hne, hrange⟩ := hrange
      obtain ⟨rfl, rfl⟩ := Prod.mk.inj (Option.some.inj hrange)
      split at hserve
      · rename_i hin
        obtain rfl := SyncupResult.canServe.inj hserve
        have hfront := hok.resolve_left hne
        refine ⟨⟨List.Pairwise.nil, by simp, fun e he hle => ?_⟩, Nat.le_refl _,
          Nat.le_trans hin.2 h.last_le.1, by simp⟩
        have hle' : d.start ≤ e.vlsn := hle
        exact .inr (.inl ⟨h.mem_queue he (hfront ▸ hne) (by omega), hle'⟩)
      · cases hserve
    · cases hserve
  · exact h.update fun hserving => absurd hserving (by simp)

/-- What a pull takes off the queue and what it leaves. -/
theorem PeerState.removedBy_append (s : PeerState) (cursorVlsn : ℕ) :
    s.removedBy cursorVlsn ++ (s.scanner.adapterTake cursorVlsn).1.queue = s.scanner.queue := by
  have hsplit := List.takeWhile_append_dropWhile (p := fun e : PeerEntry =>
    decide (e.vlsn < cursorVlsn)) (l := s.scanner.queue)
  unfold PeerState.removedBy PeerLogScanner.adapterTake
  rw [List.append_assoc]
  cases hrest : s.scanner.queue.dropWhile fun e => decide (e.vlsn < cursorVlsn) with
  | nil => simpa [hrest] using hsplit
  | cons x q => simpa [hrest] using hsplit

/-- **A connection that pulls** is sent the next entry and keeps what it is owed. -/
theorem Served.pulled {d : Downstream} (i : ℕ) (h : Served s d)
    (hsorted : s.scanner.queue.Pairwise fun a b => a.vlsn < b.vlsn)
    (hqueue : ∀ e ∈ s.scanner.queue, e ∈ s.pushed ∧ e.vlsn < s.nextVlsn) :
    Served (s.pull i d) (s.pulled d) := by
  have hsplit := List.takeWhile_append_dropWhile (p := fun e : PeerEntry =>
    decide (e.vlsn < d.cursorVlsn)) (l := s.scanner.queue)
  have hstale : ∀ e ∈ s.scanner.queue.takeWhile fun e => decide (e.vlsn < d.cursorVlsn),
      e.vlsn < d.cursorVlsn := fun e he =>
    of_decide_eq_true (List.all_eq_true.1 List.all_takeWhile e he)
  cases hrest : s.scanner.queue.dropWhile fun e => decide (e.vlsn < d.cursorVlsn) with
  | nil =>
    -- nothing waits: all that is left was stale
    have hd : s.pulled d = d := by
      simp [PeerState.pulled, PeerLogScanner.adapterTake, hrest]
    rw [hd]
    refine h.mono rfl (fun e he hc => ?_) rfl (Nat.le_refl _)
    rw [← hsplit, hrest, List.append_nil] at he
    have := hstale e he
    omega
  | cons x q =>
    have hx : d.cursorVlsn ≤ x.vlsn := by
      have := List.head_dropWhile_not (fun e : PeerEntry => decide (e.vlsn < d.cursorVlsn))
        (l := s.scanner.queue) (by simp [hrest])
      simpa [hrest] using this
    have hd : s.pulled d =
        { d with cursorVlsn := x.vlsn + 1, received := d.received ++ [x] } := by
      simp [PeerState.pulled, PeerLogScanner.adapterTake, hrest]
    have hq : (s.pull i d).scanner.queue = q := by
      simp [PeerState.pull, PeerLogScanner.adapterTake, hrest]
    rw [hrest] at hsplit
    have hmem : x ∈ s.scanner.queue := by
      rw [← hsplit]
      exact List.mem_append_right _ List.mem_cons_self
    have hsorted' := hsorted
    rw [← hsplit] at hsorted'
    have hlater : ∀ e ∈ q, x.vlsn < e.vlsn := fun e he =>
      List.rel_of_pairwise_cons (List.pairwise_append.1 hsorted').2.1 he
    rw [hd]
    refine ⟨⟨?_, fun e he => ?_, fun e he hle => ?_⟩, ?_, (hqueue x hmem).2, fun e he => ?_⟩
    · refine List.pairwise_append.2 ⟨h.ordered, List.pairwise_singleton _ _, fun e he y hy => ?_⟩
      obtain rfl := List.mem_singleton.1 hy
      exact Nat.lt_of_lt_of_le (h.past e he) hx
    · rcases List.mem_append.1 he with he | he
      · exact h.pushed e he
      · obtain rfl := List.mem_singleton.1 he
        exact ⟨(hqueue e hmem).1, Nat.le_trans h.start_le hx⟩
    · rcases h.complete e he hle with hr | ⟨hqe, hc⟩ | hev
      · exact .inl (List.mem_append_left _ hr)
      · rw [← hsplit] at hqe
        rcases List.mem_append.1 hqe with hqe | hqe
        · have := hstale e hqe
          omega
        · rcases List.mem_cons.1 hqe with rfl | hqe
          · exact .inl (by simp)
          · exact .inr (.inl ⟨hq ▸ hqe, hlater e hqe⟩)
      · exact .inr (.inr hev)
    · have := h.start_le
      show d.start ≤ x.vlsn + 1
      omega
    · show e.vlsn < x.vlsn + 1
      rcases List.mem_append.1 he with he | he
      · have := h.past e he
        omega
      · obtain rfl := List.mem_singleton.1 he
        omega

/-- **A pull under the condition.** -/
theorem PeerInv.pull (h : PeerInv s) {i : ℕ} {d : Downstream} (hd : s.downstreams[i]? = some d)
    (hserving : d.phase = .serving) (hok : PullOk s i) : PeerInv (s.pull i d) := by
  have hsplit := s.removedBy_append d.cursorVlsn
  obtain ⟨gone, hgone⟩ := h.suffix
  refine ⟨h.sorted, ⟨gone ++ s.removedBy d.cursorVlsn, ?_⟩, h.bounds, h.raised,
    fun x hx hx' => ?_⟩
  · show s.pushed = _
    rw [List.append_assoc, hgone]
    exact congrArg (gone ++ ·) hsplit.symm
  · rcases mem_set_cases hx with rfl | hx
    · refine (h.served d (List.mem_of_getElem? hd) hserving).pulled i h.queue_sorted fun e he => ?_
      have hpushed : e ∈ s.pushed := by simp [hgone, he]
      exact ⟨hpushed, h.bounds e hpushed⟩
    · refine (h.served x (List.mem_of_mem_eraseIdx hx) hx').mono rfl (fun e he hc => ?_) rfl
        (Nat.le_refl _)
      rw [← hsplit] at he
      rcases List.mem_append.1 he with he | he
      · have := hok d hd x hx hx' e he
        omega
      · exact he

/-- **One atomic step keeps the invariant.** -/
theorem PeerInv.step (h : PeerInv s) {e : PeerEvent} (hok : e.ok s) (hs : s.step e = some s') :
    PeerInv s' := by
  cases e with
  | pushLast e =>
    rw [PeerState.step, Option.ite_none_right_eq_some] at hs
    obtain ⟨⟨hidle, hlt⟩, hs⟩ := hs
    obtain rfl := Option.some.inj hs
    exact h.pushLast hidle hlt
  | pushQueue =>
    rw [PeerState.step] at hs
    split at hs
    · rename_i e he
      obtain rfl := Option.some.inj hs
      exact h.pushQueue he
    · cases hs
  | pushFirst =>
    rw [PeerState.step] at hs
    split at hs
    · rename_i newFirst hf
      obtain rfl := Option.some.inj hs
      have hnext : s.nextVlsn = s.scanner.lastVlsn + 1 := by
        unfold PeerState.nextVlsn
        rw [hf]
      refine ⟨h.sorted, h.suffix, fun x hx => Nat.lt_of_lt_of_le (h.bounds x hx)
        (Nat.le_of_eq hnext), by simp, fun d hd hserving => ?_⟩
      exact (h.served d hd hserving).mono rfl (fun _ he _ => he) rfl (Nat.le_of_eq hnext)
    · cases hs
  | connect start =>
    obtain rfl := Option.some.inj hs
    refine ⟨h.sorted, h.suffix, h.bounds, h.raised, fun d hd hserving => ?_⟩
    rcases List.mem_append.1 hd with hd | hd
    · exact (h.served d hd hserving).mono rfl (fun _ he _ => he) rfl (Nat.le_refl _)
    · obtain rfl := List.mem_singleton.1 hd
      cases hserving
  | readFirst i =>
    obtain ⟨d, hd, hs⟩ := Option.bind_eq_some_iff.1 hs
    rw [Option.ite_none_right_eq_some] at hs
    obtain rfl := Option.some.inj hs.2
    exact h.update fun hserving => absurd hserving (by simp)
  | answer i =>
    obtain ⟨d, hd, hs⟩ := Option.bind_eq_some_iff.1 hs
    have hok' := hok d hd
    split at hs
    · rename_i first hphase
      obtain rfl := Option.some.inj hs
      rw [hphase] at hok'
      exact h.answer hok'
    · cases hs
  | pull i =>
    obtain ⟨d, hd, hs⟩ := Option.bind_eq_some_iff.1 hs
    rw [Option.ite_none_right_eq_some] at hs
    obtain rfl := Option.some.inj hs.2
    exact h.pull hd hs.1 hok
  | close i =>
    obtain ⟨d, hd, rfl⟩ := Option.map_eq_some_iff.1 hs
    exact h.update fun hserving => absurd hserving (by simp)

/-! ### Every run -/

theorem PeerState.pulled_start (s : PeerState) (d : Downstream) :
    (s.pulled d).start = d.start ∧ (s.pulled d).phase = d.phase := by
  unfold PeerState.pulled
  split
  · exact ⟨rfl, rfl⟩
  · exact ⟨rfl, rfl⟩

/-- A pull shortens a queue that is not empty. -/
theorem length_adapterTake (s : PeerState) {m cursorVlsn : ℕ}
    (hlen : s.scanner.queue.length ≤ m + 1) :
    (s.scanner.adapterTake cursorVlsn).1.queue.length ≤ m := by
  have hsplit := congrArg List.length (s.removedBy_append cursorVlsn)
  rw [List.length_append] at hsplit
  rcases Nat.eq_zero_or_pos (s.removedBy cursorVlsn).length with hzero | hpos
  · obtain ⟨hstale, hhead⟩ := List.append_eq_nil_iff.1 (List.length_eq_zero_iff.1 hzero)
    have hrest : s.scanner.queue.dropWhile (fun e => decide (e.vlsn < cursorVlsn)) = [] := by
      simpa using hhead
    simp [PeerLogScanner.adapterTake, hrest]
  · omega

/-- **A connection that keeps pulling** ends with everything it is owed. -/
theorem Served.drains {i : ℕ} : ∀ {m : ℕ} {s : PeerState} {d : Downstream},
    s.downstreams[i]? = some d → d.phase = .serving → Served s d →
      s.scanner.queue.Pairwise (fun a b => a.vlsn < b.vlsn) →
      (∀ e ∈ s.scanner.queue, e ∈ s.pushed ∧ e.vlsn < s.nextVlsn) → s.scanner.queue.length ≤ m →
        ∃ s' d', run PeerState.step s (List.replicate m (.pull i)) = some s' ∧
          s'.downstreams[i]? = some d' ∧ d'.start = d.start ∧
          ∀ e ∈ s.pushed, d.start ≤ e.vlsn → e ∈ d'.received ∨ e ∈ s.evicted := by
  intro m
  induction m with
  | zero =>
    intro s d hd hserving h hsorted hqueue hlen
    refine ⟨s, d, rfl, hd, rfl, fun e he hle => ?_⟩
    rcases h.complete e he hle with hr | ⟨hq, -⟩ | hev
    · exact .inl hr
    · rw [List.length_eq_zero_iff.1 (Nat.le_zero.1 hlen)] at hq
      cases hq
    · exact .inr hev
  | succ m ih =>
    intro s d hd hserving h hsorted hqueue hlen
    have hsplit := s.removedBy_append d.cursorVlsn
    have hsub : (s.pull i d).scanner.queue.Sublist s.scanner.queue := by
      rw [← hsplit]
      exact List.sublist_append_right _ _
    have hget : (s.pull i d).downstreams[i]? = some (s.pulled d) := by
      have hlt := (List.getElem?_eq_some_iff.1 hd).1
      exact List.getElem?_set_self hlt
    obtain ⟨hstart, hphase⟩ := s.pulled_start d
    obtain ⟨s', d', hrun, hd', hstart', hall⟩ := ih hget (hphase.trans hserving)
      (h.pulled i hsorted hqueue) (hsorted.sublist hsub) (fun e he => hqueue e (hsub.subset he))
      (length_adapterTake s hlen)
    refine ⟨s', d', ?_, hd', hstart'.trans hstart, fun e he hle => hall e he (hstart ▸ hle)⟩
    rw [List.replicate_succ, run_cons_eq_some]
    refine ⟨s.pull i d, ?_, hrun⟩
    rw [PeerState.step, hd, Option.bind_some, if_pos hserving]

/-- **Serving peers loses nothing**: in every run of pushes in VLSN order, connections, answers and
pulls whose steps meet the condition, every connection that is served has been sent, in order,
every entry from its start on that was not evicted and does not wait for it; a range that is
reported under the condition holds no entry that has left the queue; and a connection that keeps
pulling ends with everything that was not evicted. -/
theorem peer_feed_loses_nothing (maxEntries maxBytes : ℕ) (evs : List PeerEvent) (s : PeerState)
    (hok : Meets PeerState.step (fun s e => e.ok s) (PeerState.new maxEntries maxBytes) evs)
    (hrun : run PeerState.step (PeerState.new maxEntries maxBytes) evs = some s) :
    (∀ d ∈ s.downstreams, d.phase = .serving → FedInOrder s d) ∧
      (∀ i, (PeerEvent.answer i).ok s → ReportsHeld s i) ∧
      ∀ i d, s.downstreams[i]? = some d → d.phase = .serving →
        ∃ n, ∀ m, n ≤ m → ∃ s' d', run PeerState.step s (List.replicate m (.pull i)) = some s' ∧
          s'.downstreams[i]? = some d' ∧
          ∀ e ∈ s.pushed, d.start ≤ e.vlsn → e ∈ d'.received ∨ e ∈ s.evicted := by
  have h : PeerInv s := run_invariant (fun _ _ _ h he hs => PeerInv.step h he hs)
    (peerInv_new maxEntries maxBytes) hok hrun
  refine ⟨fun d hd hserving => (h.served d hd hserving).toFedInOrder, fun i hi => ?_,
    fun i d hd hserving => ⟨s.scanner.queue.length, fun m hm => ?_⟩⟩
  · intro d hd first hphase r hr e he hle hle'
    have hi' := hi d hd
    rw [hphase] at hi'
    unfold PeerLogScanner.logRange at hr
    rw [Option.mem_def, Option.ite_none_left_eq_some] at hr
    obtain ⟨hne, hr⟩ := hr
    obtain rfl := Option.some.inj hr
    have hfront := hi'.resolve_left hne
    exact h.mem_queue he (hfront ▸ hne) (hfront ▸ hle)
  · have hqueue : ∀ e ∈ s.scanner.queue, e ∈ s.pushed ∧ e.vlsn < s.nextVlsn := fun e he => by
      obtain ⟨gone, hgone⟩ := h.suffix
      have hpushed : e ∈ s.pushed := by
        rw [hgone]
        exact List.mem_append_right _ he
      exact ⟨hpushed, h.bounds e hpushed⟩
    obtain ⟨s', d', hrun', hd', -, hall⟩ := (h.served d (List.mem_of_getElem? hd) hserving).drains
      hd hserving h.queue_sorted hqueue hm
    exact ⟨s', d', hrun', hd', hall⟩

/-- The entry of a VLSN with one byte. -/
def peerEntry (vlsn : ℕ) : PeerEntry := ⟨vlsn, 13, [0]⟩

/-- The three sections of a push in one go. -/
def pushAll (vlsn : ℕ) : List PeerEvent := [.pushLast (peerEntry vlsn), .pushQueue, .pushFirst]

/-- A connection that is answered. -/
def connectAt (i start : ℕ) : List PeerEvent := [.connect start, .readFirst i, .answer i]

/-- Three pushes over a bound of two, a connection that reads from 2 on, and one that asks for 5
right behind the push of 5. -/
def servedInTurn : List PeerEvent :=
  pushAll 1 ++ pushAll 2 ++ pushAll 3 ++ connectAt 0 2 ++ [.pull 0, .pull 0] ++ pushAll 4 ++
    [.pull 0] ++ pushAll 5 ++ connectAt 1 5 ++ [.close 0, .pull 1]

/-- The second connection was sent what it asked for. -/
theorem peer_feed_in_turn :
    ∃ s, run PeerState.step (PeerState.new 2 100) servedInTurn = some s ∧
      (∃ d ∈ s.downstreams, d.phase = .serving ∧ d.received = [peerEntry 5] ∧ FedInOrder s d) := by
  have hok : Meets PeerState.step (fun s e => e.ok s) (PeerState.new 2 100) servedInTurn := by
    decide +kernel
  obtain ⟨s, hrun, d, hd, hserving, hreceived⟩ := exists_run_of_any
    (P := fun s : PeerState => ∃ d ∈ s.downstreams, d.phase = .serving ∧
      d.received = [peerEntry 5])
    (show (run PeerState.step (PeerState.new 2 100) servedInTurn).any _ = true by decide +kernel)
  exact ⟨s, hrun, d, hd, hserving, hreceived,
    (peer_feed_loses_nothing 2 100 servedInTurn s hok hrun).1 d hd hserving⟩

/-- **Two downstreams of one queue**: each is sent what the other was not, and the range is still
reported from 1 on. -/
theorem two_downstreams_share :
    ∃ s, run PeerState.step (PeerState.new 10 100)
        (pushAll 1 ++ pushAll 2 ++ pushAll 3 ++ connectAt 0 1 ++ connectAt 1 1 ++
          [.pull 0, .pull 1, .pull 0]) = some s ∧
      s.downstreams.map Downstream.received = [[peerEntry 1, peerEntry 3], [peerEntry 2]] ∧
      s.evicted = [] ∧ s.scanner.queue = [] ∧
      PeerLogScanner.logRange s.scanner.firstVlsn s.scanner.lastVlsn = some (1, 3) :=
  exists_run_of_any
    (P := fun s : PeerState =>
      s.downstreams.map Downstream.received = [[peerEntry 1, peerEntry 3], [peerEntry 2]] ∧
      s.evicted = [] ∧ s.scanner.queue = [] ∧
      PeerLogScanner.logRange s.scanner.firstVlsn s.scanner.lastVlsn = some (1, 3))
    (by decide +kernel)

end Noxu
