import Noxu.Library.Run
import Noxu.Rep.Matchpoint

/-!
# The Syncup Handshake

A replica and a feeder look for the matchpoint over a channel: the replica asks for the entry at one
of its sync points after the other, and the feeder answers from its view. The same search runs on
two views in one place as `findMatchpoint`.

The two differ in what they make of an entry that the feeder does not have. The local search goes on
to the next sync point. In the handshake the feeder answers the first such request with its own last
sync point, from which the replica goes on whether it is a sync point of the replica or not; and at
**every other one the replica gives up**.

The channel is reliable and keeps the order of messages; the parties move in any order.

## Main results

* `Phase.step`: every move brings the handshake closer to its end and keeps its result;
* `handshake_agrees_iff`: **the handshake ends, and it agrees with the local search iff the last
  sync point that both nodes have is served, and so is every one above it, from its start**;
* `matchpoint_is_shared`: both nodes have the same record where they agree.
-/

open Noxu.Library

namespace Noxu

/-! ### The parties -/

/-- The messages of the handshake. -/
inductive HandshakeMsg where
  | entryRequest (vlsn : ℕ)
  | entry (vlsn : ℕ) (e : VlsnEntry)
  | entryNotFound
  | alternateMatchpoint (vlsn : ℕ) (e : VlsnEntry)
  | startStream (startVlsn : ℕ)
  | restoreRequest (failedVlsn : ℕ)
  | restoreResponse
  deriving DecidableEq

/-- What the replica's side returns. -/
inductive SyncupOutcome where
  | matchpoint (matchpointVlsn : ℕ) (matchpointLsn : LogPos) (startVlsn : ℕ)
  | needsRestore (failedVlsn : ℕ)
  deriving DecidableEq

/-- Where the replica is. -/
inductive ReplicaPoint where
  | begin
  /-- It has asked for VLSN 1, for want of a sync point. -/
  | askedFirst
  | asked (candidate : ℕ) (replicaEntry : VlsnEntry) (firstExchange : Bool)
  /-- It waits for the answer to a restore request. -/
  | restoring (failedVlsn : ℕ)
  | returned (outcome : SyncupOutcome)
  /-- "syncup replica: unexpected response .." -/
  | refused
  deriving DecidableEq

/-- Where the feeder is. -/
inductive FeederPoint where
  | serving (firstResponse : Bool)
  | returned (startVlsn : Option ℕ)
  /-- "syncup feeder: unexpected request .." -/
  | refused
  deriving DecidableEq

/-- The two parties and the channel. -/
structure Handshake where
  replica : ReplicaPoint
  feeder : FeederPoint
  toFeeder : List HandshakeMsg
  toReplica : List HandshakeMsg
  deriving DecidableEq

/-- Who moves. -/
inductive Party where
  | replica
  | feeder
  deriving DecidableEq

namespace Handshake

/-- Nothing is sent yet. -/
def start : Handshake := ⟨.begin, .serving true, [], []⟩

/-- Send a message to the feeder. -/
def sendToFeeder (h : Handshake) (msg : HandshakeMsg) : Handshake :=
  { h with toFeeder := h.toFeeder ++ [msg] }

/-- Send a message to the replica. -/
def sendToReplica (h : Handshake) (msg : HandshakeMsg) : Handshake :=
  { h with toReplica := h.toReplica ++ [msg] }

/-- Return with a matchpoint. -/
def converge (h : Handshake) (matchpointVlsn : ℕ) (matchpointLsn : LogPos) : Handshake :=
  { h.sendToFeeder (.startStream (matchpointVlsn + 1)) with
    replica := .returned (.matchpoint matchpointVlsn matchpointLsn (matchpointVlsn + 1)) }

/-- Ask for a restore. -/
def fallBackToRestore (h : Handshake) (failedVlsn : ℕ) : Handshake :=
  { h.sendToFeeder (.restoreRequest failedVlsn) with replica := .restoring failedVlsn }

end Handshake

/-- The replica's last sync point at or below a VLSN. -/
def prevSync (replica : SyncupView) : ℕ → Option ℕ
  | 0 => none
  | v + 1 =>
    if v + 1 < replica.firstVlsn then none
    else if (replica.entry (v + 1)).any VlsnEntry.isSync then some (v + 1)
    else prevSync replica v

namespace Handshake

/-- Look at the own record and ask for the feeder's. -/
def propose (replica : SyncupView) (h : Handshake) (candidate : ℕ) (firstExchange : Bool) :
    Handshake :=
  match replica.entry candidate with
  | some e =>
    { h.sendToFeeder (.entryRequest candidate) with
      replica := .asked candidate e firstExchange }
  | none => h.fallBackToRestore candidate

/-- The answer to a request. -/
def replicaReceives (replica : SyncupView) (h : Handshake) (candidate : ℕ) (e : VlsnEntry)
    (firstExchange : Bool) : HandshakeMsg → Handshake
  | .entry vlsn f =>
    if vlsn = candidate ∧ f.fingerprint = e.fingerprint then h.converge candidate e.lsn
    else
      match prevSync replica (candidate - 1) with
      | some prev => h.propose replica prev false
      | none => h.fallBackToRestore candidate
  | .alternateMatchpoint vlsn _ =>
    if firstExchange then
      if vlsn < replica.firstVlsn then h.fallBackToRestore vlsn
      else h.propose replica vlsn false
    else { h with replica := .refused }
  | .entryNotFound => h.fallBackToRestore candidate
  | _ => { h with replica := .refused }

/-- A move of the replica. -/
def replicaMoves (replica : SyncupView) (h : Handshake) : Option Handshake :=
  match h.replica with
  | .begin =>
    some <|
      if replica.lastSync = 0 then
        { h.sendToFeeder (.entryRequest 1) with replica := .askedFirst }
      else h.propose replica replica.lastSync true
  | .returned _ | .refused => none
  | .askedFirst | .asked .. | .restoring _ =>
    match h.toReplica with
    | [] => none
    | msg :: rest =>
      let h' := { h with toReplica := rest }
      match h.replica with
      | .askedFirst =>
        match msg with
        | .entry vlsn _ => some { h' with replica := .returned (.matchpoint 0 noOffset vlsn) }
        | _ => some (h'.fallBackToRestore 1)
      | .asked candidate e firstExchange =>
        some (h'.replicaReceives replica candidate e firstExchange msg)
      | .restoring failedVlsn =>
        some { h' with replica := .returned (.needsRestore failedVlsn) }
      | _ => none

end Handshake

/-- The feeder's answer to a request. -/
def makeEntryResponse (feeder : SyncupView) (requestVlsn : ℕ) (isFirstResponse : Bool) :
    HandshakeMsg :=
  if feeder.firstVlsn ≠ 0 ∧ requestVlsn < feeder.firstVlsn then .entryNotFound
  else
    match feeder.entry requestVlsn with
    | some e => .entry requestVlsn e
    | none =>
      if isFirstResponse = true ∧ feeder.lastSync ≠ 0 then
        match feeder.entry feeder.lastSync with
        | some e => .alternateMatchpoint feeder.lastSync e
        | none => .entryNotFound
      else .entryNotFound

namespace Handshake

/-- A move of the feeder. -/
def feederMoves (feeder : SyncupView) (h : Handshake) : Option Handshake :=
  match h.feeder, h.toFeeder with
  | .serving firstResponse, msg :: rest =>
    let h' := { h with toFeeder := rest }
    match msg with
    | .entryRequest vlsn =>
      some { h'.sendToReplica (makeEntryResponse feeder vlsn firstResponse) with
        feeder := .serving false }
    | .startStream startVlsn => some { h' with feeder := .returned (some startVlsn) }
    | .restoreRequest _ =>
      some { h'.sendToReplica .restoreResponse with feeder := .returned none }
    | _ => some { h' with feeder := .refused }
  | _, _ => none

/-- One move. -/
def step (replica feeder : SyncupView) (h : Handshake) : Party → Option Handshake
  | .replica => h.replicaMoves replica
  | .feeder => h.feederMoves feeder

/-- Both parties have returned with this matchpoint. -/
def Agrees (h : Handshake) : Matchpoint → Prop
  | .found vlsn lsn =>
    h.replica = .returned (.matchpoint vlsn lsn (vlsn + 1)) ∧
      h.feeder = .returned (some (vlsn + 1))
  | .none => (∃ failedVlsn, h.replica = .returned (.needsRestore failedVlsn)) ∧
      h.feeder = .returned none

end Handshake

/-! ### What the handshake finds -/

section Views

variable (replica feeder : SyncupView)

/-- The feeder answers a request with its entry. -/
def SyncupView.serves (v : ℕ) : Bool :=
  decide (¬ (feeder.firstVlsn ≠ 0 ∧ v < feeder.firstVlsn)) && (feeder.entry v).isSome

/-- The feeder's own last sync point, in the place of an entry that it does not have. -/
def SyncupView.offer (v : ℕ) : Option ℕ :=
  if feeder.firstVlsn ≠ 0 ∧ v < feeder.firstVlsn then none
  else if feeder.lastSync ≠ 0 ∧ (feeder.entry feeder.lastSync).isSome then some feeder.lastSync
  else none

/-- The VLSN from which the handshake goes down. -/
def handshakeStart : Option ℕ :=
  if (replica.entry replica.lastSync).isNone then none
  else if feeder.serves replica.lastSync then some replica.lastSync
  else (feeder.offer replica.lastSync).filter fun v => decide (replica.firstVlsn ≤ v)

/-- The last sync point of the replica that both nodes have is the one with which a search ends
that starts where the handshake does and stops at an entry that the feeder does not serve. -/
structure HandshakeFinds : Prop where
  finds : ∀ v,
    IsGreatest {w ∈ replica.candidates replica.lastSync | Common replica feeder.entry w} v →
      ∃ s, handshakeStart replica feeder = some s ∧
        Settles replica feeder.entry (replica.candidates s) feeder.serves v
  only : ∀ s v, handshakeStart replica feeder = some s →
    Settles replica feeder.entry (replica.candidates s) feeder.serves v →
      IsGreatest {w ∈ replica.candidates replica.lastSync | Common replica feeder.entry w} v

end Views

/-! ### The next sync point -/

section TalkLemmas

variable {replica : SyncupView} {feeder : ℕ → Option VlsnEntry} {served : ℕ → Bool} {v w : ℕ}

/-- The next sync point is where the search goes on. -/
theorem talkDown_prevSync (v : ℕ) :
    talkDown replica feeder served v =
      (prevSync replica v).elim .none (talkFrom replica feeder served) := by
  induction v with
  | zero => rfl
  | succ v ih =>
    unfold talkDown prevSync
    by_cases hfirst : v + 1 < replica.firstVlsn
    · rw [if_pos hfirst, if_pos hfirst]
      rfl
    rw [if_neg hfirst, if_neg hfirst]
    cases hentry : (replica.entry (v + 1)).filter VlsnEntry.isSync with
    | some e =>
      obtain ⟨he, hs⟩ := Option.filter_eq_some_iff.mp hentry
      have hsync : (replica.entry (v + 1)).any VlsnEntry.isSync = true := by
        rw [he]
        exact hs
      rw [if_pos hsync, Option.elim_some, talkFrom, he]
      rfl
    | none =>
      have hsync : ¬ (replica.entry (v + 1)).any VlsnEntry.isSync = true :=
        not_any_isSync hentry
      rw [if_neg hsync]
      exact ih

theorem prevSync_le (h : prevSync replica v = some w) : w ≤ v := by
  induction v with
  | zero => cases h
  | succ v ih =>
    unfold prevSync at h
    split_ifs at h
    · cases h
      exact le_rfl
    · exact (ih h).trans v.le_succ

end TalkLemmas

/-! ### The course of a handshake -/

section Phase

variable {replica feeder : SyncupView} {h h' : Handshake} {m : Matchpoint} {n : ℕ} {party : Party}

/-- The result of a handshake that waits for an answer: on the first exchange the feeder may make
an offer. -/
def resultAt (replica feeder : SyncupView) (c : ℕ) (firstExchange : Bool) : Matchpoint :=
  if firstExchange = true ∧ feeder.serves c = false then
    ((feeder.offer c).filter fun v => decide (replica.firstVlsn ≤ v)).elim .none
      (talkFrom replica feeder.entry feeder.serves)
  else talkFrom replica feeder.entry feeder.serves c

/-- The moves left when the replica asks for an entry. -/
def movesLeft (feeder : SyncupView) (c : ℕ) (firstExchange : Bool) : ℕ :=
  2 * (c + if firstExchange then feeder.lastSync + 1 else 0) + 5

/-- Where a handshake can be, what it will find, and a bound for the moves left. -/
inductive Phase (replica feeder : SyncupView) : Handshake → Matchpoint → ℕ → Prop
  | asked {c : ℕ} {e : VlsnEntry} {fe : Bool} (he : replica.entry c = some e) :
      Phase replica feeder ⟨.asked c e fe, .serving fe, [.entryRequest c], []⟩
        (resultAt replica feeder c fe) (movesLeft feeder c fe)
  | answered {c : ℕ} {e : VlsnEntry} {fe : Bool} (he : replica.entry c = some e) :
      Phase replica feeder
        ⟨.asked c e fe, .serving false, [], [makeEntryResponse feeder c fe]⟩
        (resultAt replica feeder c fe) (movesLeft feeder c fe - 1)
  | agreed {v : ℕ} {lsn : LogPos} {fr : Bool} :
      Phase replica feeder
        ⟨.returned (.matchpoint v lsn (v + 1)), .serving fr, [.startStream (v + 1)], []⟩
        (.found v lsn) 1
  | streaming {v : ℕ} {lsn : LogPos} :
      Phase replica feeder
        ⟨.returned (.matchpoint v lsn (v + 1)), .returned (some (v + 1)), [], []⟩ (.found v lsn) 0
  | restoring {f : ℕ} {fr : Bool} :
      Phase replica feeder ⟨.restoring f, .serving fr, [.restoreRequest f], []⟩ .none 2
  | released {f : ℕ} :
      Phase replica feeder ⟨.restoring f, .returned none, [], [.restoreResponse]⟩ .none 1
  | restored {f : ℕ} :
      Phase replica feeder ⟨.returned (.needsRestore f), .returned none, [], []⟩ .none 0

/-- The replica asks for an entry, or gives up for want of its own. -/
theorem Phase.propose {point : ReplicaPoint} {c : ℕ} {fe : Bool}
    (hm : ∀ e, replica.entry c = some e → m = resultAt replica feeder c fe)
    (hnone : replica.entry c = none → m = .none) :
    ∃ n' ≤ movesLeft feeder c fe,
      Phase replica feeder (Handshake.propose replica ⟨point, .serving fe, [], []⟩ c fe) m n' := by
  unfold Handshake.propose
  cases he : replica.entry c with
  | some e =>
    rw [hm e he]
    exact ⟨_, le_rfl, .asked he⟩
  | none =>
    rw [hnone he]
    refine ⟨2, ?_, .restoring⟩
    unfold movesLeft
    omega

theorem resultAt_false (c : ℕ) :
    resultAt replica feeder c false = talkFrom replica feeder.entry feeder.serves c :=
  if_neg fun h => Bool.false_ne_true h.1

/-- The replica goes on after the first exchange. -/
theorem Phase.goOn (replica feeder : SyncupView) (point : ReplicaPoint) (c : ℕ) :
    ∃ n' ≤ movesLeft feeder c false,
      Phase replica feeder (Handshake.propose replica ⟨point, .serving false, [], []⟩ c false)
        (talkFrom replica feeder.entry feeder.serves c) n' := by
  refine Phase.propose (fun _ _ => (resultAt_false c).symm) fun he => ?_
  rw [talkFrom, he]

theorem makeEntryResponse_of_serves {c : ℕ} {fr : Bool} (hs : feeder.serves c = true) :
    ∃ f, feeder.entry c = some f ∧ makeEntryResponse feeder c fr = .entry c f := by
  unfold SyncupView.serves at hs
  rw [Bool.and_eq_true, decide_eq_true_eq, Option.isSome_iff_exists] at hs
  obtain ⟨hfirst, f, hf⟩ := hs
  refine ⟨f, hf, ?_⟩
  rw [makeEntryResponse, if_neg hfirst, hf]

/-- Any other request: the first one may be answered with an offer. -/
theorem makeEntryResponse_of_not_serves {c : ℕ} {fr : Bool} (hs : feeder.serves c = false) :
    makeEntryResponse feeder c fr = .entryNotFound ∧ (fr = true → feeder.offer c = none) ∨
      fr = true ∧ feeder.offer c = some feeder.lastSync ∧
        ∃ e, makeEntryResponse feeder c fr = .alternateMatchpoint feeder.lastSync e := by
  unfold makeEntryResponse SyncupView.offer
  by_cases hfirst : feeder.firstVlsn ≠ 0 ∧ c < feeder.firstVlsn
  · rw [if_pos hfirst, if_pos hfirst]
    exact .inl ⟨rfl, fun _ => rfl⟩
  · have hc : feeder.entry c = none := by
      unfold SyncupView.serves at hs
      rw [decide_eq_true hfirst, Bool.true_and] at hs
      exact Option.isNone_iff_eq_none.mp (Option.isSome_eq_false_iff.mp hs)
    rw [if_neg hfirst, if_neg hfirst, hc]
    dsimp only
    cases hlast : feeder.entry feeder.lastSync with
    | none => exact .inl ⟨ite_self _, fun _ => if_neg fun h => by cases h.2⟩
    | some e =>
      by_cases hzero : feeder.lastSync ≠ 0
      · cases fr with
        | false => exact .inl ⟨if_neg fun h => Bool.false_ne_true h.1, nofun⟩
        | true => exact .inr ⟨rfl, if_pos ⟨hzero, rfl⟩, e, if_pos ⟨rfl, hzero⟩⟩
      · exact .inl ⟨if_neg fun h => hzero h.2, fun _ => if_neg fun h => hzero h.1⟩

theorem movesLeft_lt {c c' : ℕ} {fe : Bool} (hlt : c' < c) :
    movesLeft feeder c' false < movesLeft feeder c fe - 1 := by
  unfold movesLeft
  simp only [Bool.false_eq_true, if_false]
  omega

/-- **An answer.** -/
theorem Phase.receive {c : ℕ} {e : VlsnEntry} {fe : Bool} (he : replica.entry c = some e) :
    ∃ n' < movesLeft feeder c fe - 1,
      Phase replica feeder
        (Handshake.replicaReceives replica ⟨.asked c e fe, .serving false, [], []⟩ c e fe
          (makeEntryResponse feeder c fe)) (resultAt replica feeder c fe) n' := by
  have hmoves : 4 ≤ movesLeft feeder c fe - 1 := by
    unfold movesLeft
    omega
  by_cases hs : feeder.serves c = true
  · obtain ⟨f, hf, hresponse⟩ := @makeEntryResponse_of_serves feeder c fe hs
    have hresult : resultAt replica feeder c fe = talkFrom replica feeder.entry feeder.serves c :=
      if_neg fun h => by rw [hs] at h; cases h.2
    have hsame : sameRecord feeder.entry c e = decide (f.fingerprint = e.fingerprint) := by
      rw [sameRecord, hf]
      rfl
    rw [hresponse, hresult, talkFrom, he]
    simp only [Handshake.replicaReceives, true_and, hs, Bool.not_true, Bool.false_eq_true, if_false,
      hsame, decide_eq_true_eq]
    by_cases hfp : f.fingerprint = e.fingerprint
    · rw [if_pos hfp, if_pos hfp]
      exact ⟨1, by omega, .agreed⟩
    · rw [if_neg hfp, if_neg hfp, talkDown_prevSync]
      cases hprev : prevSync replica (c - 1) with
      | none => exact ⟨2, by omega, .restoring⟩
      | some prev =>
        have hle := prevSync_le hprev
        have hpos : c ≠ 0 := by
          rintro rfl
          cases hprev
        obtain ⟨n', hn', hphase⟩ := Phase.goOn replica feeder (.asked c e fe) prev
        exact ⟨n', hn'.trans_lt (movesLeft_lt (by omega)), hphase⟩
  · rw [Bool.not_eq_true] at hs
    rcases @makeEntryResponse_of_not_serves feeder c fe hs with
      ⟨hresponse, hoffer⟩ | ⟨rfl, hoffer, f, hresponse⟩ <;> rw [hresponse]
    · have hresult : resultAt replica feeder c fe = .none := by
        unfold resultAt
        split_ifs with hfe
        · rw [hoffer hfe.1]
          rfl
        · rw [talkFrom, he, hs]
          rfl
      rw [hresult]
      exact ⟨2, by omega, .restoring⟩
    · have hresult : resultAt replica feeder c true =
          if replica.firstVlsn ≤ feeder.lastSync then
            talkFrom replica feeder.entry feeder.serves feeder.lastSync
          else .none := by
        rw [resultAt, if_pos ⟨rfl, hs⟩, hoffer, Option.filter_some]
        split_ifs with h₁ h₂ h₂ <;> simp_all
      rw [hresult]
      unfold Handshake.replicaReceives
      simp only [if_true]
      by_cases hfirst : feeder.lastSync < replica.firstVlsn
      · rw [if_pos hfirst, if_neg (Nat.not_le_of_lt hfirst)]
        exact ⟨2, by omega, .restoring⟩
      · rw [if_neg hfirst, if_pos (Nat.le_of_not_lt hfirst)]
        obtain ⟨n', hn', hphase⟩ :=
          Phase.goOn replica feeder (.asked c e true) feeder.lastSync
        refine ⟨n', hn'.trans_lt ?_, hphase⟩
        unfold movesLeft
        simp only [Bool.false_eq_true, if_false, if_true]
        omega

/-- **One move**: the result stays, and the end comes closer. -/
theorem Phase.step (hp : Phase replica feeder h m n)
    (hstep : h.step replica feeder party = some h') :
    ∃ n' < n, Phase replica feeder h' m n' := by
  cases hp with
  | @asked c e fe he =>
    cases party with
    | replica => cases hstep
    | feeder =>
      obtain rfl := Option.some.inj hstep
      refine ⟨movesLeft feeder c fe - 1, ?_, .answered he⟩
      unfold movesLeft
      omega
  | @answered c e fe he =>
    cases party with
    | replica =>
      obtain rfl := Option.some.inj hstep
      exact Phase.receive he
    | feeder => cases hstep
  | agreed =>
    cases party with
    | replica => cases hstep
    | feeder =>
      obtain rfl := Option.some.inj hstep
      exact ⟨0, Nat.one_pos, .streaming⟩
  | streaming => cases party <;> cases hstep
  | restoring =>
    cases party with
    | replica => cases hstep
    | feeder =>
      obtain rfl := Option.some.inj hstep
      exact ⟨1, Nat.one_lt_two, .released⟩
  | released =>
    cases party with
    | replica =>
      obtain rfl := Option.some.inj hstep
      exact ⟨0, Nat.one_pos, .restored⟩
    | feeder => cases hstep
  | restored => cases party <;> cases hstep

/-- **A run.** -/
theorem Phase.run {moves : List Party} (hp : Phase replica feeder h m n)
    (hrun : run (Handshake.step replica feeder) h moves = some h') :
    ∃ n', n' + moves.length ≤ n ∧ Phase replica feeder h' m n' := by
  induction moves generalizing h n with
  | nil =>
    obtain rfl : h = h' := Option.some.inj hrun
    exact ⟨n, le_rfl, hp⟩
  | cons party moves ih =>
    obtain ⟨k, hk, hrun⟩ := run_cons_eq_some.mp hrun
    obtain ⟨n₁, hn₁, hp₁⟩ := hp.step hk
    obtain ⟨n', hn', hp'⟩ := ih hp₁ hrun
    rw [List.length_cons]
    exact ⟨n', by omega, hp'⟩

/-- **The end.** A handshake in which no party can move has its result. -/
theorem Phase.agrees_iff (hp : Phase replica feeder h m n)
    (hstuck : ∀ party, h.step replica feeder party = none) (k : Matchpoint) :
    h.Agrees k ↔ k = m := by
  cases hp with
  | asked | agreed | restoring => cases hstuck .feeder
  | answered | released => cases hstuck .replica
  | streaming =>
    cases k with
    | none => simp [Handshake.Agrees]
    | found v lsn =>
      refine ⟨fun hk => ?_, fun hk => ?_⟩
      · cases hk.1
        rfl
      · cases hk
        exact ⟨rfl, rfl⟩
  | restored => cases k <;> simp [Handshake.Agrees]

end Phase

/-- The result of a whole handshake. -/
def handshakeResult (replica feeder : SyncupView) : Matchpoint :=
  (handshakeStart replica feeder).elim .none (talkFrom replica feeder.entry feeder.serves)

section Result

variable {replica feeder : SyncupView}

/-- The handshake finds what a search from its start settles on. -/
theorem handshakeResult_eq_found_iff {v : ℕ} {lsn : LogPos} :
    handshakeResult replica feeder = .found v lsn ↔
      (∃ s, handshakeStart replica feeder = some s ∧
        Settles replica feeder.entry (replica.candidates s) feeder.serves v) ∧
        (replica.entry v).map VlsnEntry.lsn = some lsn := by
  unfold handshakeResult
  cases handshakeStart replica feeder with
  | none => exact ⟨fun h => (by cases h), fun ⟨⟨_, h, _⟩, _⟩ => (by cases h)⟩
  | some s =>
    rw [Option.elim_some, talkFrom_eq_found_iff]
    simp only [Option.some.injEq, exists_eq_left']

theorem Matchpoint.eq_iff_found {m k : Matchpoint} :
    m = k ↔ ∀ v lsn, m = .found v lsn ↔ k = .found v lsn := by
  refine ⟨fun h v lsn => by rw [h], fun h => ?_⟩
  cases m with
  | found v lsn => exact ((h v lsn).mp rfl).symm
  | none =>
    cases k with
    | found v lsn => exact (h v lsn).mpr rfl
    | none => rfl

/-- The condition says that the two searches have one result. -/
theorem handshakeFinds_iff (hsync : replica.lastSync ≠ 0) :
    HandshakeFinds replica feeder ↔
      findMatchpoint replica feeder.entry = handshakeResult replica feeder := by
  rw [Matchpoint.eq_iff_found]
  constructor
  · intro h v lsn
    rw [findMatchpoint_eq_found_iff hsync, handshakeResult_eq_found_iff]
    exact and_congr_left fun _ => ⟨h.finds v, fun ⟨s, hs, hv⟩ => h.only s v hs hv⟩
  · intro h
    refine ⟨fun v hv => ?_, fun s v hs hv => ?_⟩
    · obtain ⟨lsn, hlsn⟩ := hv.1.2.exists_lsn
      have hfound := (h v lsn).mp ((findMatchpoint_eq_found_iff hsync).mpr ⟨hv, hlsn⟩)
      exact (handshakeResult_eq_found_iff.mp hfound).1
    · obtain ⟨lsn, hlsn⟩ := hv.greatest.1.2.exists_lsn
      have hfound := (h v lsn).mpr (handshakeResult_eq_found_iff.mpr ⟨⟨s, hs, hv⟩, hlsn⟩)
      exact ((findMatchpoint_eq_found_iff hsync).mp hfound).1

end Result

/-- The first move. -/
theorem Phase.begin {replica feeder : SyncupView} {h : Handshake} {party : Party}
    (hsync : replica.lastSync ≠ 0) (hstep : Handshake.start.step replica feeder party = some h) :
    ∃ n ≤ movesLeft feeder replica.lastSync true,
      Phase replica feeder h (handshakeResult replica feeder) n := by
  cases party with
  | feeder => cases hstep
  | replica =>
    obtain rfl := Option.some.inj hstep
    rw [if_neg hsync]
    refine Phase.propose (fun e he => ?_) fun he => ?_
    · unfold handshakeResult handshakeStart resultAt
      rw [he]
      cases hs : feeder.serves replica.lastSync <;> rfl
    · unfold handshakeResult handshakeStart
      rw [he]
      rfl

/-- **The handshake ends, and when it agrees with the local search.** Every run of the two parties
on a replica with a sync point is bounded, and when neither can move both have returned. The result
is the one of the local search on the two views iff the last sync point that both nodes have is the
one on which a search settles that starts where the handshake does and stops at the first entry that
the feeder does not serve. -/
theorem handshake_agrees_iff (replica feeder : SyncupView) (hsync : replica.lastSync ≠ 0) :
    (∃ bound, ∀ moves h, run (Handshake.step replica feeder) .start moves = some h →
      moves.length ≤ bound) ∧
    ∀ moves h, run (Handshake.step replica feeder) .start moves = some h →
      (∀ party, h.step replica feeder party = none) →
        (∃ m, h.Agrees m) ∧
        (h.Agrees (findMatchpoint replica feeder.entry) ↔ HandshakeFinds replica feeder) := by
  have hphase : ∀ party moves h,
      run (Handshake.step replica feeder) .start (party :: moves) = some h →
      ∃ n, n + moves.length ≤ movesLeft feeder replica.lastSync true ∧
        Phase replica feeder h (handshakeResult replica feeder) n := by
    intro party moves h hrun
    obtain ⟨k, hk, hrun⟩ := run_cons_eq_some.mp hrun
    obtain ⟨n₀, hn₀, hp₀⟩ := Phase.begin hsync hk
    obtain ⟨n, hn, hp⟩ := hp₀.run hrun
    exact ⟨n, hn.trans hn₀, hp⟩
  refine ⟨⟨movesLeft feeder replica.lastSync true + 1, fun moves h hrun => ?_⟩,
    fun moves h hrun hstuck => ?_⟩
  · cases moves with
    | nil => exact Nat.zero_le _
    | cons party moves =>
      obtain ⟨n, hn, -⟩ := hphase party moves h hrun
      rw [List.length_cons]
      omega
  · cases moves with
    | nil =>
      obtain rfl := Option.some.inj hrun
      cases hstuck .replica
    | cons party moves =>
      obtain ⟨n, -, hp⟩ := hphase party moves h hrun
      rw [handshakeFinds_iff hsync, hp.agrees_iff hstuck]
      exact ⟨⟨_, (hp.agrees_iff hstuck _).mpr rfl⟩, Iff.rfl⟩

/-! ### A hole in the feeder's view -/

/-- A view with a sync point of a given fingerprint at each of these VLSNs. -/
def viewOf (first lastSync : ℕ) (fingerprints : List (ℕ × ℕ)) : SyncupView where
  lastSync := lastSync
  firstVlsn := first
  entry := fun v => (fingerprints.lookup v).map fun fp => ⟨(0, v), fp, true⟩

/-- The replica has sync points at 1, 2 and 3. -/
def threeSyncs : SyncupView := viewOf 1 3 [(1, 1), (2, 2), (3, 3)]

/-- The feeder has another record at 3 and none at 2. -/
def feederWithHole : SyncupView := viewOf 1 3 [(1, 1), (3, 9)]

/-- The feeder has another record at 3 and no hole. -/
def feederWithoutHole : SyncupView := viewOf 1 3 [(1, 1), (2, 2), (3, 9)]

/-- Without the hole the two agree on VLSN 2, after a first request in vain. -/
theorem handshake_agrees_threeSyncs :
    HandshakeFinds threeSyncs feederWithoutHole ∧
    (∃ bound, ∀ moves h, run (Handshake.step threeSyncs feederWithoutHole) .start moves = some h →
      moves.length ≤ bound) ∧
    ∃ h, run (Handshake.step threeSyncs feederWithoutHole) .start
        [.replica, .feeder, .replica, .feeder, .replica, .feeder] = some h ∧
      (∀ party, h.step threeSyncs feederWithoutHole party = none) ∧
      h.Agrees (.found 2 (0, 2)) := by
  have hfinds : HandshakeFinds threeSyncs feederWithoutHole := by
    refine ⟨fun v hv => ⟨3, by decide, hv, fun w hw _ => ?_⟩, fun s v hs hv => ?_⟩
    · have hcases : w = 1 ∨ w = 2 ∨ w = 3 := by
        rcases hw.2 with rfl | hw
        · exact .inr (.inr rfl)
        · have := hw.1
          have := hw.2.1
          omega
      rcases hcases with rfl | rfl | rfl <;> decide
    · obtain rfl : 3 = s := Option.some.inj ((by decide : some 3 = _).trans hs)
      exact hv.greatest
  obtain ⟨hbound, hagrees⟩ := handshake_agrees_iff threeSyncs feederWithoutHole (by decide)
  have hfound : findMatchpoint threeSyncs feederWithoutHole.entry = .found 2 (0, 2) := by decide
  rw [hfound] at hagrees
  have hstuck : ∀ party, Handshake.step threeSyncs feederWithoutHole
      ⟨.returned (.matchpoint 2 (0, 2) 3), .returned (some 3), [], []⟩ party = none := by
    rintro (_ | _) <;> rfl
  have hrun : run (Handshake.step threeSyncs feederWithoutHole) .start
      [.replica, .feeder, .replica, .feeder, .replica, .feeder] =
      some ⟨.returned (.matchpoint 2 (0, 2) 3), .returned (some 3), [], []⟩ := by decide
  exact ⟨hfinds, hbound, _, hrun, hstuck, (hagrees _ _ hrun hstuck).2.mpr hfinds⟩

/-- **The replica asks for a restore although both nodes have the same record at VLSN 1.** -/
theorem hole_forces_restore :
    findMatchpoint threeSyncs feederWithHole.entry = .found 1 (0, 1) ∧
    ∃ moves h, run (Handshake.step threeSyncs feederWithHole) .start moves = some h ∧
      h.replica = .returned (.needsRestore 2) ∧ h.feeder = .returned none :=
  ⟨by decide, [.replica, .feeder, .replica, .feeder, .replica, .feeder, .replica], _, rfl, rfl, rfl⟩

/-! ### What a matchpoint is -/

section Shared

variable {replica feeder : SyncupView}

/-- Both nodes have the same record at the matchpoint. -/
def Matchpoint.Shared (replica feeder : SyncupView) : Matchpoint → Prop
  | .found v lsn =>
    ∃ e, replica.entry v = some e ∧ e.lsn = lsn ∧ sameRecord feeder.entry v e = true
  | .none => True

theorem shared_handshakeResult : (handshakeResult replica feeder).Shared replica feeder := by
  cases hresult : handshakeResult replica feeder with
  | none => trivial
  | found v lsn =>
    obtain ⟨⟨s, -, hv⟩, hlsn⟩ := handshakeResult_eq_found_iff.mp hresult
    obtain ⟨e, he, hsame⟩ := hv.greatest.1.2
    rw [he, Option.map_some] at hlsn
    exact ⟨e, he, Option.some.inj hlsn, hsame⟩

/-- **A handshake never agrees on different records**: whenever the replica has returned with a
matchpoint, after any moves of the two parties, both nodes have the same record there. -/
theorem matchpoint_is_shared {moves : List Party} {h : Handshake} {v start : ℕ} {lsn : LogPos}
    (hsync : replica.lastSync ≠ 0)
    (hrun : run (Handshake.step replica feeder) .start moves = some h)
    (hret : h.replica = .returned (.matchpoint v lsn start)) :
    start = v + 1 ∧ (Matchpoint.found v lsn).Shared replica feeder := by
  cases moves with
  | nil =>
    obtain rfl := Option.some.inj hrun
    cases hret
  | cons party moves =>
    obtain ⟨k, hk, hrun⟩ := run_cons_eq_some.mp hrun
    obtain ⟨n₀, -, hp₀⟩ := Phase.begin hsync hk
    obtain ⟨n, -, hp⟩ := hp₀.run hrun
    have hshared := @shared_handshakeResult replica feeder
    generalize handshakeResult replica feeder = m at hp hshared
    cases hp with
    | agreed | streaming =>
      cases hret
      exact ⟨rfl, hshared⟩
    | asked | answered | restoring | released | restored => cases hret

end Shared

/-- Two nodes with the same sync points. -/
theorem matchpoint_of_threeSyncs :
    ∃ h, run (Handshake.step threeSyncs threeSyncs) .start [.replica, .feeder, .replica] = some h ∧
      h.replica = .returned (.matchpoint 3 (0, 3) 4) ∧
      (Matchpoint.found 3 (0, 3)).Shared threeSyncs threeSyncs := by
  obtain ⟨h, hrun, hret⟩ := exists_run_of_any
    (P := fun h : Handshake => h.replica = .returned (.matchpoint 3 (0, 3) 4))
    (show (run (Handshake.step threeSyncs threeSyncs) .start [.replica, .feeder, .replica]).any _ =
      true by decide)
  exact ⟨h, hrun, hret, (matchpoint_is_shared (by decide) hrun hret).2⟩

end Noxu
