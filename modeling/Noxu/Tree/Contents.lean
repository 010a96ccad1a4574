import Mathlib.Data.List.Induction
import Noxu.Tree.Operations

/-!
# The Tree as a Map

Runs of the tree's write operations from the empty tree, against the map a user sees: the
value of a key is that of the last call on the key if it was an insertion, and there is
none otherwise. Calls on keys that compare equal are calls on one key. A deleted slot may stay in
its leaf or be drained; neither shows.

The descent of `search` ends with a liveness check at the slot index **masked to 15
bits**. In a tree whose leaves hold at most 32768 slots the mask is the identity. Above
that the check looks at another slot, and `search` disagrees with `search_with_data`.

## Main results

* `Tree.run_holds`: every run returns a well-formed tree that holds the map of the run;
* `run_finds_last_insert`: both searches find a key exactly when the last call on it was
  an insertion, the masked one for leaves of at most 32768 slots;
* `search_misses_key_past_mask`: a run with larger leaves where `search` misses a key.
-/

open Std Noxu.Library

namespace Noxu

variable {t : Tree} {k : Key} {c : Option KeyComparator} {kp : Bool} {lo hi : Option Key}

/-! ### Runs -/

/-- A write operation on a tree. An insertion carries the answer of the lock hook during
the call. -/
inductive TreeOp where
  | insert (isLocked : Option (Lsn → Bool)) (key : Key) (data : List UInt8) (lsn : Lsn)
  | delete (key : Key)
  | markDeleted (key : Key) (delLsn : Lsn) (pending : Bool)

namespace TreeOp

/-- The key of an operation. -/
def key : TreeOp → Key
  | insert _ key _ _ => key
  | delete key => key
  | markDeleted key _ _ => key

/-- The value an operation leaves under its key. -/
def value : TreeOp → Option (List UInt8)
  | insert _ _ data _ => some data
  | delete _ => none
  | markDeleted _ _ _ => none

end TreeOp

/-- Apply one operation. -/
def Tree.apply (t : Tree) : TreeOp → Option Tree
  | .insert isLocked key data lsn => (t.insert isLocked key data lsn).map Prod.fst
  | .delete key => some (t.delete key).1
  | .markDeleted key delLsn pending => some (t.markDeleted key delLsn pending).1

/-- Apply a sequence of operations. -/
def Tree.run (t : Tree) : List TreeOp → Option Tree
  | [] => some t
  | op :: ops => (t.apply op).bind fun t => t.run ops

/-- The value of a key after a sequence of operations: that of the last call on it, or on a key
that compares equal. -/
def lastValue (cmp : Key → Key → Ordering) (ops : List TreeOp) (k : Key) : Option (List UInt8) :=
  (ops.filter fun op => cmp op.key k = .eq).getLast?.bind TreeOp.value

/-- Under a total order this is the last call on the key itself. -/
theorem lastValue_of_lawful {cmp : Key → Key → Ordering} [LawfulEqCmp cmp]
    (ops : List TreeOp) (k : Key) :
    lastValue cmp ops k = (ops.filter fun op => op.key = k).getLast?.bind TreeOp.value := by
  simp only [lastValue, LawfulEqCmp.compare_eq_iff_eq]

/-! ### Live slots -/

/-- A live slot. -/
def BinSlot.isLive (s : BinSlot) : Bool := !s.isDeleted

/-- The live slot of a key. -/
def Tree.liveSlot (t : Tree) (k : Key) : Option BinSlot := (t.slotOf k).filter BinSlot.isLive

/-- Looking up a live slot is looking up among the live slots. -/
theorem lookup_filter_live {l : List BinSlot} (hl : SortedBy (keyCmp c) BinSlot.key l) :
    lookup (keyCmp c) BinSlot.key k (l.filter BinSlot.isLive) =
      (lookup (keyCmp c) BinSlot.key k l).filter BinSlot.isLive := by
  have hsub : SortedBy (keyCmp c) BinSlot.key (l.filter BinSlot.isLive) :=
    hl.sublist List.filter_sublist
  cases hlook : lookup (keyCmp c) BinSlot.key k (l.filter BinSlot.isLive) with
  | some s =>
    obtain ⟨hs, hk⟩ := of_lookup_eq_some hlook
    obtain ⟨hmem, hlive⟩ := List.mem_filter.mp hs
    rw [lookup_of_mem hl hmem hk]
    simp [Option.filter, hlive]
  | none =>
    cases hlook' : lookup (keyCmp c) BinSlot.key k l with
    | none => rfl
    | some s =>
      obtain ⟨hs, hk⟩ := of_lookup_eq_some hlook'
      cases hlive : s.isLive with
      | false => simp [Option.filter, hlive]
      | true =>
        rw [lookup_of_mem hsub (List.mem_filter.mpr ⟨hs, hlive⟩) hk] at hlook
        simp at hlook

theorem Drained.lookup_live {l l' : List BinSlot} (h : Drained l l')
    (hl : SortedBy (keyCmp c) BinSlot.key l) (k : Key) :
    (lookup (keyCmp c) BinSlot.key k l').filter BinSlot.isLive =
      (lookup (keyCmp c) BinSlot.key k l).filter BinSlot.isLive := by
  rw [← lookup_filter_live hl, ← lookup_filter_live (hl.sublist h.sublist)]
  exact congrArg _ h.live

theorem Drained.lookup_eq_some {l l' : List BinSlot} {s : BinSlot} (h : Drained l l')
    (hl : SortedBy (keyCmp c) BinSlot.key l)
    (hs : lookup (keyCmp c) BinSlot.key k l' = some s) :
    lookup (keyCmp c) BinSlot.key k l = some s := by
  obtain ⟨hmem, hk⟩ := of_lookup_eq_some hs
  exact lookup_of_mem hl (h.sublist.subset hmem) hk

/-! ### The map of a run -/

/-- A well-formed tree that holds a map: the live slots carry its values. No operation of
a run sets an expiration. -/
structure Holds (t : Tree) (m : Key → Option (List UInt8)) : Prop where
  wf : TreeWF t
  live : ∀ k, (t.liveSlot k).map BinSlot.data = (m k).map some
  expiration : ∀ k s, t.slotOf k = some s → s.expirationTime = 0

theorem holds_new {config : TreeConfig} (h : config.Sound) :
    Holds (Tree.new config) fun _ => none where
  wf := h.treeWF_new
  live _ := rfl
  expiration _ s hs := by simp [Tree.slotOf, Tree.slots, Tree.new] at hs

/-- The map after an operation. -/
def applyToMap (cmp : Key → Key → Ordering) (m : Key → Option (List UInt8)) (op : TreeOp) :
    Key → Option (List UInt8) :=
  fun k => if cmp op.key k = .eq then op.value else m k

variable {m : Key → Option (List UInt8)} {b : BinStub} {i : ℕ}

theorem Holds.edit {t' : Tree} {v : Option (List UInt8)}
    {l : List BinSlot} {g : Option BinSlot → Option BinSlot} (hm : Holds t m)
    (hwf : TreeWF t') (hconfig : t'.config = t.config) (hl : Drained t.slots l)
    (hed : EditsKey (keyCmp t.config.keyComparator) BinSlot.key k g l t'.slots)
    (hv : ∀ o, ((g o).filter BinSlot.isLive).map BinSlot.data = v.map some)
    (he : ∀ o s, (∀ s₀, o = some s₀ → s₀.expirationTime = 0) → g o = some s →
      s.expirationTime = 0) :
    Holds t' fun k' => if keyCmp t.config.keyComparator k k' = .eq then v else m k' := by
  have hold : ∀ k' s, lookup (keyCmp t.config.keyComparator) BinSlot.key k' l = some s →
      s.expirationTime = 0 :=
    fun k' s hs => hm.expiration k' s (hl.lookup_eq_some hm.wf.sorted hs)
  refine ⟨hwf, fun k' => ?_, fun k' s hs => ?_⟩
  · simp only [Tree.liveSlot, Tree.slotOf, hconfig]
    split
    · rename_i hk
      rw [← lookup_congr hk, hed.here]
      exact hv _
    · rename_i hk
      rw [hed.elsewhere k' hk, hl.lookup_live hm.wf.sorted]
      exact hm.live k'
  · simp only [Tree.slotOf, hconfig] at hs
    by_cases hk : keyCmp t.config.keyComparator k k' = .eq
    · rw [← lookup_congr hk, hed.here] at hs
      exact he _ s (fun s₀ hs₀ => hold k s₀ hs₀) hs
    · rw [hed.elsewhere k' hk] at hs
      exact hold k' s hs

@[simp] theorem BinSlot.isDeleted_markDeleted (delLsn : Lsn) (pending : Bool) (s : BinSlot) :
    (s.markDeleted delLsn pending).isDeleted = true := by
  cases pending <;> simp [BinSlot.markDeleted, BinSlot.isDeleted]

/-- After a deletion mark the slot of the key is not live. -/
theorem markSlot_filter_live (delLsn : Lsn) (pending : Bool) (o : Option BinSlot) :
    (markSlot delLsn pending o).filter BinSlot.isLive = none := by
  cases o with
  | none => rfl
  | some s =>
    cases hd : s.isDeleted <;> simp [markSlot, Option.filter, BinSlot.isLive, hd]

/-- **One step**: every operation returns and updates the map at its key. -/
theorem Holds.apply (hm : Holds t m) (hmax : 2 ≤ t.config.maxEntriesPerNode) (op : TreeOp) :
    ∃ t', t.apply op = some t' ∧
      Holds t' (applyToMap (keyCmp t.config.keyComparator) m op) ∧ t'.config = t.config := by
  cases op with
  | insert isLocked key data lsn =>
    obtain ⟨t', flag, l, heq, hins⟩ := Tree.insert_spec hm.wf hmax isLocked key data lsn
    refine ⟨t', by simp [Tree.apply, heq], ?_, hins.config⟩
    refine hm.edit hins.wf hins.config hins.before.drained hins.edits (fun o => ?_)
      fun o s ho hs => ?_
    · unfold Tree.upsert
      cases t.root.isNone <;> cases o <;> rfl
    · unfold Tree.upsert at hs
      cases hr : t.root.isNone with
      | true =>
        rw [hr] at hs
        obtain rfl := Option.some.inj hs
        rfl
      | false =>
        rw [hr] at hs
        obtain rfl := Option.some.inj hs
        cases o with
        | none => rfl
        | some s₀ => exact ho s₀ rfl
  | delete key =>
    obtain ⟨hed, -⟩ := Tree.delete_spec hm.wf key
    refine ⟨_, rfl, ?_, hed.config⟩
    refine hm.edit hed.wf hed.config (.refl _) hed.edits (fun _ => rfl) fun o s _ hs => ?_
    simp at hs
  | markDeleted key delLsn pending =>
    obtain ⟨hed, -⟩ := Tree.markDeleted_spec hm.wf key delLsn pending
    refine ⟨_, rfl, ?_, hed.config⟩
    refine hm.edit hed.wf hed.config (.refl _) hed.edits (fun o => ?_) fun o s ho hs => ?_
    · rw [markSlot_filter_live]
      rfl
    · cases o with
      | none => simp [markSlot] at hs
      | some s₀ =>
        obtain rfl := Option.some.inj hs
        have hs₀ := ho s₀ rfl
        dsimp only
        split
        · exact hs₀
        · exact hs₀

/-- The map after a sequence of operations, one at a time, is the map of last calls. -/
theorem foldl_applyToMap (cmp : Key → Key → Ordering) (ops : List TreeOp)
    (m : Key → Option (List UInt8)) (k : Key) :
    ops.foldl (applyToMap cmp) m k =
      if ops.any (fun op => cmp op.key k = .eq) then lastValue cmp ops k else m k := by
  induction ops using List.reverseRecOn with
  | nil => rfl
  | append_singleton ops op ih =>
    rw [List.foldl_append, List.foldl_cons, List.foldl_nil, applyToMap]
    by_cases hk : cmp op.key k = .eq
    · simp [lastValue, List.filter_append, hk]
    · rw [if_neg hk, ih]
      simp [lastValue, List.filter_append, hk]

theorem foldl_applyToMap_empty (cmp : Key → Key → Ordering) (ops : List TreeOp) :
    ops.foldl (applyToMap cmp) (fun _ => none) = lastValue cmp ops := by
  funext k
  rw [foldl_applyToMap]
  split
  · rfl
  · rename_i hnone
    have hfilter : ops.filter (fun op => cmp op.key k = .eq) = [] := by
      simpa [List.filter_eq_nil_iff] using hnone
    simp [lastValue, hfilter]

theorem Holds.run (ops : List TreeOp) (hm : Holds t m) (hmax : 2 ≤ t.config.maxEntriesPerNode) :
    ∃ t', t.run ops = some t' ∧
      Holds t' (ops.foldl (applyToMap (keyCmp t.config.keyComparator)) m) ∧
        t'.config = t.config := by
  induction ops generalizing t m with
  | nil => exact ⟨t, rfl, hm, rfl⟩
  | cons op ops ih =>
    obtain ⟨t₁, h₁, hm₁, hc₁⟩ := hm.apply hmax op
    obtain ⟨t₂, h₂, hm₂, hc₂⟩ := ih hm₁ (hc₁ ▸ hmax)
    rw [hc₁] at hm₂
    exact ⟨t₂, by simp [Tree.run, h₁, h₂], hm₂, hc₂.trans hc₁⟩

/-- **Every run returns** a well-formed tree that holds the map of last calls. -/
theorem Tree.run_holds {config : TreeConfig} (hconfig : config.Sound) (ops : List TreeOp) :
    ∃ t, (Tree.new config).run ops = some t ∧
      Holds t (lastValue (keyCmp config.keyComparator) ops) ∧ t.config = config := by
  obtain ⟨t, hrun, hm, hc⟩ := (holds_new hconfig).run ops hconfig.room
  exact ⟨t, hrun, foldl_applyToMap_empty _ ops ▸ hm, hc⟩

/-! ### Searches -/

/-- The data a fetch delivers. -/
def SlotFetch.value (f : SlotFetch) : Option (List UInt8) := if f.found then f.data else none

/-- A live slot always carries its value. -/
theorem eq_bind_data {o : Option BinSlot} {v : Option (List UInt8)}
    (h : o.map BinSlot.data = v.map some) : v = o.bind BinSlot.data := by
  cases o <;> cases v <;> simp_all

/-- The liveness of a slot that never expires. -/
theorem BinStub.slotIsLive_of_getElem? {s : BinSlot}
    (expired : ℕ → Bool → Bool) (hs : b.slots[i]? = some s) (he : s.expirationTime = 0) :
    b.slotIsLive expired i = s.isLive := by
  simp [BinStub.slotIsLive, hs, he, BinSlot.isLive]

/-- A fetch in the leaf of a key sees the live slot of the key. -/
theorem LeafWF.searchWithData (hb : LeafWF c kp lo hi b) (expired : ℕ → Bool → Bool) (k : Key)
    (he : ∀ s, lookup (keyCmp c) BinSlot.key k b.fullSlots = some s → s.expirationTime = 0) :
    let live := (lookup (keyCmp c) BinSlot.key k b.fullSlots).filter BinSlot.isLive
    (b.searchWithData expired c k).found = live.isSome ∧
      (b.searchWithData expired c k).value = live.bind BinSlot.data := by
  rcases hb.findEntry_cases k with ⟨pre, s, post, s₀, -, -, hfind, hget, hs, hl⟩ | ⟨hfind, hl⟩
  · have hexp : s₀.expirationTime = 0 := by
      have := he s hl
      rwa [hs] at this
    have hlive : s₀.isLive = s.isLive := by rw [hs]; rfl
    have hdata : s₀.data = s.data := by rw [hs]; rfl
    simp only [BinStub.searchWithData, hfind, hget, hl,
      BinStub.slotIsLive_of_getElem? expired hget hexp, hlive]
    cases hd : s.isLive <;> simp [Option.filter, hd, SlotFetch.value, hdata]
  · generalize hr : b.findEntry c k = r at hfind
    obtain ⟨i, found⟩ := r
    obtain rfl : found = false := hfind
    simp [BinStub.searchWithData, hr, hl, SlotFetch.value]

/-- A 15-bit mask keeps an index below 32768. -/
theorem toNat_and_mask (hi : i < 32768) :
    (BitVec.ofNat 32 i &&& 0x7FFF#32).toNat = i := by
  have hmod : i % 2 ^ 32 = i := Nat.mod_eq_of_lt (by omega)
  have hmask : i &&& (2 ^ 15 - 1) = i % 2 ^ 15 := Nat.and_two_pow_sub_one_eq_mod i 15
  have hi' : i % 2 ^ 15 = i := Nat.mod_eq_of_lt hi
  rw [BitVec.toNat_and, BitVec.toNat_ofNat, hmod]
  exact hmask.trans hi'

/-- The flag of an exact match does not reach the low 16 bits. -/
theorem or_exactMatch_and (x : BitVec 32) :
    (x ||| exactMatch) &&& 0xFFFF#32 = x &&& 0xFFFF#32 := by
  have hzero : exactMatch &&& 0xFFFF#32 = 0#32 := by decide
  rw [BitVec.and_comm, BitVec.and_or_distrib_left, BitVec.and_comm _ exactMatch, hzero,
    BitVec.or_zero, BitVec.and_comm]

/-- An exact match below index 65536 is recognised, and its index read back. -/
theorem findEntryExact_hit (hfind : b.findEntryCompressed k = (i, true)) (hi : i < 65536) :
    ((b.findEntryExact k).msb = false ∧ b.findEntryExact k &&& exactMatch ≠ 0#32) ∧
      b.findEntryExact k &&& 0xFFFF#32 = BitVec.ofNat 32 i := by
  have hmod : i % 2 ^ 32 = i := Nat.mod_eq_of_lt (by omega)
  have hx : b.findEntryExact k = BitVec.ofNat 32 i ||| exactMatch := by
    simp [BinStub.findEntryExact, hfind]
  refine ⟨⟨?_, ?_⟩, ?_⟩
  · have hi' : (BitVec.ofNat 32 i).msb = false := by
      rw [BitVec.msb_eq_decide, BitVec.toNat_ofNat, hmod]
      exact decide_eq_false (show ¬ 2 ^ 31 ≤ i by omega)
    have he : exactMatch.msb = false := by decide
    rw [hx, BitVec.msb_or, hi', he]
    rfl
  · rw [hx]
    intro h
    have hbit := congrArg (fun y : BitVec 32 => y.getLsbD 16) h
    simp [exactMatch] at hbit
  · rw [hx, or_exactMatch_and]
    apply BitVec.eq_of_toNat_eq
    have hmask : i &&& (2 ^ 16 - 1) = i % 2 ^ 16 := Nat.and_two_pow_sub_one_eq_mod i 16
    rw [BitVec.toNat_and, BitVec.toNat_ofNat, hmod]
    exact hmask.trans (Nat.mod_eq_of_lt hi)

/-- A search in a leaf that hits index `i` checks the slot at `i` masked to 15 bits. -/
theorem BinStub.search_hit (expired : ℕ → Bool → Bool)
    (hfind : b.findEntry c k = (i, true)) (hi : i < 65536) :
    (b.search expired c k).found =
      b.slotIsLive expired (BitVec.ofNat 32 i &&& 0x7FFF#32).toNat := by
  cases c with
  | some c =>
    have hfind' : b.findEntryCmp k c.compare = (i, true) := hfind
    simp [BinStub.search, hfind']
  | none =>
    obtain ⟨⟨hmsb, hbit⟩, hidx⟩ := findEntryExact_hit hfind hi
    simp [BinStub.search, hmsb, hbit, hidx]

/-- A search in a leaf that misses finds nothing. -/
theorem BinStub.search_miss (expired : ℕ → Bool → Bool)
    (hfind : (b.findEntry c k).2 = false) : (b.search expired c k).found = false := by
  cases c with
  | some c =>
    have hfind' : (b.findEntryCmp k c.compare).2 = false := hfind
    simp [BinStub.search, hfind']
  | none =>
    have hfind' : (b.findEntryCompressed k).2 = false := hfind
    have hmsb : (b.findEntryExact k).msb = true := by
      simp only [BinStub.findEntryExact, hfind', Bool.false_eq_true, if_false]
      decide
    simp [BinStub.search, hmsb]

/-- A search in the leaf of a key, below the mask, sees the live slot of the key. -/
theorem LeafWF.search (hb : LeafWF c kp lo hi b) (expired : ℕ → Bool → Bool)
    (k : Key) (hlen : b.slots.length ≤ 32768)
    (he : ∀ s, lookup (keyCmp c) BinSlot.key k b.fullSlots = some s → s.expirationTime = 0) :
    (b.search expired c k).found =
      ((lookup (keyCmp c) BinSlot.key k b.fullSlots).filter BinSlot.isLive).isSome := by
  rcases hb.findEntry_cases k with ⟨pre, s, post, s₀, -, -, hfind, hget, hs, hl⟩ | ⟨hfind, hl⟩
  · have hlt := (List.getElem?_eq_some_iff.mp hget).1
    have hexp₀ : s₀.expirationTime = 0 := by
      have := he s hl
      rwa [hs] at this
    have hlive₀ : s₀.isLive = s.isLive := by rw [hs]; rfl
    rw [BinStub.search_hit expired hfind (by omega), toNat_and_mask (by omega),
      BinStub.slotIsLive_of_getElem? expired hget hexp₀, hlive₀, hl]
    cases hd : s.isLive <;> simp [Option.filter, hd]
  · rw [BinStub.search_miss expired hfind, hl]
    rfl

/-- A tree without a root holds nothing. -/
theorem Holds.of_root_none (hm : Holds t m) (hr : t.root = none) (k : Key) : m k = none := by
  have hnone : t.liveSlot k = none := by simp [Tree.liveSlot, Tree.slotOf, Tree.slots, hr]
  have hlive := hm.live k
  rw [hnone] at hlive
  exact Option.map_eq_none_iff.mp hlive.symm

/-- The leaf of a key holds its value, under a slot that never expires. -/
theorem Holds.leaf (hm : Holds t m) {r : Σ h, TreeNode h} (hr : t.root = some r) (k : Key) :
    ∃ b lo hi, getParentBinForChildLn (keyCmp t.config.keyComparator) k r.1 r.2 = some b ∧
      LeafWF t.config.keyComparator t.config.keyPrefixing lo hi b ∧
      b.slots.length ≤ t.config.maxEntriesPerNode ∧
      (∀ s, lookup (keyCmp t.config.keyComparator) BinSlot.key k b.fullSlots = some s →
        s.expirationTime = 0) ∧
      ((lookup (keyCmp t.config.keyComparator) BinSlot.key k b.fullSlots).filter
        BinSlot.isLive).map BinSlot.data = (m k).map some := by
  obtain ⟨b, lo, hi, hreads, hb, hlen, hlook⟩ := hm.wf.reads hr k
  refine ⟨b, lo, hi, hreads, hb, hlen, ?_, ?_⟩
  · rw [hlook]
    exact hm.expiration k
  · rw [hlook]
    exact hm.live k

/-- `search_with_data` sees the map a tree holds. -/
theorem Holds.searchWithData (hm : Holds t m) (expired : ℕ → Bool → Bool) (k : Key) :
    (t.searchWithData expired k).any SlotFetch.found = (m k).isSome ∧
      (t.searchWithData expired k).bind SlotFetch.value = m k := by
  cases hr : t.root with
  | none => simp [Tree.searchWithData, hr, hm.of_root_none hr]
  | some r =>
    obtain ⟨b, lo, hi, hreads, hb, -, hexp, hlive⟩ := hm.leaf hr k
    obtain ⟨hfound, hvalue⟩ := hb.searchWithData expired k hexp
    have hsome := congrArg Option.isSome hlive
    simp only [Option.isSome_map] at hsome
    simp only [Tree.searchWithData, hr, Option.bind_eq_bind, Option.bind_some, hreads,
      Option.pure_def, Option.any_some]
    exact ⟨hfound.trans hsome, hvalue.trans (eq_bind_data hlive).symm⟩

/-- `search` sees the map a tree holds, below the mask. -/
theorem Holds.search (hm : Holds t m)
    (hmax : t.config.maxEntriesPerNode ≤ 32768) (expired : ℕ → Bool → Bool) (k : Key) :
    (t.search expired k).any SearchResult.found = (m k).isSome := by
  cases hr : t.root with
  | none => simp [Tree.search, hr, hm.of_root_none hr]
  | some r =>
    obtain ⟨b, lo, hi, hreads, hb, hlen, hexp, hlive⟩ := hm.leaf hr k
    have hsome := congrArg Option.isSome hlive
    simp only [Option.isSome_map] at hsome
    simp only [Tree.search, hr, Option.bind_eq_bind, Option.bind_some, hreads,
      Option.pure_def, Option.any_some]
    exact (hb.search expired k (hlen.trans hmax) hexp).trans hsome

/-- **Both searches see the map of a run** of a tree that packs no key longer than 16 bits can say:
`search_with_data` always, `search` in a tree whose leaves hold at most 32768 slots. Every run
returns, and no key has two slots. -/
theorem run_finds_last_insert (config : TreeConfig) (hconfig : config.Sound)
    (expired : ℕ → Bool → Bool) (ops : List TreeOp) :
    ∃ t, (Tree.new config).run ops = some t ∧
      SortedBy (keyCmp config.keyComparator) BinSlot.key t.slots ∧
      ∀ k,
        (t.searchWithData expired k).any SlotFetch.found =
          (lastValue (keyCmp config.keyComparator) ops k).isSome ∧
        (t.searchWithData expired k).bind SlotFetch.value =
          lastValue (keyCmp config.keyComparator) ops k ∧
        (config.maxEntriesPerNode ≤ 32768 →
          (t.search expired k).any SearchResult.found =
            (lastValue (keyCmp config.keyComparator) ops k).isSome) := by
  obtain ⟨t, hrun, hm, rfl⟩ := Tree.run_holds hconfig ops
  refine ⟨t, hrun, hm.wf.sorted, fun k => ?_⟩
  obtain ⟨hfound, hvalue⟩ := hm.searchWithData expired k
  exact ⟨hfound, hvalue, fun hmax => hm.search hmax expired k⟩

/-- A small tree that packs the longest keys it may, with prefixes. -/
def smallestConfig : TreeConfig :=
  { databaseId := 1, keyComparator := none, maxEntriesPerNode := 2, keyPrefixing := true,
    expirationEnabled := true, maxEmbeddedLn := 16, compactMaxKeyLength := 65535 }

/-- Two keys, a split and a deletion at the smallest node size, with packed keys. -/
theorem run_finds_last_insert_smallest :
    smallestConfig.Sound ∧ ∃ t, (Tree.new smallestConfig).run
        [.insert none [1] [7] 0, .insert none [2] [8] 1, .delete [1]] = some t ∧
      (t.searchWithData (fun _ _ => false) [1]).any SlotFetch.found = false ∧
      (t.search (fun _ _ => false) [2]).any SearchResult.found = true := by
  obtain ⟨t, hrun, -, hk⟩ := run_finds_last_insert smallestConfig ⟨by decide, by decide⟩
    (fun _ _ => false) [.insert none [1] [7] 0, .insert none [2] [8] 1, .delete [1]]
  exact ⟨⟨by decide, by decide⟩, t, hrun, (hk [1]).1, (hk [2]).2.2 (by decide)⟩

/-! ### Leaves past the mask -/

/-- A tree of one leaf under its root. -/
def SingleLeaf (t : Tree) (b : BinStub) : Prop :=
  ∃ (nodeId : ℕ) (key : Key) (lsn lastFull : Lsn) (dirty : Bool),
    t.root = some ⟨1, InNodeStub.mk nodeId [⟨key, lsn, b⟩] dirty lastFull⟩

theorem SingleLeaf.insert (ht : SingleLeaf t b) (hmax : 2 ≤ t.config.maxEntriesPerNode)
    (hlen : b.slots.length < t.config.maxEntriesPerNode) (isLocked : Option (Lsn → Bool))
    (k : Key) (data : List UInt8) (lsn : Lsn) :
    ∃ t', t.apply (.insert isLocked k data lsn) = some t' ∧ t'.config = t.config ∧
      SingleLeaf t' (b.insertEntry t.config.keyComparator t.config.keyPrefixing k lsn
        (some data)).1 := by
  obtain ⟨nodeId, key, slotLsn, lastFull, dirty, hr⟩ := ht
  have hroot : (1 : ℕ) < t.config.maxEntriesPerNode := hmax
  have hlen' : TreeNode.nEntries 0 b < t.config.maxEntriesPerNode := hlen
  refine ⟨{ t with root := some ⟨1, InNodeStub.mk nodeId [⟨key, slotLsn,
    (b.insertEntry t.config.keyComparator t.config.keyPrefixing k lsn (some data)).1⟩] dirty
      lastFull⟩ }, ?_, rfl, nodeId, key, slotLsn, lastFull, dirty, rfl⟩
  simp [Tree.apply, Tree.insert, hr, Tree.insertFromRoot, splitRootIfNeeded, TreeNode.nEntries,
    hroot, insertRecursiveInner, descentFuel, insertDescent, scanFloorIndex, scanFloorLoop,
    hlen, InNodeStub.setChild]

theorem SingleLeaf.markDeleted (ht : SingleLeaf t b) (k : Key) (delLsn : Lsn) (pending : Bool) :
    ∃ t', t.apply (.markDeleted k delLsn pending) = some t' ∧ t'.config = t.config ∧
      SingleLeaf t' (b.markDeleted t.config.keyComparator k delLsn pending).1 := by
  obtain ⟨nodeId, key, slotLsn, lastFull, dirty, hr⟩ := ht
  refine ⟨{ t with root := some ⟨1, InNodeStub.mk nodeId [⟨key, slotLsn,
    (b.markDeleted t.config.keyComparator k delLsn pending).1⟩] dirty lastFull⟩ }, ?_, rfl,
    nodeId, key, slotLsn, lastFull, dirty, rfl⟩
  simp [Tree.apply, Tree.markDeleted, Tree.updateBin, hr, updateBin, upperInFloorIndex,
    InNodeStub.setChild]

/-- Reading descents end in the single leaf. -/
theorem SingleLeaf.search (ht : SingleLeaf t b) (expired : ℕ → Bool → Bool)
    (k : Key) : t.search expired k = some (b.search expired t.config.keyComparator k) := by
  obtain ⟨nodeId, key, slotLsn, lastFull, dirty, hr⟩ := ht
  simp [Tree.search, hr, getParentBinForChildLn, upperInFloorIndex]

/-- Two-byte big-endian keys. -/
def numKey (i : ℕ) : Key := [UInt8.ofNat (i / 256), UInt8.ofNat (i % 256)]

/-- The byte order of two-byte keys is that of their numbers. -/
theorem numKey_lt {j : ℕ} (hij : i < j) (hj : j < 65536) :
    keyCmp none (numKey i) (numKey j) = .lt := by
  have hbyte : ∀ a b : ℕ, a < b → b < 256 →
      compare (UInt8.ofNat a) (UInt8.ofNat b) = .lt := by
    intro a b hab hb
    rw [Std.compare_eq_lt, UInt8.lt_iff_toNat_lt, UInt8.toNat_ofNat', UInt8.toNat_ofNat']
    omega
  have hrefl : compare (UInt8.ofNat (j / 256)) (UInt8.ofNat (j / 256)) = .eq :=
    ReflCmp.compare_self
  show compare (numKey i) (numKey j) = .lt
  simp only [numKey, List.compare_cons_cons]
  by_cases h : i / 256 = j / 256
  · rw [h, hrefl, hbyte (i % 256) (j % 256) (by omega) (by omega)]
    rfl
  · rw [hbyte (i / 256) (j / 256) (by omega) (by omega)]
    rfl

theorem keyCmp_self (c : Option KeyComparator) (k : Key) : keyCmp c k k = .eq :=
  ReflCmp.compare_self

/-- The numbers of two-byte keys are determined by the keys. -/
theorem numKey_inj {j : ℕ} (hi : i < 65536) (hj : j < 65536) (h : numKey i = numKey j) :
    i = j := by
  have hne : ∀ k : Key, keyCmp none k k ≠ .lt := fun k => by
    rw [keyCmp_self]
    decide
  rcases Nat.lt_trichotomy i j with hlt | heq | hgt
  · exact absurd (h ▸ numKey_lt hlt hj) (hne _)
  · exact heq
  · exact absurd (h ▸ numKey_lt hgt hi) (hne _)

theorem Tree.run_append (t : Tree) (l m : List TreeOp) :
    t.run (l ++ m) = (t.run l).bind fun t => t.run m := by
  induction l generalizing t with
  | nil => rfl
  | cons op l ih => cases h : t.apply op <;> simp [Tree.run, h, ih]

/-- A tree with room for 32770 slots in a leaf. -/
def wideConfig : TreeConfig :=
  { databaseId := 1, keyComparator := none, maxEntriesPerNode := 32770, keyPrefixing := false,
    expirationEnabled := true, maxEmbeddedLn := 16, compactMaxKeyLength := defaultMaxKeyLength }

/-- Insertions of the first `n` two-byte keys in order. -/
def ascending (n : ℕ) : List TreeOp :=
  (List.range n).map fun i => .insert none (numKey i) [0] 0

theorem insertEntry_ascending {n : ℕ} (hb : LeafWF none false none none b)
    (hkeys : b.fullSlots.map BinSlot.key = (List.range n).map numKey) (hn : n < 65536) :
    LeafWF none false none none (b.insertEntry none false (numKey n) 0 (some [0])).1 ∧
      (b.insertEntry none false (numKey n) 0 (some [0])).1.fullSlots.map BinSlot.key =
        (List.range (n + 1)).map numKey := by
  have hlt : ∀ s ∈ b.fullSlots, keyCmp none s.key (numKey n) = .lt := by
    intro s hs
    have hmem : s.key ∈ (List.range n).map numKey := hkeys ▸ List.mem_map_of_mem hs
    obtain ⟨i, hi, hik⟩ := List.mem_map.mp hmem
    rw [← hik]
    exact numKey_lt (List.mem_range.mp hi) hn
  have hwf := (leafKeeps_insertEntry (k := numKey n) 0 (some [0]) hb inRange_none).1
  refine ⟨hwf, ?_⟩
  have hins := (BinStub.insertEntry_inserted hb.wf (numKey n) 0 (some [0])).upserts
  rw [hb.keyPrefixing] at hins
  generalize (b.insertEntry none false (numKey n) 0 (some [0])).1.fullSlots = l' at hins ⊢
  generalize (b.insertEntry none false (numKey n) 0 (some [0])).2 = isNew at hins
  generalize b.fullSlots = l at hins hkeys hlt
  rw [List.range_succ, List.map_append, ← hkeys]
  cases hins with
  | @hit pre post s hk =>
    have := hlt s (by simp)
    rw [hk] at this
    exact absurd this (by decide)
  | @miss pre post hpre hpost =>
    have hnil : post = [] := by
      refine List.eq_nil_iff_forall_not_mem.mpr fun s hs => ?_
      have h₁ := hlt s (List.mem_append_right _ hs)
      rw [hpost s hs] at h₁
      exact absurd h₁ (by decide)
    simp [hnil, BinSlot.fresh]

/-- Up to 32769 ascending keys stay in one leaf, in order. -/
theorem run_ascending {n : ℕ} (hn : n < 32769) :
    ∃ t b, (Tree.new wideConfig).run (ascending (n + 1)) = some t ∧ t.config = wideConfig ∧
      SingleLeaf t b ∧ LeafWF none false none none b ∧
        b.fullSlots.map BinSlot.key = (List.range (n + 1)).map numKey := by
  induction n with
  | zero =>
    have hfirst := Tree.firstKey_spec (t := Tree.new wideConfig)
      (treeWF_of_root_none rfl (by decide)) rfl (by decide) (numKey 0) (some [0]) 0
    refine ⟨(Tree.new wideConfig).firstKey (numKey 0) (some [0]) 0, _, rfl, rfl,
      ⟨_, _, _, _, _, rfl⟩, ?_, rfl⟩
    exact hfirst.1.node _ rfl
  | succ n ih =>
    obtain ⟨t, b, hrun, hc, hsingle, hb, hkeys⟩ := ih (by omega)
    have hlen : b.slots.length = n + 1 := by
      have := congrArg List.length hkeys
      simpa using this
    have hmax : t.config.maxEntriesPerNode = 32770 := by rw [hc]; rfl
    obtain ⟨t', happly, hc', hsingle'⟩ := hsingle.insert (by omega)
      (by omega) none (numKey (n + 1)) [0] 0
    rw [hc] at hsingle'
    obtain ⟨hb', hkeys'⟩ := insertEntry_ascending hb hkeys (by omega)
    refine ⟨t', _, ?_, hc'.trans hc, hsingle', hb', hkeys'⟩
    have hsplit : ascending (n + 1 + 1) =
        ascending (n + 1) ++ [.insert none (numKey (n + 1)) [0] 0] := by
      rw [ascending, List.range_succ, List.map_append]
      rfl
    rw [hsplit, Tree.run_append, hrun]
    simp [Tree.run, happly]

theorem BinStub.keys_markDeleted (b : BinStub) (c : Option KeyComparator) (k : Key)
    (delLsn : Lsn) (pending : Bool) :
    (b.markDeleted c k delLsn pending).1.fullSlots.map BinSlot.key =
      b.fullSlots.map BinSlot.key := by
  simp only [BinStub.markDeleted]
  split
  · rfl
  · have hmod : ∀ (p : Key) (l : List BinSlot) (i : ℕ),
        (l.modify i (BinSlot.markDeleted delLsn pending)).map
          (fun s => (s.withPrefix p).key) = l.map fun s => (s.withPrefix p).key := by
      intro p l
      induction l with
      | nil => simp
      | cons s l ih =>
        intro i
        cases i with
        | zero => rfl
        | succ i => simpa using ih i
    simpa [BinStub.fullSlots, Function.comp_def] using hmod b.keyPrefix b.slots _

theorem findEntry_ascending {n : ℕ} (hb : LeafWF none false none none b)
    (hkeys : b.fullSlots.map BinSlot.key = (List.range n).map numKey) (hi : i < n)
    (hn : n ≤ 65536) : b.findEntry none (numKey i) = (i, true) := by
  rcases hb.findEntry_cases (numKey i) with ⟨pre, s, post, -, hcut, hk, hfind, -⟩ | ⟨-, hmiss⟩
  · have hget : ((List.range n).map numKey)[pre.length]? = some (numKey i) := by
      rw [← hkeys, List.getElem?_map, hcut, getElem?_length_append, Option.map_some,
        LawfulEqCmp.eq_of_compare hk]
    obtain ⟨j, hj, hji⟩ := Option.map_eq_some_iff.mp (List.getElem?_map ▸ hget)
    obtain ⟨hlt, rfl⟩ := List.getElem?_eq_some_iff.mp hj
    rw [List.getElem_range] at hji
    rw [List.length_range] at hlt
    rw [hfind, numKey_inj (by omega) (by omega) hji]
  · -- the key is in the leaf
    have hmem : numKey i ∈ b.fullSlots.map BinSlot.key :=
      hkeys ▸ List.mem_map_of_mem (List.mem_range.mpr hi)
    obtain ⟨s, hs, hk⟩ := List.mem_map.mp hmem
    have hlook := lookup_of_mem hb.wf.sorted hs
      (show keyCmp none s.key (numKey i) = .eq by rw [hk, keyCmp_self])
    rw [hmiss] at hlook
    cases hlook

/-- A run that fills one leaf with 32769 keys and marks the first one deleted. -/
def pastMask : List TreeOp := ascending 32769 ++ [.markDeleted (numKey 0) 0 false]

/-- The last key of the run was inserted and never deleted. -/
theorem lastValue_pastMask : lastValue (keyCmp none) pastMask (numKey 32768) = some [0] := by
  have hne : numKey 0 ≠ numKey 32768 := fun h => by
    have := numKey_inj (by omega) (by omega) h
    omega
  have hpast : pastMask = ascending 32768 ++
      [.insert none (numKey 32768) [0] 0, .markDeleted (numKey 0) 0 false] := by
    rw [pastMask, ascending, List.range_succ, List.map_append]
    simp [ascending]
  simp [lastValue_of_lawful, hpast, List.filter_append, TreeOp.key, hne, TreeOp.value]

/-- The run leaves one leaf with its keys in order, whose first slot is not live. -/
theorem run_pastMask :
    ∃ t b, (Tree.new wideConfig).run pastMask = some t ∧ t.config = wideConfig ∧
      SingleLeaf t b ∧ LeafWF none false none none b ∧
        b.fullSlots.map BinSlot.key = (List.range 32769).map numKey ∧
          b.slotIsLive (fun _ _ => false) 0 = false := by
  obtain ⟨t, b, hrun, hc, hsingle, hb, hkeys⟩ := run_ascending (n := 32768) (by omega)
  obtain ⟨t', happly, hc', hsingle'⟩ := hsingle.markDeleted (numKey 0) 0 false
  rw [hc] at hsingle'
  obtain ⟨hb', hed, -⟩ := leafEdits_markDeleted (k := numKey 0) 0 false hb inRange_none
  have hkeys' := (b.keys_markDeleted none (numKey 0) 0 false).trans hkeys
  replace hsingle' : SingleLeaf t' (b.markDeleted none (numKey 0) 0 false).1 := hsingle'
  generalize (b.markDeleted none (numKey 0) 0 false).1 = b' at hsingle' hb' hed hkeys'
  refine ⟨t', b', ?_, hc'.trans hc, hsingle', hb', hkeys', ?_⟩
  · rw [pastMask, Tree.run_append, hrun]
    simp [Tree.run, happly]
  · -- slot 0 holds the marked key
    have hget : b'.fullSlots[0]?.map BinSlot.key = some (numKey 0) := by
      rw [← List.getElem?_map, hkeys', List.getElem?_map, List.getElem?_range (by omega)]
      rfl
    obtain ⟨s, hs, hskey⟩ := Option.map_eq_some_iff.mp hget
    have hdel : s.isDeleted = true := by
      have hlook := lookup_of_mem hb'.wf.sorted (List.mem_of_getElem? hs)
        (show keyCmp none s.key (numKey 0) = .eq by rw [hskey, keyCmp_self])
      have hnone := congrArg (Option.filter BinSlot.isLive) hed.here
      rw [markSlot_filter_live, hlook] at hnone
      simpa [Option.filter, BinSlot.isLive] using hnone
    obtain ⟨s₀, hs₀, rfl⟩ := Option.map_eq_some_iff.mp ((b'.getElem?_fullSlots 0) ▸ hs)
    have hdel₀ : s₀.isDeleted = true := hdel
    simp [BinStub.slotIsLive, hs₀, hdel₀]

/-- **`search` misses a key past the mask**: the last key of the run was inserted and never
deleted, but its index 32768 is masked to 0, the slot of a deleted key. -/
theorem search_misses_key_past_mask :
    ∃ t, (Tree.new wideConfig).run pastMask = some t ∧
      lastValue (keyCmp none) pastMask (numKey 32768) = some [0] ∧
      t.search (fun _ _ => false) (numKey 32768) = some ⟨false, 32768#32⟩ := by
  obtain ⟨t, b, hrun, hc, hsingle, hb, hkeys, hdead⟩ := run_pastMask
  refine ⟨t, hrun, lastValue_pastMask, ?_⟩
  have hkc : t.config.keyComparator = none := by rw [hc]; rfl
  have hfind := findEntry_ascending hb hkeys (show 32768 < 32769 by omega) (by omega)
  have hmask : (BitVec.ofNat 32 32768 &&& 0x7FFF#32).toNat = 0 := by decide
  have hfound := BinStub.search_hit (fun _ _ => false) hfind (by omega)
  rw [hmask, hdead] at hfound
  have hidx : (b.search (fun _ _ => false) none (numKey 32768)).index = 32768#32 :=
    (findEntryExact_hit hfind (by omega)).2
  rw [hsingle.search, hkc]
  refine congrArg some ?_
  generalize b.search (fun _ _ => false) none (numKey 32768) = r at hfound hidx
  obtain ⟨found, index⟩ := r
  obtain rfl : found = false := hfound
  obtain rfl : index = 32768#32 := hidx
  rfl

end Noxu
