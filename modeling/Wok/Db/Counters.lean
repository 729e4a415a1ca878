/-
**The counters of the writer.**

A transaction keeps a counter in memory once it has read it, and a commit puts it back into the
state table. The count of superseded versions is kept beside the replacement index: a version of an
address that has one already is one more.

* `Adds.superseded`, `superseded_removed` — the count of superseded versions as events come and go.
* `Counts` — a counter, cached or stored.
* `removeRecord_counts` — removing a record moves the counter as the count moves.
-/

import Wok.Db.Tombstone

namespace Wok.Db

open Wok.Library Wok.Event List

/-! ### Superseded versions -/

/-- The key belongs to a replaceable or addressable event. -/
def versionKey (key : Bytes) : Bool :=
  match parseKeyStringU64 key with
  | .ok (_, kind) => isVersioned kind
  | .error _ => false

/-- The keys of the replaceable and addressable events in the replacement index. -/
def versionKeys (t : Tables) : List Bytes :=
  ((t.rows Dbis.eventReplace).map Prod.fst).filter versionKey

/-- Versions beyond the first of each address. -/
def superseded (t : Tables) : Nat := repeats (versionKeys t)

/-- The event is replaceable or addressable and its address has a stored version. -/
def hasVersion (t : Tables) (p : PackedEvent) : Bool :=
  isVersioned p.kind && (replaceKey p).any fun key => (t.get Dbis.eventReplace key).isSome

section Superseded

variable {host : Host} {t t' : Tables} {lev : Nat} {p : PackedEvent} {json key : Bytes}

theorem versionKey_replaceKey (found : replaceKey p = some key) :
    versionKey key = isVersioned p.kind := by
  obtain ⟨d, _, rfl⟩ := Option.map_eq_some_iff.mp found
  rw [versionKey, parseKeyStringU64_make _ p.kind_lt]

theorem mem_versionKeys : key ∈ versionKeys t
    ↔ (t.get Dbis.eventReplace key).isSome = true ∧ versionKey key = true := by
  rw [versionKeys, mem_filter, mem_map, Tables.get_isSome]
  refine and_congr_left fun _ => ?_
  constructor
  · rintro ⟨e, member, rfl⟩
    exact ⟨e.2, member⟩
  · rintro ⟨value, member⟩
    exact ⟨(key, value), member, rfl⟩

/-- One more entry of the replacement index: a superseded version when its key is there. -/
theorem superseded_cons (value : Bytes) (found : replaceKey p = some key)
    (rows : (t'.rows Dbis.eventReplace).Perm ((key, value) :: t.rows Dbis.eventReplace)) :
    superseded t' = superseded t + (hasVersion t p).toNat := by
  have keys : (versionKeys t').Perm
      (((key :: (t.rows Dbis.eventReplace).map Prod.fst)).filter versionKey) :=
    (rows.map Prod.fst).filter versionKey
  rw [superseded, repeats_perm keys, hasVersion, found, Option.any_some,
    ← versionKey_replaceKey found]
  cases version : versionKey key with
  | false =>
    rw [filter_cons_of_neg (by simp [version])]
    rfl
  | true =>
    rw [filter_cons_of_pos version]
    show repeats (key :: versionKeys t) = _
    have member : key ∈ versionKeys t ↔ (t.get Dbis.eventReplace key).isSome = true := by
      rw [mem_versionKeys, version, and_iff_left rfl]
    rw [repeats_cons, superseded]
    simp only [member]
    cases (t.get Dbis.eventReplace key).isSome <;> rfl

theorem superseded_same (rows : (t'.rows Dbis.eventReplace).Perm (t.rows Dbis.eventReplace)) :
    superseded t' = superseded t :=
  repeats_perm ((rows.map Prod.fst).filter versionKey)

theorem hasVersion_of_none (absent : replaceKey p = none) : hasVersion t p = false := by
  rw [hasVersion, absent]
  exact Bool.and_false _

/-- **An event that comes**: its address has a superseded version more when it had a version. -/
theorem Adds.superseded (exact : Exact host t) (adds : Adds host t t' lev p json) :
    superseded t' = superseded t + (hasVersion t p).toNat := by
  have rows := adds.index Dbis.eventReplace (by decide)
  simp only [posts_replace, indexEvent, Option.mem_toList] at rows
  cases found : replaceKey p with
  | none =>
    rw [hasVersion_of_none found]
    refine superseded_same ((perm_ext_iff_of_nodup (t'.sorted _).nodup
      (t.sorted _).nodup).mpr fun e => ?_)
    rw [rows, found]
    simp
  | some key =>
    refine superseded_cons (u64NeBytes lev) found ((t.sorted _).perm_cons (t'.sorted _) ?_ fun e => ?_)
    · intro member
      obtain ⟨n, q, stored, _, value⟩ := (exact.index _ (by decide) _).mp member
      have same : lev = n := u64NeBytes_inj adds.small stored.1 value
      exact adds.not_stored q (same ▸ stored)
    · rw [rows, found, Option.some.injEq, Prod.ext_iff, or_comm, eq_comm]

/-- **An event that goes**: its address has a superseded version less when a version is left. -/
theorem superseded_removed
    (posted : ∀ key, replaceKey p = some key → (key, u64NeBytes lev) ∈ t.rows Dbis.eventReplace)
    (rows : ∀ e, e ∈ t'.rows Dbis.eventReplace ↔ e ∈ t.rows Dbis.eventReplace ∧
      ¬((indexEvent host p).Posts Dbis.eventReplace e.1 ∧ e.2 = u64NeBytes lev)) :
    superseded t = superseded t' + (hasVersion t' p).toNat := by
  simp only [posts_replace, indexEvent, Option.mem_toList] at rows
  cases found : replaceKey p with
  | none =>
    rw [hasVersion_of_none found]
    refine superseded_same ((perm_ext_iff_of_nodup (t.sorted _).nodup
      (t'.sorted _).nodup).mpr fun e => ?_)
    rw [rows, found]
    simp
  | some key =>
    refine superseded_cons (u64NeBytes lev) found
      ((t'.sorted _).perm_cons (t.sorted _) ?_ fun e => ?_)
    · intro member
      exact ((rows _).mp member).2 ⟨found, rfl⟩
    · rw [rows, found, Option.some.injEq]
      constructor
      · intro member
        by_cases same : key = e.1 ∧ e.2 = u64NeBytes lev
        · exact .inl (Prod.ext same.1.symm same.2)
        · exact .inr ⟨member, same⟩
      · rintro (rfl | ⟨member, _⟩)
        · exact posted key found
        · exact member

end Superseded

/-! ### Rows -/

section Rows

variable {host : Host} {t t' : Tables} {lev : Nat} {p : PackedEvent} {json : Bytes}

theorem Adds.perm (adds : Adds host t t' lev p json) :
    (t'.rows Dbis.event).Perm ((u64NeBytes lev, p.buf) :: t.rows Dbis.event) :=
  (t.sorted _).perm_cons (t'.sorted _) (fun member => adds.fresh _ member rfl) adds.event

theorem Removes.perm (removes : Removes host t t' lev p) :
    (t.rows Dbis.event).Perm ((u64NeBytes lev, p.buf) :: t'.rows Dbis.event) := by
  have entry := removes.stored.2
  refine (t'.sorted _).perm_cons (t.sorted _) ?_ fun e => ?_
  · exact fun member => ((removes.event _).mp member).2 rfl
  · rw [removes.event]
    constructor
    · intro member
      by_cases same : e.1 = u64NeBytes lev
      · exact .inl (Tables.plain_unique (by decide) member entry same)
      · exact .inr ⟨member, same⟩
    · rintro (rfl | ⟨member, _⟩)
      · exact entry
      · exact member

theorem Adds.length (adds : Adds host t t' lev p json) :
    (t'.rows Dbis.event).length = (t.rows Dbis.event).length + 1 := adds.perm.length_eq

theorem versionKeys_le (exact : Exact host t) :
    (versionKeys t).length ≤ (t.rows Dbis.event).length := by
  have entry : ∀ {e}, e ∈ t.rows Dbis.eventReplace →
      ∃ lev p, Holds t lev p ∧ replaceKey p = some e.1 ∧ e.2 = u64NeBytes lev := by
    intro e member
    obtain ⟨lev, p, stored, posts, value⟩ := (exact.index _ (by decide) _).mp member
    rw [posts_replace] at posts
    exact ⟨lev, p, stored, by simpa [indexEvent] using posts, value⟩
  have apart : ((t.rows Dbis.eventReplace).map Prod.snd).Nodup := by
    refine List.Nodup.map_on ?_ (t.sorted _).nodup
    intro x left y right same
    obtain ⟨lev, p, stored, key, value⟩ := entry left
    obtain ⟨lev', p', stored', key', value'⟩ := entry right
    obtain rfl := u64NeBytes_inj stored.1 stored'.1 (value.symm.trans (same.trans value'))
    obtain rfl := stored.unique stored'
    exact Prod.ext (Option.some.inj (key.symm.trans key')) same
  have inside : (t.rows Dbis.eventReplace).map Prod.snd ⊆ (t.rows Dbis.event).map Prod.fst := by
    intro value member
    obtain ⟨e, inRows, rfl⟩ := mem_map.mp member
    obtain ⟨lev, p, stored, _, value⟩ := entry inRows
    exact value ▸ mem_map.mpr ⟨_, stored.2, rfl⟩
  calc (versionKeys t).length
      ≤ ((t.rows Dbis.eventReplace).map Prod.fst).length := length_filter_le _ _
    _ = ((t.rows Dbis.eventReplace).map Prod.snd).length := by simp
    _ ≤ ((t.rows Dbis.event).map Prod.fst).length := (subperm_of_subset apart inside).length_le
    _ = (t.rows Dbis.event).length := length_map _

theorem keyPrefix_event {m n : Nat} (small : m < 2 ^ 64) (small' : n < 2 ^ 64) :
    keyPrefix Dbis.event (u64NeBytes m) ≤ keyPrefix Dbis.event (u64NeBytes n) ↔ m ≤ n := by
  have order := cmp_keyPrefix Dbis.event (u64NeBytes m) (u64NeBytes n) [] []
  have keys : cmpKey Dbis.event (u64NeBytes m) (u64NeBytes n) = cmp m n := by
    have plain : (spec Dbis.event).comparator = .default := rfl
    have ints : (spec Dbis.event).flags.integerKey = true := rfl
    simp only [cmpKey, plain, ints, if_true]
    rw [cmpInteger_of_length (by simp [u64NeBytes]) (by simp [u64NeBytes]),
      u64FromNe_u64NeBytes small, u64FromNe_u64NeBytes small']
  rw [append_nil, append_nil, keys, cmp_self_eq_eq, Ordering.then_eq] at order
  rw [← cmp_ne_gt_iff, order, cmp_ne_gt_iff]

end Rows

/-! ### Counters -/

/-- A counter of a transaction: cached, or stored. -/
def Counts (cached : Option Nat) (stored : Option Bytes) (n : Nat) : Prop :=
  cached = some n ∨ cached = none ∧ stored = some (u64NeBytes n)

section Steps

variable {host : Host} {env : Services} {txn txn' : RwTxn} {last : Nat} {p : PackedEvent}
  {json : Bytes}
variable {count : Nat}

theorem decodeCounter_bytes {n : Nat} (small : n < 2 ^ 64) :
    decodeCounter (u64NeBytes n) = .ok n := by
  rw [decodeCounter, ensure_of (by simp [u64NeBytes]), ok_bind, u64NeBytes, leVal_leBytes small]
  rfl

/-- A local id above all others can be appended. -/
theorem appendEvent_above {lev : Nat} (small : lev < 2 ^ 64)
    (below : ∀ e ∈ txn.tables.rows Dbis.event, ∃ n < lev, e.1 = u64NeBytes n) (packed : Bytes) :
    appendEvent txn lev packed
      = .ok { txn with tables := txn.tables.put Dbis.event (u64NeBytes lev) packed } := by
  have absent : ¬(txn.tables.get Dbis.event (u64NeBytes lev)).isSome = true := by
    rw [Tables.get_isSome]
    rintro ⟨value, member⟩
    obtain ⟨n, low, same⟩ := below _ member
    have equal := u64NeBytes_inj small (by omega) same
    omega
  have above : ¬((txn.tables.rows Dbis.event).getLast?.any fun e =>
      keyPrefix Dbis.event (u64NeBytes lev) ≤ keyPrefix Dbis.event e.1) = true := by
    rw [Option.any_eq_true]
    rintro ⟨e, final, order⟩
    obtain ⟨n, low, same⟩ := below e (mem_of_getLast? final)
    rw [same, decide_eq_true_eq, keyPrefix_event small (by omega)] at order
    omega
  rw [appendEvent, Tables.putAppend, if_neg absent, if_neg above, okOr_some, ok_bind]
  rfl

theorem loadVersions_eq (small : count < 2 ^ 64)
    (counts : Counts txn.supersededEvents (txn.get Dbis.state supersededKey) count) (kind : Nat) :
    loadVersions txn kind = .ok { txn with
      supersededEvents := if isVersioned kind then some count else txn.supersededEvents } := by
  unfold loadVersions
  split_ifs with versioned
  · unfold loadSuperseded
    rcases counts with cached | ⟨cached, stored⟩
    · rw [cached]
      simp only [← cached]
    · simp only [cached, storedCounter, stored, decodeCounter_bytes small, ok_bind]
      rfl
  · rfl

/-- The count moves when the key is in the replacement index. -/
theorem changeReplacementCount_eq {key : Bytes} {count' : Nat} {insert : Bool}
    (cached : txn.supersededEvents = some count)
    (counted : if insert then
        count' = count + (txn.get Dbis.eventReplace key).isSome.toNat ∧ count + 1 < 2 ^ 64
      else count = count' + (txn.get Dbis.eventReplace key).isSome.toNat) :
    changeReplacementCount txn key insert
      = .ok { txn with supersededEvents := some count' } := by
  unfold changeReplacementCount
  by_cases present : (txn.get Dbis.eventReplace key).isSome = true
  · rw [present, Bool.toNat_true] at counted
    rw [if_pos present, cached, okOr_some, ok_bind]
    cases insert with
    | true =>
      rw [if_pos rfl] at counted
      rw [counted.1]
      simp only [if_true, ensure_of counted.2, ok_bind]
      rfl
    | false =>
      rw [if_neg (by decide)] at counted
      have positive : 1 ≤ count := by omega
      have less : count - 1 = count' := by omega
      simp only [Bool.false_eq_true, if_false, ensure_of positive, ok_bind, less]
      rfl
  · rw [Bool.eq_false_iff.mpr present, Bool.toNat_false] at counted
    have equal : count' = count := by cases insert <;> simp at counted <;> omega
    rw [if_neg present, equal, ← cached]

/-- The count of superseded versions, before an event is added or after one is removed. -/
theorem countVersions_eq {count' : Nat} {insert : Bool}
    (loaded : isVersioned p.kind = true → txn.supersededEvents = some count)
    (counted : if insert then count' = count + (hasVersion txn.tables p).toNat ∧ count + 1 < 2 ^ 64
      else count = count' + (hasVersion txn.tables p).toNat) :
    countVersions txn p.kind (indexEvent host p).replace insert = .ok { txn with
      supersededEvents := if isVersioned p.kind then some count' else txn.supersededEvents } := by
  unfold countVersions
  by_cases versioned : isVersioned p.kind = true
  · have cached := loaded versioned
    rw [if_pos versioned, if_pos versioned]
    rw [hasVersion, versioned, Bool.true_and] at counted
    cases found : replaceKey p with
    | none =>
      have equal : count' = count := by
        cases insert <;> simp [found] at counted <;> omega
      simp only [indexEvent, found, Option.toList_none, foldlM_nil, equal, ← cached]
      rfl
    | some key =>
      rw [found, Option.any_some] at counted
      simp only [indexEvent, found, Option.toList_some, foldlM_cons, foldlM_nil,
        changeReplacementCount_eq cached counted, ok_bind]
      rfl
  · rw [if_neg versioned, if_neg versioned]

theorem hasVersion_congr {t t' : Tables}
    (same : t'.rows Dbis.eventReplace = t.rows Dbis.eventReplace) (p : PackedEvent) :
    hasVersion t' p = hasVersion t p := by
  simp only [hasVersion, Tables.get_congr same]

theorem hasVersion_of_plain {t : Tables} (plain : ¬isVersioned p.kind = true) :
    hasVersion t p = false := by
  rw [hasVersion, Bool.eq_false_iff.mpr plain, Bool.false_and]

/-- The record and the index entries go, and a count that was loaded stays exact. -/
theorem removeRecord_counts (host : Host) {lev : Nat} (held : Holds txn.tables lev p)
    (posted : ∀ key, replaceKey p = some key →
      (key, u64NeBytes lev) ∈ txn.tables.rows Dbis.eventReplace)
    (load : loadVersions txn p.kind = .ok { txn with
      supersededEvents := if isVersioned p.kind then some (superseded txn.tables)
        else txn.supersededEvents }) :
    ∃ t, removeRecord host txn lev = .ok { txn with
        tables := t
        supersededEvents := if isVersioned p.kind then some (superseded t)
          else txn.supersededEvents } ∧
      superseded txn.tables = superseded t + (hasVersion t p).toNat ∧
      ∀ d, d ∉ Dbis.event :: Dbis.eventTagKind :: Dbis.indices →
        t.rows d = txn.tables.rows d := by
  let loaded : RwTxn := { txn with
    supersededEvents := if isVersioned p.kind then some (superseded txn.tables)
      else txn.supersededEvents }
  have load : loadVersions txn p.kind = .ok loaded := load
  obtain ⟨t, only⟩ := (delIndices_alters loaded lev (indexEvent host p)).only
  have touches : Touches (Dbis.eventTagKind :: Dbis.indices) loaded { loaded with tables := t } :=
    only ▸ delIndices_touches
  have moved : superseded txn.tables = superseded t + (hasVersion t p).toNat := by
    have rows : ∀ e, e ∈ (delIndices loaded lev (indexEvent host p)).tables.rows Dbis.eventReplace
        ↔ _ := fun e => mem_delIndices (by decide)
    rw [only] at rows
    exact superseded_removed posted rows
  have change : countVersions { loaded with tables := t } p.kind (indexEvent host p).replace false
      = .ok { loaded with
          tables := t
          supersededEvents := if isVersioned p.kind then some (superseded t)
            else loaded.supersededEvents } :=
    countVersions_eq (fun versioned => if_pos versioned) moved
  have final : (t.delKey Dbis.event (u64NeBytes lev)).rows Dbis.eventReplace
      = t.rows Dbis.eventReplace := Tables.rows_delKey_of_ne (by decide)
  have same : superseded (t.delKey Dbis.event (u64NeBytes lev)) = superseded t :=
    superseded_same (by rw [final])
  refine ⟨t.delKey Dbis.event (u64NeBytes lev), ?_, ?_, fun d outside => ?_⟩
  · have count : (if isVersioned p.kind then some (superseded t) else loaded.supersededEvents)
        = if isVersioned p.kind then some (superseded t) else txn.supersededEvents := by
      split_ifs with versioned
      · rfl
      · exact if_neg versioned
    rw [removeRecord, held.get]
    simp only [viewPacked_buf, ok_bind, load, only, change, same, count]
    rfl
  · rw [same, hasVersion_congr final]
    exact moved
  · have notEvent : d ≠ Dbis.event := fun same => outside (same ▸ mem_cons_self ..)
    exact (Tables.rows_delKey_of_ne notEvent).trans
      (touches d fun inside => outside (.tail _ inside))

end Steps

/-! ### Committing -/

section Writing

variable {σ : Type} {env : Services} {sink : NegentropySink σ} {last : Nat}

/-- The stored counter after a flush of a cached one. -/
def flushed (cached : Option Nat) (stored : Option Bytes) : Option Bytes :=
  (cached.map u64NeBytes).or stored

theorem flushSequence_get (txn : RwTxn) (key : Bytes) :
    (flushSequence txn).get Dbis.state key
      = if key = highWater then flushed txn.eventSequence (txn.get Dbis.state key)
        else txn.get Dbis.state key := by
  unfold flushSequence flushed
  cases txn.eventSequence with
  | none => simp
  | some n =>
    split_ifs with same
    · exact same ▸ Tables.get_put_self (by decide)
    · exact Tables.get_put_of_ne (by decide) same

theorem flushSuperseded_get (txn : RwTxn) (key : Bytes) :
    (flushSuperseded txn).get Dbis.state key
      = if key = supersededKey then flushed txn.supersededEvents (txn.get Dbis.state key)
        else txn.get Dbis.state key := by
  unfold flushSuperseded flushed
  cases txn.supersededEvents with
  | none => simp
  | some n =>
    split_ifs with same
    · exact same ▸ Tables.get_put_self (by decide)
    · exact Tables.get_put_of_ne (by decide) same

theorem flushed_of_counts {cached : Option Nat} {stored : Option Bytes} {n : Nat}
    (counts : Counts cached stored n) : flushed cached stored = some (u64NeBytes n) := by
  rcases counts with rfl | ⟨rfl, rfl⟩
  · rfl
  · rfl

/-- A fresh database counts no author's events. -/
theorem fresh_uncounted (pubkey : Bytes) :
    (RwTxn.begin .fresh).get Dbis.state (authorKey pubkey) = none := by
  refine Tables.get_eq_none.mpr fun value member => ?_
  have row : Tables.fresh.rows Dbis.state = [(supersededKey, u64NeBytes 0)] := by decide
  rw [show (RwTxn.begin .fresh).tables.rows Dbis.state = _ from row, mem_singleton] at member
  exact absurd (List.cons.inj (congrArg Prod.fst member)).1 (by decide)

end Writing

end Wok.Db
