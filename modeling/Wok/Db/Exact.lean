/-
**What the writer changes, and the index tables.**

Storing an event adds its record, its payload and its index entries; removing one takes exactly
these away; every other step leaves the primary tables alone. The index tables therefore hold
exactly the entries of the stored events.

* `Adds`, `Removes`, `SamePrimary` — the three effects on the events, payloads and index tables.
* `insertEvent_adds`, `removeEvent_effect`, `writeOne_round` — each step of the writer is made of
  them.
* `Exact` — **every index table holds the entries of the stored events, and no others.**
-/

import Wok.Db.Write

namespace Wok.Db

open Wok.Library Wok.Event

/-! ### Effects -/

/-- The event is stored under a local id. -/
def Holds (t : Tables) (lev : Nat) (p : PackedEvent) : Prop :=
  lev < 2 ^ 64 ∧ (u64NeBytes lev, p.buf) ∈ t.rows Dbis.event

/-- The events, payloads and index tables are the same. -/
def SamePrimary (t t' : Tables) : Prop := ∀ d ∈ Dbis.primary, t'.rows d = t.rows d

/-- The event is added under a new local id. -/
structure Adds (host : Host) (t t' : Tables) (lev : Nat) (p : PackedEvent) (json : Bytes) :
    Prop where
  small : lev < 2 ^ 64
  fresh : ∀ e ∈ t.rows Dbis.event, e.1 ≠ u64NeBytes lev
  event : ∀ e, e ∈ t'.rows Dbis.event ↔ e = (u64NeBytes lev, p.buf) ∨ e ∈ t.rows Dbis.event
  payload : ∀ e, e ∈ t'.rows Dbis.eventPayload
    ↔ e = (u64NeBytes lev, encodeRawPayload json)
      ∨ e ∈ t.rows Dbis.eventPayload ∧ e.1 ≠ u64NeBytes lev
  index : ∀ d ∈ Dbis.indices, ∀ e, e ∈ t'.rows d
    ↔ e ∈ t.rows d ∨ (indexEvent host p).Posts d e.1 ∧ e.2 = u64NeBytes lev

/-- The event stored under a local id is removed. -/
structure Removes (host : Host) (t t' : Tables) (lev : Nat) (p : PackedEvent) : Prop where
  stored : Holds t lev p
  event : ∀ e, e ∈ t'.rows Dbis.event ↔ e ∈ t.rows Dbis.event ∧ e.1 ≠ u64NeBytes lev
  payload : ∀ e, e ∈ t'.rows Dbis.eventPayload
    ↔ e ∈ t.rows Dbis.eventPayload ∧ e.1 ≠ u64NeBytes lev
  index : ∀ d ∈ Dbis.indices, ∀ e, e ∈ t'.rows d
    ↔ e ∈ t.rows d ∧ ¬((indexEvent host p).Posts d e.1 ∧ e.2 = u64NeBytes lev)

theorem u64NeBytes_inj {a b : Nat} (small : a < 2 ^ 64) (small' : b < 2 ^ 64)
    (same : u64NeBytes a = u64NeBytes b) : a = b := by
  have values := congrArg leVal same
  rwa [u64NeBytes, u64NeBytes, leVal_leBytes small, leVal_leBytes small'] at values

theorem PackedEvent.ext_buf {p q : PackedEvent} (same : p.buf = q.buf) : p = q := by
  cases p
  cases q
  simpa using same

section Effects

variable {host : Host} {t t' : Tables} {lev : Nat} {p : PackedEvent} {json : Bytes}
variable {txn : RwTxn} {q : PackedEvent}

theorem SamePrimary.refl (t : Tables) : SamePrimary t t := fun _ _ => rfl

theorem SamePrimary.event (same : SamePrimary t t') :
    t'.rows Dbis.event = t.rows Dbis.event := same _ (by decide)

theorem SamePrimary.payload (same : SamePrimary t t') :
    t'.rows Dbis.eventPayload = t.rows Dbis.eventPayload := same _ (by decide)

theorem SamePrimary.index (same : SamePrimary t t') {d : Nat} (inside : d ∈ Dbis.indices) :
    t'.rows d = t.rows d :=
  same d (.tail _ (.tail _ inside))

theorem Touches.samePrimary {allowed : List Nat} {txn' : RwTxn} (touches : Touches allowed txn txn')
    (apart : ∀ d ∈ Dbis.primary, d ∉ allowed) :
    SamePrimary txn.tables txn'.tables := fun d inside => touches d (apart d inside)

theorem samePrimary_of_tables {txn' : RwTxn} (same : txn'.tables = txn.tables) :
    SamePrimary txn.tables txn'.tables := same ▸ SamePrimary.refl _

theorem Holds.get (stored : Holds txn.tables lev p) :
    txn.getU64 Dbis.event lev = some p.buf :=
  (Tables.get_plain (by decide)).mpr stored.2

theorem holds_of_get (small : lev < 2 ^ 64) (found : txn.getU64 Dbis.event lev = some p.buf) :
    Holds txn.tables lev p :=
  ⟨small, Tables.mem_of_get found⟩

theorem Holds.unique (stored : Holds t lev p) (stored' : Holds t lev q) :
    p = q :=
  PackedEvent.ext_buf
    (congrArg Prod.snd (Tables.plain_unique (by decide) stored.2 stored'.2 rfl))

theorem SamePrimary.stored (same : SamePrimary t t') : Holds t' lev p ↔ Holds t lev p := by
  rw [Holds, Holds, same.event]

theorem Adds.stored (adds : Adds host t t' lev p json) {n : Nat} :
    Holds t' n q ↔ n = lev ∧ q = p ∨ Holds t n q := by
  unfold Holds
  rw [adds.event]
  constructor
  · rintro ⟨small, same | inside⟩
    · refine .inl ⟨u64NeBytes_inj small adds.small (congrArg Prod.fst same), ?_⟩
      exact PackedEvent.ext_buf (congrArg Prod.snd same)
    · exact .inr ⟨small, inside⟩
  · rintro (⟨rfl, rfl⟩ | ⟨small, inside⟩)
    · exact ⟨adds.small, .inl rfl⟩
    · exact ⟨small, .inr inside⟩

theorem Adds.not_stored (adds : Adds host t t' lev p json) (q : PackedEvent) :
    ¬Holds t lev q := fun stored => adds.fresh _ stored.2 rfl

theorem Removes.stored_iff (removes : Removes host t t' lev p) {n : Nat} :
    Holds t' n q ↔ Holds t n q ∧ n ≠ lev := by
  unfold Holds
  rw [removes.event, and_assoc]
  refine and_congr_right fun small => and_congr_right fun _ => not_congr ?_
  exact ⟨u64NeBytes_inj small removes.stored.1, fun same => congrArg u64NeBytes same⟩

end Effects

/-! ### The steps of the writer -/

section Steps

variable {host : Host} {env : Services} {txn txn' : RwTxn} {lev : Nat} {p : PackedEvent}
  {json : Bytes} {kind : Option Nat}

theorem viewPacked_eq {buf : Bytes} (viewed : viewPacked buf = .ok p) : p.buf = buf := by
  rw [viewPacked, mapError_eq_ok] at viewed
  exact PackedEvent.new_ok viewed

@[simp] theorem viewPacked_buf (p : PackedEvent) : viewPacked p.buf = .ok p := by
  rw [viewPacked, PackedEvent.new_buf]
  rfl

theorem loadVersions_caches {kind : Nat} (run : loadVersions txn kind = .ok txn') :
    CachesVersions txn txn' := by
  unfold loadVersions at run
  split_ifs at run
  · exact loadSuperseded_caches run
  · cases run
    exact ⟨_, rfl⟩

theorem countVersions_caches {kind : Nat} {keys : List Bytes} {insert : Bool}
    (run : countVersions txn kind keys insert = .ok txn') : CachesVersions txn txn' := by
  unfold countVersions at run
  split_ifs at run
  · refine foldlM_preserves (CachesVersions txn) ?_ ⟨_, rfl⟩ run
    exact fun _ _ _ _ same step => same.trans (changeReplacementCount_caches step)
  · cases run
    exact ⟨_, rfl⟩

theorem appendEvent_eq {packed : Bytes} (run : appendEvent txn lev packed = .ok txn') :
    txn' = txn.put Dbis.event (u64NeBytes lev) packed ∧
      ∀ e ∈ txn.tables.rows Dbis.event, e.1 ≠ u64NeBytes lev := by
  simp only [appendEvent, bind_eq_ok, okOr_eq_ok, pure_eq_ok, Tables.putAppend] at run
  obtain ⟨tables, put, rfl⟩ := run
  split_ifs at put with present
  cases put
  refine ⟨rfl, ?_⟩
  rintro ⟨k, value⟩ member rfl
  exact present (Tables.get_isSome.mpr ⟨value, member⟩)

/-- The transaction with the record and the payload, before its index entries. -/
def RwTxn.recorded (txn : RwTxn) (lev : Nat) (packed json : Bytes) (count : Option Nat) : RwTxn :=
  { txn with
    tables := (txn.tables.put Dbis.event (u64NeBytes lev) packed).put Dbis.eventPayload
      (u64NeBytes lev) (encodeRawPayload json)
    eventSequence := some lev
    supersededEvents := count }

theorem recorded_touches {packed : Bytes} {count : Option Nat} :
    Touches [Dbis.event, Dbis.eventPayload] txn (txn.recorded lev packed json count) :=
  fun d outside => by
    simp only [List.mem_cons, List.not_mem_nil, or_false, not_or] at outside
    exact (Tables.rows_put_of_ne outside.2).trans (Tables.rows_put_of_ne outside.1)

/-- **What storing an event does.** -/
theorem insertEvent_eq (run : insertEvent host txn p json = .ok (lev, txn')) :
    ∃ counted count, changeAuthorCount txn p.pubkey true = .ok counted ∧
      allocateEventId counted = .ok (lev, { counted with eventSequence := some lev }) ∧
      lev < 2 ^ 64 ∧ (∀ e ∈ counted.tables.rows Dbis.event, e.1 ≠ u64NeBytes lev) ∧
      txn' = putIndices (counted.recorded lev p.buf json count) lev (indexEvent host p) := by
  simp only [insertEvent, bind_eq_ok, pure_eq_ok, Prod.mk.injEq, Prod.exists] at run
  obtain ⟨counted, author, n, given, allocated, appended, append, loaded, load, versions, change,
    rfl, rfl⟩ := run
  obtain ⟨small, rfl⟩ := allocateEventId_eq allocated
  obtain ⟨rfl, absent⟩ := appendEvent_eq append
  obtain ⟨count, rfl⟩ := (loadVersions_caches load).trans (countVersions_caches change)
  exact ⟨counted, count, author, allocated, small, absent, rfl⟩

/-- **Storing an event adds it.** -/
theorem insertEvent_adds (run : insertEvent host txn p json = .ok (lev, txn')) :
    Adds host txn.tables txn'.tables lev p json := by
  obtain ⟨counted, count, author, -, small, absent, rfl⟩ := insertEvent_eq run
  have before := (changeAuthorCount_touches author).samePrimary (by decide)
  refine ⟨small, before.event ▸ absent, fun e => ?_, fun e => ?_, fun d inside e => ?_⟩
  · rw [putIndices_touches _ (by decide), RwTxn.recorded, Tables.rows_put_of_ne (by decide),
      Tables.mem_put_plain (by decide), before.event]
    exact or_congr_right (and_iff_left_of_imp fun member => absent e (before.event ▸ member))
  · rw [putIndices_touches _ (by decide), RwTxn.recorded, Tables.mem_put_plain (by decide),
      Tables.rows_put_of_ne (by decide), before.payload]
  · have apart : ∀ d ∈ Dbis.indices, d ∉ [Dbis.event, Dbis.eventPayload] := by decide
    rw [mem_putIndices (ne_tagKind_of_index inside), recorded_touches d (apart d inside),
      before.index inside]

/-- The marker is set and both counters move, or nothing is done. -/
theorem markVanished_eq {pubkey : Bytes} {timestamp : Nat}
    (run : markVanished txn pubkey timestamp = .ok txn') :
    txn' = txn ∨ ∃ generation changes, txn' = putCounter (putCounter
      (txn.put Dbis.vanishPubkey pubkey (u64NeBytes timestamp)) policyGeneration generation)
        vanishMarkerChangesKey changes := by
  unfold markVanished at run
  split_ifs at run
  · simp only [invalidateVisibility, countVanishMarkerChange, bind_eq_ok, pure_eq_ok] at run
    obtain ⟨_, ⟨_, _, _, _, rfl⟩, _, _, rfl⟩ := run
    exact .inr ⟨_, _, rfl⟩
  · cases run
    exact .inl rfl

theorem markVanished_touches {pubkey : Bytes} {timestamp : Nat}
    (run : markVanished txn pubkey timestamp = .ok txn') :
    Touches [Dbis.vanishPubkey, Dbis.state] txn txn' := by
  rcases markVanished_eq run with rfl | ⟨_, _, rfl⟩
  · exact .refl _ _
  · exact (touches_put (by simp) _ _).trans
      ((touches_put (by simp) _ _).trans (touches_put (by simp) _ _))

/-- The author count moves and the visibility changes, when there is an event. -/
theorem forgetAuthor_eq (run : forgetAuthor txn lev = .ok (kind, txn')) :
    txn' = txn ∨ ∃ pubkey counted generation,
      changeAuthorCount txn pubkey false = .ok counted ∧
        txn' = putCounter counted policyGeneration generation := by
  unfold forgetAuthor at run
  split at run
  · cases run
    exact .inl rfl
  · simp only [invalidateVisibility, bind_eq_ok, pure_eq_ok, Prod.mk.injEq] at run
    obtain ⟨p, _, counted, author, _, ⟨_, _, _, _, rfl⟩, _, rfl⟩ := run
    exact .inr ⟨p.pubkey, counted, _, author, rfl⟩

theorem forgetAuthor_held (run : forgetAuthor txn lev = .ok (kind, txn'))
    (stored : Holds txn.tables lev p) :
    kind = some p.kind ∧ ∃ counted generation, changeAuthorCount txn p.pubkey false = .ok counted ∧
      txn' = putCounter counted policyGeneration generation := by
  simp only [forgetAuthor, stored.get, viewPacked_buf, ok_bind, invalidateVisibility, bind_eq_ok,
    pure_eq_ok, Prod.mk.injEq] at run
  obtain ⟨counted, author, _, ⟨_, _, _, _, rfl⟩, rfl, rfl⟩ := run
  exact ⟨rfl, counted, _, author, rfl⟩

theorem forgetAuthor_touches (run : forgetAuthor txn lev = .ok (kind, txn')) :
    Touches [Dbis.state] txn txn' := by
  rcases forgetAuthor_eq run with rfl | ⟨_, _, _, author, rfl⟩
  · exact .refl _ _
  · exact (changeAuthorCount_touches author).trans (touches_put (by simp) _ _)

theorem unindexSearch_alters {json : Option Bytes}
    (run : unindexSearch env txn lev kind json = .ok txn') :
    Alters [Dbis.eventSearch] txn txn' := by
  unfold unindexSearch at run
  split at run
  · cases run
    exact ⟨⟨_, rfl⟩, .refl _ _⟩
  · split at run
    · cases run
      exact ⟨⟨_, rfl⟩, .refl _ _⟩
    · simp only [removeEventSearch, bind_eq_ok, pure_eq_ok] at run
      obtain ⟨entries, _, rfl⟩ := run
      exact foldl_alters (fun e _ => alters_delPair (by simp) e.1 e.2) txn

/-- The transaction without the record of a local id and its index entries. -/
def RwTxn.unrecorded (txn : RwTxn) (lev : Nat) (idx : EventIndices) (count : Option Nat) : RwTxn :=
  { (delIndices txn lev idx).delKey Dbis.event (u64NeBytes lev) with supersededEvents := count }

section Unrecorded

variable {d : Nat} {idx : EventIndices} {count : Option Nat} {e : Kv}

theorem unrecorded_rows (outside : d ∉ Dbis.event :: Dbis.eventTagKind :: Dbis.indices) :
    (txn.unrecorded lev idx count).tables.rows d = txn.tables.rows d :=
  (Tables.rows_delKey_of_ne (List.ne_of_not_mem_cons outside)).trans
    (delIndices_touches d (List.not_mem_of_not_mem_cons outside))

theorem mem_unrecorded_event : e ∈ (txn.unrecorded lev idx count).tables.rows Dbis.event ↔
    e ∈ txn.tables.rows Dbis.event ∧ e.1 ≠ u64NeBytes lev := by
  refine Tables.mem_delKey.trans ?_
  rw [delIndices_touches _ (by decide)]

theorem mem_unrecorded_index (inside : d ∈ Dbis.indices) :
    e ∈ (txn.unrecorded lev idx count).tables.rows d ↔
      e ∈ txn.tables.rows d ∧ ¬(idx.Posts d e.1 ∧ e.2 = u64NeBytes lev) := by
  have apart : ∀ d ∈ Dbis.indices, d ≠ Dbis.event := by decide
  rw [← mem_delIndices (ne_tagKind_of_index inside)]
  exact Iff.of_eq (congrArg (e ∈ ·) (Tables.rows_delKey_of_ne (apart d inside)))

end Unrecorded

/-- The record and its index entries go, when there is one. -/
theorem removeRecord_form (run : removeRecord host txn lev = .ok txn') :
    txn.getU64 Dbis.event lev = none ∧ txn' = txn ∨
      ∃ q loaded count, txn.getU64 Dbis.event lev = some q.buf ∧
        txn' = { txn with supersededEvents := loaded }.unrecorded lev (indexEvent host q) count := by
  unfold removeRecord at run
  split at run
  · rename_i absent
    cases run
    exact .inl ⟨absent, rfl⟩
  · rename_i raw found
    simp only [bind_eq_ok, pure_eq_ok] at run
    obtain ⟨q, viewed, loaded, load, counted, change, rfl⟩ := run
    obtain ⟨loaded, rfl⟩ := loadVersions_caches load
    obtain ⟨count, rfl⟩ := countVersions_caches change
    exact .inr ⟨q, loaded, count, found.trans (congrArg some (viewPacked_eq viewed).symm), rfl⟩

/-- What is left of the record and the index entries. -/
theorem removeRecord_eq (stored : Holds txn.tables lev p)
    (run : removeRecord host txn lev = .ok txn') :
    ∃ loaded count, txn' =
      { txn with supersededEvents := loaded }.unrecorded lev (indexEvent host p) count := by
  rcases removeRecord_form run with ⟨absent, _⟩ | ⟨q, loaded, count, found, rfl⟩
  · exact absurd (absent.symm.trans stored.get) (by simp)
  · have same : viewPacked q.buf = viewPacked p.buf :=
      congrArg viewPacked (Option.some.inj (found.symm.trans stored.get))
    rw [viewPacked_buf, viewPacked_buf] at same
    exact ⟨loaded, count, by rw [Except.ok.inj same]⟩

/-- The calls of a removal, one after another. -/
theorem deleteEventBasic_eq {deleted : Bool}
    (run : deleteEventBasic env txn lev = .ok (deleted, txn')) :
    ∃ sequence kind forgot json unindexed,
      preserveHighWater txn = .ok { txn with eventSequence := sequence } ∧
      forgetAuthor { txn with eventSequence := sequence } lev = .ok (kind, forgot) ∧
      indexedJson env forgot lev = .ok json ∧
      unindexSearch env (forgot.delKey Dbis.eventPayload (u64NeBytes lev)) lev kind json
        = .ok unindexed ∧
      removeRecord env.host unindexed lev = .ok txn' := by
  simp only [deleteEventBasic, bind_eq_ok, pure_eq_ok, Prod.mk.injEq, Prod.exists] at run
  obtain ⟨_, preserve, kind, forgot, author, json, covered, unindexed, search, _, record, _, rfl⟩ :=
    run
  obtain ⟨sequence, rfl⟩ := preserveHighWater_eq preserve
  exact ⟨sequence, kind, forgot, json, unindexed, preserve, author, covered, search, record⟩

/-- **Deleting a stored event removes it.** -/
theorem deleteEventBasic_removes {deleted : Bool} (stored : Holds txn.tables lev p)
    (run : deleteEventBasic env txn lev = .ok (deleted, txn')) :
    Removes env.host txn.tables txn'.tables lev p := by
  obtain ⟨_, kind, forgot, json, unindexed, _, author, _, search, record⟩ := deleteEventBasic_eq run
  have before := (forgetAuthor_touches author).samePrimary (by decide)
  have after := (unindexSearch_alters search).touches.samePrimary (by decide)
  have apart : ∀ d ∈ Dbis.indices, d ≠ Dbis.event ∧ d ≠ Dbis.eventPayload := by decide
  have events : unindexed.tables.rows Dbis.event = txn.tables.rows Dbis.event := by
    rw [after.event]
    exact (Tables.rows_delKey_of_ne (by decide)).trans before.event
  obtain ⟨loaded, count, rfl⟩ := removeRecord_eq ⟨stored.1, events ▸ stored.2⟩ record
  refine ⟨stored, fun e => ?_, fun e => ?_, fun d inside e => ?_⟩
  · rw [mem_unrecorded_event, events]
  · rw [unrecorded_rows (by decide), after.payload, ← before.payload]
    exact Tables.mem_delKey
  · rw [mem_unrecorded_index inside, after.index inside, ← before.index inside]
    exact and_congr_left' (Iff.of_eq (congrArg (e ∈ ·)
      (Tables.rows_delKey_of_ne (apart d inside).2)))

end Steps

/-! ### The invariant -/

/-- **The index tables are exact**: every record is a packed event under a local id, and every
index table holds exactly the entries of the stored events. -/
structure Exact (host : Host) (t : Tables) : Prop where
  records : ∀ e ∈ t.rows Dbis.event, ∃ lev p, Holds t lev p ∧ e = (u64NeBytes lev, p.buf)
  index : ∀ d ∈ Dbis.indices, ∀ e, e ∈ t.rows d
    ↔ ∃ lev p, Holds t lev p ∧ (indexEvent host p).Posts d e.1 ∧ e.2 = u64NeBytes lev

section Invariant

variable {host : Host} {t t' : Tables} {lev : Nat} {p : PackedEvent} {json : Bytes}

theorem Exact.same (exact : Exact host t) (same : SamePrimary t t') : Exact host t' := by
  refine ⟨fun e member => ?_, fun d inside e => ?_⟩
  · rw [same.event] at member
    obtain ⟨lev, p, stored, is⟩ := exact.records e member
    exact ⟨lev, p, same.stored.mpr stored, is⟩
  · rw [same.index inside, exact.index d inside]
    simp only [same.stored]

theorem Exact.add (exact : Exact host t) (adds : Adds host t t' lev p json) : Exact host t' := by
  refine ⟨fun e member => ?_, fun d inside e => ?_⟩
  · rcases (adds.event e).mp member with rfl | old
    · exact ⟨lev, p, adds.stored.mpr (.inl ⟨rfl, rfl⟩), rfl⟩
    · obtain ⟨n, q, stored, is⟩ := exact.records e old
      exact ⟨n, q, adds.stored.mpr (.inr stored), is⟩
  · rw [adds.index d inside, exact.index d inside]
    constructor
    · rintro (⟨n, q, stored, posts⟩ | posts)
      · exact ⟨n, q, adds.stored.mpr (.inr stored), posts⟩
      · exact ⟨lev, p, adds.stored.mpr (.inl ⟨rfl, rfl⟩), posts⟩
    · rintro ⟨n, q, stored, posts⟩
      rcases adds.stored.mp stored with ⟨rfl, rfl⟩ | old
      · exact .inr posts
      · exact .inl ⟨n, q, old, posts⟩

/-- The entries of the other events stay: they have other local ids. -/
theorem Exact.remove (exact : Exact host t) (removes : Removes host t t' lev p) :
    Exact host t' := by
  refine ⟨fun e member => ?_, fun d inside e => ?_⟩
  · obtain ⟨old, other⟩ := (removes.event e).mp member
    obtain ⟨n, q, stored, rfl⟩ := exact.records e old
    exact ⟨n, q, removes.stored_iff.mpr ⟨stored, fun same => other (congrArg u64NeBytes same)⟩,
      rfl⟩
  · rw [removes.index d inside, exact.index d inside]
    constructor
    · rintro ⟨⟨n, q, stored, posts, value⟩, kept⟩
      refine ⟨n, q, removes.stored_iff.mpr ⟨stored, ?_⟩, posts, value⟩
      rintro rfl
      rw [stored.unique removes.stored] at posts
      exact kept ⟨posts, value⟩
    · rintro ⟨n, q, stored, posts, value⟩
      obtain ⟨old, other⟩ := removes.stored_iff.mp stored
      refine ⟨⟨n, q, old, posts, value⟩, fun both => other ?_⟩
      exact u64NeBytes_inj old.1 removes.stored.1 (value.symm.trans both.2)

end Invariant

/-! ### Effects of the writer -/

section Writing

variable {σ : Type} {env : Services} {sink : NegentropySink σ} {policy : VanishPolicy}
  {authorQuota : Nat}
variable {lev : Nat} {w w' : Writer σ} {levs : List Nat}

/-- Removing a local id removes the event stored under it, if there is one. -/
theorem removeEvent_effect {deleted : Bool} (small : lev < 2 ^ 64)
    (run : removeEvent env sink w lev = .ok (deleted, w')) :
    w' = w ∧ (∀ p, ¬Holds w.txn.tables lev p) ∨
      ∃ p, Removes env.host w.txn.tables w'.txn.tables lev p := by
  unfold removeEvent at run
  split at run
  · rename_i absent
    cases run
    refine .inl ⟨rfl, fun p stored => ?_⟩
    rw [lookupEventByLevid, stored.get] at absent
    cases absent
  · rename_i buf found
    simp only [bind_eq_ok, pure_eq_ok, Prod.mk.injEq, Prod.exists] at run
    obtain ⟨p, viewed, trees, _, _, txn, delete, _, rfl⟩ := run
    have stored : Holds w.txn.tables lev p :=
      holds_of_get small ((viewPacked_eq viewed).symm ▸ found)
    exact .inr ⟨p, deleteEventBasic_removes stored delete⟩

/-- What removing a list of local ids leaves. -/
structure RemovesAll (t t' : Tables) (levs : List Nat) : Prop where
  stored : ∀ n p, Holds t' n p ↔ Holds t n p ∧ n ∉ levs
  payload : ∀ n p, Holds t' n p → ∀ value, (u64NeBytes n, value) ∈ t'.rows Dbis.eventPayload
    ↔ (u64NeBytes n, value) ∈ t.rows Dbis.eventPayload

theorem removeEvents_cons :
    removeEvents env sink w (lev :: levs) = .ok w' ↔ ∃ deleted middle,
      removeEvent env sink w lev = .ok (deleted, middle) ∧
        removeEvents env sink middle levs = .ok w' := by
  simp only [removeEvents, List.foldlM_cons, bind_eq_ok, map_eq_ok, Prod.exists]
  constructor
  · rintro ⟨middle, ⟨deleted, same, run, rfl⟩, rest⟩
    exact ⟨deleted, same, run, rest⟩
  · rintro ⟨deleted, middle, run, rest⟩
    exact ⟨middle, ⟨deleted, middle, run, rfl⟩, rest⟩

/-- **Removing a list of local ids** keeps the tables exact and the other events. -/
theorem removeEvents_effect (small : ∀ lev ∈ levs, lev < 2 ^ 64)
    (exact : Exact env.host w.txn.tables) (run : removeEvents env sink w levs = .ok w') :
    Exact env.host w'.txn.tables ∧ RemovesAll w.txn.tables w'.txn.tables levs := by
  induction levs generalizing w with
  | nil =>
    rw [removeEvents, List.foldlM_nil, pure_eq_ok] at run
    subst run
    exact ⟨exact, fun n p => by simp, fun _ _ _ _ => Iff.rfl⟩
  | cons lev levs ih =>
    obtain ⟨deleted, middle, first, rest⟩ := removeEvents_cons.mp run
    have small' : ∀ n ∈ levs, n < 2 ^ 64 := fun n member => small n (.tail _ member)
    rcases removeEvent_effect (small lev (.head _)) first with
      ⟨rfl, absent⟩ | ⟨p, removes⟩
    · obtain ⟨kept, all⟩ := ih small' exact rest
      refine ⟨kept, fun n q => ?_, all.payload⟩
      rw [all.stored, List.mem_cons, not_or]
      refine and_congr_right fun stored => (and_iff_right ?_).symm
      rintro rfl
      exact absent q stored
    · obtain ⟨kept, all⟩ := ih small' (exact.remove removes) rest
      refine ⟨kept, fun n q => ?_, fun n q stored value => ?_⟩
      · rw [all.stored, removes.stored_iff, List.mem_cons, not_or, and_assoc]
      · have other := (removes.stored_iff.mp ((all.stored n q).mp stored).1).2
        have small := (removes.stored_iff.mp ((all.stored n q).mp stored).1).1.1
        rw [all.payload n q stored, removes.payload]
        exact and_iff_left fun same => other (u64NeBytes_inj small removes.stored.1 same)

/-! ### Local ids read from the tables -/

variable {txn txn' : RwTxn} {json : Bytes} {p : PackedEvent}

theorem u64FromNeChecked_lt {raw : Bytes} (read : u64FromNeChecked raw = .ok lev) :
    lev < 2 ^ 64 := by
  unfold u64FromNeChecked at read
  split_ifs at read with bad
  cases read
  have length : (raw.take 8).length ≤ 8 := by
    simp only [List.length_take]
    omega
  calc leVal (raw.take 8) < 256 ^ (raw.take 8).length := leVal_lt _
    _ ≤ 256 ^ 8 := Nat.pow_le_pow_right (by decide) length
    _ = 2 ^ 64 := by decide

theorem visitReplacements_preserves {α : Type} {f : α → Nat → PackedEvent → α × Bool}
    (Inv : α → Prop)
    (step : ∀ state lev other, lev < 2 ^ 64 → Inv state → Inv (f state lev other).1)
    {rows : List Kv} {state state' : α} (start : Inv state)
    (run : visitReplacements txn f rows state = .ok state') : Inv state' := by
  induction rows generalizing state with
  | nil =>
    cases run
    exact start
  | cons e rows ih =>
    simp only [visitReplacements, bind_eq_ok, okOr_eq_ok] at run
    obtain ⟨lev, read, raw, _, other, _, run⟩ := run
    have next := step state lev other (u64FromNeChecked_lt read) start
    split_ifs at run
    · exact ih next run
    · rw [pure_eq_ok] at run
      exact run ▸ next

/-- Every local id in a list is a `u64`. -/
def SmallIds (levs : List Nat) : Prop := ∀ lev ∈ levs, lev < 2 ^ 64

theorem SmallIds.snoc (all : SmallIds levs) (small : lev < 2 ^ 64) : SmallIds (levs ++ [lev]) := by
  intro n member
  rcases List.mem_append.mp member with old | new
  · exact all n old
  · exact List.mem_singleton.mp new ▸ small

theorem checkVersions_small {host : Host} {status status' : EventWriteStatus}
    (run : checkVersions host txn p json status = .ok (status', levs)) : SmallIds levs := by
  have none : SmallIds [] := fun _ member => absurd member (by simp)
  have visited : ∀ {key seen}, foreachReplacement txn key (versionStep p) ⟨[], false⟩ = .ok seen →
      SmallIds seen.candidates := by
    intro key seen visit
    refine visitReplacements_preserves (fun s : Versions => SmallIds s.candidates) ?_ none
      visit
    intro seen lev other small all
    unfold versionStep
    split_ifs
    · exact all
    · exact all.snoc small
  unfold checkVersions at run
  by_cases versioned : isVersioned p.kind = true
  · rw [if_pos versioned] at run
    cases first : p.firstDTag with
    | none =>
      rw [first] at run
      cases run
      exact none
    | some d =>
      simp only [first, bind_eq_ok] at run
      obtain ⟨seen, visit, run⟩ := run
      by_cases newer : seen.superseded = true
      · rw [if_pos newer] at run
        cases run
        exact none
      · rw [if_neg newer] at run
        by_cases pending : status = .pending
        · simp only [if_pos pending, bind_eq_ok, pure_eq_ok, Prod.mk.injEq] at run
          obtain ⟨_, _, _, rfl⟩ := run
          exact visited visit
        · rw [if_neg pending] at run
          cases run
          exact visited visit
  · rw [if_neg versioned] at run
    cases run
    exact none

theorem lookupEventById_small {id buf : Bytes}
    (run : lookupEventById txn id = .ok (some (lev, buf))) : lev < 2 ^ 64 := by
  unfold lookupEventById at run
  split at run
  · split_ifs at run
    · simp only [bind_eq_ok, pure_eq_ok, Option.map_eq_some_iff, Prod.mk.injEq] at run
      obtain ⟨n, read, _, _, rfl, _⟩ := run
      exact u64FromNeChecked_lt read
    · cases run
  · cases run

theorem requestStep_small {originals : List (Bytes × Bytes)} {levs' : List Nat}
    {tag : PackedEventTag} (all : SmallIds levs)
    (run : requestStep env txn p originals levs tag = .ok levs') : SmallIds levs' := by
  unfold requestStep at run
  split_ifs at run
  · rw [bind_eq_ok] at run
    obtain ⟨found, lookup, run⟩ := run
    split at run
    · cases run
      exact all
    · simp only [bind_eq_ok, pure_eq_ok] at run
      obtain ⟨_, _, _, _, rfl⟩ := run
      split_ifs
      · exact all.snoc (lookupEventById_small lookup)
      · exact all
  · unfold pushAddressDeletions at run
    split at run
    · cases run
      exact all
    · split_ifs at run
      · refine visitReplacements_preserves SmallIds ?_ all run
        intro levs lev other small all
        unfold addressStep
        simp only []
        split_ifs
        · exact all.snoc small
        · exact all
      · cases run
        exact all
  · cases run
    exact all

theorem judge_small {e : EventToWrite} {status : EventWriteStatus}
    (run : judge env policy txn p e = .ok (status, levs)) : SmallIds levs := by
  simp only [judge, bind_eq_ok] at run
  obtain ⟨refused, _, run⟩ := run
  split at run
  · cases run
    exact fun _ member => absurd member (by simp)
  · simp only [bind_eq_ok, pure_eq_ok, Prod.mk.injEq, Prod.exists] at run
    obtain ⟨_, versions, versioned, _, requested, _, rfl⟩ := run
    have all := checkVersions_small versioned
    unfold requestedDeletions at requested
    split_ifs at requested
    · simp only [bind_eq_ok] at requested
      obtain ⟨_, _, loop⟩ := requested
      exact foldlM_preserves SmallIds (fun s tag s' _ => requestStep_small) all loop
    · cases requested
      exact all

/-! ### One event of a batch -/

theorem Adds.of_same {host : Host} {t t' t'' : Tables} (same : SamePrimary t t')
    (adds : Adds host t' t'' lev p json) :
    Adds host t t'' lev p json where
  small := adds.small
  fresh := same.event ▸ adds.fresh
  event := same.event ▸ adds.event
  payload := same.payload ▸ adds.payload
  index d inside := same.index inside ▸ adds.index d inside

theorem markRequest_eq (run : markRequest policy txn p = .ok txn') :
    txn' = txn ∨ markVanished txn p.pubkey p.createdAt = .ok txn' := by
  unfold markRequest at run
  split_ifs at run
  · exact .inr run
  · cases run
    exact .inl rfl

theorem markRequest_touches (run : markRequest policy txn p = .ok txn') :
    Touches [Dbis.vanishPubkey, Dbis.state] txn txn' := by
  rcases markRequest_eq run with rfl | run
  · exact .refl _ _
  · exact markVanished_touches run

/-- **An event stored**: it is added, then what it removes is removed. -/
theorem storeEvent_effect (small : SmallIds levs) (exact : Exact env.host w.txn.tables)
    (run : storeEvent env sink policy w p json levs = .ok (lev, w')) :
    Exact env.host w'.txn.tables ∧
      ∃ middle, Adds env.host w.txn.tables middle lev p json ∧
        RemovesAll middle w'.txn.tables levs := by
  simp only [storeEvent, bind_eq_ok, pure_eq_ok, Prod.mk.injEq, Prod.exists] at run
  obtain ⟨marked, mark, _, inserted, insert, trees, _, _, removed, rfl, rfl⟩ := run
  have adds := Adds.of_same ((markRequest_touches mark).samePrimary (by decide))
    (insertEvent_adds insert)
  obtain ⟨kept, all⟩ := removeEvents_effect small (exact.add adds) removed
  exact ⟨kept, inserted.tables, adds, all⟩

theorem overQuota_eq {refused : Bool}
    (run : overQuota authorQuota txn p levs = .ok (refused, txn')) :
    txn' = txn ∨ ∃ n, txn' = cacheCount txn (authorKey p.pubkey) n := by
  unfold overQuota at run
  split_ifs at run
  · simp only [bind_eq_ok, pure_eq_ok, Prod.mk.injEq, Prod.exists] at run
    obtain ⟨_, counted, count, _, _, _, rfl⟩ := run
    exact authorCount_eq count
  · cases run
    exact .inl rfl

theorem overQuota_tables {refused : Bool}
    (run : overQuota authorQuota txn p levs = .ok (refused, txn')) : txn'.tables = txn.tables := by
  rcases overQuota_eq run with rfl | ⟨_, rfl⟩ <;> rfl

/-- The event of a round is no copy and may be stored, and its author has been counted. -/
structure Judged (env : Services) (policy : VanishPolicy) (authorQuota : Nat) (st : Batch σ)
    (e : EventToWrite) (p : PackedEvent) (levs : List Nat) (exceeded : Bool) (counted : RwTxn) :
    Prop where
  viewed : viewPacked e.packed = .ok p
  own : copyStatus st e = none
  judged : judge env policy st.writer.txn p e = .ok (.pending, levs)
  quota : overQuota authorQuota st.writer.txn p levs = .ok (exceeded, counted)

/-- **One round of the loop**: a copy of the event before it, an event refused or over the quota,
or one stored. -/
inductive Round (env : Services) (sink : NegentropySink σ) (policy : VanishPolicy)
    (authorQuota : Nat) (st : Batch σ) (e : EventToWrite) : Batch σ → Prop
  | copied {status} (copy : copyStatus st e = some status) :
      Round env sink policy authorQuota st e (st.settle e status)
  | refused {p status levs} (viewed : viewPacked e.packed = .ok p)
      (judged : judge env policy st.writer.txn p e = .ok (status, levs))
      (final : status ≠ .pending) : Round env sink policy authorQuota st e (st.settle e status)
  | exceeded {p levs counted} (judged : Judged env policy authorQuota st e p levs true counted) :
      Round env sink policy authorQuota st e
        ({ st with writer := ⟨counted, st.writer.trees⟩ }.settle e .quotaExceeded)
  | written {p levs counted lev w} (judged : Judged env policy authorQuota st e p levs false counted)
      (stored : storeEvent env sink policy ⟨counted, st.writer.trees⟩ p e.json levs = .ok (lev, w)) :
      Round env sink policy authorQuota st e
        ⟨w, st.done ++ [{ e with status := .written, levId := lev }],
          st.firstInserted.or (some lev), some lev⟩

theorem writeOne_round {st st' : Batch σ} {e : EventToWrite}
    (run : writeOne env sink policy authorQuota st e = .ok st') :
    Round env sink policy authorQuota st e st' := by
  simp only [writeOne, bind_eq_ok] at run
  obtain ⟨p, viewed, run⟩ := run
  split at run
  · rename_i status copy
    cases run
    exact .copied copy
  · rename_i own
    simp only [bind_eq_ok, Prod.exists] at run
    obtain ⟨status, levs, judged, run⟩ := run
    split_ifs at run with final
    · cases run
      exact .refused viewed judged final
    · obtain rfl := not_not.mp final
      simp only [bind_eq_ok, Prod.exists] at run
      obtain ⟨above, counted, quota, run⟩ := run
      cases above with
      | true =>
        cases run
        exact .exceeded ⟨viewed, own, judged, quota⟩
      | false =>
        simp only [Bool.false_eq_true, if_false, bind_eq_ok, pure_eq_ok, Prod.exists] at run
        obtain ⟨lev, w, stored, rfl⟩ := run
        exact .written ⟨viewed, own, judged, quota⟩ stored

theorem noteTagKindIndexed_touches (txn : RwTxn) (first last : Nat) :
    Touches [Dbis.eventTagKind] txn (noteTagKindIndexed txn first last) := by
  unfold noteTagKindIndexed
  simp only []
  split_ifs
  · exact (touches_delKey (by simp) _).trans (touches_put (by simp) _ _)
  · exact .refl _ _
  · exact .refl _ _

/-- A batch ends with the mark of its postings, or as the loop left it. -/
theorem Batch.finish_eq (st : Batch σ) : st.finish = (st.writer, st.done) ∨
    ∃ first last, st.firstInserted = some first ∧ st.lastInserted = some last ∧
      st.writer.txn.deferTagKind = false ∧ st.finish =
        ({ st.writer with txn := noteTagKindIndexed st.writer.txn first last }, st.done) := by
  unfold Batch.finish
  split
  · split_ifs with deferring
    · exact .inl rfl
    · exact .inr ⟨_, _, ‹_›, ‹_›, Bool.eq_false_iff.mpr deferring, rfl⟩
  · exact .inl rfl

theorem Batch.finish_done (st : Batch σ) : st.finish.2 = st.done := by
  rcases st.finish_eq with same | ⟨_, _, _, _, _, same⟩ <;> rw [same]

theorem Batch.finish_keeps {P : RwTxn → Prop} (st : Batch σ) (inv : P st.writer.txn)
    (noted : ∀ first last, P (noteTagKindIndexed st.writer.txn first last)) :
    P st.finish.1.txn := by
  rcases st.finish_eq with same | ⟨first, last, _, _, _, same⟩ <;> rw [same]
  · exact inv
  · exact noted first last

end Writing

end Wok.Db
