/-
**The count of superseded versions.**

A database may hold several versions of an address. The transaction counts those beyond the first:
the count is read from the state table or, where there is none, off the replacement index, and
moves with every insertion and removal of a version. On exact index tables it stays exact, and the
check against drift never fails.

* `countSuperseded_eq` — one pass over the replacement index counts the superseded versions.
* `Versioned` — **the counter is exact or absent**; `versioned_kept` — the changes of the writer
  keep it; `Versioned.apply` — **no call fails for it**.
-/

import Wok.Db.AuthorCounts

namespace Wok.Db

open Wok.Library Wok.Event List

/-! ### One pass over the replacement index -/

/-- The keys of the replaceable and addressable events among rows. -/
def versionKeysOf (rows : List Kv) : List Bytes := (rows.map Prod.fst).filter versionKey

section Counting

variable {host : Host} {t : Tables}

theorem versionKeysOf_concat (rows : List Kv) (e : Kv) :
    versionKeysOf (rows ++ [e])
      = versionKeysOf rows ++ if versionKey e.1 then [e.1] else [] := by
  simp only [versionKeysOf, map_append, filter_append, map_cons, map_nil]
  split_ifs with version
  · rw [filter_cons_of_pos version, filter_nil]
  · rw [filter_cons_of_neg version, filter_nil]

/-- Every key of the replacement index can be read. -/
def KeysParse (rows : List Kv) : Prop := ∀ e ∈ rows, ∃ parts, parseKeyStringU64 e.1 = .ok parts

theorem Exact.keysParse (exact : Exact host t) : KeysParse (t.rows Dbis.eventReplace) := by
  intro e member
  obtain ⟨lev, p, _, posts, _⟩ := (exact.index _ (by decide) _).mp member
  rw [posts_replace] at posts
  simp only [indexEvent, Option.mem_toList] at posts
  obtain ⟨d, _, same⟩ := Option.map_eq_some_iff.mp posts
  exact ⟨_, same ▸ parseKeyStringU64_make _ p.kind_lt⟩

theorem ne_nil_of_parse {key : Bytes} {parts : Bytes × Nat}
    (parse : parseKeyStringU64 key = .ok parts) : key ≠ [] := by
  rintro rfl
  cases parse

theorem replaceKeys_ascending (t : Tables) :
    ((t.rows Dbis.eventReplace).map Prod.fst).Pairwise (· ≤ ·) := by
  rw [pairwise_map]
  refine (t.sorted Dbis.eventReplace).imp fun {a b} less => ?_
  exact key_le_of_entry_le rfl rfl rfl (le_of_lt less)

/-- One entry: the key before it and the members beyond the first so far. -/
theorem supersededStep_eq {before : List Kv} {e : Kv} {parts : Bytes × Nat}
    (parse : parseKeyStringU64 e.1 = .ok parts)
    (ascending : ((before ++ [e]).map Prod.fst).Pairwise (· ≤ ·)) :
    supersededStep ((versionKeysOf before).getLast?.getD [], repeats (versionKeysOf before)) e
      = .ok ((versionKeysOf (before ++ [e])).getLast?.getD [],
          repeats (versionKeysOf (before ++ [e]))) := by
  have version : versionKey e.1 = isVersioned parts.2 := by rw [versionKey, parse]
  rw [versionKeysOf_concat, version, supersededStep, parse, ok_bind]
  by_cases versioned : isVersioned parts.2 = true
  · have again : e.1 ∈ versionKeysOf before ↔ (versionKeysOf before).getLast?.getD [] = e.1 := by
      constructor
      · intro member
        have sub : (versionKeysOf before ++ [e.1]).Pairwise (· ≤ ·) := by
          refine ascending.sublist ?_
          rw [map_append]
          exact filter_sublist.append (List.Sublist.refl _)
        rw [getLast?_of_mem_ascending sub member]
        rfl
      · intro same
        cases last : (versionKeysOf before).getLast? with
        | none =>
          rw [last] at same
          exact absurd same.symm (ne_nil_of_parse parse)
        | some key =>
          rw [last] at same
          exact same ▸ mem_of_getLast? last
    simp only [versioned, if_true, getLast?_concat, Option.getD_some, repeats_concat, again]
    split_ifs with same
    · rw [same]
      rfl
    · rfl
  · simp only [versioned, Bool.false_eq_true, if_false, append_nil]
    rfl

theorem foldlM_supersededStep (before : List Kv) {rows : List Kv} (parse : KeysParse rows)
    (ascending : ((before ++ rows).map Prod.fst).Pairwise (· ≤ ·)) :
    rows.foldlM supersededStep
        ((versionKeysOf before).getLast?.getD [], repeats (versionKeysOf before))
      = .ok ((versionKeysOf (before ++ rows)).getLast?.getD [],
          repeats (versionKeysOf (before ++ rows))) := by
  induction rows generalizing before with
  | nil => rw [append_nil]; rfl
  | cons e rows ih =>
    obtain ⟨parts, here⟩ := parse e (.head _)
    rw [append_cons] at ascending ⊢
    have ordered : ((before ++ [e]).map Prod.fst).Pairwise (· ≤ ·) := by
      rw [map_append] at ascending
      exact (pairwise_append.mp ascending).1
    rw [foldlM_cons, supersededStep_eq here ordered, ok_bind]
    exact ih _ (fun x member => parse x (.tail _ member)) ascending

/-- **One pass counts the superseded versions.** -/
theorem countSuperseded_eq (parse : KeysParse (t.rows Dbis.eventReplace)) :
    countSuperseded (t.rows Dbis.eventReplace) = .ok (superseded t) := by
  have run := foldlM_supersededStep [] parse (replaceKeys_ascending t)
  unfold countSuperseded
  rw [show (([] : Bytes), 0) = ((versionKeysOf []).getLast?.getD [], repeats (versionKeysOf []))
    from rfl, run]
  rfl

theorem Exact.eventKeys (exact : Exact host t) :
    ((t.rows Dbis.event).map Prod.fst).Nodup ∧
      (t.rows Dbis.event).map Prod.fst ⊆ (List.range (2 ^ 64)).map u64NeBytes := by
  constructor
  · refine List.Nodup.map_on ?_ (t.sorted _).nodup
    exact fun x left y right same => Tables.plain_unique (by decide) left right same
  · intro key member
    obtain ⟨e, listed, rfl⟩ := mem_map.mp member
    obtain ⟨n, p, held, rfl⟩ := exact.records e listed
    exact mem_map.mpr ⟨n, mem_range.mpr held.1, rfl⟩

/-- There are fewer superseded versions than events. -/
theorem superseded_add_lt (exact : Exact host t) {k : Nat} (small : k < 2 ^ 64)
    (room : (t.rows Dbis.event).length + k ≤ 2 ^ 64) : superseded t + k < 2 ^ 64 := by
  have versions := versionKeys_le exact
  by_cases none : versionKeys t = []
  · rw [superseded, none]
    exact (Nat.zero_add k).symm ▸ small
  · have less := repeats_lt_length none
    unfold superseded
    omega

/-- A count of superseded versions fits in 64 bits. -/
theorem superseded_lt (exact : Exact host t) : superseded t < 2 ^ 64 := by
  have bound := (subperm_of_subset exact.eventKeys.1 exact.eventKeys.2).length_le
  rw [length_map, length_map, length_range] at bound
  exact superseded_add_lt exact (by decide : 0 < 2 ^ 64) bound

theorem superseded_room (exact : Exact host t) {lev : Nat} (small : lev < 2 ^ 64)
    (fresh : ∀ e ∈ t.rows Dbis.event, e.1 ≠ u64NeBytes lev) : superseded t + 1 < 2 ^ 64 := by
  have keys : ((t.rows Dbis.event).map Prod.fst ++ [u64NeBytes lev]).Nodup := by
    refine nodup_append'.mpr ⟨exact.eventKeys.1, nodup_singleton _, ?_⟩
    intro key inside here
    obtain ⟨e, member, rfl⟩ := mem_map.mp inside
    exact fresh e member (mem_singleton.mp here)
  have inside : (t.rows Dbis.event).map Prod.fst ++ [u64NeBytes lev]
      ⊆ (List.range (2 ^ 64)).map u64NeBytes := by
    refine append_subset.mpr ⟨exact.eventKeys.2, fun key here => ?_⟩
    exact mem_map.mpr ⟨lev, mem_range.mpr small, (mem_singleton.mp here).symm⟩
  have bound := (subperm_of_subset keys inside).length_le
  rw [length_append, length_map, length_map, length_range] at bound
  exact superseded_add_lt exact (by decide) bound

/-- The address an event is a version of. -/
def versionAddress (p : PackedEvent) : Option Bytes :=
  if isVersioned p.kind then replaceKey p else none

/-- The addresses of the stored events, once for every version. -/
def storedVersions (t : Tables) : List Bytes :=
  (t.rows Dbis.event).filterMap fun e => (PackedEvent.new e.2).toOption.bind versionAddress

/-- The versions beyond the first, over all addresses. -/
def supersededVersions (t : Tables) : Nat :=
  ((storedVersions t).dedup.map fun address => (storedVersions t).count address - 1).sum

/-- The replacement index lists the versions of the stored events. -/
theorem versionKeys_perm (exact : Exact host t) : (versionKeys t).Perm (storedVersions t) := by
  let entries := (t.rows Dbis.eventReplace).filter fun e => versionKey e.1
  let versions := (t.rows Dbis.event).filterMap fun e =>
    ((PackedEvent.new e.2).toOption.bind versionAddress).map fun address => (address, e.1)
  have keys : entries.map Prod.fst = versionKeys t := by
    rw [versionKeys, filter_map]
    rfl
  have addresses : versions.map Prod.fst = storedVersions t := by
    rw [storedVersions, map_filterMap]
    simp only [Option.map_map, Function.comp_def, Option.map_id']
  have apart : versions.Nodup := by
    have keys : (t.rows Dbis.event).Pairwise fun e e' => e.1 ≠ e'.1 :=
      pairwise_map.mp exact.eventKeys.1
    refine List.Pairwise.filterMap _ (fun e e' other v made v' made' same => ?_) keys
    obtain ⟨_, _, rfl⟩ := Option.map_eq_some_iff.mp made
    obtain ⟨_, _, rfl⟩ := Option.map_eq_some_iff.mp made'
    exact other (congrArg Prod.snd same)
  have same : entries.Perm versions := by
    refine (perm_ext_iff_of_nodup ((t.sorted _).nodup.filter _) apart).mpr fun e => ?_
    rw [mem_filter, exact.index _ (by decide), mem_filterMap]
    constructor
    · rintro ⟨⟨lev, p, held, posts, value⟩, versioned⟩
      have found : replaceKey p = some e.1 := by
        simpa [posts_replace, indexEvent] using posts
      rw [versionKey_replaceKey found] at versioned
      refine ⟨_, held.2, ?_⟩
      simp [Except.toOption, versionAddress, versioned, found, ← value]
    · rintro ⟨row, member, made⟩
      obtain ⟨lev, p, held, rfl⟩ := exact.records row member
      obtain ⟨address, found, rfl⟩ := Option.map_eq_some_iff.mp made
      simp only [PackedEvent.new_buf, Except.toOption, Option.bind_some, versionAddress,
        Option.ite_none_right_eq_some] at found
      refine ⟨⟨lev, p, held, ?_, rfl⟩, ?_⟩
      · simp [posts_replace, indexEvent, found.2]
      · rw [versionKey_replaceKey found.2, found.1]
  rw [← keys, ← addresses]
  exact same.map _

/-- **The count of the index is the count of the stored versions.** -/
theorem superseded_eq_versions (exact : Exact host t) : superseded t = supersededVersions t := by
  rw [superseded, repeats_perm (versionKeys_perm exact), repeats_eq_sum, supersededVersions]
  congr!

end Counting

/-! ### The counter -/

/-- The counter is exact, or absent and not loaded yet. -/
def VersionCounter (txn : RwTxn) : Prop :=
  Counts txn.supersededEvents (txn.get Dbis.state supersededKey) (superseded txn.tables) ∨
    txn.supersededEvents = none ∧ txn.get Dbis.state supersededKey = none

section Counter

variable {host : Host} {env : Services} {txn txn' : RwTxn} {lev : Nat} {p : PackedEvent}

theorem VersionCounter.same (counter : VersionCounter txn)
    (cached : txn'.supersededEvents = txn.supersededEvents)
    (stored : txn'.get Dbis.state supersededKey = txn.get Dbis.state supersededKey)
    (rows : txn'.tables.rows Dbis.eventReplace = txn.tables.rows Dbis.eventReplace) :
    VersionCounter txn' := by
  have count : superseded txn'.tables = superseded txn.tables := superseded_same (by rw [rows])
  unfold VersionCounter
  rw [cached, stored, count]
  exact counter

/-- The count is loaded when a versioned event comes or goes. -/
theorem VersionCounter.load (counter : VersionCounter txn) (small : superseded txn.tables < 2 ^ 64)
    (parse : KeysParse (txn.tables.rows Dbis.eventReplace)) (kind : Nat) :
    loadVersions txn kind = .ok { txn with
      supersededEvents := if isVersioned kind then some (superseded txn.tables)
        else txn.supersededEvents } := by
  rcases counter with counts | ⟨cached, stored⟩
  · exact loadVersions_eq small counts kind
  · unfold loadVersions
    split_ifs
    · simp only [loadSuperseded, cached, storedCounter, stored, countSuperseded_eq parse, ok_bind]
      rfl
    · rfl

/-- The error of a counter that does not fit the index. -/
def versionDrift : DbError := .msg "replacement count overflow or drift"

@[simp] theorem msg_eq_versionDrift {text : String} :
    .msg text = versionDrift ↔ text = "replacement count overflow or drift" := by
  simp [versionDrift]

@[simp] theorem event_ne_versionDrift (e : EventError) : .event e ≠ versionDrift := by
  simp [versionDrift]

@[simp] theorem shown_ne_versionDrift (e : EventError) : .shown e ≠ versionDrift := by
  simp [versionDrift]

@[simp] theorem decodeCounter_avoids (raw : Bytes) : Avoids versionDrift (decodeCounter raw) := by
  simp [decodeCounter]

theorem storedCounter_avoids {key : Bytes} {missing : Except DbError Nat}
    (otherwise : Avoids versionDrift missing) :
    Avoids versionDrift (storedCounter txn key missing) := by
  unfold storedCounter
  split <;> simp [otherwise]

@[simp] theorem changeAuthorCount_avoids (txn : RwTxn) (pubkey : Bytes) (insert : Bool) :
    Avoids versionDrift (changeAuthorCount txn pubkey insert) := by
  have known : Avoids versionDrift (knownCount txn (authorKey pubkey)) := by
    unfold knownCount
    split
    · simp
    · split <;> simp
  refine avoids_bind.mpr ⟨known, ?_⟩
  rintro (_ | old) _ <;> simp

@[simp] theorem preserveHighWater_avoids (txn : RwTxn) :
    Avoids versionDrift (preserveHighWater txn) := by
  have largest : Avoids versionDrift (txn.largestIntegerKey Dbis.event) := by
    unfold RwTxn.largestIntegerKey
    split <;> simp [err]
  unfold preserveHighWater
  split <;> simp [storedCounter_avoids largest]

@[simp] theorem allocateEventId_avoids (txn : RwTxn) :
    Avoids versionDrift (allocateEventId txn) := by
  simp [allocateEventId]

@[simp] theorem appendEvent_avoids (txn : RwTxn) (lev : Nat) (packed : Bytes) :
    Avoids versionDrift (appendEvent txn lev packed) := by
  simp [appendEvent, avoids_okOr]

/-- The author count leaves the counter of versions alone. -/
theorem changeAuthorCount_versions {pubkey : Bytes} {insert : Bool}
    (run : changeAuthorCount txn pubkey insert = .ok txn') :
    txn'.supersededEvents = txn.supersededEvents ∧
      txn'.get Dbis.state supersededKey = txn.get Dbis.state supersededKey := by
  rcases changeAuthorCount_eq run with rfl | ⟨_, rfl⟩ | rfl
  · exact ⟨rfl, rfl⟩
  · exact ⟨rfl, rfl⟩
  · exact ⟨rfl, Tables.get_delKey_of_ne (by decide) (authorKey_ne_state (by decide)).symm⟩

theorem insertEvent_staged (json : Bytes) {counted given appended : RwTxn}
    (author : changeAuthorCount txn p.pubkey true = .ok counted)
    (allocated : allocateEventId counted = .ok (lev, given))
    (append : appendEvent given lev p.buf = .ok appended) :
    (appended.put Dbis.eventPayload (u64NeBytes lev) (encodeRawPayload json)).supersededEvents
        = txn.supersededEvents ∧
    (appended.put Dbis.eventPayload (u64NeBytes lev) (encodeRawPayload json)).get Dbis.state
        supersededKey = txn.get Dbis.state supersededKey ∧
    (appended.put Dbis.eventPayload (u64NeBytes lev) (encodeRawPayload json)).tables.rows
        Dbis.eventReplace = txn.tables.rows Dbis.eventReplace := by
  obtain ⟨cached, stored⟩ := changeAuthorCount_versions author
  obtain ⟨-, rfl⟩ := allocateEventId_eq allocated
  obtain ⟨rfl, -⟩ := appendEvent_eq append
  have rows : ∀ d, d ≠ Dbis.event → d ≠ Dbis.eventPayload →
      ((counted.tables.put Dbis.event (u64NeBytes lev) p.buf).put Dbis.eventPayload
        (u64NeBytes lev) (encodeRawPayload json)).rows d = counted.tables.rows d :=
    fun d notEvent notPayload =>
      (Tables.rows_put_of_ne notPayload).trans (Tables.rows_put_of_ne notEvent)
  refine ⟨cached, ?_, ?_⟩
  · exact (Tables.get_congr (rows _ (by decide) (by decide)) _).trans stored
  · exact (rows _ (by decide) (by decide)).trans (changeAuthorCount_touches author _ (by decide))

/-- The count is loaded and moved before the index entries are put. -/
theorem VersionCounter.stage (counter : VersionCounter txn) (host : Host)
    (room : superseded txn.tables + 1 < 2 ^ 64)
    (parse : KeysParse (txn.tables.rows Dbis.eventReplace)) (p : PackedEvent) :
    (loadVersions txn p.kind >>= fun txn =>
        countVersions txn p.kind (indexEvent host p).replace true)
      = .ok { txn with
          supersededEvents :=
            if isVersioned p.kind then some (superseded txn.tables + (hasVersion txn.tables p).toNat)
            else txn.supersededEvents } := by
  let loaded : RwTxn := { txn with
    supersededEvents := if isVersioned p.kind then some (superseded txn.tables)
      else txn.supersededEvents }
  have load : loadVersions txn p.kind = .ok loaded := counter.load (by omega) parse p.kind
  have change : countVersions loaded p.kind (indexEvent host p).replace true = .ok { loaded with
      supersededEvents :=
        if isVersioned p.kind then some (superseded txn.tables + (hasVersion loaded.tables p).toNat)
        else loaded.supersededEvents } :=
    countVersions_eq (fun versioned => if_pos versioned) ⟨rfl, room⟩
  rw [load, ok_bind, change]
  by_cases versioned : isVersioned p.kind = true
  · simp only [versioned, if_true, loaded]
  · simp only [versioned, Bool.false_eq_true, if_false, loaded]

/-- The counter after the count was moved, or left for an event without versions. -/
theorem VersionCounter.moved (counter : VersionCounter txn) {p : PackedEvent}
    (cached : txn'.supersededEvents = if isVersioned p.kind then some (superseded txn'.tables)
      else txn.supersededEvents)
    (stored : txn'.get Dbis.state supersededKey = txn.get Dbis.state supersededKey)
    (plain : ¬isVersioned p.kind = true → superseded txn'.tables = superseded txn.tables) :
    VersionCounter txn' := by
  by_cases versioned : isVersioned p.kind = true
  · rw [if_pos versioned] at cached
    exact .inl (.inl cached)
  · rw [if_neg versioned] at cached
    unfold VersionCounter
    rw [cached, stored, plain versioned]
    exact counter

/-- **Storing an event keeps the counter**, and does not fail for it. -/
theorem insertEvent_counter (exact : Exact host txn.tables) (counter : VersionCounter txn)
    (p : PackedEvent) (json : Bytes) : Avoids versionDrift (insertEvent host txn p json) ∧
      ∀ lev txn', insertEvent host txn p json = .ok (lev, txn') → VersionCounter txn' := by
  -- The count is moved on a transaction whose replacement index is still the old one.
  have staged : ∀ {counted lev given appended}, changeAuthorCount txn p.pubkey true = .ok counted →
      allocateEventId counted = .ok (lev, given) → appendEvent given lev p.buf = .ok appended →
      let s := appended.put Dbis.eventPayload (u64NeBytes lev) (encodeRawPayload json)
      (loadVersions s p.kind >>= fun txn =>
        countVersions txn p.kind (indexEvent host p).replace true)
      = .ok { s with
          supersededEvents :=
            if isVersioned p.kind then some (superseded txn.tables + (hasVersion txn.tables p).toNat)
            else txn.supersededEvents } := by
    intro counted lev given appended author allocated append
    obtain ⟨cached, stored, rows⟩ := insertEvent_staged json author allocated append
    have count : superseded _ = superseded txn.tables := superseded_same (.of_eq rows)
    have fresh : ∀ e ∈ txn.tables.rows Dbis.event, e.1 ≠ u64NeBytes lev := by
      obtain ⟨-, rfl⟩ := allocateEventId_eq allocated
      rw [← changeAuthorCount_touches author Dbis.event (by decide)]
      exact (appendEvent_eq append).2
    have room := superseded_room exact (allocateEventId_eq allocated).1 fresh
    have run := (counter.same cached stored rows).stage host (count ▸ room)
      (rows ▸ exact.keysParse) p
    rw [count, hasVersion_congr rows, cached] at run
    exact run
  constructor
  · refine avoids_bind.mpr ⟨changeAuthorCount_avoids _ _ _, fun counted author => ?_⟩
    refine avoids_bind.mpr ⟨allocateEventId_avoids _, fun ⟨lev, given⟩ allocated => ?_⟩
    refine avoids_bind.mpr ⟨appendEvent_avoids _ _ _, fun appended append => ?_⟩
    have run := staged author allocated append
    simp only [] at run ⊢
    rw [← bind_assoc, run]
    exact avoids_pure _ _
  · intro lev txn' run
    have adds := insertEvent_adds run
    simp only [insertEvent, bind_eq_ok, pure_eq_ok, Prod.mk.injEq, Prod.exists] at run
    obtain ⟨counted, author, n, given, allocated, appended, append, loaded, load, versions, count,
      rfl, rfl⟩ := run
    have made := staged author allocated append
    simp only [load, ok_bind, count] at made
    obtain rfl := Except.ok.inj made
    obtain ⟨t, only⟩ := (putIndices_alters _ n (indexEvent host p)).only
    obtain ⟨_, stored, _⟩ := insertEvent_staged json author allocated append
    refine counter.moved (p := p) ?_ ?_ fun plain => ?_
    · rw [adds.superseded exact, only]
    · refine Eq.trans (Tables.get_congr (putIndices_touches _ (by decide)) _) stored
    · rw [adds.superseded exact, hasVersion_of_plain plain]
      rfl

/-- The services of other modules do not fail with this error. -/
structure Services.Avoid (env : Services) (e : DbError) : Prop where
  decompress : ∀ txn dict body, Avoids e (env.decompressRw txn dict body)
  search : ∀ lev kind json, Avoids e (env.searchIndexEntries lev kind json)

@[simp] theorem viewPacked_avoids (raw : Bytes) : Avoids versionDrift (viewPacked raw) :=
  avoids_mapError event_ne_versionDrift

@[simp] theorem invalidateVisibility_avoids (txn : RwTxn) :
    Avoids versionDrift (invalidateVisibility txn) := by
  simp [invalidateVisibility, storedCounter_avoids]

@[simp] theorem forgetAuthor_avoids (txn : RwTxn) (lev : Nat) :
    Avoids versionDrift (forgetAuthor txn lev) := by
  unfold forgetAuthor
  split <;> simp

theorem decodeRw_avoids (quiet : env.Avoid versionDrift) (txn : RwTxn) (raw : Bytes) :
    Avoids versionDrift (decodeRw env txn raw) := by
  have body : Avoids versionDrift (payloadBody env txn raw) := by
    unfold payloadBody
    split <;> simp [quiet.decompress]
  simp [decodeRw, body]

theorem indexedJson_avoids (quiet : env.Avoid versionDrift) (txn : RwTxn) (lev : Nat) :
    Avoids versionDrift (indexedJson env txn lev) := by
  unfold indexedJson
  split <;> simp [decodeRw_avoids quiet]

theorem unindexSearch_avoids (quiet : env.Avoid versionDrift) (txn : RwTxn) (lev : Nat)
    (kind : Option Nat) (json : Option Bytes) :
    Avoids versionDrift (unindexSearch env txn lev kind json) := by
  unfold unindexSearch
  split
  · simp
  · split <;> simp [removeEventSearch, quiet.search]

section Removal

variable {preserved forgot unindexed : RwTxn} {kind : Option Nat} {json : Option Bytes}
  (preserve : preserveHighWater txn = .ok preserved)
  (forget : forgetAuthor preserved lev = .ok (kind, forgot))
  (search : unindexSearch env (forgot.delKey Dbis.eventPayload (u64NeBytes lev)) lev kind json
    = .ok unindexed)

include preserve forget search

/-- What a removal does up to the index entries. -/
theorem deleteEventBasic_staged :
    unindexed.supersededEvents = txn.supersededEvents ∧
    unindexed.get Dbis.state supersededKey = txn.get Dbis.state supersededKey ∧
    ∀ d, d ∉ [Dbis.state, Dbis.eventPayload, Dbis.eventSearch] →
      unindexed.tables.rows d = txn.tables.rows d := by
  obtain ⟨_, rfl⟩ := preserveHighWater_eq preserve
  have forgotten : forgot.supersededEvents = txn.supersededEvents ∧
      forgot.get Dbis.state supersededKey = txn.get Dbis.state supersededKey := by
    rcases forgetAuthor_eq forget with rfl | ⟨_, _, _, author, rfl⟩
    · exact ⟨rfl, rfl⟩
    · obtain ⟨cached, kept⟩ := changeAuthorCount_versions author
      exact ⟨cached, (Tables.get_put_of_ne (by decide) (by decide)).trans kept⟩
  have rows : ∀ d, d ∉ [Dbis.state, Dbis.eventPayload, Dbis.eventSearch] →
      unindexed.tables.rows d = txn.tables.rows d :=
    ((forgetAuthor_touches forget).mono (by decide)).trans ((touches_delKey (by decide) _).trans
      ((unindexSearch_alters search).touches.mono (by decide)))
  have stored := (Tables.get_congr ((unindexSearch_alters search).touches Dbis.state (by decide))
    supersededKey).trans (Tables.get_congr (Tables.rows_delKey_of_ne (by decide)) _)
  obtain ⟨t, rfl⟩ := (unindexSearch_alters search).only
  exact ⟨forgotten.1, stored.trans forgotten.2, rows⟩

/-- The record and its index entries go, and the count follows them. -/
theorem removeRecord_counter (exact : Exact env.host txn.tables) (counter : VersionCounter txn)
    (held : Holds txn.tables lev p) :
    ∃ txn', removeRecord env.host unindexed lev = .ok txn' ∧ VersionCounter txn' := by
  obtain ⟨cached, stored, rows⟩ := deleteEventBasic_staged preserve forget search
  have replace := rows Dbis.eventReplace (by decide)
  have count : superseded unindexed.tables = superseded txn.tables :=
    superseded_same (.of_eq replace)
  have here : Holds unindexed.tables lev p := by
    unfold Holds
    rw [rows Dbis.event (by decide)]
    exact held
  have posted : ∀ key, replaceKey p = some key →
      (key, u64NeBytes lev) ∈ unindexed.tables.rows Dbis.eventReplace := by
    intro key found
    rw [replace]
    refine (exact.index _ (by decide) _).mpr ⟨lev, p, held, ?_, rfl⟩
    rw [posts_replace]
    simp [indexEvent, found]
  have small : superseded unindexed.tables < 2 ^ 64 := count ▸ superseded_lt exact
  have counter' := counter.same cached stored replace
  have load := counter'.load small (replace ▸ exact.keysParse) p.kind
  obtain ⟨t, run, moved, side⟩ := removeRecord_counts env.host here posted load
  refine ⟨_, run, counter'.moved (p := p) rfl ?_ fun plain => ?_⟩
  · exact Tables.get_congr (side _ (by decide)) _
  · rw [hasVersion_of_plain plain] at moved
    exact moved.symm

end Removal

/-- **Removing an event keeps the counter.** -/
theorem deleteEventBasic_counter {deleted : Bool} (exact : Exact env.host txn.tables)
    (counter : VersionCounter txn) (held : Holds txn.tables lev p)
    (run : deleteEventBasic env txn lev = .ok (deleted, txn')) : VersionCounter txn' := by
  obtain ⟨_, kind, forgot, json, unindexed, preserve, forget, _, search, record⟩ :=
    deleteEventBasic_eq run
  obtain ⟨txn', run, kept⟩ := removeRecord_counter preserve forget search exact counter held
  rw [run] at record
  cases record
  exact kept

/-- Removing an event does not fail for the counter. -/
theorem deleteEventBasic_avoids (quiet : env.Avoid versionDrift)
    (exact : Exact env.host txn.tables) (counter : VersionCounter txn)
    (held : Holds txn.tables lev p) : Avoids versionDrift (deleteEventBasic env txn lev) := by
  refine avoids_bind.mpr ⟨preserveHighWater_avoids _, fun preserved preserve => ?_⟩
  refine avoids_bind.mpr ⟨forgetAuthor_avoids _ _, fun ⟨kind, forgot⟩ forget => ?_⟩
  refine avoids_bind.mpr ⟨indexedJson_avoids quiet _ _, fun json _ => ?_⟩
  refine avoids_bind.mpr ⟨unindexSearch_avoids quiet _ _ _ _, fun unindexed search => ?_⟩
  obtain ⟨txn', run, _⟩ := removeRecord_counter preserve forget search exact counter held
  simp only [run, ok_bind]
  exact avoids_pure _ _

end Counter

/-! ### Runs -/

section Runs

variable {σ : Type} {env : Services} {sink : NegentropySink σ} {valid : EventToWrite → Prop}
  {Inv : RwTxn → Prop}

/-- The committed state and the open transaction of a run of the writer. -/
def writerRun (env : Services) (sink : NegentropySink σ) (start : Tables) (trees : σ)
    (acts : List (Act WriterCall)) : Opened (Tables × σ) (Writer σ) :=
  let calls := transactions (WriterCall.apply env sink)
  calls.run (calls.start (start, trees)) acts

/-- **What the changes, the marker of a batch and commits keep holds in every run.** -/
theorem KeptByWriter.run (kept : KeptByWriter env valid fun _ => Inv)
    (noted : ∀ {txn} first last, Inv txn → Inv (noteTagKindIndexed txn first last))
    (commits : ∀ {txn}, Inv txn → Inv (.begin (commit txn))) {start : Tables}
    (begun : Inv (.begin start)) (trees : σ) {acts : List (Act WriterCall)}
    (all : ∀ c, Act.call c ∈ acts → c.All valid) :
    Inv (.begin (writerRun env sink start trees acts).committed.1) ∧
      Inv (writerRun env sink start trees acts).txn.txn := by
  let calls := transactions (WriterCall.apply env sink)
  refine Transactional.run_invariant (m := calls) (s := calls.start (start, trees))
    (fun w => Inv w.txn) (WriterCall.All valid) ?_ (fun w inv => commits inv) begun begun all
  intro c ok w w' inv run
  obtain ⟨written, next⟩ := @KeptByWriter.call σ env sink valid (fun _ => Inv) kept
    (fun first last => noted first last) [] w w' c ok inv run
  exact next

end Runs

/-! ### The invariant -/

/-- **Exact index tables, and a counter that is exact or absent.** -/
structure Versioned (host : Host) (txn : RwTxn) : Prop where
  exact : Exact host txn.tables
  counter : VersionCounter txn
  authors : ∀ c ∈ txn.authorCounts, ∃ pubkey, c.1 = authorKey pubkey

section Versioned

variable {host : Host} {env : Services} {txn txn' : RwTxn} {lev : Nat} {p : PackedEvent}

theorem cacheCount_authors (authors : ∀ c ∈ txn.authorCounts, ∃ pubkey, c.1 = authorKey pubkey)
    (pubkey : Bytes) (n : Nat) :
    ∀ c ∈ (cacheCount txn (authorKey pubkey) n).authorCounts, ∃ pubkey, c.1 = authorKey pubkey := by
  intro c member
  rcases mem_of_mem_insertBy member with rfl | old
  · exact ⟨pubkey, rfl⟩
  · exact authors c old

theorem changeAuthorCount_cached {pubkey : Bytes} {insert : Bool}
    (authors : ∀ c ∈ txn.authorCounts, ∃ pubkey, c.1 = authorKey pubkey)
    (run : changeAuthorCount txn pubkey insert = .ok txn') :
    ∀ c ∈ txn'.authorCounts, ∃ pubkey, c.1 = authorKey pubkey := by
  rcases changeAuthorCount_eq run with rfl | ⟨_, rfl⟩ | rfl
  · exact authors
  · exact cacheCount_authors authors pubkey _
  · exact fun c member => authors c (mem_of_mem_filter member)

theorem overQuota_versions {authorQuota : Nat} {levs : List Nat} {refused : Bool}
    (authors : ∀ c ∈ txn.authorCounts, ∃ pubkey, c.1 = authorKey pubkey)
    (run : overQuota authorQuota txn p levs = .ok (refused, txn')) :
    txn'.supersededEvents = txn.supersededEvents ∧
      ∀ c ∈ txn'.authorCounts, ∃ pubkey, c.1 = authorKey pubkey := by
  rcases overQuota_eq run with rfl | ⟨_, rfl⟩
  · exact ⟨rfl, authors⟩
  · exact ⟨rfl, cacheCount_authors authors p.pubkey _⟩

theorem Versioned.mark {policy : VanishPolicy} (versioned : Versioned host txn)
    (run : markRequest policy txn p = .ok txn') : Versioned host txn' := by
  obtain ⟨only, state⟩ := markRequest_state run
  have same := (markRequest_touches run).samePrimary (by decide)
  obtain ⟨t, rfl⟩ := only
  exact ⟨versioned.exact.same same, versioned.counter.same rfl
    (state _ (by decide) (by decide)) (same.index (by decide)), versioned.authors⟩

theorem Versioned.note (versioned : Versioned host txn) (first last : Nat) :
    Versioned host (noteTagKindIndexed txn first last) := by
  have touches := noteTagKindIndexed_touches txn first last
  obtain ⟨t, only⟩ := noteTagKindIndexed_onlyTables txn first last
  rw [only] at touches ⊢
  exact ⟨versioned.exact.same (touches.samePrimary (by decide)), versioned.counter.same rfl
    (Tables.get_congr (touches _ (by decide)) _) (touches _ (by decide)), versioned.authors⟩

theorem Versioned.counted {authorQuota : Nat} {levs : List Nat} {refused : Bool}
    (versioned : Versioned host txn)
    (quota : overQuota authorQuota txn p levs = .ok (refused, txn')) : Versioned host txn' := by
  obtain ⟨cached, authors⟩ := overQuota_versions versioned.authors quota
  have tables := overQuota_tables quota
  refine ⟨tables ▸ versioned.exact, versioned.counter.same cached ?_ ?_, authors⟩
  · rw [RwTxn.get, tables]
    rfl
  · rw [tables]

theorem Versioned.insert {json : Bytes} (versioned : Versioned host txn)
    (insert : insertEvent host txn p json = .ok (lev, txn')) : Versioned host txn' := by
  obtain ⟨counted, author, cached, _⟩ := insertEvent_authors insert
  refine ⟨versioned.exact.add (insertEvent_adds insert),
    (insertEvent_counter versioned.exact versioned.counter _ _).2 _ _ insert, ?_⟩
  rw [cached]
  exact changeAuthorCount_cached versioned.authors author

/-- **The calls of the writer keep the counter.** -/
theorem versioned_kept (env : Services) :
    KeptByWriter env (fun _ => True) fun _ => Versioned env.host where
  counted versioned quota := versioned.counted quota
  stored _ _ _ _ versioned mark insert := (versioned.mark mark).insert insert
  removed held versioned run := by
    obtain ⟨preserved, counted, preserve, author, cached, _⟩ := deleteEventBasic_authors held run
    obtain ⟨sequence, rfl⟩ := preserveHighWater_eq preserve
    refine ⟨versioned.exact.remove (deleteEventBasic_removes held run),
      deleteEventBasic_counter versioned.exact versioned.counter held run, ?_⟩
    rw [cached]
    exact changeAuthorCount_cached (by exact versioned.authors) author

theorem commit_samePrimary (txn : RwTxn) : SamePrimary txn.tables (commit txn) := fun d inside =>
  flush_touches txn d fun state => by
    rw [mem_singleton.mp state] at inside
    exact absurd inside (by decide)

/-- **A commit stores the counter.** -/
theorem Versioned.commit (versioned : Versioned host txn) :
    Versioned host (.begin (commit txn)) := by
  have same := commit_samePrimary txn
  have stored : (Wok.Db.commit txn).get Dbis.state supersededKey
      = flushed txn.supersededEvents (txn.get Dbis.state supersededKey) := by
    have authors : ∀ c ∈ txn.authorCounts, c.1 ≠ supersededKey := fun c member => by
      obtain ⟨pubkey, same⟩ := versioned.authors c member
      exact same ▸ authorKey_ne_state (by decide)
    have cached : (flushSequence txn).supersededEvents = txn.supersededEvents := by
      unfold flushSequence
      split <;> rfl
    show (flushAuthors (flushSuperseded (flushSequence txn))).get Dbis.state supersededKey = _
    rw [flushAuthors_get (flushCounters_authors txn ▸ authors), flushSuperseded_get, if_pos rfl,
      cached, flushSequence_get, if_neg (by decide)]
  refine ⟨versioned.exact.same same, ?_, fun c member => by cases member⟩
  have count : superseded (Wok.Db.commit txn) = superseded txn.tables :=
    superseded_same (.of_eq (same.index (by decide)))
  show Counts none ((Wok.Db.commit txn).get Dbis.state supersededKey)
    (superseded (Wok.Db.commit txn)) ∨ none = none ∧
      (Wok.Db.commit txn).get Dbis.state supersededKey = none
  rw [stored, count]
  rcases versioned.counter with counts | ⟨cached, absent⟩
  · exact .inl (.inr ⟨rfl, flushed_of_counts counts⟩)
  · exact .inr ⟨rfl, by rw [cached, absent]; rfl⟩

end Versioned

/-! ### Calls do not fail for the counter -/

section Judging

variable {env : Services}

@[simp] theorem u64FromNeChecked_avoids (raw : Bytes) :
    Avoids versionDrift (u64FromNeChecked raw) := by
  simp [u64FromNeChecked]

@[simp] theorem lookupEventById_avoids (txn : RwTxn) (id : Bytes) :
    Avoids versionDrift (lookupEventById txn id) := by
  unfold lookupEventById
  split <;> simp

@[simp] theorem hashedTagOriginals_avoids (host : Host) (json : Bytes) (name : String) :
    Avoids versionDrift (hashedTagOriginals host json name) := by
  simp [hashedTagOriginals]

@[simp] theorem isDeletionProtectedJson_avoids (host : Host) (p : PackedEvent) (json : Bytes) :
    Avoids versionDrift (isDeletionProtectedJson host p json) := by
  unfold isDeletionProtectedJson
  refine avoids_bind.mpr ⟨avoids_mapError event_ne_versionDrift, fun event _ => ?_⟩
  split <;> simp

theorem firstRefusal_avoids {e : DbError} {checks : List Check}
    (avoid : ∀ check ∈ checks, Avoids e check) : Avoids e (firstRefusal checks) := by
  induction checks with
  | nil => exact avoids_ok _ _
  | cons check checks ih =>
    refine avoids_bind.mpr ⟨avoid check (.head _), fun refused _ => ?_⟩
    cases refused with
    | some status => exact avoids_pure _ _
    | none => exact ih fun check member => avoid check (.tail _ member)

@[simp] theorem refusal_avoids (host : Host) (policy : VanishPolicy) (txn : RwTxn)
    (p : PackedEvent) (json : Bytes) :
    Avoids versionDrift (refusal host policy txn p json) := by
  have vanished : Avoids versionDrift (authorVanished host txn p json) := by
    unfold authorVanished
    split
    · simp
    · split <;> simp
  refine firstRefusal_avoids ?_
  simp [checkDuplicate, checkVanishTarget, checkVanished, checkIdTombstone,
    checkRecipientTombstone, refuseIf, isEventVanishedRwWithJson, vanished]

@[simp] theorem foreachReplacement_avoids {α : Type} (txn : RwTxn) (key : Bytes)
    (f : α → Nat → PackedEvent → α × Bool) (state : α) :
    Avoids versionDrift (foreachReplacement txn key f state) := by
  unfold foreachReplacement
  generalize List.takeWhile _ _ = rows
  induction rows generalizing state with
  | nil => exact avoids_ok _ _
  | cons e rows ih => simp [visitReplacements, avoids_okOr, ih]

@[simp] theorem checkVersions_avoids (host : Host) (txn : RwTxn) (p : PackedEvent) (json : Bytes)
    (status : EventWriteStatus) : Avoids versionDrift (checkVersions host txn p json status) := by
  have original : ∀ d, Avoids versionDrift (originalTagValue host json "d" d) := fun d => by
    unfold originalTagValue
    split <;> simp [avoids_okOr]
  have covers : ∀ digest, Avoids versionDrift (tombstoneCovers txn digest p.createdAt) := by
    intro digest
    unfold tombstoneCovers
    split <;> simp [parseKeyStringU64]
  unfold checkVersions
  refine avoids_ite.mpr ⟨fun _ => ?_, fun _ => avoids_ok _ _⟩
  split <;> simp [addressDeleted, original, covers]

theorem requestStep_avoids (quiet : env.Avoid versionDrift) (txn : RwTxn) (deletion : PackedEvent)
    (longAddresses : List (Bytes × Bytes)) (levs : List Nat) (tag : PackedEventTag) :
    Avoids versionDrift (requestStep env txn deletion longAddresses levs tag) := by
  have own : ∀ lev other, Avoids versionDrift (canDelete env txn deletion lev other) := by
    simp [canDelete, ownUnprotected, isDeletionProtectedRw, avoids_okOr, decodeRw_avoids quiet]
  have address : Avoids versionDrift
      (pushAddressDeletions env.host txn deletion tag.value longAddresses levs) := by
    unfold pushAddressDeletions
    split <;> simp
  simp only [requestStep, avoids_ite, avoids_bind, lookupEventById_avoids, true_and, address,
    avoids_ok, implies_true, and_true]
  rintro _ (_ | ⟨lev, buf⟩) _ <;> simp [own]

theorem judge_avoids (quiet : env.Avoid versionDrift) (policy : VanishPolicy) (txn : RwTxn)
    (p : PackedEvent) (e : EventToWrite) : Avoids versionDrift (judge env policy txn p e) := by
  have requested : ∀ levs, Avoids versionDrift (requestedDeletions env txn p e.json levs) := by
    intro levs
    simp only [requestedDeletions, longAddresses, avoids_ite, avoids_bind,
      hashedTagOriginals_avoids, avoids_ok, implies_true, and_true, true_and]
    intro _ originals _
    exact avoids_foldlM (fun _ => True) (fun _ _ _ _ _ _ => trivial)
      (fun levs tag _ _ => requestStep_avoids quiet txn p originals levs tag) trivial
  refine avoids_bind.mpr ⟨refusal_avoids _ _ _ _ _, ?_⟩
  rintro (_ | status) _ <;> simp [requested]

theorem overQuota_avoids (authorQuota : Nat) (txn : RwTxn) (p : PackedEvent) (levs : List Nat) :
    Avoids versionDrift (overQuota authorQuota txn p levs) := by
  have count : Avoids versionDrift (authorCount txn p.pubkey) := by
    unfold authorCount
    split
    · simp
    · split <;> simp
  have own : ∀ txn, Avoids versionDrift (levs.foldlM (ownRemoved txn p.pubkey) []) := fun txn =>
    avoids_foldlM (fun _ => True) (fun _ _ _ _ _ _ => trivial) (fun removed lev _ _ => by
      unfold ownRemoved
      split <;> simp) trivial
  simp [overQuota, count, own]

theorem markRequest_avoids (policy : VanishPolicy) (txn : RwTxn) (p : PackedEvent) :
    Avoids versionDrift (markRequest policy txn p) := by
  simp [markRequest, markVanished, countVanishMarkerChange, storedCounter_avoids]

end Judging

section Calls

variable {σ : Type} {env : Services} {sink : NegentropySink σ} {w : Writer σ}

/-- The sink does not fail with this error. -/
def NegentropySink.Avoid (sink : NegentropySink σ) (e : DbError) : Prop :=
  ∀ trees p insert, Avoids e (sink.update trees p insert)

theorem Versioned.removeEvent (quiet : env.Avoid versionDrift) (accepts : sink.Avoid versionDrift)
    (versioned : Versioned env.host w.txn) {lev : Nat} (small : lev < 2 ^ 64) :
    Avoids versionDrift (removeEvent env sink w lev) := by
  unfold Wok.Db.removeEvent
  split
  · exact avoids_ok _ _
  · rename_i buf found
    refine avoids_bind.mpr ⟨viewPacked_avoids _, fun p viewed => ?_⟩
    have held := holds_of_get small ((viewPacked_eq viewed).symm ▸ found)
    simp [accepts _ _ _, deleteEventBasic_avoids quiet versioned.exact versioned.counter held]

/-- The event is stored, and what it removes is removed. -/
theorem Versioned.storeEvent (quiet : env.Avoid versionDrift) (accepts : sink.Avoid versionDrift)
    (versioned : Versioned env.host w.txn) {policy : VanishPolicy} {e : EventToWrite}
    {p : PackedEvent} {levs : List Nat} {judgedIn : RwTxn}
    (judged : judge env policy judgedIn p e = .ok (.pending, levs)) :
    Avoids versionDrift (storeEvent env sink policy w p e.json levs) := by
  refine avoids_bind.mpr ⟨markRequest_avoids policy w.txn p, fun marked mark => ?_⟩
  have ready := versioned.mark mark
  refine avoids_bind.mpr ⟨(insertEvent_counter ready.exact ready.counter p e.json).1,
    fun ⟨lev, inserted⟩ insert => ?_⟩
  refine avoids_bind.mpr ⟨accepts _ _ _, fun trees _ => avoids_bind.mpr ⟨?_, by simp⟩⟩
  refine avoids_foldlM (fun w : Writer σ => Versioned env.host w.txn) ?_ ?_ (ready.insert insert)
  · intro w lev w' member here step
    obtain ⟨⟨_, _⟩, removed, rfl⟩ := map_eq_ok.mp step
    exact (versioned_kept env).removeEvent [] (judge_small judged lev member) here removed
  · intro w lev member here
    exact avoids_map.mpr (here.removeEvent quiet accepts (judge_small judged lev member))

/-- **A call of the writer does not fail for the counter.** -/
theorem Versioned.apply (quiet : env.Avoid versionDrift) (accepts : sink.Avoid versionDrift)
    (versioned : Versioned env.host w.txn) (c : WriterCall) :
    Avoids versionDrift (c.apply env sink w) := by
  have kept := versioned_kept env
  cases c with
  | delete levs =>
    refine avoids_map.mpr (avoids_foldlM (fun done => Versioned env.host done.2.txn) ?_ ?_ versioned)
    · intro done lev done' _ here step
      simp only [deleteOne, bind_eq_ok, pure_eq_ok, Prod.exists] at step
      obtain ⟨_, w, removed, rfl⟩ := step
      exact kept.removeEvent [] lev.isLt here removed
    · intro done lev _ here
      simp [deleteOne, here.removeEvent quiet accepts lev.isLt]
  | write policy authorQuota evs =>
    refine avoids_map.mpr (avoids_bind.mpr ⟨?_, by simp⟩)
    refine avoids_foldlM (fun st => (∃ written, st.Wrote written) ∧ Versioned env.host st.writer.txn)
      ?_ ?_ ⟨⟨[], rfl, rfl⟩, versioned⟩
    · rintro st e st' _ ⟨⟨written, wrote⟩, here⟩ step
      obtain ⟨more, wrote', here', _⟩ := kept.writeOne [] trivial wrote here step
      exact ⟨⟨_, wrote'⟩, here'⟩
    · rintro st e _ ⟨_, here⟩
      refine avoids_bind.mpr ⟨viewPacked_avoids _, fun p _ => ?_⟩
      split
      · exact avoids_pure _ _
      · refine avoids_bind.mpr ⟨judge_avoids quiet policy _ p e, fun verdict judged => ?_⟩
        obtain ⟨status, levs⟩ := verdict
        refine avoids_ite.mpr ⟨fun _ => avoids_pure _ _, fun pending => ?_⟩
        obtain rfl := not_not.mp pending
        refine avoids_bind.mpr ⟨overQuota_avoids authorQuota _ p levs, fun answer quota => ?_⟩
        obtain ⟨above, counted⟩ := answer
        have here := here.counted quota
        refine avoids_ite.mpr ⟨fun _ => avoids_pure _ _, fun _ => avoids_bind.mpr ⟨?_, by simp⟩⟩
        exact Versioned.storeEvent (w := ⟨counted, _⟩) quiet accepts here judged

end Calls

end Wok.Db
