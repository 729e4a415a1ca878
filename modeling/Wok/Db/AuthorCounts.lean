/-
**Author counts.**

An author is counted when a quota asks for it, at any moment of a transaction; from then on every
insertion and removal moves the count, in the transaction until it commits and in the state table
afterwards.

* `countEvents_eq` — the author index lists the stored events of an author.
* `Counted` — **every count that is known is the number of stored events**; the changes of the
  writer and a commit keep it.
* `author_counts_exact` — **at every point of every run `author_count` is exact, no counter is found
  too low, and a quota holds once an event is written under it.**
-/

import Wok.Db.Keeps

namespace Wok.Db

open Wok.Library Wok.Event List

/-! ### The stored events of an author -/

/-- The record is an event of the author. -/
def byAuthor (pubkey : Bytes) (e : Kv) : Bool :=
  match PackedEvent.new e.2 with
  | .ok p => p.pubkey = pubkey
  | .error _ => false

/-- How many events of the author are stored. -/
def storedBy (t : Tables) (pubkey : Bytes) : Nat := (t.rows Dbis.event).countP (byAuthor pubkey)

section Stored

variable {host : Host} {t t' : Tables} {lev : Nat} {p : PackedEvent} {json pubkey : Bytes}

@[simp] theorem byAuthor_buf (key pubkey : Bytes) (p : PackedEvent) :
    byAuthor pubkey (key, p.buf) = decide (p.pubkey = pubkey) := by
  simp only [byAuthor, PackedEvent.new_buf]

theorem storedBy_same (same : t'.rows Dbis.event = t.rows Dbis.event) (pubkey : Bytes) :
    storedBy t' pubkey = storedBy t pubkey := by rw [storedBy, storedBy, same]

theorem storedBy_le (t : Tables) (pubkey : Bytes) :
    storedBy t pubkey ≤ (t.rows Dbis.event).length := countP_le_length

theorem storedBy_cons (key : Bytes)
    (rows : (t'.rows Dbis.event).Perm ((key, p.buf) :: t.rows Dbis.event)) (pubkey : Bytes) :
    storedBy t' pubkey = storedBy t pubkey + if p.pubkey = pubkey then 1 else 0 := by
  rw [storedBy, rows.countP_eq, countP_cons, byAuthor_buf]
  simp only [decide_eq_true_eq]
  rfl

theorem Adds.storedBy (adds : Adds host t t' lev p json) (pubkey : Bytes) :
    storedBy t' pubkey = storedBy t pubkey + if p.pubkey = pubkey then 1 else 0 :=
  storedBy_cons _ adds.perm pubkey

theorem Removes.storedBy (removes : Removes host t t' lev p) (pubkey : Bytes) :
    storedBy t pubkey = storedBy t' pubkey + if p.pubkey = pubkey then 1 else 0 :=
  storedBy_cons _ removes.perm pubkey

theorem storedBy_pos (held : Holds t lev p) : 0 < storedBy t p.pubkey :=
  countP_pos_iff.mpr ⟨_, held.2, by rw [byAuthor_buf, decide_eq_true_eq]⟩

/-- An entry of the author index is the author and time of a stored event. -/
theorem Exact.mem_eventPubkey (exact : Exact host t) {e : Kv} :
    e ∈ t.rows Dbis.eventPubkey ↔ ∃ lev p, Holds t lev p ∧
      e = (makeKeyStringU64 p.pubkey p.createdAt, u64NeBytes lev) := by
  rw [exact.index _ (by decide)]
  simp only [posts_pubkey, indexEvent, Option.toList_some, mem_singleton, Prod.ext_iff]

/-- The entries of an author lie together, from the first key of the author on. -/
theorem Exact.mem_authorEntries {txn : RwTxn} (exact : Exact host txn.tables)
    (length : pubkey.length = 32) {e : Kv} :
    e ∈ (txn.tables.scan Dbis.eventPubkey (makeKeyStringU64 pubkey 0) (u64NeBytes 0) false).takeWhile
        (fun e => pubkey.isPrefixOf e.1) ↔
      ∃ lev p, Holds txn.tables lev p ∧ p.pubkey = pubkey ∧
        e = (makeKeyStringU64 p.pubkey p.createdAt, u64NeBytes lev) := by
  have begins : ∀ p : PackedEvent, pubkey.isPrefixOf (makeKeyStringU64 p.pubkey p.createdAt) = true
      ↔ p.pubkey = pubkey := fun p => isPrefixOf_makeKey (p.pubkey_length.trans length.symm)
  have side : ∀ e : Kv, View.onSide Dbis.eventPubkey (makeKeyStringU64 pubkey 0) (u64NeBytes 0) false e
      = true ↔ entryCode Dbis.eventPubkey (makeKeyStringU64 pubkey 0, u64NeBytes 0)
        ≤ entryCode Dbis.eventPubkey e := fun e =>
    Tables.onSide_pair (by decide) (makeKey_ne_nil _ _) (u64NeBytes_ne_nil _)
  rw [mem_takeWhile_of_pairwise (Tables.scan_sorted txn.tables _ _ _ false), Tables.mem_scan,
    exact.mem_eventPubkey]
  · constructor
    · rintro ⟨⟨⟨lev, p, held, rfl⟩, _⟩, starts⟩
      exact ⟨lev, p, held, (begins p).mp starts, rfl⟩
    · rintro ⟨lev, p, held, rfl, rfl⟩
      refine ⟨⟨⟨lev, p, held, rfl⟩, (side _).mpr ?_⟩, (begins p).mpr rfl⟩
      rw [entry_le_iff, cmpEntry, cmpKey_string rfl _ _ (Nat.two_pow_pos 64) p.createdAt_lt,
        cmpDup_u64 rfl rfl (Nat.two_pow_pos 64) held.1, cmp_self_eq_eq]
      exact cmp_zero_then _ _
  · -- Between the first key of the author and an entry of the author there is no other author.
    intro a inside b inside' less starts
    obtain ⟨memberA, after⟩ := Tables.mem_scan.mp inside
    obtain ⟨lev, p, _, rfl⟩ := exact.mem_eventPubkey.mp memberA
    obtain ⟨lev', q, _, rfl⟩ := exact.mem_eventPubkey.mp (Tables.mem_scan.mp inside').1
    have low := string_le_of_entry_le rfl (Nat.two_pow_pos 64) p.createdAt_lt ((side _).mp after)
    have less : entryCode Dbis.eventPubkey (makeKeyStringU64 p.pubkey p.createdAt, u64NeBytes lev)
        < entryCode Dbis.eventPubkey (makeKeyStringU64 q.pubkey q.createdAt, u64NeBytes lev') := less
    have high := string_le_of_entry_le rfl p.createdAt_lt q.createdAt_lt less.le
    rw [(begins q).mp starts] at high
    exact (begins p).mpr (le_antisymm high low)

/-- The keys of the records of an author. -/
def authorKeys (t : Tables) (pubkey : Bytes) : List Bytes :=
  ((t.rows Dbis.event).filter (byAuthor pubkey)).map Prod.fst

theorem length_authorKeys (t : Tables) (pubkey : Bytes) :
    (authorKeys t pubkey).length = storedBy t pubkey := by
  rw [authorKeys, length_map, storedBy, countP_eq_length_filter]

theorem authorKeys_nodup (t : Tables) (pubkey : Bytes) : (authorKeys t pubkey).Nodup := by
  refine List.Nodup.map_on ?_ ((t.sorted _).filter _).nodup
  intro x left y right same
  exact Tables.plain_unique (by decide) (mem_of_mem_filter left)
    (mem_of_mem_filter right) same

theorem Holds.mem_authorKeys (held : Holds t lev p) : u64NeBytes lev ∈ authorKeys t p.pubkey :=
  mem_map.mpr ⟨_, mem_filter.mpr
    ⟨held.2, by rw [byAuthor_buf, decide_eq_true_eq]⟩, rfl⟩

theorem Exact.mem_authorKeys (exact : Exact host t) {key : Bytes} :
    key ∈ authorKeys t pubkey ↔ ∃ lev p, Holds t lev p ∧ p.pubkey = pubkey ∧ key = u64NeBytes lev := by
  constructor
  · intro member
    obtain ⟨row, inside, rfl⟩ := mem_map.mp member
    obtain ⟨inRows, author⟩ := mem_filter.mp inside
    obtain ⟨lev, p, held, rfl⟩ := exact.records row inRows
    rw [byAuthor_buf, decide_eq_true_eq] at author
    exact ⟨lev, p, held, author, rfl⟩
  · rintro ⟨lev, p, held, rfl, rfl⟩
    exact held.mem_authorKeys

/-- **The author index lists the stored events of an author.** -/
theorem countEvents_eq {txn : RwTxn} (exact : Exact host txn.tables)
    (length : pubkey.length = 32) : countEvents txn pubkey = storedBy txn.tables pubkey := by
  have entry := fun e => exact.mem_authorEntries (e := e) length
  unfold countEvents
  generalize listed : (txn.tables.scan Dbis.eventPubkey _ _ false).takeWhile _ = entries
  rw [listed] at entry
  have nodup : entries.Nodup := by
    have scanned : (txn.tables.scan Dbis.eventPubkey (makeKeyStringU64 pubkey 0) (u64NeBytes 0)
      false).Nodup := (SortedBy.filter (txn.tables.sorted _) _).nodup
    exact listed ▸ scanned.sublist (takeWhile_sublist _)
  have values : (entries.map Prod.snd).Nodup := by
    refine List.Nodup.map_on ?_ nodup
    intro x left y right same
    obtain ⟨lev, p, held, _, rfl⟩ := (entry x).mp left
    obtain ⟨lev', q, held', _, rfl⟩ := (entry y).mp right
    obtain rfl := u64NeBytes_inj held.1 held'.1 same
    rw [held.unique held']
  have same : (entries.map Prod.snd).Perm (authorKeys txn.tables pubkey) := by
    refine (perm_ext_iff_of_nodup values (authorKeys_nodup _ _)).mpr fun value => ?_
    rw [exact.mem_authorKeys, mem_map]
    constructor
    · rintro ⟨e, member, rfl⟩
      obtain ⟨lev, p, held, author, rfl⟩ := (entry e).mp member
      exact ⟨lev, p, held, author, rfl⟩
    · rintro ⟨lev, p, held, author, rfl⟩
      exact ⟨_, (entry _).mpr ⟨lev, p, held, author, rfl⟩, rfl⟩
  rw [← length_authorKeys, ← same.length_eq, length_map]

end Stored

/-! ### Known counts -/

/-- The count is not known, or it is `n`. -/
def Knows (txn : RwTxn) (pubkey : Bytes) (n : Nat) : Prop :=
  knownCount txn (authorKey pubkey) = .ok none ∨ knownCount txn (authorKey pubkey) = .ok (some n)

/-- Every count that is known is the one `count` gives. -/
structure Knowing (txn : RwTxn) (count : Bytes → Nat) : Prop where
  distinct : SortedBy Prod.fst txn.authorCounts
  known : ∀ pubkey, pubkey.length = 32 → Knows txn pubkey (count pubkey)

/-- A deletion of an event of the author finds the counter at 0. -/
def Drifts (txn : RwTxn) (pubkey : Bytes) : Prop :=
  knownCount txn (authorKey pubkey) = .ok (some 0)

/-- An insertion of an event of the author finds the counter at its greatest value. -/
def Overflows (txn : RwTxn) (pubkey : Bytes) : Prop :=
  ∃ old, knownCount txn (authorKey pubkey) = .ok (some old) ∧ 2 ^ 64 ≤ old + 1

section Known

variable {txn txn' : RwTxn} {count count' : Bytes → Nat} {pubkey author : Bytes}

theorem authorKey_inj {pubkey pubkey' : Bytes} :
    authorKey pubkey = authorKey pubkey' ↔ pubkey = pubkey' := by simp [authorKey]

theorem knownCount_congr {key : Bytes} (cached : txn'.authorCounts = txn.authorCounts)
    (stored : txn'.get Dbis.state key = txn.get Dbis.state key) :
    knownCount txn' key = knownCount txn key := by
  simp only [knownCount, cachedCount, cached, stored]

theorem knownCount_cacheCount (key key' : Bytes) (n : Nat) :
    knownCount (cacheCount txn key' n) key
      = if key = key' then .ok (some n) else knownCount txn key := by
  have cached : cachedCount (cacheCount txn key' n) key
      = if key = key' then some n else cachedCount txn key :=
    lookup_insertBy txn.authorCounts key key' n
  unfold knownCount
  rw [cached]
  split_ifs
  · rfl
  · rfl

section Knowing

variable (knowing : Knowing txn count)

include knowing

theorem Knowing.keep (cached : txn'.authorCounts = txn.authorCounts)
    (stored : ∀ pubkey, txn'.get Dbis.state (authorKey pubkey)
      = txn.get Dbis.state (authorKey pubkey)) : Knowing txn' count where
  distinct := cached.symm ▸ knowing.distinct
  known pubkey length := by
    unfold Knows
    rw [knownCount_congr cached (stored pubkey)]
    exact knowing.known pubkey length

theorem Knowing.congr (same : ∀ pubkey, count' pubkey = count pubkey) : Knowing txn count' :=
  (funext same : count' = count) ▸ knowing

/-- A count that is known moves to the new one. -/
theorem Knowing.cache (others : ∀ pubkey, author ≠ pubkey → count' pubkey = count pubkey) :
    Knowing (cacheCount txn (authorKey author) (count' author)) count' where
  distinct := sortedBy_insertBy knowing.distinct _
  known pubkey length := by
    unfold Knows
    rw [knownCount_cacheCount]
    by_cases same : pubkey = author
    · subst same
      rw [if_pos rfl]
      exact .inr rfl
    · rw [if_neg (mt authorKey_inj.mp same), others pubkey (Ne.symm same)]
      exact knowing.known pubkey length

theorem Knowing.unknown (unknown : knownCount txn (authorKey author) = .ok none)
    (others : ∀ pubkey, author ≠ pubkey → count' pubkey = count pubkey) : Knowing txn count' where
  distinct := knowing.distinct
  known pubkey length := by
    by_cases same : author = pubkey
    · subst same
      exact .inl unknown
    · rw [others pubkey same]
      exact knowing.known pubkey length

theorem Knowing.eq_count {n : Nat} (length : pubkey.length = 32)
    (found : knownCount txn (authorKey pubkey) = .ok (some n)) : n = count pubkey := by
  rcases knowing.known pubkey length with unknown | known
  · rw [unknown] at found
    cases found
  · rw [known] at found
    exact (Option.some.inj (Except.ok.inj found)).symm

/-- An event of the author comes or goes: the counter is not found at 0. -/
theorem Knowing.change {inserted : Bool} (length : author.length = 32)
    (run : changeAuthorCount txn author inserted = .ok txn') (moved : ∀ pubkey, bif inserted
      then count' pubkey = count pubkey + if author = pubkey then 1 else 0
      else count pubkey = count' pubkey + if author = pubkey then 1 else 0) :
    Knowing txn' count' := by
  have others : ∀ pubkey, author ≠ pubkey → count' pubkey = count pubkey := fun pubkey other => by
    cases inserted <;> simpa [other, eq_comm] using moved pubkey
  have here := moved author
  simp only [changeAuthorCount, bind_eq_ok] at run
  obtain ⟨known, found, run⟩ := run
  cases known with
  | none =>
    cases run
    exact knowing.unknown found others
  | some n =>
    obtain rfl := knowing.eq_count length found
    cases inserted with
    | true =>
      simp only [if_true, bind_eq_ok, ensure_eq_ok, pure_eq_ok] at run
      obtain ⟨_, _, rfl⟩ := run
      rw [cond_true, if_pos rfl] at here
      exact here ▸ knowing.cache others
    | false =>
      rw [cond_false, if_pos rfl] at here
      simp only [Bool.false_eq_true, if_false, here, Nat.add_one_ne_zero, Nat.add_sub_cancel] at run
      cases run
      exact knowing.cache others

end Knowing

/-- **A known count is what `author_count` answers**; it counts the events when there is none. -/
theorem Knowing.authorCount {host : Host} (knowing : Knowing txn (storedBy txn.tables))
    (exact : Exact host txn.tables) (length : pubkey.length = 32) :
    ∃ txn', authorCount txn pubkey = .ok (storedBy txn.tables pubkey, txn') ∧
      Knowing txn' (storedBy txn.tables) := by
  have known := knowing.known pubkey length
  unfold Knows knownCount at known
  unfold Wok.Db.authorCount
  cases cached : cachedCount txn (authorKey pubkey) with
  | some n =>
    rw [cached] at known
    obtain rfl : n = _ := by simpa using known
    exact ⟨txn, rfl, knowing⟩
  | none =>
    rw [cached] at known
    cases stored : txn.get Dbis.state (authorKey pubkey) with
    | some raw =>
      simp only [stored] at known
      have read : decodeCounter raw = .ok (storedBy txn.tables pubkey) := by
        rcases known with known | known
        · obtain ⟨_, _, other⟩ := map_eq_ok.mp known
          cases other
        · obtain ⟨n, read, same⟩ := map_eq_ok.mp known
          rw [read, Option.some.inj same]
      refine ⟨txn, ?_, knowing⟩
      simp only [read]
      rfl
    | none =>
      refine ⟨cacheCount txn (authorKey pubkey) (storedBy txn.tables pubkey), ?_,
        knowing.cache fun _ _ => rfl⟩
      rw [← countEvents_eq exact length]

end Known

/-! ### The changes of the writer -/

section Changes

variable {host : Host} {env : Services} {txn txn' : RwTxn} {lev : Nat} {p : PackedEvent}

theorem OnlyTables.authors (only : OnlyTables txn txn') : txn'.authorCounts = txn.authorCounts := by
  obtain ⟨t, rfl⟩ := only
  rfl

/-- Storing an event moves the count of its author, and nothing else touches the state table. -/
theorem insertEvent_authors {json : Bytes} (run : insertEvent host txn p json = .ok (lev, txn')) :
    ∃ counted, changeAuthorCount txn p.pubkey true = .ok counted ∧
      txn'.authorCounts = counted.authorCounts ∧
      txn'.tables.rows Dbis.state = counted.tables.rows Dbis.state := by
  obtain ⟨counted, count, author, -, -, -, rfl⟩ := insertEvent_eq run
  refine ⟨counted, author, (putIndices_alters _ lev (indexEvent host p)).only.authors, ?_⟩
  exact (putIndices_touches _ (by decide)).trans (recorded_touches _ (by decide))

theorem removeRecord_authors (run : removeRecord host txn lev = .ok txn') :
    txn'.authorCounts = txn.authorCounts := by
  rcases removeRecord_form run with ⟨_, rfl⟩ | ⟨q, _, _, _, rfl⟩
  · rfl
  · exact (delIndices_alters _ lev (indexEvent host q)).only.authors

/-- Removing an event moves the count of its author; of the state table it also touches the
visibility generation. -/
theorem deleteEventBasic_authors {deleted : Bool} (held : Holds txn.tables lev p)
    (run : deleteEventBasic env txn lev = .ok (deleted, txn')) :
    ∃ preserved counted, preserveHighWater txn = .ok preserved ∧
      changeAuthorCount preserved p.pubkey false = .ok counted ∧
      txn'.authorCounts = counted.authorCounts ∧
      ∀ key, key ≠ policyGeneration →
        txn'.get Dbis.state key = counted.get Dbis.state key := by
  obtain ⟨_, kind, forgot, json, unindexed, preserve, author, _, search, record⟩ :=
    deleteEventBasic_eq run
  obtain ⟨rfl, counted, generation, change, rfl⟩ := forgetAuthor_held author held
  refine ⟨_, counted, preserve, change, ?_, fun key other => ?_⟩
  · rw [removeRecord_authors record, (unindexSearch_alters search).only.authors]
    rfl
  · rw [RwTxn.get, Tables.get_congr (removeRecord_touches record _ (by decide)),
      Tables.get_congr ((unindexSearch_alters search).touches _ (by decide))]
    exact (Tables.get_congr (Tables.rows_delKey_of_ne (by decide)) key).trans
      (Tables.get_put_of_ne (by decide) other)

theorem authorKey_ne_state {pubkey key : Bytes} (other : key.head? ≠ some 97) :
    authorKey pubkey ≠ key := fun same => other (same ▸ rfl)

end Changes

/-! ### The invariant -/

/-- **Every count that is known is the number of stored events.** -/
structure Counted (host : Host) (log : List StoredEvent) (txn : RwTxn) : Prop where
  logged : Logged host log txn
  knowing : Knowing txn (storedBy txn.tables)

section Counted

variable {host : Host} {env : Services} {log : List StoredEvent} {txn txn' : RwTxn} {lev : Nat}
  {p : PackedEvent}

/-- No more events are stored than the log has. -/
theorem Logs.rows_le {t : Tables} (logs : Logs host log t) :
    (t.rows Dbis.event).length ≤ log.length := by
  have keys : ((t.rows Dbis.event).map Prod.fst).Nodup := by
    refine List.Nodup.map_on ?_ (t.sorted _).nodup
    exact fun x left y right same => Tables.plain_unique (by decide) left right same
  have inside : (t.rows Dbis.event).map Prod.fst ⊆ log.map fun e => u64NeBytes e.levId := by
    intro key member
    obtain ⟨row, inRows, rfl⟩ := mem_map.mp member
    obtain ⟨lev, p, held, rfl⟩ := logs.exact.records row inRows
    obtain ⟨e, listed, rfl, _⟩ := logs.stored lev p held
    exact mem_map.mpr ⟨e, listed, rfl⟩
  calc (t.rows Dbis.event).length = ((t.rows Dbis.event).map Prod.fst).length :=
      (length_map _).symm
    _ ≤ (log.map fun e => u64NeBytes e.levId).length :=
      (subperm_of_subset keys inside).length_le
    _ = log.length := length_map _

theorem Counted.storedBy_lt (counted : Counted host log txn) (pubkey : Bytes) :
    storedBy txn.tables pubkey < 2 ^ 64 :=
  ((storedBy_le _ pubkey).trans counted.logged.logs.rows_le).trans_lt counted.logged.sequence.small

/-- A step that leaves the events, the sequence and the author counts. -/
theorem Counted.same (counted : Counted host log txn) (same : SamePrimary txn.tables txn'.tables)
    (keeps : KeepsSequence txn txn') (cached : txn'.authorCounts = txn.authorCounts)
    (stored : ∀ pubkey, txn'.get Dbis.state (authorKey pubkey)
      = txn.get Dbis.state (authorKey pubkey)) : Counted host log txn' :=
  ⟨counted.logged.same same keeps,
    (counted.knowing.keep cached stored).congr fun pubkey => storedBy_same same.event pubkey⟩

theorem Counted.insert {json : Bytes} (counted : Counted host log txn)
    (run : insertEvent host txn p json = .ok (lev, txn')) :
    Counted host (log ++ [⟨lev, p.buf, json⟩]) txn' := by
  have adds := insertEvent_adds run
  obtain ⟨changed, author, cached, state⟩ := insertEvent_authors run
  refine ⟨(counted.logged.insert run).2, ?_⟩
  refine Knowing.keep (counted.knowing.change p.pubkey_length author adds.storedBy) cached ?_
  exact fun pubkey => Tables.get_congr state _

theorem Counted.remove {deleted : Bool} (counted : Counted env.host log txn)
    (held : Holds txn.tables lev p)
    (run : deleteEventBasic env txn lev = .ok (deleted, txn')) : Counted env.host log txn' := by
  have removes := deleteEventBasic_removes held run
  obtain ⟨preserved, changed, preserve, author, cached, state⟩ := deleteEventBasic_authors held run
  obtain ⟨sequence, rfl⟩ := preserveHighWater_eq preserve
  have before : Knowing { txn with eventSequence := sequence } (storedBy txn.tables) :=
    counted.knowing.keep rfl fun _ => rfl
  refine ⟨counted.logged.remove held run,
    Knowing.keep (before.change p.pubkey_length author removes.storedBy) cached ?_⟩
  exact fun pubkey => state _ (authorKey_ne_state (by decide))

theorem Counted.quota {authorQuota : Nat} {levs : List Nat} {refused : Bool}
    (counted : Counted host log txn)
    (run : overQuota authorQuota txn p levs = .ok (refused, txn')) : Counted host log txn' := by
  have tables := overQuota_tables run
  refine ⟨counted.logged.same (samePrimary_of_tables tables) (overQuota_keeps run), ?_⟩
  rw [tables]
  unfold overQuota at run
  split_ifs at run
  · simp only [bind_eq_ok, pure_eq_ok, Prod.mk.injEq, Prod.exists] at run
    obtain ⟨_, _, count, _, _, _, rfl⟩ := run
    obtain ⟨_, answer, knowing⟩ :=
      counted.knowing.authorCount counted.logged.logs.exact p.pubkey_length
    rw [answer] at count
    cases count
    exact knowing
  · cases run
    exact counted.knowing

theorem Counted.mark {policy : VanishPolicy} (counted : Counted host log txn)
    (run : markRequest policy txn p = .ok txn') : Counted host log txn' := by
  obtain ⟨only, state⟩ := markRequest_state run
  refine counted.same (markRequest_touches run |>.samePrimary (by decide)) (markRequest_keeps run)
    only.authors ?_
  exact fun pubkey => state _ (authorKey_ne_state (by decide)) (authorKey_ne_state (by decide))

theorem Counted.note (counted : Counted host log txn) (first last : Nat) :
    Counted host log (noteTagKindIndexed txn first last) := by
  have touches := noteTagKindIndexed_touches txn first last
  refine counted.same (touches.samePrimary (by decide)) (noteTagKindIndexed_keeps txn first last)
    (noteTagKindIndexed_onlyTables txn first last).authors fun pubkey => ?_
  exact Tables.get_congr (touches _ (by decide)) _

/-- **The calls of the writer keep the counts.** -/
theorem counted_kept (env : Services) : KeptByWriter env (fun _ => True) (Counted env.host) where
  counted counted quota := counted.quota quota
  stored _ _ _ _ counted mark insert := (counted.mark mark).insert insert
  removed held counted run := counted.remove held run

theorem foldl_putCounter_get {counts : List (Bytes × Nat)} (distinct : SortedBy Prod.fst counts)
    (txn : RwTxn) (key : Bytes) :
    (counts.foldl (fun txn c => putCounter txn c.1 c.2) txn).get Dbis.state key
      = flushed (counts.lookup key) (txn.get Dbis.state key) := by
  induction counts generalizing txn with
  | nil => rfl
  | cons c counts ih =>
    obtain ⟨below, rest⟩ := pairwise_cons.mp distinct
    rw [foldl_cons, ih rest]
    by_cases same : c.1 = key
    · have absent : counts.lookup key = none := by
        refine Option.eq_none_iff_forall_ne_some.mpr fun n found => ?_
        exact (below _ ((lookup_eq_some rest).mp found)).ne same
      rw [absent, lookup_cons_eq, if_pos same.symm, ← same]
      exact Tables.get_put_self (by decide)
    · rw [lookup_cons_eq, if_neg (Ne.symm same)]
      exact congrArg _ (Tables.get_put_of_ne (by decide) (Ne.symm same))

theorem commit_author (distinct : SortedBy Prod.fst txn.authorCounts) (pubkey : Bytes) :
    (commit txn).get Dbis.state (authorKey pubkey)
      = flushed (cachedCount txn (authorKey pubkey)) (txn.get Dbis.state (authorKey pubkey)) := by
  have counts := flushCounters_authors txn
  show (flushAuthors (flushSuperseded (flushSequence txn))).get Dbis.state _ = _
  rw [flushAuthors, foldl_putCounter_get (counts ▸ distinct), counts, cachedCount]
  refine congrArg _ ?_
  show (flushSuperseded (flushSequence txn)).get Dbis.state (authorKey pubkey) = _
  rw [flushSuperseded_get, if_neg (authorKey_ne_state (by decide)), flushSequence_get,
    if_neg (authorKey_ne_state (by decide))]

/-- **A commit keeps the counts.** -/
theorem Counted.commit (counted : Counted host log txn) :
    Counted host log (.begin (commit txn)) := by
  have same : (Wok.Db.commit txn).rows Dbis.event = txn.tables.rows Dbis.event :=
    flush_touches txn _ (by decide)
  refine ⟨commit_logged counted.logged, List.Pairwise.nil, fun pubkey length => ?_⟩
  show Knows (.begin (Wok.Db.commit txn)) pubkey (storedBy (Wok.Db.commit txn) pubkey)
  rw [storedBy_same same]
  have known := counted.knowing.known pubkey length
  unfold Knows knownCount at known ⊢
  simp only [show cachedCount (.begin (Wok.Db.commit txn)) (authorKey pubkey) = none from rfl,
    show (RwTxn.begin (Wok.Db.commit txn)).get Dbis.state (authorKey pubkey) = _ from
      commit_author counted.knowing.distinct pubkey]
  cases cached : cachedCount txn (authorKey pubkey) with
  | none =>
    rw [cached] at known
    exact known
  | some n =>
    rw [cached] at known
    obtain rfl : n = _ := by simpa using known
    refine .inr ?_
    show (decodeCounter (u64NeBytes _)).map some = _
    rw [decodeCounter_bytes (counted.storedBy_lt pubkey)]
    rfl

theorem counted_fresh (host : Host) : Counted host [] (.begin .fresh) where
  logged := fresh_logged host
  knowing := ⟨List.Pairwise.nil, fun pubkey _ => .inl <| by
    have absent : (RwTxn.begin .fresh).get Dbis.state (authorKey pubkey) = none :=
      fresh_uncounted pubkey
    rw [knownCount, show cachedCount (.begin .fresh) (authorKey pubkey) = none from rfl, absent]⟩

/-- What is known in a transaction with exact counts. -/
theorem Counted.not_drifts (counted : Counted host log txn) (held : Holds txn.tables lev p) :
    ¬Drifts txn p.pubkey := by
  intro drifts
  exact (storedBy_pos held).ne (counted.knowing.eq_count p.pubkey_length drifts)

theorem Counted.overflows (counted : Counted host log txn) {pubkey : Bytes}
    (length : pubkey.length = 32) (overflows : Overflows txn pubkey) :
    storedBy txn.tables pubkey = 2 ^ 64 - 1 := by
  obtain ⟨old, found, large⟩ := overflows
  have small := counted.storedBy_lt pubkey
  obtain rfl := counted.knowing.eq_count length found
  omega

end Counted

/-! ### Quotas -/

section Quotas

variable {σ : Type} {host : Host} {env : Services} {sink : NegentropySink σ}
  {policy : VanishPolicy} {authorQuota : Nat} {log : List StoredEvent}
variable {levs removed : List Nat} {pubkey : Bytes} {p : PackedEvent}

/-- The local ids among `levs` that hold an event of the author, each once. -/
structure OwnAmong (t : Tables) (pubkey : Bytes) (levs removed : List Nat) : Prop where
  nodup : removed.Nodup
  listed : ∀ lev ∈ removed, lev ∈ levs
  own : ∀ lev ∈ removed, ∃ p, Holds t lev p ∧ p.pubkey = pubkey

theorem ownRemoved_own {txn : RwTxn} (small : SmallIds levs)
    (run : levs.foldlM (ownRemoved txn pubkey) [] = .ok removed) :
    OwnAmong txn.tables pubkey levs removed := by
  refine foldlM_preserves (OwnAmong txn.tables pubkey levs) ?_
    ⟨nodup_nil, by simp, by simp⟩ run
  intro removed lev removed' member own step
  unfold ownRemoved at step
  split at step
  · cases step
    exact own
  · rename_i raw found
    simp only [bind_eq_ok, pure_eq_ok] at step
    obtain ⟨p, viewed, rfl⟩ := step
    split_ifs with author
    · obtain rfl := viewPacked_eq viewed
      refine ⟨own.nodup.insert, fun n inside => ?_, fun n inside => ?_⟩
      · rcases mem_insert_iff.mp inside with rfl | old
        · exact member
        · exact own.listed n old
      · rcases mem_insert_iff.mp inside with rfl | old
        · exact ⟨p, holds_of_get (small n member) found, author⟩
        · exact own.own n old
    · exact own

theorem OwnAmong.storedBy_le {t t' : Tables} (own : OwnAmong t pubkey levs removed)
    (exact : Exact host t') (removes : RemovesAll t t' levs) :
    storedBy t' pubkey + removed.length ≤ storedBy t pubkey := by
  have nodup : (authorKeys t' pubkey ++ removed.map u64NeBytes).Nodup := by
    refine nodup_append'.mpr ⟨authorKeys_nodup _ _, List.Nodup.map_on ?_ own.nodup, ?_⟩
    · intro x inX y inY same
      obtain ⟨_, heldX, _⟩ := own.own x inX
      obtain ⟨_, heldY, _⟩ := own.own y inY
      exact u64NeBytes_inj heldX.1 heldY.1 same
    · intro key inLeft inRemoved
      obtain ⟨lev, p, held, _, rfl⟩ := exact.mem_authorKeys.mp inLeft
      obtain ⟨n, member, same⟩ := mem_map.mp inRemoved
      obtain ⟨_, heldN, _⟩ := own.own n member
      obtain rfl := u64NeBytes_inj heldN.1 held.1 same
      exact ((removes.stored n p).mp held).2 (own.listed n member)
  have inside : authorKeys t' pubkey ++ removed.map u64NeBytes ⊆ authorKeys t pubkey := by
    intro key member
    rcases mem_append.mp member with inLeft | inRemoved
    · obtain ⟨lev, p, held, rfl, rfl⟩ := exact.mem_authorKeys.mp inLeft
      exact ((removes.stored lev p).mp held).1.mem_authorKeys
    · obtain ⟨n, chosen, rfl⟩ := mem_map.mp inRemoved
      obtain ⟨p, held, rfl⟩ := own.own n chosen
      exact held.mem_authorKeys
  have bound := (subperm_of_subset nodup inside).length_le
  rwa [length_append, length_map, length_authorKeys, length_authorKeys] at bound

theorem OwnAmong.add {t t' : Tables} {json : Bytes} {lev : Nat}
    (own : OwnAmong t pubkey levs removed) (adds : Adds host t t' lev p json) :
    OwnAmong t' pubkey levs removed where
  nodup := own.nodup
  listed := own.listed
  own n member := by
    obtain ⟨q, held, author⟩ := own.own n member
    exact ⟨q, adds.stored.mpr (.inr held), author⟩

/-- **A quota that let an event pass holds once the event is stored** and what it removes is
removed. -/
theorem storeEvent_quota {w w' : Writer σ} {counted : RwTxn} {json : Bytes} {lev : Nat}
    (small : SmallIds levs) (exact : Counted env.host log w.txn) (some : authorQuota ≠ 0)
    (plain : p.kind ≠ vanishKind)
    (quota : overQuota authorQuota w.txn p levs = .ok (false, counted))
    (run : storeEvent env sink policy ⟨counted, w.trees⟩ p json levs = .ok (lev, w')) :
    storedBy w'.txn.tables p.pubkey ≤ authorQuota := by
  have after : Counted env.host log counted := exact.quota quota
  have tables := overQuota_tables quota
  simp only [overQuota, if_pos (And.intro some plain), bind_eq_ok, pure_eq_ok, Prod.mk.injEq,
    Prod.exists] at quota
  obtain ⟨count, _, answer, removed, own, within, rfl⟩ := quota
  obtain ⟨_, expected, _⟩ := exact.knowing.authorCount exact.logged.logs.exact p.pubkey_length
  obtain rfl : storedBy w.txn.tables p.pubkey = count := by
    rw [expected] at answer
    exact congrArg Prod.fst (Except.ok.inj answer)
  have among := ownRemoved_own small own
  simp only [storeEvent, bind_eq_ok, pure_eq_ok, Prod.mk.injEq, Prod.exists] at run
  obtain ⟨marked, mark, n, inserted, insert, trees, _, last, remove, rfl, rfl⟩ := run
  have before := after.mark mark
  have adds := (insertEvent_adds insert).of_same ((markRequest_touches mark).samePrimary (by decide))
  have next := before.insert insert
  obtain ⟨exact', removes⟩ := removeEvents_effect (w := ⟨inserted, trees⟩) small
    next.logged.logs.exact remove
  have left := (among.add adds).storedBy_le exact' removes
  have added := adds.storedBy p.pubkey
  have room := next.storedBy_lt p.pubkey
  rw [if_pos rfl, tables] at added
  rw [decide_eq_false_iff_not] at within
  have left : storedBy last.txn.tables p.pubkey + removed.length
      ≤ storedBy inserted.tables p.pubkey := left
  omega

/-- The last event of the batch was written. -/
def Batch.JustWrote (st : Batch σ) : Prop :=
  st.done.getLast?.map EventToWrite.status = some .written

theorem settle_justWrote {st : Batch σ} {e : EventToWrite} {status : EventWriteStatus}
    (wrote : (st.settle e status).JustWrote) : status = .written := by
  unfold Batch.JustWrote Batch.settle at wrote
  rw [getLast?_concat] at wrote
  exact Option.some.inj wrote

/-- **The quota of a batch holds right after an event is written.** -/
theorem writeOne_quota {st st' : Batch σ} {e : EventToWrite}
    (exact : Counted env.host log st.writer.txn) (new : e.status = .pending)
    (viewed : viewPacked e.packed = .ok p) (some : authorQuota ≠ 0) (plain : p.kind ≠ vanishKind)
    (run : writeOne env sink policy authorQuota st e = .ok st') (wrote : st'.JustWrote) :
    storedBy st'.writer.txn.tables p.pubkey ≤ authorQuota := by
  cases writeOne_round run with
  | copied copy => exact absurd (settle_justWrote wrote) (copyStatus_ne_written copy)
  | refused _ judged => exact absurd (settle_justWrote wrote) (judge_ne_written new judged)
  | exceeded => exact absurd (settle_justWrote wrote) (by decide)
  | written judged stored =>
    obtain rfl := Except.ok.inj (viewed.symm.trans judged.viewed)
    exact storeEvent_quota (judge_small judged.judged) exact some plain judged.quota stored

/-- The open transaction of a run on a fresh database. -/
def openedBy (env : Services) (sink : NegentropySink σ) (trees : σ)
    (acts : List (Act WriterCall)) : Writer σ :=
  let calls := transactions (WriterCall.apply env sink)
  (calls.run (calls.start (.fresh, trees)) acts).txn

theorem openedBy_call {trees : σ} {acts : List (Act WriterCall)} {c : WriterCall} {w : Writer σ}
    (made : c.apply env sink (openedBy env sink trees acts) = .ok w) :
    openedBy env sink trees (acts ++ [.call c]) = w := by
  let calls := transactions (WriterCall.apply env sink)
  have step := Transactional.step_ok (m := calls) (s := calls.run (calls.start (.fresh, trees)) acts)
    made
  rw [openedBy, Transactional.run, foldl_append]
  exact congrArg Opened.txn step

theorem openedBy_counted (env : Services) (sink : NegentropySink σ) (trees : σ)
    (acts : List (Act WriterCall)) :
    ∃ log, Counted env.host log (openedBy env sink trees acts).txn := by
  have kept := counted_kept env
  refine (Transactional.run_invariant (m := transactions (WriterCall.apply env sink))
    (fun w => ∃ log, Counted env.host log w.txn) (fun _ => True) ?_ ?_ ?_ ?_
    (fun _ _ => trivial)).2
  · rintro c _ w w' ⟨log, counted⟩ run
    obtain ⟨_, next⟩ := kept.call (fun first last counted => counted.note first last)
      c.all_true counted run
    exact ⟨_, next⟩
  · rintro w ⟨log, counted⟩
    exact ⟨log, counted.commit⟩
  · exact ⟨[], counted_fresh env.host⟩
  · exact ⟨[], counted_fresh env.host⟩

/-- **Author counts in every run of batches and deletions.** Wherever a call passes, `author_count`
answers with the number of stored events of the author; a deletion never finds a counter at 0, and
an insertion finds one at its greatest value only when the author has that many events; and right
after an event other than a vanish request is written under a quota its author is within it. A batch
that succeeds reaches each of its events, and one that fails does so at an event it reaches. -/
theorem author_counts_exact (env : Services) (sink : NegentropySink σ) (trees : σ)
    (acts : List (Act WriterCall)) :
    (∀ c txn, WriterCall.Passes env sink (openedBy env sink trees acts) c txn →
      (∀ pubkey, pubkey.length = 32 →
        ∃ txn', authorCount txn pubkey = .ok (storedBy txn.tables pubkey, txn')) ∧
      (∀ lev p, Holds txn.tables lev p → ¬Drifts txn p.pubkey) ∧
      (∀ pubkey, pubkey.length = 32 → Overflows txn pubkey →
        storedBy txn.tables pubkey = 2 ^ 64 - 1)) ∧
    (∀ policy authorQuota evs st e st' p,
      Reaches env sink policy authorQuota evs (openedBy env sink trees acts) st e →
      e.status = .pending → viewPacked e.packed = .ok p → 0 < authorQuota →
      p.kind ≠ vanishKind → writeOne env sink policy authorQuota st e = .ok st' →
      st'.JustWrote → storedBy st'.writer.txn.tables p.pubkey ≤ authorQuota) ∧
    (∀ policy authorQuota evs w' done, writeEventsWithQuota env sink policy authorQuota
        (openedBy env sink trees acts) evs = .ok (w', done) → ∀ e ∈ evs, ∃ st st',
      Reaches env sink policy authorQuota evs (openedBy env sink trees acts) st e ∧
      writeOne env sink policy authorQuota st e = .ok st' ∧ st'.done <+: done) ∧
    ∀ policy authorQuota evs err, writeEventsWithQuota env sink policy authorQuota
        (openedBy env sink trees acts) evs = .error err →
      ∃ st e, Reaches env sink policy authorQuota evs (openedBy env sink trees acts) st e ∧
        writeOne env sink policy authorQuota st e = .error err := by
  obtain ⟨log, counted⟩ := openedBy_counted env sink trees acts
  have kept := counted_kept env
  refine ⟨?_, ?_, fun _ _ _ _ _ call _ => Reaches.of_ok call, fun _ _ _ _ => Reaches.of_error⟩
  · intro c txn passed
    obtain ⟨log', here⟩ := kept.passes (fun counted mark => counted.mark mark)
      (fun first last counted => counted.note first last) c.all_true counted passed
    refine ⟨fun pubkey length => ?_, fun lev p held => here.not_drifts held,
      fun pubkey length => here.overflows length⟩
    obtain ⟨txn', answer, _⟩ := here.knowing.authorCount here.logged.logs.exact length
    exact ⟨txn', answer⟩
  · intro policy authorQuota evs st e st' p reached new viewed positive plain run wrote
    obtain ⟨log', here⟩ := kept.reaches (fun _ _ => trivial) counted reached
    exact writeOne_quota here new viewed positive.ne' plain run wrote

end Quotas

/-! ### The greatest count -/

section Greatest

/-- An author of plain events. -/
def plainAuthor : Bytes := List.replicate 32 7

theorem plainEvent_long (n : Nat) : packedHeaderLen
    ≤ (PackedEvent.layout (leBytes 32 n) plainAuthor 0 1 0 []).length := by
  simp [PackedEvent.layout, plainAuthor, packedHeaderLen]

/-- The `n`th text note of the author. -/
def plainEvent (n : Nat) : PackedEvent :=
  ⟨PackedEvent.layout (leBytes 32 n) plainAuthor 0 1 0 [], plainEvent_long n⟩

theorem plainEvent_id (n : Nat) : (plainEvent n).id = leBytes 32 n :=
  PackedEvent.layout_id (leBytes_length 32 n) rfl

theorem plainEvent_pubkey (n : Nat) : (plainEvent n).pubkey = plainAuthor :=
  PackedEvent.layout_pubkey (leBytes_length 32 n) (by decide) rfl

theorem plainEvent_kind (n : Nat) : (plainEvent n).kind = 1 :=
  PackedEvent.layout_kind (leBytes_length 32 n) (by decide) rfl (by decide)

theorem plainEvent_tags (n : Nat) : (plainEvent n).tags = [] := by
  have built : (plainEvent n).buf = PackedEvent.layout (leBytes 32 n) plainAuthor 0 1 0
      (([] : List PackedEventTag).flatMap packTag) := rfl
  exact PackedEvent.layout_tags (leBytes_length 32 n) (by decide) built (by simp)

/-- The transaction holds the first `n` notes of the author, whose count is known. -/
structure Filled (host : Host) (n : Nat) (txn : RwTxn) : Prop where
  counted : ∃ log, log.length = n ∧ Counted host log txn
  events : ∀ lev p, Holds txn.tables lev p → ∃ m < n, p = plainEvent m
  rows : (txn.tables.rows Dbis.event).length = n
  markers : txn.tables.rows Dbis.vanishPubkey = []

variable {host : Host} {env : Services} {n : Nat} {txn txn' : RwTxn}

theorem Filled.storedBy (filled : Filled host n txn) : storedBy txn.tables plainAuthor = n := by
  obtain ⟨log, _, counted⟩ := filled.counted
  refine (countP_eq_length.mpr fun e member => ?_).trans filled.rows
  obtain ⟨lev, p, held, rfl⟩ := counted.logged.logs.exact.records e member
  obtain ⟨m, _, rfl⟩ := filled.events lev p held
  rw [byAuthor_buf, decide_eq_true_eq, plainEvent_pubkey]

/-- The next note is no duplicate, and nothing stored speaks against it. -/
theorem Filled.judge (filled : Filled env.host n txn) (small : n < 2 ^ 64) (policy : VanishPolicy)
    {e : EventToWrite} (new : e.status = .pending) :
    judge env policy txn (plainEvent n) e = .ok (.pending, []) := by
  obtain ⟨log, _, counted⟩ := filled.counted
  have exact := counted.logged.logs.exact
  have unknown : lookupEventById txn (plainEvent n).id = .ok none := by
    rcases lookupEventById_eq exact (plainEvent n).id_length with ⟨lev, p, held, same, _⟩ | ⟨_, none⟩
    · obtain ⟨m, less, rfl⟩ := filled.events lev p held
      rw [plainEvent_id, plainEvent_id] at same
      have values := congrArg leVal same
      rw [leVal_leBytes (by omega), leVal_leBytes (by omega)] at values
      omega
    · exact none
  have unmarked : vanishTimestampRw txn (plainEvent n).pubkey = none := by
    have absent : txn.get Dbis.vanishPubkey (plainEvent n).pubkey = none :=
      Tables.get_eq_none.mpr fun value member => by
        rw [filled.markers] at member
        cases member
    rw [vanishTimestampRw, absent]
    rfl
  have kept : deletionExists txn (plainEvent n).id (plainEvent n).pubkey = false := by
    rw [deletionExists, ← Bool.not_eq_true, RwTxn.get, Tables.get_isSome]
    rintro ⟨value, member⟩
    obtain ⟨lev, p, held, posts, _⟩ := (exact.index _ (by decide) _).mp member
    obtain ⟨m, _, rfl⟩ := filled.events lev p held
    rw [posts_deletion] at posts
    simp [indexEvent, deletionTags, plainEvent_kind] at posts
  have pass : refusal env.host policy txn (plainEvent n) e.json = .ok none := by
    simp [refusal, firstRefusal, checkDuplicate, checkVanishTarget, checkVanished,
      checkIdTombstone, checkRecipientTombstone, isEventVanishedRwWithJson, authorVanished,
      recipientVanished, refuseIf, unknown, unmarked, kept, plainEvent_kind, plainEvent_tags,
      vanishKind, ok_bind, pure, Except.pure]
  have versions : checkVersions env.host txn (plainEvent n) e.json e.status = .ok (.pending, []) := by
    rw [checkVersions, plainEvent_kind, new]
    rfl
  have deletions : requestedDeletions env txn (plainEvent n) e.json [] = .ok [] := by
    rw [requestedDeletions, plainEvent_kind]
    rfl
  rw [Wok.Db.judge, pass]
  simp only [ok_bind, versions, deletions]
  rfl

theorem authorCount_known {pubkey : Bytes} {count : Nat}
    (run : authorCount txn pubkey = .ok (count, txn')) :
    knownCount txn' (authorKey pubkey) = .ok (some count) := by
  unfold authorCount at run
  split at run
  · rename_i cached
    cases run
    rw [knownCount, cached]
  · rename_i uncached
    split at run
    · rename_i raw stored
      simp only [map_eq_ok, Prod.mk.injEq] at run
      obtain ⟨_, read, rfl, rfl⟩ := run
      simp only [knownCount, uncached, stored, read]
      rfl
    · cases run
      rw [knownCount_cacheCount, if_pos rfl]

/-- A step that changes neither the events nor the markers. -/
theorem Filled.same (filled : Filled host n txn) {log : List StoredEvent} (length : log.length = n)
    (counted : Counted host log txn') (same : txn'.tables = txn.tables) : Filled host n txn' where
  counted := ⟨log, length, counted⟩
  events := same ▸ filled.events
  rows := same ▸ filled.rows
  markers := same ▸ filled.markers

/-- The greatest quota lets the next note pass. -/
theorem Filled.quota (filled : Filled host n txn) :
    ∃ txn', overQuota (2 ^ 64 - 1) txn (plainEvent n) [] = .ok (false, txn') ∧
      Filled host n txn' ∧ knownCount txn' (authorKey plainAuthor) = .ok (some n) := by
  obtain ⟨log, length, counted⟩ := filled.counted
  have author : (plainEvent n).pubkey = plainAuthor := plainEvent_pubkey n
  have long : plainAuthor.length = 32 := by decide
  obtain ⟨txn', answer, _⟩ := counted.knowing.authorCount counted.logged.logs.exact long
  rw [filled.storedBy] at answer
  have run : overQuota (2 ^ 64 - 1) txn (plainEvent n) [] = .ok (false, txn') := by
    have asked : 2 ^ 64 - 1 ≠ 0 ∧ (plainEvent n).kind ≠ vanishKind := by
      rw [plainEvent_kind]
      decide
    have within : decide (2 ^ 64 - 1 < min (n - 0 + 1) (2 ^ 64 - 1)) = false := by
      rw [decide_eq_false_iff_not, not_lt]
      exact min_le_right _ _
    rw [overQuota, if_pos asked, author, answer, ok_bind]
    show Except.ok (decide (2 ^ 64 - 1 < min (n - 0 + 1) (2 ^ 64 - 1)), txn') = _
    rw [within]
  exact ⟨txn', run, filled.same length (counted.quota run) (overQuota_tables run),
    authorCount_known answer⟩

/-- The next note is stored while its author can be counted. -/
theorem Filled.insert (filled : Filled host n txn) (small : n + 1 < 2 ^ 64)
    (known : knownCount txn (authorKey plainAuthor) = .ok (some n)) (json : Bytes) :
    ∃ lev txn', insertEvent host txn (plainEvent n) json = .ok (lev, txn') ∧
      Filled host (n + 1) txn' := by
  obtain ⟨log, rfl, counted⟩ := filled.counted
  have changed : changeAuthorCount txn (plainEvent log.length).pubkey true
      = .ok (cacheCount txn (authorKey plainAuthor) (log.length + 1)) := by
    rw [plainEvent_pubkey, changeAuthorCount, known, ok_bind]
    simp only [if_true, ensure_of small, ok_bind]
    rfl
  have sequence := (counted.logged.sequence.keep (changeAuthorCount_keeps changed) rfl).preserve
  have appended : ∀ sequence : Option Nat, appendEvent
      { cacheCount txn (authorKey plainAuthor) (log.length + 1) with eventSequence := sequence }
        (log.length + 1) (plainEvent log.length).buf = .ok _ := fun sequence =>
    appendEvent_above small (fun e member => by
      obtain ⟨lev, p, held, rfl⟩ := counted.logged.logs.exact.records e member
      exact ⟨lev, Nat.lt_succ_of_le (counted.logged.logs.small held).2, rfl⟩) _
  obtain ⟨⟨lev, txn'⟩, run⟩ : ∃ result, insertEvent host txn (plainEvent log.length) json
      = .ok result := by
    rw [insertEvent, changed, ok_bind, allocateEventId, sequence, ok_bind]
    simp only [Option.getD_some, ensure_of small, ok_bind, pure_bind, appended, loadVersions,
      countVersions, plainEvent_kind]
    exact ⟨_, rfl⟩
  have adds := insertEvent_adds run
  refine ⟨lev, txn', run, ⟨_, ?_, counted.insert run⟩, fun m p held => ?_, ?_, ?_⟩
  · rw [length_append, length_singleton]
  · rcases adds.stored.mp held with ⟨_, rfl⟩ | old
    · exact ⟨log.length, Nat.lt_succ_self _, rfl⟩
    · obtain ⟨k, less, rfl⟩ := filled.events m p old
      exact ⟨k, Nat.lt_succ_of_lt less, rfl⟩
  · rw [adds.length, filled.rows]
  · rw [insertEvent_touches run _ (by decide), filled.markers]

/-- A note of an author at the greatest count cannot be stored. -/
theorem insertEvent_overflow (known : knownCount txn (authorKey plainAuthor) = .ok (some (2 ^ 64 - 1)))
    (m : Nat) (json : Bytes) :
    insertEvent host txn (plainEvent m) json = .error (.msg "author count overflow") := by
  rw [insertEvent, plainEvent_pubkey, changeAuthorCount, known]
  rfl

/-- The note alone in a batch, under the greatest quota. -/
def plainWrite (n : Nat) : WriterCall :=
  .write .disabled (2 ^ 64 - 1) [.new (plainEvent n).buf []]

theorem plainWrite_apply {w : Writer Unit} (judged : judge env .disabled w.txn (plainEvent n)
      (.new (plainEvent n).buf []) = .ok (.pending, []))
    (quota : overQuota (2 ^ 64 - 1) w.txn (plainEvent n) [] = .ok (false, txn)) :
    (plainWrite n).apply env noopNegentropy w
      = (insertEvent env.host txn (plainEvent n) []).map fun result =>
        (Batch.finish ⟨⟨result.2, ()⟩, [{ EventToWrite.new (plainEvent n).buf [] with
          status := .written, levId := result.1 }], some result.1, some result.1⟩).1 := by
  have round : writeOne env noopNegentropy .disabled (2 ^ 64 - 1) ⟨w, [], none, none⟩
      (.new (plainEvent n).buf []) = (insertEvent env.host txn (plainEvent n) []).map fun result =>
        ⟨⟨result.2, ()⟩, [{ EventToWrite.new (plainEvent n).buf [] with
          status := .written, levId := result.1 }], some result.1, some result.1⟩ := by
    have viewed : viewPacked (EventToWrite.new (plainEvent n).buf []).packed = .ok (plainEvent n) :=
      viewPacked_buf _
    have unmarked : markRequest .disabled txn (plainEvent n) = .ok txn := rfl
    have json : (EventToWrite.new (plainEvent n).buf []).json = [] := rfl
    rw [writeOne, viewed, ok_bind]
    simp only [copyStatus, getLast?_nil, judged, ok_bind, ne_eq, not_true_eq_false, if_false,
      quota, Bool.false_eq_true, storeEvent, unmarked, json]
    cases insertEvent env.host txn (plainEvent n) [] <;> rfl
  have sorted : List.insertionSort (fun a b => EventToWrite.before a b = true)
      [EventToWrite.new (plainEvent n).buf []] = [.new (plainEvent n).buf []] := rfl
  rw [plainWrite, WriterCall.apply, writeEventsWithQuota, sorted, foldlM_cons, round]
  cases insertEvent env.host txn (plainEvent n) [] <;> rfl

theorem finish_filled {st : Batch Unit} (filled : Filled host n st.writer.txn) :
    Filled host n st.finish.1.txn := by
  refine st.finish_keeps filled fun first last => ?_
  obtain ⟨log, length, counted⟩ := filled.counted
  have touches := noteTagKindIndexed_touches st.writer.txn first last
  have events := touches Dbis.event (by decide)
  refine ⟨⟨log, length, counted.note first last⟩, fun lev p held => ?_, ?_, ?_⟩
  · exact filled.events lev p ((touches.samePrimary (by decide)).stored.mp held)
  · rw [events, filled.rows]
  · rw [touches _ (by decide), filled.markers]

theorem filled_fresh (host : Host) : Filled host 0 (.begin .fresh) where
  counted := ⟨[], rfl, counted_fresh host⟩
  events lev p held := absurd held (not_holds_fresh lev p)
  rows := by decide
  markers := by decide

/-- The notes are stored one after another, as many as there are local ids. -/
theorem openedBy_filled (env : Services) {n : Nat} (small : n < 2 ^ 64) :
    Filled env.host n (openedBy env noopNegentropy ()
      ((List.range n).map fun m => Act.call (plainWrite m))).txn := by
  induction n with
  | zero => exact filled_fresh env.host
  | succ n ih =>
    have filled := ih (by omega)
    obtain ⟨counted, quota, filled', known⟩ := filled.quota
    obtain ⟨lev, txn', insert, next⟩ := filled'.insert small known []
    have judged := filled.judge (by omega) .disabled (e := .new (plainEvent n).buf []) rfl
    have made := plainWrite_apply judged quota
    rw [insert] at made
    rw [range_succ, map_append]
    exact (openedBy_call made) ▸ finish_filled next

/-- **The overflow is met by an author of 2^64 - 1 stored events**: the round of the next event
passes a counter at its greatest value, and fails. -/
theorem author_count_overflows : ∃ acts txn,
    WriterCall.Passes sampleServices noopNegentropy
      (openedBy sampleServices noopNegentropy () acts) (plainWrite (2 ^ 64 - 1)) txn ∧
    Overflows txn plainAuthor ∧
    (plainWrite (2 ^ 64 - 1)).apply sampleServices noopNegentropy
      (openedBy sampleServices noopNegentropy () acts) = .error (.msg "author count overflow") := by
  have filled := openedBy_filled sampleServices (n := 2 ^ 64 - 1) (by omega)
  generalize ((List.range (2 ^ 64 - 1)).map fun m => Act.call (plainWrite m)) = acts at filled
  obtain ⟨counted, quota, _, known⟩ := filled.quota
  have judged := filled.judge (by omega) .disabled (e := .new (plainEvent (2 ^ 64 - 1)).buf []) rfl
  refine ⟨acts, counted, ?_, ⟨_, known, by omega⟩, ?_⟩
  · exact .round ⟨[], [], rfl, rfl⟩ (.counted ⟨viewPacked_buf _, rfl, judged, quota⟩)
  · rw [plainWrite_apply judged quota, insertEvent_overflow known]
    rfl

end Greatest

end Wok.Db
