/-
**The search index.**

Storing an event puts no postings. Build steps index the events above a marker in the order of their
local ids and move the marker past them; a step stops after a number of events, or when its time is
over, which can be after any event. A deletion takes the postings of its event away when the marker
covers it. A reset empties the table and starts again.

* `buildSearchIndex`, `resetSearchIndex` — the steps, beside the calls of the writer.
* `Searchable` — **the postings are those of the stored events up to the marker**;
  `searchable_kept`, `Searchable.reset`, `Searchable.build` — everything keeps this.
* `search_index_exact` — **the postings are exact in every run, and build steps catch up.**
-/

import Wok.Db.SearchTerms
import Wok.Db.Upcoming

namespace Wok.Db

open Wok.Library Wok.Event

/-! ### Markers -/

def isSearchMarker (key : Bytes) : Bool := key = searchIndexedThroughKey || key = searchSchemaKey

def setSearchSchema (txn : RwTxn) : RwTxn :=
  txn.setMarker Dbis.eventSearch searchSchemaKey searchSchemaVersion

def setIndexedThrough (txn : RwTxn) (lev : Nat) : RwTxn :=
  txn.setMarker Dbis.eventSearch searchIndexedThroughKey lev

def initializeSearchIndexState (txn : RwTxn) (lev : Nat) : RwTxn :=
  setIndexedThrough (setSearchSchema txn) lev

/-- Where the search index stands in one snapshot. -/
structure SearchIndexState where
  indexedThrough : Nat
  highWater : Nat
  deriving DecidableEq, Repr

def searchIndexedThroughRo (t : Tables) : Nat :=
  (marker (t.get Dbis.eventSearch searchIndexedThroughKey)).getD 0

def searchIndexStateRo (t : Tables) : Except DbError SearchIndexState := do
  let newest ← (RwTxn.begin t).largestIntegerKey Dbis.event
  return ⟨searchIndexedThroughRo t, highWaterMark (t.get Dbis.state highWater) newest⟩

/-- Empty the index and restart its marker at 0. -/
def resetSearchIndex (txn : RwTxn) : RwTxn :=
  initializeSearchIndexState (txn.clear Dbis.eventSearch) 0

/-! ### Build steps -/

/-- Events a build step reads ahead of indexing them. -/
def buildChunk : Nat := 64

/-- One record read ahead: its local id, and its kind if it can be read. -/
def readAhead (chunk : List (Nat × Option Nat)) (key packed : Bytes) :
    List (Nat × Option Nat) × Bool :=
  let chunk :=
    if key.length = 8 then
      chunk ++ [(u64FromNe key, (PackedEvent.new packed).toOption.map PackedEvent.kind)]
    else chunk
  (chunk, chunk.length < buildChunk)

/-- The events after the last one done, and whether the newest of all is among them. -/
def nextChunk (txn : RwTxn) (done : Nat) : List (Nat × Option Nat) × Bool :=
  View.scanFold readAhead [] (eventsAfter txn.tables done)

section Build

variable (env : Services)

/-- The postings of a stored event; none when they cannot be derived. -/
def derivedEntries (txn : RwTxn) (lev : Nat) (kind : Option Nat) : List Kv :=
  match kind, txn.getU64 Dbis.eventPayload lev with
  | some kind, some payload =>
    match decodeRw env txn payload with
    | .ok json => (env.searchIndexEntries lev kind json).toOption.getD []
    | .error _ => []
  | _, _ => []

/-- `MDB_NODUPDATA` only says whether the pair was there. -/
def putPostings (txn : RwTxn) (entries : List Kv) : RwTxn :=
  entries.foldl (fun txn e => txn.put Dbis.eventSearch e.1 e.2) txn

/-- What a step carries: the transaction, the events indexed and the last of them. -/
structure Build where
  txn : RwTxn
  events : Nat
  done : Nat

/-- The loop of a step. The time budget is checked after each event and may be found spent after
any: `stops` says after how many. -/
def buildLoop (maxEvents : Nat) (stops : Nat → Bool) : Chunked Build (Nat × Option Nat) DbError where
  read b := .ok (b, nextChunk b.txn b.done)
  work b event :=
    .ok ⟨putPostings b.txn (derivedEntries env b.txn event.1 event.2), b.events + 1, event.1⟩
  stops b := maxEvents ≤ b.events || stops b.events
  exhausted := .msg "build step ran out of events"

/-- What one build step did. -/
structure SearchBuildStep where
  events : Nat
  state : SearchIndexState
  deriving DecidableEq, Repr

def buildSearchIndex (txn : RwTxn) (maxEvents : Nat) (stops : Nat → Bool) :
    Except DbError (SearchBuildStep × RwTxn) := do
  let through := searchIndexedThroughRw txn
  let highWater ← txn.highWater
  let start : Build := ⟨txn, 0, through⟩
  let (b, walkedToEnd) ←
    if highWater ≤ through then .ok (start, true)
    -- a chunk that is not the last one passes a local id
    else (buildLoop env (max maxEvents 1) stops).walk (highWater - through + 1) start
  let indexedThrough := max (if walkedToEnd then highWater else b.done) through
  let txn := if indexedThrough ≠ through then setIndexedThrough b.txn indexedThrough else b.txn
  return (⟨b.events, ⟨indexedThrough, highWater⟩⟩, txn)

end Build

/-! ### Postings -/

/-- The postings of an event of the log; none when its payload is no text. -/
def StoredEvent.searchEntries (env : Services) (ev : StoredEvent) (kind : Nat) : List Kv :=
  if utf8Valid ev.json then (env.searchIndexEntries ev.levId kind ev.json).toOption.getD [] else []

/-- The postings are those of the stored events up to a local id. -/
def PostedThrough (env : Services) (log : List StoredEvent) (t : Tables) (through : Nat) : Prop :=
  ∀ e : Kv, isSearchMarker e.1 = false → (e ∈ t.rows Dbis.eventSearch ↔
    ∃ ev ∈ log, ∃ p, Holds t ev.levId p ∧ ev.levId ≤ through ∧ e ∈ ev.searchEntries env p.kind)

/-- **The postings are those of the stored events up to the marker**, which is not ahead of the
log. -/
structure Searchable (env : Services) (log : List StoredEvent) (txn : RwTxn) (through : Nat) :
    Prop where
  marked : Marked env.host log txn
  below : through ≤ log.length
  marker : ∀ value, (searchIndexedThroughKey, value) ∈ txn.tables.rows Dbis.eventSearch
    ↔ value = u64NeBytes through
  posted : PostedThrough env log txn.tables through

section Postings

variable {env : Services} {log : List StoredEvent} {t t' : Tables} {txn txn' : RwTxn}
  {through lev : Nat} {p : PackedEvent}
variable {e : Kv} {ev : StoredEvent}

theorem searchEntries_shape (shape : PostsTerms env) {kind : Nat}
    (member : e ∈ ev.searchEntries env kind) :
    isSearchMarker e.1 = false ∧ e.2 = u64NeBytes ev.levId := by
  unfold StoredEvent.searchEntries at member
  split_ifs at member
  · cases derived : env.searchIndexEntries ev.levId kind ev.json with
    | error err =>
      rw [derived] at member
      cases member
    | ok entries =>
      rw [derived] at member
      obtain ⟨first, value⟩ := shape _ _ _ _ derived e member
      refine ⟨?_, value⟩
      unfold isSearchMarker
      rw [Bool.or_eq_false_iff]
      constructor <;>
      · apply decide_eq_false
        rintro same
        rw [same] at first
        exact absurd first (by decide)
  · cases member

/-- The postings of a stored event are read off its payload. -/
theorem derivedEntries_eq
    (payload : (u64NeBytes ev.levId, encodeRawPayload ev.json) ∈ txn.tables.rows Dbis.eventPayload)
    (kind : Nat) : derivedEntries env txn ev.levId (some kind) = ev.searchEntries env kind := by
  have found : txn.getU64 Dbis.eventPayload ev.levId = some (encodeRawPayload ev.json) :=
    (Tables.get_plain (by decide)).mpr payload
  simp only [derivedEntries, found, decodeRw, payloadBody, encodeRawPayload, if_true, ok_bind,
    StoredEvent.searchEntries]
  by_cases valid : utf8Valid ev.json = true
  · rw [if_pos valid, ensure_of valid]
    rfl
  · rw [if_neg valid, ensure, if_neg valid]
    rfl

theorem mem_putPostings {entries : List Kv} :
    e ∈ (putPostings txn entries).tables.rows Dbis.eventSearch
      ↔ e ∈ entries ∨ e ∈ txn.tables.rows Dbis.eventSearch := by
  unfold putPostings
  induction entries generalizing txn with
  | nil => simp
  | cons first entries ih =>
    rw [List.foldl_cons, ih, List.mem_cons]
    have put : e ∈ (txn.put Dbis.eventSearch first.1 first.2).tables.rows Dbis.eventSearch
        ↔ e = first ∨ e ∈ txn.tables.rows Dbis.eventSearch := Tables.mem_put_dup (by decide)
    rw [put, ← or_assoc, or_comm (b := e = first)]

theorem putPostings_alters (txn : RwTxn) (entries : List Kv) :
    Alters [Dbis.eventSearch] txn (putPostings txn entries) :=
  foldl_alters (fun e _ => alters_put (by simp) e.1 e.2) txn

theorem mem_delPostings {entries : List Kv} :
    e ∈ (entries.foldl (fun txn e => txn.delPair Dbis.eventSearch e.1 e.2) txn).tables.rows
        Dbis.eventSearch
      ↔ e ∈ txn.tables.rows Dbis.eventSearch ∧ e ∉ entries := by
  induction entries generalizing txn with
  | nil => simp
  | cons first entries ih =>
    rw [List.foldl_cons, ih, List.mem_cons, not_or, ← and_assoc]
    refine and_congr_left fun _ => ?_
    exact Tables.mem_delPair

/-- A step that leaves the search table and the stored events. -/
theorem PostedThrough.same (posted : PostedThrough env log t through)
    (search : t'.rows Dbis.eventSearch = t.rows Dbis.eventSearch)
    (event : t'.rows Dbis.event = t.rows Dbis.event) : PostedThrough env log t' through := by
  intro e other
  simp only [Holds, search, event]
  exact posted e other

/-- **A deletion takes the postings of its event away**, if the marker covers it. -/
theorem deleteEventBasic_search {deleted : Bool} (held : Holds txn.tables ev.levId p)
    (payload : (u64NeBytes ev.levId, encodeRawPayload ev.json) ∈ txn.tables.rows Dbis.eventPayload)
    (run : deleteEventBasic env txn ev.levId = .ok (deleted, txn')) (e : Kv) :
    e ∈ txn'.tables.rows Dbis.eventSearch ↔ e ∈ txn.tables.rows Dbis.eventSearch ∧
      ¬(ev.levId ≤ searchIndexedThroughRw txn ∧ e ∈ ev.searchEntries env p.kind) := by
  obtain ⟨_, kind, forgot, json, unindexed, _, author, covered, search, record⟩ :=
    deleteEventBasic_eq run
  have before : Touches [Dbis.state] txn forgot := (forgetAuthor_touches author :)
  have through : searchIndexedThroughRw forgot = searchIndexedThroughRw txn := by
    unfold searchIndexedThroughRw
    rw [RwTxn.get, Tables.get_congr (before _ (by decide))]
    rfl
  have found : forgot.getU64 Dbis.eventPayload ev.levId = some (encodeRawPayload ev.json) := by
    refine (Tables.get_plain (by decide)).mpr ?_
    rw [before _ (by decide)]
    exact payload
  obtain ⟨rfl, -⟩ := forgetAuthor_held author held
  have table : (forgot.delKey Dbis.eventPayload (u64NeBytes ev.levId)).tables.rows Dbis.eventSearch
      = txn.tables.rows Dbis.eventSearch :=
    (Tables.rows_delKey_of_ne (by decide)).trans (before _ (by decide))
  rw [removeRecord_touches record _ (by decide)]
  simp only [indexedJson, found, through] at covered
  by_cases inside : ev.levId ≤ searchIndexedThroughRw txn
  · simp only [if_pos inside, map_eq_ok, decodeRw, payloadBody, encodeRawPayload, if_true, ok_bind,
      bind_eq_ok, ensure_eq_ok, pure_eq_ok] at covered
    obtain ⟨_, ⟨_, valid, rfl⟩, rfl⟩ := covered
    have removal : removeEventSearch env (forgot.delKey Dbis.eventPayload (u64NeBytes ev.levId))
        ev.levId p.kind ev.json = .ok unindexed := search
    simp only [removeEventSearch, bind_eq_ok, pure_eq_ok] at removal
    obtain ⟨entries, derived, rfl⟩ := removal
    rw [mem_delPostings, table, StoredEvent.searchEntries, if_pos valid, derived]
    simp only [inside, true_and]
    rfl
  · rw [if_neg inside] at covered
    cases covered
    cases search
    rw [table]
    simp [inside]

end Postings

/-! ### The writer -/

section Writer

variable {env : Services} {log : List StoredEvent} {txn txn' : RwTxn} {through : Nat}

section Searchable

variable (searchable : Searchable env log txn through)

include searchable

theorem Searchable.through_eq : searchIndexedThroughRw txn = through := by
  have small := searchable.below.trans_lt searchable.marked.logged.sequence.small
  have found : Wok.Db.marker (txn.get Dbis.eventSearch searchIndexedThroughKey) = some through :=
    marker_eq small searchable.marker
  rw [searchIndexedThroughRw, found, Option.getD_some]

/-- A step that leaves the search table, the stored events and the log. -/
theorem Searchable.same {allowed : List Nat} (touches : Touches allowed txn txn')
    (apart : Dbis.eventSearch ∉ allowed) (primary : ∀ d ∈ Dbis.primary, d ∉ allowed)
    (keeps : KeepsSequence txn txn') : Searchable env log txn' through where
  marked := searchable.marked.same (touches.samePrimary primary) keeps
  below := searchable.below
  marker := by
    rw [touches _ apart]
    exact searchable.marker
  posted := searchable.posted.same (touches _ apart) (touches _ (primary _ (by decide)))

/-- **A stored event has a local id above the marker.** -/
theorem Searchable.insert {p : PackedEvent} {json : Bytes} {lev : Nat}
    (run : insertEvent env.host txn p json = .ok (lev, txn')) :
    Searchable env (log ++ [⟨lev, p.buf, json⟩]) txn' through := by
  obtain ⟨rfl, marked⟩ := searchable.marked.insert run
  have search := insertEvent_touches run Dbis.eventSearch (by decide)
  have adds := insertEvent_adds run
  have below := searchable.below
  refine ⟨marked, below.trans (by simp), ?_, fun e other => ?_⟩
  · rw [search]
    exact searchable.marker
  · rw [search, searchable.posted e other]
    constructor
    · rintro ⟨ev, listed, q, held, covered, posted⟩
      exact ⟨ev, List.mem_append_left _ listed, q, adds.stored.mpr (.inr held), covered, posted⟩
    · rintro ⟨ev, listed, q, held, covered, posted⟩
      rcases adds.stored.mp held with ⟨new, _⟩ | old
      · omega
      · rcases List.mem_append.mp listed with inside | last
        · exact ⟨ev, inside, q, old, covered, posted⟩
        · rw [List.mem_singleton.mp last] at covered
          simp only at covered
          omega

/-- **The postings of a deleted event go with it.** -/
theorem Searchable.remove (shape : PostsTerms env) {p : PackedEvent} {lev : Nat} {deleted : Bool}
    (held : Holds txn.tables lev p) (run : deleteEventBasic env txn lev = .ok (deleted, txn')) :
    Searchable env log txn' through := by
  obtain ⟨ev, listed, rfl, _, payload⟩ := searchable.marked.logged.logs.stored lev p held
  have search := deleteEventBasic_search held payload run
  have removes := deleteEventBasic_removes held run
  rw [searchable.through_eq] at search
  refine ⟨searchable.marked.remove held run, searchable.below, fun value => ?_, fun e other => ?_⟩
  · rw [search, searchable.marker]
    refine and_iff_left ?_
    rintro ⟨_, posted⟩
    exact absurd (searchEntries_shape shape posted).1 (by simp [isSearchMarker])
  · rw [search, searchable.posted e other]
    constructor
    · rintro ⟨⟨own, inside, q, stored, covered, posted⟩, kept⟩
      refine ⟨own, inside, q, removes.stored_iff.mpr ⟨stored, fun same => kept ?_⟩, covered, posted⟩
      obtain rfl := searchable.marked.logged.logs.unique inside listed same
      rw [stored.unique held] at posted
      exact ⟨covered, posted⟩
    · rintro ⟨own, inside, q, stored, covered, posted⟩
      obtain ⟨old, apart⟩ := removes.stored_iff.mp stored
      refine ⟨⟨own, inside, q, old, covered, posted⟩, fun both => apart ?_⟩
      have value := (searchEntries_shape shape posted).2
      rw [(searchEntries_shape shape both.2).2] at value
      exact (u64NeBytes_inj held.1 old.1 value).symm

end Searchable

/-- **The calls of the writer keep the postings.** -/
theorem searchable_kept (shape : PostsTerms env) :
    KeptByWriter env (fun _ => True) fun log txn => ∃ through, Searchable env log txn through where
  counted := by
    rintro log txn txn' _ _ _ _ ⟨through, searchable⟩ quota
    have same : Touches [] txn txn' := touches_of_tables (overQuota_tables quota)
    exact ⟨through, searchable.same same (by simp) (by simp) (overQuota_keeps quota)⟩
  stored := by
    rintro log policy e p levs judgedIn txn marked lev inserted _ _ _ _ ⟨through, searchable⟩ mark
      insert
    refine ⟨through, Searchable.insert ?_ insert⟩
    exact searchable.same (markRequest_touches mark) (by decide) (by decide)
      (markRequest_keeps mark)
  removed := by
    rintro log txn lev p deleted txn' held ⟨through, searchable⟩ run
    exact ⟨through, searchable.remove shape held run⟩

theorem Searchable.noted (searchable : Searchable env log txn through) (first last : Nat) :
    Searchable env log (noteTagKindIndexed txn first last) through :=
  searchable.same (noteTagKindIndexed_touches txn first last) (by decide) (by decide)
    (noteTagKindIndexed_keeps txn first last)

theorem Searchable.commit (searchable : Searchable env log txn through) :
    Searchable env log (.begin (commit txn)) through := by
  have flushed : Touches [Dbis.state] txn (flush txn) := flush_touches txn
  refine ⟨searchable.marked.commit, searchable.below, ?_, ?_⟩
  · show ∀ value, _ ∈ (flush txn).tables.rows Dbis.eventSearch ↔ _
    rw [flushed _ (by decide)]
    exact searchable.marker
  · exact searchable.posted.same (flushed _ (by decide)) (flushed _ (by decide))

end Writer

/-! ### Resets and build steps -/

section Steps

variable {env : Services} {log : List StoredEvent} {txn txn' : RwTxn} {through : Nat}

theorem isSearchMarker_through : isSearchMarker searchIndexedThroughKey = true := by
  simp [isSearchMarker]

/-- The marker moves; the postings are those up to its new place. -/
theorem Searchable.setIndexedThrough {m : Nat} (marked : Marked env.host log txn)
    (below : m ≤ log.length) (posted : PostedThrough env log txn.tables m) :
    Searchable env log (setIndexedThrough txn m) m := by
  have touches := setMarker_touches txn Dbis.eventSearch searchIndexedThroughKey m
  have only : OnlyTables txn (Wok.Db.setIndexedThrough txn m) := ⟨_, rfl⟩
  refine ⟨marked.same (touches.samePrimary (by decide)) (only.keepsSequence touches (by decide)),
    below, fun value => ?_, fun e other => ?_⟩
  · rw [Wok.Db.setIndexedThrough, mem_setMarker (by decide)]
    simp
  · have apart : e.1 ≠ searchIndexedThroughKey := by
      intro same
      rw [same, isSearchMarker_through] at other
      cases other
    have same : ∀ lev p, Holds (Wok.Db.setIndexedThrough txn m).tables lev p
        ↔ Holds txn.tables lev p := fun lev p => (touches.samePrimary (by decide)).stored
    rw [Wok.Db.setIndexedThrough, mem_setMarker (by decide), ← Wok.Db.setIndexedThrough]
    simp only [same, apart, ne_eq, not_false_eq_true, and_true]
    rw [← posted e other]
    refine or_iff_right fun same => apart ?_
    rw [same]

/-- **A reset leaves no postings**, and its marker covers no event. -/
theorem Searchable.reset (searchable : Searchable env log txn through) :
    Searchable env log (resetSearchIndex txn) 0 := by
  have cleared := clear_touches txn Dbis.eventSearch
  have touches : Touches [Dbis.eventSearch] txn (setSearchSchema (txn.clear Dbis.eventSearch)) :=
    cleared.trans (setMarker_touches _ _ _ _)
  have only : OnlyTables txn (setSearchSchema (txn.clear Dbis.eventSearch)) := ⟨_, rfl⟩
  refine Searchable.setIndexedThrough (searchable.marked.same (touches.samePrimary (by decide))
    (only.keepsSequence touches (by decide))) (Nat.zero_le _) fun e other => ?_
  rw [setSearchSchema, mem_setMarker (by decide)]
  constructor
  · rintro (rfl | ⟨member, _⟩)
    · exact absurd other (by simp [isSearchMarker])
    · exact absurd member (not_mem_clear _ _ e)
  · rintro ⟨ev, listed, p, _, covered, _⟩
    have bounds := searchable.marked.logged.logs.levId_le listed
    omega

/-- What is read of each event. -/
abbrev readKind (p : PackedEvent) : Option Nat := some p.kind

/-- In a build step on tables `t`: the events are indexed up to `done`, and the marker is where it
was. -/
structure Building (env : Services) (log : List StoredEvent) (t : Tables) (through : Nat)
    (b : Build) : Prop where
  marked : Marked env.host log b.txn
  event : b.txn.tables.rows Dbis.event = t.rows Dbis.event
  below : b.done ≤ log.length
  marker : ∀ value, (searchIndexedThroughKey, value) ∈ b.txn.tables.rows Dbis.eventSearch
    ↔ value = u64NeBytes through
  posted : PostedThrough env log b.txn.tables b.done

section Building

variable {t : Tables} {b : Build}

section Step

variable (building : Building env log t through b)

include building

theorem Building.holds {lev : Nat} {p : PackedEvent} :
    Holds t lev p ↔ Holds b.txn.tables lev p := by rw [Holds, Holds, building.event]

theorem Building.small : b.done < 2 ^ 64 :=
  building.below.trans_lt building.marked.logged.sequence.small

/-- **The next event is indexed.** -/
theorem Building.next (shape : PostsTerms env) {x : Nat × Option Nat} {l : List (Nat × Option Nat)}
    (ahead : Ahead (StoredWith t readKind) Prod.fst IsLastId b.done (x :: l)) (events : Nat) :
    Building env log t through
      ⟨putPostings b.txn (derivedEntries env b.txn x.1 x.2), events, x.1⟩ := by
  obtain ⟨p, stored, kind⟩ := ahead.head
  have held := building.holds.mp stored
  obtain ⟨ev, listed, number, _, payload⟩ := building.marked.logged.logs.stored x.1 p held
  have derived : derivedEntries env b.txn x.1 x.2 = ev.searchEntries env p.kind := by
    rw [kind, ← number]
    exact derivedEntries_eq (number ▸ payload) p.kind
  rw [derived]
  have alters := putPostings_alters b.txn (ev.searchEntries env p.kind)
  have primary := alters.touches.samePrimary (by decide)
  refine ⟨building.marked.same primary (alters.keepsSequence (by decide)),
    primary.event.trans building.event, (building.marked.logged.logs.small held).2,
    fun value => ?_, fun e other => ?_⟩
  · rw [mem_putPostings, ← building.marker value]
    refine or_iff_right fun posted => ?_
    exact absurd (searchEntries_shape shape posted).1 (by simp [isSearchMarker])
  · -- no stored event lies between the last one done and this one
    rw [mem_putPostings, building.posted e other]
    simp only [primary.stored]
    constructor
    · rintro (posted | ⟨own, inside, q, stored, covered, posted⟩)
      · exact ⟨ev, listed, p, number ▸ held, number.le, posted⟩
      · exact ⟨own, inside, q, stored, covered.trans ahead.head_le, posted⟩
    · rintro ⟨own, inside, q, stored, covered, posted⟩
      by_cases before : own.levId ≤ b.done
      · exact .inr ⟨own, inside, q, stored, before, posted⟩
      · have next : x.1 ≤ own.levId := ahead.next_le (b := (own.levId, readKind q))
          ⟨q, building.holds.mpr stored, rfl⟩ (not_le.mp before)
        obtain rfl := building.marked.logged.logs.unique inside listed
          ((le_antisymm covered next).trans number.symm)
        rw [number] at stored
        rw [stored.unique held] at posted
        exact .inl posted

/-- **A chunk is a prefix of the events above the last one done.** -/
theorem Building.nextChunk :
    ∃ l, Ahead (StoredWith t readKind) Prod.fst IsLastId b.done l ∧
      nextChunk b.txn b.done = (l.take buildChunk, decide (l.length < buildChunk)) := by
  have exact := building.marked.logged.logs.exact
  have same : StoredWith t readKind = StoredWith b.txn.tables readKind := by
    funext x
    simp only [StoredWith, building.holds]
  let item : Kv → Nat × Option Nat := fun e =>
    (u64FromNe e.1, (PackedEvent.new e.2).toOption.map PackedEvent.kind)
  refine ⟨(eventsAfter b.txn.tables b.done).map item, ?_, ?_⟩
  · rw [same]
    refine ahead_eventsAfter exact building.small fun lev p held => ?_
    show (u64FromNe (u64NeBytes lev), (PackedEvent.new p.buf).toOption.map PackedEvent.kind) = _
    rw [u64FromNe_u64NeBytes held.1, PackedEvent.new_buf]
    rfl
  · have each : ∀ chunk, ∀ e ∈ eventsAfter b.txn.tables b.done, readAhead chunk e.1 e.2
        = (chunk ++ [item e], decide ((chunk ++ [item e]).length < buildChunk)) := by
      intro chunk e member
      obtain ⟨lev, p, _, rfl⟩ := exact.records e (Tables.mem_scan.mp member).1
      have length : (u64NeBytes lev).length = 8 := by simp [u64NeBytes]
      simp only [readAhead, if_pos length]
      rfl
    exact scanFold_chunk (fun chunk => chunk) (by decide) each

end Step

/-- **The loop of a build step** works through the events above the last one done. -/
theorem buildLoop_walks (shape : PostsTerms env) (logs : Logs env.host log t) (maxEvents : Nat)
    (stops : Nat → Bool) : Walks (buildLoop env maxEvents stops) buildChunk
      (Building env log t through) Build.done (StoredWith t readKind) Prod.fst IsLastId
      fun done => log.length - done where
  two := by decide
  read := by
    intro b building
    obtain ⟨l, ahead, read⟩ := building.nextChunk
    refine ⟨b, l, ?_, building, rfl, ahead⟩
    show Except.ok (b, nextChunk b.txn b.done) = _
    rw [read]
  work building ahead := ⟨_, rfl, building.next shape ahead _, rfl⟩
  lower le := Nat.sub_le_sub_left le _
  falls := by
    rintro done x ⟨p, held, _⟩ above
    have bound := (logs.small held).2
    omega

end Building

/-- **A build step** catches up with the high-water mark or moves the marker past some event. -/
theorem Searchable.build (shape : PostsTerms env) (searchable : Searchable env log txn through)
    (maxEvents : Nat) (stops : Nat → Bool) :
    ∃ step txn' through', buildSearchIndex env txn maxEvents stops = .ok (step, txn') ∧
      Searchable env log txn' through' ∧ step.state = ⟨through', log.length⟩ ∧
      (through' = log.length ∨ through < through') := by
  have below := searchable.below
  have bounded := searchable.marked.logged.sequence.small
  simp only [buildSearchIndex, searchable.through_eq, searchable.marked.greatest, ok_bind]
  by_cases caught : log.length ≤ through
  · have same : through = log.length := le_antisymm below caught
    refine ⟨⟨0, ⟨through, log.length⟩⟩, txn, through, ?_, searchable, rfl, .inl same⟩
    simp only [if_pos caught, if_true, max_eq_right caught, ne_eq, not_true_eq_false, if_false]
    rfl
  · have building : Building env log txn.tables through ⟨txn, 0, through⟩ :=
      ⟨searchable.marked, rfl, below, searchable.marker, searchable.posted⟩
    obtain ⟨b, walked, run, built, _, reached, progress⟩ :=
      (buildLoop_walks shape searchable.marked.logged.logs (max maxEvents 1) stops).walk building
        (Nat.lt_succ_self _)
    have within := built.below
    -- where the marker goes, the events are indexed
    have goal : ∃ m, max (if walked = true then log.length else b.done) through = m ∧
        through < m ∧ m ≤ log.length ∧ PostedThrough env log b.txn.tables m ∧
        (m = log.length ∨ through < m) := by
      cases walked with
      | true =>
        refine ⟨log.length, by simp [below], by omega, le_rfl, fun e other => ?_, .inl rfl⟩
        rw [built.posted e other]
        constructor
        · rintro ⟨ev, listed, p, held, covered, posted⟩
          exact ⟨ev, listed, p, held, covered.trans within, posted⟩
        · rintro ⟨ev, listed, p, held, _, posted⟩
          exact ⟨ev, listed, p, held, reached rfl (ev.levId, readKind p)
            ⟨p, built.holds.mpr held, rfl⟩, posted⟩
      | false =>
        have above : through < b.done := by
          rcases progress rfl with fewer | ⟨last, _⟩
          · simp only at fewer
            omega
          · have last : through = 2 ^ 64 - 1 := last
            omega
        exact ⟨b.done, by simp [above.le], above, within, built.posted, .inr above⟩
    obtain ⟨m, is, above, most, posted, progress⟩ := goal
    refine ⟨⟨b.events, ⟨m, log.length⟩⟩, Wok.Db.setIndexedThrough b.txn m, m, ?_,
      .setIndexedThrough built.marked most posted, rfl, progress⟩
    simp only [if_neg caught, run, ok_bind, is, ne_eq, above.ne', not_false_eq_true, if_true]
    rfl

end Steps

/-! ### Runs -/

/-- A call on the open transaction: of the writer, in either way of posting tags by kind, a build
step or a reset. -/
inductive SearchCall
  | writer (c : WriterCall)
  | deferTagKind (on : Bool)
  | build (maxEvents : Nat) (stops : Nat → Bool)
  | reset

section Runs

variable {σ : Type} (env : Services) (sink : NegentropySink σ)

def SearchCall.apply : SearchCall → Writer σ → Except DbError (Writer σ)
  | .writer c, w => c.apply env sink w
  | .deferTagKind on, w => .ok { w with txn.deferTagKind := on }
  | .build maxEvents stops, w =>
    (buildSearchIndex env w.txn maxEvents stops).map fun built => { w with txn := built.2 }
  | .reset, w => .ok { w with txn := resetSearchIndex w.txn }

/-- Runs of the writer, build steps and resets. -/
def searchRuns : Transactional (Tables × σ) (Writer σ) SearchCall DbError :=
  transactions (SearchCall.apply env sink)

/-- The JSON of a stored event. -/
def payloadJson (t : Tables) (lev : Nat) : Except DbError Bytes := do
  let raw ← okOr (t.get Dbis.eventPayload (u64NeBytes lev)) (.msg "missing payload")
  decodeRw env (.begin t) raw

/-- The search table holds the union of `searchIndexEntries` over the stored events up to the
marker, and nothing for an event above it. -/
structure SearchExact (t : Tables) : Prop where
  postings : ∀ key value, isSearchMarker key = false →
    ((key, value) ∈ t.rows Dbis.eventSearch ↔ ∃ lev p json entries, Holds t lev p ∧
      lev ≤ searchIndexedThroughRo t ∧ payloadJson env t lev = .ok json ∧
      env.searchIndexEntries lev p.kind json = .ok entries ∧ (key, value) ∈ entries)
  above : ∀ lev key, searchIndexedThroughRo t < lev → lev < 2 ^ 64 → isSearchMarker key = false →
    (key, u64NeBytes lev) ∉ t.rows Dbis.eventSearch

/-- The marker is at the high-water mark. -/
def CaughtUp (t : Tables) : Prop := ∃ n, searchIndexStateRo t = .ok ⟨n, n⟩

variable {env sink} {log : List StoredEvent} {t : Tables} {through : Nat}

theorem mem_searchEntries {ev : StoredEvent} {kind : Nat} {e : Kv}
    (payload : (u64NeBytes ev.levId, encodeRawPayload ev.json) ∈ t.rows Dbis.eventPayload) :
    e ∈ ev.searchEntries env kind ↔ ∃ json entries, payloadJson env t ev.levId = .ok json ∧
      env.searchIndexEntries ev.levId kind json = .ok entries ∧ e ∈ entries := by
  have read : payloadJson env t ev.levId
      = (ensure (utf8Valid ev.json = true) (.msg "payload not utf-8")).map fun _ => ev.json := by
    rw [payloadJson, (Tables.get_plain (by decide)).mpr payload]
    simp only [okOr_some, ok_bind, decodeRw, payloadBody, encodeRawPayload, if_true]
    rfl
  rw [read, StoredEvent.searchEntries]
  split_ifs with valid
  · rw [ensure_of valid]
    constructor
    · intro member
      cases derived : env.searchIndexEntries ev.levId kind ev.json with
      | error err =>
        rw [derived] at member
        cases member
      | ok entries =>
        rw [derived] at member
        exact ⟨ev.json, entries, rfl, derived, member⟩
    · rintro ⟨json, entries, same, derived, member⟩
      have json_eq : ev.json = json := Except.ok.inj same
      rw [json_eq, derived]
      exact member
  · constructor
    · intro member
      cases member
    · rintro ⟨_, _, failed, _⟩
      rw [ensure, if_neg valid] at failed
      cases failed

theorem Searchable.exact (shape : PostsTerms env)
    (searchable : Searchable env log (.begin t) through) : SearchExact env t := by
  have marker : searchIndexedThroughRo t = through := searchable.through_eq
  have logs : Logs env.host log t := searchable.marked.logged.logs
  refine ⟨fun key value other => ?_, fun lev key above small other member => ?_⟩
  · rw [marker]
    refine (searchable.posted (key, value) other).trans ?_
    constructor
    · rintro ⟨ev, listed, p, held, covered, posted⟩
      obtain ⟨own, inside, number, _, payload⟩ := logs.stored _ p held
      obtain rfl := logs.unique inside listed number
      obtain ⟨json, entries, read, derived, member⟩ := (mem_searchEntries payload).mp posted
      exact ⟨own.levId, p, json, entries, held, covered, read, derived, member⟩
    · rintro ⟨lev, p, json, entries, held, covered, read, derived, member⟩
      obtain ⟨ev, listed, rfl, _, payload⟩ := logs.stored lev p held
      exact ⟨ev, listed, p, held, covered,
        (mem_searchEntries payload).mpr ⟨json, entries, read, derived, member⟩⟩
  · obtain ⟨ev, listed, p, held, covered, posted⟩ := (searchable.posted _ other).mp member
    have same := u64NeBytes_inj small held.1 (searchEntries_shape shape posted).2
    omega

theorem Searchable.state (searchable : Searchable env log (.begin t) through) :
    searchIndexStateRo t = .ok ⟨through, log.length⟩ := by
  have marker : searchIndexedThroughRo t = through := searchable.through_eq
  obtain ⟨newest, largest, mark⟩ := searchable.marked.greatest_ro
  rw [searchIndexStateRo, largest, ok_bind, marker, mark]
  rfl

theorem searchable_fresh (env : Services) : Searchable env [] (.begin .fresh) 0 := by
  have rows : (RwTxn.begin .fresh).tables.rows Dbis.eventSearch
      = [(searchIndexedThroughKey, u64NeBytes 0),
        (searchSchemaKey, u64NeBytes searchSchemaVersion)] := by decide
  refine ⟨marked_fresh env.host, le_rfl, fun value => ?_, fun e other => ?_⟩
  · have apart : searchIndexedThroughKey ≠ searchSchemaKey := by decide
    rw [rows]
    simp [apart]
  · rw [rows]
    refine iff_of_false (fun member => ?_) (by simp)
    rcases List.mem_cons.mp member with rfl | last
    · cases other
    · rw [List.mem_singleton.mp last] at other
      cases other

theorem searchCall_kept (shape : PostsTerms env) {c : SearchCall} {w w' : Writer σ}
    (inv : ∃ log through, Searchable env log w.txn through) (run : c.apply env sink w = .ok w') :
    ∃ log through, Searchable env log w'.txn through := by
  obtain ⟨log, through, searchable⟩ := inv
  cases c with
  | writer c =>
    obtain ⟨written, kept⟩ := (searchable_kept shape).call
      (fun first last ⟨through, searchable⟩ => ⟨through, searchable.noted first last⟩)
      (c := c) (by cases c <;> simp [WriterCall.All]) ⟨through, searchable⟩ run
    exact ⟨_, kept⟩
  | deferTagKind on =>
    cases run
    have same : Touches [] w.txn { w.txn with deferTagKind := on } := touches_of_tables rfl
    exact ⟨log, through, searchable.same same (by simp) (by simp) ⟨rfl, rfl, fun _ => .inl⟩⟩
  | build maxEvents stops =>
    obtain ⟨step, txn', through', built, kept, _⟩ := searchable.build shape maxEvents stops
    simp only [SearchCall.apply, built, Except.map, Except.ok.injEq] at run
    subst run
    exact ⟨log, through', kept⟩
  | reset =>
    cases run
    exact ⟨log, 0, searchable.reset⟩

/-- **The search index.** In every run from a fresh database of writes, deletions, build steps that
stop anywhere and resets, the committed postings are those of the stored events up to the marker,
and build steps alone bring the marker to the high-water mark. An event whose payload or postings
cannot be read has none. -/
theorem search_index_exact {σ : Type} (text : SearchHost) (env : Services)
    (sink : NegentropySink σ) (trees : σ) (acts : List (Act SearchCall)) :
    let runs := searchRuns (text.services env) sink
    let store := (runs.run (runs.start (.fresh, trees)) acts).committed
    SearchExact (text.services env) store.1 ∧
      ∃ n, ∀ steps : List (Nat × (Nat → Bool)), n ≤ steps.length →
        CaughtUp (runs.run (runs.start store)
          (Transactional.alone (steps.map fun step => .build step.1 step.2))).committed.1 := by
  intro runs store
  have shape := searchIndexEntries_shape text env
  let Inv (w : Writer σ) : Prop := ∃ log through, Searchable (text.services env) log w.txn through
  have call : ∀ c : SearchCall, True → ∀ w w', Inv w → runs.call c w = .ok w' → Inv w' :=
    fun c _ w w' inv run => searchCall_kept shape inv run
  have commit : ∀ w, Inv w → Inv (runs.begin (runs.commit w)) := by
    rintro w ⟨log, through, searchable⟩
    exact ⟨log, through, searchable.commit⟩
  have fresh : Inv (runs.begin (.fresh, trees)) := ⟨[], 0, searchable_fresh _⟩
  have reached : Inv (runs.begin store) :=
    (Transactional.run_invariant Inv (fun _ => True) call commit fresh fresh (by simp)).1
  obtain ⟨log, through, searchable⟩ := reached
  refine ⟨searchable.exact shape, log.length - through, fun steps enough => ?_⟩
  -- the rank of a transaction is the number of local ids above the marker
  let Ranked (n : Nat) (w : Writer σ) : Prop := ∃ log through,
    Searchable (text.services env) log w.txn through ∧ log.length - through = n
  have advance : ∀ c, (∃ maxEvents stops, c = .build maxEvents stops) → ∀ n store,
      Ranked n (runs.begin store) → ∃ w n', runs.call c (runs.begin store) = .ok w ∧
        Ranked n' (runs.begin (runs.commit w)) ∧ (n' = 0 ∨ n' < n) := by
    rintro _ ⟨maxEvents, stops, rfl⟩ n store ⟨log, through, searchable, rfl⟩
    obtain ⟨step, txn', through', built, kept, _, progress⟩ := searchable.build shape maxEvents stops
    refine ⟨⟨txn', store.2⟩, log.length - through', ?_, ⟨log, through', kept.commit, rfl⟩, ?_⟩
    · show (buildSearchIndex (text.services env) (.begin store.1) maxEvents stops).map _ = _
      have run : buildSearchIndex (text.services env) (.begin store.1) maxEvents stops = _ := built
      rw [run]
      rfl
    · have below := kept.below
      omega
  have started : Ranked (log.length - through) (runs.begin store) := ⟨log, through, searchable, rfl⟩
  have all : ∀ c ∈ steps.map (fun step => SearchCall.build step.1 step.2),
      ∃ maxEvents stops, c = .build maxEvents stops := by
    intro c member
    obtain ⟨step, _, rfl⟩ := List.mem_map.mp member
    exact ⟨step.1, step.2, rfl⟩
  obtain ⟨log, through, caught, zero⟩ := Transactional.commits_reach Ranked _ advance started all
    (enough.trans_eq (List.length_map _).symm)
  have same : through = log.length := le_antisymm caught.below (by omega)
  exact ⟨log.length, same ▸ caught.state⟩

end Runs

end Wok.Db
