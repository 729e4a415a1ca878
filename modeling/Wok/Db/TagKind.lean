/-
**The `(tag, kind)` index.**

The writer posts the tags of an event by kind as it stores it, unless the transaction leaves them to
a later pass. A marker says up to which local id every event has its postings. A backfill step on a
table that has none walks the tag index in the order of its keys, from a cursor it keeps, and moves
the marker to the target of the pass when the walk ends; above the marker it indexes the events by
local id. Each step stops after a number of postings, or when its time is over.

* `backfillTagKindIndex`, `resetTagKindIndex`, `deferTagKindPostings` — the steps.
* `TagKinds` — **every posting is of a stored event, every event up to the marker is posted, and a
  running pass has posted the events of its target up to its cursor.**
* `TagKinds.insert`, `TagKinds.remove`, `writeBatch_tagKinds` — the writer keeps this.
-/

import Wok.Db.Upcoming

namespace Wok.Db

open Wok.Library Wok.Event List

/-! ### The state of the table -/

def Dbis.eventTagKindBuild : Nat := 22

def passTargetKey : Bytes := ascii "target"
def passVisitedKey : Bytes := ascii "visited"
def passCursorKey : Bytes := ascii "cursor"

def isTagKindMarker (key : Bytes) : Bool := key = tagKindSchemaKey || key = tagKindThroughKey

/-- A key-ordered pass over the tag index. -/
structure TagKindBulkPass where
  target : Nat
  visited : Nat
  deriving DecidableEq, Repr

/-- Where the table stands in one snapshot. -/
structure TagKindIndexState where
  schema : Option Nat
  indexedThrough : Nat
  highWater : Nat
  bulkPass : Option TagKindBulkPass
  deriving DecidableEq, Repr

def TagKindIndexState.complete (state : TagKindIndexState) : Bool :=
  state.schema = some tagKindSchemaVersion && state.highWater ≤ state.indexedThrough

def readPass (target visited : Option Bytes) : Option TagKindBulkPass := do
  let target ← marker target
  let visited ← marker visited
  return ⟨target, visited⟩

/-- The pass that runs, if one does. -/
def currentPass (t : Tables) : Option TagKindBulkPass :=
  readPass (t.get Dbis.eventTagKindBuild passTargetKey) (t.get Dbis.eventTagKindBuild passVisitedKey)

def writePass (txn : RwTxn) (pass : TagKindBulkPass) : RwTxn :=
  (txn.put Dbis.eventTagKindBuild passTargetKey (u64NeBytes pass.target)).put
    Dbis.eventTagKindBuild passVisitedKey (u64NeBytes pass.visited)

/-- An entry of the tag index: its key and the local id it lists. -/
abbrev TagEntry := Bytes × Nat

/-- The entry last visited, stored as the key followed by the id. -/
def readCursor (raw : Bytes) : Option TagEntry :=
  if raw.length < 8 then none
  else
    let key := raw.take (raw.length - 8)
    if 8 < key.length then some (key, u64FromNe (raw.drop (raw.length - 8))) else none

def passCursor (t : Tables) : Option TagEntry :=
  (t.get Dbis.eventTagKindBuild passCursorKey).bind readCursor

def tagKindThrough (t : Tables) : Nat :=
  (marker (t.get Dbis.eventTagKind tagKindThroughKey)).getD 0

def tagKindSchema (t : Tables) : Option Nat := marker (t.get Dbis.eventTagKind tagKindSchemaKey)

def tagKindIndexStateRo (t : Tables) : Except DbError TagKindIndexState := do
  let newest ← (RwTxn.begin t).largestIntegerKey Dbis.event
  return ⟨tagKindSchema t, tagKindThrough t, highWaterMark (t.get Dbis.state highWater) newest,
    currentPass t⟩

def tagKindIndexCompleteRo (t : Tables) : Except DbError Bool :=
  (tagKindIndexStateRo t).map TagKindIndexState.complete

def initializeTagKindIndexState (txn : RwTxn) (indexedThrough : Nat) : RwTxn :=
  ((txn.clear Dbis.eventTagKindBuild).setMarker Dbis.eventTagKind tagKindSchemaKey
    tagKindSchemaVersion).setMarker Dbis.eventTagKind tagKindThroughKey indexedThrough

/-- Empty the table and restart its marker at 0. -/
def resetTagKindIndex (txn : RwTxn) : RwTxn :=
  initializeTagKindIndexState (txn.clear Dbis.eventTagKind) 0

/-- Leave the postings of the events the transaction inserts to a key-ordered pass, when the next
backfill step would begin one and no other process has the database open. -/
def deferTagKindPostings (txn : RwTxn) (openInAnotherProcess : Bool) : RwTxn :=
  let unbuilt := tagKindSchema txn.tables = some tagKindSchemaVersion &&
    tagKindThrough txn.tables = 0 && (currentPass txn.tables).isNone
  { txn with deferTagKind := unbuilt && !openInAnotherProcess }

def skipTagKindPostings (txn : RwTxn) : RwTxn := { txn with deferTagKind := true }

/-! ### Backfill steps -/

/-- Entries or events a step reads ahead of indexing them. -/
def stepChunk : Nat := 64

/-- What stops a step: its postings, or its time, which may be over after any item. -/
structure StepLimits where
  maxEntries : Nat
  stops : Nat → Bool

/-- One entry read ahead; a value that is no local id is an error. -/
def collectTagEntry (seen : List TagEntry × Option DbError) (key value : Bytes) :
    (List TagEntry × Option DbError) × Bool :=
  match u64FromNeChecked value with
  | .ok lev =>
    ((seen.1 ++ [(key, lev)], seen.2), seen.2.isNone && (seen.1 ++ [(key, lev)]).length < stepChunk)
  | .error e => ((seen.1, some e), false)

/-- The rows after an entry, whether or not it remains; all of them at the beginning. -/
def tagRowsAfter (t : Tables) (after : Option TagEntry) : List Kv :=
  match after with
  | some (key, lev) => t.scan Dbis.eventTag key (u64NeBytes (nextId lev)) false
  | none => t.scan Dbis.eventTag [] [] false

/-- Up to a chunk of entries after one, and whether they run to the end of the table. -/
def tagEntriesAfter (txn : RwTxn) (after : Option TagEntry) :
    Except DbError (List TagEntry × Bool) :=
  match View.scanFold collectTagEntry ([], none) (tagRowsAfter txn.tables after) with
  | ((chunk, none), atEnd) => .ok (chunk, atEnd)
  | ((_, some e), _) => .error e

/-- What a key-ordered step carries. -/
structure TagWalk where
  txn : RwTxn
  position : Option TagEntry
  visited : Nat
  entries : Nat
  prepared : Nat

/-- The kind of the event with this local id; an entry whose event is gone has none. -/
def storedKind (txn : RwTxn) (lev : Nat) : Except DbError (Option Nat) :=
  match txn.getU64 Dbis.event lev with
  | some raw => (viewPacked raw).map fun p => some p.kind
  | none => .ok none

def visitTagEntry (w : TagWalk) (entry : TagEntry) : Except DbError TagWalk := do
  let (tag, createdAt) ← parseKeyStringU64 entry.1
  let kind ← storedKind w.txn entry.2
  let w := match kind, tag with
    | some kind, name :: value => { w with
        txn := w.txn.put Dbis.eventTagKind (tagKindKey name value kind createdAt)
          (u64NeBytes entry.2)
        entries := w.entries + 1 }
    | _, _ => w
  return { w with position := some entry, visited := w.visited + 1 }

def tagLoop (limits : StepLimits) : Chunked TagWalk TagEntry DbError where
  read w := do
    let (chunk, atEnd) ← tagEntriesAfter w.txn w.position
    return ({ w with prepared := w.prepared + chunk.length }, chunk, atEnd)
  work := visitTagEntry
  stops w := limits.maxEntries ≤ w.visited || limits.stops w.visited
  exhausted := .msg "backfill step ran out of entries"

/-- The entry the next step resumes after; none is put before the first entry is visited. -/
def putCursor (txn : RwTxn) : Option TagEntry → RwTxn
  | some (key, lev) => txn.put Dbis.eventTagKindBuild passCursorKey (key ++ u64NeBytes lev)
  | none => txn

/-- What a step got through: postings put, and entries or events read to prepare them. -/
structure StepWork where
  entries : Nat
  prepared : Nat
  deriving DecidableEq, Repr

/-- Continue the key-ordered pass from its cursor; the marker moves to the pass's target once the
walk reaches the end of the tag index. -/
def keyOrderedStep (txn : RwTxn) (pass : TagKindBulkPass) (through : Nat) (limits : StepLimits) :
    Except DbError ((StepWork × Nat × Option TagKindBulkPass) × RwTxn) := do
  let start : TagWalk := ⟨txn, passCursor txn.tables, 0, 0, 0⟩
  -- a chunk that is not the last one passes an entry
  let (w, walkedToEnd) ← (tagLoop limits).walk ((txn.tables.rows Dbis.eventTag).length + 1) start
  let work : StepWork := ⟨w.entries, w.prepared⟩
  if walkedToEnd then
    let indexedThrough := max pass.target through
    return ((work, indexedThrough, none), (w.txn.clear Dbis.eventTagKindBuild).setMarker
      Dbis.eventTagKind tagKindThroughKey indexedThrough)
  else
    let pass : TagKindBulkPass := ⟨pass.target, pass.visited + w.visited⟩
    return ((work, through, some pass), writePass (putCursor w.txn w.position) pass)

/-- One record read ahead: its local id and its keys; a record that cannot be read is an error. -/
def collectEvent (seen : List (Nat × List Bytes) × Option DbError) (key value : Bytes) :
    (List (Nat × List Bytes) × Option DbError) × Bool :=
  match (do
    let lev ← u64FromNeChecked key
    let p ← viewPacked value
    return (lev, tagKindKeys p)) with
  | .ok event =>
    ((seen.1 ++ [event], seen.2), seen.2.isNone && (seen.1 ++ [event]).length < stepChunk)
  | .error e => ((seen.1, some e), false)

/-- What a step by local id carries. -/
structure IdWalk where
  txn : RwTxn
  done : Nat
  events : Nat
  entries : Nat
  prepared : Nat

def idLoop (limits : StepLimits) : Chunked IdWalk (Nat × List Bytes) DbError where
  read w :=
    match View.scanFold collectEvent ([], none) (eventsAfter w.txn.tables w.done) with
    | ((chunk, none), atEnd) =>
      .ok ({ w with prepared := w.prepared + chunk.length }, chunk, atEnd)
    | ((_, some e), _) => .error e
  work w event := .ok ⟨putTagKindEntries w.txn event.1 event.2, event.1, w.events + 1,
    w.entries + event.2.length, w.prepared⟩
  stops w := limits.maxEntries ≤ w.entries || limits.stops w.events
  exhausted := .msg "backfill step ran out of events"

/-- Index the stored events above the marker in the order of their local ids. -/
def localIdStep (txn : RwTxn) (through highWater : Nat) (limits : StepLimits) :
    Except DbError ((StepWork × Nat) × RwTxn) := do
  let start : IdWalk := ⟨txn, through, 0, 0, 0⟩
  let (w, walkedToEnd) ←
    if highWater ≤ through then .ok (start, true)
    else (idLoop limits).walk (highWater - through + 1) start
  let indexedThrough := max (if walkedToEnd then highWater else w.done) through
  let txn := if indexedThrough ≠ through then
    w.txn.setMarker Dbis.eventTagKind tagKindThroughKey indexedThrough else w.txn
  return ((⟨w.entries, w.prepared⟩, indexedThrough), txn)

/-- What one backfill step did. -/
structure TagKindBackfillStep where
  entries : Nat
  prepared : Nat
  tagEntries : Nat
  state : TagKindIndexState
  deriving DecidableEq, Repr

/-- A new pass covers every event stored when it begins. -/
def beginPass (txn : RwTxn) (through highWater : Nat) : Option TagKindBulkPass × RwTxn :=
  match currentPass txn.tables with
  | some pass => (some pass, txn)
  | none =>
    if through = 0 ∧ (txn.tables.rows Dbis.event).length ≠ 0 then
      let start : TagKindBulkPass := ⟨highWater, 0⟩
      (some start, writePass (txn.clear Dbis.eventTagKindBuild) start)
    else (none, txn)

/-- `backfill_tag_kind_index`: nothing when the table is not in this layout. -/
def backfillTagKindIndex (txn : RwTxn) (limits : StepLimits) :
    Except DbError (Option TagKindBackfillStep × RwTxn) :=
  if tagKindSchema txn.tables = some tagKindSchemaVersion then do
    let limits : StepLimits := { limits with maxEntries := max limits.maxEntries 1 }
    let through := tagKindThrough txn.tables
    let highWater ← txn.highWater
    let tagEntries := (txn.tables.rows Dbis.eventTag).length
    let (pass, txn) := beginPass txn through highWater
    let ((work, indexedThrough, pass), txn) ← match pass with
      | some pass => keyOrderedStep txn pass through limits
      | none => (localIdStep txn through highWater limits).map fun ((work, indexedThrough), txn) =>
        ((work, indexedThrough, none), txn)
    return (some ⟨work.entries, work.prepared, tagEntries,
      ⟨some tagKindSchemaVersion, indexedThrough, highWater, pass⟩⟩, txn)
  else .ok (none, txn)

/-! ### Keys -/

/-- The key of a tag in the tag index, and with the kind. -/
def tagRow (p : PackedEvent) (tag : PackedEventTag) : Bytes :=
  makeKeyStringU64 (tag.name :: tag.value) p.createdAt

def kindRow (p : PackedEvent) (tag : PackedEventTag) : Bytes :=
  tagKindKey tag.name tag.value p.kind p.createdAt

section Keys

variable {host : Host} {t : Tables} {p : PackedEvent} {key value : Bytes}

theorem mem_tagKindKeys : key ∈ tagKindKeys p ↔ ∃ tag ∈ p.tags, kindRow p tag = key := by
  rw [tagKindKeys, mem_dedup, mem_insertionSort, mem_map]
  exact Iff.rfl

theorem kindRow_mem {tag : PackedEventTag} (member : tag ∈ p.tags) :
    kindRow p tag ∈ tagKindKeys p := mem_tagKindKeys.mpr ⟨tag, member, rfl⟩

/-- A posting has two integers in its key, a marker has not. -/
theorem not_marker_of_mem (member : key ∈ tagKindKeys p) : isTagKindMarker key = false := by
  obtain ⟨tag, _, rfl⟩ := mem_tagKindKeys.mp member
  have long : 16 < (kindRow p tag).length := by
    simp [kindRow, tagKindKey, makeKeyStringU64U64, u64NeBytes]
  rw [isTagKindMarker, Bool.or_eq_false_iff]
  constructor <;>
  · apply decide_eq_false
    intro same
    rw [same] at long
    exact absurd long (by decide)

theorem posts_tag :
    (indexEvent host p).Posts Dbis.eventTag key ↔ ∃ tag ∈ p.tags, tagRow p tag = key := by
  have own : (Dbis.eventTag, (indexEvent host p).tag) ∈ (indexEvent host p).tables := by
    simp [EventIndices.tables]
  rw [posts_of_mem own]
  exact mem_map

theorem Exact.tagRow (exact : Exact host t) : (key, value) ∈ t.rows Dbis.eventTag
    ↔ ∃ lev p tag, Holds t lev p ∧ tag ∈ p.tags ∧ key = tagRow p tag ∧ value = u64NeBytes lev := by
  rw [exact.index _ (by decide)]
  simp only [posts_tag]
  constructor
  · rintro ⟨lev, p, held, ⟨tag, member, rfl⟩, rfl⟩
    exact ⟨lev, p, tag, held, member, rfl, rfl⟩
  · rintro ⟨lev, p, tag, held, member, rfl, rfl⟩
    exact ⟨lev, p, held, ⟨tag, member, rfl⟩, rfl⟩

end Keys

/-! ### What the changes of the writer post -/

section Changes

variable {host : Host} {env : Services} {txn txn' : RwTxn} {lev : Nat} {p : PackedEvent}
  {json : Bytes} {e : Kv}

theorem OnlyTables.defers (only : OnlyTables txn txn') : txn'.deferTagKind = txn.deferTagKind := by
  obtain ⟨t, rfl⟩ := only
  rfl

theorem mem_putIndices_tagKind {idx : EventIndices} :
    e ∈ (putIndices txn lev idx).tables.rows Dbis.eventTagKind ↔
      e ∈ txn.tables.rows Dbis.eventTagKind ∨
        txn.deferTagKind = false ∧ e.1 ∈ idx.tagKind ∧ e.2 = u64NeBytes lev := by
  have post : Alters Dbis.indices txn (postAll idx.tables (u64NeBytes lev) txn) :=
    postAll_alters idx.tables_indices txn
  show e ∈ (if (postAll idx.tables (u64NeBytes lev) txn).deferTagKind
      then postAll idx.tables (u64NeBytes lev) txn
      else putTagKindEntries (postAll idx.tables (u64NeBytes lev) txn) lev
        idx.tagKind).tables.rows Dbis.eventTagKind ↔ _
  rw [post.only.defers]
  cases txn.deferTagKind with
  | true => simp [post.touches Dbis.eventTagKind (by decide)]
  | false =>
    simp only [Bool.false_eq_true, if_false, true_and]
    rw [putTagKindEntries, mem_putAll (by decide), post.touches _ (by decide)]
    simp

theorem mem_delIndices_tagKind {idx : EventIndices} :
    e ∈ (delIndices txn lev idx).tables.rows Dbis.eventTagKind ↔
      e ∈ txn.tables.rows Dbis.eventTagKind ∧ ¬(e.1 ∈ idx.tagKind ∧ e.2 = u64NeBytes lev) := by
  have removed : Alters Dbis.indices txn (unpostAll idx.tables (u64NeBytes lev) txn) :=
    unpostAll_alters idx.tables_indices txn
  show e ∈ (delAll Dbis.eventTagKind idx.tagKind (u64NeBytes lev)
    (unpostAll idx.tables (u64NeBytes lev) txn)).tables.rows Dbis.eventTagKind ↔ _
  rw [mem_delAll, removed.touches _ (by decide)]
  simp

theorem changeAuthorCount_defers {pubkey : Bytes} {insert : Bool}
    (run : changeAuthorCount txn pubkey insert = .ok txn') :
    txn'.deferTagKind = txn.deferTagKind := by
  rcases changeAuthorCount_eq run with rfl | ⟨_, rfl⟩ | rfl <;> rfl

/-- **Storing an event posts its tags by kind**, unless the transaction defers them. -/
theorem insertEvent_tagKind (run : insertEvent host txn p json = .ok (lev, txn')) :
    txn'.deferTagKind = txn.deferTagKind ∧ ∀ e : Kv,
      e ∈ txn'.tables.rows Dbis.eventTagKind ↔ e ∈ txn.tables.rows Dbis.eventTagKind ∨
        txn.deferTagKind = false ∧ e.1 ∈ tagKindKeys p ∧ e.2 = u64NeBytes lev := by
  obtain ⟨counted, count, author, -, -, -, rfl⟩ := insertEvent_eq run
  have flag : counted.deferTagKind = txn.deferTagKind := changeAuthorCount_defers author
  refine ⟨(putIndices_alters _ lev (indexEvent host p)).only.defers.trans flag, fun e => ?_⟩
  rw [mem_putIndices_tagKind, ← changeAuthorCount_touches author Dbis.eventTagKind (by decide),
    ← flag]
  exact or_congr_left (Iff.of_eq (congrArg (e ∈ ·) (recorded_touches _ (by decide))))

/-- **Deleting an event removes its postings.** -/
theorem deleteEventBasic_tagKind {deleted : Bool} (held : Holds txn.tables lev p)
    (run : deleteEventBasic env txn lev = .ok (deleted, txn')) :
    txn'.deferTagKind = txn.deferTagKind ∧ ∀ e : Kv,
      e ∈ txn'.tables.rows Dbis.eventTagKind ↔ e ∈ txn.tables.rows Dbis.eventTagKind ∧
        ¬(e.1 ∈ tagKindKeys p ∧ e.2 = u64NeBytes lev) := by
  obtain ⟨_, kind, forgot, json, unindexed, _, author, _, search, record⟩ := deleteEventBasic_eq run
  have forgot_flag : forgot.deferTagKind = txn.deferTagKind := by
    rcases forgetAuthor_eq author with rfl | ⟨_, _, _, change, rfl⟩
    · rfl
    · exact (changeAuthorCount_defers change :)
  have before : ∀ d, d ∉ [Dbis.state, Dbis.eventPayload, Dbis.eventSearch] →
      unindexed.tables.rows d = txn.tables.rows d :=
    ((forgetAuthor_touches author).mono (by decide)).trans ((touches_delKey (by decide) _).trans
      ((unindexSearch_alters search).touches.mono (by decide)))
  have found : Holds unindexed.tables lev p := ⟨held.1, by
    rw [before _ (by decide)]
    exact held.2⟩
  obtain ⟨loaded, count, rfl⟩ := removeRecord_eq found record
  refine ⟨?_, fun e => ?_⟩
  · show (delIndices _ lev _).deferTagKind = _
    rw [(delIndices_alters _ lev _).only.defers]
    exact (unindexSearch_alters search).only.defers.trans forgot_flag
  · show e ∈ ((delIndices _ lev _).tables.delKey Dbis.event _).rows Dbis.eventTagKind ↔ _
    rw [Tables.rows_delKey_of_ne (by decide), mem_delIndices_tagKind, ← before _ (by decide)]
    exact Iff.rfl

end Changes

/-! ### What the table holds -/

/-- The event has all its postings. -/
def Posted (t : Tables) (lev : Nat) (p : PackedEvent) : Prop :=
  ∀ key ∈ tagKindKeys p, (key, u64NeBytes lev) ∈ t.rows Dbis.eventTagKind

/-- The entry is not after the position of a pass. -/
def Passed (position : Option TagEntry) (e : Kv) : Prop :=
  ∃ q ∈ position, entryCode Dbis.eventTag e ≤ entryCode Dbis.eventTag (q.1, u64NeBytes q.2)

/-- A pass has posted the tags of the events of its target up to its position. -/
def PassedThrough (t : Tables) (target : Nat) (position : Option TagEntry) : Prop :=
  ∀ lev p, ∀ tag ∈ p.tags, Holds t lev p → lev ≤ target →
    Passed position (tagRow p tag, u64NeBytes lev) →
    (kindRow p tag, u64NeBytes lev) ∈ t.rows Dbis.eventTagKind

/-- Every posting is of a stored event, and every event up to the marker is posted. -/
structure Postings (env : Services) (log : List StoredEvent) (txn : RwTxn) (through : Nat) :
    Prop where
  marked : Marked env.host log txn
  below : through ≤ log.length
  schema : ∀ value, (tagKindSchemaKey, value) ∈ txn.tables.rows Dbis.eventTagKind
    ↔ value = u64NeBytes tagKindSchemaVersion
  marker : ∀ value, (tagKindThroughKey, value) ∈ txn.tables.rows Dbis.eventTagKind
    ↔ value = u64NeBytes through
  sound : ∀ e ∈ txn.tables.rows Dbis.eventTagKind, isTagKindMarker e.1 = false →
    ∃ lev p, Holds txn.tables lev p ∧ e.1 ∈ tagKindKeys p ∧ e.2 = u64NeBytes lev
  posted : ∀ lev p, Holds txn.tables lev p → lev ≤ through → Posted txn.tables lev p

/-- What holds of a running pass: it began at the marker 0, with events stored. -/
structure Passing (log : List StoredEvent) (t : Tables) (through : Nat) (pass : TagKindBulkPass) :
    Prop where
  unbuilt : through = 0
  some : 1 ≤ pass.target
  known : pass.target ≤ log.length
  placed : ∀ q ∈ passCursor t, q.2 ≤ log.length
  passed : PassedThrough t pass.target (passCursor t)

/-- **What every step keeps.** -/
structure TagKinds (env : Services) (log : List StoredEvent) (txn : RwTxn) (through : Nat) :
    Prop where
  postings : Postings env log txn through
  passing : ∀ pass, currentPass txn.tables = some pass → Passing log txn.tables through pass

section Holding

variable {env : Services} {log : List StoredEvent} {t t' : Tables} {txn txn' : RwTxn}
  {through lev : Nat} {p : PackedEvent}

theorem Postings.small (postings : Postings env log txn through) : through < 2 ^ 64 :=
  postings.below.trans_lt postings.marked.logged.sequence.small

theorem Postings.through_eq (postings : Postings env log txn through) :
    tagKindThrough txn.tables = through := by
  rw [tagKindThrough, marker_eq postings.small postings.marker, Option.getD_some]

theorem Postings.schema_eq (postings : Postings env log txn through) :
    tagKindSchema txn.tables = some tagKindSchemaVersion := marker_eq (by decide) postings.schema

theorem currentPass_congr (same : t'.rows Dbis.eventTagKindBuild = t.rows Dbis.eventTagKindBuild) :
    currentPass t' = currentPass t := by
  rw [currentPass, currentPass, Tables.get_congr same, Tables.get_congr same]

theorem passCursor_congr (same : t'.rows Dbis.eventTagKindBuild = t.rows Dbis.eventTagKindBuild) :
    passCursor t' = passCursor t := by
  rw [passCursor, passCursor, Tables.get_congr same]

/-- A posting that remains while its event is stored. -/
def KeepsPosted (t t' : Tables) : Prop :=
  ∀ lev p, Holds t' lev p → ∀ key ∈ tagKindKeys p,
    (key, u64NeBytes lev) ∈ t.rows Dbis.eventTagKind →
    (key, u64NeBytes lev) ∈ t'.rows Dbis.eventTagKind

theorem KeepsPosted.of_subset
    (more : ∀ e ∈ t.rows Dbis.eventTagKind, e ∈ t'.rows Dbis.eventTagKind) : KeepsPosted t t' :=
  fun _ _ _ _ _ row => more _ row

/-- A pass loses nothing by a step that adds no event of its target. -/
theorem PassedThrough.kept {target : Nat} {position : Option TagEntry}
    (passed : PassedThrough t target position) (keeps : KeepsPosted t t')
    (old : ∀ lev p, Holds t' lev p → lev ≤ target → Holds t lev p) :
    PassedThrough t' target position := by
  intro lev p tag member held within at_
  exact keeps lev p held _ (kindRow_mem member)
    (passed lev p tag member (old lev p held within) within at_)

/-- The table and the stored events are as they were. -/
theorem Postings.copy (postings : Postings env log txn through) (marked : Marked env.host log txn')
    (kind : txn'.tables.rows Dbis.eventTagKind = txn.tables.rows Dbis.eventTagKind)
    (event : txn'.tables.rows Dbis.event = txn.tables.rows Dbis.event) :
    Postings env log txn' through := by
  refine ⟨marked, postings.below, ?_, ?_, ?_, ?_⟩
  · rw [kind]
    exact postings.schema
  · rw [kind]
    exact postings.marker
  · simp only [Holds, kind, event]
    exact postings.sound
  · simp only [Holds, Posted, kind, event]
    exact postings.posted

section TagKinds

variable (kinds : TagKinds env log txn through)

include kinds

theorem TagKinds.copy (marked : Marked env.host log txn')
    (kind : txn'.tables.rows Dbis.eventTagKind = txn.tables.rows Dbis.eventTagKind)
    (build : txn'.tables.rows Dbis.eventTagKindBuild = txn.tables.rows Dbis.eventTagKindBuild)
    (event : txn'.tables.rows Dbis.event = txn.tables.rows Dbis.event) :
    TagKinds env log txn' through := by
  refine ⟨kinds.postings.copy marked kind event, fun pass running => ?_⟩
  rw [currentPass_congr build] at running
  obtain ⟨unbuilt, some, known, placed, passed⟩ := kinds.passing pass running
  have cursor := passCursor_congr build
  refine ⟨unbuilt, some, known, cursor ▸ placed, ?_⟩
  rw [cursor]
  simp only [PassedThrough, Holds, kind, event]
  exact passed

/-- A step that leaves these tables and the log. -/
theorem TagKinds.same {allowed : List Nat} (touches : Touches allowed txn txn')
    (apart : Dbis.eventTagKind ∉ allowed) (build : Dbis.eventTagKindBuild ∉ allowed)
    (primary : ∀ d ∈ Dbis.primary, d ∉ allowed) (keeps : KeepsSequence txn txn') :
    TagKinds env log txn' through :=
  kinds.copy (kinds.postings.marked.same (touches.samePrimary primary) keeps) (touches _ apart)
    (touches _ build) (touches.samePrimary primary).event

theorem TagKinds.commit : TagKinds env log (.begin (commit txn)) through := by
  have flushed : Touches [Dbis.state] txn (flush txn) := flush_touches txn
  exact kinds.copy kinds.postings.marked.commit (flushed _ (by decide)) (flushed _ (by decide))
    (flushed _ (by decide))

/-! ### The writer -/

/-- The events change, but not the markers, a pass and the postings of the events that stay. -/
theorem TagKinds.moved {log' : List StoredEvent} (marked : Marked env.host log' txn')
    (longer : log.length ≤ log'.length)
    (old : ∀ n q, Holds txn'.tables n q → n ≤ log.length → Holds txn.tables n q)
    (keeps : KeepsPosted txn.tables txn'.tables)
    (markers : ∀ key value, isTagKindMarker key = true →
      ((key, value) ∈ txn'.tables.rows Dbis.eventTagKind ↔
        (key, value) ∈ txn.tables.rows Dbis.eventTagKind))
    (sound : ∀ e ∈ txn'.tables.rows Dbis.eventTagKind, isTagKindMarker e.1 = false →
      ∃ lev p, Holds txn'.tables lev p ∧ e.1 ∈ tagKindKeys p ∧ e.2 = u64NeBytes lev)
    (build : txn'.tables.rows Dbis.eventTagKindBuild = txn.tables.rows Dbis.eventTagKindBuild) :
    TagKinds env log' txn' through := by
  refine ⟨⟨marked, kinds.postings.below.trans longer, fun value => ?_, fun value => ?_, sound, ?_⟩,
    ?_⟩
  · rw [markers _ _ (by simp [isTagKindMarker]), kinds.postings.schema]
  · rw [markers _ _ (by simp [isTagKindMarker]), kinds.postings.marker]
  · intro n q held covered key posting
    have before := old n q held (covered.trans kinds.postings.below)
    exact keeps n q held key posting (kinds.postings.posted n q before covered key posting)
  · intro pass running
    rw [currentPass_congr build] at running
    have passing := kinds.passing pass running
    refine ⟨passing.unbuilt, passing.some, passing.known.trans longer, ?_, ?_⟩ <;>
      rw [passCursor_congr build]
    · exact fun q at_ => (passing.placed q at_).trans longer
    · exact passing.passed.kept keeps fun n q held within =>
        old n q held (within.trans passing.known)

/-- **A stored event is above the marker and the target of a pass.** -/
theorem TagKinds.insert {json : Bytes} (run : insertEvent env.host txn p json = .ok (lev, txn')) :
    TagKinds env (log ++ [⟨lev, p.buf, json⟩]) txn' through := by
  obtain ⟨_, rows⟩ := insertEvent_tagKind run
  have adds := insertEvent_adds run
  obtain ⟨rfl, marked⟩ := kinds.postings.marked.insert run
  refine kinds.moved marked (by simp) (fun n q held within => ?_)
    (.of_subset fun e row => (rows e).mpr (.inl row)) (fun key value is => ?_) (fun e row other => ?_)
    (insertEvent_touches run Dbis.eventTagKindBuild (by decide))
  · rcases adds.stored.mp held with ⟨rfl, _⟩ | before
    · omega
    · exact before
  · rw [rows]
    refine or_iff_left ?_
    rintro ⟨_, posting, _⟩
    rw [not_marker_of_mem posting] at is
    cases is
  · rcases (rows e).mp row with before | ⟨_, posting, value⟩
    · obtain ⟨n, q, held, posting, value⟩ := kinds.postings.sound e before other
      exact ⟨n, q, adds.stored.mpr (.inr held), posting, value⟩
    · exact ⟨_, p, adds.stored.mpr (.inl ⟨rfl, rfl⟩), posting, value⟩

/-- **The postings of a deleted event go with it**, and no others. -/
theorem TagKinds.remove {deleted : Bool} (held : Holds txn.tables lev p)
    (run : deleteEventBasic env txn lev = .ok (deleted, txn')) : TagKinds env log txn' through := by
  obtain ⟨_, rows⟩ := deleteEventBasic_tagKind held run
  have removes := deleteEventBasic_removes held run
  refine kinds.moved (kinds.postings.marked.remove held run) le_rfl
    (fun n q stored _ => (removes.stored_iff.mp stored).1) ?_ (fun key value is => ?_)
    (fun e row other => ?_) (deleteEventBasic_touches run Dbis.eventTagKindBuild (by decide))
  · intro n q stored key _ row
    obtain ⟨before, other⟩ := removes.stored_iff.mp stored
    refine (rows _).mpr ⟨row, fun own => other ?_⟩
    exact u64NeBytes_inj before.1 held.1 own.2
  · rw [rows]
    refine and_iff_left ?_
    rintro ⟨posting, _⟩
    rw [not_marker_of_mem posting] at is
    cases is
  · obtain ⟨before, apart⟩ := (rows e).mp row
    obtain ⟨n, q, stored, posting, value⟩ := kinds.postings.sound e before other
    refine ⟨n, q, removes.stored_iff.mpr ⟨stored, fun same => apart ?_⟩, posting, value⟩
    subst same
    rw [stored.unique held] at posting
    exact ⟨posting, value⟩

end TagKinds

/-- In a batch that began after `n` events of the log: a running pass began before it, and unless
the transaction defers its postings, the events stored since have theirs. -/
structure Batching (env : Services) (through n : Nat) (deferring : Bool) (log : List StoredEvent)
    (txn : RwTxn) : Prop where
  kinds : TagKinds env log txn through
  flag : txn.deferTagKind = deferring
  since : n ≤ log.length
  earlier : ∀ pass, currentPass txn.tables = some pass → pass.target ≤ n
  posted : deferring = false → ∀ lev p, Holds txn.tables lev p → n < lev → Posted txn.tables lev p

theorem overQuota_defers {authorQuota : Nat} {levs : List Nat} {refused : Bool}
    (run : overQuota authorQuota txn p levs = .ok (refused, txn')) :
    txn'.deferTagKind = txn.deferTagKind := by
  rcases overQuota_eq run with rfl | ⟨_, rfl⟩ <;> rfl

theorem markRequest_defers {policy : VanishPolicy} (run : markRequest policy txn p = .ok txn') :
    txn'.deferTagKind = txn.deferTagKind := by
  obtain ⟨_, rfl⟩ := (markRequest_state run).1
  rfl

/-- A step that leaves the table, the build table, the stored events and the log. -/
theorem Batching.same {n : Nat} {deferring : Bool} {allowed : List Nat}
    (batching : Batching env through n deferring log txn) (touches : Touches allowed txn txn')
    (apart : Dbis.eventTagKind ∉ allowed) (build : Dbis.eventTagKindBuild ∉ allowed)
    (primary : ∀ d ∈ Dbis.primary, d ∉ allowed) (keeps : KeepsSequence txn txn')
    (flag : txn'.deferTagKind = txn.deferTagKind) :
    Batching env through n deferring log txn' := by
  refine ⟨batching.kinds.same touches apart build primary keeps, flag.trans batching.flag,
    batching.since, ?_, fun posts lev p held above => ?_⟩
  · rw [currentPass_congr (touches _ build)]
    exact batching.earlier
  · rw [Posted, touches _ apart]
    exact batching.posted posts lev p ((touches.samePrimary primary).stored.mp held) above

/-- **The changes of the writer keep what the batch posts.** -/
theorem batching_kept (env : Services) (through n : Nat) (deferring : Bool) :
    KeptByWriter env (fun _ => True) (Batching env through n deferring) where
  counted := by
    intro log txn txn' authorQuota p levs refused batching quota
    have same : Touches [] txn txn' := touches_of_tables (overQuota_tables quota)
    exact batching.same same (by simp) (by simp) (by simp) (overQuota_keeps quota)
      (overQuota_defers quota)
  stored := by
    intro log policy e p levs judgedIn txn marked lev inserted _ _ _ _ before mark insert
    have batching := before.same (markRequest_touches mark) (by decide) (by decide) (by decide)
      (markRequest_keeps mark) (markRequest_defers mark)
    obtain ⟨flag, rows⟩ := insertEvent_tagKind insert
    refine ⟨batching.kinds.insert insert, flag.trans batching.flag, ?_, ?_, ?_⟩
    · exact batching.since.trans (by simp)
    · rw [currentPass_congr (insertEvent_touches insert _ (by decide))]
      exact batching.earlier
    · intro posts n q held above key posting
      rw [rows]
      rcases (insertEvent_adds insert).stored.mp held with ⟨rfl, rfl⟩ | old
      · exact .inr ⟨batching.flag.trans posts, posting, rfl⟩
      · exact .inl (batching.posted posts n q old above key posting)
  removed := by
    intro log txn lev p deleted txn' held batching run
    obtain ⟨flag, rows⟩ := deleteEventBasic_tagKind held run
    refine ⟨batching.kinds.remove held run, flag.trans batching.flag, batching.since, ?_, ?_⟩
    · rw [currentPass_congr (deleteEventBasic_touches run _ (by decide))]
      exact batching.earlier
    · intro posts n q stored above key posting
      obtain ⟨before, other⟩ := (deleteEventBasic_removes held run).stored_iff.mp stored
      refine (rows _).mpr ⟨batching.posted posts n q before above key posting, fun own => other ?_⟩
      exact u64NeBytes_inj before.1 held.1 own.2

theorem TagKinds.batching (kinds : TagKinds env log txn through) :
    Batching env through log.length txn.deferTagKind log txn where
  kinds := kinds
  flag := rfl
  since := le_rfl
  earlier pass running := (kinds.passing pass running).known
  posted _ _ _ held above :=
    absurd (kinds.postings.marked.logged.logs.small held).2 (not_le.mpr above)

/-- **The marker moves** to where the events are posted. -/
theorem Postings.setThrough {m : Nat} (postings : Postings env log txn through)
    (below : m ≤ log.length)
    (posted : ∀ lev p, Holds txn.tables lev p → lev ≤ m → Posted txn.tables lev p) :
    Postings env log (txn.setMarker Dbis.eventTagKind tagKindThroughKey m) m := by
  have touches := setMarker_touches txn Dbis.eventTagKind tagKindThroughKey m
  have only : OnlyTables txn (txn.setMarker Dbis.eventTagKind tagKindThroughKey m) := ⟨_, rfl⟩
  have primary := touches.samePrimary (by decide)
  have apart : tagKindSchemaKey ≠ tagKindThroughKey := by decide
  have other : ∀ {key}, isTagKindMarker key = false → key ≠ tagKindThroughKey := by
    rintro _ plain rfl
    cases plain
  refine ⟨postings.marked.same primary (only.keepsSequence touches (by decide)), below, ?_, ?_, ?_, ?_⟩
  · intro value
    rw [mem_setMarker (by decide), ← postings.schema]
    simp [apart]
  · intro value
    rw [mem_setMarker (by decide)]
    simp
  · intro e member plain
    rcases (mem_setMarker (by decide) m).mp member with rfl | ⟨before, _⟩
    · cases plain
    · obtain ⟨lev, p, held, posting, value⟩ := postings.sound e before plain
      exact ⟨lev, p, primary.stored.mpr held, posting, value⟩
  · intro lev p held covered key posting
    refine (mem_setMarker (by decide) m).mpr (.inr ⟨?_, other (not_marker_of_mem posting)⟩)
    exact posted lev p (primary.stored.mp held) covered key posting

theorem Batching.noted {n : Nat} (batching : Batching env through n false log txn) :
    ∃ through', TagKinds env log (noteTagKindIndexed txn (n + 1) log.length) through' := by
  have postings := batching.kinds.postings
  have schema : Wok.Db.marker (txn.get Dbis.eventTagKind tagKindSchemaKey)
      = some tagKindSchemaVersion := postings.schema_eq
  have marker : (Wok.Db.marker (txn.get Dbis.eventTagKind tagKindThroughKey)).getD 0 = through :=
    postings.through_eq
  simp only [noteTagKindIndexed, schema, marker, if_true]
  split_ifs with moves
  · -- the marker covered every event before the batch, so no pass runs
    have covered : n ≤ through := by omega
    refine ⟨log.length, postings.setThrough le_rfl fun lev p held _ => ?_, fun pass running => ?_⟩
    · by_cases before : lev ≤ n
      · exact postings.posted lev p held (before.trans covered)
      · exact batching.posted rfl lev p held (not_le.mp before)
    · have build := setMarker_touches txn Dbis.eventTagKind tagKindThroughKey log.length
        Dbis.eventTagKindBuild (by decide)
      have running : currentPass txn.tables = some pass := (currentPass_congr build).symm.trans running
      have passing := batching.kinds.passing pass running
      have earlier := batching.earlier pass running
      have := passing.unbuilt
      have := passing.some
      omega
  · exact ⟨through, batching.kinds⟩

theorem Logs.batch_ids {host : Host} {written : List StoredEvent}
    (logs : Logs host (log ++ written) t) (nonempty : written ≠ []) :
    written.head?.map StoredEvent.levId = some (log.length + 1) ∧
      written.getLast?.map StoredEvent.levId = some (log ++ written).length := by
  have ids : written.map StoredEvent.levId = List.range' (1 + log.length) written.length := by
    have numbered := logs.numbered
    rw [map_append, length_append, ← range'_append_1] at numbered
    exact (append_inj numbered (by simp)).2
  have some := length_pos_iff.mpr nonempty
  rw [← head?_map, ← getLast?_map, ids, length_append, head?_range',
    getLast?_range', if_neg some.ne', if_neg some.ne', Option.some.injEq, Option.some.injEq]
  omega

/-- **A batch keeps the table**, in either way of posting. -/
theorem writeBatch_tagKinds {σ : Type} {sink : NegentropySink σ} {policy : VanishPolicy}
    {authorQuota : Nat} {w w' : Writer σ} {evs done : List EventToWrite}
    (kinds : TagKinds env log w.txn through)
    (run : writeEventsWithQuota env sink policy authorQuota w evs = .ok (w', done)) :
    ∃ written through', TagKinds env (log ++ written) w'.txn through' := by
  simp only [writeEventsWithQuota, bind_eq_ok, pure_eq_ok] at run
  obtain ⟨st, loop, finished⟩ := run
  obtain ⟨written, wrote, batching, _⟩ := (batching_kept env through log.length
    w.txn.deferTagKind).writeLoop (by simp) kinds.batching loop
  refine ⟨written, ?_⟩
  rw [show w' = st.finish.1 from congrArg Prod.fst finished.symm]
  rcases st.finish_eq with same | ⟨first, last, isFirst, isLast, deferring, same⟩ <;> rw [same]
  · exact ⟨through, batching.kinds⟩
  · have nonempty : written ≠ [] := by
      rintro rfl
      rw [wrote.first] at isFirst
      cases isFirst
    obtain ⟨head, tail⟩ := batching.kinds.postings.marked.logged.logs.batch_ids nonempty
    rw [← wrote.first, isFirst, Option.some.injEq] at head
    rw [← wrote.last, isLast, Option.some.injEq] at tail
    rw [head, tail]
    exact (batching.flag.symm.trans deferring ▸ batching).noted

end Holding

end Wok.Db
