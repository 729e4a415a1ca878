/-
**The index entries of an event.**

`indexEvent` derives the keys of an event from its packed record. Three functions of the source
use them: `putIndices` when an event is stored, `delIndices` when it is deleted, and
`eventIndexEntries`, the list an integrity check compares the tables with. They name the tables
one by one, each on its own.

* `EventIndices.Posts` — the event has a key in a table.
* `mem_putIndices`, `mem_delIndices` — storing adds exactly the keys, deleting removes exactly
  the entries of the event.
* `mem_eventIndexEntries` — **the checked list is the same keys.**
-/

import Wok.Db.State
import Wok.Event.Packed

namespace Wok.Db

open Wok.Library Wok.Event List

/-! ### Deriving the keys -/

structure EventIndices where
  createdAt : Option Nat
  id : Option Bytes
  pubkey : Option Bytes
  kind : Option Bytes
  pubkeyKind : Option Bytes
  tag : List Bytes
  tagKind : List Bytes
  deletion : List Bytes
  expiration : List Nat
  replace : List Bytes
  replaceDeletion : List Bytes
  canonicalReplaceDeletion : List Bytes

def tagKindKey (tagName : Byte) (tagValue : Bytes) (kind createdAt : Nat) : Bytes :=
  makeKeyStringU64U64 (tagName :: tagValue) kind createdAt

/-- The distinct `(tag, kind)` keys of an event, in order. -/
def tagKindKeys (p : PackedEvent) : List Bytes :=
  ((p.tags.map fun tag => tagKindKey tag.name tag.value p.kind p.createdAt).insertionSort
    (· ≤ ·)).dedup

/-- The author, the first `d` and the kind; an event without a `d` tag has none. -/
def replaceKey (p : PackedEvent) : Option Bytes :=
  p.firstDTag.map fun d => makeKeyStringU64 (p.pubkey ++ d) p.kind

/-- The tombstones an `a` tag of a deletion request leaves: as written, and canonical. -/
def addressTombstones (host : Host) (p : PackedEvent) (value : Bytes) : List Bytes × List Bytes :=
  match hashedTagValueDigest value with
  | some digest => ([makeKeyStringU64 digest p.createdAt], [])
  | none =>
    if utf8Valid value then
      match parseATag value with
      | .ok a =>
        let tombstone (aTag : Bytes) := makeKeyStringU64 (host.sha256 aTag) p.createdAt
        if a.pubkey ≠ p.pubkey then ([], [])
        else if isParamReplaceableKind a.kind then
          ([tombstone value], if a.spell ≠ value then [tombstone a.spell] else [])
        else if isReplaceableKind a.kind ∧ a.d = [] then ([], [tombstone a.spell])
        else ([], [])
      | .error _ => ([], [])
    else ([], [])

/-- The values of the tags `name` of a deletion request; none for other events. -/
def deletionTags (p : PackedEvent) (name : Byte) : List Bytes :=
  if p.kind = 5 then (p.tags.filter fun tag => tag.name = name).map PackedEventTag.value else []

def indexEvent (host : Host) (p : PackedEvent) : EventIndices where
  createdAt := some p.createdAt
  id := some (makeKeyStringU64 p.id p.createdAt)
  pubkey := some (makeKeyStringU64 p.pubkey p.createdAt)
  kind := some (makeKeyU64U64 p.kind p.createdAt)
  pubkeyKind := some (makeKeyStringU64U64 p.pubkey p.kind p.createdAt)
  tag := p.tags.map fun tag => makeKeyStringU64 (tag.name :: tag.value) p.createdAt
  tagKind := tagKindKeys p
  deletion := (deletionTags p 101).map fun value => value ++ p.pubkey
  expiration := if p.expiration ≠ 0 then [p.expiration] else []
  replace := (replaceKey p).toList
  replaceDeletion := (deletionTags p 97).flatMap fun value => (addressTombstones host p value).1
  canonicalReplaceDeletion :=
    (deletionTags p 97).flatMap fun value => (addressTombstones host p value).2

/-! ### Storing and deleting -/

/-- The same value under each key of a list. -/
def putAll (dbi : Nat) (keys : List Bytes) (value : Bytes) (txn : RwTxn) : RwTxn :=
  keys.foldl (fun txn key => txn.put dbi key value) txn

def delAll (dbi : Nat) (keys : List Bytes) (value : Bytes) (txn : RwTxn) : RwTxn :=
  keys.foldl (fun txn key => txn.delPair dbi key value) txn

def putTagKindEntries (txn : RwTxn) (lev : Nat) (keys : List Bytes) : RwTxn :=
  putAll Dbis.eventTagKind keys (u64NeBytes lev) txn

def delTagKindEntries (txn : RwTxn) (lev : Nat) (keys : List Bytes) : RwTxn :=
  delAll Dbis.eventTagKind keys (u64NeBytes lev) txn

def putIndices (txn : RwTxn) (lev : Nat) (idx : EventIndices) : RwTxn :=
  let value := u64NeBytes lev
  let txn := putAll Dbis.eventCreatedAt (idx.createdAt.toList.map u64NeBytes) value txn
  let txn := putAll Dbis.eventDeletion idx.deletion value txn
  let txn := putAll Dbis.eventExpiration (idx.expiration.map u64NeBytes) value txn
  let txn := putAll Dbis.eventId idx.id.toList value txn
  let txn := putAll Dbis.eventKind idx.kind.toList value txn
  let txn := putAll Dbis.eventPubkey idx.pubkey.toList value txn
  let txn := putAll Dbis.eventPubkeyKind idx.pubkeyKind.toList value txn
  let txn := putAll Dbis.eventReplace idx.replace value txn
  let txn := putAll Dbis.eventReplaceDeletion
    (idx.replaceDeletion ++ idx.canonicalReplaceDeletion) value txn
  let txn := putAll Dbis.eventTag idx.tag value txn
  if txn.deferTagKind then txn else putTagKindEntries txn lev idx.tagKind

def delIndices (txn : RwTxn) (lev : Nat) (idx : EventIndices) : RwTxn :=
  let value := u64NeBytes lev
  let txn := delAll Dbis.eventCreatedAt (idx.createdAt.toList.map u64NeBytes) value txn
  let txn := delAll Dbis.eventDeletion idx.deletion value txn
  let txn := delAll Dbis.eventExpiration (idx.expiration.map u64NeBytes) value txn
  let txn := delAll Dbis.eventId idx.id.toList value txn
  let txn := delAll Dbis.eventKind idx.kind.toList value txn
  let txn := delAll Dbis.eventPubkey idx.pubkey.toList value txn
  let txn := delAll Dbis.eventPubkeyKind idx.pubkeyKind.toList value txn
  let txn := delAll Dbis.eventReplace idx.replace value txn
  let txn := delAll Dbis.eventReplaceDeletion
    (idx.replaceDeletion ++ idx.canonicalReplaceDeletion) value txn
  let txn := delAll Dbis.eventTag idx.tag value txn
  delTagKindEntries txn lev idx.tagKind

/-! ### The checked list -/

structure EventIndexEntry where
  dbi : Nat
  key : Bytes
  value : Bytes
  legacyOptional : Bool
  deriving DecidableEq, Repr

/-- Order by table, key, value and whether the entry is optional. -/
def EventIndexEntry.le (a b : EventIndexEntry) : Bool :=
  ((cmp a.dbi b.dbi).then ((cmp a.key b.key).then ((cmp a.value b.value).then
    (cmp a.legacyOptional b.legacyOptional)))) ≠ .gt

/-- Whether two entries are one physical entry. -/
def EventIndexEntry.same (a b : EventIndexEntry) : Bool :=
  a.dbi = b.dbi && a.key = b.key && a.value = b.value

/-- `dedup_by`: of each run of equal entries the first stays. -/
def dedupBy (same : EventIndexEntry → EventIndexEntry → Bool) :
    List EventIndexEntry → List EventIndexEntry
  | [] => []
  | [a] => [a]
  | a :: b :: l => if same b a then dedupBy same (a :: l) else a :: dedupBy same (b :: l)

def eventIndexEntries (host : Host) (lev : Nat) (p : PackedEvent) : List EventIndexEntry :=
  let idx := indexEvent host p
  let push (dbi : Nat) (keys : List Bytes) : List EventIndexEntry :=
    keys.map fun key => ⟨dbi, key, u64NeBytes lev, false⟩
  let entries :=
    push Dbis.eventCreatedAt (idx.createdAt.toList.map u64NeBytes) ++
    push Dbis.eventDeletion idx.deletion ++
    push Dbis.eventExpiration (idx.expiration.map u64NeBytes) ++
    push Dbis.eventId idx.id.toList ++
    push Dbis.eventKind idx.kind.toList ++
    push Dbis.eventPubkey idx.pubkey.toList ++
    push Dbis.eventPubkeyKind idx.pubkeyKind.toList ++
    push Dbis.eventReplace idx.replace ++
    push Dbis.eventReplaceDeletion idx.replaceDeletion ++
    push Dbis.eventTag idx.tag ++
    idx.canonicalReplaceDeletion.map fun key =>
      ⟨Dbis.eventReplaceDeletion, key, u64NeBytes lev, true⟩
  dedupBy EventIndexEntry.same (entries.insertionSort fun a b => a.le b = true)

/-! ### The same keys everywhere -/

namespace EventIndices

/-- The keys of an event, table by table. -/
def tables (idx : EventIndices) : List (Nat × List Bytes) :=
  [(Dbis.eventCreatedAt, idx.createdAt.toList.map u64NeBytes), (Dbis.eventDeletion, idx.deletion),
    (Dbis.eventExpiration, idx.expiration.map u64NeBytes), (Dbis.eventId, idx.id.toList),
    (Dbis.eventKind, idx.kind.toList), (Dbis.eventPubkey, idx.pubkey.toList),
    (Dbis.eventPubkeyKind, idx.pubkeyKind.toList), (Dbis.eventReplace, idx.replace),
    (Dbis.eventReplaceDeletion, idx.replaceDeletion ++ idx.canonicalReplaceDeletion),
    (Dbis.eventTag, idx.tag)]

/-- The event has this key in this table. -/
def Posts (idx : EventIndices) (dbi : Nat) (key : Bytes) : Prop :=
  ∃ t ∈ idx.tables, t.1 = dbi ∧ key ∈ t.2

theorem tables_indices (idx : EventIndices) : ∀ t ∈ idx.tables, t.1 ∈ Dbis.indices := by
  have same : idx.tables.map Prod.fst = [Dbis.eventCreatedAt, Dbis.eventDeletion,
    Dbis.eventExpiration, Dbis.eventId, Dbis.eventKind, Dbis.eventPubkey, Dbis.eventPubkeyKind,
    Dbis.eventReplace, Dbis.eventReplaceDeletion, Dbis.eventTag] := rfl
  intro t member
  have inside := mem_map_of_mem (f := Prod.fst) member
  rw [same] at inside
  revert inside
  generalize t.1 = dbi
  revert dbi
  decide

theorem tables_dupSort (idx : EventIndices) :
    ∀ t ∈ idx.tables, (spec t.1).flags.dupSort = true := by
  have all : ∀ dbi ∈ Dbis.indices, (spec dbi).flags.dupSort = true := by decide
  exact fun t member => all t.1 (idx.tables_indices t member)

end EventIndices

section Postings

variable {dbi d lev : Nat} {keys : List Bytes} {value : Bytes} {txn : RwTxn} {e : Kv}
  {idx : EventIndices}
variable {tables : List (Nat × List Bytes)}

theorem mem_putAll (dups : (spec dbi).flags.dupSort = true) :
    e ∈ (putAll dbi keys value txn).tables.rows d
      ↔ e ∈ txn.tables.rows d ∨ d = dbi ∧ e.1 ∈ keys ∧ e.2 = value := by
  induction keys generalizing txn with
  | nil => simp [putAll]
  | cons key keys ih =>
    show e ∈ (putAll dbi keys value (txn.put dbi key value)).tables.rows d ↔ _
    rw [ih]
    by_cases same : d = dbi
    · subst same
      show (e ∈ (txn.tables.put d key value).rows d ∨ _) ↔ _
      rw [Tables.mem_put_dup dups, Prod.ext_iff, mem_cons]
      tauto
    · show (e ∈ (txn.tables.put dbi key value).rows d ∨ _) ↔ _
      rw [Tables.rows_put_of_ne same]
      tauto

theorem mem_delAll :
    e ∈ (delAll dbi keys value txn).tables.rows d
      ↔ e ∈ txn.tables.rows d ∧ ¬(d = dbi ∧ e.1 ∈ keys ∧ e.2 = value) := by
  induction keys generalizing txn with
  | nil => simp [delAll]
  | cons key keys ih =>
    show e ∈ (delAll dbi keys value (txn.delPair dbi key value)).tables.rows d ↔ _
    rw [ih]
    by_cases same : d = dbi
    · subst same
      show (e ∈ (txn.tables.delPair d key value).rows d ∧ _) ↔ _
      rw [Tables.mem_delPair, ne_eq, Prod.ext_iff, mem_cons]
      tauto
    · show (e ∈ (txn.tables.delPair dbi key value).rows d ∧ _) ↔ _
      rw [Tables.rows_delPair_of_ne same]
      tauto

/-- The keys of several tables, under one value. -/
def postAll (tables : List (Nat × List Bytes)) (value : Bytes) (txn : RwTxn) : RwTxn :=
  tables.foldl (fun txn t => putAll t.1 t.2 value txn) txn

def unpostAll (tables : List (Nat × List Bytes)) (value : Bytes) (txn : RwTxn) : RwTxn :=
  tables.foldl (fun txn t => delAll t.1 t.2 value txn) txn

theorem mem_postAll (dups : ∀ t ∈ tables, (spec t.1).flags.dupSort = true) :
    e ∈ (postAll tables value txn).tables.rows d
      ↔ e ∈ txn.tables.rows d ∨ (∃ t ∈ tables, t.1 = d ∧ e.1 ∈ t.2) ∧ e.2 = value := by
  induction tables generalizing txn with
  | nil => simp [postAll]
  | cons t tables ih =>
    show e ∈ (postAll tables value (putAll t.1 t.2 value txn)).tables.rows d ↔ _
    rw [ih fun u member => dups u (.tail t member),
      mem_putAll (dups t (.head _)), exists_mem_cons_iff, eq_comm, or_assoc,
      or_and_right, and_assoc]

theorem mem_unpostAll :
    e ∈ (unpostAll tables value txn).tables.rows d
      ↔ e ∈ txn.tables.rows d ∧ ¬((∃ t ∈ tables, t.1 = d ∧ e.1 ∈ t.2) ∧ e.2 = value) := by
  induction tables generalizing txn with
  | nil => simp [unpostAll]
  | cons t tables ih =>
    show e ∈ (unpostAll tables value (delAll t.1 t.2 value txn)).tables.rows d ↔ _
    rw [ih, mem_delAll, exists_mem_cons_iff, eq_comm, and_assoc, or_and_right, not_or,
      and_assoc]

variable {allowed : List Nat}

theorem putAll_alters (inside : dbi ∈ allowed) (txn : RwTxn) :
    Alters allowed txn (putAll dbi keys value txn) :=
  foldl_alters (fun key _ => alters_put inside key value) txn

theorem delAll_alters (inside : dbi ∈ allowed) (txn : RwTxn) :
    Alters allowed txn (delAll dbi keys value txn) :=
  foldl_alters (fun key _ => alters_delPair inside key value) txn

theorem postAll_alters (inside : ∀ t ∈ tables, t.1 ∈ allowed) (txn : RwTxn) :
    Alters allowed txn (postAll tables value txn) :=
  foldl_alters (fun t member => putAll_alters (inside t member)) txn

theorem unpostAll_alters (inside : ∀ t ∈ tables, t.1 ∈ allowed) (txn : RwTxn) :
    Alters allowed txn (unpostAll tables value txn) :=
  foldl_alters (fun t member => delAll_alters (inside t member)) txn

theorem ne_tagKind_of_index (inside : d ∈ Dbis.indices) : d ≠ Dbis.eventTagKind := by
  rintro rfl
  exact absurd inside (by decide)

/-- **Storing an event adds its keys to the index tables**, and nothing else. -/
theorem mem_putIndices (other : d ≠ Dbis.eventTagKind) :
    e ∈ (putIndices txn lev idx).tables.rows d
      ↔ e ∈ txn.tables.rows d ∨ idx.Posts d e.1 ∧ e.2 = u64NeBytes lev := by
  have posted : e ∈ (putIndices txn lev idx).tables.rows d
      ↔ e ∈ (postAll idx.tables (u64NeBytes lev) txn).tables.rows d := by
    show e ∈ (if (postAll idx.tables (u64NeBytes lev) txn).deferTagKind
        then postAll idx.tables (u64NeBytes lev) txn
        else putTagKindEntries (postAll idx.tables (u64NeBytes lev) txn) lev
          idx.tagKind).tables.rows d ↔ _
    split_ifs
    · exact Iff.rfl
    · rw [putTagKindEntries, mem_putAll (by decide)]
      exact or_iff_left fun here => other here.1
  rw [posted, mem_postAll idx.tables_dupSort]
  exact Iff.rfl

/-- **Deleting an event removes exactly its entries.** -/
theorem mem_delIndices (other : d ≠ Dbis.eventTagKind) :
    e ∈ (delIndices txn lev idx).tables.rows d
      ↔ e ∈ txn.tables.rows d ∧ ¬(idx.Posts d e.1 ∧ e.2 = u64NeBytes lev) := by
  show e ∈ (delAll Dbis.eventTagKind idx.tagKind (u64NeBytes lev)
    (unpostAll idx.tables (u64NeBytes lev) txn)).tables.rows d ↔ _
  rw [mem_delAll, mem_unpostAll]
  have elsewhere : ¬(d = Dbis.eventTagKind ∧ e.1 ∈ idx.tagKind ∧ e.2 = u64NeBytes lev) :=
    fun here => other here.1
  rw [and_iff_left elsewhere]
  exact Iff.rfl

/-- Storing and deleting the entries of an event changes only the index tables. -/
theorem putIndices_alters (txn : RwTxn) (lev : Nat) (idx : EventIndices) :
    Alters (Dbis.eventTagKind :: Dbis.indices) txn (putIndices txn lev idx) := by
  have posted : Alters (Dbis.eventTagKind :: Dbis.indices) txn
      (postAll idx.tables (u64NeBytes lev) txn) :=
    postAll_alters (fun t member => mem_cons_of_mem _ (idx.tables_indices t member)) txn
  show Alters _ txn (if (postAll idx.tables (u64NeBytes lev) txn).deferTagKind
    then postAll idx.tables (u64NeBytes lev) txn
    else putTagKindEntries (postAll idx.tables (u64NeBytes lev) txn) lev idx.tagKind)
  split_ifs
  · exact posted
  · exact posted.trans (putAll_alters mem_cons_self _)

theorem delIndices_alters (txn : RwTxn) (lev : Nat) (idx : EventIndices) :
    Alters (Dbis.eventTagKind :: Dbis.indices) txn (delIndices txn lev idx) :=
  (unpostAll_alters (fun t member => mem_cons_of_mem _ (idx.tables_indices t member)) txn).trans
    (delAll_alters mem_cons_self _)

theorem putIndices_touches :
    Touches (Dbis.eventTagKind :: Dbis.indices) txn (putIndices txn lev idx) :=
  (putIndices_alters txn lev idx).touches

theorem delIndices_touches :
    Touches (Dbis.eventTagKind :: Dbis.indices) txn (delIndices txn lev idx) :=
  (delIndices_alters txn lev idx).touches

end Postings

/-! ### The checked list has the same keys -/

variable {dbi : Nat} {key value : Bytes}

theorem mem_dedupBy {l : List EventIndexEntry} :
    (∃ entry ∈ dedupBy EventIndexEntry.same l,
        entry.dbi = dbi ∧ entry.key = key ∧ entry.value = value)
      ↔ ∃ entry ∈ l, entry.dbi = dbi ∧ entry.key = key ∧ entry.value = value := by
  fun_induction dedupBy EventIndexEntry.same l with
  | case1 => exact Iff.rfl
  | case2 a => exact Iff.rfl
  | case3 a b l repeated ih =>
    simp only [EventIndexEntry.same, Bool.and_eq_true, decide_eq_true_eq] at repeated
    rw [ih, exists_mem_cons_iff, exists_mem_cons_iff, exists_mem_cons_iff,
      repeated.1.1, repeated.1.2, repeated.2, ← or_assoc, or_self]
  | case4 a b l different ih =>
    rw [exists_mem_cons_iff, ih]
    conv_rhs => rw [exists_mem_cons_iff]

theorem mem_pushed {d : Nat} {keys : List Bytes} {lev : Bytes} {optional : Bool} :
    (∃ entry ∈ keys.map fun key => (⟨d, key, lev, optional⟩ : EventIndexEntry),
        entry.dbi = dbi ∧ entry.key = key ∧ entry.value = value)
      ↔ (d = dbi ∧ key ∈ keys) ∧ value = lev := by
  constructor
  · rintro ⟨entry, member, rfl, rfl, rfl⟩
    obtain ⟨key, inside, rfl⟩ := mem_map.mp member
    exact ⟨⟨rfl, inside⟩, rfl⟩
  · rintro ⟨⟨rfl, inside⟩, rfl⟩
    exact ⟨_, mem_map.mpr ⟨key, inside, rfl⟩, rfl, rfl, rfl⟩

theorem exists_mem_append {l m : List EventIndexEntry} {q : EventIndexEntry → Prop} :
    (∃ entry ∈ l ++ m, q entry) ↔ (∃ entry ∈ l, q entry) ∨ ∃ entry ∈ m, q entry := by
  simp only [mem_append, or_and_right, exists_or]

/-- **The checked list holds exactly the keys of the event**, under its local id. -/
theorem mem_eventIndexEntries (host : Host) (lev : Nat) (p : PackedEvent) :
    (∃ entry ∈ eventIndexEntries host lev p,
        entry.dbi = dbi ∧ entry.key = key ∧ entry.value = value)
      ↔ (indexEvent host p).Posts dbi key ∧ value = u64NeBytes lev := by
  unfold eventIndexEntries
  simp only []
  rw [mem_dedupBy]
  simp only [mem_insertionSort, exists_mem_append, mem_pushed, ← or_and_right]
  refine and_congr_left' ?_
  simp only [EventIndices.Posts, EventIndices.tables, exists_mem_cons_iff, not_mem_nil,
    false_and, exists_false, or_false, mem_append, and_or_left, or_assoc]
  -- The canonical tombstones come last in the list and beside the written ones in the table.
  rw [or_comm (a := Dbis.eventTag = dbi ∧ _)]

end Wok.Db
