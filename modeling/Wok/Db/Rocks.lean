/-
**Write transactions over all tables.**

A transaction stages its puts and deletes in an overlay over a snapshot. It keeps a counter of the
entries of every logical table it changed, its own copy of the mirror of the marker keys, which are
read from the mirror and never from the table, and the authors whose postings it touched. The two
parts of an event share one record of one column family, but are counted apart. A commit writes the
overlay, the counters and the touched authors' head records as one batch and publishes the mirror.

* `RocksTxn.put`, `RocksTxn.del`, `RocksTxn.clear` — the writes, with their answers.
* `RocksTxn.entries`, `RocksTxn.get` — the counter of a table, and a value.
* `RocksTxn.commit_eq` — **a commit does not fail**, and which head records it leaves.
* `RocksDb.run` — transactions, committed and aborted.

What a commit puts into the state table are puts of the transaction.
-/

import Wok.Db.Heads
import Wok.Db.TagKind

namespace Wok.Db

open Wok.Library Function

/-! ### Records -/

namespace Record

variable {r : Record} {raw : Bytes}

/-- The component of one of the two tables. -/
def part (r : Record) (dbi : Nat) : Option Bytes := if dbi = 3 then r.packed else r.payload

def setPart (r : Record) (dbi : Nat) (val : Option Bytes) : Record :=
  if dbi = 3 then { r with packed := val } else { r with payload := val }

/-- Components shorter than `u32::MAX`, which marks a missing one. -/
def Small (r : Record) : Prop :=
  (∀ b ∈ r.packed, b.length < 2 ^ 32 - 1) ∧ ∀ b ∈ r.payload, b.length < 2 ^ 32 - 1

theorem decode_eq : Record.decode raw = .ok r ↔ parts raw = .ok (r.packed, r.payload) := by
  obtain ⟨packed, payload⟩ := r
  simp [Record.decode, bind_eq_ok]

theorem part_small {rest b : Bytes} (read : Wok.Db.part raw = .ok (some b, rest)) :
    b.length < 2 ^ 32 - 1 := by
  have bound := leVal_lt (raw.take 4)
  simp only [Wok.Db.part] at read
  split_ifs at read with short missing long
  · simp at read
  · rw [List.length_take, Nat.min_eq_left (not_lt.mp short)] at bound
    simp only [Except.ok.injEq, Prod.mk.injEq, Option.some.injEq] at read
    rw [← read.1, List.length_take]
    omega

theorem decode_small (read : Record.decode raw = .ok r) : r.Small := by
  simp only [decode_eq, parts, bind_eq_ok, Prod.exists] at read
  obtain ⟨packed, rest, first, payload, rest', second, read⟩ := read
  split_ifs at read
  cases read
  exact ⟨fun b is => part_small (by rw [first, Option.mem_def.mp is]),
    fun b is => part_small (by rw [second, Option.mem_def.mp is])⟩

theorem decode_encode (small : r.Small) : Record.decode r.encode = .ok r :=
  decode_eq.mpr (parts_encode r small.1 small.2)

theorem setPart_small (small : r.Small) (dbi : Nat) {val : Option Bytes}
    (fits : ∀ b ∈ val, b.length < 2 ^ 32 - 1) : (r.setPart dbi val).Small := by
  unfold setPart
  split_ifs
  · exact ⟨fits, small.2⟩
  · exact ⟨small.1, fits⟩

end Record

/-- The record at a key, empty where there is none. -/
def recordAt (old : Option Bytes) : Except DbError Record := old.elim (.ok {}) Record.decode

/-- The record a put into one of the two tables stages over the old one. -/
def putPart (dbi : Nat) (old : Option Bytes) (val : Bytes) : Except DbError Bytes := do
  let record ← recordAt old
  return (record.setPart dbi (some val)).encode

/-- What a delete stages over a record: nothing if the component is missing already, and a delete of
the record with its last component. -/
def delPart (dbi : Nat) (old : Bytes) : Except DbError (Option (Option Bytes)) := do
  let record ← Record.decode old
  if (record.part dbi).isNone then return none
  let record := record.setPart dbi none
  return some (if record.packed.isNone ∧ record.payload.isNone then none else some record.encode)

theorem recordAt_small {old : Option Bytes} {r : Record} (read : recordAt old = .ok r) :
    r.Small := by
  cases old with
  | none => cases read; exact ⟨nofun, nofun⟩
  | some raw => exact Record.decode_small read

theorem putPart_spec {dbi : Nat} {old : Option Bytes} {val value : Bytes}
    (fits : val.length < 2 ^ 32 - 1) (made : putPart dbi old val = .ok value) :
    ∃ r, recordAt old = .ok r ∧ recordAt (some value) = .ok (r.setPart dbi (some val)) := by
  simp only [putPart, bind_eq_ok, pure_eq_ok] at made
  obtain ⟨r, read, rfl⟩ := made
  exact ⟨r, read, Record.decode_encode (Record.setPart_small (recordAt_small read) dbi
    fun b is => Option.some.inj is ▸ fits)⟩

theorem delPart_spec {dbi : Nat} {old : Bytes} {value : Option Bytes}
    (made : delPart dbi old = .ok (some value)) :
    ∃ r, recordAt (some old) = .ok r ∧ (r.part dbi).isSome = true ∧
      recordAt value = .ok (r.setPart dbi none) := by
  simp only [delPart, bind_eq_ok] at made
  obtain ⟨r, read, made⟩ := made
  by_cases missing : (r.part dbi).isNone = true
  · rw [if_pos missing] at made
    cases made
  rw [if_neg missing, pure_eq_ok, Option.some.injEq] at made
  refine ⟨r, read, Option.isSome_iff_ne_none.mpr (by simpa using missing), ?_⟩
  subst made
  split_ifs with empty
  · rw [Option.isNone_iff_eq_none, Option.isNone_iff_eq_none] at empty
    generalize r.setPart dbi none = emptied at empty ⊢
    obtain ⟨packed, payload⟩ := emptied
    obtain ⟨rfl, rfl⟩ := empty
    rfl
  · exact Record.decode_encode (Record.setPart_small (Record.decode_small read) dbi (by simp))

/-! ### Batches -/

section Batch

variable {rows : List (Bytes × Bytes)} {row : Bytes × Bytes}

/-- One staged row in the batch. -/
def writeRow (rows : List (Bytes × Bytes)) (row : Bytes × Option Bytes) : List (Bytes × Bytes) :=
  match row.2 with
  | some value => insertBy Prod.fst (row.1, value) rows
  | none => rows.filter fun old => old.1 ≠ row.1

/-- The rows of the batch, applied in order. -/
def writeRows (rows : List (Bytes × Bytes)) (staged : List (Bytes × Option Bytes)) :
    List (Bytes × Bytes) := staged.foldl writeRow rows

theorem writeRow_sorted (sorted : SortedBy Prod.fst rows) (row : Bytes × Option Bytes) :
    SortedBy Prod.fst (writeRow rows row) := by
  unfold writeRow
  cases row.2 with
  | none => exact sorted.filter _
  | some value => exact sortedBy_insertBy sorted _

theorem writeRows_sorted (sorted : SortedBy Prod.fst rows) (staged : List (Bytes × Option Bytes)) :
    SortedBy Prod.fst (writeRows rows staged) := by
  induction staged generalizing rows with
  | nil => exact sorted
  | cons row staged ih => exact ih (writeRow_sorted sorted row)

theorem mem_writeRow (sorted : SortedBy Prod.fst rows) {write : Bytes × Option Bytes} :
    row ∈ writeRow rows write ↔
      (row.1, some row.2) = write ∨ row ∈ rows ∧ row.1 ≠ write.1 := by
  obtain ⟨pk, value⟩ := write
  cases value with
  | none => simp [writeRow]
  | some value =>
    rw [writeRow, mem_insertBy sorted]
    simp [Prod.ext_iff]

/-- The batch of an overlay in order: each key as its one staged row says, the others as before. -/
theorem mem_writeRows (sorted : SortedBy Prod.fst rows) {staged : List (Bytes × Option Bytes)}
    (distinct : SortedBy Prod.fst staged) :
    row ∈ writeRows rows staged ↔
      (row.1, some row.2) ∈ staged ∨ row ∈ rows ∧ ∀ other ∈ staged, row.1 ≠ other.1 := by
  induction staged generalizing rows with
  | nil => simp [writeRows]
  | cons write staged ih =>
    obtain ⟨ahead, distinct⟩ := List.pairwise_cons.mp distinct
    have step := ih (writeRow_sorted sorted write) distinct
    rw [writeRows, List.foldl_cons, ← writeRows, step, mem_writeRow sorted]
    constructor
    · rintro (inside | ⟨rfl | ⟨old, apart⟩, others⟩)
      · exact .inl (.tail _ inside)
      · exact .inl List.mem_cons_self
      · refine .inr ⟨old, ?_⟩
        intro other member
        rcases List.mem_cons.mp member with rfl | member
        · exact apart
        · exact others other member
    · rintro (inside | ⟨old, others⟩)
      · rcases List.mem_cons.mp inside with rfl | inside
        · refine .inr ⟨.inl rfl, ?_⟩
          intro other member same
          exact (ahead other member).ne same
        · exact .inl inside
      · exact .inr ⟨.inr ⟨old, others write List.mem_cons_self⟩,
          fun other member => others other (.tail _ member)⟩

def writeHead (heads : Bytes → Option Bytes) (update : Bytes × Option Bytes) :
    Bytes → Option Bytes :=
  fun author => if author = update.1 then update.2 else heads author

end Batch

/-! ### Transactions -/

/-- The keys that are mirrored. -/
def cachedMarker (dbi : Nat) (key : Bytes) : Bool := dbi = Dbis.eventTagKind ∧ isTagKindMarker key

/-- Marker values in the order of the table. -/
def sortMarkerValues (key : Bytes) (values : List Bytes) : List Bytes :=
  values.mergeSort fun a b => decide
    (encode Dbis.eventTagKind key (some b) ≤ encode Dbis.eventTagKind key (some a))

/-- The rows of the column families, the authors' head records, the entry counters and the published
mirror. -/
structure RocksDb where
  rows : Nat → List (Bytes × Bytes)
  heads : Bytes → Option Bytes
  counts : Nat → Nat
  markers : Bytes → List Bytes
  sorted : ∀ id, SortedBy Prod.fst (rows id)
  stored : ∀ dbi, ∀ row ∈ rows (physical dbi), Stored dbi row.1 row.2

/-- The flags of a put. -/
structure PutFlags where
  noOverwrite : Bool := false
  noDupData : Bool := false
  append : Bool := false

/-- A write transaction: its overlay by column family, the authors it touched, the counters it changed
and its mirror. -/
structure RocksTxn where
  db : RocksDb
  staged : Nat → List (Bytes × Option Bytes)
  touchedAuthors : List Bytes
  counts : Nat → Option Nat
  markers : Bytes → List Bytes
  sorted : ∀ id, SortedBy Prod.fst (staged id)
  stored : ∀ dbi, ∀ row ∈ staged (physical dbi), ∀ value ∈ row.2, Stored dbi row.1 value

namespace RocksTxn

def begin (db : RocksDb) : RocksTxn where
  db
  staged _ := []
  touchedAuthors := []
  counts _ := none
  markers := db.markers
  sorted _ := .nil
  stored _ _ member := nomatch member

variable (txn : RocksTxn)

/-- The overlay of a column family. -/
def overlay (id : Nat) : Overlay := (txn.staged id).map fun row => ((id, row.1), row.2)

@[simp] theorem rows_overlay (id : Nat) : (txn.overlay id).rows id = txn.staged id := by
  simp [overlay, Overlay.rows, List.filter_map, Function.comp_def]

theorem overlay_sorted (id : Nat) :
    ∀ s ∈ some (txn.overlay id), SortedBy Prod.fst (s.rows id) := by
  rintro s ⟨⟩
  exact txn.rows_overlay id ▸ txn.sorted id

theorem overlay_stored (dbi : Nat) : ∀ s ∈ some (txn.overlay (physical dbi)),
    ∀ row ∈ s.rows (physical dbi), ∀ value ∈ row.2, Stored dbi row.1 value := by
  rintro s ⟨⟩
  exact txn.rows_overlay (physical dbi) ▸ txn.stored dbi

/-- A table as the transaction sees it. -/
def view (dbi : Nat) : View where
  dbi
  committed := txn.db.rows (physical dbi)
  staged := some (txn.overlay (physical dbi))
  committed_sorted := txn.db.sorted _
  committed_stored := txn.db.stored dbi
  staged_sorted := txn.overlay_sorted _
  staged_stored := txn.overlay_stored dbi

/-! #### Reading -/

def entries (dbi : Nat) : Except DbError Nat :=
  match txn.counts dbi with
  | some n => .ok n
  | none =>
    if dbi = coverDbi then .error (err "covering index is absent in the coverless layout")
    else .ok (txn.db.counts dbi)

def get (dbi : Nat) (key : Bytes) : Except DbError (Option Bytes) :=
  if cachedMarker dbi key then .ok (txn.markers key).head?
  else if combined dbi then
    if key.length ≠ 8 then .error (err "invalid event local ID")
    else
      match (txn.view dbi).raw (1 :: beBytes 8 (u64FromNe key)) with
      | none => .ok none
      | some raw => (Record.decode raw).map fun record => record.part dbi
  else if (spec dbi).flags.dupSort then
    ((txn.view dbi).get {} (some key) none .setKey).map fun found => found.2.map Prod.snd
  else .ok ((txn.view dbi).raw (encode dbi key none))

/-! #### Putting -/

variable {dbi d : Nat}

theorem stage_sorted (id : Nat) (row : Bytes × Option Bytes) : ∀ id', SortedBy Prod.fst
    (update txn.staged id (insertBy Prod.fst row (txn.staged id)) id') :=
  (forall_update_iff txn.staged fun _ rows => SortedBy Prod.fst rows).mpr
    ⟨sortedBy_insertBy (txn.sorted id) row, fun id' _ => txn.sorted id'⟩

theorem stage_stored {row : Bytes × Option Bytes}
    (readable : ∀ d, physical d = physical dbi → ∀ v ∈ row.2, Stored d row.1 v) :
    ∀ d, ∀ row' ∈ update txn.staged (physical dbi)
      (insertBy Prod.fst row (txn.staged (physical dbi))) (physical d),
      ∀ v ∈ row'.2, Stored d row'.1 v := by
  intro d row' member
  by_cases same : physical d = physical dbi
  · rw [same, update_self] at member
    rcases mem_of_mem_insertBy member with rfl | old
    · exact readable d same
    · exact txn.stored d row' (same ▸ old)
  · rw [update_of_ne same] at member
    exact txn.stored d row' member

/-- Stages a row of a key that every table of the column family can read, and notes the author of a
posting. -/
def stage (dbi : Nat) (key : Bytes) (row : Bytes × Option Bytes)
    (readable : ∀ d, physical d = physical dbi → ∀ v ∈ row.2, Stored d row.1 v) : RocksTxn :=
  { txn with
    touchedAuthors := if dbi = authorDbi ∧ key.length = 40 then
      txn.touchedAuthors.insert (authorOf key) else txn.touchedAuthors
    staged := update txn.staged (physical dbi)
      (insertBy Prod.fst row (txn.staged (physical dbi)))
    sorted := txn.stage_sorted _ row
    stored := txn.stage_stored readable }

def changeCount (dbi : Nat) (insert : Bool) : Except DbError RocksTxn := do
  let n ← txn.entries dbi
  if insert then
    if n + 1 < 2 ^ 64 then .ok { txn with counts := update txn.counts dbi (some (n + 1)) }
    else .error (err "entry counter overflow/underflow")
  else if 1 ≤ n then .ok { txn with counts := update txn.counts dbi (some (n - 1)) }
  else .error (err "entry counter overflow/underflow")

/-- Changes the mirrored values of a key that is mirrored. -/
def mirror (dbi : Nat) (key : Bytes) (change : List Bytes → List Bytes) : RocksTxn :=
  if cachedMarker dbi key then
    { txn with markers := update txn.markers key (change (txn.markers key)) }
  else txn

def present (dbi : Nat) (key val : Bytes) : Except DbError Bool :=
  if combined dbi then (txn.get dbi key).map Option.isSome
  else .ok ((txn.view dbi).raw (entryKey dbi key val)).isSome

/-- Whether the flags refuse a put. -/
def refuses (flags : PutFlags) (dbi : Nat) (key : Bytes) (existed : Bool) :
    Except DbError Bool := do
  let stored ← if flags.noOverwrite then (txn.get dbi key).map Option.isSome else .ok false
  if stored ∨ flags.noDupData ∧ existed then return true
  if flags.append then
    let (_, last) ← (txn.view dbi).get {} none none .last
    return last.any fun last =>
      if reversed dbi then encode dbi last.1 none ≤ encode dbi key none
      else encode dbi key none ≤ encode dbi last.1 none
  return false

/-- The value a put stages. -/
def putValue (dbi : Nat) (pk val : Bytes) : Except DbError Bytes :=
  if combined dbi then putPart dbi ((txn.view dbi).raw pk) val
  else .ok (if (spec dbi).flags.dupSort then [] else val)

/-- Tables of one column family are the same, or the two that share records. -/
theorem sharing (same : physical d = physical dbi) :
    d = dbi ∨ combined d = true ∧ combined dbi = true := by
  unfold physical at same
  split_ifs at same with first second second
  · exact .inr ⟨first, second⟩
  · exact absurd (by rw [← same]; rfl) second
  · exact absurd (by rw [same]; rfl) first
  · exact .inl same

theorem combined_cases (both : combined dbi = true) : dbi = 3 ∨ dbi = 15 := by
  simpa [combined] using both

theorem entryKey_combined (first : combined d = true) (second : combined dbi = true)
    (key val val' : Bytes) : entryKey d key val = entryKey dbi key val' := by
  rcases combined_cases first with rfl | rfl <;> rcases combined_cases second with rfl | rfl <;> rfl

theorem stored_record {key val value : Bytes} {r : Record} (both : combined dbi = true)
    (same : physical d = physical dbi) (read : recordAt (some value) = .ok r) :
    Stored d (entryKey dbi key val) value := by
  have first : combined d = true := (sharing same).elim (fun is => is ▸ both) And.left
  exact ⟨key, val, entryKey_combined both first key val val,
    fun _ => ⟨_, Record.decode_eq.mp read⟩, fun single => absurd first (by simp [single])⟩

theorem stored_put {key val value : Bytes} (fits : combined dbi = true → val.length < 2 ^ 32 - 1)
    (made : txn.putValue dbi (entryKey dbi key val) val = .ok value) :
    ∀ d, physical d = physical dbi → ∀ v ∈ some value, Stored d (entryKey dbi key val) v := by
  rintro d same v ⟨⟩
  unfold putValue at made
  by_cases both : combined dbi = true
  · rw [if_pos both] at made
    obtain ⟨r, _, read⟩ := putPart_spec (fits both) made
    exact stored_record both same read
  · rw [if_neg both] at made
    obtain rfl : d = dbi := (sharing same).resolve_right fun shared => both shared.2
    cases made
    exact ⟨key, val, rfl, fun both' => absurd both' both, fun _ plain => by simp [plain]⟩

/-- **A put** answers whether it was made. A key that is no local ID or a counter that overflows is
reported after the row has been staged. Values of the two shared tables are shorter than `u32::MAX`. -/
def put (dbi : Nat) (key val : Bytes) (flags : PutFlags)
    (fits : combined dbi = true → val.length < 2 ^ 32 - 1) : Except DbError Bool × RocksTxn :=
  if dbi = coverDbi then (.error (err "covering index is derived"), txn)
  else
    match txn.present dbi key val with
    | .error e => (.error e, txn)
    | .ok existed =>
      match txn.refuses flags dbi key existed with
      | .error e => (.error e, txn)
      | .ok true => (.ok false, txn)
      | .ok false =>
        match made : txn.putValue dbi (entryKey dbi key val) val with
        | .error e => (.error e, txn)
        | .ok value =>
          let staged := txn.stage dbi key (entryKey dbi key val, some value) (txn.stored_put fits made)
          match if combined dbi ∧ key.length ≠ 8 then .error (err "invalid local ID")
            else if existed then .ok staged else staged.changeCount dbi true with
          | .error e => (.error e, staged)
          | .ok counted => (.ok true, counted.mirror dbi key fun values =>
              if val ∈ values then values else sortMarkerValues key (values ++ [val]))

/-! #### Deleting -/

/-- What a delete stages at a physical key, if something is there. -/
def delValue (dbi : Nat) (pk : Bytes) : Except DbError (Option (Option Bytes)) :=
  match (txn.view dbi).raw pk with
  | none => .ok none
  | some raw => if combined dbi then delPart dbi raw else .ok (some none)

theorem stored_del {pk : Bytes} {value : Option Bytes}
    (made : txn.delValue dbi pk = .ok (some value)) :
    ∀ d, physical d = physical dbi → ∀ v ∈ value, Stored d pk v := by
  rintro d same v rfl
  unfold delValue at made
  cases old : (txn.view dbi).raw pk with
  | none => simp [old] at made
  | some raw =>
    obtain ⟨key, val, rfl, _⟩ : Stored dbi pk raw := View.rows_stored (View.raw_eq_some.mp old) rfl
    simp only [old] at made
    split_ifs at made with both
    · obtain ⟨r, _, _, read⟩ := delPart_spec made
      exact stored_record both same read
    · cases made

/-- Deletes one entry. -/
def delOne (dbi : Nat) (key : Bytes) (val : Option Bytes) : Except DbError Bool × RocksTxn :=
  let pk := encode dbi key (if (spec dbi).flags.dupSort then val else none)
  match made : txn.delValue dbi pk with
  | .error e => (.error e, txn)
  | .ok none => (.ok false, txn)
  | .ok (some value) =>
    let staged := txn.stage dbi key (pk, value) (txn.stored_del made)
    match if combined dbi ∧ key.length ≠ 8 then .error (err "invalid local ID")
      else staged.changeCount dbi false with
    | .error e => (.error e, staged)
    | .ok counted =>
      (.ok true, counted.mirror dbi key fun values => values.filter fun v => some v ≠ val)

/-- Deletes entries one after the other, up to a failure. -/
def delAll (dbi : Nat) : RocksTxn → List (Bytes × Option Bytes) → Bool →
    Except DbError Bool × RocksTxn
  | txn, [], removed => (.ok removed, txn)
  | txn, e :: entries, removed =>
    match txn.delOne dbi e.1 e.2 with
    | (.error e, txn) => (.error e, txn)
    | (.ok some', txn) => delAll dbi txn entries (removed || some')

/-- The duplicates of a key from a row on. -/
def dupsFrom (v : View) : Nat → Cursor → Option Kv → Except DbError (List Kv)
  | _, _, none => .ok []
  | 0, _, some _ => .error (err "scan ran out of rows")
  | fuel + 1, c, some row => do
    let (c, next) ← v.get c none none .nextDup
    let more ← dupsFrom v fuel c next
    return row :: more

/-- The values of a key: the mirrored ones, or those a cursor finds; the rows of both sources
bound the turns of the loop. -/
def dupsOf (dbi : Nat) (key : Bytes) : Except DbError (List Bytes) :=
  if cachedMarker dbi key then .ok (txn.markers key)
  else do
    let v := txn.view dbi
    let (c, row) ← v.get {} (some key) none .setKey
    return (← dupsFrom v (v.committed.length + v.stagedRows.length) c row).map Prod.snd

/-- **A delete** of one entry, or of all entries of a key. -/
def del (dbi : Nat) (key : Bytes) (val : Option Bytes) : Except DbError Bool × RocksTxn :=
  if dbi = coverDbi then (.error (err "covering index is derived"), txn)
  else if (spec dbi).flags.dupSort ∧ val.isNone then
    match txn.dupsOf dbi key with
    | .error e => (.error e, txn)
    | .ok vals => delAll dbi txn (vals.map fun v => (key, some v)) false
  else txn.delOne dbi key val

/-- **Deletes every entry**, read before the first is deleted. -/
def clear (dbi : Nat) : Except DbError Bool × RocksTxn :=
  if dbi = coverDbi then (.error (err "covering index is absent in the coverless layout"), txn)
  else
    match (txn.view dbi).foreach {} [] [] false (fun rows key val => (rows ++ [(key, val)], true)) []
      with
    | .error e => (.error e, txn)
    | .ok (_, rows, _) => delAll dbi txn
        (rows.map fun e => (e.1, if (spec dbi).flags.dupSort then some e.2 else none)) false

/-! #### Head records -/

/-- The head record of an author in the merged table. -/
def headOf (author : Bytes) : Except DbError (Option Bytes) := do
  let (_, scan, _) ← (txn.view authorDbi).foreach {} (makeKeyStringU64 author (2 ^ 64 - 1))
    (u64NeBytes (2 ^ 64 - 1)) true (headStep author) {}
  return if scan.malformed then none
    else scan.first.map fun first => (AuthorHead.mk first scan.next).encode

/-- The records that change, for the authors touched. -/
def headUpdates : Except DbError (List (Bytes × Option Bytes)) :=
  txn.touchedAuthors.foldlM (fun updates author => do
    let head ← txn.headOf author
    return if txn.db.heads author ≠ head then updates ++ [(author, head)] else updates) []

/-- The entries a head scan goes through. -/
def scanned (author : Bytes) : List Kv :=
  ((txn.view authorDbi).listed true).filter (View.onSide authorDbi
    (makeKeyStringU64 author (2 ^ 64 - 1)) (u64NeBytes (2 ^ 64 - 1)) true)

/-- The head of an author in the merged table. -/
def headIn (author : Bytes) : Option AuthorHead :=
  let scan := (View.scanFold (headStep author) {} (txn.scanned author)).1
  if scan.malformed then none else scan.head

theorem headOf_eq (author : Bytes) :
    txn.headOf author = .ok ((txn.headIn author).map AuthorHead.encode) := by
  obtain ⟨c, scan, _⟩ := View.foreach_eq (View.placed_fresh (txn.view authorDbi))
    (makeKeyStringU64 author (2 ^ 64 - 1)) (u64NeBytes (2 ^ 64 - 1)) true (headStep author) {}
  have found : (txn.view authorDbi).foreach {} (makeKeyStringU64 author (2 ^ 64 - 1))
      (u64NeBytes (2 ^ 64 - 1)) true (headStep author) {} =
      .ok (c, View.scanFold (headStep author) {} (txn.scanned author)) := scan
  unfold headOf headIn
  rw [found, ok_bind]
  generalize View.scanFold (headStep author) {} (txn.scanned author) = result
  obtain ⟨scan, _⟩ := result
  cases malformed : scan.malformed with
  | true => simp [malformed, pure, Except.pure]
  | false => simp [malformed, HeadScan.head, pure, Except.pure, Function.comp_def]

/-- The record of an author that is touched, or the one it had. -/
def newHeads (author : Bytes) : Option Bytes :=
  if author ∈ txn.touchedAuthors then (txn.headIn author).map AuthorHead.encode
  else txn.db.heads author

/-- Writing the records that change leaves each author's as it should be. -/
theorem headUpdates_eq : ∃ updates, txn.headUpdates = .ok updates ∧
    updates.foldl writeHead txn.db.heads = txn.newHeads := by
  -- After some authors their records are those of the merged table, and the others' are unchanged.
  suffices general : ∀ (authors done : List Bytes) (updates : List (Bytes × Option Bytes)),
      updates.foldl writeHead txn.db.heads = (fun author => if author ∈ done then
        (txn.headIn author).map AuthorHead.encode else txn.db.heads author) →
      ∃ updates', authors.foldlM (fun updates author => do
        let head ← txn.headOf author
        return if txn.db.heads author ≠ head then updates ++ [(author, head)] else updates) updates
          = .ok updates' ∧ updates'.foldl writeHead txn.db.heads = fun author =>
        if author ∈ done ++ authors then (txn.headIn author).map AuthorHead.encode
        else txn.db.heads author from general txn.touchedAuthors [] [] (by simp)
  intro authors
  induction authors with
  | nil => exact fun done updates written => ⟨updates, rfl, by simpa using written⟩
  | cons author authors ih =>
    intro done updates written
    rw [List.foldlM_cons, headOf_eq, ok_bind, pure_bind, List.append_cons done]
    refine ih (done ++ [author]) _ ?_
    funext other
    have before := congrFun written other
    by_cases mine : other = author
    · subst mine
      split_ifs <;> simp_all [writeHead]
    · split_ifs <;> simp_all [writeHead]

/-! #### Committing -/

theorem commit_stored (dbi : Nat) : ∀ row ∈ writeRows (txn.db.rows (physical dbi))
    (txn.staged (physical dbi)), Stored dbi row.1 row.2 := by
  intro row member
  rcases (mem_writeRows (txn.db.sorted _) (txn.sorted _)).mp member with inside | ⟨old, _⟩
  · exact txn.stored dbi _ inside _ rfl
  · exact txn.db.stored dbi row old

/-- The database with the overlay, head records and counters written and the mirror published. -/
def written (heads : Bytes → Option Bytes) : RocksDb where
  rows id := writeRows (txn.db.rows id) (txn.staged id)
  heads
  counts dbi := (txn.counts dbi).getD (txn.db.counts dbi)
  markers := txn.markers
  sorted id := writeRows_sorted (txn.db.sorted id) _
  stored := txn.commit_stored

def commit : Except DbError RocksDb := do
  let updates ← txn.headUpdates
  return txn.written (updates.foldl writeHead txn.db.heads)

/-- **A commit does not fail.** -/
theorem commit_eq : txn.commit = .ok (txn.written txn.newHeads) := by
  obtain ⟨updates, made, heads⟩ := txn.headUpdates_eq
  rw [commit, made, ok_bind, heads]
  rfl

end RocksTxn

/-! ### Runs -/

inductive RocksCall
  | put (dbi : Nat) (key val : Bytes) (flags : PutFlags)
    (fits : combined dbi = true → val.length < 2 ^ 32 - 1)
  | del (dbi : Nat) (key : Bytes) (val : Option Bytes)
  | clear (dbi : Nat)

def RocksTxn.call (txn : RocksTxn) : RocksCall → Except DbError Bool × RocksTxn
  | .put dbi key val flags fits => txn.put dbi key val flags fits
  | .del dbi key val => txn.del dbi key val
  | .clear dbi => txn.clear dbi

/-- The transaction after some calls, whatever they answered. -/
def RocksTxn.calls (txn : RocksTxn) (calls : List RocksCall) : RocksTxn :=
  calls.foldl (fun txn call => (txn.call call).2) txn

namespace RocksDb

/-- A database without tables. -/
def empty : RocksDb := ⟨fun _ => [], fun _ => none, fun _ => 0, fun _ => [], fun _ => .nil, nofun⟩

/-- A table as a read transaction sees it. -/
def view (db : RocksDb) (dbi : Nat) : View where
  dbi
  committed := db.rows (physical dbi)
  staged := none
  committed_sorted := db.sorted _
  committed_stored := db.stored dbi
  staged_sorted := nofun
  staged_stored := nofun

def entries (db : RocksDb) (dbi : Nat) : Except DbError Nat :=
  if dbi = coverDbi then .error (err "covering index is absent in the coverless layout")
  else .ok (db.counts dbi)

/-- Transactions, each committed or aborted. -/
def run (db : RocksDb) (txns : List (List RocksCall × Bool)) : Except DbError RocksDb :=
  txns.foldlM (fun db txn => if txn.2 then ((RocksTxn.begin db).calls txn.1).commit else .ok db) db

end RocksDb

end Wok.Db
