/-
**The write transaction and its bookkeeping.**

A write transaction holds the logical tables as it sees them, the sequence of local ids, the
number of superseded versions and the author counts it has touched, and whether it leaves the
`(tag, kind)` postings to a later pass. The counters go back to the state table when it commits.

* `Touches` — **which tables a step may change.** The bookkeeping here touches only the state
  table, so the events, their payloads and their index tables stay as they are.
-/

import Wok.Db.Table
import Wok.Event.Address
import Wok.Library.Result

namespace Wok.Db

open Wok.Library

/-! ### Table numbers -/

namespace Dbis

def event : Nat := 3
def eventId : Nat := 4
def eventPubkeyKind : Nat := 5
def eventTag : Nat := 6
def eventDeletion : Nat := 7
def eventReplace : Nat := 8
def eventCreatedAt : Nat := 9
def eventPubkey : Nat := 10
def eventReplaceDeletion : Nat := 11
def eventKind : Nat := 12
def eventExpiration : Nat := 13
def eventPayload : Nat := 15
def eventSearch : Nat := 17
def vanishPubkey : Nat := 18
def state : Nat := 20
def eventTagKind : Nat := 21

/-- The tables derived from the packed events. -/
def indices : List Nat :=
  [eventId, eventPubkeyKind, eventTag, eventDeletion, eventReplace, eventCreatedAt, eventPubkey,
    eventReplaceDeletion, eventKind, eventExpiration]

/-- The events, their payloads and the tables derived from them. -/
def primary : List Nat := event :: eventPayload :: indices

end Dbis

/-! ### Transactions -/

structure RwTxn where
  tables : Tables
  eventSequence : Option Nat
  supersededEvents : Option Nat
  authorCounts : List (Bytes × Nat)
  deferTagKind : Bool

/-- A transaction that has done nothing yet. -/
def RwTxn.begin (tables : Tables) : RwTxn := ⟨tables, none, none, [], false⟩

namespace RwTxn

variable (txn : RwTxn)

def get (dbi : Nat) (key : Bytes) : Option Bytes := txn.tables.get dbi key
def getU64 (dbi key : Nat) : Option Bytes := txn.get dbi (u64NeBytes key)
def put (dbi : Nat) (key val : Bytes) : RwTxn := { txn with tables := txn.tables.put dbi key val }
def delPair (dbi : Nat) (key val : Bytes) : RwTxn :=
  { txn with tables := txn.tables.delPair dbi key val }
def delKey (dbi : Nat) (key : Bytes) : RwTxn := { txn with tables := txn.tables.delKey dbi key }

/-- The largest key of an integer table, 0 when it is empty. -/
def largestIntegerKey (dbi : Nat) : Except DbError Nat :=
  match (txn.tables.rows dbi).getLast? with
  | some last => do
    ensure (last.1.length = 8) (err "invalid integer key")
    return u64FromNe last.1
  | none => .ok 0

end RwTxn

/-! ### Counters -/

def highWater : Bytes := Event.ascii "sequence"
def supersededKey : Bytes := Event.ascii "superseded-versions"
def policyGeneration : Bytes := Event.ascii "visibility"
def vanishMarkerChangesKey : Bytes := Event.ascii "vanish-markers"

/-- `state::decode`. -/
def decodeCounter (raw : Bytes) : Except DbError Nat := do
  ensure (raw.length = 8) (.msg "invalid state counter")
  return leVal raw

/-- The stored counter, or `missing` when there is none. -/
def storedCounter (txn : RwTxn) (key : Bytes) (missing : Except DbError Nat) :
    Except DbError Nat :=
  match txn.get Dbis.state key with
  | some raw => decodeCounter raw
  | none => missing

def putCounter (txn : RwTxn) (key : Bytes) (n : Nat) : RwTxn :=
  txn.put Dbis.state key (u64NeBytes n)

/-- The sequence this transaction continues from. -/
def preserveHighWater (txn : RwTxn) : Except DbError RwTxn :=
  match txn.eventSequence with
  | some _ => .ok txn
  | none => do
    let sequence ← storedCounter txn highWater (txn.largestIntegerKey Dbis.event)
    return { txn with eventSequence := some sequence }

def allocateEventId (txn : RwTxn) : Except DbError (Nat × RwTxn) := do
  let txn ← preserveHighWater txn
  let previous := txn.eventSequence.getD 0
  ensure (previous + 1 < 2 ^ 64) (.msg "local event sequence exhausted")
  return (previous + 1, { txn with eventSequence := some (previous + 1) })

def authorKey (pubkey : Bytes) : Bytes := 97 :: pubkey

/-- The count this transaction has cached for an author. -/
def cachedCount (txn : RwTxn) (key : Bytes) : Option Nat := txn.authorCounts.lookup key

def cacheCount (txn : RwTxn) (key : Bytes) (count : Nat) : RwTxn :=
  { txn with authorCounts := insertBy Prod.fst (key, count) txn.authorCounts }

/-- The events of an author in the author index. -/
def countEvents (txn : RwTxn) (pubkey : Bytes) : Nat :=
  ((txn.tables.scan Dbis.eventPubkey (makeKeyStringU64 pubkey 0) (u64NeBytes 0) false).takeWhile
    fun e => pubkey.isPrefixOf e.1).length

/-- `author_count`: cached, stored, or counted and cached. -/
def authorCount (txn : RwTxn) (pubkey : Bytes) : Except DbError (Nat × RwTxn) :=
  match cachedCount txn (authorKey pubkey) with
  | some count => .ok (count, txn)
  | none =>
    match txn.get Dbis.state (authorKey pubkey) with
    | some raw => (decodeCounter raw).map fun count => (count, txn)
    | none => .ok (countEvents txn pubkey,
        cacheCount txn (authorKey pubkey) (countEvents txn pubkey))

/-- The count to change: cached or stored. An author never counted has none. -/
def knownCount (txn : RwTxn) (key : Bytes) : Except DbError (Option Nat) :=
  match cachedCount txn key with
  | some count => .ok (some count)
  | none =>
    match txn.get Dbis.state key with
    | some raw => (decodeCounter raw).map some
    | none => .ok none

/-- `change_author_count`. A counter found too low is dropped, to be counted again. -/
def changeAuthorCount (txn : RwTxn) (pubkey : Bytes) (insert : Bool) : Except DbError RwTxn := do
  let key := authorKey pubkey
  match ← knownCount txn key with
  | none => return txn
  | some old =>
    if insert then do
      ensure (old + 1 < 2 ^ 64) (.msg "author count overflow")
      return cacheCount txn key (old + 1)
    else if old = 0 then
      return { txn.delKey Dbis.state key with
        authorCounts := txn.authorCounts.filter fun c => c.1 ≠ key }
    else return cacheCount txn key (old - 1)

def invalidateVisibility (txn : RwTxn) : Except DbError RwTxn := do
  let generation ← storedCounter txn policyGeneration (.ok 0)
  ensure (generation + 1 < 2 ^ 64) (.msg "visibility generation exhausted")
  return putCounter txn policyGeneration (generation + 1)

def countVanishMarkerChange (txn : RwTxn) : Except DbError RwTxn := do
  let changes ← storedCounter txn vanishMarkerChangesKey (.ok 0)
  return putCounter txn vanishMarkerChangesKey ((changes + 1) % 2 ^ 64)

/-- One entry of the replacement index: the key before it and the members beyond the first. -/
def supersededStep (seen : Bytes × Nat) (e : Kv) : Except DbError (Bytes × Nat) := do
  let (_, kind) ← parseKeyStringU64 e.1
  if Event.isVersioned kind then
    if seen.1 = e.1 then return (seen.1, seen.2 + 1) else return (e.1, seen.2)
  else return seen

/-- Members of the replacement index beyond the first of each key. -/
def countSuperseded (rows : List Kv) : Except DbError Nat :=
  (rows.foldlM supersededStep (([] : Bytes), 0)).map Prod.snd

/-- `superseded_events`: the count, loaded once in a transaction. -/
def loadSuperseded (txn : RwTxn) : Except DbError RwTxn :=
  match txn.supersededEvents with
  | some _ => .ok txn
  | none => do
    let count ← storedCounter txn supersededKey
      (countSuperseded (txn.tables.rows Dbis.eventReplace))
    return { txn with supersededEvents := some count }

/-- `change_replacement_count`: before an insertion into, or after a deletion from, the
replacement index. -/
def changeReplacementCount (txn : RwTxn) (key : Bytes) (insert : Bool) : Except DbError RwTxn :=
  if (txn.get Dbis.eventReplace key).isSome then do
    let old ← okOr txn.supersededEvents (.msg "replacement count not initialized")
    ensure (if insert then old + 1 < 2 ^ 64 else 1 ≤ old)
      (.msg "replacement count overflow or drift")
    return { txn with supersededEvents := some (if insert then old + 1 else old - 1) }
  else .ok txn

def flushSequence (txn : RwTxn) : RwTxn :=
  match txn.eventSequence with
  | some sequence => putCounter { txn with eventSequence := none } highWater sequence
  | none => txn

def flushSuperseded (txn : RwTxn) : RwTxn :=
  match txn.supersededEvents with
  | some count => putCounter { txn with supersededEvents := none } supersededKey count
  | none => txn

def flushAuthors (txn : RwTxn) : RwTxn :=
  txn.authorCounts.foldl (fun txn c => putCounter txn c.1 c.2) { txn with authorCounts := [] }

/-- `state::flush`: the counters go to the state table. -/
def flush (txn : RwTxn) : RwTxn := flushAuthors (flushSuperseded (flushSequence txn))

/-- The tables once the transaction has committed. -/
def commit (txn : RwTxn) : Tables := (flush txn).tables

/-! ### Frames -/

/-- A step changes no table outside `allowed`. -/
def Touches (allowed : List Nat) (txn txn' : RwTxn) : Prop :=
  ∀ d, d ∉ allowed → txn'.tables.rows d = txn.tables.rows d

section Frames

variable {allowed : List Nat} {txn txn' txn'' : RwTxn}
variable {dbi : Nat}

theorem Touches.refl (allowed : List Nat) (txn : RwTxn) : Touches allowed txn txn :=
  fun _ _ => rfl

theorem Touches.trans (first : Touches allowed txn txn') (second : Touches allowed txn' txn'') :
    Touches allowed txn txn'' :=
  fun d outside => (second d outside).trans (first d outside)

theorem Touches.mono {more : List Nat} (fewer : ∀ d ∈ allowed, d ∈ more)
    (touches : Touches allowed txn txn') : Touches more txn txn' :=
  fun d outside => touches d fun inside => outside (fewer d inside)

theorem touches_of_tables (same : txn'.tables = txn.tables) : Touches allowed txn txn' :=
  fun _ _ => congrArg (fun t => Tables.rows t _) same

theorem touches_put (inside : dbi ∈ allowed) (key val : Bytes) :
    Touches allowed txn (txn.put dbi key val) :=
  fun _ outside => Tables.rows_put_of_ne fun same => outside (same ▸ inside)

theorem touches_delPair (inside : dbi ∈ allowed) (key val : Bytes) :
    Touches allowed txn (txn.delPair dbi key val) :=
  fun _ outside => Tables.rows_delPair_of_ne fun same => outside (same ▸ inside)

theorem touches_delKey (inside : dbi ∈ allowed) (key : Bytes) :
    Touches allowed txn (txn.delKey dbi key) :=
  fun _ outside => Tables.rows_delKey_of_ne fun same => outside (same ▸ inside)

/-- Only the tables of the transaction differ. -/
def OnlyTables (txn txn' : RwTxn) : Prop := ∃ t, txn' = { txn with tables := t }

/-- Only tables of `allowed` differ. -/
structure Alters (allowed : List Nat) (txn txn' : RwTxn) : Prop where
  only : OnlyTables txn txn'
  touches : Touches allowed txn txn'

theorem Alters.trans (first : Alters allowed txn txn') (second : Alters allowed txn' txn'') :
    Alters allowed txn txn'' := by
  obtain ⟨t, rfl⟩ := first.only
  obtain ⟨t', rfl⟩ := second.only
  exact ⟨⟨t', rfl⟩, first.touches.trans second.touches⟩

theorem foldl_alters {α : Type} {f : RwTxn → α → RwTxn} {l : List α}
    (each : ∀ a ∈ l, ∀ txn, Alters allowed txn (f txn a)) (txn : RwTxn) :
    Alters allowed txn (l.foldl f txn) := by
  induction l generalizing txn with
  | nil => exact ⟨⟨_, rfl⟩, .refl _ _⟩
  | cons a l ih =>
    obtain ⟨first, rest⟩ := List.forall_mem_cons.mp each
    exact (first txn).trans (ih rest _)

theorem alters_put (inside : dbi ∈ allowed) (key val : Bytes) (txn : RwTxn) :
    Alters allowed txn (txn.put dbi key val) := ⟨⟨_, rfl⟩, touches_put inside key val⟩

theorem alters_delPair (inside : dbi ∈ allowed) (key val : Bytes) (txn : RwTxn) :
    Alters allowed txn (txn.delPair dbi key val) := ⟨⟨_, rfl⟩, touches_delPair inside key val⟩

theorem preserveHighWater_eq (run : preserveHighWater txn = .ok txn') :
    ∃ sequence, txn' = { txn with eventSequence := sequence } := by
  unfold preserveHighWater at run
  split at run
  · cases run
    exact ⟨txn.eventSequence, rfl⟩
  · simp only [bind_eq_ok, pure_eq_ok] at run
    obtain ⟨n, _, rfl⟩ := run
    exact ⟨some n, rfl⟩

theorem allocateEventId_eq {lev : Nat} (run : allocateEventId txn = .ok (lev, txn')) :
    lev < 2 ^ 64 ∧ txn' = { txn with eventSequence := some lev } := by
  simp only [allocateEventId, bind_eq_ok, ensure_eq_ok, pure_eq_ok, Prod.mk.injEq] at run
  obtain ⟨_, preserved, _, small, rfl, rfl⟩ := run
  obtain ⟨_, rfl⟩ := preserveHighWater_eq preserved
  exact ⟨small, rfl⟩

theorem authorCount_eq {pubkey : Bytes} {count : Nat}
    (run : authorCount txn pubkey = .ok (count, txn')) :
    txn' = txn ∨ ∃ n, txn' = cacheCount txn (authorKey pubkey) n := by
  unfold authorCount at run
  split at run
  · cases run
    exact .inl rfl
  · split at run
    · simp only [map_eq_ok, Prod.mk.injEq] at run
      obtain ⟨_, _, _, rfl⟩ := run
      exact .inl rfl
    · cases run
      exact .inr ⟨_, rfl⟩

/-- The count is cached, or the counter dropped. -/
theorem changeAuthorCount_eq {pubkey : Bytes} {insert : Bool}
    (run : changeAuthorCount txn pubkey insert = .ok txn') :
    txn' = txn ∨ (∃ n, txn' = cacheCount txn (authorKey pubkey) n) ∨
      txn' = { txn.delKey Dbis.state (authorKey pubkey) with
        authorCounts := txn.authorCounts.filter fun c => c.1 ≠ authorKey pubkey } := by
  simp only [changeAuthorCount, bind_eq_ok] at run
  obtain ⟨known, _, run⟩ := run
  split at run
  · cases run
    exact .inl rfl
  · split_ifs at run with inserted zero
    · simp only [bind_eq_ok, ensure_eq_ok, pure_eq_ok] at run
      obtain ⟨_, _, rfl⟩ := run
      exact .inr (.inl ⟨_, rfl⟩)
    · cases run
      exact .inr (.inr rfl)
    · cases run
      exact .inr (.inl ⟨_, rfl⟩)

theorem changeAuthorCount_touches {pubkey : Bytes} {insert : Bool}
    (run : changeAuthorCount txn pubkey insert = .ok txn') : Touches [Dbis.state] txn txn' := by
  rcases changeAuthorCount_eq run with rfl | ⟨_, rfl⟩ | rfl
  · exact .refl _ _
  · exact touches_of_tables rfl
  · exact touches_delKey (by simp) _

theorem invalidateVisibility_touches (run : invalidateVisibility txn = .ok txn') :
    Touches [Dbis.state] txn txn' := by
  simp only [invalidateVisibility, bind_eq_ok, ensure_eq_ok, pure_eq_ok] at run
  obtain ⟨_, _, _, _, rfl⟩ := run
  exact touches_put (by simp) _ _

/-- Only the cached number of versions can differ. -/
def CachesVersions (txn txn' : RwTxn) : Prop :=
  ∃ count, txn' = { txn with supersededEvents := count }

theorem CachesVersions.trans (first : CachesVersions txn txn')
    (second : CachesVersions txn' txn'') : CachesVersions txn txn'' := by
  obtain ⟨_, rfl⟩ := first
  obtain ⟨count, rfl⟩ := second
  exact ⟨count, rfl⟩

theorem loadSuperseded_caches (run : loadSuperseded txn = .ok txn') : CachesVersions txn txn' := by
  unfold loadSuperseded at run
  split at run
  · cases run
    exact ⟨_, rfl⟩
  · simp only [bind_eq_ok, pure_eq_ok] at run
    obtain ⟨_, _, rfl⟩ := run
    exact ⟨_, rfl⟩

theorem changeReplacementCount_caches {key : Bytes} {insert : Bool}
    (run : changeReplacementCount txn key insert = .ok txn') : CachesVersions txn txn' := by
  unfold changeReplacementCount at run
  by_cases present : (txn.get Dbis.eventReplace key).isSome = true
  · rw [if_pos present] at run
    simp only [bind_eq_ok, okOr_eq_ok, ensure_eq_ok, pure_eq_ok] at run
    obtain ⟨_, _, _, _, rfl⟩ := run
    exact ⟨_, rfl⟩
  · rw [if_neg present] at run
    cases run
    exact ⟨_, rfl⟩

theorem flush_touches (txn : RwTxn) : Touches [Dbis.state] txn (flush txn) := by
  have counters : ∀ (counts : List (Bytes × Nat)) (txn : RwTxn),
      Touches [Dbis.state] txn (counts.foldl (fun txn c => putCounter txn c.1 c.2) txn) :=
    fun counts txn => (foldl_alters (fun c _ => alters_put (by simp) c.1 _) txn).touches
  have sequence : Touches [Dbis.state] txn (flushSequence txn) := by
    unfold flushSequence
    split
    · exact touches_put (by simp) _ _
    · exact .refl _ _
  have superseded : ∀ txn, Touches [Dbis.state] txn (flushSuperseded txn) := by
    intro txn
    unfold flushSuperseded
    split
    · exact touches_put (by simp) _ _
    · exact .refl _ _
  exact sequence.trans ((superseded _).trans (counters _ _))

end Frames

end Wok.Db
