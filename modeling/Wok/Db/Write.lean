/-
**The writer: storing, replacing and deleting events.**

`writeEventsWithQuota` sorts a batch by time and id and takes its events one by one. An event is
refused, as a copy, a duplicate, a vanished, deleted or replaced event, or for its author's quota;
or it is stored, and the events it replaces or deletes are removed. `deleteEvents` removes events
by local id.

The sink that keeps the negentropy trees owns the table of trees, so its state is passed beside
the transaction. Decompression, the terms of the search index and the relays a vanish request
names are parameters.
-/

import Wok.Db.Index
import Wok.Event.Ingest

namespace Wok.Db

open Wok.Library Wok.Event

/-! ### Parameters -/

/-- What the writer takes from other modules: the host, decompression of a payload with a stored
dictionary, the kind a payload states, and the entries of an event in the search index. -/
structure Services where
  host : Host
  decompressRw : RwTxn → Nat → Bytes → Except DbError Bytes
  payloadKind : Bytes → Option Nat
  searchIndexEntries : Nat → Nat → Bytes → Except DbError (List Kv)

/-- A sink for stored and removed events. -/
structure NegentropySink (σ : Type) where
  update : σ → PackedEvent → Bool → Except DbError σ

/-- `NoopNegentropy`. -/
def noopNegentropy : NegentropySink Unit := ⟨fun _ _ _ => .ok ()⟩

/-- Whether vanish requests count, and which of them name this relay
(`targets_this_relay_value`). -/
structure VanishPolicy where
  enabled : Bool
  targetsThisRelayValue : Value → Bool

def VanishPolicy.disabled : VanishPolicy := ⟨false, fun _ => false⟩

inductive EventWriteStatus
  | pending
  | written
  | duplicate
  | replaced
  | deleted
  | quotaExceeded
  deriving DecidableEq, Repr

structure EventToWrite where
  packed : Bytes
  json : Bytes
  status : EventWriteStatus
  levId : Nat
  deriving DecidableEq

def EventToWrite.new (packed json : Bytes) : EventToWrite := ⟨packed, json, .pending, 0⟩

/-- `PackedEventView::new`, with `?`. -/
def viewPacked (buf : Bytes) : Except DbError PackedEvent := (PackedEvent.new buf).mapError .event

/-! ### Lookups -/

def lookupEventById (txn : RwTxn) (id : Bytes) : Except DbError (Option (Nat × Bytes)) :=
  match (txn.tables.scan Dbis.eventId (makeKeyStringU64 id 0) (u64NeBytes 0) false).head? with
  | some e =>
    if id.isPrefixOf e.1 then do
      let lev ← u64FromNeChecked e.2
      return (txn.getU64 Dbis.event lev).map fun buf => (lev, buf)
    else .ok none
  | none => .ok none

def lookupEventByLevid (txn : RwTxn) (lev : Nat) : Option Bytes := txn.getU64 Dbis.event lev

/-- Whether a request by `pubkey` to delete this id is stored. -/
def deletionExists (txn : RwTxn) (eventId pubkey : Bytes) : Bool :=
  (txn.get Dbis.eventDeletion (eventId ++ pubkey)).isSome

/-- The value of a tag as `hashed_tag_originals` reads it. -/
def originalValue (tag : List Value) : Bytes :=
  ((tag[1]?.bind Value.asStr).map Text.bytes).getD []

/-- The long values of the tags `name`, each with its SHA-256. -/
def hashedTagOriginals (host : Host) (json : Bytes) (name : String) :
    Except DbError (List (Bytes × Bytes)) := do
  let event ← (parseStrict host json).mapError .shown
  return ((tagsNamed event name).map originalValue).filterMap fun value =>
    if maxIndexedTagValSize < value.length then some (host.sha256 value, value) else none

/-- The value inserted last under a digest. -/
def originalOf (originals : List (Bytes × Bytes)) (digest : Bytes) : Option Bytes :=
  (originals.reverse.find? fun original => original.1 = digest).map Prod.snd

/-- The original of a packed tag value, which may be hashed. -/
def originalTagValue (host : Host) (json : Bytes) (name : String) (packedValue : Bytes) :
    Except DbError Bytes :=
  match hashedTagValueDigest packedValue with
  | none => .ok packedValue
  | some digest => do
    let originals ← hashedTagOriginals host json name
    okOr (originalOf originals digest) (.msg ("event JSON lacks its hashed " ++ name ++ " tag"))

/-! ### Payloads and deletion protection -/

def encodeRawPayload (json : Bytes) : Bytes := 0 :: json

/-- The body of a payload record, by its first byte. -/
def payloadBody (env : Services) (txn : RwTxn) (raw : Bytes) : Except DbError Bytes :=
  match raw with
  | [] => .error (.msg "empty event in EventPayload")
  | format :: rest =>
    if format = 0 then .ok rest
    else if format = 1 then do
      ensure (5 ≤ raw.length) (.msg "EventPayload record too short to read dictId")
      env.decompressRw txn (leVal (rest.take 4)) (rest.drop 4)
    else .error (.msg "Unexpected first byte in EventPayload")

/-- `decode_rw`: the JSON of a payload record. -/
def decodeRw (env : Services) (txn : RwTxn) (raw : Bytes) : Except DbError Bytes := do
  let json ← payloadBody env txn raw
  ensure (utf8Valid json = true) (.msg "payload not utf-8")
  return json

/-- Whether the payload, packed again, is the record, and its id and signature verify. -/
def payloadMatches (host : Host) (p : PackedEvent) (event : Value) : Bool :=
  match packEvent host .unlimited event with
  | .error _ => false
  | .ok (expected, _) =>
    expected.id = p.id && expected.pubkey = p.pubkey && expected.kind = p.kind &&
      expected.createdAt = p.createdAt && expected.expiration = p.expiration &&
      (verifyNostrEventWith host p event .nip01).isOk

def isDeletionProtectedJson (host : Host) (p : PackedEvent) (json : Bytes) :
    Except DbError Bool := do
  let event ← (parseStrict host json).mapError .event
  match deletionProtection event with
  | .ok true => return payloadMatches host p event
  | _ => return false

def isDeletionProtectedRw (env : Services) (txn : RwTxn) (lev : Nat) (p : PackedEvent) :
    Except DbError Bool := do
  let raw ← okOr (txn.getU64 Dbis.eventPayload lev)
    (.msg "missing payload while checking deletion protection")
  let json ← decodeRw env txn raw
  isDeletionProtectedJson env.host p json

/-! ### Vanish markers -/

def readTimestamp (raw : Bytes) : Option Nat := if raw.length = 8 then some (leVal raw) else none

def vanishTimestampRw (txn : RwTxn) (pubkey : Bytes) : Option Nat :=
  (txn.get Dbis.vanishPubkey pubkey).bind readTimestamp

/-- The marker of an author, unless one at this time or a later one is there. -/
def markVanished (txn : RwTxn) (pubkey : Bytes) (timestamp : Nat) : Except DbError RwTxn :=
  if (vanishTimestampRw txn pubkey).all (· < timestamp) then do
    let txn := txn.put Dbis.vanishPubkey pubkey (u64NeBytes timestamp)
    let txn ← invalidateVisibility txn
    countVanishMarkerChange txn
  else .ok txn

def giftWrapVanished (createdAt timestamp : Nat) : Bool := createdAt ≤ timestamp

/-- The author vanished at or after the event, which is not protected. -/
def authorVanished (host : Host) (txn : RwTxn) (p : PackedEvent) (json : Bytes) :
    Except DbError Bool :=
  if p.kind = vanishKind then .ok false
  else
    match vanishTimestampRw txn p.pubkey with
    | none => .ok false
    | some cutoff =>
      if p.createdAt ≤ cutoff then (isDeletionProtectedJson host p json).map fun kept => !kept
      else .ok false

/-- A recipient of the gift wrap vanished at or after it. -/
def recipientVanished (txn : RwTxn) (p : PackedEvent) : Bool :=
  giftWrapKinds.contains p.kind && p.tags.any fun tag =>
    tag.name = 112 && (vanishTimestampRw txn tag.value).any (giftWrapVanished p.createdAt)

def isEventVanishedRwWithJson (host : Host) (txn : RwTxn) (p : PackedEvent) (json : Bytes) :
    Except DbError Bool := do
  let byAuthor ← authorVanished host txn p json
  return byAuthor || recipientVanished txn p

def VanishPolicy.targetsThisRelayJson (policy : VanishPolicy) (host : Host) (json : Bytes) : Bool :=
  policy.enabled &&
    match parseStrict host json with
    | .ok event => policy.targetsThisRelayValue event
    | .error _ => false

/-! ### Refusals -/

/-- A check that may refuse the event with a status. -/
abbrev Check := Except DbError (Option EventWriteStatus)

/-- Refuse with `status` when `refused`. -/
def refuseIf (refused : Bool) (status : EventWriteStatus) : Check :=
  .ok (if refused then some status else none)

/-- The first refusal of a list of checks; the checks after it are not made. -/
def firstRefusal : List Check → Check
  | [] => .ok none
  | check :: checks => do
    match ← check with
    | some status => return some status
    | none => firstRefusal checks

section Refusals

variable (host : Host) (policy : VanishPolicy) (txn : RwTxn) (p : PackedEvent) (json : Bytes)

def checkDuplicate : Check := do
  let found ← lookupEventById txn p.id
  refuseIf found.isSome .duplicate

def checkVanishTarget : Check :=
  refuseIf (p.kind = vanishKind && policy.enabled && !policy.targetsThisRelayJson host json) .deleted

def checkVanished : Check :=
  if p.kind = vanishKind then .ok none
  else do
    let vanished ← isEventVanishedRwWithJson host txn p json
    refuseIf vanished .deleted

/-- A stored request of the author names the id, and the event is not protected. -/
def checkIdTombstone : Check :=
  if p.kind ≠ vanishKind ∧ p.kind ≠ deletionKind ∧ deletionExists txn p.id p.pubkey = true then do
    let kept ← isDeletionProtectedJson host p json
    refuseIf (!kept) .deleted
  else .ok none

/-- A stored request of a recipient names the id of the gift wrap. -/
def checkRecipientTombstone : Check :=
  refuseIf (giftWrapKinds.contains p.kind && p.tags.any fun tag =>
    tag.name = 112 && deletionExists txn p.id tag.value) .deleted

/-- The checks made before versions and requests, in order. -/
def refusal : Check :=
  firstRefusal [checkDuplicate txn p, checkVanishTarget host policy p json,
    checkVanished host txn p json, checkIdTombstone host txn p json, checkRecipientTombstone txn p]

end Refusals

/-! ### Versions of an address -/

/-- Hands the versions to `f` until it returns `false`. -/
def visitReplacements {α : Type} (txn : RwTxn) (f : α → Nat → PackedEvent → α × Bool) :
    List Kv → α → Except DbError α
  | [], state => .ok state
  | e :: rest, state => do
    let lev ← u64FromNeChecked e.2
    let raw ← okOr (txn.getU64 Dbis.event lev) (.msg "dangling replacement index entry")
    let other ← viewPacked raw
    let (state, keepGoing) := f state lev other
    if keepGoing then visitReplacements txn f rest state else return state

/-- The versions under a key of the replacement index, the greatest local id first. -/
def foreachReplacement {α : Type} (txn : RwTxn) (key : Bytes)
    (f : α → Nat → PackedEvent → α × Bool) (state : α) : Except DbError α :=
  visitReplacements txn f
    ((txn.tables.scan Dbis.eventReplace key (u64NeBytes (2 ^ 64 - 1)) true).takeWhile
      fun e => e.1 = key) state

/-- The stored versions to clean up, unless one of them is newer. -/
structure Versions where
  candidates : List Nat
  superseded : Bool

def versionStep (p : PackedEvent) (seen : Versions) (lev : Nat) (other : PackedEvent) :
    Versions × Bool :=
  if isEventABeforeEventB p other then ({ seen with superseded := true }, false)
  else ({ seen with candidates := seen.candidates ++ [lev] }, true)

/-- Whether the last tombstone of an address, in the order of the table, is at `createdAt` or
later. -/
def tombstoneCovers (txn : RwTxn) (digest : Bytes) (createdAt : Nat) : Except DbError Bool :=
  match (txn.tables.scan Dbis.eventReplaceDeletion (makeKeyStringU64 digest (2 ^ 64 - 1))
      (u64NeBytes (2 ^ 64 - 1)) true).head? with
  | none => .ok false
  | some e => do
    let (s, n) ← parseKeyStringU64 e.1
    return s = digest && createdAt ≤ n

/-- Whether the address of the event has a tombstone that covers it. -/
def addressDeleted (host : Host) (txn : RwTxn) (p : PackedEvent) (json d : Bytes) :
    Except DbError Bool := do
  let dTag ← originalTagValue host json "d" d
  tombstoneCovers txn (host.sha256 (Address.spell ⟨p.kind, p.pubkey, dTag⟩)) p.createdAt

/-- A replaceable or addressable event against the stored versions and tombstones of its
address: its status and the versions it replaces. -/
def checkVersions (host : Host) (txn : RwTxn) (p : PackedEvent) (json : Bytes)
    (status : EventWriteStatus) : Except DbError (EventWriteStatus × List Nat) :=
  if isVersioned p.kind then
    match p.firstDTag with
    | none => .ok (status, [])
    | some replace => do
      let key := makeKeyStringU64 (p.pubkey ++ replace) p.kind
      let seen ← foreachReplacement txn key (versionStep p) ⟨[], false⟩
      if seen.superseded then return (.replaced, [])
      else if status = .pending then do
        let deleted ← addressDeleted host txn p json replace
        return (if deleted then .deleted else status, seen.candidates)
      else return (status, seen.candidates)
  else .ok (status, [])

/-! ### Deletion requests -/

/-- A stored version is deleted by a request not older than it. -/
def addressStep (deletion : PackedEvent) (levs : List Nat) (lev : Nat) (other : PackedEvent) :
    List Nat × Bool :=
  (if other.createdAt ≤ deletion.createdAt then levs ++ [lev] else levs, true)

/-- The address a packed `a` tag names, if it parses. -/
def requestedAddress (longAddresses : List (Bytes × Bytes)) (tagVal : Bytes) : Option Address :=
  let address :=
    match hashedTagValueDigest tagVal with
    | some digest => originalOf longAddresses digest
    | none => if utf8Valid tagVal then some tagVal else none
  address.bind fun s => (parseATag s).toOption

def pushAddressDeletions (host : Host) (txn : RwTxn) (deletion : PackedEvent) (tagVal : Bytes)
    (longAddresses : List (Bytes × Bytes)) (levs : List Nat) : Except DbError (List Nat) :=
  match requestedAddress longAddresses tagVal with
  | none => .ok levs
  | some a =>
    if (isParamReplaceableKind a.kind || (isReplaceableKind a.kind && a.d = [])) &&
        a.pubkey = deletion.pubkey then
      foreachReplacement txn
        (makeKeyStringU64 (a.pubkey ++ indexedTagValue host a.d) a.kind) (addressStep deletion) levs
    else .ok levs

/-- The event is of the same author and not protected. -/
def ownUnprotected (env : Services) (txn : RwTxn) (deletion : PackedEvent) (lev : Nat)
    (other : PackedEvent) : Except DbError Bool :=
  if other.kind ≠ vanishKind ∧ other.kind ≠ deletionKind ∧ other.pubkey = deletion.pubkey then
    (isDeletionProtectedRw env txn lev other).map fun kept => !kept
  else .ok false

/-- Whether a request by `deletion`'s author removes the event `other`: the author's own
unprotected event, or a gift wrap to the author. -/
def canDelete (env : Services) (txn : RwTxn) (deletion : PackedEvent) (lev : Nat)
    (other : PackedEvent) : Except DbError Bool := do
  let own ← ownUnprotected env txn deletion lev other
  return own || (giftWrapKinds.contains other.kind &&
    other.tags.any fun tag => tag.name = 112 && tag.value = deletion.pubkey)

/-- The local ids one tag of a deletion request adds. -/
def requestStep (env : Services) (txn : RwTxn) (deletion : PackedEvent)
    (longAddresses : List (Bytes × Bytes)) (levs : List Nat) (tag : PackedEventTag) :
    Except DbError (List Nat) :=
  if tag.name = 101 then do
    match ← lookupEventById txn tag.value with
    | none => return levs
    | some (lev, buf) => do
      let other ← (PackedEvent.new buf).mapError .shown
      let removed ← canDelete env txn deletion lev other
      return if removed then levs ++ [lev] else levs
  else if tag.name = 97 then
    pushAddressDeletions env.host txn deletion tag.value longAddresses levs
  else .ok levs

/-- The originals of the hashed addresses of a request, read only when there are some. -/
def longAddresses (host : Host) (p : PackedEvent) (json : Bytes) :
    Except DbError (List (Bytes × Bytes)) :=
  if p.tags.any fun tag => tag.name = 97 && (hashedTagValueDigest tag.value).isSome then
    hashedTagOriginals host json "a"
  else .ok []

/-- The local ids a deletion request removes; none for other events. -/
def requestedDeletions (env : Services) (txn : RwTxn) (p : PackedEvent) (json : Bytes)
    (levs : List Nat) : Except DbError (List Nat) :=
  if p.kind = deletionKind then do
    let originals ← longAddresses env.host p json
    p.tags.foldlM (requestStep env txn p originals) levs
  else .ok levs

/-! ### Storing -/

/-- `put_u64` with `MDB_NOOVERWRITE | MDB_APPEND`, which must succeed. -/
def appendEvent (txn : RwTxn) (lev : Nat) (packed : Bytes) : Except DbError RwTxn := do
  let tables ← okOr (txn.tables.putAppend Dbis.event (u64NeBytes lev) packed)
    (.msg "duplicate insert into Event")
  return { txn with tables := tables }

/-- The count of superseded versions is loaded before a versioned event comes or goes. -/
def loadVersions (txn : RwTxn) (kind : Nat) : Except DbError RwTxn :=
  if isVersioned kind then loadSuperseded txn else .ok txn

/-- The count of superseded versions for keys about to be added or just removed. -/
def countVersions (txn : RwTxn) (kind : Nat) (keys : List Bytes) (insert : Bool) :
    Except DbError RwTxn :=
  if isVersioned kind then
    keys.foldlM (fun txn key => changeReplacementCount txn key insert) txn
  else .ok txn

def insertEvent (host : Host) (txn : RwTxn) (p : PackedEvent) (json : Bytes) :
    Except DbError (Nat × RwTxn) := do
  let txn ← changeAuthorCount txn p.pubkey true
  let (lev, txn) ← allocateEventId txn
  let txn ← appendEvent txn lev p.buf
  let txn := txn.put Dbis.eventPayload (u64NeBytes lev) (encodeRawPayload json)
  let idx := indexEvent host p
  let txn ← loadVersions txn p.kind
  let txn ← countVersions txn p.kind idx.replace true
  return (lev, putIndices txn lev idx)

/-! ### Deleting -/

/-- `marker`: a stored position, if it has the size of one. -/
def marker (value : Option Bytes) : Option Nat := value.bind readTimestamp

def searchIndexedThroughKey : Bytes := 0 :: ascii "indexed-through"

def searchIndexedThroughRw (txn : RwTxn) : Nat :=
  (marker (txn.get Dbis.eventSearch searchIndexedThroughKey)).getD 0

/-- The stored event leaves its author's count; readers see another state. -/
def forgetAuthor (txn : RwTxn) (lev : Nat) : Except DbError (Option Nat × RwTxn) :=
  match txn.getU64 Dbis.event lev with
  | none => .ok (none, txn)
  | some raw => do
    let p ← viewPacked raw
    let txn ← changeAuthorCount txn p.pubkey false
    let txn ← invalidateVisibility txn
    return (some p.kind, txn)

/-- The JSON of an event the search index covers. -/
def indexedJson (env : Services) (txn : RwTxn) (lev : Nat) : Except DbError (Option Bytes) :=
  match txn.getU64 Dbis.eventPayload lev with
  | none => .ok none
  | some raw =>
    if lev ≤ searchIndexedThroughRw txn then (decodeRw env txn raw).map some else .ok none

def removeEventSearch (env : Services) (txn : RwTxn) (lev kind : Nat) (json : Bytes) :
    Except DbError RwTxn := do
  let entries ← env.searchIndexEntries lev kind json
  return entries.foldl (fun txn e => txn.delPair Dbis.eventSearch e.1 e.2) txn

/-- The postings of the event, under its kind or the one its payload states. -/
def unindexSearch (env : Services) (txn : RwTxn) (lev : Nat) (kind : Option Nat)
    (json : Option Bytes) : Except DbError RwTxn :=
  match json with
  | none => .ok txn
  | some json =>
    match kind.or (env.payloadKind json) with
    | none => .ok txn
    | some kind => removeEventSearch env txn lev kind json

/-- The index entries of the event and its record. -/
def removeRecord (host : Host) (txn : RwTxn) (lev : Nat) : Except DbError RwTxn :=
  match txn.getU64 Dbis.event lev with
  | none => .ok txn
  | some buf => do
    let p ← viewPacked buf
    let idx := indexEvent host p
    let txn ← loadVersions txn p.kind
    let txn := delIndices txn lev idx
    let txn ← countVersions txn p.kind idx.replace false
    return txn.delKey Dbis.event (u64NeBytes lev)

/-- The answer is whether a payload was there. -/
def deleteEventBasic (env : Services) (txn : RwTxn) (lev : Nat) : Except DbError (Bool × RwTxn) := do
  let txn ← preserveHighWater txn
  let (kind, txn) ← forgetAuthor txn lev
  let json ← indexedJson env txn lev
  let deleted := (txn.getU64 Dbis.eventPayload lev).isSome
  let txn := txn.delKey Dbis.eventPayload (u64NeBytes lev)
  let txn ← unindexSearch env txn lev kind json
  let txn ← removeRecord env.host txn lev
  return (deleted, txn)

/-! ### A batch -/

section Batches

variable {σ : Type} (env : Services) (sink : NegentropySink σ) (policy : VanishPolicy)
  (authorQuota : Nat)

/-- A transaction and the state of the sink. -/
structure Writer (σ : Type) where
  txn : RwTxn
  trees : σ

/-- Remove one event, if it is stored; whether its payload was there. -/
def removeEvent (w : Writer σ) (lev : Nat) : Except DbError (Bool × Writer σ) :=
  match lookupEventByLevid w.txn lev with
  | none => .ok (false, w)
  | some buf => do
    let p ← viewPacked buf
    let trees ← sink.update w.trees p false
    let (deleted, txn) ← deleteEventBasic env w.txn lev
    return (deleted, ⟨txn, trees⟩)

/-- The events of the author among those to be removed. -/
def ownRemoved (txn : RwTxn) (pubkey : Bytes) (removed : List Nat) (lev : Nat) :
    Except DbError (List Nat) :=
  match txn.getU64 Dbis.event lev with
  | none => .ok removed
  | some raw => do
    let p ← viewPacked raw
    return if p.pubkey = pubkey then removed.insert lev else removed

/-- Whether storing the event leaves its author above the quota (0 is none). -/
def overQuota (txn : RwTxn) (p : PackedEvent) (levs : List Nat) :
    Except DbError (Bool × RwTxn) :=
  if authorQuota ≠ 0 ∧ p.kind ≠ vanishKind then do
    let (count, txn) ← authorCount txn p.pubkey
    let removed ← levs.foldlM (ownRemoved txn p.pubkey) []
    return (authorQuota < min (count - removed.length + 1) (2 ^ 64 - 1), txn)
  else .ok (false, txn)

/-- What the loop over a batch carries: the writer, the events done and the ids given. -/
structure Batch (σ : Type) where
  writer : Writer σ
  done : List EventToWrite
  firstInserted : Option Nat
  lastInserted : Option Nat

/-- The event is done with a status. -/
def Batch.settle (st : Batch σ) (e : EventToWrite) (status : EventWriteStatus) : Batch σ :=
  { st with done := st.done ++ [{ e with status := status }] }

/-- The status of a copy of the event just done. -/
def copyStatus (st : Batch σ) (e : EventToWrite) : Option EventWriteStatus :=
  match st.done.getLast? with
  | none => none
  | some previous =>
    if previous.packed.take 32 = e.packed.take 32 then
      match previous.status with
      | .written | .duplicate => some .duplicate
      | refused => some refused
    else none

/-- What the event would remove, or why it is refused. -/
def judge (txn : RwTxn) (p : PackedEvent) (e : EventToWrite) :
    Except DbError (EventWriteStatus × List Nat) := do
  match ← refusal env.host policy txn p e.json with
  | some status => return (status, [])
  | none => do
    let (status, versions) ← checkVersions env.host txn p e.json e.status
    let levs ← requestedDeletions env txn p e.json versions
    return (status, levs)

/-- A vanish request that counts leaves a marker. -/
def markRequest (txn : RwTxn) (p : PackedEvent) : Except DbError RwTxn :=
  if p.kind = vanishKind ∧ policy.enabled = true then markVanished txn p.pubkey p.createdAt
  else .ok txn

/-- The events to be removed, one after another. -/
def removeEvents (w : Writer σ) (levs : List Nat) : Except DbError (Writer σ) :=
  levs.foldlM (fun w lev => (removeEvent env sink w lev).map Prod.snd) w

/-- The event is stored and what it removes is removed. -/
def storeEvent (w : Writer σ) (p : PackedEvent) (json : Bytes) (levs : List Nat) :
    Except DbError (Nat × Writer σ) := do
  let txn ← markRequest policy w.txn p
  let (lev, txn) ← insertEvent env.host txn p json
  let trees ← sink.update w.trees p true
  let w ← removeEvents env sink ⟨txn, trees⟩ levs
  return (lev, w)

/-- One round of the loop. -/
def writeOne (st : Batch σ) (e : EventToWrite) : Except DbError (Batch σ) := do
  let p ← viewPacked e.packed
  match copyStatus st e with
  | some status => return st.settle e status
  | none => do
    let (status, levs) ← judge env policy st.writer.txn p e
    if status ≠ .pending then return st.settle e status
    else do
      let (exceeded, txn) ← overQuota authorQuota st.writer.txn p levs
      if exceeded then return { st with writer := ⟨txn, st.writer.trees⟩ }.settle e .quotaExceeded
      else do
        let (lev, w) ← storeEvent env sink policy ⟨txn, st.writer.trees⟩ p e.json levs
        return ⟨w, st.done ++ [{ e with status := .written, levId := lev }],
          st.firstInserted.or (some lev), some lev⟩

/-- The order of a batch: by time, then by id. -/
def EventToWrite.before (a b : EventToWrite) : Bool :=
  match PackedEvent.new a.packed, PackedEvent.new b.packed with
  | .ok p, .ok q => p.createdAt < q.createdAt || (p.createdAt = q.createdAt && p.id ≤ q.id)
  | _, _ => true

def tagKindSchemaKey : Bytes := 0 :: ascii "schema"
def tagKindThroughKey : Bytes := 0 :: ascii "through"
def tagKindSchemaVersion : Nat := 1

/-- The marker of the `(tag, kind)` table moves past the events of a batch if it covered all
before them. -/
def noteTagKindIndexed (txn : RwTxn) (first last : Nat) : RwTxn :=
  if marker (txn.get Dbis.eventTagKind tagKindSchemaKey) = some tagKindSchemaVersion then
    let through := (marker (txn.get Dbis.eventTagKind tagKindThroughKey)).getD 0
    if first ≤ min (through + 1) (2 ^ 64 - 1) ∧ through < last then
      (txn.delKey Dbis.eventTagKind tagKindThroughKey).put Dbis.eventTagKind tagKindThroughKey
        (u64NeBytes last)
    else txn
  else txn

/-- The end of a batch. -/
def Batch.finish (st : Batch σ) : Writer σ × List EventToWrite :=
  match st.firstInserted, st.lastInserted with
  | some first, some last =>
    if st.writer.txn.deferTagKind then (st.writer, st.done)
    else ({ st.writer with txn := noteTagKindIndexed st.writer.txn first last }, st.done)
  | _, _ => (st.writer, st.done)

/-- `write_events_with_quota`. -/
def writeEventsWithQuota (w : Writer σ) (evs : List EventToWrite) :
    Except DbError (Writer σ × List EventToWrite) := do
  let st ← (evs.insertionSort fun a b => a.before b = true).foldlM
    (writeOne env sink policy authorQuota) ⟨w, [], none, none⟩
  return st.finish

def writeEventsWithPolicy (w : Writer σ) (evs : List EventToWrite) :
    Except DbError (Writer σ × List EventToWrite) :=
  writeEventsWithQuota env sink policy 0 w evs

def writeEvents (w : Writer σ) (evs : List EventToWrite) :
    Except DbError (Writer σ × List EventToWrite) :=
  writeEventsWithPolicy env sink .disabled w evs

/-- One round of the loop of `deleteEvents`. -/
def deleteOne (done : Nat × Writer σ) (lev : Fin (2 ^ 64)) : Except DbError (Nat × Writer σ) := do
  let (deleted, w) ← removeEvent env sink done.2 lev.val
  return (if deleted then done.1 + 1 else done.1, w)

/-- `delete_events`: how many payloads were removed. -/
def deleteEvents (w : Writer σ) (levs : List (Fin (2 ^ 64))) : Except DbError (Nat × Writer σ) :=
  levs.foldlM (deleteOne env sink) (0, w)

end Batches

end Wok.Db
