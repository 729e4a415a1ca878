/-
**The live subscription index.**

Open subscriptions sit in numbered slots. Each filter is posted under one dimension of keys: its
ids, else its authors, else its tag values, else its kinds, else with the filters that any event
can match. An event's keys select the candidate slots, and each candidate is matched in full. A
posting knows which of its slot's postings it is, a slot records where its postings sit, and a
removal moves the last posting of a bucket into the gap.

* `Index` — postings by key, with `push`, `remove` and `lookup`.
* `ActiveMonitors` — the subscriptions and their two indexes: filters with a search have their own.
* `ActiveMonitors.process`, `processEphemeral`, `eventRequiresContent` — what an event is asked for.

A hash map is a list of entries with distinct keys. Where the code goes through one, it may meet
the entries in any order, so such a function takes the order.
-/

import Mathlib.Data.List.AList
import Mathlib.Data.List.MinMax
import Mathlib.Data.List.Sort
import Wok.Library.Tracked
import Wok.Query.Group
import Wok.Query.Pending

namespace Wok.Query

open Wok.Library Wok.Event

/-! ### Subscriptions -/

/-- A subscription id, by its bytes. -/
structure SubId where
  inner : Bytes
  deriving DecidableEq, Repr

structure Subscription where
  connId : Nat
  subId : SubId
  filterGroup : NostrFilterGroup
  latestEventId : Nat
  generation : Nat

structure Recipient where
  connId : Nat
  subId : SubId
  pending : Bool
  generation : Nat
  deriving DecidableEq, Repr

/-- A subscription and, until its history has been sent, the live matches held back for it. -/
structure Monitored where
  sub : Subscription
  pending : Option PendingBuffer

/-! ### Hash maps -/

abbrev HashMap (κ β : Type) := AList fun _ : κ => β

/-- The order in which a pass meets the entries of a hash map. -/
structure IterOrder (α : Type) where
  order : List α → List α
  perm : ∀ l, (order l).Perm l

/-! ### Postings -/

/-- `slot` and which of its postings this is. `kinds` has a bit for each kind the filter takes. -/
structure Posting where
  slot : Nat
  nth : Nat
  kinds : BitVec 64
  deriving DecidableEq, Repr

/-- One of 64 bits for a kind. -/
def kindBit (kind : Nat) : BitVec 64 :=
  1#64 <<< ((BitVec.ofNat 64 kind * 0x9E3779B97F4A7C15#64) >>> 58).toNat

def kindMask (f : NostrFilter) : BitVec 64 :=
  match f.kinds with
  | none => BitVec.allOnes 64
  | some kinds => kinds.items.foldl (fun mask kind => mask ||| kindBit kind) 0

inductive Key
  | id (id : Bytes)
  | author (pubkey : Bytes)
  | tag (name : Byte) (value : Bytes)
  | kind (kind : Nat)
  | any
  deriving DecidableEq, Repr

def key32 (bytes : Bytes) : Except Panic Bytes :=
  if bytes.length = 32 then .ok bytes else .error (.expect "ids and authors are 32 bytes")

def position (n : Nat) : Except Panic Nat :=
  if n < 2 ^ 32 then .ok n else .error (.expect "fewer than 2^32 postings")

/-- The keys a filter is posted under, in order. -/
def forEachKey (f : NostrFilter) : Except Panic (List Key) :=
  match f.ids with
  | some ids => .ok (ids.items.map .id)
  | none =>
    match f.authors with
    | some authors => .ok (authors.items.map .author)
    | none =>
      match f.andTags with
      | (name, values) :: _ => do
        let value ← okOr values.items[0]? .outOfBounds
        return [.tag name value]
      | [] =>
        match f.tags.argmin fun entry => entry.2.size with
        | some (name, values) => .ok (values.items.map (.tag name))
        | none =>
          match f.kinds with
          | some kinds => .ok (kinds.items.map .kind)
          | none => .ok [.any]

/-! ### The index -/

abbrev Buckets (κ : Type) := HashMap κ (List Posting)

/-- Where the postings of each slot sit in their buckets. -/
abbrev Places := List (List Nat)

def setPlace (places : Places) (slot nth at' : Nat) : Except Panic Places := do
  let row ← okOr places[slot]? .outOfBounds
  ensure (nth < row.length) .outOfBounds
  return places.set slot (row.set nth at')

/-- Removes `bucket[at']` and points the posting that takes its place there. -/
def swapRemoveAt (bucket : List Posting) (at' : Nat) (places : Places) :
    Except Panic (List Posting × Places) := do
  ensure (at' < bucket.length) .outOfBounds
  let bucket := swapRemove bucket at'
  match bucket[at']? with
  | some moved => return (bucket, ← setPlace places moved.slot moved.nth at')
  | none => return (bucket, places)

section Buckets

variable {κ : Type} [DecidableEq κ]

def bucketOf (map : Buckets κ) (key : κ) : List Posting := (map.lookup key).getD []

def pushTo (map : Buckets κ) (key : κ) (posting : Posting) : Except Panic (Buckets κ × Nat) := do
  let bucket := bucketOf map key ++ [posting]
  let at' ← position (bucket.length - 1)
  return (map.insert key bucket, at')

def removeFrom (map : Buckets κ) (key : κ) (at' : Nat) (places : Places) :
    Except Panic (Buckets κ × Places) := do
  let bucket ← okOr (map.lookup key) (.expect "a key the slot was added under")
  let (bucket, places) ← swapRemoveAt bucket at' places
  return (if bucket.isEmpty then map.erase key else map.insert key bucket, places)

/-- The bucket under a key, not looked for in an empty map. -/
def found (map : Buckets κ) (key : κ) : List Posting :=
  if map.entries.isEmpty then [] else bucketOf map key

end Buckets

/-- Postings by key. `tagPostings` counts those under tags. -/
structure Index where
  ids : Buckets Bytes
  authors : Buckets Bytes
  tags : Byte → Buckets Bytes
  tagPostings : Nat
  kinds : Buckets Nat
  any : List Posting

namespace Index

def new : Index := ⟨∅, ∅, fun _ => ∅, 0, ∅, []⟩

/-- Adds a posting and returns its position in the bucket. -/
def push (ix : Index) (key : Key) (posting : Posting) : Except Panic (Index × Nat) :=
  match key with
  | .id id => do
    let (map, at') ← pushTo ix.ids (← key32 id) posting
    return ({ ix with ids := map }, at')
  | .author pubkey => do
    let (map, at') ← pushTo ix.authors (← key32 pubkey) posting
    return ({ ix with authors := map }, at')
  | .tag name value => do
    let (map, at') ← pushTo (ix.tags name) value posting
    return ({ ix with
      tags := Function.update ix.tags name map
      tagPostings := ix.tagPostings + 1 }, at')
  | .kind kind => do
    let (map, at') ← pushTo ix.kinds kind posting
    return ({ ix with kinds := map }, at')
  | .any => do
    let bucket := ix.any ++ [posting]
    return ({ ix with any := bucket }, ← position (bucket.length - 1))

def remove (ix : Index) (key : Key) (at' : Nat) (places : Places) :
    Except Panic (Index × Places) :=
  match key with
  | .id id => do
    let (map, places) ← removeFrom ix.ids id at' places
    return ({ ix with ids := map }, places)
  | .author pubkey => do
    let (map, places) ← removeFrom ix.authors pubkey at' places
    return ({ ix with authors := map }, places)
  | .tag name value => do
    let tagPostings ← checkedSub ix.tagPostings 1
    let (map, places) ← removeFrom (ix.tags name) value at' places
    return ({ ix with
      tags := Function.update ix.tags name map
      tagPostings := tagPostings }, places)
  | .kind kind => do
    let (map, places) ← removeFrom ix.kinds kind at' places
    return ({ ix with kinds := map }, places)
  | .any => do
    let (bucket, places) ← swapRemoveAt ix.any at' places
    return ({ ix with any := bucket }, places)

/-- The postings under an event's id, author, tags and kind, and the unindexed filters. -/
def lookup (ix : Index) (packed : PackedEvent) : List Posting :=
  found ix.ids packed.id ++ found ix.authors packed.pubkey ++
    (if ix.tagPostings ≠ 0 then
      packed.filterTags.flatMap fun tag => found (ix.tags tag.name) tag.value
    else []) ++
    found ix.kinds packed.kind ++ ix.any

end Index

/-! ### The monitors -/

/-- The event passes the other conditions of a filter with a search. -/
def NostrFilterGroup.mayNeedContent (g : NostrFilterGroup) (packed : PackedEvent) : Bool :=
  g.filters.any fun f => f.search.isSome && f.doesMatchWithoutSearch packed

/-- `slots` holds the subscriptions, `none` in a free slot; the top of `free` is its head. `seen`
is the candidate pass that last took each slot. -/
structure ActiveMonitors where
  conns : HashMap Nat (HashMap SubId Nat)
  slots : List (Option Monitored)
  places : Places
  free : List Nat
  index : Index
  search : Index
  seen : List Nat
  pass : Nat
  maxSubs : Nat
  contentSubscriptions : Nat

namespace ActiveMonitors

def new (maxSubs : Nat) : ActiveMonitors := ⟨∅, [], [], [], .new, .new, [], 0, maxSubs, 0⟩

variable (m : ActiveMonitors)

def setMaxSubs (maxSubs : Nat) : ActiveMonitors := { m with maxSubs := maxSubs }

/-- The index of the filters with a search, or of the others. -/
def indexFor (searching : Bool) : Index := if searching then m.search else m.index

def setIndex (searching : Bool) (ix : Index) (places : Places) : ActiveMonitors :=
  if searching then { m with search := ix, places := places }
  else { m with index := ix, places := places }

/-- The subscription in a slot, where `text` is what the code expects of it. -/
def occupant (slot : Nat) (text : String) : Except Panic Monitored := do
  let cell ← okOr m.slots[slot]? .outOfBounds
  okOr cell (.expect text)

/-! #### Slots -/

def allocate : Except Panic (ActiveMonitors × Nat) :=
  match m.free with
  | slot :: free => .ok ({ m with free := free }, slot)
  | [] => do
    let slot := m.slots.length
    ensure (slot < 2 ^ 32) (.expect "fewer than 2^32 subscriptions")
    return ({ m with
      slots := m.slots ++ [none]
      places := m.places ++ [[]]
      seen := m.seen ++ [0] }, slot)

/-- One key of a filter of the subscription in `slot`. -/
def installKey (slot : Nat) (searching : Bool) (kinds : BitVec 64) (m : ActiveMonitors)
    (key : Key) : Except Panic ActiveMonitors := do
  let row ← okOr m.places[slot]? .outOfBounds
  let nth ← position row.length
  let (ix, at') ← (m.indexFor searching).push key ⟨slot, nth, kinds⟩
  return m.setIndex searching ix (m.places.set slot (row ++ [at']))

def installFilter (slot : Nat) (m : ActiveMonitors) (f : NostrFilter) :
    Except Panic ActiveMonitors := do
  let keys ← forEachKey f
  keys.foldlM (installKey slot f.search.isSome (kindMask f)) m

/-- Indexes the subscription in `slot` under every key of its filters. -/
def install (slot : Nat) : Except Panic ActiveMonitors := do
  let entry ← m.occupant slot "a subscription to install"
  let group := entry.sub.filterGroup
  let m := { m with
    contentSubscriptions := m.contentSubscriptions + if group.requiresContent then 1 else 0 }
  group.filters.foldlM (installFilter slot) m

/-- The place is read now: removing an earlier posting may have moved this one. -/
def uninstallKey (slot : Nat) (searching : Bool) (st : ActiveMonitors × Nat) (key : Key) :
    Except Panic (ActiveMonitors × Nat) := do
  let (m, nth) := st
  let row ← okOr m.places[slot]? .outOfBounds
  let at' ← okOr row[nth]? .outOfBounds
  let (ix, places) ← (m.indexFor searching).remove key at' m.places
  return (m.setIndex searching ix places, nth + 1)

def uninstallFilter (slot : Nat) (st : ActiveMonitors × Nat) (f : NostrFilter) :
    Except Panic (ActiveMonitors × Nat) := do
  let keys ← forEachKey f
  keys.foldlM (uninstallKey slot f.search.isSome) st

/-- Takes the subscription out of `slot` and removes the postings `install` added for it. -/
def uninstall (slot : Nat) : Except Panic ActiveMonitors := do
  let entry ← m.occupant slot "a subscription to uninstall"
  let group := entry.sub.filterGroup
  let content ← checkedSub m.contentSubscriptions (if group.requiresContent then 1 else 0)
  let m := { m with slots := m.slots.set slot none, contentSubscriptions := content }
  let (m, _) ← group.filters.foldlM (uninstallFilter slot) (m, 0)
  ensure (slot < m.places.length) .outOfBounds
  return { m with places := m.places.set slot [] }

def release (slot : Nat) : Except Panic ActiveMonitors := do
  let m ← m.uninstall slot
  return { m with free := slot :: m.free }

/-! #### Subscriptions -/

def slotOf (connId : Nat) (subId : SubId) : Option Nat :=
  (m.conns.lookup connId).bind fun subs => subs.lookup subId

/-- The slot of the new subscription: that of the one it replaces, emptied, or a fresh one. -/
def slotFor (sub : Subscription) : Except Panic (ActiveMonitors × Nat) :=
  match m.slotOf sub.connId sub.subId with
  | some slot => do return (← m.uninstall slot, slot)
  | none => do
    let (m, slot) ← m.allocate
    let subs := ((m.conns.lookup sub.connId).getD ∅).insert sub.subId slot
    return ({ m with conns := m.conns.insert sub.connId subs }, slot)

def insert (sub : Subscription) (pending : Option PendingBuffer) :
    Except Panic ActiveMonitors := do
  let (m, slot) ← m.slotFor sub
  ensure (slot < m.slots.length) .outOfBounds
  let m := { m with slots := m.slots.set slot (some ⟨sub, pending⟩) }
  m.install slot

def openCount (connId : Nat) : Nat := ((m.conns.lookup connId).getD ∅).entries.length

/-- Refused when a new id would pass the cap of its connection. -/
def addSub (sub : Subscription) : Except Panic (ActiveMonitors × Bool) :=
  let replacing := (m.slotOf sub.connId sub.subId).isSome
  if !replacing && m.maxSubs ≤ m.openCount sub.connId then .ok (m, false)
  else do return (← m.insert sub none, true)

def addPending (sub : Subscription) (buffer : PendingBuffer) : Except Panic ActiveMonitors :=
  m.insert sub (some buffer)

/-- The connections when `subId` leaves `subs`, the subscriptions of `connId`. -/
def connsWithout (connId : Nat) (subs : HashMap SubId Nat) (subId : SubId) :
    HashMap Nat (HashMap SubId Nat) :=
  let subs := subs.erase subId
  if subs.entries.isEmpty then m.conns.erase connId else m.conns.insert connId subs

def removeSub (connId : Nat) (subId : SubId) : Except Panic ActiveMonitors :=
  match m.conns.lookup connId with
  | none => .ok m
  | some subs =>
    match subs.lookup subId with
    | none => .ok m
    | some slot => { m with conns := m.connsWithout connId subs subId }.release slot

/-- The slots the connections hold. -/
def heldSlots : List Nat :=
  m.conns.entries.flatMap fun conn => conn.2.entries.map Sigma.snd

/-- A subscription refused: its connection, id, generation and the reason. -/
structure Refused (ρ : Type) where
  connId : Nat
  subId : SubId
  generation : Nat
  reason : ρ

/-- What `refusal` says of the subscription in a slot. -/
def judge {ρ : Type} (refusal : Subscription → Option ρ) (refused : List (Refused ρ)) (slot : Nat) :
    Except Panic (List (Refused ρ)) := do
  let cell ← okOr m.slots[slot]? .outOfBounds
  match cell with
  | none => return refused
  | some entry =>
    match refusal entry.sub with
    | none => return refused
    | some reason =>
      return refused ++ [⟨entry.sub.connId, entry.sub.subId, entry.sub.generation, reason⟩]

def removeRefused {ρ : Type} (order : IterOrder Nat) (refusal : Subscription → Option ρ) :
    Except Panic (ActiveMonitors × List (Refused ρ)) := do
  let refused ← (order.order m.heldSlots).foldlM (m.judge refusal) []
  let m ← refused.foldlM (fun m r => m.removeSub r.connId r.subId) m
  return (m, refused)

def closeConn (order : IterOrder Nat) (connId : Nat) : Except Panic ActiveMonitors :=
  match m.conns.lookup connId with
  | none => .ok m
  | some subs =>
    (order.order (subs.entries.map Sigma.snd)).foldlM release
      { m with conns := m.conns.erase connId }

def entry (connId : Nat) (subId : SubId) : Except Panic (Option (Nat × Monitored)) :=
  match m.slotOf connId subId with
  | none => .ok none
  | some slot => do
    let cell ← okOr m.slots[slot]? .outOfBounds
    return cell.map fun entry => (slot, entry)

/-- Changes the buffer of a subscription whose history is still being sent. -/
def pendingMut (connId : Nat) (subId : SubId) (change : PendingBuffer → PendingBuffer) :
    Except Panic ActiveMonitors := do
  match ← m.entry connId subId with
  | none => return m
  | some (slot, entry) =>
    return { m with slots := m.slots.set slot (some { entry with pending := entry.pending.map change }) }

/-- The history of this generation has been sent up to `delivered`. -/
def finishPending (connId : Nat) (subId : SubId) (generation delivered : Nat) :
    Except Panic (ActiveMonitors × Option PendingBuffer) := do
  match ← m.entry connId subId with
  | none => return (m, none)
  | some (slot, entry) =>
    if entry.sub.generation ≠ generation then return (m, none)
    else match entry.pending with
    | none => return (m, none)
    | some buffer =>
      let sub := { entry.sub with latestEventId := max entry.sub.latestEventId delivered }
      return ({ m with slots := m.slots.set slot (some ⟨sub, none⟩) }, some buffer)

def requiresContent : Bool := m.contentSubscriptions != 0

/-! #### Events -/

/-- The slots a pass has seen and taken. -/
structure Collecting where
  seen : List Nat
  candidates : List Nat

def collectPosting (pass : Nat) (kind : BitVec 64) (st : Collecting) (posting : Posting) :
    Except Panic Collecting :=
  if posting.kinds &&& kind = 0 then .ok st
  else do
    let last ← okOr st.seen[posting.slot]? .outOfBounds
    if last ≠ pass then
      return ⟨st.seen.set posting.slot pass, st.candidates ++ [posting.slot]⟩
    else return st

/-- The slots an event's keys select, once each, from every filter or from those with a search. -/
def collect (packed : PackedEvent) (searchOnly : Bool) :
    Except Panic (ActiveMonitors × List Nat) := do
  ensure (m.pass + 1 < 2 ^ 64) .overflow
  let pass := m.pass + 1
  let postings := (if searchOnly then [] else m.index.lookup packed) ++ m.search.lookup packed
  let st ← postings.foldlM (collectPosting pass (kindBit packed.kind)) ⟨m.seen, []⟩
  return ({ m with pass := pass, seen := st.seen }, st.candidates)

def recipientOf (entry : Monitored) : Recipient where
  connId := entry.sub.connId
  subId := entry.sub.subId
  pending := entry.pending.isSome
  generation := entry.sub.generation

/-- Whether a candidate takes the event. -/
def takes (levId : Option Nat) (packed : PackedEvent) (searchTerms : Option SearchTermSet)
    (sub : Subscription) : Bool :=
  levId.all (fun levId => sub.latestEventId < levId)
    && sub.filterGroup.doesMatchWithSearchTerms packed searchTerms

def processSlot (levId : Option Nat) (packed : PackedEvent) (searchTerms : Option SearchTermSet)
    (st : List (Option Monitored) × List Recipient) (slot : Nat) :
    Except Panic (List (Option Monitored) × List Recipient) := do
  let (slots, recipients) := st
  let cell ← okOr slots[slot]? .outOfBounds
  let entry ← okOr cell (.expect "an indexed slot is occupied")
  if takes levId packed searchTerms entry.sub then
    let sub := { entry.sub with latestEventId := levId.getD entry.sub.latestEventId }
    return (slots.set slot (some { entry with sub := sub }), recipients ++ [recipientOf entry])
  else return (slots, recipients)

/-- By connection, then subscription id. -/
def recipientBefore (a b : Recipient) : Prop :=
  a.connId < b.connId ∨ a.connId = b.connId ∧ a.subId.inner ≤ b.subId.inner

instance : DecidableRel recipientBefore := fun a b =>
  inferInstanceAs (Decidable (a.connId < b.connId ∨ a.connId = b.connId ∧ _))

def processInner (levId : Option Nat) (packed : PackedEvent) (searchTerms : Option SearchTermSet) :
    Except Panic (ActiveMonitors × List Recipient) := do
  let (m, candidates) ← m.collect packed false
  let (slots, recipients) ← candidates.foldlM (processSlot levId packed searchTerms) (m.slots, [])
  return ({ m with slots := slots }, recipients.insertionSort recipientBefore)

def process (levId : Nat) (packed : PackedEvent) (searchTerms : Option SearchTermSet) :
    Except Panic (ActiveMonitors × List Recipient) :=
  m.processInner (some levId) packed searchTerms

def processEphemeral (packed : PackedEvent) (searchTerms : Option SearchTermSet) :
    Except Panic (ActiveMonitors × List Recipient) :=
  m.processInner none packed searchTerms

def needsContent (packed : PackedEvent) (slot : Nat) : Except Panic Bool := do
  let cell ← okOr m.slots[slot]? .outOfBounds
  return cell.any fun entry => entry.sub.filterGroup.mayNeedContent packed

def eventRequiresContent (packed : PackedEvent) : Except Panic (ActiveMonitors × Bool) :=
  if m.requiresContent then do
    let (m, candidates) ← m.collect packed true
    let needed ← candidates.foldlM (fun any slot =>
      if any then .ok true else m.needsContent packed slot) false
    return (m, needed)
  else .ok (m, false)

end ActiveMonitors

end Wok.Query
