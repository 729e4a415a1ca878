/-
**Filters.**

A REQ filter is a JSON object. `NostrFilter.parse` compiles it: lists become sorted sets, tag
values take the form a packed event holds, and an OR list `#x` loses what the AND list `&x` already
asks for. `doesMatch` decides on the packed record alone.

* `FilterSetBytes`, `FilterSetUint` — sets of values, sorted.
* `NostrFilter.parse` — the checks, their order and their messages are the source's.
* `NostrFilter.doesMatchWithoutSearch` — the conditions of a filter apart from its search.
-/

import Wok.Event.Ingest

namespace Wok.Query

open Wok.Library Wok.Event

/-! ### Errors -/

/-- The bound a `QueryError.limit` broke. -/
inductive FilterLimit
  | tagsPerFilter
  | andEntries
  deriving DecidableEq, Repr

inductive QueryError
  | message (text : Bytes)
  | unsupported (text : Bytes)
  | limit (limit : FilterLimit) (text : Bytes)
  deriving DecidableEq, Repr

def QueryError.msg (text : String) : QueryError := .message (ascii text)

def QueryError.text : QueryError → Bytes
  | .message text => text
  | .unsupported text => text
  | .limit _ text => text

/-! ### Sets of values -/

/-- Sorted values in the form a packed event holds them, and the original of each hashed one. -/
structure FilterSetBytes where
  items : List Bytes
  originals : List (Bytes × Bytes)
  sorted : SortedBy id items

namespace FilterSetBytes

/-- The bytes a string stands for. -/
def decodeItem (hexDecode : Bool) (s : Text) : Except QueryError Bytes :=
  if hexDecode then (fromLowerHexExact s.bytes).mapError fun e => .message e.text
  else .ok s.bytes

/-- One value of the list. -/
def readItem (hexDecode : Bool) (minSize maxSize : Nat) (item : Value) :
    Except QueryError Bytes := do
  let s ← okOr item.asStr (.msg "filter item not a string")
  let bytes ← decodeItem hexDecode s
  ensure (minSize ≤ bytes.length) (.msg "filter item too small")
  ensure (bytes.length ≤ maxSize) (.msg "filter item too large")
  return bytes

/-- The original of each value that is hashed. -/
def originalsOf (host : Host) (values : List Bytes) : List (Bytes × Bytes) :=
  mergeBy Prod.fst [] ((values.filter fun value => maxIndexedTagValSize < value.length).map
    fun value => (indexedTagValue host value, value))

def parse (host : Host) (arr : Value) (hexDecode : Bool) (minSize maxSize : Nat) :
    Except QueryError FilterSetBytes := do
  let arr ← okOr arr.asArray (.msg "not an array")
  let values ← arr.mapM (readItem hexDecode minSize maxSize)
  let items := sortDedup (values.map (indexedTagValue host))
  let originals := originalsOf host values
  let total := (items.map fun item => ((originals.lookup item).getD item).length).sum
  ensure (total ≤ 65535) (.msg "total filter items too large")
  return ⟨items, originals, sortedBy_sortDedup _⟩

/-- Tag values of any length. -/
def parseTagValues (host : Host) (arr : Value) : Except QueryError FilterSetBytes :=
  parse host arr false 0 (2 ^ 64 - 1)

def size (s : FilterSetBytes) : Nat := s.items.length

/-- A binary search; the items are sorted. -/
def doesMatch (s : FilterSetBytes) (candidate : Bytes) : Bool := s.items.contains candidate

def removeAll (s excluded : FilterSetBytes) : FilterSetBytes where
  items := s.items.filter fun item => !excluded.doesMatch item
  originals := s.originals.filter fun entry => !excluded.doesMatch entry.1
  sorted := s.sorted.filter _

end FilterSetBytes

/-- Sorted kinds. -/
structure FilterSetUint where
  items : List Nat
  sorted : SortedBy id items

namespace FilterSetUint

def readItem (item : Value) : Except QueryError Nat := do
  let n ← okOr item.asU64 (.msg "kind not an unsigned integer")
  ensure (n ≤ 65535) (.msg "kind must be between 0 and 65535")
  return n

def parse (arr : Value) : Except QueryError FilterSetUint := do
  let arr ← okOr arr.asArray (.msg "not an array")
  let items ← arr.mapM readItem
  return ⟨sortDedup items, sortedBy_sortDedup _⟩

def doesMatch (s : FilterSetUint) (candidate : Nat) : Bool := s.items.contains candidate

end FilterSetUint

/-! ### Filters -/

/-- The terms every match must have. -/
structure SearchQuery where
  terms : List Bytes

/-- Sets by tag letter, in order of the letters. -/
abbrev TagSets := List (Byte × FilterSetBytes)

structure NostrFilter where
  ids : Option FilterSetBytes
  authors : Option FilterSetBytes
  kinds : Option FilterSetUint
  tags : TagSets
  andTags : TagSets
  search : Option SearchQuery
  since : Nat
  «until» : Nat
  limit : Nat
  neverMatch : Bool
  indexOnlyScans : Bool

namespace NostrFilter

/-- A filter without conditions. -/
def empty : NostrFilter where
  ids := none
  authors := none
  kinds := none
  tags := []
  andTags := []
  search := none
  since := 0
  «until» := 2 ^ 64 - 1
  limit := 2 ^ 64 - 1
  neverMatch := false
  indexOnlyScans := false

/-- What the loop over the keys has gathered. -/
structure Parsing where
  filter : NostrFilter
  numMajorNonTag : Nat

/-- The parsers of values the filter does not read itself, and the limits of the caller. -/
structure Settings where
  host : Host
  parseSearchQuery : Text → Except Bytes SearchQuery
  maxFilterLimit : Nat
  maxTagsPerFilter : Nat
  maxAndEntries : Nat

def errorParsing (key : Bytes) (e : Bytes) : QueryError :=
  .message (ascii "error parsing " ++ (key ++ (ascii ": " ++ e)))

def notAnArray (key : Bytes) : QueryError := .message (key ++ ascii " not an array")

/-- A list under `key`: an empty one matches nothing. -/
def listField {α : Type} (st : Parsing) (key : Bytes) (v : Value)
    (parse : Value → Except QueryError α) (put : α → Parsing) : Except QueryError Parsing := do
  let items ← okOr v.asArray (notAnArray key)
  if items.isEmpty then return { st with filter.neverMatch := true }
  else
    let set ← (parse v).mapError fun e => errorParsing key e.text
    return put set

/-- The values of `#x` and `&x`: identifiers for `p` and `e`. -/
def parseTagSet (host : Host) (letter : Byte) (v : Value) : Except QueryError FilterSetBytes :=
  if letter = 112 ∨ letter = 101 then FilterSetBytes.parse host v true 32 32
  else FilterSetBytes.parseTagValues host v

def isAsciiAlphabetic (b : Byte) : Bool := (65 ≤ b && b ≤ 90) || (97 ≤ b && b ≤ 122)

/-- The letter of a key `#x` or `&x`. -/
def tagLetter (key : Bytes) : Option Byte :=
  match key with
  | [_, letter] => if isAsciiAlphabetic letter then some letter else none
  | _ => none

def putTag (sets : TagSets) (letter : Byte) (set : FilterSetBytes) : TagSets :=
  insertBy Prod.fst (letter, set) sets

/-- A list `#x` of alternatives. -/
def orField (host : Host) (st : Parsing) (key : Bytes) (v : Value) : Except QueryError Parsing := do
  let letter ← okOr (tagLetter key) (.unsupported (ascii "unindexed tag filter"))
  listField st key v (parseTagSet host letter) fun set =>
    { st with filter.tags := putTag st.filter.tags letter set }

/-- A list `&x` of required values. -/
def andField (host : Host) (st : Parsing) (key : Bytes) (v : Value) :
    Except QueryError Parsing := do
  let letter ← okOr (tagLetter key) (.unsupported (ascii "unindexed AND tag filter"))
  let items ← okOr v.asArray (notAnArray key)
  ensure (items.isEmpty = false) (.message (key ++ ascii " array must not be empty"))
  let set ← (parseTagSet host letter v).mapError fun e => errorParsing key e.text
  return { st with filter.andTags := putTag st.filter.andTags letter set }

def numberField (v : Value) (name : String) : Except QueryError Nat :=
  okOr v.asU64 (.msg ("error parsing " ++ name))

/-- One round of the loop over the keys. -/
def parseField (settings : Settings) (st : Parsing) (field : Text × Value) :
    Except QueryError Parsing :=
  let host := settings.host
  let (k, v) := field
  let key := k.bytes
  if key = ascii "ids" then
    listField st key v (fun v => FilterSetBytes.parse host v true 32 32) fun set =>
      ⟨{ st.filter with ids := some set }, st.numMajorNonTag + 1⟩
  else if key = ascii "authors" then
    listField st key v (fun v => FilterSetBytes.parse host v true 32 32) fun set =>
      ⟨{ st.filter with authors := some set }, st.numMajorNonTag + 1⟩
  else if key = ascii "kinds" then
    listField st key v FilterSetUint.parse fun set =>
      ⟨{ st.filter with kinds := some set }, st.numMajorNonTag + 1⟩
  else if key.head? = some 35 then orField host st key v
  else if key.head? = some 38 then andField host st key v
  else if key = ascii "since" then do
    let since ← numberField v "since"
    return { st with filter.since := since }
  else if key = ascii "until" then do
    let «until» ← numberField v "until"
    return { st with filter.until := «until» }
  else if key = ascii "limit" then do
    let limit ← numberField v "limit"
    return { st with filter.limit := limit }
  else if key = ascii "search" then do
    let query ← okOr v.asStr (.msg "search not a string")
    let search ← (settings.parseSearchQuery query).mapError fun e => errorParsing key e
    return ⟨{ st.filter with search := some search }, st.numMajorNonTag + 1⟩
  else .error (.unsupported (ascii "unrecognised filter item: " ++ key))

/-- An OR list without what the AND list of its letter asks for; without values it goes. -/
def alternatives (tags andTags : TagSets) : TagSets :=
  (tags.map fun (letter, set) =>
    (letter, ((andTags.lookup letter).map set.removeAll).getD set)).filter
      fun entry => 0 < entry.2.size

/-- The letters with a list. -/
def tagKeyCount (tags andTags : TagSets) : Nat :=
  (sortDedup (tags.map Prod.fst ++ andTags.map Prod.fst)).length

/-- The checks after the loop. -/
def finish (settings : Settings) (st : Parsing) : Except QueryError NostrFilter := do
  let f := { st.filter with tags := alternatives st.filter.tags st.filter.andTags }
  let keys := tagKeyCount f.tags f.andTags
  ensure (keys ≤ settings.maxTagsPerFilter)
    (.limit .tagsPerFilter (ascii "too many tags in filter"))
  ensure ((f.andTags.map fun entry => entry.2.size).sum ≤ settings.maxAndEntries)
    (.limit .andEntries (ascii "too many AND entries in filter"))
  let numMajor := st.numMajorNonTag + keys
  let emptyD := (f.tags.lookup 100).any fun values => values.doesMatch []
  return { f with
    limit := min f.limit settings.maxFilterLimit
    indexOnlyScans := f.andTags.isEmpty && !emptyD
      && (numMajor ≤ 1 || (numMajor = 2 && f.authors.isSome && f.kinds.isSome)) }

def parse (settings : Settings) (filterObj : Value) : Except QueryError NostrFilter :=
  match filterObj with
  | .object fields => do
    let st ← fields.foldlM (parseField settings) ⟨.empty, 0⟩
    finish settings st
  | _ => .error (.msg "provided filter is not an object")

end NostrFilter

/-! ### Matching -/

namespace NostrFilter

variable (f : NostrFilter) (ev : PackedEvent)

def doesMatchTimes (created : Nat) : Bool := f.since ≤ created && created ≤ f.until

/-- Some tag with this letter has one of the values. -/
def hasTagIn (letter : Byte) (set : FilterSetBytes) : Bool :=
  ev.filterTags.any fun tag => tag.name = letter && set.doesMatch tag.value

def hasTag (letter : Byte) (value : Bytes) : Bool :=
  ev.filterTags.any fun tag => tag.name = letter && tag.value = value

def doesMatchWithoutSearch : Bool :=
  !f.neverMatch && f.doesMatchTimes ev.createdAt
    && f.ids.all (fun ids => ids.doesMatch ev.id)
    && f.authors.all (fun authors => authors.doesMatch ev.pubkey)
    && f.kinds.all (fun kinds => kinds.doesMatch ev.kind)
    && f.tags.all (fun (letter, set) => hasTagIn ev letter set)
    && f.andTags.all (fun (letter, required) => required.items.all fun value =>
        hasTag ev letter value)

/-- A filter with a search never matches a record alone. -/
def doesMatch : Bool := f.search.isNone && f.doesMatchWithoutSearch ev

end NostrFilter

end Wok.Query
