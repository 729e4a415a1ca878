/-
**The terms an event is searched by.**

An event of a text kind is searched by its name tags, its summary tags and its content, a profile by
some of its metadata fields, any other event by nothing. The text is split into lowercase words of
letters and digits, words that are too long are passed over, and the first words of an event are
the terms of its postings. The classes of characters and the reading of JSON are parameters.

* `SearchHost.searchIndexEntries` — the postings of an event.
* `searchIndexEntries_shape` — **every posting is a term under its byte with the local id.**
-/

import Wok.Db.Write

namespace Wok.Db

open Wok.Library Wok.Event

/-! ### Documents -/

inductive TagElement
  | text (s : List Char)
  | other
  deriving DecidableEq, Repr

/-- A tag as search reads it: what is no list of elements is skipped. -/
inductive SearchTag
  | elements (l : List TagElement)
  | other
  deriving DecidableEq, Repr

structure EventText where
  tags : List SearchTag
  content : List Char
  deriving DecidableEq, Repr

/-- The tag's name and first value, when both are strings. -/
def SearchTag.nameAndValue : SearchTag → Option (List Char × List Char)
  | .elements (.text name :: .text value :: _) => some (name, value)
  | _ => none

/-- Classes of characters, and the JSON of an event as far as search reads it. -/
structure SearchHost where
  isAlphanumeric : Char → Bool
  toLowercase : Char → List Char
  readText : Bytes → Except DbError EventText
  readContent : Bytes → Except DbError (List Char)
  /-- The fields of the metadata that are strings; none when it is no object. -/
  readFields : List Char → List (List Char × List Char)

def textKinds : List Nat :=
  [1, 9, 11, 20, 21, 22, 42, 54, 1063, 1068, 1111, 1311, 1337, 1618, 1621, 2003, 2004, 7516, 9041,
    9802, 30023, 30402, 30818, 31922, 31923, 31924, 34235, 34236, 37516, 37517, 39701]

def nameTags : List (List Char) := ["title", "subject", "name"].map String.toList
def summaryTags : List (List Char) := ["summary", "description"].map String.toList
def profileFields : List (List Char) :=
  ["name", "display_name", "nip05", "about"].map String.toList

def maxIndexedTermBytes : Nat := 64
def maxIndexedUniqueTerms : Nat := 256
def termPrefix : Byte := 1

/-- The bytes of a string. -/
def strBytes (s : List Char) : Bytes := s.flatMap fun c => Parser.utf8Encode c.toNat

def termKey (term : List Char) : Bytes := termPrefix :: strBytes term

namespace SearchHost

variable (text : SearchHost)

/-- The text an event is searched by, in indexing order. -/
def searchDocument (kind : Nat) (json : Bytes) : Except DbError (List (List Char)) :=
  if kind = 0 then do
    let content ← text.readContent json
    let fields := text.readFields content
    return profileFields.filterMap fun name =>
      (fields.find? fun field => field.1 = name).map Prod.snd
  else if kind ∉ textKinds then .ok []
  else do
    let event ← text.readText json
    let tags := event.tags.filterMap SearchTag.nameAndValue
    let names := tags.filter fun tag => tag.1 ∈ nameTags
    let summaries := tags.filter fun tag => tag.1 ∉ nameTags ∧ tag.1 ∈ summaryTags
    return (names ++ summaries).map Prod.snd ++ [event.content]

/-! ### Terms -/

section Visit

variable {σ : Type} (f : σ → Option (List Char) → σ × Bool)

/-- The word is done: the visitor sees it, or that a word is too long. -/
def finishTerm (current : List Char) (s : σ) : σ × Bool :=
  if current = [] then (s, true)
  else f s (if (strBytes current).length ≤ maxIndexedTermBytes then some current else none)

/-- The words from inside one on. -/
def termsFrom : List Char → List Char → σ → σ × Bool
  | [], current, s => finishTerm f current s
  | c :: rest, current, s =>
    if text.isAlphanumeric c then termsFrom rest (current ++ text.toLowercase c) s
    else
      match finishTerm f current s with
      | (s, true) => termsFrom rest [] s
      | (s, false) => (s, false)

/-- `for_each_term`. -/
def forEachTerm (s : List Char) (state : σ) : σ × Bool := termsFrom text f s [] state

/-- `for_each_document_term`: words of different pieces are not next to each other. -/
def forEachDocumentTerm : List (List Char) → σ → σ
  | [], s => s
  | piece :: rest, s =>
    match text.forEachTerm f piece s with
    | (s, false) => s
    | (s, true) =>
      match f s none with
      | (s, false) => s
      | (s, true) => forEachDocumentTerm rest s

end Visit

/-- The set of terms grows until it has as many as an event may have. -/
def collectTerm (terms : List (List Char)) (term : Option (List Char)) :
    List (List Char) × Bool :=
  let terms := terms ++ (term.toList.filter fun term => term ∉ terms)
  (terms, terms.length < maxIndexedUniqueTerms)

def indexedTerms (document : List (List Char)) : List (List Char) :=
  text.forEachDocumentTerm collectTerm document []

/-- `search_index_entries`: one posting for each distinct key, in order. -/
def searchIndexEntries (levId kind : Nat) (json : Bytes) : Except DbError (List Kv) := do
  let document ← text.searchDocument kind json
  let keys := (((text.indexedTerms document).map termKey).insertionSort (· ≤ ·)).dedup
  return keys.map fun key => (key, u64NeBytes levId)

/-- The writer with these postings. -/
def services (env : Services) : Services :=
  { env with searchIndexEntries := text.searchIndexEntries }

end SearchHost

/-- Every posting of an event is under a term and has its local id. -/
def PostsTerms (env : Services) : Prop :=
  ∀ lev kind json entries, env.searchIndexEntries lev kind json = .ok entries →
    ∀ e ∈ entries, e.1.head? = some termPrefix ∧ e.2 = u64NeBytes lev

/-- **Every posting is a term under its byte, with the local id.** -/
theorem searchIndexEntries_shape (text : SearchHost) (env : Services) :
    PostsTerms (text.services env) := by
  intro lev kind json entries run e member
  have derived : text.searchIndexEntries lev kind json = .ok entries := run
  simp only [SearchHost.searchIndexEntries, bind_eq_ok, pure_eq_ok] at derived
  obtain ⟨document, _, rfl⟩ := derived
  obtain ⟨key, listed, rfl⟩ := List.mem_map.mp member
  rw [List.mem_dedup, List.mem_insertionSort] at listed
  obtain ⟨term, _, rfl⟩ := List.mem_map.mp listed
  exact ⟨rfl, rfl⟩

end Wok.Db
