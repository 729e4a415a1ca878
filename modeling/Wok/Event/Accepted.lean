/-
**What an accepted event is.**

An event that passes ingest is determined by its signed fields. The packed record, the stored JSON
and the answer of the deletion-protection check are all functions of them.

* `packEvent_reads` — a packed event has fields, and its record is packed from them.
* `Accepted.describes`, `Describes.parsed` — the stored JSON parses back to the same fields.
-/

import Wok.Event.Ingest
import Wok.Event.JsonCodec

namespace Wok.Event

open Wok.Library List

/-! ### Texts of hex digits -/

variable {bytes : Bytes} {n : Nat} {v : Value}

theorem utf8Valid_toHex (s : Bytes) : utf8Valid (toHex s) = true := by
  refine utf8Valid_ascii fun b member => ?_
  have digit := all_eq_true.mp (toHex_isLowerHex s) b member
  have range := isLowerHex_val digit
  show b.val < 128
  omega

/-- Bytes as a JSON string of hex digits. -/
def hexText (s : Bytes) : Text := ⟨toHex s, utf8Valid_toHex s⟩

theorem hexText_inj {s t : Bytes} (same : hexText s = hexText t) : s = t :=
  toHex_inj (congrArg Text.bytes same)

theorem fromLowerHexArray_eq {s : Bytes} (read : fromLowerHexArray n s = .ok bytes) :
    s = toHex bytes ∧ bytes.length = n := by
  simp only [fromLowerHexArray, bind_eq_ok, ensure_eq_ok, okOr_eq_ok, pure_eq_ok] at read
  obtain ⟨_, _, _, decoded, _, length, rfl⟩ := read
  exact ⟨(toHex_fromLowerHex decoded).symm, length⟩

theorem fromLowerHexArray_toHex (length : bytes.length = n) :
    fromLowerHexArray n (toHex bytes) = .ok bytes := by
  rw [fromLowerHexArray, ensure_of (toHex_isLowerHex bytes), ok_bind, fromLowerHex_toHex, okOr_some,
    ok_bind, ensure_of length]
  rfl

theorem hexField_eq {key what size : String} (read : hexField v key what size n = .ok bytes) :
    v.get key = some (.string (hexText bytes)) ∧ bytes.length = n := by
  simp only [hexField, field, jsonGetString, bind_eq_ok, okOr_eq_ok, ensure_eq_ok] at read
  obtain ⟨w, found, s, isString, _, _, decoded⟩ := read
  obtain ⟨spelled, length⟩ := fromLowerHexArray_eq decoded
  have same : s = hexText bytes := Text.ext_bytes spelled
  rw [found, Value.asStr_eq isString, same]
  exact ⟨rfl, length⟩

theorem hexField_hexText {key : String} (found : v.get key = some (.string (hexText bytes)))
    (length : bytes.length = n) (what size : String) : hexField v key what size n = .ok bytes := by
  have double : (hexText bytes).bytes.length = 2 * n := by
    show (toHex bytes).length = 2 * n
    rw [toHex_length, length]
  simp only [hexField, field, jsonGetString, found, okOr_some, ok_bind, Value.asStr,
    ensure_of double]
  exact fromLowerHexArray_toHex length

/-! ### Signed fields -/

/-- The fields an event signs, with its id. -/
structure Fields where
  id : Bytes
  pubkey : Bytes
  createdAt : Nat
  kind : Nat
  tags : List (List Text)
  content : Text
  id_length : id.length = 32
  pubkey_length : pubkey.length = 32
  createdAt_lt : createdAt < 2 ^ 64
  kind_le : kind ≤ 65535

/-- A natural number as a JSON integer. -/
def u64Value (n : Nat) (small : n < 2 ^ 64) : Value :=
  .int ⟨n, by omega, by omega⟩

theorem asU64_u64Value (n : Nat) (small : n < 2 ^ 64) : (u64Value n small).asU64 = some n := by
  simp [u64Value, Value.asU64]

theorem eq_u64Value (is : v.asU64 = some n) : v = u64Value n (Value.asU64_lt is) := by
  cases v with
  | int i =>
    simp only [Value.asU64, Option.ite_none_right_eq_some, Option.some.injEq] at is
    obtain ⟨value, low, high⟩ := i
    simp only [u64Value, Value.int.injEq, Integer.mk.injEq]
    have positive := is.1
    have same := is.2
    simp only at positive same
    omega
  | _ => simp [Value.asU64] at is

namespace Fields

/-- The tags as a JSON array. -/
def tagsValue (tags : List (List Text)) : Value :=
  .array (tags.map fun tag => .array (tag.map .string))

variable (f : Fields)

theorem kind_lt : f.kind < 2 ^ 64 := lt_of_le_of_lt f.kind_le (by decide)

/-- The fields are those of the event JSON `v`. -/
structure Reads (v : Value) (f : Fields) : Prop where
  content : v.get "content" = some (.string f.content)
  createdAt : v.get "created_at" = some (u64Value f.createdAt f.createdAt_lt)
  id : v.get "id" = some (.string (hexText f.id))
  kind : v.get "kind" = some (u64Value f.kind f.kind_lt)
  pubkey : v.get "pubkey" = some (.string (hexText f.pubkey))
  tags : v.get "tags" = some (tagsValue f.tags)

end Fields

/-! ### Packing, as a function of the fields -/

/-- The name and the value of a tag. -/
def nameOf (tag : List Text) : Bytes := (tag.head?.map Text.bytes).getD []
def valueOf (tag : List Text) : Bytes := (tag[1]?.map Text.bytes).getD []

/-- How a tag is packed: only under a one-byte name; `e` and `p` values as bytes. -/
def packedTag (host : Host) (tag : List Text) : Option PackedEventTag :=
  match nameOf tag with
  | [name] =>
    if name = 101 ∨ name = 112 then some ⟨name, (fromLowerHex (valueOf tag)).getD []⟩
    else some ⟨name, indexedTagValue host (valueOf tag)⟩
  | _ => none

/-- The value of the first `expiration` tag, 0 without one. -/
def expirationOf (tags : List (List Text)) : Nat :=
  match tags.find? fun tag => nameOf tag = ascii "expiration" with
  | some tag => (parseU64 (valueOf tag)).getD 0
  | none => 0

namespace Fields

variable (host : Host) (f : Fields)

def packedTags : List PackedEventTag :=
  leadingD f.kind ++ f.tags.filterMap (packedTag host) ++ trailingD f.kind

/-- The expiration a record holds: ephemeral events hold a marker instead. -/
def packedExpiration : Nat := if isEphemeralKind f.kind then 1 else expirationOf f.tags

end Fields

/-- What packing requires of a tag. -/
structure TagOk (kind : Nat) (pubkey : Bytes) (tag : List Text) : Prop where
  ids : nameOf tag = [101] ∨ nameOf tag = [112] →
    ∃ raw, fromLowerHex (valueOf tag) = some raw ∧ raw.length = 32
  address : nameOf tag = [97] → kind = 5 →
    ∃ a, parseATag (valueOf tag) = .ok a ∧ a.pubkey = pubkey

/-! ### The loop over the tags -/

theorem strings_of_all {tag : List Value}
    (all : (tag.all fun element => element.asStr.isSome) = true) :
    ∃ strings : List Text, tag = strings.map .string := by
  induction tag with
  | nil => exact ⟨[], rfl⟩
  | cons element tag ih =>
    simp only [all_cons, Bool.and_eq_true, Option.isSome_iff_exists] at all
    obtain ⟨⟨s, isString⟩, rest⟩ := all
    obtain ⟨strings, rfl⟩ := ih rest
    exact ⟨s :: strings, by rw [Value.asStr_eq isString]; rfl⟩

theorem tagName_strings (tag : List Text) : tagName (tag.map .string) = tag.head? := by
  cases tag <;> rfl

theorem tagValue_strings (tag : List Text) :
    (tagValue (tag.map .string)).map Text.bytes = some (valueOf tag) := by
  unfold tagValue valueOf
  rw [getElem?_map]
  cases tag[1]? <;> rfl

section Loop

variable {host : Host} {limits : EventLimits} {kind : Nat} {pubkey : Bytes} {st st' : Packing}
variable {name : Byte} {value : Bytes}

theorem add_eq (added : st.add name value = .ok st') :
    st' = { st with tags := st.tags ++ [⟨name, value⟩] } ∧ value.length ≤ 255 := by
  simp only [Packing.add, bind_eq_ok, ensure_eq_ok, pure_eq_ok] at added
  obtain ⟨_, short, rfl⟩ := added
  exact ⟨rfl, short⟩

theorem checkAddress_eq (checked : checkAddress limits kind st name value = .ok st') :
    st'.tags = st.tags ∧ st'.expiration = st.expiration := by
  unfold checkAddress at checked
  split_ifs at checked
  · simp only [bind_eq_ok, ensure_eq_ok, pure_eq_ok] at checked
    obtain ⟨_, _, rfl⟩ := checked
    exact ⟨rfl, rfl⟩
  · cases checked
    exact ⟨rfl, rfl⟩

theorem packSingleLetter_eq
    (packed : packSingleLetter host limits kind pubkey st name value = .ok st') :
    st'.expiration = st.expiration ∧
    (name = 101 ∨ name = 112 → ∃ raw, fromLowerHex value = some raw ∧ raw.length = 32 ∧
      st'.tags = st.tags ++ [⟨name, raw⟩]) ∧
    (¬(name = 101 ∨ name = 112) →
      st'.tags = st.tags ++ [⟨name, indexedTagValue host value⟩] ∧
      (name = 97 → kind = 5 → ∃ a, parseATag value = .ok a ∧ a.pubkey = pubkey)) := by
  simp only [packSingleLetter, bind_eq_ok, ensure_eq_ok] at packed
  obtain ⟨_, _, middle, checked, packed⟩ := packed
  obtain ⟨sameTags, sameExpiration⟩ := checkAddress_eq checked
  by_cases identifier : name = 101 ∨ name = 112
  · rw [if_pos identifier] at packed
    simp only [bind_eq_ok, ensure_eq_ok] at packed
    obtain ⟨_, _, raw, decoded, added⟩ := packed
    obtain ⟨spelled, length⟩ := fromLowerHexArray_eq decoded
    obtain ⟨rfl, _⟩ := add_eq added
    refine ⟨sameExpiration, fun _ => ⟨raw, ?_, length, ?_⟩, fun other => absurd identifier other⟩
    · rw [spelled, fromLowerHex_toHex]
    · rw [sameTags]
  · rw [if_neg identifier] at packed
    simp only [bind_eq_ok] at packed
    obtain ⟨_, deletion, added⟩ := packed
    obtain ⟨rfl, _⟩ := add_eq added
    refine ⟨sameExpiration, fun same => absurd same identifier, fun _ => ⟨?_, ?_⟩⟩
    · rw [sameTags]
    · intro isA isDeletion
      rw [checkDeletion, if_pos ⟨isA, isDeletion⟩] at deletion
      simp only [bind_eq_ok, ensure_eq_ok] at deletion
      exact deletion

/-- The expiration after one more tag: the first `expiration` tag stays. -/
def nextExpiration (before : Nat) (tag : List Text) : Nat :=
  if nameOf tag = ascii "expiration" ∧ before = 0 then (parseU64 (valueOf tag)).getD 0 else before

theorem packExpiration_eq (packed : packExpiration st value = .ok st') :
    st'.tags = st.tags ∧ st'.expiration = (parseU64 value).getD 0 ∧ st'.expiration ≠ 0 := by
  simp only [packExpiration, parseUint64, bind_eq_ok, okOr_eq_ok, ensure_eq_ok, pure_eq_ok] at packed
  obtain ⟨expiration, number, _, large, rfl⟩ := packed
  rw [number]
  refine ⟨rfl, rfl, ?_⟩
  unfold minRepresentableExpiration at large
  show expiration ≠ 0
  omega

/-- **One round of the loop.** -/
theorem packOne_eq {tagArr : Value} (packed : packOne host limits kind pubkey st tagArr = .ok st') :
    ∃ tag : List Text, tagArr = .array (tag.map .string) ∧ TagOk kind pubkey tag ∧
      st'.tags = st.tags ++ (packedTag host tag).toList ∧
      st'.expiration = nextExpiration st.expiration tag ∧
      (nameOf tag = ascii "expiration" → st'.expiration ≠ 0) := by
  simp only [packOne, jsonGetArray, bind_eq_ok, okOr_eq_ok, ensure_eq_ok] at packed
  obtain ⟨elements, isArray, _, _, _, strings, name, named, value, valued, packed⟩ := packed
  obtain ⟨tag, rfl⟩ := strings_of_all strings
  rw [tagName_strings] at named
  have nameIs : nameOf tag = name.bytes := by rw [nameOf, named]; rfl
  have valueIs : valueOf tag = value.bytes := by
    have read := tagValue_strings tag
    rw [valued] at read
    exact (Option.some.inj read).symm
  refine ⟨tag, Value.asArray_eq isArray, ?_⟩
  split at packed
  · rename_i letter single
    obtain ⟨sameExpiration, identifiers, others⟩ := packSingleLetter_eq packed
    have notExpiration : nameOf tag ≠ ascii "expiration" := by
      rw [nameIs, single]
      intro same
      have length : 1 = 10 := congrArg List.length same
      omega
    have letterIs : ∀ {c : Byte}, nameOf tag = [c] → letter = c := by
      intro c same
      rw [nameIs, single] at same
      exact (List.cons.inj same).1
    rw [nextExpiration, if_neg fun both => notExpiration both.1]
    refine ⟨⟨?_, ?_⟩, ?_, sameExpiration, fun same => absurd same notExpiration⟩
    · intro identifier
      obtain ⟨raw, decoded, length, _⟩ := identifiers (identifier.imp letterIs letterIs)
      exact ⟨raw, valueIs ▸ decoded, length⟩
    · intro isA isDeletion
      have letterA := letterIs isA
      subst letterA
      rw [valueIs]
      exact (others (by decide)).2 rfl isDeletion
    · rw [packedTag, nameIs, single, valueIs]
      by_cases identifier : letter = 101 ∨ letter = 112
      · obtain ⟨raw, decoded, _, added⟩ := identifiers identifier
        simp only [if_pos identifier, decoded]
        exact added
      · simp only [if_neg identifier]
        exact (others identifier).1
  · rename_i notSingle
    have notLetter : ∀ {c : Byte}, nameOf tag ≠ [c] := by
      intro c same
      exact notSingle c (nameIs.symm.trans same)
    have unpacked : packedTag host tag = none := by
      rw [packedTag, nameIs]
      split
      · rename_i letter single
        exact absurd single (notSingle letter)
      · rfl
    rw [unpacked]
    refine ⟨⟨?_, fun isA => absurd isA notLetter⟩, ?_⟩
    · rintro (isE | isP)
      · exact absurd isE notLetter
      · exact absurd isP notLetter
    · rw [nextExpiration, nameIs, valueIs]
      split_ifs at packed ⊢ with first
      · obtain ⟨sameTags, read, positive⟩ := packExpiration_eq packed
        exact ⟨by simp [sameTags], read, fun _ => positive⟩
      · rw [pure_eq_ok] at packed
        subst packed
        exact ⟨by simp, rfl, fun isExpiration zero => first ⟨isExpiration, zero⟩⟩

/-- **The whole loop**: the tags packed and the first expiration. -/
theorem packTags_eq {values : List Value}
    (packed : values.foldlM (packOne host limits kind pubkey) st = .ok st') :
    ∃ tags : List (List Text), values = tags.map (fun tag => .array (tag.map .string)) ∧
      (∀ tag ∈ tags, TagOk kind pubkey tag) ∧
      st'.tags = st.tags ++ tags.filterMap (packedTag host) ∧
      st'.expiration = if st.expiration = 0 then expirationOf tags else st.expiration := by
  induction values generalizing st with
  | nil =>
    rw [foldlM_nil, pure_eq_ok] at packed
    subst packed
    refine ⟨[], rfl, by simp, by simp, ?_⟩
    split_ifs with zero
    · exact zero
    · rfl
  | cons value values ih =>
    rw [foldlM_cons, bind_eq_ok] at packed
    obtain ⟨middle, first, rest⟩ := packed
    obtain ⟨tag, rfl, tagOk, tagsAdded, expiration, positive⟩ := packOne_eq first
    obtain ⟨tags, rfl, allOk, restAdded, restExpiration⟩ := ih rest
    refine ⟨tag :: tags, rfl, ?_, ?_, ?_⟩
    · intro other member
      rcases mem_cons.mp member with rfl | inside
      · exact tagOk
      · exact allOk other inside
    · rw [restAdded, tagsAdded, append_assoc]
      congr 1
      cases packedAs : packedTag host tag <;> simp [packedAs]
    · rw [restExpiration, expiration]
      unfold nextExpiration at *
      by_cases isExpiration : nameOf tag = ascii "expiration"
      · have nonzero := positive isExpiration
        rw [expiration] at nonzero
        have here : expirationOf (tag :: tags) = (parseU64 (valueOf tag)).getD 0 := by
          simp [expirationOf, isExpiration]
        rw [if_neg nonzero, here]
        by_cases zero : st.expiration = 0 <;> simp [isExpiration, zero]
      · have there : expirationOf (tag :: tags) = expirationOf tags := by
          simp [expirationOf, isExpiration]
        simp [isExpiration, there]

end Loop

/-! ### Packed records -/

variable {host : Host} {tag : List Text}

theorem packedTag_short {kind : Nat} {pubkey : Bytes} (tagOk : TagOk kind pubkey tag)
    {packed : PackedEventTag} (packedAs : packedTag host tag = some packed) :
    packed.value.length ≤ 255 := by
  unfold packedTag at packedAs
  split at packedAs
  · rename_i name single
    split_ifs at packedAs with identifier
    · have named : nameOf tag = [101] ∨ nameOf tag = [112] := by
        rcases identifier with rfl | rfl
        · exact .inl single
        · exact .inr single
      obtain ⟨raw, decoded, length⟩ := tagOk.ids named
      rw [decoded] at packedAs
      cases packedAs
      show raw.length ≤ 255
      omega
    · cases packedAs
      exact indexedTagValue_length host (valueOf tag)
  · cases packedAs

namespace Fields

/-- `p` is the record packed from the fields. -/
structure Packs (host : Host) (f : Fields) (p : PackedEvent) : Prop where
  tagsOk : ∀ tag ∈ f.tags, TagOk f.kind f.pubkey tag
  buf : p.buf = PackedEvent.layout f.id f.pubkey f.createdAt f.kind f.packedExpiration
    ((f.packedTags host).flatMap packTag)

variable {host : Host} {f : Fields} {p : PackedEvent}

theorem packedTags_short (tagsOk : ∀ tag ∈ f.tags, TagOk f.kind f.pubkey tag) :
    ∀ tag ∈ f.packedTags host, tag.value.length ≤ 255 := by
  intro tag member
  simp only [packedTags, mem_append, mem_filterMap] at member
  rcases member with (lead | ⟨source, inside, packedAs⟩) | trail
  · unfold leadingD at lead
    split_ifs at lead
    · rw [mem_singleton.mp lead]
      exact Nat.zero_le _
    · cases lead
  · exact packedTag_short (tagsOk source inside) packedAs
  · unfold trailingD at trail
    split_ifs at trail
    · rw [mem_singleton.mp trail]
      exact Nat.zero_le _
    · cases trail

theorem Packs.id (packs : f.Packs host p) : p.id = f.id :=
  PackedEvent.layout_id f.id_length packs.buf

theorem Packs.pubkey (packs : f.Packs host p) : p.pubkey = f.pubkey :=
  PackedEvent.layout_pubkey f.id_length f.pubkey_length packs.buf

theorem Packs.createdAt (packs : f.Packs host p) : p.createdAt = f.createdAt :=
  PackedEvent.layout_createdAt f.id_length f.pubkey_length packs.buf f.createdAt_lt

theorem Packs.kind (packs : f.Packs host p) : p.kind = f.kind :=
  PackedEvent.layout_kind f.id_length f.pubkey_length packs.buf f.kind_lt

theorem Packs.tags (packs : f.Packs host p) : p.tags = f.packedTags host :=
  PackedEvent.layout_tags f.id_length f.pubkey_length packs.buf (packedTags_short packs.tagsOk)

end Fields

/-- **A packed event has fields**, and its record is packed from them. -/
theorem packEvent_reads {limits : EventLimits} {p : PackedEvent} {expiration : Nat}
    (packed : packEvent host limits v = .ok (p, expiration)) :
    ∃ f : Fields, f.Reads v ∧ f.Packs host p ∧ expiration = expirationOf f.tags := by
  simp only [packEvent, jsonGetString, jsonGetUnsigned, jsonGetArray, field, bind_eq_ok,
    ensure_eq_ok, okOr_eq_ok, pure_eq_ok, Prod.mk.injEq] at packed
  obtain ⟨_, _, id, idRead, pubkey, pubkeyRead, createdValue, createdFound, createdAt, created,
    kindValue, kindFound, kind, kindRead, _, small, contentValue, contentFound, content,
    contentRead, tagsValue, tagsFound, values, tagsRead, _, _, st, loop, _, built, rfl, rfl⟩ := packed
  obtain ⟨idFound, idLength⟩ := hexField_eq idRead
  obtain ⟨pubkeyFound, pubkeyLength⟩ := hexField_eq pubkeyRead
  obtain ⟨tags, rfl, tagsOk, packedTags, expiration⟩ := packTags_eq loop
  obtain ⟨_, built', buf⟩ := PackedEvent.build_total idLength pubkeyLength createdAt kind
    (if isEphemeralKind kind then 1 else st.expiration) ((st.tags ++ trailingD kind).flatMap packTag)
  rw [built] at built'
  cases built'
  rw [if_pos rfl] at expiration
  refine ⟨⟨id, pubkey, createdAt, kind, tags, content, idLength, pubkeyLength,
    Value.asU64_lt created, small⟩, ⟨?_, ?_, idFound, ?_, pubkeyFound, ?_⟩, ⟨tagsOk, ?_⟩, expiration⟩
  · rw [contentFound, Value.asStr_eq contentRead]
  · exact createdFound.trans (congrArg some (eq_u64Value created))
  · exact kindFound.trans (congrArg some (eq_u64Value kindRead))
  · rw [tagsFound, Value.asArray_eq tagsRead]
    rfl
  · rw [buf, packedTags, expiration]
    rfl

/-! ### The stored JSON -/

namespace Fields

variable (f : Fields) (sig : Bytes)

/-- The event as stored: its authenticated fields in key order. -/
def stored : Value :=
  .object [(.ofAscii "content", .string f.content),
    (.ofAscii "created_at", u64Value f.createdAt f.createdAt_lt),
    (.ofAscii "id", .string (hexText f.id)),
    (.ofAscii "kind", u64Value f.kind f.kind_lt),
    (.ofAscii "pubkey", .string (hexText f.pubkey)),
    (.ofAscii "sig", .string (hexText sig)),
    (.ofAscii "tags", tagsValue f.tags)]

theorem stored_reads : f.Reads (f.stored sig) := by
  constructor <;> rfl

theorem stored_sig : (f.stored sig).get "sig" = some (.string (hexText sig)) := rfl

/-- The value whose text is hashed into the id. -/
def signed : Value :=
  .array [u64Value 0 (by decide), .string (hexText f.pubkey), u64Value f.createdAt f.createdAt_lt,
    u64Value f.kind f.kind_lt, tagsValue f.tags, .string f.content]

theorem tagsValue_plain (tags : List (List Text)) : (tagsValue tags).Plain := by
  have strings : ∀ tag : List Text, PlainItems (tag.map .string) := by
    intro tag
    induction tag with
    | nil => trivial
    | cons s tag ih => exact ⟨trivial, ih⟩
  show PlainItems (tags.map fun tag => .array (tag.map .string))
  induction tags with
  | nil => trivial
  | cons tag tags ih => exact ⟨strings tag, ih⟩

theorem tagsValue_height (tags : List (List Text)) : (tagsValue tags).height ≤ 2 := by
  have strings : ∀ tag : List Text, itemsHeight (tag.map .string) ≤ 1 := by
    intro tag
    induction tag with
    | nil => exact Nat.zero_le _
    | cons s tag ih => exact max_le le_rfl ih
  show itemsHeight (tags.map fun tag => .array (tag.map .string)) ≤ 2
  induction tags with
  | nil => exact Nat.zero_le _
  | cons tag tags ih => exact max_le (Nat.succ_le_succ (strings tag)) ih

theorem stored_plain : (f.stored sig).Plain := by
  have sorted : (normalKeys.map ascii).Pairwise (· < ·) := by decide
  refine ⟨?_, trivial, trivial, trivial, trivial, trivial, trivial, tagsValue_plain f.tags, trivial⟩
  exact pairwise_map.mp sorted

theorem stored_height : (f.stored sig).height ≤ 128 := by
  have tags := tagsValue_height f.tags
  simp only [stored, Value.height, fieldsHeight, u64Value]
  omega

theorem signed_plain : f.signed.Plain :=
  ⟨trivial, trivial, trivial, trivial, tagsValue_plain f.tags, trivial, trivial⟩

theorem signed_height : f.signed.height ≤ 128 := by
  have tags := tagsValue_height f.tags
  simp only [signed, Value.height, itemsHeight, u64Value]
  omega

variable {f} {v : Value}

theorem Reads.idPreimage (reads : f.Reads v) (escaping : Escaping) :
    idPreimage v escaping = .ok (writeJson escaping f.signed) := by
  simp only [Event.idPreimage, preimageKeys, field, mapM_cons, mapM_nil, reads.pubkey,
    reads.createdAt, reads.kind, reads.tags, reads.content, okOr_some, Except.map, ok_bind]
  simp only [pure, Except.pure, ok_bind, signed, writeJson, writeItems, commaSep]
  have zero : writeJson escaping (u64Value 0 (by decide)) = [48] := rfl
  rw [zero]
  simp [ascii]

theorem Reads.normalizeEventJson {sig : Bytes} (reads : f.Reads v)
    (signature : v.get "sig" = some (.string (hexText sig))) :
    normalizeEventJson v = .ok (writeJson .tao (f.stored sig)) := by
  simp only [Event.normalizeEventJson, normalKeys, field, mapM_cons, mapM_nil,
    reads.pubkey, reads.createdAt, reads.kind, reads.tags, reads.content, reads.id, signature,
    okOr_some, Except.map, ok_bind]
  simp only [pure, Except.pure, ok_bind]
  rw [stored, writeJson_object .tao (f.stored_plain sig).1]
  rfl

theorem Reads.tagsNamed {w : Value} (reads : f.Reads v) (reads' : f.Reads w) (name : String) :
    tagsNamed v name = tagsNamed w name := by
  simp only [Event.tagsNamed, tagArrays, reads.tags, reads'.tags]

theorem Reads.deletionProtection {w : Value} (reads : f.Reads v) (reads' : f.Reads w) :
    deletionProtection v = deletionProtection w := by
  unfold Event.deletionProtection
  rw [reads.tagsNamed reads' "no_delete", reads.tagsNamed reads' "expiration", reads.kind,
    reads'.kind]

theorem Reads.packEvent (host : Host) (limits : EventLimits) (reads : f.Reads v)
    (object : v.isObject = true) :
    packEvent host limits v = (do
      ensure (f.tags.length ≤ limits.maxNumTags.val)
        (.limit .numTags ("too many tags: " ++ toString f.tags.length))
      let st ← (f.tags.map fun tag => Value.array (tag.map .string)).foldlM
        (packOne host limits f.kind f.pubkey) ⟨leadingD f.kind, 0, !isParamReplaceableKind f.kind⟩
      let packed ← PackedEvent.build f.id f.pubkey f.createdAt f.kind
        (if isEphemeralKind f.kind then 1 else st.expiration)
        ((st.tags ++ trailingD f.kind).flatMap packTag)
      return (packed, st.expiration)) := by
  simp only [Event.packEvent, hexField_hexText reads.id f.id_length,
    hexField_hexText reads.pubkey f.pubkey_length, field, jsonGetString, jsonGetUnsigned,
    jsonGetArray, reads.createdAt, reads.kind, reads.content, reads.tags, okOr_some, ok_bind,
    asU64_u64Value, ensure_of object, ensure_of f.kind_le, Value.asStr, tagsValue, Value.asArray,
    length_map]

end Fields

/-! ### Limits only refuse -/

section Limits

variable {host : Host} {limits : EventLimits} {kind : Nat} {pubkey : Bytes} {st st' : Packing}

theorem le_unlimited {n : Nat} {limit : Usize} (fits : n ≤ limit.val) : n ≤ 2 ^ 64 - 1 := by
  have bound := limit.isLt
  omega

theorem checkAddress_unlimited {name : Byte} {value : Bytes}
    (checked : checkAddress limits kind st name value = .ok st') :
    checkAddress .unlimited kind st name value = .ok st' := by
  unfold checkAddress at *
  split_ifs at * with first
  · simp only [bind_eq_ok, ensure_eq_ok, pure_eq_ok] at *
    obtain ⟨_, fits, same⟩ := checked
    exact ⟨(), le_unlimited fits, same⟩
  · exact checked

theorem packSingleLetter_unlimited {name : Byte} {value : Bytes}
    (packed : packSingleLetter host limits kind pubkey st name value = .ok st') :
    packSingleLetter host .unlimited kind pubkey st name value = .ok st' := by
  unfold packSingleLetter at *
  simp only [bind_eq_ok, ensure_eq_ok] at packed
  obtain ⟨_, fits, middle, checked, rest⟩ := packed
  have fits' : value.length ≤ EventLimits.unlimited.maxTagValSize.val := le_unlimited fits
  rw [ensure_of fits', ok_bind, checkAddress_unlimited checked, ok_bind]
  exact rest

theorem packOne_unlimited {tagArr : Value}
    (packed : packOne host limits kind pubkey st tagArr = .ok st') :
    packOne host .unlimited kind pubkey st tagArr = .ok st' := by
  unfold packOne at *
  rw [bind_eq_ok] at *
  obtain ⟨tag, isArray, rest⟩ := packed
  refine ⟨tag, isArray, ?_⟩
  rw [bind_eq_ok] at *
  obtain ⟨_, nonempty, rest⟩ := rest
  refine ⟨(), nonempty, ?_⟩
  rw [bind_eq_ok] at *
  obtain ⟨_, strings, rest⟩ := rest
  refine ⟨(), strings, ?_⟩
  rw [bind_eq_ok] at *
  obtain ⟨name, named, rest⟩ := rest
  refine ⟨name, named, ?_⟩
  rw [bind_eq_ok] at *
  obtain ⟨value, valued, rest⟩ := rest
  refine ⟨value, valued, ?_⟩
  split at rest
  · exact packSingleLetter_unlimited rest
  · exact rest

theorem foldlM_unlimited {values : List Value}
    (packed : values.foldlM (packOne host limits kind pubkey) st = .ok st') :
    values.foldlM (packOne host .unlimited kind pubkey) st = .ok st' := by
  induction values generalizing st with
  | nil => exact packed
  | cons value values ih =>
    rw [foldlM_cons, bind_eq_ok] at *
    obtain ⟨middle, first, rest⟩ := packed
    exact ⟨middle, packOne_unlimited first, ih rest⟩

/-- **An event packed under some limits packs alike without limits**, from any JSON with its
fields. -/
theorem packEvent_unlimited {f : Fields} {v w : Value} (reads : f.Reads v) (reads' : f.Reads w)
    (object : v.isObject = true) (object' : w.isObject = true) {result : PackedEvent × Nat}
    (packed : packEvent host limits v = .ok result) :
    packEvent host .unlimited w = .ok result := by
  rw [reads.packEvent host limits object] at packed
  rw [reads'.packEvent host .unlimited object']
  simp only [bind_eq_ok, ensure_eq_ok] at *
  obtain ⟨_, few, st, loop, rest⟩ := packed
  exact ⟨(), le_unlimited few, st, foldlM_unlimited loop, rest⟩

end Limits

/-! ### Accepted events -/

variable {f g : Fields} {e : ParsedEvent}

/-- The event passes ingest, with its id and signature verified, under some limits and times. -/
def Accepted (host : Host) (e : ParsedEvent) : Prop :=
  ∃ v limits policy verifyTime ids,
    parseAndVerifyEventWith host v limits policy true verifyTime ids = .ok e

/-- The event with these fields and this signature. -/
structure Describes (host : Host) (f : Fields) (sig : Bytes) (e : ParsedEvent) : Prop where
  packs : f.Packs host e.packed
  json : e.json = writeJson .tao (f.stored sig)
  hashed : ∃ escaping, host.sha256 (writeJson escaping f.signed) = f.id
  length : sig.length = 64
  signed : verifySig host sig f.id f.pubkey = .ok true
  marked : ∃ opted, deletionProtection (f.stored sig) = .ok opted
  canonical : f.kind = deletionKind → ∀ tag ∈ f.tags, nameOf tag = [97] →
    ∃ a, parseCanonicalATag (valueOf tag) = .ok a ∧ a.pubkey = f.pubkey
  repacks : packEvent host .unlimited (f.stored sig) = .ok (e.packed, expirationOf f.tags)

theorem verifyIdAs_eq {ids : IdPreimage} {id : Bytes} (reads : f.Reads v)
    (verified : verifyIdAs host ids v id = .ok ()) :
    ∃ escaping, host.sha256 (writeJson escaping f.signed) = id := by
  cases ids with
  | nip01 =>
    simp only [verifyIdAs, verifyId, reads.idPreimage, ok_bind, ensure_eq_ok] at verified
    exact ⟨.nip01, verified⟩
  | nip01OrLegacy =>
    simp only [verifyIdAs, verifyIdAllowingLegacy, reads.idPreimage, ok_bind] at verified
    split_ifs at verified with same
    · exact ⟨.nip01, same⟩
    · simp only [bind_eq_ok, ensure_eq_ok] at verified
      obtain ⟨_, _, legacy⟩ := verified
      exact ⟨.tao, legacy⟩

theorem tagArrays_strings (reads : f.Reads v) :
    tagArrays v = f.tags.map fun tag => tag.map .string := by
  simp only [tagArrays, reads.tags, Option.bind_some, Fields.tagsValue, Value.asArray,
    Option.getD_some, filterMap_map]
  exact congrFun filterMap_eq_map f.tags

theorem mem_tagsNamed (reads : f.Reads v) (member : tag ∈ f.tags) {name : String}
    (named : tag.head?.map Text.bytes = some (ascii name)) :
    tag.map .string ∈ tagsNamed v name := by
  rw [tagsNamed, tagArrays_strings reads, mem_filter]
  refine ⟨mem_map.mpr ⟨tag, member, rfl⟩, ?_⟩
  rw [tagName_strings, named]
  exact decide_eq_true rfl

/-- The canonical form of an `a` tag value that parses. -/
theorem requireCanonicalAddresses_eq (reads : f.Reads v)
    (checked : requireCanonicalAddresses v = .ok ()) (member : tag ∈ f.tags)
    (named : nameOf tag = [97]) {a : Address} (parsed : parseATag (valueOf tag) = .ok a) :
    parseCanonicalATag (valueOf tag) = .ok a := by
  have head : tag.head?.map Text.bytes = some (ascii "a") := by
    unfold nameOf at named
    cases found : tag.head? with
    | none => simp [found] at named
    | some s =>
      rw [found] at named
      exact congrArg some named
  have check := forM_eq_ok.mp checked _ (mem_tagsNamed reads member head)
  rw [getElem?_map] at check
  unfold valueOf at *
  cases second : tag[1]? with
  | none =>
    rw [second] at parsed
    cases parsed
  | some s =>
    simp only [second, Option.map_some, Option.bind_some, Value.asStr, map_eq_ok,
      Option.getD_some] at check parsed ⊢
    obtain ⟨b, canonical, _⟩ := check
    have same : parseATag s.bytes = .ok b := by
      simp only [parseCanonicalATag, bind_eq_ok, ensure_eq_ok, pure_eq_ok] at canonical
      obtain ⟨_, parsed, _, _, rfl⟩ := canonical
      exact parsed
    rw [canonical, ← same, parsed]

theorem tagsValue_inj {tags tags' : List (List Text)}
    (same : Fields.tagsValue tags = Fields.tagsValue tags') : tags = tags' := by
  have injective : Function.Injective fun tag : List Text => Value.array (tag.map .string) := by
    intro s t equal
    exact map_injective_iff.mpr (fun _ _ => Value.string.inj) (Value.array.inj equal)
  exact map_injective_iff.mpr injective (Value.array.inj same)

theorem u64Value_inj {m : Nat} {small : m < 2 ^ 64} {small' : n < 2 ^ 64}
    (same : u64Value m small = u64Value n small') : m = n := by
  have values := congrArg Value.asU64 same
  rw [asU64_u64Value, asU64_u64Value] at values
  exact Option.some.inj values

theorem Fields.Reads.unique (reads : f.Reads v) (reads' : g.Reads v) : f = g := by
  have id := Value.string.inj (Option.some.inj (reads.id.symm.trans reads'.id))
  have pubkey := Value.string.inj (Option.some.inj (reads.pubkey.symm.trans reads'.pubkey))
  have created := Option.some.inj (reads.createdAt.symm.trans reads'.createdAt)
  have kind := Option.some.inj (reads.kind.symm.trans reads'.kind)
  have tags := Option.some.inj (reads.tags.symm.trans reads'.tags)
  have content := Value.string.inj (Option.some.inj (reads.content.symm.trans reads'.content))
  have same : f.id = g.id ∧ f.pubkey = g.pubkey ∧ f.createdAt = g.createdAt ∧ f.kind = g.kind ∧
      f.tags = g.tags :=
    ⟨hexText_inj id, hexText_inj pubkey, u64Value_inj created, u64Value_inj kind,
      tagsValue_inj tags⟩
  clear id pubkey created kind tags reads reads'
  cases f
  cases g
  simp_all

/-- **The fields and the signature describe the event** ingest makes of an event JSON. -/
theorem describes_of_ingest {limits : EventLimits} {policy : Option TimestampPolicy}
    {verifyTime : Bool} {ids : IdPreimage}
    (run : parseAndVerifyEventWith host v limits policy true verifyTime ids = .ok e) :
    ∃ f sig, f.Reads v ∧ v.get "sig" = some (.string (hexText sig)) ∧ Describes host f sig e := by
  simp only [parseAndVerifyEventWith, bind_eq_ok, ensure_eq_ok, onlyIf_eq_ok, pure_eq_ok] at run
  obtain ⟨_, object, opted, marked, _, _, ⟨packed, expiration⟩, packedAs, _, canonical, json,
    normalized, _, _, _, _, _, verified, rfl⟩ := run
  obtain ⟨f, reads, packs, rfl⟩ := packEvent_reads packedAs
  have verified := verified trivial
  simp only [verifyNostrEventWith, bind_eq_ok, ensure_eq_ok] at verified
  obtain ⟨_, idOk, sig, sigField, valid, sigOk, rfl⟩ := verified
  obtain ⟨sigFound, sigLength⟩ := hexField_eq sigField
  rw [reads.normalizeEventJson sigFound] at normalized
  obtain ⟨escaping, hashed⟩ := verifyIdAs_eq reads idOk
  refine ⟨f, sig, reads, sigFound, packs, (Except.ok.inj normalized).symm, ⟨escaping, ?_⟩,
    sigLength, ?_, ⟨opted, ?_⟩, ?_, ?_⟩
  · rw [hashed, packs.id]
  · rw [← packs.id, ← packs.pubkey]
    exact sigOk
  · rw [← marked]
    exact (f.stored_reads sig).deletionProtection reads
  · intro isDeletion tag member named
    obtain ⟨a, parsed, same⟩ := (packs.tagsOk tag member).address named isDeletion
    have checked := canonical (packs.kind.trans isDeletion)
    exact ⟨a, requireCanonicalAddresses_eq reads checked member named parsed, same⟩
  · exact packEvent_unlimited reads (f.stored_reads sig) object rfl packedAs

/-- **An accepted event is described by its fields and signature.** -/
theorem Accepted.describes (accepted : Accepted host e) : ∃ f sig, Describes host f sig e := by
  obtain ⟨v, limits, policy, verifyTime, ids, run⟩ := accepted
  obtain ⟨f, sig, _, _, describes⟩ := describes_of_ingest run
  exact ⟨f, sig, describes⟩

theorem Describes.parsed {sig : Bytes} (describes : Describes host f sig e) :
    parseStrict host e.json = .ok (f.stored sig) := by
  rw [describes.json]
  exact parseStrict_writeJson host .tao (f.stored_plain sig) (f.stored_height sig)

/-- An event has one description: its JSON says its fields. -/
theorem Describes.unique {sig sig' : Bytes} (describes : Describes host f sig e)
    (describes' : Describes host g sig' e) : f = g := by
  have same := Except.ok.inj (describes.parsed.symm.trans describes'.parsed)
  exact (f.stored_reads sig).unique (same ▸ g.stored_reads sig')

/-- The signed value determines the fields but the id. -/
theorem Fields.signed_inj (same : f.signed = g.signed) :
    f.pubkey = g.pubkey ∧ f.createdAt = g.createdAt ∧ f.kind = g.kind ∧ f.tags = g.tags ∧
      f.content = g.content := by
  simp only [signed, Value.array.injEq, List.cons.injEq, Value.string.injEq, u64Value,
    Value.int.injEq, Integer.mk.injEq, Int.natCast_inj, tagsValue, and_true, true_and] at same
  obtain ⟨pubkey, created, kind, tags, content⟩ := same
  exact ⟨hexText_inj pubkey, created, kind, tagsValue_inj (congrArg Value.array tags), content⟩

end Wok.Event
