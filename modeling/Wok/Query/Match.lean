/-
**What a filter means.**

A filter is read on the JSON of an event: ids, authors, kinds and times, and the values of
single-letter tags. The relay decides on the packed record, in which long values are hashed, `e`
and `p` values are bytes and an empty `d` is added.

* `Packs.filterTags` — the tags a filter sees are the event's, and the empty `d` of an addressable
  event without one.
* `mem_parse` — the sets of a compiled filter are the values of its lists.
* `Satisfies` — the filter read on the JSON.
* `doesMatch_iff_satisfies` — **a filter matches the packed record exactly when the event satisfies
  it.**
-/

import Wok.Event.Roles
import Wok.Query.Group

namespace Wok.Event

open Wok.Library List

/-! ### The tags a filter sees -/

theorem visibleTags_plain {replaceable first : Bool} (kept : (replaceable && first) = false)
    (dSeen : Bool) (tags : List PackedEventTag) :
    visibleTags replaceable false first dSeen (withLast tags) = tags := by
  induction tags generalizing first dSeen with
  | nil => rfl
  | cons tag tags ih =>
    rw [withLast, visibleTags, if_neg (by simp [kept]), ih (Bool.and_false _)]

/-- The `d` an event has without naming it. -/
def addedD (dSeen : Bool) (tags : List PackedEventTag) : List PackedEventTag :=
  if dSeen || tags.any fun tag => tag.name = 100 then [] else [⟨100, []⟩]

theorem visibleTags_addressable (first dSeen : Bool) (tags : List PackedEventTag) :
    visibleTags false true first dSeen (withLast (tags ++ [⟨100, []⟩]))
      = tags ++ addedD dSeen tags := by
  induction tags generalizing first dSeen with
  | nil => cases dSeen <;> rfl
  | cons tag tags ih =>
    have more : (tags ++ [(⟨100, []⟩ : PackedEventTag)]).isEmpty = false := by simp
    rw [cons_append, withLast, more, visibleTags, if_neg (by simp), ih, cons_append]
    rw [addedD, addedD, any_cons, Bool.or_assoc]

namespace Fields

variable {host : Host} {f : Fields} {p : PackedEvent}

/-- An addressable event without a `d` tag has the empty `d`. -/
def impliedD (host : Host) (f : Fields) : List PackedEventTag :=
  if isParamReplaceableKind f.kind then addedD false (f.tags.filterMap (packedTag host)) else []

/-- **A filter sees the tags of the event.** -/
theorem Packs.filterTags (packs : f.Packs host p) :
    p.filterTags = f.tags.filterMap (packedTag host) ++ impliedD host f := by
  have rest := PackedEvent.layout_drop_tags f.id_length f.pubkey_length packs.buf
  have fits : ((f.packedTags host).flatMap packTag).length ≤ p.buf.length := by
    rw [← rest, length_drop]
    omega
  rw [PackedEvent.filterTags, packs.kind, rest,
    walkTagsLast_packTags (packedTags_short packs.tagsOk) fits, packedTags, leadingD, trailingD,
    impliedD]
  by_cases addressable : isParamReplaceableKind f.kind = true
  · have plain : isReplaceableKind f.kind = false := by
      rw [Bool.eq_false_iff]
      exact fun replaceable => not_both_kinds f.kind ⟨replaceable, addressable⟩
    rw [addressable, plain]
    exact visibleTags_addressable true false _
  · rw [Bool.not_eq_true] at addressable
    rw [addressable]
    cases replaceable : isReplaceableKind f.kind with
    | true =>
      simp only [if_true, Bool.false_eq_true, if_false, append_nil, singleton_append]
      rw [withLast, visibleTags, if_pos (by simp), visibleTags_plain rfl]
    | false =>
      simp only [Bool.false_eq_true, if_false, append_nil, nil_append]
      exact visibleTags_plain rfl _ _

theorem mem_impliedD {tag : PackedEventTag} : tag ∈ impliedD host f
    ↔ tag = ⟨100, []⟩ ∧ isParamReplaceableKind f.kind = true ∧
      ∀ source ∈ f.tags, nameOf source ≠ [100] := by
  have noneNamed : ((f.tags.filterMap (packedTag host)).any fun tag => tag.name = 100) = true
      ↔ ∃ source ∈ f.tags, nameOf source = [100] := by
    simp only [any_eq_true, mem_filterMap, decide_eq_true_eq]
    constructor
    · rintro ⟨tag, ⟨source, member, packedAs⟩, isD⟩
      exact ⟨source, member, isD ▸ packedTag_eq_some packedAs⟩
    · rintro ⟨source, member, named⟩
      exact ⟨_, ⟨source, member, packedTag_eq_some_iff.mpr ⟨named, rfl⟩⟩, rfl⟩
  unfold impliedD addedD
  split_ifs with addressable named
  · rw [Bool.false_or, noneNamed] at named
    obtain ⟨source, member, isD⟩ := named
    exact iff_of_false (by simp) fun all => all.2.2 source member isD
  · rw [Bool.false_or, noneNamed] at named
    simpa [addressable] using fun _ source member isD => named ⟨source, member, isD⟩
  · simp [addressable]

theorem Packs.mem_filterTags (packs : f.Packs host p) {letter : Byte} {value : Bytes} :
    ⟨letter, value⟩ ∈ p.filterTags ↔
      (∃ tag ∈ f.tags, nameOf tag = [letter] ∧
        value = if letter = 101 ∨ letter = 112 then (fromLowerHex (valueOf tag)).getD []
          else indexedTagValue host (valueOf tag)) ∨
      letter = 100 ∧ value = [] ∧ isParamReplaceableKind f.kind = true ∧
        ∀ tag ∈ f.tags, nameOf tag ≠ [100] := by
  rw [packs.filterTags, mem_append, mem_filterMap, mem_impliedD]
  simp only [packedTag_eq_some_iff, PackedEventTag.mk.injEq, and_assoc]

end Fields

end Wok.Event

namespace Wok.Query

open Wok.Library Wok.Event List

/-! ### Sets -/

variable {host : Host} {set : FilterSetBytes} {v : Value}

/-- The value of a set that a string of the list stands for. -/
def Spells (host : Host) (hex : Bool) (s : Text) (value : Bytes) : Prop :=
  if hex then s.bytes = toHex value ∧ value.length = 32 else value = indexedTagValue host s.bytes

/-- Whether the values under the key are identifiers. -/
def SetKey.hex : SetKey → Bool
  | .ids => true
  | .authors => true
  | .anyOf letter => letter = 101 ∨ letter = 112
  | .allOf letter => letter = 101 ∨ letter = 112

theorem readItem_eq {hex : Bool} {low high : Nat} {item : Value} {bytes : Bytes}
    (read : FilterSetBytes.readItem hex low high item = .ok bytes) :
    ∃ s, item = .string s ∧ low ≤ bytes.length ∧ bytes.length ≤ high ∧
      if hex then s.bytes = toHex bytes else bytes = s.bytes := by
  simp only [FilterSetBytes.readItem, bind_eq_ok, okOr_eq_ok, ensure_eq_ok, pure_eq_ok] at read
  obtain ⟨s, isString, raw, decoded, _, least, _, most, rfl⟩ := read
  refine ⟨s, Value.asStr_eq isString, least, most, ?_⟩
  cases hex with
  | true =>
    rw [FilterSetBytes.decodeItem, if_pos rfl, mapError_eq_ok] at decoded
    exact (toHex_fromLowerHex (fromLowerHexExact_eq decoded)).symm
  | false => exact (Except.ok.inj decoded).symm

theorem Spells.functional {hex : Bool} {s : Text} {value other : Bytes}
    (first : Spells host hex s value) (second : Spells host hex s other) : value = other := by
  unfold Spells at first second
  split_ifs at first second
  · exact toHex_inj (first.1.symm.trans second.1)
  · exact first.trans second.symm

/-- A parsed set holds the values the strings of the list stand for. -/
def ReadsSet (host : Host) (hex : Bool) (v : Value) (set : FilterSetBytes) : Prop :=
  ∃ items, v = .array items ∧ (∀ item ∈ items, ∃ s value, item = .string s ∧ Spells host hex s value) ∧
    ∀ value, value ∈ set.items ↔ ∃ s, .string s ∈ items ∧ Spells host hex s value

theorem parse_reads {hex : Bool} {low high : Nat}
    (item_eq : ∀ {item bytes}, FilterSetBytes.readItem hex low high item = .ok bytes →
      ∃ s, item = .string s ∧ Spells host hex s (indexedTagValue host bytes))
    (read : FilterSetBytes.parse host v hex low high = .ok set) : ReadsSet host hex v set := by
  simp only [FilterSetBytes.parse, bind_eq_ok, okOr_eq_ok, ensure_eq_ok, pure_eq_ok] at read
  obtain ⟨items, list, values, mapped, _, _, rfl⟩ := read
  obtain ⟨each, members⟩ := mapM_eq_ok mapped
  refine ⟨items, Value.asArray_eq list, fun item member => ?_, fun value => ?_⟩
  · obtain ⟨bytes, made⟩ := each item member
    obtain ⟨s, isString, spells⟩ := item_eq made
    exact ⟨s, _, isString, spells⟩
  · simp only [mem_sortDedup, mem_map, members]
    constructor
    · rintro ⟨bytes, ⟨item, member, made⟩, rfl⟩
      obtain ⟨s, rfl, spells⟩ := item_eq made
      exact ⟨s, member, spells⟩
    · rintro ⟨s, member, spells⟩
      obtain ⟨bytes, made⟩ := each _ member
      obtain ⟨s', same, spells'⟩ := item_eq made
      cases same
      exact ⟨bytes, ⟨_, member, made⟩, spells'.functional spells⟩

theorem parse_ids (read : FilterSetBytes.parse host v true 32 32 = .ok set) :
    ReadsSet host true v set := by
  refine parse_reads (fun made => ?_) read
  obtain ⟨s, isString, least, most, spelled⟩ := readItem_eq made
  rw [indexedTagValue_short host (by omega)]
  exact ⟨s, isString, spelled, le_antisymm most least⟩

theorem parse_texts (read : FilterSetBytes.parseTagValues host v = .ok set) :
    ReadsSet host false v set := by
  refine parse_reads (fun made => ?_) read
  obtain ⟨s, isString, _, _, same⟩ := readItem_eq made
  exact ⟨s, isString, congrArg (indexedTagValue host) same⟩

/-- **The set under a key holds what the strings of its list stand for.** -/
theorem mem_parse {key : SetKey} (read : key.parse host v = .ok set) :
    ReadsSet host key.hex v set := by
  have tagSet : ∀ {letter : Byte}, NostrFilter.parseTagSet host letter v = .ok set →
      ReadsSet host (decide (letter = 101 ∨ letter = 112)) v set := by
    intro letter read
    unfold NostrFilter.parseTagSet at read
    split_ifs at read with identifier
    · rw [decide_eq_true identifier.symm]
      exact parse_ids read
    · rw [decide_eq_false fun is => identifier is.symm]
      exact parse_texts read
  cases key with
  | ids | authors => exact parse_ids read
  | anyOf | allOf => exact tagSet read

theorem parse_kinds {set : FilterSetUint} (read : FilterSetUint.parse v = .ok set) :
    ∃ items, v = .array items ∧ ∀ n, n ∈ set.items ↔ ∃ item ∈ items, item.asU64 = some n := by
  simp only [FilterSetUint.parse, bind_eq_ok, okOr_eq_ok, pure_eq_ok] at read
  obtain ⟨items, list, values, mapped, rfl⟩ := read
  obtain ⟨each, members⟩ := mapM_eq_ok mapped
  refine ⟨items, Value.asArray_eq list, fun n => ?_⟩
  simp only [mem_sortDedup, members]
  refine exists_congr fun item => and_congr_right fun member => ?_
  obtain ⟨m, made⟩ := each item member
  have read : item.asU64 = some m := by
    simp only [FilterSetUint.readItem, bind_eq_ok, okOr_eq_ok, pure_eq_ok] at made
    obtain ⟨_, found, _, _, rfl⟩ := made
    exact found
  rw [made, read]
  simp

/-! ### The filter on the JSON -/

/-- The strings of the list under a key. -/
def Lists (filter : Value) (key : Bytes) (s : Text) : Prop :=
  ∃ items, filter.fieldAt key = some (.array items) ∧ .string s ∈ items

/-- A tag of the event has this letter and this value: its second element, or nothing. An
addressable event without a `d` has the empty one. -/
def HasValue (event : Value) (letter : Byte) (value : Text) : Prop :=
  (∃ tag ∈ tagArrays event, (tagName tag).map Text.bytes = some [letter] ∧
    tagValue tag = some value) ∨
  letter = 100 ∧ value.bytes = [] ∧
    (((event.get "kind").bind Value.asU64).any isParamReplaceableKind) = true ∧
    ∀ tag ∈ tagArrays event, (tagName tag).map Text.bytes ≠ some [100]

/-- The filter holds of the event, both read as JSON. -/
structure Satisfies (filter event : Value) : Prop where
  nonempty : ∀ key, NostrFilter.IsOrKey key → filter.fieldAt key ≠ some (.array [])
  since : ∀ n created, (filter.get "since").bind Value.asU64 = some n →
    (event.get "created_at").bind Value.asU64 = some created → n ≤ created
  «until» : ∀ n created, (filter.get "until").bind Value.asU64 = some n →
    (event.get "created_at").bind Value.asU64 = some created → created ≤ n
  ids : ∀ items, filter.get "ids" = some (.array items) → ∃ item ∈ items, event.get "id" = some item
  authors : ∀ items, filter.get "authors" = some (.array items) →
    ∃ item ∈ items, event.get "pubkey" = some item
  kinds : ∀ items, filter.get "kinds" = some (.array items) →
    ∃ item ∈ items, event.get "kind" = some item
  allOf : ∀ letter s, Lists filter [38, letter] s → HasValue event letter s
  anyOf : ∀ letter, (∃ s, Lists filter [35, letter] s ∧ ¬Lists filter [38, letter] s) →
    ∃ s, Lists filter [35, letter] s ∧ ¬Lists filter [38, letter] s ∧ HasValue event letter s

/-- The texts whose SHA-256 are compared: tag values of the event, and values of the filter. -/
def comparedTexts (filter event : Value) : Set Bytes :=
  {s | (∃ tag ∈ tagArrays event, ∃ t, tagValue tag = some t ∧ s = t.bytes) ∨
    ∃ key t, Lists filter key t ∧ s = t.bytes}

/-! ### Tags -/

section Tags

variable {host : Host} {f : Fields} {event : Value} {p : PackedEvent}

theorem hasValue_iff (reads : f.Reads event) {letter : Byte} {value : Text} :
    HasValue event letter value ↔
      (∃ tag ∈ f.tags, nameOf tag = [letter] ∧ valueOf tag = value.bytes) ∨
      letter = 100 ∧ value.bytes = [] ∧ isParamReplaceableKind f.kind = true ∧
        ∀ tag ∈ f.tags, nameOf tag ≠ [100] := by
  have kind : (event.get "kind").bind Value.asU64 = some f.kind := by
    rw [reads.kind]
    exact asU64_u64Value f.kind f.kind_lt
  have named : ∀ (tag : List Text) (letter : Byte),
      (tagName (tag.map .string)).map Text.bytes = some [letter] ↔ nameOf tag = [letter] := by
    intro tag letter
    rw [tagName_strings, nameOf]
    cases tag.head? <;> simp
  have valued : ∀ (tag : List Text) (value : Text),
      tagValue (tag.map .string) = some value ↔ valueOf tag = value.bytes := by
    intro tag value
    have read : tagValue (tag.map .string) = some (valueText tag) := by
      unfold tagValue valueText
      rw [getElem?_map]
      cases tag[1]? <;> rfl
    rw [read, valueOf_eq, Option.some.injEq]
    exact ⟨congrArg Text.bytes, Text.ext_bytes⟩
  unfold HasValue
  rw [tagArrays_strings reads, kind]
  simp only [mem_map, exists_exists_and_eq_and, named, valued, Option.any_some,
    forall_exists_index, and_imp, forall_apply_eq_imp_iff₂, ne_eq]

/-- **A packed value stands for one text** among those compared. -/
theorem Spells.unique {texts : Set Bytes} (injective : Set.InjOn host.sha256 texts) {hex : Bool}
    {s t : Text} {value : Bytes} (first : Spells host hex s value) (second : Spells host hex t value)
    (inside : s.bytes ∈ texts) (inside' : t.bytes ∈ texts) : s = t := by
  apply Text.ext_bytes
  unfold Spells at first second
  split_ifs at first second
  · exact first.1.trans second.1.symm
  · exact indexedTagValue_inj host (fun same => injective inside inside' same)
      (first.symm.trans second)

/-- The record has a tag with a value exactly when the event has one with the text. -/
theorem hasTag_iff (packs : f.Packs host p) (reads : f.Reads event) {texts : Set Bytes}
    (injective : Set.InjOn host.sha256 texts)
    (values : ∀ tag ∈ f.tags, valueOf tag ∈ texts) {letter : Byte} {s : Text} {value : Bytes}
    (inside : s.bytes ∈ texts)
    (spells : Spells host (decide (letter = 101 ∨ letter = 112)) s value) :
    ⟨letter, value⟩ ∈ p.filterTags ↔ HasValue event letter s := by
  rw [packs.mem_filterTags, hasValue_iff reads]
  by_cases identifier : letter = 101 ∨ letter = 112
  · rw [decide_eq_true identifier, Spells, if_pos rfl] at spells
    have notD : letter ≠ 100 := by
      rcases identifier with rfl | rfl
      · decide
      · decide
    simp only [if_pos identifier, notD, false_and, or_false, spells.1]
    exact exists_congr fun tag => and_congr_right fun member => and_congr_right fun named =>
      (packs.tagsOk tag member).decoded identifier named
  · rw [decide_eq_false identifier, Spells, if_neg (by decide)] at spells
    simp only [if_neg identifier, spells]
    refine or_congr (exists_congr fun tag => and_congr_right fun member =>
      and_congr_right fun named => ?_) (and_congr_right fun _ => and_congr_left fun _ => ?_)
    · rw [valueOf_eq]
      constructor
      · intro same
        exact (indexedTagValue_inj host (s := s) (t := valueText tag)
          (fun digest => injective inside (valueOf_eq tag ▸ values tag member) digest) same).symm
      · intro same
        rw [same]
    · constructor
      · intro empty
        unfold indexedTagValue at empty
        split_ifs at empty with short
        exact empty
      · intro empty
        rw [empty]
        exact indexedTagValue_short host (by simp)

end Tags

/-! ### The conditions of a compiled filter -/

namespace NostrFilter

section Conditions

variable {host : Host} {filter event : Value} {g : NostrFilter} {f : Fields} {p : PackedEvent}
variable {key : SetKey} {set : FilterSetBytes} {value : Bytes}

theorem Compiled.set_cases (compiled : Compiled host filter g)
    (nonempty : filter.fieldAt key.text ≠ some (.array [])) :
    filter.fieldAt key.text = none ∧ g.setAt key = none ∨
      ∃ items set, filter.fieldAt key.text = some (.array items) ∧ g.setAt key = some set ∧
        ReadsSet host key.hex (.array items) set := by
  rcases compiled.sets key with ⟨missing, none⟩ |
    ⟨v, found, ⟨_, empty, _⟩ | ⟨items, set, list, _, read, same⟩⟩
  · exact .inl ⟨missing, none⟩
  · rw [empty] at found
    exact absurd found nonempty
  · rw [list] at found
    exact .inr ⟨items, set, found, same, list ▸ mem_parse read⟩

/-- An identifier is in a set exactly when its text is in the list. -/
theorem ReadsSet.mem_ids {items : List Value} (reads : ReadsSet host true (.array items) set)
    (length : value.length = 32) :
    set.doesMatch value = true ↔ ∃ item ∈ items, item = .string (hexText value) := by
  obtain ⟨_, same, _, members⟩ := reads
  cases same
  rw [FilterSetBytes.doesMatch, contains_iff_mem, members]
  constructor
  · rintro ⟨s, member, spelled, _⟩
    exact ⟨_, member, congrArg _ (Text.ext_bytes spelled)⟩
  · rintro ⟨item, member, rfl⟩
    exact ⟨_, member, rfl, length⟩

section Compiled

variable (compiled : Compiled host filter g)

include compiled

theorem ids_iff (isHex : key.hex = true) (nonempty : filter.fieldAt key.text ≠ some (.array []))
    (length : value.length = 32) :
    ((g.setAt key).all fun set => set.doesMatch value) = true ↔
      ∀ items, filter.fieldAt key.text = some (.array items) →
        ∃ item ∈ items, item = .string (hexText value) := by
  rcases compiled.set_cases nonempty with ⟨missing, none⟩ | ⟨items, set, found, same, reads⟩
  · simp [missing, none]
  · rw [isHex] at reads
    rw [same, found, Option.all_some, ReadsSet.mem_ids reads length]
    simp only [Option.some.injEq, Value.array.injEq, forall_eq']

theorem kinds_iff (nonempty : filter.fieldAt (ascii "kinds") ≠ some (.array [])) {kind : Nat}
    (small : kind < 2 ^ 64) :
    (g.kinds.all fun kinds => kinds.doesMatch kind) = true ↔
      ∀ items, filter.fieldAt (ascii "kinds") = some (.array items) →
        ∃ item ∈ items, item = u64Value kind small := by
  have number : ∀ item : Value, item.asU64 = some kind ↔ item = u64Value kind small :=
    fun item => ⟨eq_u64Value, fun is => is ▸ asU64_u64Value kind small⟩
  rcases compiled.kinds with ⟨missing, none⟩ |
    ⟨v, found, ⟨_, empty, _⟩ | ⟨items, set, list, _, read, same⟩⟩
  · rw [missing, none]
    simp
  · rw [empty] at found
    exact absurd found nonempty
  · obtain ⟨_, list', members⟩ := parse_kinds read
    rw [list] at found list'
    cases list'
    rw [same, found]
    simp only [Option.all_some, FilterSetUint.doesMatch, contains_iff_mem, members, number,
      Option.some.injEq, Value.array.injEq, forall_eq']

theorem times_iff {created : Nat} (small : created < 2 ^ 64) :
    g.doesMatchTimes created = true ↔
      (∀ n, (filter.get "since").bind Value.asU64 = some n → n ≤ created) ∧
      ∀ n, (filter.get "until").bind Value.asU64 = some n → created ≤ n := by
  have since : (∀ n, (filter.get "since").bind Value.asU64 = some n → n ≤ created)
      ↔ g.since ≤ created := by
    rcases compiled.since with ⟨missing, same⟩ | ⟨v, found, read⟩
    · rw [show filter.get "since" = none from missing, same]
      simp
    · rw [show filter.get "since" = some v from found, Option.bind_some, read]
      simp
  have «until» : (∀ n, (filter.get "until").bind Value.asU64 = some n → created ≤ n)
      ↔ created ≤ g.until := by
    rcases compiled.until with ⟨missing, same⟩ | ⟨v, found, read⟩
    · rw [show filter.get "until" = none from missing, same]
      simp only [Option.bind_none]
      exact iff_of_true (fun n is => by cases is) (by omega)
    · rw [show filter.get "until" = some v from found, Option.bind_some, read]
      simp
  rw [since, «until», doesMatchTimes, Bool.and_eq_true, decide_eq_true_eq, decide_eq_true_eq]

theorem Compiled.allOf_nonempty (letter : Byte) :
    filter.fieldAt (SetKey.allOf letter).text ≠ some (.array []) := by
  intro found
  rcases compiled.sets (.allOf letter) with
    ⟨missing, _⟩ | ⟨v, here, ⟨never, _⟩ | ⟨items, _, list, some, _⟩⟩
  · rw [missing] at found
    cases found
  · exact never
  · rw [here, list] at found
    cases found
    exact some rfl

/-- The values of a set under a letter, by the texts they stand for. -/
theorem Compiled.mem_set (nonempty : filter.fieldAt key.text ≠ some (.array []))
    (is : g.setAt key = some set) :
    value ∈ set.items ↔ ∃ s, Lists filter key.text s ∧ Spells host key.hex s value := by
  rcases compiled.set_cases nonempty with ⟨_, none⟩ | ⟨items, _, found, same, _, list, _, members⟩
  · rw [none] at is
    cases is
  · rw [same] at is
    cases is
    cases list
    simp only [members, Lists, found, Option.some.injEq, Value.array.injEq, exists_eq_left']

/-- A text that is listed has a set, and a value in it. -/
theorem Compiled.set_of_lists (nonempty : filter.fieldAt key.text ≠ some (.array [])) {s : Text}
    (listed : Lists filter key.text s) :
    ∃ set value, g.setAt key = some set ∧ Spells host key.hex s value := by
  obtain ⟨items, found, member⟩ := listed
  rcases compiled.set_cases nonempty with ⟨none, _⟩ | ⟨others, set, here, is, _, list, each, _⟩
  · rw [none] at found
    cases found
  · rw [here] at found
    cases found
    cases list
    obtain ⟨_, value, equal, spells⟩ := each _ member
    cases equal
    exact ⟨set, value, is, spells⟩

end Compiled

theorem lists_compared {key : Bytes} {s : Text} (listed : Lists filter key s) :
    s.bytes ∈ comparedTexts filter event := .inr ⟨key, s, listed, rfl⟩

theorem values_compared (reads : f.Reads event) :
    ∀ tag ∈ f.tags, valueOf tag ∈ comparedTexts filter event := by
  intro tag member
  refine .inl ⟨tag.map .string, ?_, valueText tag, ?_, valueOf_eq tag⟩
  · rw [tagArrays_strings reads]
    exact mem_map.mpr ⟨tag, member, rfl⟩
  · unfold tagValue valueText
    rw [getElem?_map]
    cases tag[1]? <;> rfl

theorem hasTag_eq (letter : Byte) (value : Bytes) :
    hasTag p letter value = true ↔ ⟨letter, value⟩ ∈ p.filterTags := by
  simp only [hasTag, any_eq_true, Bool.and_eq_true, decide_eq_true_eq]
  constructor
  · rintro ⟨tag, member, rfl, rfl⟩
    exact member
  · intro member
    exact ⟨_, member, rfl, rfl⟩

theorem hasTagIn_eq (letter : Byte) (set : FilterSetBytes) :
    hasTagIn p letter set = true ↔ ∃ value ∈ set.items, ⟨letter, value⟩ ∈ p.filterTags := by
  simp only [hasTagIn, any_eq_true, Bool.and_eq_true, decide_eq_true_eq,
    FilterSetBytes.doesMatch, contains_iff_mem]
  constructor
  · rintro ⟨tag, member, rfl, inside⟩
    exact ⟨tag.value, inside, member⟩
  · rintro ⟨value, inside, member⟩
    exact ⟨_, member, rfl, inside⟩

section Tags

variable (compiled : Compiled host filter g) (packs : f.Packs host p) (reads : f.Reads event)
  (injective : Set.InjOn host.sha256 (comparedTexts filter event))

include packs reads injective in
/-- A listed value is a tag of the record exactly when it is one of the event. -/
theorem listed_iff {key : Bytes} {letter : Byte} {s : Text} (listed : Lists filter key s)
    (spells : Spells host (SetKey.anyOf letter).hex s value) :
    ⟨letter, value⟩ ∈ p.filterTags ↔ HasValue event letter s :=
  hasTag_iff packs reads injective (values_compared reads) (lists_compared listed) spells

include compiled packs reads injective in
theorem allOf_iff :
    (g.andTags.all fun (letter, required) => required.items.all fun value =>
      hasTag p letter value) = true ↔
      ∀ letter s, Lists filter [38, letter] s → HasValue event letter s := by
  simp only [all_eq_true, Prod.forall, hasTag_eq]
  constructor
  · intro all letter s listed
    obtain ⟨set, value, is, spells⟩ :=
      compiled.set_of_lists (compiled.allOf_nonempty letter) listed
    have inside := (compiled.mem_set (compiled.allOf_nonempty letter) is).mpr ⟨s, listed, spells⟩
    exact (listed_iff packs reads injective listed spells).mp
      (all letter set ((lookup_eq_some compiled.ordered.2).mp is) value inside)
  · intro all letter set member value inside
    have is : g.setAt (.allOf letter) = some set := (lookup_eq_some compiled.ordered.2).mpr member
    obtain ⟨s, listed, spells⟩ :=
      (compiled.mem_set (compiled.allOf_nonempty letter) is).mp inside
    exact (listed_iff packs reads injective listed spells).mpr (all letter s listed)

/-- The alternatives left for a letter. -/
def remaining (g : NostrFilter) (letter : Byte) (set : FilterSetBytes) : FilterSetBytes :=
  ((g.andTags.lookup letter).map set.removeAll).getD set

include compiled injective in
theorem mem_remaining {letter : Byte}
    (nonempty : filter.fieldAt (SetKey.anyOf letter).text ≠ some (.array []))
    (is : g.setAt (.anyOf letter) = some set) :
    value ∈ (remaining g letter set).items ↔
      ∃ s, Lists filter [35, letter] s ∧ ¬Lists filter [38, letter] s ∧
        Spells host (SetKey.anyOf letter).hex s value := by
  have members : value ∈ set.items ↔ _ := compiled.mem_set nonempty is
  unfold remaining
  cases found : g.andTags.lookup letter with
  | none =>
    have notRequired : ∀ s, ¬Lists filter [38, letter] s := by
      intro s listed
      obtain ⟨req, _, at', _⟩ := compiled.set_of_lists (compiled.allOf_nonempty letter) listed
      rw [show g.setAt (.allOf letter) = none from found] at at'
      cases at'
    rw [Option.map_none, Option.getD_none, members]
    simp only [notRequired, not_false_eq_true, true_and]
    exact Iff.rfl
  | some req =>
    have needed : value ∈ req.items ↔ _ :=
      compiled.mem_set (compiled.allOf_nonempty letter) found
    rw [Option.map_some, Option.getD_some]
    simp only [FilterSetBytes.removeAll, FilterSetBytes.doesMatch, mem_filter,
      Bool.not_eq_true', contains_eq_mem, decide_eq_false_iff_not, members, needed]
    constructor
    · rintro ⟨⟨s, listed, spells⟩, other⟩
      exact ⟨s, listed, fun again => other ⟨s, again, spells⟩, spells⟩
    · rintro ⟨s, listed, other, spells⟩
      refine ⟨⟨s, listed, spells⟩, ?_⟩
      rintro ⟨t, again, spells'⟩
      have same := Spells.unique injective spells spells' (lists_compared listed)
        (lists_compared again)
      exact other (same ▸ again)

include compiled in
theorem mem_alternatives {letter : Byte} {left : FilterSetBytes} :
    (letter, left) ∈ alternatives g.tags g.andTags ↔
      ∃ set, g.setAt (.anyOf letter) = some set ∧ left = remaining g letter set ∧
        left.items ≠ [] := by
  simp only [alternatives, mem_filter, mem_map, Prod.exists, Prod.mk.injEq,
    decide_eq_true_eq, FilterSetBytes.size, length_pos_iff]
  constructor
  · rintro ⟨⟨_, set, member, rfl, rfl⟩, some⟩
    exact ⟨set, (lookup_eq_some compiled.ordered.1).mpr member, rfl, some⟩
  · rintro ⟨set, is, rfl, some⟩
    exact ⟨⟨letter, set, (lookup_eq_some compiled.ordered.1).mp is, rfl, rfl⟩, some⟩

include compiled packs reads injective in
theorem anyOf_iff
    (nonempty : ∀ letter, filter.fieldAt (SetKey.anyOf letter).text ≠ some (.array [])) :
    ((alternatives g.tags g.andTags).all fun (letter, set) => hasTagIn p letter set) = true ↔
      ∀ letter, (∃ s, Lists filter [35, letter] s ∧ ¬Lists filter [38, letter] s) →
        ∃ s, Lists filter [35, letter] s ∧ ¬Lists filter [38, letter] s ∧
          HasValue event letter s := by
  simp only [all_eq_true, Prod.forall, hasTagIn_eq, mem_alternatives compiled]
  constructor
  · rintro all letter ⟨s, listed, other⟩
    obtain ⟨set, value, is, spells⟩ := compiled.set_of_lists (nonempty letter) listed
    have inside := (mem_remaining compiled injective (nonempty letter) is).mpr
      ⟨s, listed, other, spells⟩
    obtain ⟨found, among, seen⟩ :=
      all letter _ ⟨set, is, rfl, ne_nil_of_mem inside⟩
    obtain ⟨t, listed', other', spells'⟩ :=
      (mem_remaining compiled injective (nonempty letter) is).mp among
    exact ⟨t, listed', other', (listed_iff packs reads injective listed' spells').mp seen⟩
  · rintro all letter _ ⟨set, is, rfl, some⟩
    obtain ⟨value, inside⟩ := exists_mem_of_ne_nil _ some
    obtain ⟨s, listed, other, _⟩ :=
      (mem_remaining compiled injective (nonempty letter) is).mp inside
    obtain ⟨t, listed', other', has⟩ := all letter ⟨s, listed, other⟩
    obtain ⟨_, value', at', spells'⟩ := compiled.set_of_lists (nonempty letter) listed'
    have among := (mem_remaining compiled injective (nonempty letter) is).mpr
      ⟨t, listed', other', spells'⟩
    exact ⟨value', among, (listed_iff packs reads injective listed' spells').mpr has⟩

theorem finish_eq {settings : Settings} {st : Parsing} {g : NostrFilter}
    (run : finish settings st = .ok g) :
    g.ids = st.filter.ids ∧ g.authors = st.filter.authors ∧ g.kinds = st.filter.kinds ∧
      g.tags = alternatives st.filter.tags st.filter.andTags ∧ g.andTags = st.filter.andTags ∧
      g.search = st.filter.search ∧ g.since = st.filter.since ∧ g.until = st.filter.until ∧
      g.neverMatch = st.filter.neverMatch := by
  simp only [finish, bind_eq_ok, ensure_eq_ok, pure_eq_ok] at run
  obtain ⟨_, _, _, _, rfl⟩ := run
  exact ⟨rfl, rfl, rfl, rfl, rfl, rfl, rfl, rfl, rfl⟩

theorem parse_eq {settings : Settings} {filter : Value} {g : NostrFilter}
    (parsed : parse settings filter = .ok g)
    (distinct : ∀ fields, filter = .object fields → DistinctKeys fields) :
    ∃ st, Compiled settings.host filter st.filter ∧ finish settings st = .ok g := by
  cases filter with
  | object fields =>
    rw [parse, bind_eq_ok] at parsed
    obtain ⟨st, run, finished⟩ := parsed
    exact ⟨st, loop_compiled (distinct fields rfl) run, finished⟩
  | _ => cases parsed

include compiled packs reads injective in
/-- The conditions of a compiled filter, one by one. -/
theorem satisfies_iff (nonempty : ∀ key, IsOrKey key → filter.fieldAt key ≠ some (.array [])) :
    Satisfies filter event ↔ g.doesMatchTimes p.createdAt = true ∧
      (g.ids.all fun ids => ids.doesMatch p.id) = true ∧
      (g.authors.all fun authors => authors.doesMatch p.pubkey) = true ∧
      (g.kinds.all fun kinds => kinds.doesMatch p.kind) = true ∧
      ((alternatives g.tags g.andTags).all fun (letter, set) => hasTagIn p letter set) = true ∧
      (g.andTags.all fun (letter, required) => required.items.all fun value =>
        hasTag p letter value) = true := by
  have created : (event.get "created_at").bind Value.asU64 = some f.createdAt := by
    rw [reads.createdAt]
    exact asU64_u64Value f.createdAt f.createdAt_lt
  have own : ∀ key : SetKey, key.MayBeEmpty → filter.fieldAt key.text ≠ some (.array []) :=
    fun key may => nonempty _ (.inr ⟨key, may, rfl⟩)
  have item : ∀ {name : String} {x : Value}, event.get name = some x → ∀ (list : Option Value),
      (∀ items, list = some (.array items) → ∃ item ∈ items, event.get name = some item) ↔
        ∀ items, list = some (.array items) → ∃ item ∈ items, item = x := by
    intro name x is list
    simp only [is, Option.some.injEq, eq_comm]
  rw [packs.createdAt, packs.id, packs.pubkey, packs.kind, times_iff compiled f.createdAt_lt,
    show g.ids = g.setAt .ids from rfl, show g.authors = g.setAt .authors from rfl,
    ids_iff compiled rfl (own .ids trivial) f.id_length,
    ids_iff compiled rfl (own .authors trivial) f.pubkey_length,
    kinds_iff compiled (nonempty _ (.inl rfl)) f.kind_lt,
    anyOf_iff compiled packs reads injective (fun letter => own (.anyOf letter) trivial),
    allOf_iff compiled packs reads injective, ← item reads.id, ← item reads.pubkey,
    ← item reads.kind]
  constructor
  · intro holds
    exact ⟨⟨fun n is => holds.since n _ is created, fun n is => holds.until n _ is created⟩,
      holds.ids, holds.authors, holds.kinds, holds.anyOf, holds.allOf⟩
  · rintro ⟨⟨since, «until»⟩, ids, authors, kinds, anyOf, allOf⟩
    refine ⟨nonempty, fun n made is at' => ?_, fun n made is at' => ?_, ids, authors, kinds, allOf,
      anyOf⟩
    · rw [created] at at'
      cases at'
      exact since n is
    · rw [created] at at'
      cases at'
      exact «until» n is

end Tags

end Conditions

end NostrFilter

/-- **A filter matches a packed record exactly when the event satisfies the filter**, both read as
JSON. -/
theorem doesMatch_iff_satisfies {settings : NostrFilter.Settings} {limits : EventLimits}
    {event filter : Value} {p : PackedEvent} {expiration : Nat} {g : NostrFilter}
    (packed : packEvent settings.host limits event = .ok (p, expiration))
    (parsed : NostrFilter.parse settings filter = .ok g)
    (distinct : ∀ fields, filter = .object fields → NostrFilter.DistinctKeys fields)
    (noSearch : filter.get "search" = none)
    (injective : Set.InjOn settings.host.sha256 (comparedTexts filter event)) :
    g.doesMatch p = true ↔ Satisfies filter event := by
  obtain ⟨f, reads, packs, _⟩ := packEvent_reads packed
  obtain ⟨st, compiled, finished⟩ := NostrFilter.parse_eq parsed distinct
  obtain ⟨ids, authors, kinds, tags, andTags, search, since, «until», never⟩ :=
    NostrFilter.finish_eq finished
  have times : g.doesMatchTimes p.createdAt = st.filter.doesMatchTimes p.createdAt := by
    rw [NostrFilter.doesMatchTimes, NostrFilter.doesMatchTimes, since, «until»]
  rw [NostrFilter.doesMatch, NostrFilter.doesMatchWithoutSearch, times, ids, authors, kinds, tags,
    andTags, search, never, compiled.search noSearch]
  cases empty : st.filter.neverMatch with
  | true =>
    obtain ⟨key, isOr, found⟩ := compiled.neverMatch.mp empty
    exact iff_of_false (by simp) fun holds => holds.nonempty key isOr found
  | false =>
    have nonempty : ∀ key, NostrFilter.IsOrKey key → filter.fieldAt key ≠ some (.array []) := by
      intro key isOr found
      have raised := compiled.neverMatch.mpr ⟨key, isOr, found⟩
      rw [empty] at raised
      cases raised
    rw [NostrFilter.satisfies_iff compiled packs reads injective nonempty]
    simp only [Option.isNone_none, Bool.not_false, Bool.true_and, Bool.and_eq_true, and_assoc]

/-! ### A note with a `t` tag -/

def sampleSettings : NostrFilter.Settings := ⟨zeroHost, fun _ => .error [], 500, 8, 16⟩

def sampleNote : Fields := ⟨List.replicate 32 1, List.replicate 32 7, 1000, 1,
  [[.ofAscii "t", .ofAscii "x"]], .ofAscii "", rfl, rfl, by decide, by decide⟩

def sampleJson : Value := sampleNote.stored (List.replicate 64 1)

/-- `#t` with one value. -/
def sampleFilter : Value := .object [(.ofAscii "#t", .array [.string (.ofAscii "x")])]

def sampleMatches : Bool :=
  match packEvent sampleSettings.host .default sampleJson,
    NostrFilter.parse sampleSettings sampleFilter with
  | .ok (p, _), .ok g => g.doesMatch p
  | _, _ => false

theorem sampleMatches_eq : sampleMatches = true := by decide +kernel

theorem sample_compared {s : Bytes} (compared : s ∈ comparedTexts sampleFilter sampleJson) :
    s = ascii "x" := by
  rcases compared with ⟨tag, member, t, value, rfl⟩ | ⟨key, t, ⟨items, found, member⟩, rfl⟩
  · rw [sampleJson, tagArrays_strings (sampleNote.stored_reads _)] at member
    obtain rfl : tag = [.string (.ofAscii "t"), .string (.ofAscii "x")] := by
      simpa [sampleNote] using member
    cases value
    rfl
  · obtain rfl : items = [.string (.ofAscii "x")] := by
      simp only [sampleFilter, Value.fieldAt, find?_singleton] at found
      split_ifs at found
      · cases found
        rfl
      · cases found
    cases mem_singleton.mp member
    rfl

theorem doesMatch_iff_satisfies_sample : Satisfies sampleFilter sampleJson := by
  have matched := sampleMatches_eq
  unfold sampleMatches at matched
  cases packed : packEvent sampleSettings.host .default sampleJson with
  | error e => simp [packed] at matched
  | ok result =>
    cases parsed : NostrFilter.parse sampleSettings sampleFilter with
    | error e => simp [packed, parsed] at matched
    | ok g =>
      rw [packed, parsed] at matched
      refine (doesMatch_iff_satisfies packed parsed ?_ ?_ ?_).mp matched
      · intro fields same
        cases same
        exact pairwise_singleton _ _
      · decide +kernel
      · intro s inside t inside' _
        rw [sample_compared inside, sample_compared inside']

end Wok.Query
