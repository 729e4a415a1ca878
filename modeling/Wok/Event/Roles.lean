/-
**What an event names.**

A replaceable or addressable event has an address; a deletion request names ids and addresses; a
gift wrap names its recipients. All of them are read from single-letter tags, which the packed
record keeps, long values hashed.

* `mem_packedTags_id`, `mem_packedTags_text` — the packed tags are those of the event.
* `Packs.firstDTag` — **the first `d` tag of a packed version is the `d` of its address.**
-/

import Wok.Event.Accepted

namespace Wok.Event

open Wok.Library

/-! ### Tag values -/

/-- The value of a tag as a text. -/
def valueText (tag : List Text) : Text := tag[1]?.getD ⟨[], utf8Valid_nil⟩

theorem valueOf_eq (tag : List Text) : valueOf tag = (valueText tag).bytes := by
  unfold valueOf valueText
  cases tag[1]? <;> rfl

theorem valueOf_valid (tag : List Text) : utf8Valid (valueOf tag) = true :=
  valueOf_eq tag ▸ (valueText tag).valid

/-- A packed value is hashed exactly when it is long. -/
theorem hashedTagValueDigest_valueOf (host : Host) (tag : List Text) :
    hashedTagValueDigest (indexedTagValue host (valueOf tag))
      = if (valueOf tag).length ≤ 255 then none else some (host.sha256 (valueOf tag)) := by
  rw [valueOf_eq]
  exact hashedTagValueDigest_indexedTagValue host (valueText tag)

/-! ### Roles -/

namespace Fields

variable (f : Fields)

/-- The `d` of the event's address: the first `d` tag of an addressable event, else empty. -/
def dTag : Bytes :=
  if isParamReplaceableKind f.kind then
    ((f.tags.find? fun tag => nameOf tag = [100]).map valueOf).getD []
  else []

/-- The address of a replaceable or addressable event. -/
def address : Address := ⟨f.kind, f.pubkey, f.dTag⟩

/-- The event is a deletion request with an `e` tag naming this id. -/
def NamesId (id : Bytes) : Prop :=
  f.kind = deletionKind ∧ ∃ tag ∈ f.tags, nameOf tag = [101] ∧ valueOf tag = toHex id

/-- The event is a deletion request with this `a` tag. -/
def NamesAddress (a : Bytes) : Prop :=
  f.kind = deletionKind ∧ ∃ tag ∈ f.tags, nameOf tag = [97] ∧ valueOf tag = a

/-- The version `f` is older than `g`. -/
def Before (f g : Fields) : Prop :=
  f.createdAt < g.createdAt ∨ f.createdAt = g.createdAt ∧ g.id < f.id

end Fields

/-! ### Packed tags -/

section Packed

variable {host : Host} {f : Fields} {p : PackedEvent} {value : Bytes} {tag : List Text}

theorem packedTag_eq_some {packed : PackedEventTag} (packedAs : packedTag host tag = some packed) :
    nameOf tag = [packed.name] := by
  unfold packedTag at packedAs
  split at packedAs
  · rename_i name single
    split_ifs at packedAs <;> cases packedAs <;> exact single
  · cases packedAs

theorem packedTag_eq_some_iff {letter : Byte} :
    packedTag host tag = some ⟨letter, value⟩ ↔ nameOf tag = [letter] ∧
      value = if letter = 101 ∨ letter = 112 then (fromLowerHex (valueOf tag)).getD []
        else indexedTagValue host (valueOf tag) := by
  constructor
  · intro packedAs
    have named := packedTag_eq_some packedAs
    refine ⟨named, ?_⟩
    simp only [packedTag, named] at packedAs
    split_ifs at packedAs ⊢ <;> cases packedAs <;> rfl
  · rintro ⟨named, rfl⟩
    simp only [packedTag, named]
    split_ifs <;> rfl

theorem mem_packedTags {tag : PackedEventTag} (other : tag.name ≠ 100) :
    tag ∈ f.packedTags host ↔ ∃ source ∈ f.tags, packedTag host source = some tag := by
  have lead : tag ∉ leadingD f.kind := by
    unfold leadingD
    split_ifs
    · rintro member
      exact other (List.mem_singleton.mp member ▸ rfl)
    · simp
  have trail : tag ∉ trailingD f.kind := by
    unfold trailingD
    split_ifs
    · rintro member
      exact other (List.mem_singleton.mp member ▸ rfl)
    · simp
  simp only [Fields.packedTags, List.mem_append, lead, trail, or_false, false_or,
    List.mem_filterMap]

theorem TagOk.decoded {kind : Nat} {pubkey : Bytes} (ok : TagOk kind pubkey tag) {name : Byte}
    (identifier : name = 101 ∨ name = 112) (named : nameOf tag = [name]) :
    value = (fromLowerHex (valueOf tag)).getD [] ↔ valueOf tag = toHex value := by
  have identified : nameOf tag = [101] ∨ nameOf tag = [112] := by
    rcases identifier with rfl | rfl
    · exact .inl named
    · exact .inr named
  obtain ⟨raw, decoded, _⟩ := ok.ids identified
  rw [decoded, Option.getD_some, ← toHex_fromLowerHex decoded]
  exact ⟨fun same => congrArg toHex same.symm, fun same => (toHex_inj same).symm⟩

/-- **An `e` or `p` tag is packed as the bytes its value spells.** -/
theorem mem_packedTags_id (tagsOk : ∀ tag ∈ f.tags, TagOk f.kind f.pubkey tag) {name : Byte}
    (identifier : name = 101 ∨ name = 112) :
    ⟨name, value⟩ ∈ f.packedTags host
      ↔ ∃ tag ∈ f.tags, nameOf tag = [name] ∧ valueOf tag = toHex value := by
  have other : name ≠ 100 := by
    rcases identifier with rfl | rfl
    · decide
    · decide
  rw [mem_packedTags other]
  simp only [packedTag_eq_some_iff, if_pos identifier]
  exact exists_congr fun tag => and_congr_right fun member => and_congr_right fun named =>
    (tagsOk tag member).decoded identifier named

/-- **Another tag is packed as its value**, hashed when it is long. -/
theorem mem_packedTags_text {name : Byte} (text : name ≠ 101 ∧ name ≠ 112) (other : name ≠ 100) :
    ⟨name, value⟩ ∈ f.packedTags host
      ↔ ∃ tag ∈ f.tags, nameOf tag = [name] ∧ value = indexedTagValue host (valueOf tag) := by
  have plain : ¬(name = 101 ∨ name = 112) := not_or.mpr text
  rw [mem_packedTags other]
  simp only [packedTag_eq_some_iff, if_neg plain]

theorem find?_packed_d (tags : List (List Text)) :
    (tags.filterMap (packedTag host)).find? (fun tag => tag.name = 100)
      = (tags.find? fun tag => nameOf tag = [100]).map
          fun tag => ⟨100, indexedTagValue host (valueOf tag)⟩ := by
  induction tags with
  | nil => rfl
  | cons tag tags ih =>
    by_cases named : nameOf tag = [100]
    · have packedAs : packedTag host tag = some ⟨100, indexedTagValue host (valueOf tag)⟩ := by
        simp [packedTag, named]
      simp [packedAs, named]
    · rw [List.find?_cons_of_neg (by simpa using named), ← ih]
      cases packedAs : packedTag host tag with
      | none => rw [List.filterMap_cons_none packedAs]
      | some packed =>
        rw [List.filterMap_cons_some packedAs, List.find?_cons_of_neg]
        simp only [decide_eq_true_eq]
        intro isD
        exact named (isD ▸ packedTag_eq_some packedAs)

/-- **The first packed `d` of a replaceable or addressable event is that of its address.** -/
theorem Fields.Packs.firstDTag (packs : f.Packs host p) (versioned : isVersioned f.kind = true) :
    p.firstDTag = some (indexedTagValue host f.dTag) := by
  have empty : indexedTagValue host [] = [] := indexedTagValue_short host (by simp)
  rw [PackedEvent.firstDTag, packs.tags, Fields.packedTags, Fields.dTag]
  by_cases addressable : isParamReplaceableKind f.kind = true
  · have plain : isReplaceableKind f.kind = false := by
      rw [Bool.eq_false_iff]
      exact fun replaceable => not_both_kinds f.kind ⟨replaceable, addressable⟩
    rw [leadingD, plain, trailingD, if_pos addressable, if_pos addressable]
    simp only [Bool.false_eq_true, if_false, List.nil_append, List.find?_append, find?_packed_d]
    cases f.tags.find? fun tag => nameOf tag = [100] with
    | none => simp [empty]
    | some tag => simp
  · have replaceable : isReplaceableKind f.kind = true := by
      simpa [isVersioned, addressable] using versioned
    rw [leadingD, if_pos replaceable, if_neg addressable, empty]
    rfl

end Packed

/-! ### Addresses -/

variable {f g : Fields} {host : Host}

/-- An address of which only the newest version is kept. -/
def Address.Replaces (a : Address) : Prop :=
  isParamReplaceableKind a.kind = true ∨ isReplaceableKind a.kind = true ∧ a.d = []

theorem Fields.dTag_replaceable (replaceable : isReplaceableKind f.kind = true) :
    f.dTag = [] :=
  if_neg fun addressable => not_both_kinds f.kind ⟨replaceable, addressable⟩

theorem Fields.address_replaces (versioned : isVersioned f.kind = true) : f.address.Replaces := by
  rw [isVersioned, Bool.or_eq_true] at versioned
  rcases versioned with replaceable | addressable
  · exact .inr ⟨replaceable, Fields.dTag_replaceable replaceable⟩
  · exact .inl addressable

/-- A request names only addresses of its author. -/
theorem Describes.names_own {sig : Bytes} {e : ParsedEvent} (describes : Describes host g sig e)
    {a : Address} (small : a.kind ≤ 65535) (length : a.pubkey.length = 32)
    (names : g.NamesAddress a.spell) : g.pubkey = a.pubkey := by
  obtain ⟨isDeletion, tag, member, named, value⟩ := names
  obtain ⟨b, canonical, same⟩ := describes.canonical isDeletion tag member named
  obtain ⟨small', length', spelled⟩ := parseCanonicalATag_iff.mp canonical
  have equal := Address.spell_inj small' length' small length (spelled.symm.trans value)
  rw [← same, equal]

/-! ### Texts that are hashed -/

/-- The `d` of the address a tag value spells, if it spells one. -/
def addressD (tag : List Text) : Bytes :=
  ((parseATag (valueOf tag)).toOption.map Address.d).getD []

/-- The texts of an event whose SHA-256 are compared: its address, its `d`, its tag values, the
`d` of addresses among them, and what it signs. -/
def Fields.texts (f : Fields) : Set Bytes :=
  {s | s = f.address.spell ∨ s = f.dTag ∨ (∃ tag ∈ f.tags, s = valueOf tag ∨ s = addressD tag) ∨
    ∃ escaping, s = writeJson escaping f.signed}

/-- SHA-256 does not collide on the texts of these events. -/
def CollisionFree (host : Host) (events : Fields → Prop) : Prop :=
  Set.InjOn host.sha256 {s | ∃ f, events f ∧ s ∈ f.texts}

theorem Fields.dTag_valid (f : Fields) : utf8Valid f.dTag = true := by
  unfold dTag
  split_ifs
  · cases f.tags.find? fun tag => nameOf tag = [100] with
    | none => rfl
    | some tag => exact valueOf_valid tag
  · rfl

/-- **Versions with the same packed `d` have the same `d`.** -/
theorem CollisionFree.dTag_eq {events : Fields → Prop} (collisionFree : CollisionFree host events)
    (first : events f) (second : events g)
    (same : indexedTagValue host f.dTag = indexedTagValue host g.dTag) :
    f.dTag = g.dTag :=
  indexedTagValue_inj host (s := ⟨f.dTag, f.dTag_valid⟩) (t := ⟨g.dTag, g.dTag_valid⟩)
    (collisionFree ⟨f, first, .inr (.inl rfl)⟩ ⟨g, second, .inr (.inl rfl)⟩) same

/-- A tag value that hashes like an address is the address. -/
theorem CollisionFree.value_eq {events : Fields → Prop} (collisionFree : CollisionFree host events)
    (first : events f) (second : events g) {tag : List Text} (member : tag ∈ g.tags)
    (same : host.sha256 (valueOf tag) = host.sha256 f.address.spell) :
    valueOf tag = f.address.spell :=
  collisionFree ⟨g, second, .inr (.inr (.inl ⟨tag, member, .inl rfl⟩))⟩ ⟨f, first, .inl rfl⟩ same

end Wok.Event
