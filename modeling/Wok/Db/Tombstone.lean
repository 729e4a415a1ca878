/-
**Tombstones of addresses.**

A deletion request leaves a tombstone under the SHA-256 of each address it names. An incoming
replaceable or addressable event is refused when the *last* tombstone of its address, in the byte
order of the table, is not older than it. The timestamp ends the key little end first, so the last
tombstone need not be the newest.

* `posts_address` — a request leaves a tombstone of exactly the addresses it names.
* `checkVersions_eq` — **how an incoming version is judged.**
* `refusedAsDeleted_iff` — it is refused exactly when the request with the greatest timestamp
  bytes is not older.
-/

import Wok.Db.Sound

namespace Wok.Db

open Wok.Library Wok.Event List

/-! ### What a request posts -/

/-- The event with these fields is stored. -/
def StoredFields (host : Host) (t : Tables) (g : Fields) : Prop :=
  ∃ lev e sig, StoredAt t lev e ∧ Describes host g sig e

section Posting

variable {host : Host} {g : Fields} {sig : Bytes} {e : ParsedEvent}

theorem mem_deletionTags {p : PackedEvent} {name : Byte} {value : Bytes} :
    value ∈ deletionTags p name ↔ p.kind = deletionKind ∧ ⟨name, value⟩ ∈ p.tags := by
  unfold deletionTags deletionKind
  split_ifs with isDeletion
  · simp only [mem_map, mem_filter, decide_eq_true_eq, isDeletion, true_and]
    constructor
    · rintro ⟨tag, ⟨member, rfl⟩, rfl⟩
      exact member
    · exact fun member => ⟨_, ⟨member, rfl⟩, rfl⟩
  · simp [isDeletion]

section Described

variable (describes : Describes host g sig e)

include describes

theorem mem_deletionTags_id {id : Bytes} : id ∈ deletionTags e.packed 101 ↔ g.NamesId id := by
  rw [mem_deletionTags, describes.packs.kind, describes.packs.tags,
    mem_packedTags_id describes.packs.tagsOk (.inl rfl)]
  exact Iff.rfl

theorem mem_deletionTags_address {value : Bytes} :
    value ∈ deletionTags e.packed 97 ↔ g.kind = deletionKind ∧
      ∃ tag ∈ g.tags, nameOf tag = [97] ∧ value = indexedTagValue host (valueOf tag) := by
  rw [mem_deletionTags, describes.packs.kind, describes.packs.tags,
    mem_packedTags_text (by decide) (by decide)]

/-- The tombstone of an accepted `a` tag: under its own SHA-256, if it names an address. -/
theorem addressTombstones_eq (request : g.kind = deletionKind) {tag : List Text}
    (member : tag ∈ g.tags) (named : nameOf tag = [97]) {key : Bytes} :
    key ∈ (addressTombstones host e.packed (indexedTagValue host (valueOf tag))).1 ++
        (addressTombstones host e.packed (indexedTagValue host (valueOf tag))).2
      ↔ (255 < (valueOf tag).length ∨ ∃ a, parseATag (valueOf tag) = .ok a ∧ a.Replaces) ∧
        key = makeKeyStringU64 (host.sha256 (valueOf tag)) g.createdAt := by
  obtain ⟨a, canonical, own⟩ := describes.canonical request tag member named
  obtain ⟨small, length, spelled⟩ := parseCanonicalATag_iff.mp canonical
  have parsed : parseATag (valueOf tag) = .ok a := spelled ▸ parseATag_spell small length
  unfold addressTombstones
  rw [hashedTagValueDigest_valueOf, describes.packs.createdAt]
  by_cases short : (valueOf tag).length ≤ 255
  · have notLong : ¬255 < (valueOf tag).length := by omega
    have mine : ¬a.pubkey ≠ e.packed.pubkey := by rw [describes.packs.pubkey]; exact not_not.mpr own
    have plain : ¬a.spell ≠ valueOf tag := not_not.mpr spelled.symm
    have names : (∃ b, Except.ok a = (Except.ok b : Except EventError Address) ∧ b.Replaces)
        ↔ a.Replaces :=
      ⟨fun ⟨b, same, replaces⟩ => Except.ok.inj same ▸ replaces,
        fun replaces => ⟨a, rfl, replaces⟩⟩
    rw [if_pos short, indexedTagValue_short host short]
    simp only [valueOf_valid, if_true, parsed, if_neg mine, if_neg plain]
    rw [names]
    simp only [notLong, false_or, Address.Replaces]
    by_cases addressable : isParamReplaceableKind a.kind = true
    · simp [addressable]
    · by_cases replaceable : isReplaceableKind a.kind = true ∧ a.d = []
      · simp [addressable, replaceable, ← spelled]
      · simp [addressable, replaceable]
  · rw [if_neg short]
    have long : 255 < (valueOf tag).length := by omega
    simp [long]

/-- **A request leaves a tombstone of exactly the addresses it names.** -/
theorem posts_address {a : Address} (small : a.kind ≤ 65535) (length : a.pubkey.length = 32)
    (replaces : a.Replaces) (collisionFree : ∀ tag ∈ g.tags,
      host.sha256 (valueOf tag) = host.sha256 a.spell → valueOf tag = a.spell) :
    (indexEvent host e.packed).Posts Dbis.eventReplaceDeletion
        (makeKeyStringU64 (host.sha256 a.spell) g.createdAt) ↔ g.NamesAddress a.spell := by
  have listed : ∀ key, (indexEvent host e.packed).Posts Dbis.eventReplaceDeletion key
      ↔ ∃ value ∈ deletionTags e.packed 97, key ∈ (addressTombstones host e.packed value).1 ++
          (addressTombstones host e.packed value).2 := by
    intro key
    rw [posts_replaceDeletion]
    simp only [indexEvent, mem_append, mem_flatMap, and_or_left, exists_or]
  rw [listed]
  simp only [mem_deletionTags_address describes]
  constructor
  · rintro ⟨_, ⟨request, tag, member, named, rfl⟩, posted⟩
    obtain ⟨_, same⟩ := (addressTombstones_eq describes request member named).mp posted
    have digests := (makeKeyStringU64_inj same).1
    exact ⟨request, tag, member, named, collisionFree tag member digests.symm⟩
  · rintro ⟨request, tag, member, named, value⟩
    refine ⟨_, ⟨request, tag, member, named, rfl⟩, ?_⟩
    refine (addressTombstones_eq describes request member named).mpr ⟨.inr ⟨a, ?_, replaces⟩, ?_⟩
    · rw [value]
      exact parseATag_spell small length
    · rw [value]

end Described

end Posting

/-! ### Original values of hashed tags -/

section Originals

variable {host : Host} {f : Fields} {sig : Bytes} {e : ParsedEvent}

theorem nameOf_eq_iff {tag : List Text} {name : Byte} :
    nameOf tag = [name] ↔ tag.head?.map Text.bytes = some [name] := by
  unfold nameOf
  cases tag.head? <;> simp

theorem originalValue_strings (tag : List Text) :
    originalValue (tag.map .string) = valueOf tag := by
  unfold originalValue valueOf
  rw [getElem?_map]
  cases tag[1]? <;> rfl

/-- The long values of the tags `name`, read back from the stored JSON. -/
theorem hashedTagOriginals_eq (describes : Describes host f sig e) (name : String) {letter : Byte}
    (spelled : ascii name = [letter]) :
    ∃ originals, hashedTagOriginals host e.json name = .ok originals ∧
      ∀ x, x ∈ originals ↔ ∃ tag ∈ f.tags, nameOf tag = [letter] ∧ 255 < (valueOf tag).length ∧
        x = (host.sha256 (valueOf tag), valueOf tag) := by
  unfold hashedTagOriginals
  rw [describes.parsed]
  refine ⟨_, rfl, fun x => ?_⟩
  rw [tagsNamed, tagArrays_strings (f.stored_reads sig), spelled]
  simp only [mem_filterMap, mem_map, mem_filter, decide_eq_true_eq,
    Option.ite_none_right_eq_some, Option.some.injEq]
  constructor
  · rintro ⟨_, ⟨_, ⟨⟨tag, member, rfl⟩, named⟩, rfl⟩, long, rfl⟩
    rw [tagName_strings] at named
    rw [originalValue_strings] at long ⊢
    exact ⟨tag, member, nameOf_eq_iff.mpr named, long, rfl⟩
  · rintro ⟨tag, member, named, long, rfl⟩
    refine ⟨valueOf tag, ⟨tag.map .string, ⟨⟨tag, member, rfl⟩, ?_⟩, originalValue_strings tag⟩,
      long, rfl⟩
    rw [tagName_strings]
    exact nameOf_eq_iff.mp named

theorem originalOf_eq {originals : List (Bytes × Bytes)} {digest value : Bytes}
    (member : (digest, value) ∈ originals)
    (unique : ∀ x ∈ originals, x.1 = digest → x.2 = value) :
    originalOf originals digest = some value := by
  unfold originalOf
  cases found : originals.reverse.find? fun original => original.1 = digest with
  | none =>
    have absent := find?_eq_none.mp found _ (mem_reverse.mpr member)
    simp at absent
  | some x =>
    have inside := mem_reverse.mp (mem_of_find?_eq_some found)
    have same : x.1 = digest := by simpa using find?_some found
    exact congrArg some (unique x inside same)

/-- **The `d` of an accepted version is read back**, hashed or not. -/
theorem originalTagValue_d (describes : Describes host f sig e) {events : Fields → Prop}
    (collisionFree : CollisionFree host events) (here : events f) :
    originalTagValue host e.json "d" (indexedTagValue host f.dTag) = .ok f.dTag := by
  unfold originalTagValue
  rw [hashedTagValueDigest_indexedTagValue host ⟨f.dTag, f.dTag_valid⟩]
  by_cases short : f.dTag.length ≤ 255
  · rw [if_pos short, indexedTagValue_short host short]
  · rw [if_neg short]
    obtain ⟨originals, read, listed⟩ := hashedTagOriginals_eq describes "d" rfl
    obtain ⟨tag, member, named, value⟩ :
        ∃ tag ∈ f.tags, nameOf tag = [100] ∧ valueOf tag = f.dTag := by
      unfold Fields.dTag at short ⊢
      split_ifs at short ⊢
      · cases found : f.tags.find? fun tag => nameOf tag = [100] with
        | none => simp [found] at short
        | some tag =>
          exact ⟨tag, mem_of_find?_eq_some found, by simpa using find?_some found, rfl⟩
      · simp at short
    have original : originalOf originals (host.sha256 f.dTag) = some f.dTag := by
      refine originalOf_eq ((listed _).mpr ⟨tag, member, named, ?_, by rw [value]⟩) ?_
      · rw [value]
        omega
      · intro x inside same
        obtain ⟨other, otherMember, _, _, rfl⟩ := (listed x).mp inside
        exact collisionFree ⟨f, here, .inr (.inr (.inl ⟨other, otherMember, .inl rfl⟩))⟩
          ⟨f, here, .inr (.inl rfl)⟩ same
    simp only [read, ok_bind, original, okOr_some]

end Originals

/-! ### Versions of one address -/

section Versions

variable {host : Host} {f g : Fields} {sig sig' : Bytes} {e e' : ParsedEvent}
variable {versions : List (Nat × PackedEvent)}

/-- The key of an address in the replacement index. -/
def addressKey (host : Host) (a : Address) : Bytes :=
  makeKeyStringU64 (a.pubkey ++ indexedTagValue host a.d) a.kind

theorem replaceKey_eq (describes : Describes host f sig e) (versioned : isVersioned f.kind = true) :
    replaceKey e.packed = some (addressKey host f.address) := by
  rw [replaceKey, describes.packs.firstDTag versioned, describes.packs.pubkey, describes.packs.kind]
  rfl

/-- **The events under the key of an address are the versions of the address.** -/
theorem replaceKey_eq_iff (describes' : Describes host g sig' e')
    (versioned : isVersioned f.kind = true) {events : Fields → Prop}
    (collisionFree : CollisionFree host events) (here : events f) (there : events g) :
    replaceKey e'.packed = some (addressKey host f.address) ↔ g.address = f.address := by
  constructor
  · intro same
    rw [replaceKey, describes'.packs.pubkey, describes'.packs.kind] at same
    obtain ⟨d, first, equal⟩ := Option.map_eq_some_iff.mp same
    obtain ⟨strings, kinds⟩ := makeKeyStringU64_inj equal
    have kind : g.kind = f.kind := u64NeBytes_inj g.kind_lt f.kind_lt kinds
    rw [describes'.packs.firstDTag (kind ▸ versioned), Option.some.injEq] at first
    obtain ⟨pubkey, ds⟩ := append_inj strings (by
      rw [g.pubkey_length]
      exact f.pubkey_length.symm)
    have d := collisionFree.dTag_eq there here (first.trans ds)
    show Address.mk g.kind g.pubkey g.dTag = Address.mk f.kind f.pubkey f.dTag
    rw [kind, d, show g.pubkey = f.pubkey from pubkey]
  · intro same
    have kind : g.kind = f.kind := congrArg Address.kind same
    rw [replaceKey_eq describes' (kind ▸ versioned), same]

theorem before_iff (describes : Describes host f sig e) (describes' : Describes host g sig' e') :
    isEventABeforeEventB e.packed e'.packed = true ↔ Fields.Before f g := by
  rw [isEventABeforeEventB_iff, describes.packs.createdAt, describes'.packs.createdAt,
    describes.packs.id, describes'.packs.id]
  exact Iff.rfl

/-- Without a newer version every version is to be replaced. -/
theorem foldVersions_older {p : PackedEvent}
    (older : ∀ v ∈ versions, isEventABeforeEventB p v.2 = false) (seen : List Nat) :
    foldVersions (versionStep p) versions ⟨seen, false⟩
      = ⟨seen ++ versions.map Prod.fst, false⟩ := by
  induction versions generalizing seen with
  | nil => simp [foldVersions]
  | cons v versions ih =>
    have here := older v (.head _)
    simp only [foldVersions, versionStep, here, Bool.false_eq_true, if_false, if_true]
    rw [ih fun u member => older u (.tail v member)]
    simp

theorem foldVersions_newer {p : PackedEvent}
    (newer : ∃ v ∈ versions, isEventABeforeEventB p v.2 = true) (seen : List Nat) :
    (foldVersions (versionStep p) versions ⟨seen, false⟩).superseded = true := by
  induction versions generalizing seen with
  | nil => simp at newer
  | cons v versions ih =>
    by_cases here : isEventABeforeEventB p v.2 = true
    · simp [foldVersions, versionStep, here]
    · rw [exists_mem_cons_iff, or_iff_right here] at newer
      simpa [foldVersions, versionStep, here] using ih newer (seen ++ [v.1])

theorem addressKey_ne_nil (host : Host) (a : Address) : addressKey host a ≠ [] := makeKey_ne_nil _ _

end Versions

/-! ### Judging a version -/

/-- A stored deletion request by the author of `f` with an `a` tag equal to the address of `f`. -/
def Requests (host : Host) (t : Tables) (f g : Fields) : Prop :=
  StoredFields host t g ∧ g.pubkey = f.pubkey ∧ g.NamesAddress f.address.spell

/-- The request whose timestamp has the greatest bytes, little end first, is not older than `f`. -/
def LastRequestCovers (host : Host) (t : Tables) (f : Fields) : Prop :=
  ∃ g, Requests host t f g ∧ f.createdAt ≤ g.createdAt ∧
    ∀ g', Requests host t f g' → u64NeBytes g'.createdAt ≤ u64NeBytes g.createdAt

section Judging

variable {host : Host} {txn : RwTxn} {f : Fields} {sig : Bytes} {e : ParsedEvent}
  {events : Fields → Prop}

theorem Sound.fields {t : Tables} (sound : Sound host t) {lev : Nat} {p : PackedEvent}
    (stored : Holds t lev p) : ∃ g sig e, Describes host g sig e ∧ e.packed = p ∧ StoredAt t lev e := by
  obtain ⟨e, accepted, is, storedAt⟩ := sound.accepted lev p stored
  obtain ⟨g, sig, describes⟩ := accepted.describes
  exact ⟨g, sig, e, describes, is, storedAt⟩

/-- **The tombstones of an address are the requests that name it.** -/
theorem tombstoneAt_iff {t : Tables} (sound : Sound host t)
    (collisionFree : CollisionFree host events) (here : events f)
    (all : ∀ g, StoredFields host t g → events g) (versioned : isVersioned f.kind = true) {n : Nat} :
    TombstoneAt host t (host.sha256 f.address.spell) n
      ↔ ∃ g, Requests host t f g ∧ g.createdAt = n := by
  have posted : ∀ {g sig e}, StoredFields host t g → Describes host g sig e →
      ((indexEvent host e.packed).Posts Dbis.eventReplaceDeletion
        (makeKeyStringU64 (host.sha256 f.address.spell) g.createdAt)
          ↔ g.NamesAddress f.address.spell) := by
    intro g sig e stored describes
    exact posts_address describes f.kind_le f.pubkey_length (Fields.address_replaces versioned)
      fun tag member same => collisionFree.value_eq here (all g stored) member same
  constructor
  · rintro ⟨lev, p, stored, rfl, posts⟩
    obtain ⟨g, sig, e, describes, rfl, storedAt⟩ := sound.fields stored
    have storedG : StoredFields host t g := ⟨lev, e, sig, storedAt, describes⟩
    rw [describes.packs.createdAt, posted storedG describes] at posts
    exact ⟨g, ⟨storedG, describes.names_own f.kind_le f.pubkey_length posts, posts⟩,
      describes.packs.createdAt.symm⟩
  · rintro ⟨g, ⟨storedG, _, names⟩, rfl⟩
    obtain ⟨lev, e, sig, storedAt, describes⟩ := storedG
    exact ⟨lev, e.packed, storedAt.1, describes.packs.createdAt,
      (posted ⟨lev, e, sig, storedAt, describes⟩ describes).mpr names⟩

/-- **The tombstone check of a version** reads the last request. -/
theorem addressDeleted_eq (sound : Sound host txn.tables)
    (collisionFree : CollisionFree host events) (here : events f)
    (all : ∀ g, StoredFields host txn.tables g → events g) (describes : Describes host f sig e)
    (versioned : isVersioned f.kind = true) :
    ∃ found, addressDeleted host txn e.packed e.json (indexedTagValue host f.dTag) = .ok found ∧
      (found = true ↔ LastRequestCovers host txn.tables f) := by
  obtain ⟨found, check, covers⟩ := tombstoneCovers_eq sound.exact
    (host.sha256_length f.address.spell) f.createdAt
  refine ⟨found, ?_, covers.trans ?_⟩
  · rw [addressDeleted, originalTagValue_d describes collisionFree here, ok_bind,
      describes.packs.kind, describes.packs.pubkey, describes.packs.createdAt]
    exact check
  · simp only [tombstoneAt_iff sound collisionFree here all versioned]
    constructor
    · rintro ⟨_, ⟨g, request, rfl⟩, last, covered⟩
      exact ⟨g, request, covered, fun g' request' => last _ ⟨g', request', rfl⟩⟩
    · rintro ⟨g, request, covered, last⟩
      refine ⟨g.createdAt, ⟨g, request, rfl⟩, ?_, covered⟩
      rintro _ ⟨g', request', rfl⟩
      exact last g' request'

/-- **A version against the stored versions of its address**: replaced by a newer one, deleted by
the last request, or to take their place. -/
theorem checkVersions_eq (sound : Sound host txn.tables)
    (collisionFree : CollisionFree host events) (here : events f)
    (all : ∀ g, StoredFields host txn.tables g → events g) (describes : Describes host f sig e)
    (versioned : isVersioned f.kind = true) :
    (∃ g, StoredFields host txn.tables g ∧ g.address = f.address ∧ Fields.Before f g) ∧
      checkVersions host txn e.packed e.json .pending = .ok (.replaced, []) ∨
    (∀ g, StoredFields host txn.tables g → g.address = f.address → ¬Fields.Before f g) ∧
      ∃ found levs, (found = true ↔ LastRequestCovers host txn.tables f) ∧
        (∀ lev, lev ∈ levs ↔ ∃ g sig e, StoredAt txn.tables lev e ∧ Describes host g sig e ∧
          g.address = f.address) ∧
        checkVersions host txn e.packed e.json .pending
          = .ok (if found then .deleted else .pending, levs) := by
  have key : makeKeyStringU64 (e.packed.pubkey ++ indexedTagValue host f.dTag) e.packed.kind
      = addressKey host f.address := by
    rw [describes.packs.pubkey, describes.packs.kind]
    rfl
  obtain ⟨versions, listed, visit⟩ :=
    foreachReplacement_eq sound.exact (addressKey_ne_nil host f.address)
  obtain ⟨found, check, covers⟩ :=
    addressDeleted_eq sound collisionFree here all describes versioned
  -- A listed version is a stored event with the address.
  have isVersion : ∀ {lev p}, (lev, p) ∈ versions → ∃ g sig e', Describes host g sig e' ∧
      e'.packed = p ∧ StoredAt txn.tables lev e' ∧ g.address = f.address := by
    intro lev p member
    obtain ⟨stored, same⟩ := (listed lev p).mp member
    obtain ⟨g, sig', e', describes', rfl, storedAt⟩ := sound.fields stored
    exact ⟨g, sig', e', describes', rfl, storedAt, (replaceKey_eq_iff describes' versioned
      collisionFree here (all g ⟨lev, e', sig', storedAt, describes'⟩)).mp same⟩
  have inList : ∀ {lev g sig e'}, StoredAt txn.tables lev e' → Describes host g sig e' →
      g.address = f.address → (lev, e'.packed) ∈ versions := by
    intro lev g sig' e' storedAt describes' same
    exact (listed lev e'.packed).mpr ⟨storedAt.1, (replaceKey_eq_iff describes' versioned
      collisionFree here (all g ⟨lev, e', sig', storedAt, describes'⟩)).mpr same⟩
  have run : ∀ seen, foldVersions (versionStep e.packed) versions ⟨[], false⟩ = seen →
      checkVersions host txn e.packed e.json .pending = .ok (if seen.superseded then (.replaced, [])
        else (if found then .deleted else .pending, seen.candidates)) := by
    rintro _ rfl
    rw [checkVersions, describes.packs.kind, if_pos versioned, describes.packs.firstDTag versioned]
    simp only [← describes.packs.kind, key, visit, ok_bind, check, if_true]
    split_ifs <;> rfl
  by_cases newer : ∃ v ∈ versions, isEventABeforeEventB e.packed v.2 = true
  · left
    have superseded := run _ rfl
    rw [if_pos (foldVersions_newer newer [])] at superseded
    refine ⟨?_, superseded⟩
    obtain ⟨⟨lev, p⟩, member, before⟩ := newer
    obtain ⟨g, sig', e', describes', rfl, storedAt, same⟩ := isVersion member
    exact ⟨g, ⟨lev, e', sig', storedAt, describes'⟩, same,
      (before_iff describes describes').mp before⟩
  · right
    have older : ∀ v ∈ versions, isEventABeforeEventB e.packed v.2 = false := by
      intro v member
      rw [Bool.eq_false_iff]
      exact fun before => newer ⟨v, member, before⟩
    refine ⟨fun g stored same before => ?_, found, versions.map Prod.fst, covers, fun lev => ?_,
      run _ (foldVersions_older older [])⟩
    · obtain ⟨lev, e', sig', storedAt, describes'⟩ := stored
      exact newer ⟨_, inList storedAt describes' same, (before_iff describes describes').mpr before⟩
    · rw [mem_map]
      constructor
      · rintro ⟨⟨lev, p⟩, member, rfl⟩
        obtain ⟨g, sig', e', describes', _, storedAt, same⟩ := isVersion member
        exact ⟨g, sig', e', storedAt, describes', same⟩
      · rintro ⟨g, sig', e', storedAt, describes', same⟩
        exact ⟨_, inList storedAt describes' same, rfl⟩

end Judging

/-! ### Refusals -/

section Refusals

variable {σ : Type} {env : Services} {sink : NegentropySink σ} {w : Writer σ} {f : Fields}
  {sig : Bytes} {e : ParsedEvent}

/-- The open transaction of a run over accepted events. -/
def Reached (env : Services) (sink : NegentropySink σ) (w : Writer σ) : Prop :=
  ∃ trees steps, (∀ st ∈ steps, Step.AllAccepted env.host st) ∧
    w = ((Session.fresh trees).run env sink steps).writer

theorem Reached.sound (reached : Reached env sink w) : Sound env.host w.txn.tables := by
  obtain ⟨trees, steps, accepted, rfl⟩ := reached
  exact (run_sound env sink trees accepted).2

/-- The writer refuses the event as deleted. -/
def RefusedAsDeleted (env : Services) (sink : NegentropySink σ) (w : Writer σ) (e : ParsedEvent) :
    Prop :=
  ∃ w' done, writeEvents env sink w [ParsedEvent.toWrite e] = .ok (w', done) ∧
    done.map EventToWrite.status = [.deleted]

/-- An incoming replaceable or addressable event that only a tombstone of its address can refuse
as deleted: accepted, not a duplicate, not vanished, without an id tombstone, and not older than a
stored version of its address. -/
structure Incoming (host : Host) (txn : RwTxn) (f : Fields) (e : ParsedEvent) : Prop where
  accepted : Accepted host e
  described : ∃ sig, Describes host f sig e
  versioned : isVersioned f.kind = true
  notDuplicate : ∀ g, StoredFields host txn.tables g → g.id ≠ f.id
  notVanished : isEventVanishedRwWithJson host txn e.packed e.json = .ok false
  noIdTombstone : ∀ g, StoredFields host txn.tables g → g.pubkey = f.pubkey → ¬g.NamesId f.id
  notOlder : ∀ g, StoredFields host txn.tables g → g.address = f.address → ¬Fields.Before f g

/-- What the writer does with one event is decided by its judgement. -/
theorem refusedAsDeleted_iff_judge : RefusedAsDeleted env sink w e ↔
    ∃ levs, judge env .disabled w.txn e.packed (ParsedEvent.toWrite e) = .ok (.deleted, levs) := by
  have viewed : viewPacked (ParsedEvent.toWrite e).packed = .ok e.packed := viewPacked_buf e.packed
  have call : writeEvents env sink w [ParsedEvent.toWrite e]
      = (writeOne env sink .disabled 0 ⟨w, [], none, none⟩ (ParsedEvent.toWrite e)).map
          Batch.finish := by
    unfold writeEvents writeEventsWithPolicy writeEventsWithQuota
    rw [insertionSort_cons, insertionSort_nil, orderedInsert_nil, foldlM_cons]
    cases writeOne env sink .disabled 0 ⟨w, [], none, none⟩ (ParsedEvent.toWrite e) <;> rfl
  unfold RefusedAsDeleted
  constructor
  · rintro ⟨w', done, run, statuses⟩
    rw [call, map_eq_ok] at run
    obtain ⟨st, step, last⟩ := run
    have isDone : done = st.done := by rw [← st.finish_done, last]
    rw [isDone] at statuses
    cases writeOne_round step with
    | copied copy => cases copy
    | exceeded | written => cases statuses
    | @refused p status levs viewed' judged =>
      obtain rfl := Except.ok.inj (viewed.symm.trans viewed')
      have same : status = .deleted := (List.cons.inj statuses).1
      exact ⟨levs, same ▸ judged⟩
  · rintro ⟨levs, judged⟩
    have step : writeOne env sink .disabled 0 ⟨w, [], none, none⟩ (ParsedEvent.toWrite e)
        = .ok (Batch.settle ⟨w, [], none, none⟩ (ParsedEvent.toWrite e) .deleted) := by
      rw [writeOne, viewed, ok_bind]
      simp only [copyStatus, getLast?_nil, judged, ok_bind]
      rfl
    refine ⟨w, [{ ParsedEvent.toWrite e with status := .deleted }], ?_, rfl⟩
    rw [call, step]
    rfl

/-- An incoming version passes the checks before those of its address. -/
theorem Incoming.refusal (sound : Sound env.host w.txn.tables)
    (incoming : Incoming env.host w.txn f e) :
    refusal env.host .disabled w.txn e.packed e.json = .ok none := by
  obtain ⟨sig, describes⟩ := incoming.described
  have versioned := incoming.versioned
  have kind := describes.packs.kind
  have notRequest : e.packed.kind ≠ vanishKind := by
    rintro same
    rw [← kind, same] at versioned
    exact absurd versioned (by decide)
  have notWrap : giftWrapKinds.contains e.packed.kind = false := by
    rw [Bool.eq_false_iff, ne_eq, contains_iff_mem]
    intro wrap
    rw [← kind, not_isVersioned_giftWrap wrap] at versioned
    cases versioned
  have stored : ∀ {lev p}, Holds w.txn.tables lev p → ∃ g sig e', Describes env.host g sig e' ∧
      e'.packed = p ∧ StoredFields env.host w.txn.tables g := by
    intro lev p held
    obtain ⟨g, sig, e', describes', is, storedAt⟩ := sound.fields held
    exact ⟨g, sig, e', describes', is, lev, e', sig, storedAt, describes'⟩
  refine firstRefusal_none.mpr fun check member => ?_
  simp only [mem_cons, not_mem_nil, or_false] at member
  rcases member with rfl | rfl | rfl | rfl | rfl
  · rcases lookupEventById_eq sound.exact e.packed.id_length with
      ⟨lev, p, held, same, _⟩ | ⟨_, absent⟩
    · obtain ⟨g, sig', e', describes', rfl, storedG⟩ := stored held
      rw [describes'.packs.id, describes.packs.id] at same
      exact absurd same (incoming.notDuplicate g storedG)
    · rw [checkDuplicate, absent]
      rfl
  · simp [checkVanishTarget, VanishPolicy.disabled, refuseIf]
  · rw [checkVanished, if_neg notRequest, incoming.notVanished]
    rfl
  · have absent : ¬deletionExists w.txn e.packed.id e.packed.pubkey = true := by
      rw [deletionExists_iff sound.exact e.packed.pubkey_length]
      rintro ⟨lev, p, held, named, author⟩
      obtain ⟨g, sig', e', describes', rfl, storedG⟩ := stored held
      rw [mem_deletionTags_id describes', describes.packs.id] at named
      rw [describes'.packs.pubkey, describes.packs.pubkey] at author
      exact incoming.noIdTombstone g storedG author named
    rw [checkIdTombstone, if_neg fun all => absent all.2.2]
  · rw [checkRecipientTombstone, notWrap]
    rfl

/-- **An incoming version is refused as deleted exactly when the last request covers it.** -/
theorem refusedAsDeleted_iff (sound : Sound env.host w.txn.tables)
    (incoming : Incoming env.host w.txn f e)
    (collisionFree : CollisionFree env.host
      fun g => g = f ∨ StoredFields env.host w.txn.tables g) :
    RefusedAsDeleted env sink w e ↔ LastRequestCovers env.host w.txn.tables f := by
  obtain ⟨sig, describes⟩ := incoming.described
  have versioned := incoming.versioned
  have notDeletion : e.packed.kind ≠ deletionKind := by
    rintro same
    rw [← describes.packs.kind, same, not_isVersioned_deletion] at versioned
    cases versioned
  have request : ∀ levs, requestedDeletions env w.txn e.packed e.json levs = .ok levs :=
    fun levs => if_neg notDeletion
  rw [refusedAsDeleted_iff_judge]
  rcases checkVersions_eq sound collisionFree (.inl rfl) (fun g stored => .inr stored) describes
    versioned with ⟨⟨g, stored, same, before⟩, _⟩ | ⟨_, found, versions, covers, _, checked⟩
  · exact absurd before (incoming.notOlder g stored same)
  · have judged : judge env .disabled w.txn e.packed (ParsedEvent.toWrite e)
        = .ok (if found then .deleted else .pending, versions) := by
      have passed := Incoming.refusal sound incoming
      simp only [judge, ParsedEvent.toWrite, EventToWrite.new, passed, ok_bind, checked, request]
      rfl
    rw [judged, ← covers]
    cases found <;> simp

/-- **When a deletion request by address is honoured**: in every run over accepted events, that an
incoming version is refused as deleted exactly when a stored request of its author names its
address and is not older, holds if and only if, whenever there is such a request, the request
whose timestamp has the greatest bytes, little end first, is not older either. -/
theorem deletion_by_address_iff (reached : Reached env sink w)
    (incoming : Incoming env.host w.txn f e)
    (collisionFree : CollisionFree env.host
      fun g => g = f ∨ StoredFields env.host w.txn.tables g) :
    (RefusedAsDeleted env sink w e
        ↔ ∃ g, Requests env.host w.txn.tables f g ∧ f.createdAt ≤ g.createdAt)
      ↔ ((∃ g, Requests env.host w.txn.tables f g ∧ f.createdAt ≤ g.createdAt) →
          LastRequestCovers env.host w.txn.tables f) := by
  rw [refusedAsDeleted_iff reached.sound incoming collisionFree]
  constructor
  · exact fun same => same.mpr
  · intro covered
    refine ⟨?_, covered⟩
    rintro ⟨g, request, late, _⟩
    exact ⟨g, request, late⟩

end Refusals

/-! ### Two requests -/

/-- A 32-byte checksum in the place of SHA-256. -/
def checksum (s : Bytes) : Bytes :=
  leBytes 32 (s.foldl (fun sum b => (sum * 257 + b.val + 1) % 2 ^ 256) 0)

/-- A host with the checksum, on which every signature is valid. -/
def sampleHost : Host where
  sha256 := checksum
  sha256_length _ := leBytes_length 32 _
  validPubkey _ := true
  validSignature _ := true
  verifySchnorr _ _ _ := true
  f64 _ := none

def sampleServices : Services where
  host := sampleHost
  decompressRw _ _ _ := .error (.msg "no dictionary")
  payloadKind _ := none
  searchIndexEntries _ _ _ := .ok []

def samplePubkey : Bytes := List.replicate 32 7
def sampleSig : Bytes := List.replicate 64 1

/-- The event with these fields and the id they hash to. -/
def sampleFields (createdAt : Fin (2 ^ 64)) (kind : Fin 65536) (tags : List (List Text)) : Fields :=
  let draft : Fields := ⟨samplePubkey, samplePubkey, createdAt, kind, tags, .ofAscii "", rfl, rfl,
    createdAt.isLt, Nat.lt_succ_iff.mp kind.isLt⟩
  { draft with
    id := checksum (writeJson .nip01 draft.signed)
    id_length := leBytes_length 32 _ }

/-- What ingest makes of an event. -/
def sampleIngest (f : Fields) : Except EventError ParsedEvent :=
  parseAndVerifyEventWith sampleHost (f.stored sampleSig) .default none true false .nip01

def sampleEvent (f : Fields) : ParsedEvent :=
  match sampleIngest f with
  | .ok e => e
  | .error _ => ⟨⟨List.replicate 88 0, le_rfl⟩, []⟩

theorem sampleEvent_accepted {f : Fields} (passes : (sampleIngest f).isOk = true) :
    Accepted sampleHost (sampleEvent f) ∧ Describes sampleHost f sampleSig (sampleEvent f) := by
  have run : sampleIngest f = .ok (sampleEvent f) := by
    unfold sampleEvent
    cases ingested : sampleIngest f with
    | ok e => rfl
    | error e => simp [ingested, Except.isOk, Except.toBool] at passes
  refine ⟨⟨_, _, _, _, _, run⟩, ?_⟩
  obtain ⟨g, sig, reads, signature, describes⟩ := describes_of_ingest run
  obtain rfl : g = f := reads.unique (f.stored_reads sampleSig)
  have sameSig := Option.some.inj (signature.symm.trans (g.stored_sig sampleSig))
  obtain rfl : sig = sampleSig := hexText_inj (Value.string.inj sameSig)
  exact describes

def sampleAddress : Address := ⟨30000, samplePubkey, []⟩

theorem sampleAddress_valid : utf8Valid sampleAddress.spell = true := by decide +kernel

/-- A request to delete the address. -/
def sampleRequest (createdAt : Fin (2 ^ 64)) : Fields :=
  sampleFields createdAt 5 [[.ofAscii "a", ⟨sampleAddress.spell, sampleAddress_valid⟩]]

/-- A version of the address. -/
def sampleVersion (createdAt : Fin (2 ^ 64)) : Fields := sampleFields createdAt 30000 []

def sampleBatch : List EventToWrite :=
  [ParsedEvent.toWrite (sampleEvent (sampleRequest 255)),
    ParsedEvent.toWrite (sampleEvent (sampleRequest 256))]

/-- The transaction after the requests at 255 and 256 were written. -/
def sampleWriter : Writer Unit :=
  ((Session.fresh ()).run sampleServices noopNegentropy [.write .disabled 0 sampleBatch]).writer

theorem sampleRequest_passes : (sampleIngest (sampleRequest 255)).isOk = true ∧
    (sampleIngest (sampleRequest 256)).isOk = true := by decide +kernel

theorem sampleVersion_passes : (sampleIngest (sampleVersion 256)).isOk = true := by decide +kernel

theorem sampleWriter_reached : Reached sampleServices noopNegentropy sampleWriter := by
  refine ⟨(), _, ?_, rfl⟩
  intro st member
  rw [mem_singleton.mp member]
  intro ev inside
  rcases mem_cons.mp inside with rfl | inside
  · exact ⟨_, (sampleEvent_accepted sampleRequest_passes.1).1, rfl⟩
  · rw [mem_singleton.mp inside]
    exact ⟨_, (sampleEvent_accepted sampleRequest_passes.2).1, rfl⟩

theorem sampleWriter_rows :
    sampleWriter.txn.tables.rows Dbis.event
      = [(u64NeBytes 1, (sampleEvent (sampleRequest 255)).packed.buf),
        (u64NeBytes 2, (sampleEvent (sampleRequest 256)).packed.buf)] ∧
    sampleWriter.txn.tables.rows Dbis.eventPayload
      = [(u64NeBytes 1, encodeRawPayload (sampleEvent (sampleRequest 255)).json),
        (u64NeBytes 2, encodeRawPayload (sampleEvent (sampleRequest 256)).json)] := by
  decide +kernel

theorem parsedEvent_eq {e e' : ParsedEvent} (packed : e.packed = e'.packed)
    (json : e.json = e'.json) : e = e' := by
  cases e
  cases e'
  exact congr (congrArg ParsedEvent.mk packed) json

theorem sampleWriter_stored {g : Fields}
    (stored : StoredFields sampleHost sampleWriter.txn.tables g) :
    g = sampleRequest 255 ∨ g = sampleRequest 256 := by
  obtain ⟨lev, e, sig, ⟨⟨small, record⟩, payload⟩, describes⟩ := stored
  obtain ⟨records, payloads⟩ := sampleWriter_rows
  have payloadOf : ∀ {n m : Nat} {json json' : Bytes}, n < 2 ^ 64 → m < 2 ^ 64 →
      (u64NeBytes n, encodeRawPayload json) = (u64NeBytes m, encodeRawPayload json') →
        n = m ∧ json = json' := by
    intro n m json json' small small' same
    exact ⟨u64NeBytes_inj small small' (congrArg Prod.fst same),
      (List.cons.inj (congrArg Prod.snd same)).2⟩
  have recordOf : ∀ {n m : Nat} {p q : PackedEvent}, n < 2 ^ 64 → m < 2 ^ 64 →
      (u64NeBytes n, p.buf) = (u64NeBytes m, q.buf) → n = m ∧ p = q := by
    intro n m p q small small' same
    exact ⟨u64NeBytes_inj small small' (congrArg Prod.fst same),
      PackedEvent.ext_buf (congrArg Prod.snd same)⟩
  rw [records, mem_cons, mem_singleton] at record
  rw [payloads, mem_cons, mem_singleton] at payload
  rcases record with record | record
  · obtain ⟨rfl, packed⟩ := recordOf small (by decide) record
    rcases payload with payload | payload
    · have json := (payloadOf small (by decide) payload).2
      rw [parsedEvent_eq packed json] at describes
      exact .inl (describes.unique (sampleEvent_accepted sampleRequest_passes.1).2)
    · exact absurd (payloadOf small (by decide) payload).1 (by decide)
  · obtain ⟨rfl, packed⟩ := recordOf small (by decide) record
    rcases payload with payload | payload
    · exact absurd (payloadOf small (by decide) payload).1 (by decide)
    · have json := (payloadOf small (by decide) payload).2
      rw [parsedEvent_eq packed json] at describes
      exact .inr (describes.unique (sampleEvent_accepted sampleRequest_passes.2).2)

theorem sampleVersion_incoming : Incoming sampleHost sampleWriter.txn (sampleVersion 256)
    (sampleEvent (sampleVersion 256)) where
  accepted := (sampleEvent_accepted sampleVersion_passes).1
  described := ⟨_, (sampleEvent_accepted sampleVersion_passes).2⟩
  versioned := rfl
  notDuplicate g stored := by
    rcases sampleWriter_stored stored with rfl | rfl
    · decide +kernel
    · decide +kernel
  notVanished := by decide +kernel
  noIdTombstone g stored _ names := by
    obtain ⟨_, tag, member, named, _⟩ := names
    rcases sampleWriter_stored stored with rfl | rfl
    · rw [mem_singleton.mp member] at named
      exact absurd named (by decide)
    · rw [mem_singleton.mp member] at named
      exact absurd named (by decide)
  notOlder g stored same := by
    have kind := congrArg Address.kind same
    rcases sampleWriter_stored stored with rfl | rfl
    · exact absurd kind (by decide)
    · exact absurd kind (by decide)

/-- The texts hashed for the two requests and the version. -/
def sampleTexts : List Bytes :=
  [sampleVersion 256, sampleRequest 255, sampleRequest 256].flatMap fun f =>
    f.address.spell :: f.dTag :: writeJson .nip01 f.signed :: writeJson .tao f.signed
      :: f.tags.map valueOf ++ f.tags.map addressD

theorem sampleTexts_collisionFree : CollisionFree sampleHost fun g =>
    g = sampleVersion 256 ∨ StoredFields sampleHost sampleWriter.txn.tables g := by
  have apart : ∀ s ∈ sampleTexts, ∀ t ∈ sampleTexts, checksum s = checksum t → s = t := by
    decide +kernel
  have listed : ∀ f ∈ [sampleVersion 256, sampleRequest 255, sampleRequest 256],
      ∀ s ∈ f.texts, s ∈ sampleTexts := by
    intro f member s text
    refine mem_flatMap.mpr ⟨f, member, ?_⟩
    rcases text with rfl | rfl | ⟨tag, inside, rfl | rfl⟩ | ⟨escaping, rfl⟩
    · simp
    · simp
    · have value : valueOf tag ∈ f.tags.map valueOf := mem_map.mpr ⟨tag, inside, rfl⟩
      simp only [mem_append, mem_cons, value, or_true, true_or]
    · have d : addressD tag ∈ f.tags.map addressD := mem_map.mpr ⟨tag, inside, rfl⟩
      simp only [mem_append, d, or_true]
    · cases escaping <;> simp
  have one : ∀ {g s}, (g = sampleVersion 256 ∨
      StoredFields sampleHost sampleWriter.txn.tables g) → s ∈ g.texts → s ∈ sampleTexts := by
    rintro g s (rfl | stored) text
    · exact listed _ (.head _) s text
    · rcases sampleWriter_stored stored with rfl | rfl
      · exact listed _ (.tail _ (.head _)) s text
      · exact listed _ (.tail _ (.tail _ (.head _))) s
          text
  rintro s ⟨f, here, text⟩ t ⟨g, there, text'⟩ same
  exact apart s (one here text) t (one there text') same

theorem sampleRequest_requests : Requests sampleHost sampleWriter.txn.tables (sampleVersion 256)
    (sampleRequest 256) := by
  obtain ⟨records, payloads⟩ := sampleWriter_rows
  refine ⟨⟨2, _, _, ⟨⟨by decide, ?_⟩, ?_⟩, (sampleEvent_accepted sampleRequest_passes.2).2⟩, rfl,
    rfl, _, mem_singleton_self _, rfl, rfl⟩
  · rw [records]
    exact mem_cons_of_mem _ (mem_singleton_self _)
  · rw [payloads]
    exact mem_cons_of_mem _ (mem_singleton_self _)

/-- **A newer request goes unseen**: of the requests at 255 and 256 the check reads that at 255,
and a version at 256 is stored. -/
theorem newer_request_unseen :
    Reached sampleServices noopNegentropy sampleWriter ∧
    Incoming sampleHost sampleWriter.txn (sampleVersion 256) (sampleEvent (sampleVersion 256)) ∧
    (CollisionFree sampleHost fun g =>
      g = sampleVersion 256 ∨ StoredFields sampleHost sampleWriter.txn.tables g) ∧
    (∃ g, Requests sampleHost sampleWriter.txn.tables (sampleVersion 256) g ∧
      (sampleVersion 256).createdAt ≤ g.createdAt) ∧
    ¬RefusedAsDeleted sampleServices noopNegentropy sampleWriter
      (sampleEvent (sampleVersion 256)) := by
  refine ⟨sampleWriter_reached, sampleVersion_incoming, sampleTexts_collisionFree,
    ⟨_, sampleRequest_requests, le_rfl⟩, ?_⟩
  rintro ⟨w, done, run, statuses⟩
  have written : ((writeEvents sampleServices noopNegentropy sampleWriter
      [ParsedEvent.toWrite (sampleEvent (sampleVersion 256))]).toOption.map
        fun r => r.2.map EventToWrite.status) = some [.written] := by decide +kernel
  rw [run] at written
  have same : done.map EventToWrite.status = [.written] := Option.some.inj written
  rw [statuses] at same
  cases same

/-- The conditions are met by the version at 256, for which the equivalence fails. -/
theorem deletion_by_address_iff_sample :
    (RefusedAsDeleted sampleServices noopNegentropy sampleWriter (sampleEvent (sampleVersion 256))
        ↔ ∃ g, Requests sampleHost sampleWriter.txn.tables (sampleVersion 256) g ∧
          (sampleVersion 256).createdAt ≤ g.createdAt)
      ↔ ((∃ g, Requests sampleHost sampleWriter.txn.tables (sampleVersion 256) g ∧
          (sampleVersion 256).createdAt ≤ g.createdAt) →
        LastRequestCovers sampleHost sampleWriter.txn.tables (sampleVersion 256)) :=
  deletion_by_address_iff sampleWriter_reached sampleVersion_incoming
    sampleTexts_collisionFree

end Wok.Db
