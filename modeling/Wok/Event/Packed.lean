/-
**Packed events.**

An event is stored as a fixed header (id, author, time, kind, expiration) and its single-letter
tags, each as a name byte, a length byte and a value. A value over 255 bytes is packed as a marker
byte and its SHA-256.

* `walkTags_packTags` — **reading the tags of a built record gives the tags packed.**
* `build_*` — the header reads back.
* `hashedTagValueDigest_indexedTagValue`, `indexedTagValue_inj` — hashed values are told from text,
  and different values are packed differently unless SHA-256 collides.
-/

import Wok.Event.Json

namespace Wok.Event

open Wok.Library List

/-! ### Tag values -/

/-- Values up to this size are packed as they are (`MAX_INDEXED_TAG_VAL_SIZE`). -/
def maxIndexedTagValSize : Nat := 255

def packedHeaderLen : Nat := 88

/-- What a single-letter tag value occupies in a packed event and in index keys. -/
def indexedTagValue (host : Host) (value : Bytes) : Bytes :=
  if value.length ≤ maxIndexedTagValSize then value else 255 :: host.sha256 value

/-- The SHA-256 of the original value, when `indexed` is its hashed form. -/
def hashedTagValueDigest (indexed : Bytes) : Option Bytes :=
  match indexed with
  | marker :: digest => if marker = 255 ∧ digest.length = 32 then some digest else none
  | [] => none

theorem indexedTagValue_length (host : Host) (value : Bytes) :
    (indexedTagValue host value).length ≤ 255 := by
  unfold indexedTagValue maxIndexedTagValSize
  split_ifs with short
  · exact short
  · simp

theorem indexedTagValue_short (host : Host) {value : Bytes} (short : value.length ≤ 255) :
    indexedTagValue host value = value := if_pos short

theorem indexedTagValue_long (host : Host) {value : Bytes} (long : 255 < value.length) :
    indexedTagValue host value = 255 :: host.sha256 value :=
  if_neg (not_le.mpr long)

theorem hashedTagValueDigest_text {s : Bytes} (valid : utf8Valid s = true) :
    hashedTagValueDigest s = none := by
  cases s with
  | nil => rfl
  | cons b s =>
    have other : b ≠ 255 := utf8Valid_ne_max valid b (.head _)
    rw [hashedTagValueDigest, if_neg fun marker => other marker.1]

/-- **A packed text is hashed exactly when it is long**, and then names its SHA-256. -/
theorem hashedTagValueDigest_indexedTagValue (host : Host) (s : Text) :
    hashedTagValueDigest (indexedTagValue host s.bytes)
      = if s.bytes.length ≤ 255 then none else some (host.sha256 s.bytes) := by
  by_cases short : s.bytes.length ≤ 255
  · rw [if_pos short, indexedTagValue_short host short, hashedTagValueDigest_text s.valid]
  · rw [if_neg short, indexedTagValue_long host (not_le.mp short)]
    simp [hashedTagValueDigest]

/-- **Packing a text value loses nothing** on a set where SHA-256 does not collide. -/
theorem indexedTagValue_inj (host : Host) {s t : Text}
    (collisionFree : host.sha256 s.bytes = host.sha256 t.bytes → s.bytes = t.bytes)
    (same : indexedTagValue host s.bytes = indexedTagValue host t.bytes) :
    s.bytes = t.bytes := by
  have digests := congrArg hashedTagValueDigest same
  rw [hashedTagValueDigest_indexedTagValue, hashedTagValueDigest_indexedTagValue] at digests
  by_cases short : s.bytes.length ≤ 255 <;> by_cases short' : t.bytes.length ≤ 255
  · rwa [indexedTagValue_short host short, indexedTagValue_short host short'] at same
  · simp [short, short'] at digests
  · simp [short, short'] at digests
  · simp only [if_neg short, if_neg short', Option.some.injEq] at digests
    exact collisionFree digests

/-! ### The tags of a record -/

structure PackedEventTag where
  name : Byte
  value : Bytes
  deriving DecidableEq, Repr

/-- The tags in `b`, up to the first truncated one. -/
def walkTags : Nat → Bytes → List PackedEventTag
  | fuel + 1, name :: len :: rest =>
    if rest.length < len.val then []
    else ⟨name, rest.take len.val⟩ :: walkTags fuel (rest.drop len.val)
  | _, _ => []

/-- The tags in `b` as `walk_tags` passes them on: each with whether it ends the record. -/
def walkTagsLast : Nat → Bytes → List (PackedEventTag × Bool)
  | fuel + 1, name :: len :: rest =>
    if rest.length < len.val then []
    else
      (⟨name, rest.take len.val⟩, (rest.drop len.val).isEmpty)
        :: walkTagsLast fuel (rest.drop len.val)
  | _, _ => []

/-- One tag as `PackedEventTagBuilder::add` writes it. -/
def packTag (tag : PackedEventTag) : Bytes :=
  tag.name :: Fin.ofNat 256 tag.value.length :: tag.value

/-- Each element with whether it is the last. -/
def withLast {α : Type} : List α → List (α × Bool)
  | [] => []
  | a :: l => (a, l.isEmpty) :: withLast l

theorem walkTagsLast_packTags {tags : List PackedEventTag}
    (short : ∀ tag ∈ tags, tag.value.length ≤ 255) {fuel : Nat}
    (enough : (tags.flatMap packTag).length ≤ fuel) :
    walkTagsLast fuel (tags.flatMap packTag) = withLast tags := by
  induction tags generalizing fuel with
  | nil => cases fuel <;> rfl
  | cons tag tags ih =>
    have fits := short tag (.head _)
    have size : (Fin.ofNat 256 tag.value.length : Byte).val = tag.value.length :=
      Nat.mod_eq_of_lt (by omega)
    have last : (tags.flatMap packTag).isEmpty = tags.isEmpty := by
      cases tags with
      | nil => rfl
      | cons next tags => rfl
    simp only [flatMap_cons, length_append, packTag, length_cons] at enough
    obtain ⟨fuel, rfl⟩ : ∃ n, fuel = n + 1 := ⟨fuel - 1, by omega⟩
    show walkTagsLast (fuel + 1) (tag.name :: Fin.ofNat 256 tag.value.length
      :: (tag.value ++ tags.flatMap packTag)) = withLast (tag :: tags)
    rw [walkTagsLast, size, if_neg (by simp), take_left, drop_left, last,
      ih (fun other member => short other (.tail _ member)) (by omega), withLast]

theorem walkTags_eq (fuel : Nat) (b : Bytes) :
    walkTags fuel b = (walkTagsLast fuel b).map Prod.fst := by
  fun_induction walkTags fuel b with
  | case1 fuel name len rest short => simp [walkTagsLast, short]
  | case2 fuel name len rest short ih => simp [walkTagsLast, short, ih]
  | case3 => simp [walkTagsLast]

/-- **Reading built tags gives them back.** -/
theorem walkTags_packTags {tags : List PackedEventTag}
    (short : ∀ tag ∈ tags, tag.value.length ≤ 255) {fuel : Nat}
    (enough : (tags.flatMap packTag).length ≤ fuel) :
    walkTags fuel (tags.flatMap packTag) = tags := by
  rw [walkTags_eq, walkTagsLast_packTags short enough]
  clear short enough
  induction tags with
  | nil => rfl
  | cons tag tags ih => rw [withLast, map_cons, ih]

/-! ### Records -/

/-- A byte string long enough for the header. -/
structure PackedEvent where
  buf : Bytes
  long : packedHeaderLen ≤ buf.length
  deriving DecidableEq

/-- `PackedEventView::new`. -/
def PackedEvent.new (buf : Bytes) : Except EventError PackedEvent :=
  if long : packedHeaderLen ≤ buf.length then .ok ⟨buf, long⟩
  else .error (.msg "PackedEventView too short")

namespace PackedEvent

variable (p : PackedEvent)

def id : Bytes := p.buf.take 32
def pubkey : Bytes := (p.buf.drop 32).take 32
def createdAt : Nat := leVal ((p.buf.drop 64).take 8)
def kind : Nat := leVal ((p.buf.drop 72).take 8)
def expiration : Nat := leVal ((p.buf.drop 80).take 8)
def tags : List PackedEventTag := walkTags p.buf.length (p.buf.drop packedHeaderLen)

/-- The value of the first `d` tag. -/
def firstDTag : Option Bytes := (p.tags.find? fun tag => tag.name = 100).map PackedEventTag.value

@[simp] theorem new_buf : PackedEvent.new p.buf = .ok p := by
  rw [new, dif_pos p.long]

theorem new_ok {buf : Bytes} {p : PackedEvent} (read : PackedEvent.new buf = .ok p) :
    p.buf = buf := by
  unfold new at read
  split_ifs at read
  exact (Except.ok.inj read) ▸ rfl

theorem id_length : p.id.length = 32 := by
  have long : 88 ≤ p.buf.length := p.long
  simp only [id, length_take]
  omega

theorem pubkey_length : p.pubkey.length = 32 := by
  have long : 88 ≤ p.buf.length := p.long
  simp only [pubkey, length_take, length_drop]
  omega

theorem word_lt (n : Nat) : leVal ((p.buf.drop n).take 8) < 2 ^ 64 := by
  have bound := leVal_lt ((p.buf.drop n).take 8)
  have short : ((p.buf.drop n).take 8).length ≤ 8 := by
    simp only [length_take]
    omega
  calc leVal ((p.buf.drop n).take 8) < 256 ^ ((p.buf.drop n).take 8).length := bound
    _ ≤ 256 ^ 8 := Nat.pow_le_pow_right (by decide) short
    _ = 2 ^ 64 := by decide

theorem createdAt_lt : p.createdAt < 2 ^ 64 := p.word_lt 64
theorem kind_lt : p.kind < 2 ^ 64 := p.word_lt 72

/-! ### Building -/

/-- The bytes of a record. -/
def layout (id pubkey : Bytes) (createdAt kind expiration : Nat) (tags : Bytes) : Bytes :=
  id ++ (pubkey ++ (leBytes 8 createdAt ++ (leBytes 8 kind ++ (leBytes 8 expiration ++ tags))))

/-- `PackedEventBuilder::build`. -/
def build (id pubkey : Bytes) (createdAt kind expiration : Nat) (tags : Bytes) :
    Except EventError PackedEvent :=
  if id.length ≠ 32 then .error (.msg "unexpected id size")
  else if pubkey.length ≠ 32 then .error (.msg "unexpected pubkey size")
  else PackedEvent.new (layout id pubkey createdAt kind expiration tags)

theorem build_total {id pubkey : Bytes} (idLength : id.length = 32)
    (pubkeyLength : pubkey.length = 32) (createdAt kind expiration : Nat) (tags : Bytes) :
    ∃ p, build id pubkey createdAt kind expiration tags = .ok p ∧
      p.buf = layout id pubkey createdAt kind expiration tags := by
  have long : packedHeaderLen ≤ (layout id pubkey createdAt kind expiration tags).length := by
    simp only [layout, length_append, leBytes_length, packedHeaderLen]
    omega
  refine ⟨⟨_, long⟩, ?_, rfl⟩
  rw [build, if_neg (not_not.mpr idLength), if_neg (not_not.mpr pubkeyLength), new, dif_pos long]

section Layout

variable {p : PackedEvent} {id pubkey : Bytes} {createdAt kind expiration : Nat} {tags : Bytes}
  (idLength : id.length = 32) (pubkeyLength : pubkey.length = 32)
  (built : p.buf = layout id pubkey createdAt kind expiration tags)

include idLength built in
theorem layout_id : p.id = id := by
  rw [PackedEvent.id, built, layout, ← idLength, take_left]

include idLength built in
theorem layout_drop_id : p.buf.drop 32
    = pubkey ++ (leBytes 8 createdAt ++ (leBytes 8 kind ++ (leBytes 8 expiration ++ tags))) := by
  rw [built, layout, ← idLength, drop_left]

include idLength pubkeyLength built in
theorem layout_pubkey : p.pubkey = pubkey := by
  rw [PackedEvent.pubkey, layout_drop_id idLength built, ← pubkeyLength, take_left]

include idLength pubkeyLength built in
theorem layout_drop_header : p.buf.drop 64
    = leBytes 8 createdAt ++ (leBytes 8 kind ++ (leBytes 8 expiration ++ tags)) := by
  rw [show 64 = 32 + 32 from rfl, ← drop_drop, layout_drop_id idLength built,
    ← pubkeyLength, drop_left]

include idLength pubkeyLength built in
theorem layout_createdAt (small : createdAt < 2 ^ 64) : p.createdAt = createdAt := by
  rw [PackedEvent.createdAt, layout_drop_header idLength pubkeyLength built,
    take_left' (leBytes_length 8 createdAt), leVal_leBytes small]

include idLength pubkeyLength built in
theorem layout_kind (small : kind < 2 ^ 64) : p.kind = kind := by
  rw [PackedEvent.kind, show 72 = 64 + 8 from rfl, ← drop_drop,
    layout_drop_header idLength pubkeyLength built, drop_left' (leBytes_length 8 createdAt),
    take_left' (leBytes_length 8 kind), leVal_leBytes small]

include idLength pubkeyLength built in
theorem layout_expiration (small : expiration < 2 ^ 64) : p.expiration = expiration := by
  rw [PackedEvent.expiration, show 80 = 64 + (8 + 8) from rfl, ← drop_drop,
    ← drop_drop, layout_drop_header idLength pubkeyLength built,
    drop_left' (leBytes_length 8 createdAt), drop_left' (leBytes_length 8 kind),
    take_left' (leBytes_length 8 expiration), leVal_leBytes small]

include idLength pubkeyLength built in
theorem layout_drop_tags : p.buf.drop packedHeaderLen = tags := by
  rw [show packedHeaderLen = 64 + (8 + (8 + 8)) from rfl, ← drop_drop, ← drop_drop,
    ← drop_drop, layout_drop_header idLength pubkeyLength built,
    drop_left' (leBytes_length 8 createdAt), drop_left' (leBytes_length 8 kind),
    drop_left' (leBytes_length 8 expiration)]

end Layout

theorem layout_tags {p : PackedEvent} {id pubkey : Bytes} {createdAt kind expiration : Nat}
    {tags : List PackedEventTag} (idLength : id.length = 32) (pubkeyLength : pubkey.length = 32)
    (built : p.buf = layout id pubkey createdAt kind expiration (tags.flatMap packTag))
    (short : ∀ tag ∈ tags, tag.value.length ≤ 255) : p.tags = tags := by
  have rest := layout_drop_tags idLength pubkeyLength built
  have fits : (tags.flatMap packTag).length ≤ p.buf.length := by
    rw [← rest, length_drop]
    omega
  rw [PackedEvent.tags, rest, walkTags_packTags short fits]

end PackedEvent

/-! ### Replacement order -/

/-- Whether `a` is the earlier version: older, or as old with the greater id. -/
def isEventABeforeEventB (a b : PackedEvent) : Bool :=
  a.createdAt < b.createdAt || (a.createdAt = b.createdAt && b.id < a.id)

theorem isEventABeforeEventB_iff (a b : PackedEvent) :
    isEventABeforeEventB a b = true
      ↔ a.createdAt < b.createdAt ∨ a.createdAt = b.createdAt ∧ b.id < a.id := by
  simp [isEventABeforeEventB]

end Wok.Event
