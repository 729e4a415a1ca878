/-
**Ingest: packing and verifying an event.**

`parseAndVerifyEventWith` turns the JSON of an event into its packed record and its stored JSON,
or refuses it. The checks, their order and their messages are the source's.
-/

import Wok.Event.Packed
import Wok.Event.Address

namespace Wok.Event

open Wok.Library

/-! ### Reading fields -/

/-- A size. -/
abbrev Usize := Fin (2 ^ 64)

structure EventLimits where
  maxEventSize : Usize
  maxNumTags : Usize
  maxTagValSize : Usize

def EventLimits.default : EventLimits := ⟨1024 * 1024, 5000, 1024⟩

/-- Every limit at `usize::MAX`. -/
def EventLimits.unlimited : EventLimits := ⟨Fin.last _, Fin.last _, Fin.last _⟩

/-- The smallest explicit expiration a packed event can hold. -/
def minRepresentableExpiration : Nat := 100

def jsonGetString (v : Value) (err : String) : Except EventError Text := okOr v.asStr (.msg err)

def jsonGetUnsigned (v : Value) (err : String) : Except EventError Nat := okOr v.asU64 (.msg err)

def jsonGetArray (v : Value) (err : String) : Except EventError (List Value) :=
  okOr v.asArray (.msg err)

/-- A field that must be there. -/
def field (v : Value) (key : String) : Except EventError Value :=
  okOr (v.get key) (.msg ("missing " ++ key))

/-- Decode exactly `n` bytes of lowercase hex. -/
def fromLowerHexArray (n : Nat) (s : Bytes) : Except EventError Bytes := do
  ensure (s.all isLowerHex = true) (.msg "hex must be lowercase ASCII")
  let bytes ← okOr (fromLowerHex s) (.msg "hex decode: Odd number of digits")
  ensure (bytes.length = n) (.msg "hex decode: Invalid string length")
  return bytes

/-- An identifier field: a string of `2 * n` hex digits. -/
def hexField (v : Value) (key what size : String) (n : Nat) : Except EventError Bytes := do
  let s ← jsonGetString (← field v key) what
  ensure (s.bytes.length = 2 * n) (.msg size)
  fromLowerHexArray n s.bytes

def parseUint64 (s : Bytes) : Except EventError Nat :=
  okOr (parseU64 s) (.quoting "invalid uint64: " s "")

/-- The first two strings of a tag; a missing second one is empty. -/
def tagName (tag : List Value) : Option Text := tag.head?.bind Value.asStr

def tagValue (tag : List Value) : Option Text :=
  match tag[1]? with
  | some v => v.asStr
  | none => some ⟨[], rfl⟩

/-- The tags of an event, those that are arrays. -/
def tagArrays (v : Value) : List (List Value) :=
  (((v.get "tags").bind Value.asArray).getD []).filterMap Value.asArray

/-- The tags named `name`. -/
def tagsNamed (v : Value) (name : String) : List (List Value) :=
  (tagArrays v).filter fun tag => (tagName tag).map Text.bytes = some (ascii name)

/-- The NIP-40 expiration as packing reads it: none when absent or malformed. -/
def expirationTag (v : Value) : Option Nat := do
  let tag ← (tagsNamed v "expiration").head?
  parseU64 (← (← tag[1]?).asStr).bytes

/-! ### Packing -/

/-- What the loop over the tags has gathered. -/
structure Packing where
  tags : List PackedEventTag
  expiration : Nat
  addressDSeen : Bool

/-- `PackedEventTagBuilder::add`. -/
def Packing.add (st : Packing) (name : Byte) (value : Bytes) : Except EventError Packing := do
  ensure (value.length ≤ 255) (.msg "tagVal too long")
  return { st with tags := st.tags ++ [⟨name, value⟩] }

/-- The size of the `a` tag that would name an addressable event with this `d`. -/
def aTagLen (kind : Nat) (d : Bytes) : Nat := (decimal kind).length + 1 + 64 + 1 + d.length

/-- The first `d` of an addressable event must leave room for its `a` tag. -/
def checkAddress (limits : EventLimits) (kind : Nat) (st : Packing) (name : Byte) (value : Bytes) :
    Except EventError Packing :=
  if name = 100 ∧ st.addressDSeen = false then do
    ensure (aTagLen kind value ≤ limits.maxTagValSize.val) (.limit .tagValSize
      ("d tag too large: its a tag would be " ++ toString (aTagLen kind value) ++ " bytes"))
    return { st with addressDSeen := true }
  else .ok st

/-- A deletion request may name only its author's addresses. -/
def checkDeletion (kind : Nat) (pubkey : Bytes) (name : Byte) (value : Bytes) :
    Except EventError Unit :=
  if name = 97 ∧ kind = 5 then do
    let address ← parseATag value
    ensure (address.pubkey = pubkey) (.msg "can't delete other user's events")
  else .ok ()

def fixedSizeMessage (name : Byte) : String :=
  "unexpected size for fixed-size tag: " ++ if name = 101 then "e" else "p"

/-- A tag with a one-byte name. -/
def packSingleLetter (host : Host) (limits : EventLimits) (kind : Nat) (pubkey : Bytes)
    (st : Packing) (name : Byte) (value : Bytes) : Except EventError Packing := do
  ensure (value.length ≤ limits.maxTagValSize.val)
    (.limit .tagValSize ("tag val too large: " ++ toString value.length))
  let st ← checkAddress limits kind st name value
  if name = 101 ∨ name = 112 then
    ensure (value.length = 64) (.msg (fixedSizeMessage name))
    st.add name (← fromLowerHexArray 32 value)
  else
    checkDeletion kind pubkey name value
    st.add name (indexedTagValue host value)

/-- The first `expiration` tag. -/
def packExpiration (st : Packing) (value : Bytes) : Except EventError Packing := do
  let expiration ← parseUint64 value
  ensure (minRepresentableExpiration ≤ expiration) (.msg "invalid expiration")
  return { st with expiration := expiration }

/-- One round of the loop over the tags. -/
def packOne (host : Host) (limits : EventLimits) (kind : Nat) (pubkey : Bytes) (st : Packing)
    (tagArr : Value) : Except EventError Packing := do
  let tag ← jsonGetArray tagArr "tag in tags field was not an array"
  ensure (tag.isEmpty = false) (.msg "too few fields in tag")
  ensure ((tag.all fun element => element.asStr.isSome) = true)
    (.msg "all tag elements must be strings")
  let name ← okOr (tagName tag) (.msg "tag name was not a string")
  let value ← okOr (tagValue tag) (.msg "tag val was not a string")
  match name.bytes with
  | [letter] => packSingleLetter host limits kind pubkey st letter value.bytes
  | _ =>
    if name.bytes = ascii "expiration" ∧ st.expiration = 0 then packExpiration st value.bytes
    else return st

/-- The empty `d` packing adds in front of a replaceable event's tags. -/
def leadingD (kind : Nat) : List PackedEventTag := if isReplaceableKind kind then [⟨100, []⟩] else []

/-- The empty `d` packing adds behind an addressable event's tags. -/
def trailingD (kind : Nat) : List PackedEventTag :=
  if isParamReplaceableKind kind then [⟨100, []⟩] else []

/-- The loop of `foreach_filter_tag`: the tags without the empty `d` that packing added. -/
def visibleTags (replaceable addressable : Bool) :
    (first dSeen : Bool) → List (PackedEventTag × Bool) → List PackedEventTag
  | _, _, [] => []
  | first, dSeen, (tag, last) :: rest =>
    let added := tag.name = 100 ∧ tag.value = [] ∧
      ((replaceable && first) || (addressable && dSeen && last))
    let later := visibleTags replaceable addressable false (dSeen || tag.name = 100) rest
    if added then later else tag :: later

/-- The tags that tag filters see. -/
def PackedEvent.filterTags (p : PackedEvent) : List PackedEventTag :=
  visibleTags (isReplaceableKind p.kind) (isParamReplaceableKind p.kind) true false
    (walkTagsLast p.buf.length (p.buf.drop packedHeaderLen))

/-- `pack_event`: the packed record and the expiration tag's value (0 when there is none). -/
def packEvent (host : Host) (limits : EventLimits) (v : Value) :
    Except EventError (PackedEvent × Nat) := do
  ensure (v.isObject = true) (.msg "event is not an object")
  let id ← hexField v "id" "event id field was not a string" "unexpected id size" 32
  let pubkey ←
    hexField v "pubkey" "event pubkey field was not a string" "unexpected pubkey size" 32
  let createdAt ← jsonGetUnsigned (← field v "created_at")
    "event created_at field was not an integer"
  let kind ← jsonGetUnsigned (← field v "kind") "event kind field was not an integer"
  ensure (kind ≤ 65535) (.msg "event kind must be between 0 and 65535")
  let _ ← jsonGetString (← field v "content") "event content field was not a string"
  let tags ← jsonGetArray (← field v "tags") "tags field not an array"
  ensure (tags.length ≤ limits.maxNumTags.val)
    (.limit .numTags ("too many tags: " ++ toString tags.length))
  let st ← tags.foldlM (packOne host limits kind pubkey)
    ⟨leadingD kind, 0, !isParamReplaceableKind kind⟩
  let packed ← PackedEvent.build id pubkey createdAt kind
    (if isEphemeralKind kind then 1 else st.expiration)
    ((st.tags ++ trailingD kind).flatMap packTag)
  return (packed, st.expiration)

/-! ### Deletion protection -/

/-- A canonical decimal `u64`. -/
def isCanonicalU64 (s : Bytes) : Bool :=
  (parseU64 s).isSome && !(1 < s.length && s.head? = some 48)

/-- The expiration a protected event may carry: at most one, with one canonical value. -/
def protectedExpirationOk (expirations : List (List Value)) : Bool :=
  match expirations with
  | [] => true
  | [tag] =>
    tag.length = 2 && isCanonicalU64 (((tag[1]?.bind Value.asStr).map Text.bytes).getD [])
  | _ => false

/-- `deletion_protection`: whether the event opts in with `["no_delete"]`. -/
def deletionProtection (v : Value) : Except EventError Bool :=
  match tagsNamed v "no_delete" with
  | [] => .ok false
  | marker :: others => do
    ensure (marker.length = 1 ∧ others.isEmpty = true)
      (.msg "expected exactly one [\"no_delete\"] tag")
    ensure (protectedExpirationOk (tagsNamed v "expiration") = true)
      (.msg "no_delete requires one canonical u64 expiration value")
    let kind ← okOr ((v.get "kind").bind Value.asU64) (.msg "event kind field was not an integer")
    ensure ((isVersioned kind || isEphemeralKind kind) = false)
      (.restricted "no_delete is only allowed on regular event kinds")
    return true

/-! ### Ids and signatures -/

def preimageKeys : List String := ["pubkey", "created_at", "kind", "tags", "content"]

/-- `id_preimage`: compact JSON of `[0, pubkey, created_at, kind, tags, content]`. -/
def idPreimage (v : Value) (escaping : Escaping) : Except EventError Bytes := do
  let fields ← preimageKeys.mapM fun key => (field v key).map fun w => 44 :: writeJson escaping w
  return ascii "[0" ++ fields.flatten ++ ascii "]"

/-- Which id preimages verification accepts. -/
inductive IdPreimage
  | nip01
  | nip01OrLegacy
  deriving DecidableEq, Repr

def verifyId (host : Host) (v : Value) (packedId : Bytes) : Except EventError Unit := do
  let preimage ← idPreimage v .nip01
  ensure (host.sha256 preimage = packedId) (.msg "bad event id")

/-- Also accepts the legacy preimage, which differs only where `U+007F` occurs. -/
def verifyIdAllowingLegacy (host : Host) (v : Value) (packedId : Bytes) :
    Except EventError Unit := do
  let preimage ← idPreimage v .nip01
  if host.sha256 preimage = packedId then .ok ()
  else
    ensure (127 ∈ preimage) (.msg "bad event id")
    let legacy ← idPreimage v .tao
    ensure (host.sha256 legacy = packedId) (.msg "bad event id")

def verifyIdAs (host : Host) (ids : IdPreimage) (v : Value) (packedId : Bytes) :
    Except EventError Unit :=
  match ids with
  | .nip01 => verifyId host v packedId
  | .nip01OrLegacy => verifyIdAllowingLegacy host v packedId

def verifySig (host : Host) (sig hash pubkey : Bytes) : Except EventError Bool := do
  ensure (sig.length = 64 ∧ hash.length = 32 ∧ pubkey.length = 32)
    (.msg "verify sig: bad input size")
  ensure (host.validPubkey pubkey = true) (.msg "verify sig: bad pubkey")
  ensure (host.validSignature sig = true) (.msg "verify sig: bad signature")
  return host.verifySchnorr sig hash pubkey

def verifyNostrEventWith (host : Host) (p : PackedEvent) (v : Value) (ids : IdPreimage) :
    Except EventError Unit := do
  verifyIdAs host ids v p.id
  let sig ← hexField v "sig" "event sig was not a string" "unexpected signature size" 64
  let valid ← verifySig host sig p.id p.pubkey
  ensure (valid = true) (.msg "bad signature")

/-! ### Limits and times -/

structure TimestampPolicy where
  nowSecs : Nat
  rejectNewerThanSecs : Nat
  rejectOlderThanSecs : Nat
  rejectEphemeralOlderThanSecs : Nat

def verifyEventTimestamp (p : PackedEvent) (policy : TimestampPolicy) : Except EventError Unit := do
  let now := policy.nowSecs
  let ephemeral := p.expiration = 1
  let maxAge :=
    if ephemeral then policy.rejectEphemeralOlderThanSecs
    else if policy.rejectOlderThanSecs = 0 then 2 ^ 64 - 1
    else policy.rejectOlderThanSecs
  let earliest := now - maxAge
  let latest := min (now + policy.rejectNewerThanSecs) (2 ^ 64 - 1)
  ensure (earliest ≤ p.createdAt)
    (if ephemeral then .limit .ephemeralTooOld "ephemeral event expired"
      else .limit .tooOld "created_at too early")
  ensure (p.createdAt ≤ latest) (.limit .tooNew "created_at too late")
  ensure (¬(1 < p.expiration ∧ p.expiration ≤ now)) (.msg "event expired")

/-- The authenticated fields, in key order. -/
def normalKeys : List String := ["content", "created_at", "id", "kind", "pubkey", "sig", "tags"]

/-- `normalize_event_json`: only the authenticated fields, written like `tao::json`. -/
def normalizeEventJson (v : Value) : Except EventError Bytes := do
  let fields ← normalKeys.mapM fun key =>
    (field v key).map fun w => 34 :: ascii key ++ 34 :: 58 :: writeJson .tao w
  return 123 :: commaSep fields ++ [125]

/-- `require_canonical_addresses`: no `a` tag spells its kind with leading zeros. -/
def requireCanonicalAddresses (v : Value) : Except EventError Unit :=
  (tagsNamed v "a").forM fun tag =>
    match tag[1]?.bind Value.asStr with
    | some address => (parseCanonicalATag address.bytes).map fun _ => ()
    | none => .ok ()

/-! ### The whole check -/

/-- A record and its stored JSON. -/
structure ParsedEvent where
  packed : PackedEvent
  json : Bytes

/-- The time checks. An ephemeral record does not hold its `expiration`, so that is checked too. -/
def verifyTimes (p : PackedEvent) (expiration : Nat) (policy : Option TimestampPolicy) :
    Except EventError Unit := do
  let policy ← okOr policy (.msg "timestamp policy required")
  verifyEventTimestamp p policy
  ensure (¬(expiration ≠ 0 ∧ expiration ≤ policy.nowSecs)) (.msg "event expired")

/-- `parse_and_verify_event_with`. -/
def parseAndVerifyEventWith (host : Host) (v : Value) (limits : EventLimits)
    (policy : Option TimestampPolicy) (verifyMsg verifyTime : Bool) (ids : IdPreimage) :
    Except EventError ParsedEvent := do
  ensure (v.isObject = true) (.msg "event is not an object")
  let isProtected ← deletionProtection v
  ensure (¬(isProtected = true ∧ ((expirationTag v).any (· < minRepresentableExpiration)) = true))
    (.restricted "expiration is outside the supported storage range")
  let (packed, expiration) ← packEvent host limits v
  onlyIf (packed.kind = deletionKind) (requireCanonicalAddresses v)
  let json ← normalizeEventJson v
  onlyIf (verifyMsg = true) (ensure (json.length ≤ limits.maxEventSize.val)
    (.limit .eventSize ("event too large: " ++ toString json.length)))
  onlyIf (verifyTime = true) (verifyTimes packed expiration policy)
  onlyIf (verifyMsg = true) (verifyNostrEventWith host packed v ids)
  return ⟨packed, json⟩

end Wok.Event
