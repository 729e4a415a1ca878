/-
**Moderation records.**

One table holds every record of the management interface, under a byte that says of which type it
is. Bans hide events, and so does the map of allowed kinds; the other records hide none. Roles and
blocked addresses are put and cleared like any record, so the calls about them are `putRecord` and
`clearRecord` with a payload and a value computed elsewhere.

* `ModerationChange` — the calls of the management interface.
* `ModerationChange.apply_moderates`, `Moderates.touches` — **a call changes no events and no index
  table.**
* `ModerationView.hides_of_empty` — an empty table hides nothing.
-/

import Wok.Db.Write

namespace Wok.Db

open Wok.Library Wok.Event

def Dbis.moderation : Nat := 19

/-! ### Records -/

inductive RecordType
  | bannedPubkey
  | allowedPubkey
  | bannedEvent
  | allowedEvent
  | blockedIp
  | reportedEvent
  | role
  | pubkeyRoles
  | kindPolicy
  | allowedKind
  deriving DecidableEq, Repr

/-- The first byte of the keys of a type. -/
def RecordType.byte : RecordType → Byte
  | .bannedPubkey => 66
  | .allowedPubkey => 65
  | .bannedEvent => 69
  | .allowedEvent => 86
  | .blockedIp => 73
  | .reportedEvent => 82
  | .role => 71
  | .pubkeyRoles => 80
  | .kindPolicy => 75
  | .allowedKind => 76

def maxReasonBytes : Nat := 512
def maxModerationRecords : Nat := 100000
def kindCount : Nat := 65536
def kindPolicyBytes : Nat := kindCount / 8

def prefixed (type : RecordType) (payload : Bytes) : Bytes := type.byte :: payload

section Records

variable (txn : RwTxn)

/-- The records of a type. -/
def countPrefix (type : RecordType) : Nat :=
  ((txn.tables.scan Dbis.moderation [type.byte] [] false).takeWhile
    fun e => e.1.head? = some type.byte).length

def putRecord (type : RecordType) (payload value : Bytes) (cap : Nat) : Except DbError RwTxn := do
  let key := prefixed type payload
  ensure ((txn.get Dbis.moderation key).isSome = true ∨ countPrefix txn type < cap)
    (.msg "moderation record limit reached")
  invalidateVisibility (txn.put Dbis.moderation key value)

def clearRecord (type : RecordType) (payload : Bytes) : Except DbError RwTxn :=
  invalidateVisibility (txn.delKey Dbis.moderation (prefixed type payload))

def validateReason (reason : Bytes) : Except DbError Unit :=
  ensure (reason.length ≤ maxReasonBytes) (.msg "reason exceeds 512 bytes")

/-- A record with a reason, which takes the records of the same payload in other lists away. -/
def putReason (type : RecordType) (payload reason : Bytes) (cleared : List RecordType) :
    Except DbError RwTxn := do
  validateReason reason
  let txn ← putRecord txn type payload reason maxModerationRecords
  cleared.foldlM (fun txn other => clearRecord txn other payload) txn

def banPubkey (pubkey reason : Bytes) : Except DbError RwTxn :=
  putReason txn .bannedPubkey pubkey reason [.allowedPubkey]

def unbanPubkey (pubkey : Bytes) : Except DbError RwTxn := clearRecord txn .bannedPubkey pubkey

def allowPubkey (pubkey reason : Bytes) : Except DbError RwTxn :=
  putReason txn .allowedPubkey pubkey reason [.bannedPubkey]

def unallowPubkey (pubkey : Bytes) : Except DbError RwTxn := clearRecord txn .allowedPubkey pubkey

/-- A banned event needs no moderation. -/
def banEvent (id reason : Bytes) : Except DbError RwTxn :=
  putReason txn .bannedEvent id reason [.allowedEvent, .reportedEvent]

def unbanEvent (id : Bytes) : Except DbError RwTxn := clearRecord txn .bannedEvent id

def allowEvent (id reason : Bytes) : Except DbError RwTxn :=
  putReason txn .allowedEvent id reason [.bannedEvent, .reportedEvent]

def unallowEvent (id : Bytes) : Except DbError RwTxn := clearRecord txn .allowedEvent id

/-- Whether the report was recorded; readers see no other state. -/
def reportEvent (id reason : Bytes) (newRecordsRemaining : Nat) :
    Except DbError (Bool × RwTxn) := do
  validateReason reason
  let key := prefixed .reportedEvent id
  if (txn.get Dbis.moderation key).isNone ∧ newRecordsRemaining = 0 then return (false, txn)
  else return (true, txn.put Dbis.moderation key reason)

def clearReportedEvent (id : Bytes) : Except DbError RwTxn := clearRecord txn .reportedEvent id

end Records

/-! ### Kinds -/

/-- A map of the allowed kinds, a bit for each. -/
structure KindPolicy where
  bits : Bytes
  size : bits.length = kindPolicyBytes

namespace KindPolicy

def allowAll : KindPolicy := ⟨List.replicate kindPolicyBytes 255, List.length_replicate⟩

def setAllowed (policy : KindPolicy) (kind : Nat) (allowed : Bool) : KindPolicy where
  bits := policy.bits.modify (kind / 8) fun byte =>
    if allowed then Fin.ofNat 256 (byte.val ||| 2 ^ (kind % 8))
    else Fin.ofNat 256 (byte.val &&& (255 ^^^ 2 ^ (kind % 8)))
  size := by rw [List.length_modify, policy.size]

end KindPolicy

def kindAllowed (bits : Bytes) (kind : Nat) : Bool :=
  (bits[kind / 8]?).any fun byte => byte.val.testBit (kind % 8)

section Kinds

variable (txn : RwTxn)

/-- The stored policy; none allows every kind. -/
def storedKindPolicy : Except DbError (Option KindPolicy) :=
  match txn.get Dbis.moderation (prefixed .kindPolicy []) with
  | none => .ok none
  | some raw =>
    if size : raw.length = kindPolicyBytes then .ok (some ⟨raw, size⟩)
    else .error (.msg "corrupt kind policy record")

def storeKindPolicy (policy : KindPolicy) : Except DbError RwTxn :=
  invalidateVisibility (txn.put Dbis.moderation (prefixed .kindPolicy []) policy.bits)

/-- The payload of a kind in the list of allowed kinds. -/
def kindPayload (kind : Nat) : Bytes := [Fin.ofNat 256 (kind / 256), Fin.ofNat 256 kind]

def checkKind (kind : Nat) : Except DbError Unit :=
  ensure (kind < kindCount) (.msg "kind must be between 0 and 65535")

/-- Without a policy every kind is allowed, and only the list changes. -/
def allowKind (kind : Nat) : Except DbError RwTxn := do
  checkKind kind
  let txn ← putRecord txn .allowedKind (kindPayload kind) [] kindCount
  match ← storedKindPolicy txn with
  | none => return txn
  | some policy => storeKindPolicy txn (policy.setAllowed kind true)

def disallowKind (kind : Nat) : Except DbError RwTxn := do
  checkKind kind
  let txn := txn.delKey Dbis.moderation (prefixed .allowedKind (kindPayload kind))
  let policy ← storedKindPolicy txn
  storeKindPolicy txn ((policy.getD .allowAll).setAllowed kind false)

end Kinds

/-! ### Changes -/

inductive ModerationChange
  | banPubkey (pubkey reason : Bytes)
  | unbanPubkey (pubkey : Bytes)
  | allowPubkey (pubkey reason : Bytes)
  | unallowPubkey (pubkey : Bytes)
  | banEvent (id reason : Bytes)
  | unbanEvent (id : Bytes)
  | allowEvent (id reason : Bytes)
  | unallowEvent (id : Bytes)
  | reportEvent (id reason : Bytes) (newRecordsRemaining : Nat)
  | clearReportedEvent (id : Bytes)
  | allowKind (kind : Nat)
  | disallowKind (kind : Nat)
  | putRecord (type : RecordType) (payload value : Bytes) (cap : Nat)
  | clearRecord (type : RecordType) (payload : Bytes)

def ModerationChange.apply (txn : RwTxn) : ModerationChange → Except DbError RwTxn
  | .banPubkey pubkey reason => Wok.Db.banPubkey txn pubkey reason
  | .unbanPubkey pubkey => Wok.Db.unbanPubkey txn pubkey
  | .allowPubkey pubkey reason => Wok.Db.allowPubkey txn pubkey reason
  | .unallowPubkey pubkey => Wok.Db.unallowPubkey txn pubkey
  | .banEvent id reason => Wok.Db.banEvent txn id reason
  | .unbanEvent id => Wok.Db.unbanEvent txn id
  | .allowEvent id reason => Wok.Db.allowEvent txn id reason
  | .unallowEvent id => Wok.Db.unallowEvent txn id
  | .reportEvent id reason remaining => (Wok.Db.reportEvent txn id reason remaining).map Prod.snd
  | .clearReportedEvent id => Wok.Db.clearReportedEvent txn id
  | .allowKind kind => Wok.Db.allowKind txn kind
  | .disallowKind kind => Wok.Db.disallowKind txn kind
  | .putRecord type payload value cap => Wok.Db.putRecord txn type payload value cap
  | .clearRecord type payload => Wok.Db.clearRecord txn type payload

/-! ### Frames -/

/-- What a change is made of: writes of moderation records, and new visibility generations. -/
inductive Moderates : RwTxn → RwTxn → Prop
  | records {txn : RwTxn} (t : Tables)
      (same : ∀ d, d ≠ Dbis.moderation → t.rows d = txn.tables.rows d) :
      Moderates txn { txn with tables := t }
  | invalidate {txn txn' : RwTxn} (run : invalidateVisibility txn = .ok txn') : Moderates txn txn'
  | trans {txn txn' txn'' : RwTxn} (first : Moderates txn txn') (second : Moderates txn' txn'') :
      Moderates txn txn''

section Frames

/-- The tables a change may touch. -/
def moderationTables : List Nat := [Dbis.moderation, Dbis.state]

variable {txn txn' : RwTxn}
variable {payload : Bytes} {type : RecordType}

theorem Moderates.refl (txn : RwTxn) : Moderates txn txn := .records txn.tables fun _ _ => rfl

theorem moderates_put (key value : Bytes) : Moderates txn (txn.put Dbis.moderation key value) :=
  .records _ fun _ other => Tables.rows_put_of_ne other

theorem moderates_delKey (key : Bytes) : Moderates txn (txn.delKey Dbis.moderation key) :=
  .records _ fun _ other => Tables.rows_delKey_of_ne other

theorem putRecord_moderates {value : Bytes} {cap : Nat}
    (run : putRecord txn type payload value cap = .ok txn') : Moderates txn txn' := by
  simp only [putRecord, bind_eq_ok, ensure_eq_ok] at run
  obtain ⟨_, _, invalidated⟩ := run
  exact (moderates_put _ _).trans (.invalidate invalidated)

theorem clearRecord_moderates (run : clearRecord txn type payload = .ok txn') :
    Moderates txn txn' :=
  (moderates_delKey _).trans (.invalidate run)

theorem putReason_moderates {reason : Bytes} {cleared : List RecordType}
    (run : putReason txn type payload reason cleared = .ok txn') : Moderates txn txn' := by
  simp only [putReason, bind_eq_ok] at run
  obtain ⟨_, _, put, stored, loop⟩ := run
  refine (putRecord_moderates stored).trans ?_
  refine foldlM_preserves (Moderates put) ?_ (.refl _) loop
  exact fun before other after _ moderates step => moderates.trans (clearRecord_moderates step)

theorem storeKindPolicy_moderates {policy : KindPolicy}
    (run : storeKindPolicy txn policy = .ok txn') : Moderates txn txn' :=
  (moderates_put _ _).trans (.invalidate run)

theorem reportEvent_moderates {id reason : Bytes} {remaining : Nat} {recorded : Bool}
    (run : reportEvent txn id reason remaining = .ok (recorded, txn')) : Moderates txn txn' := by
  simp only [reportEvent, bind_eq_ok] at run
  obtain ⟨_, _, run⟩ := run
  split_ifs at run
  · cases run
    exact .refl _
  · cases run
    exact moderates_put _ _

theorem allowKind_moderates {kind : Nat} (run : allowKind txn kind = .ok txn') :
    Moderates txn txn' := by
  simp only [allowKind, bind_eq_ok] at run
  obtain ⟨_, _, listed, put, policy, _, run⟩ := run
  refine (putRecord_moderates put).trans ?_
  cases policy with
  | none =>
    cases run
    exact .refl _
  | some policy => exact storeKindPolicy_moderates run

theorem disallowKind_moderates {kind : Nat} (run : disallowKind txn kind = .ok txn') :
    Moderates txn txn' := by
  simp only [disallowKind, bind_eq_ok] at run
  obtain ⟨_, _, policy, _, run⟩ := run
  exact (moderates_delKey _).trans (storeKindPolicy_moderates run)

/-- **What a change of the moderation records does.** -/
theorem ModerationChange.apply_moderates {change : ModerationChange}
    (run : change.apply txn = .ok txn') : Moderates txn txn' := by
  cases change with
  | banPubkey | allowPubkey | banEvent | allowEvent => exact putReason_moderates run
  | unbanPubkey | unallowPubkey | unbanEvent | unallowEvent | clearReportedEvent | clearRecord =>
    exact clearRecord_moderates run
  | reportEvent id reason remaining =>
    obtain ⟨⟨recorded, _⟩, reported, rfl⟩ := map_eq_ok.mp run
    exact reportEvent_moderates reported
  | allowKind kind => exact allowKind_moderates run
  | disallowKind kind => exact disallowKind_moderates run
  | putRecord type payload value cap => exact putRecord_moderates run

/-- **A change of the moderation records changes no other table**, the state table apart. -/
theorem Moderates.touches (moderates : Moderates txn txn') :
    Touches moderationTables txn txn' := by
  induction moderates with
  | records t same =>
    intro d outside
    exact same d fun inside => outside (by simp [inside, moderationTables])
  | invalidate run => exact (invalidateVisibility_touches run).mono (by simp [moderationTables])
  | trans _ _ first second => exact first.trans second

end Frames

/-! ### What a reader sees -/

/-- The records present in a snapshot, read once for many events. The lookups themselves are made
for each event. -/
structure ModerationView where
  tables : Tables
  filled : Bool
  bannedEvents : Bool
  bannedPubkeys : Bool
  kindPolicy : Option Bytes

namespace ModerationView

/-- Whether the table has a record of a type. -/
def has (t : Tables) (type : RecordType) : Bool :=
  ((t.scan Dbis.moderation [type.byte] [] false).head?).any fun e => e.1.head? = some type.byte

def new (t : Tables) : ModerationView :=
  let filled := (t.rows Dbis.moderation).length ≠ 0
  { tables := t
    filled := filled
    bannedEvents := filled && has t .bannedEvent
    bannedPubkeys := filled && has t .bannedPubkey
    kindPolicy := if filled then t.get Dbis.moderation (prefixed .kindPolicy []) else none }

/-- The id, the author or the kind of the event is moderated. -/
def hides (view : ModerationView) (p : PackedEvent) : Bool :=
  view.filled &&
    (view.bannedEvents && (view.tables.get Dbis.moderation (prefixed .bannedEvent p.id)).isSome ||
      view.bannedPubkeys &&
        (view.tables.get Dbis.moderation (prefixed .bannedPubkey p.pubkey)).isSome ||
      view.kindPolicy.any fun bits => !kindAllowed bits p.kind)

theorem hides_of_empty {t : Tables} (empty : t.rows Dbis.moderation = []) (p : PackedEvent) :
    (new t).hides p = false := by
  have unfilled : (new t).filled = false := by simp [new, empty]
  rw [hides, unfilled, Bool.false_and]

end ModerationView

end Wok.Db
