/-
**Who may read an event.**

A reader sees an event when its kind is open to the reader and nothing hides it from every reader:
it is no `AUTH` event, it has not expired, its author and recipients have not vanished, it is not
moderated, and no newer version of its address is stored. The tables that can hide an event are
looked at once for a snapshot, and those that are empty are not asked again.

* `ReadVisibility.allows` — the check made for every event.
* `shouldSendToIdentities_nil` — an anonymous reader sees exactly the open kinds.
-/

import Wok.Db.Vanish
import Wok.Query.Group
import Wok.Query.Pending

namespace Wok.Query

open Wok.Library Wok.Event Wok.Db

/-! ### Restricted kinds -/

/-- Who may read events of a kind, each class fewer readers than the one before. -/
inductive ReadClass
  | «open»
  | authenticated
  | recipient
  | owner
  deriving DecidableEq, Repr

structure ReadRestrictor where
  recipientOnly : List Nat
  ownerOnly : List Nat
  authenticated : List Nat

namespace ReadRestrictor

variable (r : ReadRestrictor)

/-- The strictest class the kind is listed in. -/
def «class» (kind : Nat) : ReadClass :=
  if r.ownerOnly.contains kind then .owner
  else if r.recipientOnly.contains kind then .recipient
  else if r.authenticated.contains kind then .authenticated
  else .open

def restrictedKinds : List Nat := r.ownerOnly ++ r.recipientOnly ++ r.authenticated

def isRestrictedKind (kind : Nat) : Bool := r.class kind ≠ .open

/-- The first `p` tag with an identifier names the reader. -/
def isFirstRecipient (p : PackedEvent) (pk : Bytes) : Bool :=
  (p.tags.find? fun tag => tag.name = 112 && tag.value.length = 32).any fun tag => tag.value = pk

def shouldSendToSubscriber (p : PackedEvent) (authed : Option Bytes) : Bool :=
  match r.class p.kind, authed with
  | .open, _ => true
  | _, none => false
  | .authenticated, some _ => true
  | .owner, some pk => pk = p.pubkey
  | .recipient, some pk => pk = p.pubkey || isFirstRecipient p pk

def shouldSendToIdentities (p : PackedEvent) (identities : List Bytes) : Bool :=
  !r.isRestrictedKind p.kind || identities.any fun pk => r.shouldSendToSubscriber p (some pk)

theorem isRestrictedKind_iff (kind : Nat) :
    r.isRestrictedKind kind = true ↔ kind ∈ r.restrictedKinds := by
  rw [isRestrictedKind, decide_eq_true_eq, restrictedKinds, List.mem_append, List.mem_append,
    ReadRestrictor.class]
  simp only [List.contains_iff_mem]
  split_ifs with own recipient authenticated
  · simp [own]
  · simp [recipient]
  · simp [authenticated]
  · simp [own, recipient, authenticated]

/-- An anonymous reader sees exactly the open kinds. -/
theorem shouldSendToIdentities_nil (p : PackedEvent) :
    r.shouldSendToIdentities p [] = true ↔ p.kind ∉ r.restrictedKinds := by
  rw [shouldSendToIdentities, List.any_nil, Bool.or_false, ← isRestrictedKind_iff,
    Bool.not_eq_true', Bool.not_eq_true]

end ReadRestrictor

/-! ### Snapshots -/

/-- A read transaction as the checks see it: which tables can hide an event, and the time. -/
structure ReadSnapshot where
  txn : Tables
  now : Nat
  vanish : Bool
  moderation : ModerationView
  superseded : Bool

namespace ReadSnapshot

/-- For any event, stored or not. -/
def new (txn : Tables) (now : Nat) : ReadSnapshot where
  txn := txn
  now := now
  vanish := (txn.rows Dbis.vanishPubkey).length ≠ 0
  moderation := .new txn
  superseded := true

/-- For stored events: when no version is superseded, none is looked up. -/
def forStored (txn : Tables) (now : Nat) : ReadSnapshot :=
  { new txn now with
    superseded := match supersededEventsRo txn with
      | .ok (some 0) => false
      | _ => true }

end ReadSnapshot

/-! ### Visibility -/

def authKind : Nat := 22242
def giftWrapBackdateSecs : Nat := 3 * 86400

structure ReadVisibility where
  restrictor : ReadRestrictor
  identities : List Bytes
  ephemeralLifetimeSecs : Option Nat
  includeAuthEvents : Bool

namespace ReadVisibility

variable (v : ReadVisibility) (env : Services) (snapshot : ReadSnapshot) (p : PackedEvent)

/-- When the lifetime of an ephemeral event starts: a gift wrap may be published late. -/
def lifetimeStart : Nat :=
  if p.kind = 21059 then saturatingAdd p.createdAt giftWrapBackdateSecs else p.createdAt

def expired (now : Nat) : Bool :=
  (1 < p.expiration && p.expiration ≤ now) ||
    (p.expiration = 1 && v.ephemeralLifetimeSecs.any fun ttl =>
      saturatingAdd (lifetimeStart p) ttl ≤ now)

/-- `a && b`, where `b` may fail and is not asked for after `false`. -/
def andThen (a : Bool) (b : Except DbError Bool) : Except DbError Bool :=
  if a then b else .ok false

def globallyVisible : Except DbError Bool :=
  if p.kind = authKind ∧ v.includeAuthEvents = false then .ok false
  else if v.expired p snapshot.now then .ok false
  else do
    let vanished ← andThen snapshot.vanish (isEventVanishedRo env snapshot.txn p)
    andThen (!vanished && !snapshot.moderation.hides p)
      ((andThen snapshot.superseded (isEventSupersededRo snapshot.txn p)).map fun lost => !lost)

def allows : Except DbError Bool :=
  if v.restrictor.shouldSendToIdentities p v.identities then v.globallyVisible env snapshot p
  else .ok false

end ReadVisibility

end Wok.Query
