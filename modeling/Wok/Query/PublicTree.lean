/-
**When a tree may be served unfiltered.**

A synchronization over a stored tree sends what the tree holds without asking about each event.
The relay does so only when it can tell from a few lookups that nothing in the tree is hidden: the
moderation and vanish tables are empty, no stored event expires, no version is superseded or the
filter excludes versions, and no event of a restricted kind the filter may match is stored.

* `kindPresent_of_stored` — one seek in the kind index finds a stored event of a kind.
* `public_tree_discloses_nothing` — **every stored event the filter matches is readable by anyone.**
-/

import Wok.Query.Visibility

namespace Wok.Query

open Wok.Library Wok.Event Wok.Db

/-! ### The check -/

/-- The filter names kinds, and none of them is replaceable or addressable. -/
def excludesReplaceable (f : NostrFilter) : Bool :=
  f.kinds.any fun kinds => kinds.items.all fun kind =>
    !isReplaceableKind kind && !isParamReplaceableKind kind

def physicalTreeIsGloballyVisible (t : Tables) (f : NostrFilter) : Except DbError Bool :=
  if (t.rows Dbis.moderation).length ≠ 0 then .ok false
  else if (t.rows Dbis.vanishPubkey).length ≠ 0 then .ok false
  else if (t.rows Dbis.eventExpiration).length ≠ 0 then .ok false
  else if excludesReplaceable f then .ok true
  else (supersededEventsRo t).map fun count => count = some 0

/-- The first entry of the kind index at or after the kind has the kind. -/
def kindPresent (t : Tables) (kind : Nat) : Bool :=
  ((t.scan Dbis.eventKind (makeKeyU64U64 kind 0) (u64NeBytes 0) false).head?).any fun e =>
    8 ≤ e.1.length && e.1.take 8 = u64NeBytes kind

/-- No event of a restricted kind that the filter may match is stored. -/
def noRestricted (t : Tables) (f : NostrFilter) (kinds : List Nat) : Bool :=
  kinds.all fun kind =>
    f.kinds.any (fun listed => !listed.items.any fun item => item = kind) || !kindPresent t kind

def publicTreeAllowed (t : Tables) (g : NostrFilterGroup) (policy : ReadRestrictor) :
    Except DbError Bool :=
  match g.filters.head? with
  | none => .ok false
  | some f => do
    if ← physicalTreeIsGloballyVisible t f then return noRestricted t f policy.restrictedKinds
    else return false

/-! ### Stored kinds -/

section Kinds

variable {host : Host} {t : Tables} {lev : Nat} {p : PackedEvent}

/-- **The seek finds a stored event of the kind.** -/
theorem kindPresent_of_stored (exact : Exact host t) (stored : Holds t lev p) :
    kindPresent t p.kind = true := by
  have member := (exact.mem_eventKind).mpr ⟨lev, p, stored, rfl⟩
  have side : ∀ {key value : Bytes}, View.onSide Dbis.eventKind (makeKeyU64U64 p.kind 0)
      (u64NeBytes 0) false (key, value) = true ↔ entryCode Dbis.eventKind
        (makeKeyU64U64 p.kind 0, u64NeBytes 0) ≤ entryCode Dbis.eventKind (key, value) :=
    Tables.onSide_pair rfl (makeKeyU64U64_ne_nil _ _) (u64NeBytes_ne_nil _)
  have visited : View.onSide Dbis.eventKind (makeKeyU64U64 p.kind 0) (u64NeBytes 0) false
      (makeKeyU64U64 p.kind p.createdAt, u64NeBytes lev) = true := by
    rw [side, entry_le_iff, cmpEntry, cmpKey_kind p.kind_lt p.kind_lt (Nat.two_pow_pos 64)
      p.createdAt_lt, cmpDup_u64 rfl rfl (Nat.two_pow_pos 64) stored.1, cmp_self_eq_eq]
    exact cmp_zero_then _ _
  unfold kindPresent
  cases first : (t.scan Dbis.eventKind (makeKeyU64U64 p.kind 0) (u64NeBytes 0) false).head? with
  | none =>
    have inside := Tables.mem_scan.mpr ⟨member, visited⟩
    rw [List.head?_eq_none_iff.mp first] at inside
    cases inside
  | some e =>
    -- The first entry lies between the start and the entry of the event.
    obtain ⟨inside, after⟩ := Tables.mem_scan.mp (List.mem_of_head? first)
    obtain ⟨m, q, held, rfl⟩ := exact.mem_eventKind.mp inside
    have low := kind_le_of_entry_le p.kind_lt q.kind_lt (Nat.two_pow_pos 64) q.createdAt_lt
      (side.mp after)
    have high := kind_le_of_entry_le q.kind_lt p.kind_lt q.createdAt_lt p.createdAt_lt
      (Tables.least_of_head? first member visited)
    rw [Option.any_some, le_antisymm low high, makeKeyU64U64, List.take_left' (by simp [u64NeBytes])]
    simp [u64NeBytes]

end Kinds

/-! ### What the check says -/

section Disclosure

variable {host : Host} {env : Services} {t : Tables} {lev : Nat} {p : PackedEvent}
  {f : NostrFilter} {policy : ReadRestrictor}

theorem expiration_eq_zero (exact : Exact host t) (empty : t.rows Dbis.eventExpiration = [])
    (stored : Holds t lev p) : p.expiration = 0 := by
  by_contra expires
  have entry : (u64NeBytes p.expiration, u64NeBytes lev) ∈ t.rows Dbis.eventExpiration := by
    refine (exact.index _ (by decide) _).mpr ⟨lev, p, stored, posts_expiration.mpr ?_, rfl⟩
    simp [indexEvent, expires]
  rw [empty] at entry
  cases entry

theorem expiration_of_ephemeral {e : Fields} (packs : e.Packs host p)
    (ephemeral : isEphemeralKind p.kind = true) : p.expiration = 1 := by
  rw [packs.kind] at ephemeral
  have packed : e.packedExpiration = 1 := if_pos ephemeral
  exact (PackedEvent.layout_expiration e.id_length e.pubkey_length packs.buf
    (packed ▸ by decide)).trans packed

/-- The tables in which every event the filter matches is visible. -/
structure Undisguised (t : Tables) (f : NostrFilter) : Prop where
  moderation : t.rows Dbis.moderation = []
  vanish : t.rows Dbis.vanishPubkey = []
  expiration : t.rows Dbis.eventExpiration = []
  versions : excludesReplaceable f = true ∨ supersededEventsRo t = .ok (some 0)

theorem undisguised_of_visible (visible : physicalTreeIsGloballyVisible t f = .ok true) :
    Undisguised t f := by
  unfold physicalTreeIsGloballyVisible at visible
  split_ifs at visible with moderation vanish expiration excludes
  · cases visible
  · cases visible
  · cases visible
  · rw [not_ne_iff, List.length_eq_zero_iff] at moderation vanish expiration
    exact ⟨moderation, vanish, expiration, .inl excludes⟩
  · rw [not_ne_iff, List.length_eq_zero_iff] at moderation vanish expiration
    obtain ⟨count, read, zero⟩ := map_eq_ok.mp visible
    refine ⟨moderation, vanish, expiration, .inr ?_⟩
    rw [read, of_decide_eq_true zero]

section Matched

variable (matched : f.doesMatchWithoutSearch p = true)

include matched

/-- A filter that names kinds matches only events of these kinds. -/
theorem kind_of_match {kinds : FilterSetUint} (named : f.kinds = some kinds) :
    p.kind ∈ kinds.items := by
  simp only [NostrFilter.doesMatchWithoutSearch, Bool.and_eq_true, named, Option.all_some,
    FilterSetUint.doesMatch, List.contains_iff_mem] at matched
  exact matched.1.1.2

theorem not_versioned_of_excludes (excludes : excludesReplaceable f = true) :
    isVersioned p.kind = false := by
  unfold excludesReplaceable at excludes
  cases named : f.kinds with
  | none => simp [named] at excludes
  | some kinds =>
    rw [named, Option.any_some, List.all_eq_true] at excludes
    have plain := excludes p.kind (kind_of_match matched named)
    simpa [isVersioned] using plain

/-- An event of a restricted kind that the filter matches is not stored. -/
theorem kind_open (exact : Exact host t) (stored : Holds t lev p)
    (clear : noRestricted t f policy.restrictedKinds = true) : p.kind ∉ policy.restrictedKinds := by
  intro restricted
  have checked := List.all_eq_true.mp clear p.kind restricted
  rw [kindPresent_of_stored exact stored, Bool.not_true, Bool.or_false] at checked
  cases named : f.kinds with
  | none => simp [named] at checked
  | some kinds =>
    have member := kind_of_match matched named
    rw [named, Option.any_some, Bool.not_eq_true', List.any_eq_false] at checked
    exact checked p.kind member (by simp)

/-- **No stored event the filter matches is hidden from everyone.** -/
theorem Undisguised.globallyVisible (ingested : Ingested host t) (clear : Undisguised t f)
    (counted : ∀ n, supersededEventsRo t = .ok (some n) → n = superseded t) (stored : Holds t lev p)
    {v : ReadVisibility} {snapshot : ReadSnapshot} (same : snapshot.txn = t)
    (vanish : snapshot.vanish = (ReadSnapshot.new t snapshot.now).vanish)
    (moderation : snapshot.moderation = .new t) : v.globallyVisible env snapshot p = .ok true := by
  have lasting := expiration_eq_zero ingested.exact clear.expiration stored
  have kind : p.kind ≠ authKind := by
    intro auth
    obtain ⟨e, packs⟩ := ingested.packed lev p stored
    have ephemeral := expiration_of_ephemeral packs (by rw [auth]; decide)
    rw [lasting] at ephemeral
    cases ephemeral
  have unexpired : v.expired p snapshot.now = false := by
    simp [ReadVisibility.expired, lasting]
  have unmarked : snapshot.vanish = false := by
    rw [vanish]
    simp [ReadSnapshot.new, clear.vanish]
  have unbanned : snapshot.moderation.hides p = false := by
    rw [moderation]
    exact ModerationView.hides_of_empty clear.moderation p
  have newest : isEventSupersededRo snapshot.txn p = .ok false := by
    rw [same]
    rcases clear.versions with excludes | zero
    · rw [isEventSupersededRo, not_versioned_of_excludes matched excludes]
      rfl
    · exact isEventSupersededRo_of_clean ingested (counted 0 zero).symm stored
  rw [ReadVisibility.globallyVisible, if_neg fun hidden => kind hidden.1, if_neg (by simp [unexpired]),
    unmarked, newest, unbanned]
  cases snapshot.superseded <;> rfl

end Matched

/-- A reader without identities. -/
def ReadVisibility.anonymous (policy : ReadRestrictor) (ephemeralLifetimeSecs : Option Nat) :
    ReadVisibility := ⟨policy, [], ephemeralLifetimeSecs, false⟩

theorem anonymous_allows {lifetime : Option Nat} {snapshot : ReadSnapshot}
    (kind : p.kind ∉ policy.restrictedKinds)
    (visible : (ReadVisibility.anonymous policy lifetime).globallyVisible env snapshot p = .ok true) :
    (ReadVisibility.anonymous policy lifetime).allows env snapshot p = .ok true := by
  have sent := (policy.shouldSendToIdentities_nil p).mpr kind
  exact (if_pos sent).trans visible

/-- **The unfiltered tree discloses nothing**: in every state of the database whose count of
superseded versions is right, when the check lets a tree be served, every stored event its filter
matches is readable by an anonymous reader, at every time and under every lifetime of ephemeral
events, whether superseded versions are looked up or skipped. -/
theorem public_tree_discloses_nothing {σ : Type} (env : Services) (sink : NegentropySink σ)
    (trees : σ) {steps : List RelayStep} (packed : ∀ st ∈ steps, st.AllPacked env.host)
    {t : Tables} (reached : t = ((Session.fresh trees).relayRun env sink steps).committed)
    (counted : ∀ n, supersededEventsRo t = .ok (some n) → n = superseded t)
    (policy : ReadRestrictor) {g : NostrFilterGroup} {f : NostrFilter}
    (first : g.filters.head? = some f) (allowed : publicTreeAllowed t g policy = .ok true)
    {lev : Nat} {p : PackedEvent} (stored : Holds t lev p)
    (matched : f.doesMatchWithoutSearch p = true) (lifetime : Option Nat) (now : Nat) :
    (ReadVisibility.anonymous policy lifetime).allows env (.new t now) p = .ok true ∧
      (ReadVisibility.anonymous policy lifetime).allows env (.forStored t now) p = .ok true := by
  have ingested : Ingested env.host t := reached ▸ (relayRun_ingested trees packed).1
  simp only [publicTreeAllowed, first, bind_eq_ok] at allowed
  obtain ⟨visible, physical, rest⟩ := allowed
  cases visible with
  | false => cases rest
  | true =>
    have clear := undisguised_of_visible physical
    have kind := kind_open matched ingested.exact stored (Except.ok.inj rest)
    exact ⟨anonymous_allows kind (clear.globallyVisible matched ingested counted stored rfl rfl rfl),
      anonymous_allows kind (clear.globallyVisible matched ingested counted stored rfl rfl rfl)⟩

end Disclosure

/-! ### A run -/

/-- One version of an address is written and committed. -/
def versionSteps : List RelayStep :=
  [.writer (.write .disabled 0 [ParsedEvent.toWrite (sampleEvent (sampleVersion 256))]),
    .writer .commit]

def versionTables : Tables :=
  ((Session.fresh ()).relayRun sampleServices noopNegentropy versionSteps).committed

theorem versionSteps_packed : ∀ st ∈ versionSteps, st.AllPacked sampleHost := by
  intro st member
  rcases List.mem_cons.mp member with rfl | member
  · intro ev inside
    rw [List.mem_singleton.mp inside]
    have repacks := (sampleEvent_accepted sampleVersion_passes).2.repacks
    refine ⟨_, _, _, _, repacks, ?_⟩
    rw [ParsedEvent.toWrite, EventToWrite.new]
  · rw [List.mem_singleton.mp member]
    exact trivial

theorem versionTables_counted : supersededEventsRo versionTables = .ok (some 0) ∧
    superseded versionTables = 0 := by decide +kernel

/-- The stored version is readable by anyone, with direct messages for their recipients. -/
theorem public_tree_discloses_nothing_version :
    publicTreeAllowed versionTables openGroup ⟨[4], [], []⟩ = .ok true ∧
    (ReadVisibility.anonymous ⟨[4], [], []⟩ (some 60)).allows sampleServices
        (.new versionTables 1000) (sampleEvent (sampleVersion 256)).packed = .ok true ∧
      (ReadVisibility.anonymous ⟨[4], [], []⟩ (some 60)).allows sampleServices
        (.forStored versionTables 1000) (sampleEvent (sampleVersion 256)).packed = .ok true := by
  have allowed : publicTreeAllowed versionTables openGroup ⟨[4], [], []⟩ = .ok true := by
    decide +kernel
  have first : openGroup.filters.head? = some (openGroup.filters.headD .empty) := by
    rfl
  have counted : ∀ n, supersededEventsRo versionTables = .ok (some n) →
      n = superseded versionTables := by
    intro n read
    rw [versionTables_counted.1] at read
    rw [versionTables_counted.2]
    exact (Option.some.inj (Except.ok.inj read)).symm
  have stored : Holds versionTables 1 (sampleEvent (sampleVersion 256)).packed :=
    ⟨by decide, by decide +kernel⟩
  exact ⟨allowed, public_tree_discloses_nothing sampleServices noopNegentropy ()
    versionSteps_packed rfl counted ⟨[4], [], []⟩ first allowed stored (by decide +kernel)
    (some 60) 1000⟩

end Wok.Query
