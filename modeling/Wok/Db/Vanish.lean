/-
**What a read transaction knows of an event.**

A reader asks three things about an event beside its moderation: whether its author or a recipient
vanished, whether a newer version of its address is stored, and how many superseded versions the
database counts. The first may be excused by the finished sweep of the author's marker, whose
progress is kept in the state table, or by the protection the event asks for.

The database changes by calls of the writer, by changes of the moderation records, by vanish
markers and by the progress of their sweeps; a sweep removes events through `deleteEvents`.

* `RelayStep`, `Session.relayRun` — runs of all these.
* `relayRun_ingested` — **the stored records stay packed events with exact index tables.**
* `isEventSupersededRo_of_clean` — where no version is superseded, no stored event is.
-/

import Wok.Db.Moderation
import Wok.Db.Counters

namespace Wok.Db

open Wok.Library Wok.Event

/-! ### Sweeps -/

/-- An entry of an index keyed by a string and a time. -/
structure Position where
  createdAt : Nat
  levId : Nat
  deriving DecidableEq, Repr

/-- The index a sweep examines next, and where. -/
inductive SweepStep
  | authored (position : Position)
  | tagged (position : Position)
  | done
  deriving DecidableEq, Repr

structure SweepProgress where
  target : Nat
  «from» : Nat
  step : SweepStep
  verified : Bool
  deriving DecidableEq, Repr

namespace SweepProgress

def sweepProgressLen : Nat := 33

/-- The tag of a step and its position. -/
def stepCode : SweepStep → Nat × Position
  | .authored position => (0, position)
  | .tagged position => (1, position)
  | .done => (2, ⟨0, 0⟩)

def encode (progress : SweepProgress) : Bytes :=
  let (step, position) := stepCode progress.step
  leBytes 8 progress.target ++ leBytes 8 progress.from ++
    [Fin.ofNat 256 (step + if progress.verified then 0 else 128)] ++
    leBytes 8 position.createdAt ++ leBytes 8 position.levId

def decode (raw : Bytes) : Except DbError SweepProgress := do
  ensure (raw.length = sweepProgressLen) (.msg "invalid vanish sweep progress")
  let word (offset : Nat) := leVal ((raw.drop offset).take 8)
  let position : Position := ⟨word 17, word 25⟩
  let code := ((raw[16]?).map Fin.val).getD 0
  let step ← match code % 128 with
    | 0 => .ok (.authored position)
    | 1 => .ok (.tagged position)
    | 2 => .ok .done
    | _ => .error (.msg "invalid vanish sweep step")
  return ⟨word 0, word 8, step, code < 128⟩

end SweepProgress

def sweepProgressKey (pubkey : Bytes) : Bytes := 86 :: pubkey

def putSweepProgress (txn : RwTxn) (pubkey : Bytes) (progress : SweepProgress) : RwTxn :=
  txn.put Dbis.state (sweepProgressKey pubkey) progress.encode

/-! ### Read transactions -/

section Reading

variable (env : Services) (t : Tables) (p : PackedEvent)

def lookupEventByIdRo (id : Bytes) : Except DbError (Option (Nat × Bytes)) :=
  lookupEventById (.begin t) id

/-- The state table may still hold the count of an older classification, which says nothing. -/
def legacySupersededEvents : Bytes := ascii "superseded-events"

def supersededEventsRo : Except DbError (Option Nat) :=
  if (t.get Dbis.state legacySupersededEvents).isSome then .ok none
  else
    match t.get Dbis.state supersededKey with
    | none => .ok none
    | some raw => (decodeCounter raw).map some

def vanishTimestampRo (pubkey : Bytes) : Option Nat :=
  (t.get Dbis.vanishPubkey pubkey).bind readTimestamp

/-- A finished pass over the author's events kept this one. -/
def survivedAuthorSweep (cutoff : Nat) : Except DbError Bool :=
  match t.get Dbis.state (sweepProgressKey p.pubkey) with
  | none => .ok false
  | some raw =>
    match SweepProgress.decode raw with
    | .error _ => .ok false
    | .ok progress =>
      match progress.step with
      | .authored _ => .ok false
      | _ =>
        if progress.verified = true ∧ cutoff ≤ progress.target then
          (lookupEventByIdRo t p.id).map fun found => found.any fun stored => stored.2 = p.buf
        else .ok false

def isDeletionProtectedRo : Except DbError Bool := do
  match ← lookupEventByIdRo t p.id with
  | none => return false
  | some (lev, _) => isDeletionProtectedRw env (.begin t) lev p

/-- The author vanished at or after the event, which neither a sweep nor its protection kept. -/
def authorVanishedRo : Except DbError Bool :=
  if p.kind = vanishKind then .ok false
  else
    match vanishTimestampRo t p.pubkey with
    | none => .ok false
    | some cutoff =>
      if p.createdAt ≤ cutoff then do
        if ← survivedAuthorSweep t p cutoff then return false
        else (isDeletionProtectedRo env t p).map fun kept => !kept
      else .ok false

def isEventVanishedRo : Except DbError Bool := do
  let byAuthor ← authorVanishedRo env t p
  return byAuthor || recipientVanished (.begin t) p

/-- A version of the address beats the event. -/
def supersedeStep (seen : Bool) (_ : Nat) (other : PackedEvent) : Bool × Bool :=
  if isEventABeforeEventB p other then (true, false) else (seen, true)

/-- Whether another stored event wins replacement. The key is built from the first `d` of an
addressable event, and without one for a replaceable event. -/
def isEventSupersededRo : Except DbError Bool :=
  if isVersioned p.kind then
    let d := if isParamReplaceableKind p.kind then p.firstDTag.getD [] else []
    foreachReplacement (.begin t) (makeKeyStringU64 (p.pubkey ++ d) p.kind) (supersedeStep p) false
  else .ok false

end Reading

/-! ### Runs -/

/-- A change of the database: a call of the writer, a change of the moderation records, a marker
found among the stored requests, or the progress of a sweep. -/
inductive RelayStep
  | writer (st : Step)
  | moderate (change : ModerationChange)
  | markVanished (pubkey : Bytes) (timestamp : Nat)
  | putSweepProgress (pubkey : Bytes) (progress : SweepProgress)

/-- Every record written is what packing makes of some event, verified or not. -/
def RelayStep.AllPacked (host : Host) : RelayStep → Prop
  | .writer (.write _ _ evs) => ∀ ev ∈ evs, ∃ v limits p expiration,
      packEvent host limits v = .ok (p, expiration) ∧ ev.packed = p.buf
  | _ => True

namespace Session

variable {σ : Type} (env : Services) (sink : NegentropySink σ)

/-- A call on the transaction alone. -/
def onTxn (s : Session σ) (call : Except DbError RwTxn) : Session σ :=
  s.after (fun txn => ⟨txn, s.writer.trees⟩) call

def relayStep (s : Session σ) : RelayStep → Session σ
  | .writer st => s.step env sink st
  | .moderate change => s.onTxn (change.apply s.writer.txn)
  | .markVanished pubkey timestamp => s.onTxn (Wok.Db.markVanished s.writer.txn pubkey timestamp)
  | .putSweepProgress pubkey progress =>
    s.onTxn (.ok (Wok.Db.putSweepProgress s.writer.txn pubkey progress))

def relayRun (s : Session σ) (steps : List RelayStep) : Session σ :=
  steps.foldl (relayStep env sink) s

end Session

section Runs

variable {σ : Type} {env : Services} {sink : NegentropySink σ} {s : Session σ}

/-- **The stored records were packed from events**, and the index tables are exact. -/
structure Ingested (host : Host) (t : Tables) : Prop where
  exact : Exact host t
  packed : ∀ lev p, Holds t lev p → ∃ f : Fields, f.Packs host p

theorem Ingested.same {host : Host} {t t' : Tables} (ingested : Ingested host t)
    (same : SamePrimary t t') : Ingested host t' :=
  ⟨ingested.exact.same same, fun lev p stored => ingested.packed lev p (same.stored.mp stored)⟩

theorem ingested_kept (env : Services) : KeptByRuns env (fun ev => ∃ v limits p expiration,
    packEvent env.host limits v = .ok (p, expiration) ∧ ev.packed = p.buf) (Ingested env.host) where
  exact ingested := ingested.exact
  same same ingested := ingested.same same
  written valid viewed _ ingested adds removes exact := by
    refine ⟨exact, fun n q stored => ?_⟩
    rcases adds.stored.mp ((removes.stored n q).mp stored).1 with ⟨_, rfl⟩ | old
    · obtain ⟨v, limits, p, expiration, packedAs, isBuf⟩ := valid
      obtain ⟨f, _, packs, _⟩ := packEvent_reads packedAs
      exact ⟨f, (PackedEvent.ext_buf ((viewPacked_eq viewed).trans isBuf) : q = p) ▸ packs⟩
    · exact ingested.packed n q old
  removed ingested removes := ⟨ingested.exact.remove removes,
    fun n q stored => ingested.packed n q (removes.stored_iff.mp stored).1⟩

theorem ingested_fresh (host : Host) : Ingested host Tables.fresh :=
  ⟨exact_of_empty Tables.fresh_primary, fun lev p stored => absurd stored (not_holds_fresh lev p)⟩

/-- The committed state and the open transaction hold ingested events. -/
def Session.Ingested (host : Host) (s : Session σ) : Prop :=
  Wok.Db.Ingested host s.committed ∧ Wok.Db.Ingested host s.writer.txn.tables

theorem Session.Ingested.onTxn {allowed : List Nat} {call : Except DbError RwTxn}
    (ingested : s.Ingested env.host)
    (touches : ∀ txn', call = .ok txn' → Touches allowed s.writer.txn txn')
    (apart : ∀ d ∈ Dbis.primary, d ∉ allowed) : (s.onTxn call).Ingested env.host := by
  refine Session.after_invariant ingested.1 fun txn' run => ?_
  exact ingested.2.same ((touches txn' run).samePrimary apart)

theorem Session.Ingested.writer (ingested : s.Ingested env.host) {st : Step}
    (packed : (RelayStep.writer st).AllPacked env.host) :
    (s.step env sink st).Ingested env.host := by
  have all : ∀ other ∈ [st], (RelayStep.writer other).AllPacked env.host := by simpa using packed
  exact (ingested_kept env).run (fun st => (RelayStep.writer st).AllPacked env.host) id ingested all

theorem Session.Ingested.relayStep (ingested : s.Ingested env.host) {st : RelayStep}
    (packed : st.AllPacked env.host) : (s.relayStep env sink st).Ingested env.host := by
  cases st with
  | writer st => exact ingested.writer packed
  | moderate change =>
    exact ingested.onTxn (fun txn' run => change.apply_moderates run |>.touches) (by decide)
  | markVanished pubkey timestamp =>
    exact ingested.onTxn (fun txn' run => markVanished_touches run) (by decide)
  | putSweepProgress pubkey progress =>
    have touches : Touches [Dbis.state] s.writer.txn
        (putSweepProgress s.writer.txn pubkey progress) := touches_put (by simp) _ _
    exact ingested.onTxn (fun txn' run => Except.ok.inj run ▸ touches) (by decide)

/-- **The stored records of every run were packed from events, with exact index tables.** -/
theorem relayRun_ingested (trees : σ) {steps : List RelayStep}
    (packed : ∀ st ∈ steps, st.AllPacked env.host) :
    ((Session.fresh trees).relayRun env sink steps).Ingested env.host := by
  have runs : ∀ (steps : List RelayStep) (s : Session σ), s.Ingested env.host →
      (∀ st ∈ steps, st.AllPacked env.host) → (s.relayRun env sink steps).Ingested env.host := by
    intro steps
    induction steps with
    | nil => exact fun s ingested _ => ingested
    | cons st steps ih =>
      intro s ingested packed
      refine ih (s.relayStep env sink st) (ingested.relayStep (packed st (.head _))) ?_
      exact fun other member => packed other (.tail st member)
  exact runs steps _ ⟨ingested_fresh env.host, ingested_fresh env.host⟩ packed

end Runs

/-! ### Superseded versions -/

section Superseded

variable {host : Host} {t : Tables} {lev : Nat} {p : PackedEvent}

/-- The replacement key of a packed event is the one a reader builds. -/
theorem Packs.replaceKey {f : Fields} (packs : f.Packs host p)
    (versioned : isVersioned p.kind = true) :
    Wok.Db.replaceKey p = some (makeKeyStringU64 (p.pubkey ++
      if isParamReplaceableKind p.kind then p.firstDTag.getD [] else []) p.kind) := by
  have first := packs.firstDTag (packs.kind ▸ versioned)
  rw [Wok.Db.replaceKey, first, Option.map_some]
  by_cases addressable : isParamReplaceableKind p.kind = true
  · rw [if_pos addressable, Option.getD_some]
  · have replaceable : isReplaceableKind f.kind = true := by
      rw [packs.kind] at versioned addressable
      simpa [isVersioned, addressable] using versioned
    rw [if_neg addressable, Fields.dTag_replaceable replaceable,
      indexedTagValue_short host (by simp)]

/-- Where no version is superseded, an address has one stored version. -/
theorem Exact.version_unique (exact : Exact host t) (clean : superseded t = 0) {m : Nat}
    {q : PackedEvent} {key : Bytes} (stored : Holds t lev p) (stored' : Holds t m q)
    (found : replaceKey p = some key) (found' : replaceKey q = some key)
    (versioned : isVersioned p.kind = true) : m = lev := by
  have posted : ∀ {n q}, Holds t n q → replaceKey q = some key →
      (key, u64NeBytes n) ∈ t.rows Dbis.eventReplace := by
    intro n q held keyed
    refine (exact.index _ (by decide) _).mpr ⟨n, q, held, posts_replace.mpr ?_, rfl⟩
    simp [indexEvent, keyed]
  have keys : (t.rows Dbis.eventReplace |>.filter fun e => versionKey e.1).map Prod.fst
      = versionKeys t := by
    rw [versionKeys, List.filter_map]
    rfl
  have apart : ((t.rows Dbis.eventReplace |>.filter fun e => versionKey e.1).map Prod.fst).Nodup :=
    keys ▸ nodup_of_repeats_eq_zero clean
  have inside : ∀ {n q}, Holds t n q → replaceKey q = some key →
      (key, u64NeBytes n) ∈ (t.rows Dbis.eventReplace).filter fun e => versionKey e.1 := by
    intro n q held keyed
    refine List.mem_filter.mpr ⟨posted held keyed, ?_⟩
    rw [versionKey_replaceKey found, versioned]
  have same := List.inj_on_of_nodup_map apart (inside stored' found') (inside stored found) rfl
  exact u64NeBytes_inj stored'.1 stored.1 (congrArg Prod.snd same)

theorem foldVersions_supersede {versions : List (Nat × PackedEvent)}
    (own : ∀ v ∈ versions, v.2 = p) : foldVersions (supersedeStep p) versions false = false := by
  induction versions with
  | nil => rfl
  | cons v versions ih =>
    have step : supersedeStep p false v.1 v.2 = (false, true) := by
      rw [supersedeStep, own v (.head _), if_neg]
      simp [isEventABeforeEventB]
    rw [foldVersions, step]
    exact ih fun u member => own u (.tail v member)

/-- **Where no version is superseded, no stored event is.** -/
theorem isEventSupersededRo_of_clean (ingested : Ingested host t) (clean : superseded t = 0)
    (stored : Holds t lev p) : isEventSupersededRo t p = .ok false := by
  unfold isEventSupersededRo
  by_cases versioned : isVersioned p.kind = true
  · rw [if_pos versioned]
    obtain ⟨f, packs⟩ := ingested.packed lev p stored
    have found := Packs.replaceKey packs versioned
    have exact : Exact host (RwTxn.begin t).tables := ingested.exact
    obtain ⟨versions, members, visit⟩ := foreachReplacement_eq exact (makeKey_ne_nil _ _)
    rw [visit, foldVersions_supersede]
    rintro ⟨m, q⟩ member
    obtain ⟨held, keyed⟩ := (members m q).mp member
    obtain rfl := ingested.exact.version_unique clean stored held found keyed versioned
    exact held.unique stored
  · rw [if_neg versioned]

end Superseded

end Wok.Db
