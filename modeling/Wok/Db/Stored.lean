/-
**What a run leaves stored.**

* `reingest` — the JSON that ingest stores for an event is accepted as the same event.
* `stored_events_reingest` — **every stored payload is ingested again as its record.**
* `one_version_stored` — **every address has at most one stored version.**
-/

import Wok.Db.Tombstone

namespace Wok.Db

open Wok.Library Wok.Event

/-! ### Payloads -/

section Payloads

variable {host : Host} {f : Fields} {v w : Value}

theorem verifyIdAs_reads (reads : f.Reads v) (reads' : f.Reads w) (ids : IdPreimage) (id : Bytes) :
    verifyIdAs host ids w id = verifyIdAs host ids v id := by
  cases ids with
  | nip01 => simp only [verifyIdAs, verifyId, reads.idPreimage, reads'.idPreimage]
  | nip01OrLegacy =>
    simp only [verifyIdAs, verifyIdAllowingLegacy, reads.idPreimage, reads'.idPreimage]

/-- Ingest reads of an event only what it writes into the payload. -/
theorem reingest {limits : EventLimits} {policy : Option TimestampPolicy} {verifyTime : Bool}
    {ids : IdPreimage} {e : ParsedEvent}
    (run : parseAndVerifyEventWith host v limits policy true verifyTime ids = .ok e) :
    ∃ w, parseStrict host e.json = .ok w ∧
      parseAndVerifyEventWith host w .unlimited none true false ids = .ok e := by
  obtain ⟨f, sig, reads, signature, describes⟩ := describes_of_ingest run
  have reads' := f.stored_reads sig
  refine ⟨f.stored sig, describes.parsed, ?_⟩
  simp only [parseAndVerifyEventWith, bind_eq_ok, ensure_eq_ok, onlyIf_eq_ok, pure_eq_ok] at run ⊢
  obtain ⟨_, object, opted, marked, _, lasting, ⟨packed, expiration⟩, packedAs, _, canonical, json,
    normalized, _, fits, _, _, _, verified, rfl⟩ := run
  refine ⟨(), rfl, opted, (reads'.deletionProtection reads).trans marked, (), ?_, (packed, expiration),
    packEvent_unlimited reads reads' object rfl packedAs, (), fun request => ?_, json, ?_, (),
    fun _ => le_unlimited (fits trivial), (), fun time => absurd time (by decide), (), fun _ => ?_,
    rfl⟩
  · rwa [expirationTag, reads'.tagsNamed reads]
  · rw [← canonical request, requireCanonicalAddresses, reads'.tagsNamed reads]
    rfl
  · rw [reads'.normalizeEventJson (f.stored_sig sig), ← normalized,
      reads.normalizeEventJson signature]
  · rw [← verified trivial, verifyNostrEventWith, verifyIdAs_reads reads reads', verifyNostrEventWith,
      hexField_hexText (f.stored_sig sig) describes.length,
      hexField_hexText signature describes.length]

end Payloads

section Runs

variable {σ : Type} {env : Services} {sink : NegentropySink σ} {w : Writer σ} {lev : Nat}
  {p : PackedEvent}

/-- **Every stored payload is ingested again as its record**, its id and signature verified. -/
theorem stored_events_reingest (reached : Reached env sink w) (held : Holds w.txn.tables lev p) :
    ∃ json v ids, (u64NeBytes lev, encodeRawPayload json) ∈ w.txn.tables.rows Dbis.eventPayload ∧
      parseStrict env.host json = .ok v ∧
      parseAndVerifyEventWith env.host v .unlimited none true false ids = .ok ⟨p, json⟩ := by
  obtain ⟨e, ⟨_, _, _, _, ids, run⟩, rfl, stored⟩ := reached.sound.accepted lev p held
  obtain ⟨v, parsed, again⟩ := reingest run
  exact ⟨e.json, v, ids, stored.2, parsed, again⟩

theorem stored_events_reingest_sample : ∃ json v ids,
    (u64NeBytes 1, encodeRawPayload json) ∈ sampleWriter.txn.tables.rows Dbis.eventPayload ∧
    parseStrict sampleServices.host json = .ok v ∧ parseAndVerifyEventWith sampleServices.host v
      .unlimited none true false ids = .ok ⟨(sampleEvent (sampleRequest 255)).packed, json⟩ := by
  refine stored_events_reingest sampleWriter_reached ⟨Nat.one_lt_two_pow (by decide), ?_⟩
  rw [sampleWriter_rows.1]
  exact List.mem_cons_self

end Runs

/-! ### Versions -/

/-- Every address has at most one stored version. -/
def OneVersion (t : Tables) : Prop :=
  ∀ m n p q key, Holds t m p → Holds t n q → isVersioned p.kind = true →
    isVersioned q.kind = true → replaceKey p = some key → replaceKey q = some key → m = n

section Versions

variable {σ : Type} {env : Services} {sink : NegentropySink σ} {policy : VanishPolicy}
  {authorQuota : Nat}

/-- A version that is stored removes every stored version of its address. -/
theorem versions_listed {txn : RwTxn} {p q : PackedEvent} {ev : EventToWrite} {levs : List Nat}
    (exact : Exact env.host txn.tables) (judged : judge env policy txn p ev = .ok (.pending, levs))
    (versioned : isVersioned p.kind = true) {key : Bytes} (keyed : replaceKey p = some key) {n : Nat}
    (held : Holds txn.tables n q) (same : replaceKey q = some key) : n ∈ levs := by
  obtain ⟨_, candidates, checked, requested⟩ := judge_pending.mp judged
  have plain : p.kind ≠ deletionKind := by
    intro request
    rw [request, not_isVersioned_deletion] at versioned
    cases versioned
  rw [requestedDeletions, if_neg plain] at requested
  cases requested
  obtain ⟨first, found, rfl⟩ := Option.map_eq_some_iff.mp keyed
  obtain ⟨versions, listed, visit⟩ :=
    foreachReplacement_eq exact (makeKey_ne_nil (p.pubkey ++ first) p.kind)
  simp only [checkVersions, if_pos versioned, found, visit, ok_bind] at checked
  by_cases newer : ∃ v ∈ versions, isEventABeforeEventB p v.2 = true
  · rw [if_pos (foldVersions_newer newer [])] at checked
    cases checked
  · have older : ∀ v ∈ versions, isEventABeforeEventB p v.2 = false := fun v inside =>
      Bool.eq_false_iff.mpr fun before => newer ⟨v, inside, before⟩
    have member : n ∈ versions.map Prod.fst :=
      List.mem_map.mpr ⟨_, (listed n q).mpr ⟨held, same⟩, rfl⟩
    rw [foldVersions_older older []] at checked
    simp only [Bool.false_eq_true, if_false, List.nil_append] at checked
    split_ifs at checked
    · simp only [bind_eq_ok, pure_eq_ok, Prod.mk.injEq] at checked
      obtain ⟨_, _, _, rfl⟩ := checked
      exact member
    · simp only [pure_eq_ok, Prod.mk.injEq] at checked
      exact checked.2 ▸ member

/-- What a run keeps; a version finds the stored ones in exact tables. -/
def Settled (host : Host) (t : Tables) : Prop :=
  Exact host t ∧ OneVersion t

theorem Settled.fewer {host : Host} {t t' : Tables} (settled : Settled host t)
    (exact : Exact host t') (old : ∀ {n p}, Holds t' n p → Holds t n p) : Settled host t' :=
  ⟨exact, fun m n p q key first second => settled.2 m n p q key (old first) (old second)⟩

theorem settled_kept (env : Services) : KeptByRuns env (fun _ => True) (Settled env.host) where
  exact settled := settled.1
  same same settled := settled.fewer (settled.1.same same) same.stored.mp
  removed settled removes :=
    settled.fewer (settled.1.remove removes) fun held => (removes.stored_iff.mp held).1
  written _ _ judged settled adds removes exact := by
    refine ⟨exact, fun m n q r key first second versioned versioned' keyed same => ?_⟩
    obtain ⟨first, kept⟩ := (removes.stored m q).mp first
    obtain ⟨second, kept'⟩ := (removes.stored n r).mp second
    rcases adds.stored.mp first with ⟨rfl, rfl⟩ | first
    · rcases adds.stored.mp second with ⟨rfl, _⟩ | second
      · rfl
      · exact absurd (versions_listed settled.1 judged versioned keyed second same) kept'
    · rcases adds.stored.mp second with ⟨rfl, rfl⟩ | second
      · exact absurd (versions_listed settled.1 judged versioned' same first keyed) kept
      · exact settled.2 m n q r key first second versioned versioned' keyed same

/-- **A run leaves one version of every address**, in the committed state and in the open
transaction. -/
theorem one_version_stored (env : Services) (sink : NegentropySink σ) (trees : σ)
    (steps : List Step) :
    OneVersion ((Session.fresh trees).run env sink steps).committed ∧
      OneVersion ((Session.fresh trees).run env sink steps).writer.txn.tables := by
  have fresh : Settled env.host Tables.fresh := ⟨exact_of_empty Tables.fresh_primary,
    fun m _ p _ _ held => absurd held (not_holds_fresh m p)⟩
  have run : Settled env.host ((Session.fresh trees).run env sink steps).committed ∧
      Settled env.host ((Session.fresh trees).run env sink steps).writer.txn.tables :=
    (settled_kept env).run (fun _ => True) (fun _ _ _ => trivial) ⟨fresh, fresh⟩ fun _ _ => trivial
  exact ⟨run.1.2, run.2.2⟩

end Versions

end Wok.Db
