/-
**Runs over accepted events.**

When every event written is one that ingest accepted, the stored events are accepted events with
their payloads, no two of them with one id.

* `judge_pending` — what a judgement that does not refuse the event says.
* `Sound` — **the invariant**, kept by every step.
* `run_sound` — it holds in every run over accepted events.
-/

import Wok.Db.Lookup
import Wok.Event.Roles

namespace Wok.Db

open Wok.Library Wok.Event

/-! ### Judgements -/

variable {status : EventWriteStatus}

theorem firstRefusal_none {checks : List Check} :
    firstRefusal checks = .ok none ↔ ∀ check ∈ checks, check = .ok none := by
  induction checks with
  | nil => simp [firstRefusal]
  | cons check checks ih =>
    rw [firstRefusal, bind_eq_ok, List.forall_mem_cons, ← ih]
    constructor
    · rintro ⟨answer, made, rest⟩
      cases answer with
      | none => exact ⟨made, rest⟩
      | some status => cases rest
    · rintro ⟨made, rest⟩
      exact ⟨none, made, rest⟩

theorem firstRefusal_some {checks : List Check} (refused : firstRefusal checks = .ok (some status)) :
    ∃ check ∈ checks, check = .ok (some status) := by
  induction checks with
  | nil => cases refused
  | cons check checks ih =>
    rw [firstRefusal, bind_eq_ok] at refused
    obtain ⟨answer, made, rest⟩ := refused
    cases answer with
    | none =>
      obtain ⟨other, inside, same⟩ := ih rest
      exact ⟨other, List.mem_cons_of_mem check inside, same⟩
    | some answer =>
      cases rest
      exact ⟨check, List.mem_cons_self .., made⟩

theorem refuseIf_some {refused : Bool} {status' : EventWriteStatus}
    (answer : refuseIf refused status = .ok (some status')) :
    refused = true ∧ status' = status := by
  unfold refuseIf at answer
  split_ifs at answer with yes
  · exact ⟨yes, (Option.some.inj (Except.ok.inj answer)).symm⟩
  · cases answer

theorem refuseIf_none {refused : Bool} : refuseIf refused status = .ok none ↔ refused = false := by
  cases refused <;> simp [refuseIf]

section Judging

variable {host : Host} {env : Services} {policy : VanishPolicy} {txn : RwTxn} {p : PackedEvent}
  {json : Bytes}

/-- A refusal says that the event is a duplicate or deleted. -/
theorem refusal_status {status : EventWriteStatus}
    (refused : refusal host policy txn p json = .ok (some status)) :
    status = .duplicate ∨ status = .deleted := by
  obtain ⟨check, member, made⟩ := firstRefusal_some refused
  simp only [List.mem_cons, List.not_mem_nil, or_false] at member
  rcases member with rfl | rfl | rfl | rfl | rfl
  · rw [checkDuplicate, bind_eq_ok] at made
    obtain ⟨_, _, answer⟩ := made
    exact .inl (refuseIf_some answer).2
  · exact .inr (refuseIf_some made).2
  · unfold checkVanished at made
    by_cases request : p.kind = vanishKind
    · rw [if_pos request] at made
      cases made
    · rw [if_neg request, bind_eq_ok] at made
      obtain ⟨_, _, answer⟩ := made
      exact .inr (refuseIf_some answer).2
  · unfold checkIdTombstone at made
    split_ifs at made
    · rw [bind_eq_ok] at made
      obtain ⟨_, _, answer⟩ := made
      exact .inr (refuseIf_some answer).2
    · cases made
  · exact .inr (refuseIf_some made).2

/-- **What a judgement that does not refuse the event says.** -/
theorem judge_pending {e : EventToWrite} {levs : List Nat} :
    judge env policy txn p e = .ok (.pending, levs) ↔
      refusal env.host policy txn p e.json = .ok none ∧
      ∃ versions, checkVersions env.host txn p e.json e.status = .ok (.pending, versions) ∧
        requestedDeletions env txn p e.json versions = .ok levs := by
  simp only [judge, bind_eq_ok]
  constructor
  · rintro ⟨answer, made, rest⟩
    cases answer with
    | some status =>
      rw [pure_eq_ok, Prod.mk.injEq] at rest
      rcases refusal_status made with same | same
      · exact absurd (rest.1.symm.trans same) (by simp)
      · exact absurd (rest.1.symm.trans same) (by simp)
    | none =>
      simp only [bind_eq_ok, pure_eq_ok, Prod.mk.injEq, Prod.exists] at rest
      obtain ⟨status, versions, checked, levs', requested, rfl, rfl⟩ := rest
      exact ⟨made, versions, checked, requested⟩
  · rintro ⟨made, versions, checked, requested⟩
    refine ⟨none, made, ?_⟩
    simp only [checked, requested, ok_bind]
    rfl

/-- An event that is not refused has an id no stored event has. -/
theorem fresh_of_not_refused (exact : Exact host txn.tables)
    (passed : refusal host policy txn p json = .ok none) :
    ∀ lev q, Holds txn.tables lev q → q.id ≠ p.id := by
  have duplicate := firstRefusal_none.mp passed (checkDuplicate txn p) (by simp)
  rcases lookupEventById_eq exact p.id_length with ⟨lev, q, _, _, found⟩ | ⟨absent, _⟩
  · rw [checkDuplicate, found, ok_bind, refuseIf_none] at duplicate
    cases duplicate
  · exact absent

end Judging

/-! ### The invariant -/

/-- The event is stored, with its payload. -/
def StoredAt (t : Tables) (lev : Nat) (e : ParsedEvent) : Prop :=
  Holds t lev e.packed ∧ (u64NeBytes lev, encodeRawPayload e.json) ∈ t.rows Dbis.eventPayload

/-- **The stored events are accepted events with their payloads**, with different ids. -/
structure Sound (host : Host) (t : Tables) : Prop where
  exact : Exact host t
  accepted : ∀ lev p, Holds t lev p → ∃ e, Accepted host e ∧ e.packed = p ∧ StoredAt t lev e
  uniqueId : ∀ m n p q, Holds t m p → Holds t n q → p.id = q.id → m = n

section Invariant

variable {host : Host} {t t' : Tables} {lev : Nat}
variable {e : ParsedEvent}

theorem SamePrimary.storedAt (same : SamePrimary t t') : StoredAt t' lev e ↔ StoredAt t lev e := by
  rw [StoredAt, StoredAt, same.stored, same.payload]

theorem Sound.same (sound : Sound host t) (same : SamePrimary t t') : Sound host t' := by
  refine ⟨sound.exact.same same, fun lev p stored => ?_, fun m n p q first second => ?_⟩
  · obtain ⟨e, accepted, is, storedAt⟩ := sound.accepted lev p (same.stored.mp stored)
    exact ⟨e, accepted, is, same.storedAt.mpr storedAt⟩
  · exact sound.uniqueId m n p q (same.stored.mp first) (same.stored.mp second)

theorem Adds.storedAt (adds : Adds host t t' lev e.packed e.json) :
    StoredAt t' lev e :=
  ⟨adds.stored.mpr (.inl ⟨rfl, rfl⟩), (adds.payload _).mpr (.inl rfl)⟩

theorem Adds.storedAt_of_old {p : PackedEvent} {json : Bytes} (adds : Adds host t t' lev p json)
    {n : Nat} (old : StoredAt t n e) : StoredAt t' n e := by
  refine ⟨adds.stored.mpr (.inr old.1), (adds.payload _).mpr (.inr ⟨old.2, ?_⟩)⟩
  exact adds.fresh (u64NeBytes n, e.packed.buf) old.1.2

theorem Sound.add (sound : Sound host t) (accepted : Accepted host e)
    (adds : Adds host t t' lev e.packed e.json)
    (fresh : ∀ lev q, Holds t lev q → q.id ≠ e.packed.id) : Sound host t' := by
  refine ⟨sound.exact.add adds, fun n p stored => ?_, fun m n p q first second same => ?_⟩
  · rcases adds.stored.mp stored with ⟨rfl, rfl⟩ | old
    · exact ⟨e, accepted, rfl, adds.storedAt⟩
    · obtain ⟨e', accepted', is, storedAt⟩ := sound.accepted n p old
      exact ⟨e', accepted', is, adds.storedAt_of_old storedAt⟩
  · rcases adds.stored.mp first with ⟨rfl, rfl⟩ | old <;>
      rcases adds.stored.mp second with ⟨rfl, rfl⟩ | old'
    · rfl
    · exact absurd same.symm (fresh n q old')
    · exact absurd same (fresh m p old)
    · exact sound.uniqueId m n p q old old' same

theorem RemovesAll.storedAt {levs : List Nat} (removes : RemovesAll t t' levs) {n : Nat} :
    StoredAt t' n e ↔ StoredAt t n e ∧ n ∉ levs := by
  constructor
  · rintro ⟨stored, payload⟩
    obtain ⟨old, kept⟩ := (removes.stored n e.packed).mp stored
    exact ⟨⟨old, (removes.payload n e.packed stored _).mp payload⟩, kept⟩
  · rintro ⟨⟨old, payload⟩, kept⟩
    have stored := (removes.stored n e.packed).mpr ⟨old, kept⟩
    exact ⟨stored, (removes.payload n e.packed stored _).mpr payload⟩

theorem Sound.removeAll {levs : List Nat} (sound : Sound host t) (exact : Exact host t')
    (removes : RemovesAll t t' levs) : Sound host t' := by
  refine ⟨exact, fun n p stored => ?_, fun m n p q first second => ?_⟩
  · obtain ⟨old, kept⟩ := (removes.stored n p).mp stored
    obtain ⟨e, accepted, rfl, storedAt⟩ := sound.accepted n p old
    exact ⟨e, accepted, rfl, removes.storedAt.mpr ⟨storedAt, kept⟩⟩
  · exact sound.uniqueId m n p q ((removes.stored m p).mp first).1 ((removes.stored n q).mp second).1

end Invariant

/-! ### Runs -/

/-- The event as ingest hands it to the writer. -/
def ParsedEvent.toWrite (e : ParsedEvent) : EventToWrite := .new e.packed.buf e.json

/-- Every event written was accepted. -/
def Step.AllAccepted (host : Host) : Step → Prop
  | .write _ _ evs => ∀ ev ∈ evs, ∃ e, Accepted host e ∧ ev = ParsedEvent.toWrite e
  | _ => True

theorem Removes.removesAll {host : Host} {t t' : Tables} {lev : Nat} {p : PackedEvent}
    (removes : Removes host t t' lev p) : RemovesAll t t' [lev] := by
  refine ⟨fun n q => ?_, fun n q stored value => ?_⟩
  · rw [removes.stored_iff, List.mem_singleton]
  · obtain ⟨old, other⟩ := removes.stored_iff.mp stored
    rw [removes.payload]
    exact and_iff_left fun same => other (u64NeBytes_inj old.1 removes.stored.1 same)

theorem sound_kept (env : Services) : KeptByRuns env
    (fun ev => ∃ e, Accepted env.host e ∧ ev = ParsedEvent.toWrite e) (Sound env.host) where
  exact sound := sound.exact
  same same sound := sound.same same
  written valid viewed judged sound adds removes exact := by
    obtain ⟨e, accepted, rfl⟩ := valid
    obtain rfl : _ = e.packed := PackedEvent.ext_buf (viewPacked_eq viewed)
    have fresh := fresh_of_not_refused sound.exact (judge_pending.mp judged).1
    exact (sound.add accepted adds fresh).removeAll exact removes
  removed sound removes := sound.removeAll (sound.exact.remove removes) removes.removesAll

theorem not_holds_fresh (lev : Nat) (p : PackedEvent) : ¬Holds Tables.fresh lev p := by
  rintro ⟨_, member⟩
  rw [Tables.fresh_primary _ (by decide)] at member
  cases member

theorem sound_fresh (host : Host) : Sound host Tables.fresh :=
  ⟨exact_of_empty Tables.fresh_primary, fun lev p stored => absurd stored (not_holds_fresh lev p),
    fun m _ p _ stored => absurd stored (not_holds_fresh m p)⟩

/-- **Every run over accepted events is sound**, in the committed state and in the open
transaction. -/
theorem run_sound {σ : Type} (env : Services) (sink : NegentropySink σ) (trees : σ) {steps : List Step}
    (accepted : ∀ st ∈ steps, st.AllAccepted env.host) :
    Sound env.host ((Session.fresh trees).run env sink steps).committed ∧
      Sound env.host ((Session.fresh trees).run env sink steps).writer.txn.tables :=
  (sound_kept env).run _ id ⟨sound_fresh env.host, sound_fresh env.host⟩ accepted

end Wok.Db
