/-
**Local ids and the log of the writer.**

A transaction counts the events it stores. The count goes to the state table as a high-water mark
and is never taken back, so a local id names one event for good: the events written form a log, the
`n`th of them has the local id `n`, and what the database stores is a part of the log.

* `SequencedAt` — **where the sequence stands**; every change keeps it.
* `KeepsSequence` — the steps that leave the count alone.
* `Logged` — **the transaction describes the log.**
* `Logs.remove`, `Logs.add`, `commit_logged` — what a step does to the log.
-/

import Mathlib.Data.List.TakeWhile
import Wok.Db.Vanish

namespace Wok.Db

open Wok.Library Wok.Event List

theorem onSide_event {m n : Nat} (small : m < 2 ^ 64) (small' : n < 2 ^ 64) (value : Bytes) :
    View.onSide Dbis.event (u64NeBytes n) [] false (u64NeBytes m, value) = true ↔ n ≤ m := by
  have plain : ¬((spec Dbis.event).flags.dupSort = true ∧ ([] : Bytes) ≠ []) := by decide
  rw [View.onSide, if_neg (u64NeBytes_ne_nil n), if_neg plain, if_neg (by decide),
    if_neg (by decide), decide_eq_true_eq, cmpKey_eq, View.cmp_ne_lt_iff,
    keyPrefix_event small' small]

/-! ### The sequence of a transaction -/

/-- The sequence stands at `n`: cached, stored, or still to be read off the greatest key. No stored
event has a greater local id. -/
structure SequencedAt (txn : RwTxn) (n : Nat) : Prop where
  small : n < 2 ^ 64
  counter : Counts txn.eventSequence (txn.get Dbis.state highWater) n ∨
    txn.eventSequence = none ∧ txn.get Dbis.state highWater = none ∧
      txn.largestIntegerKey Dbis.event = .ok n
  authors : ∀ c ∈ txn.authorCounts, c.1 ≠ highWater
  below : ∀ e ∈ txn.tables.rows Dbis.event, ∃ lev ≤ n, e.1 = u64NeBytes lev

/-- A step that gives no local id and leaves the high-water mark. -/
structure KeepsSequence (txn txn' : RwTxn) : Prop where
  cached : txn'.eventSequence = txn.eventSequence
  stored : txn'.get Dbis.state highWater = txn.get Dbis.state highWater
  authors : ∀ c ∈ txn'.authorCounts, c ∈ txn.authorCounts ∨ c.1 ≠ highWater

section Sequence

variable {txn txn' txn'' : RwTxn} {n : Nat}
variable {pubkey : Bytes} {host : Host} {lev : Nat} {env : Services} {p : PackedEvent}

theorem KeepsSequence.refl (txn : RwTxn) : KeepsSequence txn txn := ⟨rfl, rfl, fun _ => .inl⟩

theorem KeepsSequence.trans (first : KeepsSequence txn txn') (second : KeepsSequence txn' txn'') :
    KeepsSequence txn txn'' where
  cached := second.cached.trans first.cached
  stored := second.stored.trans first.stored
  authors c member := (second.authors c member).elim (first.authors c) .inr

theorem largestIntegerKey_congr (same : txn'.tables.rows Dbis.event = txn.tables.rows Dbis.event) :
    txn'.largestIntegerKey Dbis.event = txn.largestIntegerKey Dbis.event := by
  rw [RwTxn.largestIntegerKey, RwTxn.largestIntegerKey, same]

theorem SequencedAt.keep (at' : SequencedAt txn n) (keeps : KeepsSequence txn txn')
    (same : txn'.tables.rows Dbis.event = txn.tables.rows Dbis.event) : SequencedAt txn' n where
  small := at'.small
  counter := by
    rw [keeps.cached, keeps.stored, largestIntegerKey_congr same]
    exact at'.counter
  authors c member := (keeps.authors c member).elim (at'.authors c) id
  below := same ▸ at'.below

theorem keepsSequence_tables {t : Tables}
    (same : t.get Dbis.state highWater = txn.tables.get Dbis.state highWater) :
    KeepsSequence txn { txn with tables := t } := ⟨rfl, same, fun _ => .inl⟩

theorem OnlyTables.keepsSequence {allowed : List Nat} (only : OnlyTables txn txn')
    (touches : Touches allowed txn txn') (apart : Dbis.state ∉ allowed) :
    KeepsSequence txn txn' := by
  obtain ⟨t, rfl⟩ := only
  exact keepsSequence_tables (Tables.get_congr (touches _ apart) _)

theorem Alters.keepsSequence {allowed : List Nat} (alters : Alters allowed txn txn')
    (apart : Dbis.state ∉ allowed) : KeepsSequence txn txn' :=
  alters.only.keepsSequence alters.touches apart

theorem putCounter_keeps {key : Bytes} (other : highWater ≠ key) (m : Nat) :
    KeepsSequence txn (putCounter txn key m) :=
  keepsSequence_tables (Tables.get_put_of_ne (by decide) other)

theorem authorKey_ne (pubkey : Bytes) : authorKey pubkey ≠ highWater := by
  intro same
  exact absurd (List.cons.inj same).1 (by decide)

theorem cacheCount_keeps (pubkey : Bytes) (count : Nat) :
    KeepsSequence txn (cacheCount txn (authorKey pubkey) count) where
  cached := rfl
  stored := rfl
  authors c member := by
    rcases mem_of_mem_insertBy member with rfl | old
    · exact .inr (authorKey_ne pubkey)
    · exact .inl old

theorem changeAuthorCount_keeps {insert : Bool}
    (run : changeAuthorCount txn pubkey insert = .ok txn') : KeepsSequence txn txn' := by
  rcases changeAuthorCount_eq run with rfl | ⟨_, rfl⟩ | rfl
  · exact .refl _
  · exact cacheCount_keeps pubkey _
  · refine ⟨rfl, ?_, fun c member => .inl (mem_of_mem_filter member)⟩
    exact Tables.get_delKey_of_ne (by decide) (authorKey_ne pubkey).symm

theorem markVanished_keeps {timestamp : Nat} (run : markVanished txn pubkey timestamp = .ok txn') :
    KeepsSequence txn txn' := by
  rcases markVanished_eq run with rfl | ⟨_, _, rfl⟩
  · exact .refl _
  · have put : KeepsSequence txn (txn.put Dbis.vanishPubkey pubkey (u64NeBytes timestamp)) :=
      keepsSequence_tables (Tables.get_congr (Tables.rows_put_of_ne (by decide)) _)
    exact (put.trans (putCounter_keeps (by decide) _)).trans (putCounter_keeps (by decide) _)

theorem SequencedAt.preserve (at' : SequencedAt txn n) :
    preserveHighWater txn = .ok { txn with eventSequence := some n } := by
  unfold preserveHighWater
  rcases at'.counter with (cached | ⟨cached, stored⟩) | ⟨cached, stored, largest⟩
  · rw [cached]
    simp only [← cached]
  · simp only [cached, storedCounter, stored, decodeCounter_bytes at'.small, ok_bind]
    rfl
  · simp only [cached, storedCounter, stored, largest, ok_bind]
    rfl

/-- The sequence once it is cached, with other records below it. -/
theorem SequencedAt.cache {m : Nat} (at' : SequencedAt txn n)
    (keeps : KeepsSequence { txn with eventSequence := some m } txn') (small : m < 2 ^ 64)
    (below : ∀ e ∈ txn'.tables.rows Dbis.event, ∃ lev ≤ m, e.1 = u64NeBytes lev) :
    SequencedAt txn' m where
  small := small
  counter := .inl (.inl keeps.cached)
  authors c member := (keeps.authors c member).elim (at'.authors c) id
  below := below

/-- Storing an event gives one local id, and nothing else touches the sequence. -/
theorem insertEvent_keeps {json : Bytes} (run : insertEvent host txn p json = .ok (lev, txn')) :
    ∃ counted given, KeepsSequence txn counted ∧
      counted.tables.rows Dbis.event = txn.tables.rows Dbis.event ∧
      allocateEventId counted = .ok (lev, given) ∧ KeepsSequence given txn' := by
  obtain ⟨counted, count, author, allocated, -, -, rfl⟩ := insertEvent_eq run
  refine ⟨counted, _, changeAuthorCount_keeps author,
    changeAuthorCount_touches author Dbis.event (by decide), allocated, ?_⟩
  have recorded : KeepsSequence { counted with eventSequence := some lev }
      (counted.recorded lev p.buf json count) :=
    ⟨rfl, Tables.get_congr (recorded_touches _ (by decide)) _, fun _ => .inl⟩
  exact recorded.trans ((putIndices_alters _ lev (indexEvent host p)).keepsSequence (by decide))

/-- **Storing gives the next local id.** -/
theorem SequencedAt.insert {json : Bytes} (at' : SequencedAt txn n)
    (run : insertEvent host txn p json = .ok (lev, txn')) :
    lev = n + 1 ∧ SequencedAt txn' (n + 1) := by
  obtain ⟨counted, given, before, rows, allocated, after⟩ := insertEvent_keeps run
  have start := at'.keep before rows
  simp only [allocateEventId, start.preserve, ok_bind, bind_eq_ok, ensure_eq_ok,
    Option.getD_some] at allocated
  obtain ⟨_, small, allocated⟩ := allocated
  obtain ⟨rfl, rfl⟩ := Prod.mk.inj (Except.ok.inj allocated)
  refine ⟨rfl, start.cache after small fun e member => ?_⟩
  rcases ((insertEvent_adds run).event e).mp member with rfl | old
  · exact ⟨n + 1, le_rfl, rfl⟩
  · obtain ⟨m, le, same⟩ := at'.below e old
    exact ⟨m, le.trans (Nat.le_succ n), same⟩

theorem forgetAuthor_keeps {kind : Option Nat} (run : forgetAuthor txn lev = .ok (kind, txn')) :
    KeepsSequence txn txn' := by
  rcases forgetAuthor_eq run with rfl | ⟨_, _, _, author, rfl⟩
  · exact .refl _
  · exact (changeAuthorCount_keeps author).trans (putCounter_keeps (by decide) _)

theorem removeRecord_keeps (run : removeRecord host txn lev = .ok txn') :
    KeepsSequence txn txn' := by
  rcases removeRecord_form run with ⟨_, rfl⟩ | ⟨q, loaded, count, _, rfl⟩
  · exact .refl _
  · obtain ⟨t, only⟩ := (delIndices_alters { txn with supersededEvents := loaded } lev
      (indexEvent host q)).only
    refine ⟨?_, Tables.get_congr (unrecorded_rows (by decide)) _, fun c member => .inl ?_⟩
    · rw [RwTxn.unrecorded, only]
      rfl
    · rw [RwTxn.unrecorded, only] at member
      exact member

/-- A removal reads the sequence, and nothing else touches it. -/
theorem deleteEventBasic_keeps {deleted : Bool}
    (run : deleteEventBasic env txn lev = .ok (deleted, txn')) :
    ∃ preserved, preserveHighWater txn = .ok preserved ∧ KeepsSequence preserved txn' := by
  obtain ⟨_, kind, forgot, json, unindexed, preserve, author, _, search, record⟩ :=
    deleteEventBasic_eq run
  have payload : KeepsSequence forgot (forgot.delKey Dbis.eventPayload (u64NeBytes lev)) :=
    keepsSequence_tables (Tables.get_congr (Tables.rows_delKey_of_ne (by decide)) _)
  exact ⟨_, preserve, (forgetAuthor_keeps author).trans (payload.trans
    (((unindexSearch_alters search).keepsSequence (by decide)).trans (removeRecord_keeps record)))⟩

/-- **A removal keeps the sequence**, which it reads before anything is gone. -/
theorem SequencedAt.remove {deleted : Bool} (at' : SequencedAt txn n)
    (held : Holds txn.tables lev p) (run : deleteEventBasic env txn lev = .ok (deleted, txn')) :
    SequencedAt txn' n := by
  obtain ⟨preserved, preserve, keeps⟩ := deleteEventBasic_keeps run
  rw [at'.preserve] at preserve
  cases preserve
  refine at'.cache keeps at'.small fun e member => ?_
  exact at'.below e (((deleteEventBasic_removes held run).event e).mp member).1

end Sequence

/-! ### The log -/

/-- An event the writer stored. -/
structure StoredEvent where
  levId : Nat
  packed : Bytes
  json : Bytes
  deriving DecidableEq, Repr

/-- The events of a batch that were written, in order. -/
def writtenEvents (done : List EventToWrite) : List StoredEvent :=
  (done.filter fun e => e.status = .written).map fun e => ⟨e.levId, e.packed, e.json⟩

/-- **The tables store a part of the log**, whose `n`th event has the local id `n`. -/
structure Logs (host : Host) (log : List StoredEvent) (t : Tables) : Prop where
  exact : Exact host t
  numbered : log.map StoredEvent.levId = List.range' 1 log.length
  stored : ∀ lev p, Holds t lev p → ∃ e ∈ log, e.levId = lev ∧ e.packed = p.buf ∧
    (u64NeBytes lev, encodeRawPayload e.json) ∈ t.rows Dbis.eventPayload

/-- **The transaction describes the log.** -/
structure Logged (host : Host) (log : List StoredEvent) (txn : RwTxn) : Prop where
  logs : Logs host log txn.tables
  sequence : SequencedAt txn log.length

section Log

variable {host : Host} {log : List StoredEvent} {t t' : Tables} {txn txn' : RwTxn} {p : PackedEvent}

theorem Logs.levId_le (logs : Logs host log t) {e : StoredEvent} (member : e ∈ log) :
    1 ≤ e.levId ∧ e.levId ≤ log.length := by
  have listed : e.levId ∈ List.range' 1 log.length :=
    logs.numbered ▸ mem_map_of_mem member
  have bounds := mem_range'_1.mp listed
  omega

theorem Logs.unique (logs : Logs host log t) {e e' : StoredEvent} (left : e ∈ log)
    (right : e' ∈ log) (same : e.levId = e'.levId) : e = e' := by
  have nodup : (log.map StoredEvent.levId).Nodup := logs.numbered ▸ nodup_range'
  exact inj_on_of_nodup_map nodup left right same

theorem Logs.same (logs : Logs host log t) (same : SamePrimary t t') : Logs host log t' := by
  refine ⟨logs.exact.same same, logs.numbered, fun lev p held => ?_⟩
  rw [same.payload]
  exact logs.stored lev p (same.stored.mp held)

theorem Logged.same (logged : Logged host log txn) (same : SamePrimary txn.tables txn'.tables)
    (keeps : KeepsSequence txn txn') : Logged host log txn' :=
  ⟨logged.logs.same same, logged.sequence.keep keeps same.event⟩

theorem Logs.remove {lev : Nat} (logs : Logs host log t) (removes : Removes host t t' lev p) :
    Logs host log t' := by
  refine ⟨logs.exact.remove removes, logs.numbered, fun n q held => ?_⟩
  obtain ⟨held, other⟩ := removes.stored_iff.mp held
  obtain ⟨e, listed, number, packed, payload⟩ := logs.stored n q held
  refine ⟨e, listed, number, packed, (removes.payload _).mpr ⟨payload, fun same => other ?_⟩⟩
  exact u64NeBytes_inj held.1 removes.stored.1 same

theorem Logs.add {json : Bytes} (logs : Logs host log t)
    (adds : Adds host t t' (log.length + 1) p json) :
    Logs host (log ++ [⟨log.length + 1, p.buf, json⟩]) t' := by
  refine ⟨logs.exact.add adds, ?_, fun lev q held => ?_⟩
  · rw [map_append, logs.numbered, length_append, length_singleton,
      range'_concat, Nat.one_mul, Nat.add_comm 1]
    rfl
  · rcases adds.stored.mp held with ⟨rfl, rfl⟩ | old
    · exact ⟨_, mem_append_right _ (mem_singleton_self _), rfl, rfl,
        (adds.payload _).mpr (.inl rfl)⟩
    · obtain ⟨e, listed, number, packed, payload⟩ := logs.stored lev q old
      refine ⟨e, mem_append_left _ listed, number, packed,
        (adds.payload _).mpr (.inr ⟨payload, fun same => ?_⟩)⟩
      have equal := u64NeBytes_inj old.1 adds.small same
      have bound := (logs.levId_le listed).2
      omega

theorem Logged.insert {lev : Nat} {json : Bytes} (logged : Logged host log txn)
    (run : insertEvent host txn p json = .ok (lev, txn')) :
    lev = log.length + 1 ∧ Logged host (log ++ [⟨lev, p.buf, json⟩]) txn' := by
  obtain ⟨rfl, sequence⟩ := logged.sequence.insert run
  refine ⟨rfl, logged.logs.add (insertEvent_adds run), ?_⟩
  rw [length_append, length_singleton]
  exact sequence

theorem Logged.remove {env : Services} {lev : Nat} {deleted : Bool}
    (logged : Logged env.host log txn) (held : Holds txn.tables lev p)
    (run : deleteEventBasic env txn lev = .ok (deleted, txn')) : Logged env.host log txn' :=
  ⟨logged.logs.remove (deleteEventBasic_removes held run), logged.sequence.remove held run⟩

end Log

/-! ### The writer -/

section Writer

variable {σ : Type} {env : Services} {sink : NegentropySink σ} {policy : VanishPolicy}
  {authorQuota : Nat} {log : List StoredEvent} {w w' : Writer σ}
variable {p : PackedEvent} {txn : RwTxn} {levs : List Nat} {e : EventToWrite}
  {status : EventWriteStatus}

theorem markRequest_keeps {txn' : RwTxn} (run : markRequest policy txn p = .ok txn') :
    KeepsSequence txn txn' := by
  rcases markRequest_eq run with rfl | run
  · exact .refl _
  · exact markVanished_keeps run

theorem overQuota_keeps {txn' : RwTxn} {refused : Bool}
    (run : overQuota authorQuota txn p levs = .ok (refused, txn')) : KeepsSequence txn txn' := by
  rcases overQuota_eq run with rfl | ⟨_, rfl⟩
  · exact .refl _
  · exact cacheCount_keeps _ _

theorem copyStatus_ne_written {st : Batch σ} (copy : copyStatus st e = some status) :
    status ≠ .written := by
  unfold copyStatus at copy
  split at copy
  · cases copy
  · split_ifs at copy
    split at copy
    · cases copy
      decide
    · cases copy
      decide
    · rename_i other _
      cases copy
      exact other

theorem checkVersions_ne_written {json : Bytes}
    (run : checkVersions env.host txn p json .pending = .ok (status, levs)) :
    status ≠ .written := by
  unfold checkVersions at run
  by_cases versioned : isVersioned p.kind = true
  · rw [if_pos versioned] at run
    split at run
    · cases run
      decide
    · simp only [bind_eq_ok, if_true] at run
      obtain ⟨seen, _, run⟩ := run
      by_cases lost : seen.superseded = true
      · rw [if_pos lost] at run
        cases run
        decide
      · rw [if_neg lost] at run
        simp only [bind_eq_ok, pure_eq_ok, Prod.mk.injEq] at run
        obtain ⟨deleted, _, rfl, _⟩ := run
        cases deleted <;> decide
  · rw [if_neg versioned] at run
    cases run
    decide

theorem judge_ne_written (new : e.status = .pending)
    (run : judge env policy txn p e = .ok (status, levs)) : status ≠ .written := by
  simp only [judge, bind_eq_ok] at run
  obtain ⟨refused, refusing, run⟩ := run
  cases refused with
  | some found =>
    cases run
    rcases refusal_status refusing with rfl | rfl <;> decide
  | none =>
    simp only [bind_eq_ok, pure_eq_ok, Prod.exists, Prod.mk.injEq] at run
    obtain ⟨found, versions, checked, _, _, rfl, _⟩ := run
    rw [new] at checked
    exact checkVersions_ne_written checked

theorem writtenEvents_settle {done : List EventToWrite} (other : status ≠ .written) :
    writtenEvents (done ++ [{ e with status := status }]) = writtenEvents done := by
  simp [writtenEvents, filter_append, other]

end Writer

/-! ### Commits -/

section Commits

variable {host : Host} {log : List StoredEvent} {txn : RwTxn} {t : Tables}

theorem flushAuthors_get {key : Bytes} (authors : ∀ c ∈ txn.authorCounts, c.1 ≠ key) :
    (flushAuthors txn).get Dbis.state key = txn.get Dbis.state key := by
  have counters : ∀ (counts : List (Bytes × Nat)) (txn : RwTxn), (∀ c ∈ counts, c.1 ≠ key) →
      (counts.foldl (fun txn c => putCounter txn c.1 c.2) txn).get Dbis.state key
        = txn.get Dbis.state key := by
    intro counts
    induction counts with
    | nil => exact fun _ _ => rfl
    | cons c counts ih =>
      intro txn others
      obtain ⟨first, rest⟩ := forall_mem_cons.mp others
      exact (ih _ rest).trans (Tables.get_put_of_ne (by decide) first.symm)
  exact counters _ _ authors

theorem flushCounters_authors (txn : RwTxn) :
    (flushSuperseded (flushSequence txn)).authorCounts = txn.authorCounts := by
  unfold flushSuperseded flushSequence
  split <;> split <;> rfl

theorem commit_highWater (authors : ∀ c ∈ txn.authorCounts, c.1 ≠ highWater) :
    (commit txn).get Dbis.state highWater
      = flushed txn.eventSequence (txn.get Dbis.state highWater) := by
  show (flushAuthors (flushSuperseded (flushSequence txn))).get Dbis.state highWater = _
  rw [flushAuthors_get (flushCounters_authors txn ▸ authors), flushSuperseded_get, if_neg (by decide),
    flushSequence_get, if_pos rfl]

theorem SequencedAt.commit {n : Nat} (at' : SequencedAt txn n) :
    SequencedAt (.begin (commit txn)) n := by
  have rows : (Db.commit txn).rows Dbis.event = txn.tables.rows Dbis.event :=
    flush_touches txn _ (by decide)
  have largest : (RwTxn.begin (Db.commit txn)).largestIntegerKey Dbis.event
      = txn.largestIntegerKey Dbis.event := largestIntegerKey_congr rows
  refine ⟨at'.small, ?_, fun c member => (by cases member), ?_⟩
  · rw [largest]
    show Counts none ((Db.commit txn).get Dbis.state highWater) n ∨
      none = none ∧ (Db.commit txn).get Dbis.state highWater = none ∧ _
    rw [commit_highWater at'.authors]
    rcases at'.counter with counts | ⟨cached, stored, greatest⟩
    · exact .inl (.inr ⟨rfl, flushed_of_counts counts⟩)
    · exact .inr ⟨rfl, by rw [cached, stored]; rfl, greatest⟩
  · show ∀ e ∈ (Db.commit txn).rows Dbis.event, _
    rw [rows]
    exact at'.below

/-- **A commit keeps the log.** -/
theorem commit_logged (logged : Logged host log txn) :
    Logged host log (.begin (commit txn)) := by
  have same : SamePrimary txn.tables (commit txn) := fun d inside =>
    flush_touches txn d (by rintro (_ | ⟨_, inside'⟩) <;> contradiction)
  exact ⟨logged.logs.same same, logged.sequence.commit⟩

theorem fresh_logged (host : Host) : Logged host [] (.begin .fresh) where
  logs := ⟨exact_of_empty Tables.fresh_primary, rfl,
    fun lev p held => absurd held (not_holds_fresh lev p)⟩
  sequence := ⟨by decide, .inr ⟨rfl, by decide, by decide⟩, fun _ member => (by cases member),
    fun e (member : e ∈ Tables.fresh.rows Dbis.event) => by
      rw [Tables.fresh_primary _ (by decide)] at member
      cases member⟩

end Commits

end Wok.Db
