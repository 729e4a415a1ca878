/-
**Local ids over runs with purges.**

A database may hold events but no high-water mark, as older releases left it. Then the first change
of a transaction takes the greatest key, before anything is removed; from then on the sequence is
kept in the transaction and stored when it commits. So no local id is given twice, whatever was
deleted or purged in between.

* `sequencedAt_begin` — where the sequence of a database stands.
* `local_ids_increase` — **the local ids given by the committed transactions of a run increase,
  above all ids at its start.**
-/

import Wok.Db.Purge

namespace Wok.Db

open Wok.Library Wok.Event List

/-! ### The start of a run -/

/-- The local ids of the stored events. -/
def StoredIds (t : Tables) (bound : Nat) : Prop :=
  ∀ e ∈ t.rows Dbis.event, ∃ lev < bound, e.1 = u64NeBytes lev

theorem largestIntegerKey_eq {t : Tables} (ids : StoredIds t (2 ^ 64)) :
    ∃ n < 2 ^ 64, (RwTxn.begin t).largestIntegerKey Dbis.event = .ok n ∧
      ∀ e ∈ t.rows Dbis.event, ∃ lev ≤ n, e.1 = u64NeBytes lev := by
  have begun : (RwTxn.begin t).tables = t := rfl
  unfold RwTxn.largestIntegerKey
  rw [begun]
  rcases eq_nil_or_concat (t.rows Dbis.event) with empty | ⟨before, last, split⟩
  · rw [empty]
    exact ⟨0, by decide, rfl, by simp⟩
  · have member : last ∈ t.rows Dbis.event := by simp [split]
    obtain ⟨n, small, key⟩ := ids last member
    have length : (u64NeBytes n).length = 8 := by simp [u64NeBytes]
    refine ⟨n, small, ?_, fun e inside => ?_⟩
    · rw [split, concat_eq_append, getLast?_concat]
      simp only [key, ensure_of length, ok_bind, u64FromNe_u64NeBytes small]
      rfl
    · obtain ⟨m, small', same⟩ := ids e inside
      refine ⟨m, ?_, same⟩
      have sorted := t.sorted Dbis.event
      rw [split, concat_eq_append] at sorted inside
      rcases mem_append.mp inside with earlier | here
      · have less : entryCode Dbis.event e < entryCode Dbis.event last :=
          (pairwise_append.mp sorted).2.2 e earlier last (mem_singleton_self _)
        rw [Tables.entryCode_plain (by decide), Tables.entryCode_plain (by decide), key, same] at less
        exact (keyPrefix_event small' small).mp less.le
      · rw [mem_singleton.mp here, key] at same
        exact (u64NeBytes_inj small small' same).ge

/-- **The start of a run**: with the high-water mark, or without one. -/
theorem sequencedAt_begin {t : Tables} (ids : StoredIds t (2 ^ 64))
    (mark : t.get Dbis.state highWater = none ∨
      ∃ n, n < 2 ^ 64 ∧ t.get Dbis.state highWater = some (u64NeBytes n) ∧ StoredIds t (n + 1)) :
    ∃ n, SequencedAt (.begin t) n := by
  rcases mark with unmarked | ⟨n, small, marked, below⟩
  · obtain ⟨n, small, largest, below⟩ := largestIntegerKey_eq ids
    exact ⟨n, small, .inr ⟨rfl, unmarked, largest⟩, fun c member => (by cases member), below⟩
  · refine ⟨n, small, .inl (.inr ⟨rfl, marked⟩), fun c member => (by cases member), ?_⟩
    intro e member
    obtain ⟨lev, less, same⟩ := below e member
    exact ⟨lev, Nat.lt_succ_iff.mp less, same⟩

/-! ### The ids given -/

/-- The events written since the start of a run have increasing local ids, above those at the
start, and the sequence stands at or above them. -/
structure Given (start : Tables) (log : List StoredEvent) (txn : RwTxn) : Prop where
  increasing : (log.map StoredEvent.levId).Pairwise (· < ·)
  above : ∀ e ∈ log, StoredIds start e.levId
  sequence : ∃ n, SequencedAt txn n ∧ (∀ e ∈ log, e.levId ≤ n) ∧ StoredIds start (n + 1)

section Given

variable {start : Tables} {log : List StoredEvent} {txn txn' : RwTxn}

theorem Given.keep (given : Given start log txn) (keeps : KeepsSequence txn txn')
    (same : txn'.tables.rows Dbis.event = txn.tables.rows Dbis.event) : Given start log txn' := by
  obtain ⟨n, at', bound⟩ := given.sequence
  exact ⟨given.increasing, given.above, n, at'.keep keeps same, bound⟩

theorem Given.insert {host : Host} {p : PackedEvent} {json : Bytes} {lev : Nat}
    (given : Given start log txn) (run : insertEvent host txn p json = .ok (lev, txn')) :
    Given start (log ++ [⟨lev, p.buf, json⟩]) txn' := by
  obtain ⟨n, at', bound, old⟩ := given.sequence
  obtain ⟨rfl, next⟩ := at'.insert run
  refine ⟨?_, fun e member => ?_, n + 1, next, fun e member => ?_, fun e member => ?_⟩
  · rw [map_append, pairwise_append]
    refine ⟨given.increasing, pairwise_singleton _ _, fun a inLog b last => ?_⟩
    obtain ⟨e, listed, rfl⟩ := mem_map.mp inLog
    obtain rfl : b = n + 1 := by simpa using last
    exact Nat.lt_succ_of_le (bound e listed)
  · rcases mem_append.mp member with listed | last
    · exact given.above e listed
    · obtain rfl := mem_singleton.mp last
      exact old
  · rcases mem_append.mp member with listed | last
    · exact (bound e listed).trans (Nat.le_succ n)
    · obtain rfl := mem_singleton.mp last
      exact le_rfl
  · obtain ⟨m, less, same⟩ := old e member
    exact ⟨m, less.trans (Nat.lt_succ_self _), same⟩

theorem given_kept (env : Services) (start : Tables) :
    KeptByWriter env (fun _ => True) (Given start) where
  counted given quota := given.keep (overQuota_keeps quota) (by rw [overQuota_tables quota])
  stored _ _ _ _ given mark insert :=
    (given.keep (markRequest_keeps mark) (markRequest_touches mark _ (by decide))).insert insert
  removed held given run := by
    obtain ⟨n, at', bound⟩ := given.sequence
    exact ⟨given.increasing, given.above, n, at'.remove held run, bound⟩

theorem Given.note (given : Given start log txn) (first last : Nat) :
    Given start log (noteTagKindIndexed txn first last) :=
  given.keep (noteTagKindIndexed_keeps txn first last)
    (noteTagKindIndexed_touches txn first last _ (by decide))

theorem Given.commit (given : Given start log txn) : Given start log (.begin (commit txn)) := by
  obtain ⟨n, at', bound⟩ := given.sequence
  exact ⟨given.increasing, given.above, n, at'.commit, bound⟩

end Given

/-! ### Runs -/

/-- A batch, a deletion or a batch of a purge. -/
inductive IdCall
  | writer (c : WriterCall)
  | purge (after : Option Bytes) (maxEntries : Nat)

section Runs

variable {σ : Type} (env : Services) (sink : NegentropySink σ)

/-- A call on the transaction, with the events written so far. -/
def IdCall.apply : IdCall → Writer σ × List StoredEvent →
    Except DbError (Writer σ × List StoredEvent)
  | .writer (.write policy authorQuota evs), (w, log) =>
    (writeEventsWithQuota env sink policy authorQuota w evs).map fun result =>
      (result.1, log ++ writtenEvents result.2)
  | .writer (.delete levs), (w, log) =>
    (deleteEvents env sink w levs).map fun result => (result.2, log)
  | .purge after maxEntries, (w, log) =>
    (purgeBatch env sink w after maxEntries).map fun result => (result.2, log)

/-- Every event comes to the writer unwritten. -/
def IdCall.AllNew : IdCall → Prop
  | .writer (.write _ _ evs) => ∀ e ∈ evs, e.status = .pending
  | _ => True

/-- Transactions that remember the events written by the committed ones. -/
def recorded : Transactional ((Tables × σ) × List StoredEvent) (Writer σ × List StoredEvent) IdCall
    DbError where
  begin store := (⟨.begin store.1.1, store.1.2⟩, store.2)
  call := IdCall.apply env sink
  commit opened := ((commit opened.1.txn, opened.1.trees), opened.2)

/-- The events written by the committed transactions of a run. -/
def committedLog (start : Tables) (trees : σ) (acts : List (Act IdCall)) : List StoredEvent :=
  ((recorded env sink).run ((recorded env sink).start ((start, trees), [])) acts).committed.2

variable {env sink}

theorem purgeBatch_deletes {w w' : Writer σ} {after : Option Bytes} {maxEntries : Nat}
    {batch : PurgeBatch} (run : purgeBatch env sink w after maxEntries = .ok (batch, w')) :
    ∃ levs n, deleteEvents env sink w levs = .ok (n, w') := by
  unfold purgeBatch at run
  simp only [] at run
  split at run
  · cases run
  · simp only [bind_eq_ok, pure_eq_ok, Prod.exists, Prod.mk.injEq] at run
    obtain ⟨losers, _, n, w'', deleted, _, rfl⟩ := run
    exact ⟨_, n, deleted⟩

theorem IdCall.apply_given {start : Tables} {c : IdCall} (new : c.AllNew)
    {opened opened' : Writer σ × List StoredEvent} (given : Given start opened.2 opened.1.txn)
    (run : c.apply env sink opened = .ok opened') : Given start opened'.2 opened'.1.txn := by
  have kept := given_kept env start
  cases c with
  | writer c =>
    cases c with
    | write policy authorQuota evs =>
      obtain ⟨⟨w', done⟩, call, rfl⟩ := map_eq_ok.mp run
      obtain ⟨written, given', events⟩ := kept.writeEvents
        (fun first last given => given.note first last) (fun _ _ => trivial) given call
      rw [← events new] at given'
      exact given'
    | delete levs =>
      obtain ⟨⟨n, w'⟩, call, rfl⟩ := map_eq_ok.mp run
      exact kept.deleteEvents given call
  | purge after maxEntries =>
    obtain ⟨⟨batch, w'⟩, call, rfl⟩ := map_eq_ok.mp run
    obtain ⟨levs, n, deleted⟩ := purgeBatch_deletes call
    exact kept.deleteEvents given deleted

/-- **Local ids are given once.** On a database whose high-water mark, if it has one, is not below
its events, the local ids given by the committed transactions of any run increase, are above every
id at the start, and no two events have the same. -/
theorem local_ids_increase (env : Services) (sink : NegentropySink σ) {start : Tables}
    (ids : StoredIds start (2 ^ 64))
    (mark : start.get Dbis.state highWater = none ∨ ∃ n, n < 2 ^ 64 ∧
      start.get Dbis.state highWater = some (u64NeBytes n) ∧ StoredIds start (n + 1))
    (trees : σ) {acts : List (Act IdCall)} (new : ∀ c, Act.call c ∈ acts → c.AllNew) :
    ((committedLog env sink start trees acts).map StoredEvent.levId).Pairwise (· < ·) ∧
    (∀ e ∈ committedLog env sink start trees acts, StoredIds start e.levId) ∧
    ∀ e ∈ committedLog env sink start trees acts, ∀ e' ∈ committedLog env sink start trees acts,
      e.levId = e'.levId → e = e' := by
  obtain ⟨n, at'⟩ := sequencedAt_begin ids mark
  have fresh : Given start [] (.begin start) := by
    refine ⟨List.Pairwise.nil, by simp, n, at', by simp, fun e member => ?_⟩
    obtain ⟨lev, le, same⟩ := at'.below e member
    exact ⟨lev, Nat.lt_succ_of_le le, same⟩
  have given : Given start (committedLog env sink start trees acts) (.begin
      ((recorded env sink).run ((recorded env sink).start ((start, trees), [])) acts).committed.1.1) :=
    (Transactional.run_invariant (m := recorded env sink)
      (s := (recorded env sink).start ((start, trees), []))
      (fun opened => Given start opened.2 opened.1.txn) IdCall.AllNew
      (fun c new opened opened' given run => IdCall.apply_given new given run)
      (fun opened given => given.commit) fresh fresh new).1
  refine ⟨given.increasing, given.above, fun e left e' right same => ?_⟩
  have nodup : ((committedLog env sink start trees acts).map StoredEvent.levId).Nodup :=
    given.increasing.imp fun less => less.ne
  exact inj_on_of_nodup_map nodup left right same

/-- One event and no high-water mark. -/
def unmarkedTables : Tables :=
  Tables.fresh.put Dbis.event (u64NeBytes 7) (List.replicate 88 0)

/-- The newest event is deleted and the index is purged, then another event is written. -/
def unmarkedRun : List (Act IdCall) :=
  [.call (.writer (.delete [7])), .commit, .call (.purge none 1), .abort,
    .call (.writer (.write .disabled 0 [.new (List.replicate 88 1) []])), .commit]

theorem local_ids_increase_unmarked :
    unmarkedTables.get Dbis.state highWater = none ∧
    ((committedLog sampleServices noopNegentropy unmarkedTables () unmarkedRun).map
      StoredEvent.levId).Pairwise (· < ·) ∧
    (∀ e ∈ committedLog sampleServices noopNegentropy unmarkedTables () unmarkedRun,
      StoredIds unmarkedTables e.levId) ∧
    ∀ e ∈ committedLog sampleServices noopNegentropy unmarkedTables () unmarkedRun,
      ∀ e' ∈ committedLog sampleServices noopNegentropy unmarkedTables () unmarkedRun,
        e.levId = e'.levId → e = e' := by
  have unmarked : unmarkedTables.get Dbis.state highWater = none := by decide
  refine ⟨unmarked, local_ids_increase sampleServices noopNegentropy ?_ (.inl unmarked) () ?_⟩
  · intro e member
    rcases (Tables.mem_put_plain (by decide)).mp member with rfl | ⟨old, _⟩
    · exact ⟨7, by decide, rfl⟩
    · rw [show Tables.fresh.rows Dbis.event = [] from rfl] at old
      cases old
  · intro c member
    simp only [unmarkedRun, mem_cons, Act.call.injEq, reduceCtorEq, not_mem_nil, or_false,
      false_or] at member
    rcases member with rfl | rfl | rfl
    · trivial
    · trivial
    · intro e member
      rw [mem_singleton.mp member]
      rfl

end Runs

end Wok.Db
