/-
**Invariants of the calls of the writer.**

A property of the transaction, which may speak of the log of the events stored so far, is kept by
batches and deletions when it is kept by their three changes: a count read for a quota, an event
stored and an event removed. The end of a batch may move the marker of the `(tag, kind)` table,
which most properties do not see.

* `KeptByWriter` — the three changes.
* `KeptByWriter.writeLoop`, `KeptByWriter.writeEvents`, `KeptByWriter.deleteEvents` — **the calls
  keep what the changes keep.**
* `insertEvent_touches`, `deleteEventBasic_touches` — the tables the changes leave alone.
* `transactions` — runs of calls on one database.
* `WriterCall.Passes` — the transactions a call passes; `KeptByWriter.passes` — **what the changes
  keep holds at each of them.**
* `Marked` — the transaction describes the log, and the stored high-water mark is not ahead of it;
  `Marked.greatest` — **the greatest local id ever given is the length of the log.**
-/

import Wok.Db.Sequence
import Wok.Library.Transaction

namespace Wok.Db

open Wok.Library Wok.Event

/-! ### The rule -/

/-- A property that the changes of the writer keep, for events that satisfy `valid`. -/
structure KeptByWriter (env : Services) (valid : EventToWrite → Prop)
    (Inv : List StoredEvent → RwTxn → Prop) : Prop where
  counted : ∀ {log txn txn' authorQuota p levs refused}, Inv log txn →
    overQuota authorQuota txn p levs = .ok (refused, txn') → Inv log txn'
  stored : ∀ {log policy e p levs judgedIn txn marked lev inserted}, valid e →
    viewPacked e.packed = .ok p → judge env policy judgedIn p e = .ok (.pending, levs) →
    txn.tables = judgedIn.tables → Inv log txn → markRequest policy txn p = .ok marked →
    insertEvent env.host marked p e.json = .ok (lev, inserted) →
    Inv (log ++ [⟨lev, p.buf, e.json⟩]) inserted
  removed : ∀ {log txn lev p deleted txn'}, Holds txn.tables lev p → Inv log txn →
    deleteEventBasic env txn lev = .ok (deleted, txn') → Inv log txn'

/-- The first and the last local id of a batch are those of the events it wrote. -/
structure Batch.Wrote {σ : Type} (st : Batch σ) (written : List StoredEvent) : Prop where
  first : st.firstInserted = written.head?.map StoredEvent.levId
  last : st.lastInserted = written.getLast?.map StoredEvent.levId

namespace KeptByWriter

variable {σ : Type} {env : Services} {sink : NegentropySink σ} {policy : VanishPolicy}
  {authorQuota : Nat} {valid : EventToWrite → Prop} {Inv : List StoredEvent → RwTxn → Prop}
  {log : List StoredEvent} {w w' : Writer σ}

section Calls

variable (kept : KeptByWriter env valid Inv)

include kept

theorem removeEvent (log : List StoredEvent) {lev : Nat} {deleted : Bool} (small : lev < 2 ^ 64)
    (inv : Inv log w.txn) (run : removeEvent env sink w lev = .ok (deleted, w')) : Inv log w'.txn := by
  unfold Wok.Db.removeEvent at run
  split at run
  · cases run
    exact inv
  · rename_i buf found
    simp only [bind_eq_ok, pure_eq_ok, Prod.mk.injEq, Prod.exists] at run
    obtain ⟨p, viewed, trees, _, _, txn, delete, _, rfl⟩ := run
    exact kept.removed (holds_of_get small ((viewPacked_eq viewed).symm ▸ found)) inv delete

theorem removeEvents {levs : List Nat} (small : SmallIds levs) (inv : Inv log w.txn)
    (run : removeEvents env sink w levs = .ok w') : Inv log w'.txn := by
  refine foldlM_preserves (fun w : Writer σ => Inv log w.txn) ?_ inv run
  intro w lev w' member inv step
  obtain ⟨⟨deleted, _⟩, removed, rfl⟩ := map_eq_ok.mp step
  exact kept.removeEvent log (small lev member) inv removed

/-- One round of the loop writes one event or none. -/
theorem writeOne (log : List StoredEvent) {st st' : Batch σ} {e : EventToWrite} (ok : valid e)
    {written : List StoredEvent} (wrote : st.Wrote written) (inv : Inv (log ++ written) st.writer.txn)
    (run : writeOne env sink policy authorQuota st e = .ok st') :
    ∃ more, st'.Wrote (written ++ more) ∧ Inv (log ++ (written ++ more)) st'.writer.txn ∧
      (e.status = .pending → writtenEvents st'.done = writtenEvents st.done ++ more) := by
  have none : ∀ {st' : Batch σ}, st'.Wrote written → Inv (log ++ written) st'.writer.txn →
      (e.status = .pending → writtenEvents st'.done = writtenEvents st.done) →
      ∃ more, st'.Wrote (written ++ more) ∧ Inv (log ++ (written ++ more)) st'.writer.txn ∧
        (e.status = .pending → writtenEvents st'.done = writtenEvents st.done ++ more) := by
    intro st' wrote inv events
    refine ⟨[], ?_⟩
    rw [List.append_nil, List.append_nil]
    exact ⟨wrote, inv, events⟩
  cases writeOne_round run with
  | copied copy =>
    exact none ⟨wrote.first, wrote.last⟩ inv
      fun _ => writtenEvents_settle (copyStatus_ne_written copy)
  | refused viewed judged =>
    exact none ⟨wrote.first, wrote.last⟩ inv
      fun new => writtenEvents_settle (judge_ne_written new judged)
  | exceeded judged =>
    exact none ⟨wrote.first, wrote.last⟩ (kept.counted inv judged.quota)
      fun _ => writtenEvents_settle (by decide)
  | @written p levs counted lev last judged stored =>
    simp only [storeEvent, bind_eq_ok, pure_eq_ok, Prod.mk.injEq, Prod.exists] at stored
    obtain ⟨marked, mark, n, inserted, insert, trees, _, removed, remove, rfl, rfl⟩ := stored
    have next := kept.stored ok judged.viewed judged.judged (overQuota_tables judged.quota)
      (kept.counted inv judged.quota) mark insert
    refine ⟨[⟨n, p.buf, e.json⟩], ⟨?_, ?_⟩, ?_, fun _ => ?_⟩
    · rw [wrote.first]
      cases written <;> rfl
    · rw [List.getLast?_concat]
      rfl
    · rw [← List.append_assoc]
      exact kept.removeEvents (w := ⟨inserted, trees⟩) (judge_small judged.judged) next remove
    · simp [writtenEvents, List.filter_append, viewPacked_eq judged.viewed]

/-- **The loop over a batch.** -/
theorem writeLoop {evs : List EventToWrite} {st : Batch σ} (ok : ∀ e ∈ evs, valid e)
    (inv : Inv log w.txn)
    (run : evs.foldlM (Wok.Db.writeOne env sink policy authorQuota) ⟨w, [], none, none⟩ = .ok st) :
    ∃ written, st.Wrote written ∧ Inv (log ++ written) st.writer.txn ∧
      ((∀ e ∈ evs, e.status = .pending) → writtenEvents st.done = written) := by
  refine foldlM_preserves (fun st : Batch σ => ∃ written, st.Wrote written ∧
    Inv (log ++ written) st.writer.txn ∧
    ((∀ e ∈ evs, e.status = .pending) → writtenEvents st.done = written)) ?_ ?_ run
  · rintro st e st' member ⟨written, wrote, inv, events⟩ step
    obtain ⟨more, wrote', inv', events'⟩ := kept.writeOne log (ok e member) wrote inv step
    refine ⟨written ++ more, wrote', inv', fun new => ?_⟩
    rw [events' (new e member), events new]
  · exact ⟨[], ⟨rfl, rfl⟩, (List.append_nil log).symm ▸ inv, fun _ => rfl⟩

/-- **A batch**, for a property that does not see the marker of the `(tag, kind)` table. -/
theorem writeEvents
    (noted : ∀ {log txn} first last, Inv log txn → Inv log (noteTagKindIndexed txn first last))
    {evs done : List EventToWrite} (ok : ∀ e ∈ evs, valid e) (inv : Inv log w.txn)
    (run : writeEventsWithQuota env sink policy authorQuota w evs = .ok (w', done)) :
    ∃ written, Inv (log ++ written) w'.txn ∧
      ((∀ e ∈ evs, e.status = .pending) → writtenEvents done = written) := by
  simp only [writeEventsWithQuota, bind_eq_ok, pure_eq_ok] at run
  obtain ⟨st, loop, finished⟩ := run
  have sorted : ∀ {e}, e ∈ evs.insertionSort (fun a b => a.before b = true) → e ∈ evs :=
    fun member => (List.mem_insertionSort _).mp member
  obtain ⟨written, _, inv, events⟩ := kept.writeLoop (fun e member => ok e (sorted member)) inv loop
  have done_eq : done = st.done := (congrArg Prod.snd finished.symm).trans st.finish_done
  refine ⟨written, ?_, fun new => done_eq ▸ events fun e member => new e (sorted member)⟩
  rw [show w' = st.finish.1 from congrArg Prod.fst finished.symm]
  exact st.finish_keeps inv fun first last => noted first last inv

/-- **Deletions.** -/
theorem deleteEvents {levs : List (Fin (2 ^ 64))} {n : Nat} (inv : Inv log w.txn)
    (run : deleteEvents env sink w levs = .ok (n, w')) : Inv log w'.txn := by
  refine foldlM_preserves (fun done : Nat × Writer σ => Inv log done.2.txn) ?_ inv run
  intro done lev done' _ inv step
  simp only [deleteOne, bind_eq_ok, pure_eq_ok, Prod.exists] at step
  obtain ⟨_, w, removed, rfl⟩ := step
  exact kept.removeEvent log lev.isLt inv removed

end Calls

end KeptByWriter

/-- `write_events_with_quota` and `delete_events` on an open transaction. -/
inductive WriterCall
  | write (policy : VanishPolicy) (authorQuota : Nat) (evs : List EventToWrite)
  | delete (levs : List (Fin (2 ^ 64)))

section Calls

variable {σ : Type} (env : Services) (sink : NegentropySink σ)

def WriterCall.apply : WriterCall → Writer σ → Except DbError (Writer σ)
  | .write policy authorQuota evs, w =>
    (writeEventsWithQuota env sink policy authorQuota w evs).map Prod.fst
  | .delete levs, w => (deleteEvents env sink w levs).map Prod.snd

/-- Transactions on the tables and the trees, with these calls. -/
def transactions {Op : Type} (apply : Op → Writer σ → Except DbError (Writer σ)) :
    Transactional (Tables × σ) (Writer σ) Op DbError where
  begin store := ⟨.begin store.1, store.2⟩
  call := apply
  commit w := (commit w.txn, w.trees)

/-- Every event of a batch satisfies `valid`. -/
def WriterCall.All (valid : EventToWrite → Prop) : WriterCall → Prop
  | .write _ _ evs => ∀ e ∈ evs, valid e
  | .delete _ => True

theorem WriterCall.all_true (c : WriterCall) : c.All fun _ => True := by
  cases c with
  | write => exact fun _ _ => trivial
  | delete => trivial

variable {env sink}

/-- **A call of the writer** adds events to the log, or none. -/
theorem KeptByWriter.call {valid : EventToWrite → Prop} {Inv : List StoredEvent → RwTxn → Prop}
    (kept : KeptByWriter env valid Inv)
    (noted : ∀ {log txn} first last, Inv log txn → Inv log (noteTagKindIndexed txn first last))
    {log : List StoredEvent} {w w' : Writer σ} {c : WriterCall} (ok : c.All valid)
    (inv : Inv log w.txn) (run : c.apply env sink w = .ok w') :
    ∃ written, Inv (log ++ written) w'.txn := by
  cases c with
  | write policy authorQuota evs =>
    obtain ⟨⟨_, done⟩, call, rfl⟩ := map_eq_ok.mp run
    obtain ⟨written, inv, _⟩ := kept.writeEvents noted ok inv call
    exact ⟨written, inv⟩
  | delete levs =>
    obtain ⟨⟨n, _⟩, call, rfl⟩ := map_eq_ok.mp run
    exact ⟨[], (List.append_nil log).symm ▸ kept.deleteEvents inv call⟩

end Calls

/-! ### Points inside a call -/

section Points

variable {σ : Type} (env : Services) (sink : NegentropySink σ)

/-- The transactions one round of the loop passes, also one that fails later on. -/
inductive RoundPasses (policy : VanishPolicy) (authorQuota : Nat) (st : Batch σ)
    (e : EventToWrite) : RwTxn → Prop
  | start : RoundPasses policy authorQuota st e st.writer.txn
  | counted {p levs exceeded counted}
      (judged : Judged env policy authorQuota st e p levs exceeded counted) :
      RoundPasses policy authorQuota st e counted
  | marked {p levs counted marked}
      (judged : Judged env policy authorQuota st e p levs false counted)
      (mark : markRequest policy counted p = .ok marked) :
      RoundPasses policy authorQuota st e marked
  | inserted {p levs counted marked lev inserted}
      (judged : Judged env policy authorQuota st e p levs false counted)
      (mark : markRequest policy counted p = .ok marked)
      (insert : insertEvent env.host marked p e.json = .ok (lev, inserted)) :
      RoundPasses policy authorQuota st e inserted
  | removed {p levs counted marked lev inserted trees part w}
      (judged : Judged env policy authorQuota st e p levs false counted)
      (mark : markRequest policy counted p = .ok marked)
      (insert : insertEvent env.host marked p e.json = .ok (lev, inserted))
      (begins : part <+: levs) (remove : removeEvents env sink ⟨inserted, trees⟩ part = .ok w) :
      RoundPasses policy authorQuota st e w.txn

/-- The batch before one of its events. -/
def Reaches (policy : VanishPolicy) (authorQuota : Nat) (evs : List EventToWrite) (w : Writer σ)
    (st : Batch σ) (e : EventToWrite) : Prop :=
  ∃ before after, evs.insertionSort (fun a b => a.before b = true) = before ++ e :: after ∧
    before.foldlM (writeOne env sink policy authorQuota) ⟨w, [], none, none⟩ = .ok st

/-- The transactions a call passes. -/
inductive WriterCall.Passes (w : Writer σ) : WriterCall → RwTxn → Prop
  | start (c : WriterCall) : Passes w c w.txn
  | round {policy authorQuota evs st e txn}
      (reached : Reaches env sink policy authorQuota evs w st e)
      (passed : RoundPasses env sink policy authorQuota st e txn) :
      Passes w (.write policy authorQuota evs) txn
  | removed {levs part done} (begins : part <+: levs)
      (loop : deleteEvents env sink w part = .ok done) : Passes w (.delete levs) done.2.txn
  | done {c : WriterCall} {w' : Writer σ} (run : c.apply env sink w = .ok w') : Passes w c w'.txn

variable {env sink} {valid : EventToWrite → Prop} {Inv : List StoredEvent → RwTxn → Prop}
  {log : List StoredEvent}

section Reaches

variable {policy : VanishPolicy} {authorQuota : Nat} {evs : List EventToWrite} {w w' : Writer σ}

theorem Reaches.event {st : Batch σ} {e : EventToWrite}
    (reached : Reaches env sink policy authorQuota evs w st e) : e ∈ evs := by
  obtain ⟨before, after, split, _⟩ := reached
  rw [← List.mem_insertionSort fun a b : EventToWrite => a.before b = true, split]
  simp

/-- **A batch passes each of its events**, and its answers begin with those given so far. -/
theorem Reaches.of_ok {done : List EventToWrite}
    (run : writeEventsWithQuota env sink policy authorQuota w evs = .ok (w', done))
    {e : EventToWrite} (member : e ∈ evs) :
    ∃ st st', Reaches env sink policy authorQuota evs w st e ∧
      writeOne env sink policy authorQuota st e = .ok st' ∧ st'.done <+: done := by
  obtain ⟨front, back, split⟩ := List.append_of_mem
    ((List.mem_insertionSort fun a b : EventToWrite => a.before b = true).mpr member)
  simp only [writeEventsWithQuota, split, List.foldlM_append, List.foldlM_cons, bind_eq_ok,
    pure_eq_ok] at run
  obtain ⟨last, ⟨st, reached, st', step, rest⟩, finished⟩ := run
  obtain rfl : last.done = done := last.finish_done.symm.trans (congrArg Prod.snd finished)
  refine ⟨st, st', ⟨front, back, split, reached⟩, step, ?_⟩
  refine foldlM_preserves (st'.done <+: Batch.done ·) ?_ (List.prefix_refl _) rest
  intro s x s' _ begins round
  cases writeOne_round round <;> exact begins.trans (List.prefix_append _ _)

/-- **A batch that fails** does so in a state it reaches. -/
theorem Reaches.of_error {err : DbError}
    (run : writeEventsWithQuota env sink policy authorQuota w evs = .error err) :
    ∃ st e, Reaches env sink policy authorQuota evs w st e ∧
      writeOne env sink policy authorQuota st e = .error err := by
  have failed : (evs.insertionSort fun a b => a.before b = true).foldlM
      (writeOne env sink policy authorQuota) ⟨w, [], none, none⟩ = .error err := map_eq_error.mp run
  obtain ⟨front, e, back, st, split, reached, step⟩ := foldlM_failed failed
  exact ⟨st, e, ⟨front, back, split, reached⟩, step⟩

end Reaches

theorem KeptByWriter.roundPasses (kept : KeptByWriter env valid Inv)
    (marks : ∀ {log policy txn p marked}, Inv log txn → markRequest policy txn p = .ok marked →
      Inv log marked) {policy : VanishPolicy} {authorQuota : Nat} {st : Batch σ} {e : EventToWrite}
    (ok : valid e) (inv : Inv log st.writer.txn) {txn : RwTxn}
    (passed : RoundPasses env sink policy authorQuota st e txn) : ∃ log, Inv log txn := by
  have stored : ∀ {p levs counted marked lev inserted},
      Judged env policy authorQuota st e p levs false counted →
      markRequest policy counted p = .ok marked →
      insertEvent env.host marked p e.json = .ok (lev, inserted) → ∃ log, Inv log inserted :=
    fun judged mark insert => ⟨_, kept.stored ok judged.viewed judged.judged
      (overQuota_tables judged.quota) (kept.counted inv judged.quota) mark insert⟩
  cases passed with
  | start => exact ⟨log, inv⟩
  | counted judged => exact ⟨log, kept.counted inv judged.quota⟩
  | marked judged mark => exact ⟨log, marks (kept.counted inv judged.quota) mark⟩
  | inserted judged mark insert => exact stored judged mark insert
  | removed judged mark insert begins remove =>
    obtain ⟨log', inv'⟩ := stored judged mark insert
    have small : SmallIds _ := fun lev member =>
      judge_small judged.judged lev (begins.subset member)
    exact ⟨log', kept.removeEvents (w := ⟨_, _⟩) small inv' remove⟩

theorem KeptByWriter.reaches (kept : KeptByWriter env valid Inv) {policy : VanishPolicy}
    {authorQuota : Nat} {evs : List EventToWrite} {w : Writer σ} {st : Batch σ} {e : EventToWrite}
    (ok : ∀ e ∈ evs, valid e) (inv : Inv log w.txn)
    (reached : Reaches env sink policy authorQuota evs w st e) :
    ∃ log, Inv log st.writer.txn := by
  obtain ⟨before, after, split, loop⟩ := reached
  have listed : ∀ x ∈ before, valid x := fun x member =>
    ok x ((List.mem_insertionSort _).mp (split ▸ List.mem_append_left _ member))
  obtain ⟨written, _, inv, _⟩ := kept.writeLoop listed inv loop
  exact ⟨_, inv⟩

/-- **What the changes keep holds wherever a call passes.** -/
theorem KeptByWriter.passes (kept : KeptByWriter env valid Inv)
    (marks : ∀ {log policy txn p marked}, Inv log txn → markRequest policy txn p = .ok marked →
      Inv log marked)
    (noted : ∀ {log txn} first last, Inv log txn → Inv log (noteTagKindIndexed txn first last))
    {w : Writer σ} {c : WriterCall} (ok : c.All valid) (inv : Inv log w.txn) {txn : RwTxn}
    (passed : c.Passes env sink w txn) : ∃ log, Inv log txn := by
  cases passed with
  | start => exact ⟨log, inv⟩
  | round reached round =>
    obtain ⟨log', inv'⟩ := kept.reaches ok inv reached
    exact kept.roundPasses marks (ok _ reached.event) inv' round
  | removed begins loop => exact ⟨log, kept.deleteEvents inv loop⟩
  | done run =>
    obtain ⟨written, inv'⟩ := kept.call noted ok inv run
    exact ⟨_, inv'⟩

end Points

/-! ### The tables a change leaves alone -/

section Frames

variable {host : Host} {env : Services} {txn txn' : RwTxn} {lev : Nat}
variable {p : PackedEvent}

theorem insertEvent_touches {json : Bytes} (run : insertEvent host txn p json = .ok (lev, txn')) :
    Touches (Dbis.state :: Dbis.eventTagKind :: Dbis.primary) txn txn' := by
  obtain ⟨counted, count, author, -, -, -, rfl⟩ := insertEvent_eq run
  exact ((changeAuthorCount_touches author).mono (by decide)).trans
    ((recorded_touches.mono (by decide)).trans (putIndices_touches.mono (by decide)))

/-- A vanish marker changes two records of the state table. -/
theorem markRequest_state {policy : VanishPolicy} (run : markRequest policy txn p = .ok txn') :
    OnlyTables txn txn' ∧ ∀ key, key ≠ policyGeneration → key ≠ vanishMarkerChangesKey →
      txn'.get Dbis.state key = txn.get Dbis.state key := by
  rcases markRequest_eq run with rfl | run
  · exact ⟨⟨_, rfl⟩, fun _ _ _ => rfl⟩
  · rcases markVanished_eq run with rfl | ⟨_, _, rfl⟩
    · exact ⟨⟨_, rfl⟩, fun _ _ _ => rfl⟩
    · refine ⟨⟨_, rfl⟩, fun key other other' => ?_⟩
      exact (Tables.get_put_of_ne (by decide) other').trans
        ((Tables.get_put_of_ne (by decide) other).trans
          (Tables.get_congr (Tables.rows_put_of_ne (by decide)) key))

theorem removeRecord_touches (run : removeRecord host txn lev = .ok txn') :
    Touches (Dbis.eventTagKind :: Dbis.primary) txn txn' := by
  have inside : ∀ d ∈ Dbis.event :: Dbis.eventTagKind :: Dbis.indices,
      d ∈ Dbis.eventTagKind :: Dbis.primary := by decide
  rcases removeRecord_form run with ⟨_, rfl⟩ | ⟨q, _, _, _, rfl⟩
  · exact .refl _ _
  · exact fun d outside => unrecorded_rows fun member => outside (inside d member)

theorem deleteEventBasic_touches {deleted : Bool}
    (run : deleteEventBasic env txn lev = .ok (deleted, txn')) :
    Touches (Dbis.state :: Dbis.eventTagKind :: Dbis.eventSearch :: Dbis.primary) txn txn' := by
  obtain ⟨_, kind, forgot, json, unindexed, _, author, _, search, record⟩ := deleteEventBasic_eq run
  have forgets : Touches (Dbis.state :: Dbis.eventTagKind :: Dbis.eventSearch :: Dbis.primary) txn
      forgot := (forgetAuthor_touches author).mono (by decide)
  exact forgets.trans ((touches_delKey (by decide) _).trans
    (((unindexSearch_alters search).touches.mono (by decide)).trans
      ((removeRecord_touches record).mono (by decide))))

end Frames

/-! ### Markers -/

/-- A marker is replaced: a `DUPSORT` key would keep every value put under it. -/
def RwTxn.setMarker (txn : RwTxn) (dbi : Nat) (key : Bytes) (value : Nat) : RwTxn :=
  (txn.delKey dbi key).put dbi key (u64NeBytes value)

def RwTxn.clear (txn : RwTxn) (dbi : Nat) : RwTxn := { txn with tables := txn.tables.clear dbi }

section Markers

variable {txn : RwTxn} {dbi : Nat} {key : Bytes} {e : Kv}

theorem mem_setMarker (dups : (spec dbi).flags.dupSort = true) (value : Nat) :
    e ∈ (txn.setMarker dbi key value).tables.rows dbi
      ↔ e = (key, u64NeBytes value) ∨ e ∈ txn.tables.rows dbi ∧ e.1 ≠ key :=
  (Tables.mem_put_dup dups).trans (or_congr_right Tables.mem_delKey)

theorem setMarker_touches (txn : RwTxn) (dbi : Nat) (key : Bytes) (value : Nat) :
    Touches [dbi] txn (txn.setMarker dbi key value) :=
  (touches_delKey (by simp) _).trans (touches_put (by simp) _ _)

theorem clear_touches (txn : RwTxn) (dbi : Nat) : Touches [dbi] txn (txn.clear dbi) :=
  fun _ outside => Tables.rows_keepOnly_of_ne fun same => outside (same ▸ by simp)

theorem not_mem_clear (txn : RwTxn) (dbi : Nat) (e : Kv) : e ∉ (txn.clear dbi).tables.rows dbi :=
  fun member => absurd (Tables.mem_keepOnly.mp member).2 (by simp)

@[simp] theorem readTimestamp_bytes {n : Nat} (small : n < 2 ^ 64) :
    readTimestamp (u64NeBytes n) = some n := by
  have length : (u64NeBytes n).length = 8 := by simp [u64NeBytes]
  rw [readTimestamp, if_pos length, u64NeBytes, leVal_leBytes small]

/-- The only value under a marker's key is read. -/
theorem marker_eq {t : Tables} {n : Nat} (small : n < 2 ^ 64)
    (only : ∀ value, (key, value) ∈ t.rows dbi ↔ value = u64NeBytes n) :
    marker (t.get dbi key) = some n := by
  obtain ⟨value, found⟩ := Option.isSome_iff_exists.mp
    (Tables.get_isSome.mpr ⟨_, (only _).mpr rfl⟩)
  rw [found, (only value).mp (Tables.mem_of_get found)]
  exact readTimestamp_bytes small

end Markers

/-! ### The high-water mark -/

/-- `tag_kind::high_water`: the stored sequence, if it reads, or the newest event above it. -/
def highWaterMark (sequence : Option Bytes) (newestEvent : Nat) : Nat :=
  max ((sequence.bind fun raw => (decodeCounter raw).toOption).getD 0) newestEvent

/-- The greatest local id ever given, as a write transaction sees it. -/
def RwTxn.highWater (txn : RwTxn) : Except DbError Nat := do
  let newest ← txn.largestIntegerKey Dbis.event
  return max (highWaterMark (txn.get Dbis.state Wok.Db.highWater) newest)
    (txn.eventSequence.getD 0)

/-- The transaction describes the log, and the stored mark is not ahead of it. -/
structure Marked (host : Host) (log : List StoredEvent) (txn : RwTxn) : Prop where
  logged : Logged host log txn
  mark : ∀ raw n, txn.get Dbis.state highWater = some raw → decodeCounter raw = .ok n →
    n ≤ log.length

section Marked

variable {host : Host} {env : Services} {log : List StoredEvent} {txn txn' : RwTxn} {t : Tables}
variable {lev : Nat} {p : PackedEvent}

theorem Logs.small (logs : Logs host log t) (held : Holds t lev p) :
    1 ≤ lev ∧ lev ≤ log.length := by
  obtain ⟨e, listed, rfl, _⟩ := logs.stored lev p held
  exact logs.levId_le listed

theorem Logs.largest (logs : Logs host log txn.tables) :
    ∃ newest, txn.largestIntegerKey Dbis.event = .ok newest ∧ newest ≤ log.length := by
  unfold RwTxn.largestIntegerKey
  cases last : (txn.tables.rows Dbis.event).getLast? with
  | none => exact ⟨0, rfl, Nat.zero_le _⟩
  | some row =>
    obtain ⟨lev, p, held, rfl⟩ := logs.exact.records row (List.mem_of_getLast? last)
    have length : (u64NeBytes lev).length = 8 := by simp [u64NeBytes]
    refine ⟨lev, ?_, (logs.small held).2⟩
    simp only [ensure_of length, ok_bind, u64FromNe_u64NeBytes held.1]
    rfl

/-- **The greatest local id ever given is the length of the log.** -/
theorem Marked.greatest (marked : Marked host log txn) : txn.highWater = .ok log.length := by
  obtain ⟨newest, largest, below⟩ := marked.logged.logs.largest
  have stored : highWaterMark (txn.get Dbis.state Wok.Db.highWater) newest ≤ log.length := by
    unfold highWaterMark
    refine max_le ?_ below
    cases found : txn.get Dbis.state Wok.Db.highWater with
    | none => exact Nat.zero_le _
    | some raw =>
      cases read : decodeCounter raw with
      | error e => simp [read, Except.toOption]
      | ok n => simpa [read, Except.toOption] using marked.mark raw n found read
  rw [RwTxn.highWater, largest, ok_bind]
  refine congrArg Except.ok (le_antisymm (max_le stored ?_) ?_)
  · rcases marked.logged.sequence.counter with (cached | ⟨cached, _⟩) | ⟨cached, _⟩
    · rw [cached, Option.getD_some]
    · rw [cached]
      exact Nat.zero_le _
    · rw [cached]
      exact Nat.zero_le _
  · rcases marked.logged.sequence.counter with (cached | ⟨_, found⟩) | ⟨_, _, greatest⟩
    · rw [cached]
      exact le_max_right _ _
    · refine le_max_of_le_left (le_max_of_le_left ?_)
      rw [found, Option.bind_some, decodeCounter_bytes marked.logged.sequence.small]
      exact le_rfl
    · rw [Except.ok.inj (greatest.symm.trans largest)]
      exact le_max_of_le_left (le_max_right _ _)

theorem Marked.greatest_ro (marked : Marked host log (.begin t)) :
    ∃ newest, (RwTxn.begin t).largestIntegerKey Dbis.event = .ok newest ∧
      highWaterMark (t.get Dbis.state highWater) newest = log.length := by
  have greatest := marked.greatest
  obtain ⟨newest, largest, _⟩ := marked.logged.logs.largest
  rw [RwTxn.highWater, largest, ok_bind] at greatest
  exact ⟨newest, largest, (max_eq_left (Nat.zero_le _)).symm.trans (Except.ok.inj greatest)⟩

/-- A step that leaves the events, the sequence and the log. -/
theorem Marked.same (marked : Marked host log txn) (same : SamePrimary txn.tables txn'.tables)
    (keeps : KeepsSequence txn txn') : Marked host log txn' :=
  ⟨marked.logged.same same keeps, keeps.stored.symm ▸ marked.mark⟩

theorem Marked.insert {json : Bytes} (marked : Marked host log txn)
    (run : insertEvent host txn p json = .ok (lev, txn')) :
    lev = log.length + 1 ∧ Marked host (log ++ [⟨lev, p.buf, json⟩]) txn' := by
  obtain ⟨number, logged⟩ := marked.logged.insert run
  refine ⟨number, logged, fun raw n found read => ?_⟩
  obtain ⟨counted, given, before, _, allocated, after⟩ := insertEvent_keeps run
  have stored : txn'.get Dbis.state highWater = txn.get Dbis.state highWater := by
    obtain ⟨-, rfl⟩ := allocateEventId_eq allocated
    rw [after.stored, ← before.stored]
    rfl
  rw [List.length_append]
  exact (marked.mark raw n (stored ▸ found) read).trans (Nat.le_add_right _ _)

theorem Marked.remove {deleted : Bool} (marked : Marked env.host log txn)
    (held : Holds txn.tables lev p) (run : deleteEventBasic env txn lev = .ok (deleted, txn')) :
    Marked env.host log txn' := by
  obtain ⟨preserved, preserve, keeps⟩ := deleteEventBasic_keeps run
  have stored : txn'.get Dbis.state highWater = txn.get Dbis.state highWater := by
    obtain ⟨_, rfl⟩ := preserveHighWater_eq preserve
    rw [keeps.stored]
    rfl
  exact ⟨marked.logged.remove held run, stored.symm ▸ marked.mark⟩

theorem Marked.commit (marked : Marked host log txn) : Marked host log (.begin (commit txn)) := by
  have logged := commit_logged marked.logged
  refine ⟨logged, fun raw n found read => ?_⟩
  rcases logged.sequence.counter with (cached | ⟨_, stored⟩) | ⟨_, stored, _⟩
  · cases cached
  · rw [stored] at found
    cases found
    rw [decodeCounter_bytes logged.sequence.small] at read
    exact (Except.ok.inj read).ge
  · rw [stored] at found
    cases found

theorem marked_fresh (host : Host) : Marked host [] (.begin .fresh) := by
  refine ⟨fresh_logged host, fun raw n found _ => ?_⟩
  rw [show (RwTxn.begin .fresh).get Dbis.state highWater = none from by decide] at found
  cases found

theorem noteTagKindIndexed_onlyTables (txn : RwTxn) (first last : Nat) :
    OnlyTables txn (noteTagKindIndexed txn first last) := by
  unfold noteTagKindIndexed
  simp only []
  split_ifs
  · exact ⟨_, rfl⟩
  · exact ⟨_, rfl⟩
  · exact ⟨_, rfl⟩

theorem noteTagKindIndexed_keeps (txn : RwTxn) (first last : Nat) :
    KeepsSequence txn (noteTagKindIndexed txn first last) :=
  (noteTagKindIndexed_onlyTables txn first last).keepsSequence
    (noteTagKindIndexed_touches txn first last) (by decide)

end Marked

end Wok.Db
