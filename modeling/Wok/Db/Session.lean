/-
**Runs of the writer.**

A session is a database with one open write transaction. Batches and deletions run in the
transaction; a call that fails drops it, and so does an abort; a commit makes it the committed
state. A fresh database holds only the markers a first open writes.

* `KeptByRuns.run` — **what every change keeps holds in the transaction and the committed state of
  every run.**
* `index_tables_exact` — **the index tables hold exactly the entries of the stored events.**
-/

import Wok.Db.Exact

namespace Wok.Db

open Wok.Library Wok.Event

/-! ### Sessions -/

def searchSchemaKey : Bytes := 0 :: ascii "schema"
def searchSchemaVersion : Nat := 4

/-- What `ensure_initialized` leaves in an empty database. -/
def Tables.fresh : Tables :=
  let t := empty.put Dbis.state supersededKey (u64NeBytes 0)
  let t := t.put Dbis.eventTagKind tagKindSchemaKey (u64NeBytes tagKindSchemaVersion)
  let t := t.put Dbis.eventTagKind tagKindThroughKey (u64NeBytes 0)
  let t := t.put Dbis.eventSearch searchSchemaKey (u64NeBytes searchSchemaVersion)
  t.put Dbis.eventSearch searchIndexedThroughKey (u64NeBytes 0)

/-- A call on the open transaction, or its end. `defer` is `defer_tag_kind_postings` or
`skip_tag_kind_postings`. -/
inductive Step
  | write (policy : VanishPolicy) (authorQuota : Nat) (evs : List EventToWrite)
  | delete (levs : List (Fin (2 ^ 64)))
  | defer (on : Bool)
  | commit
  | abort

/-- The committed tables and trees, and the open transaction. -/
structure Session (σ : Type) where
  committed : Tables
  committedTrees : σ
  writer : Writer σ

namespace Session

variable {σ : Type} (env : Services) (sink : NegentropySink σ)

/-- A new transaction on the committed state. -/
def start (t : Tables) (trees : σ) : Session σ := ⟨t, trees, ⟨.begin t, trees⟩⟩

def fresh (trees : σ) : Session σ := start .fresh trees

/-- The open transaction is dropped. -/
def drop (s : Session σ) : Session σ := start s.committed s.committedTrees

/-- The transaction after a call, dropped when the call failed. -/
def after {α : Type} (s : Session σ) (writer : α → Writer σ) (call : Except DbError α) :
    Session σ :=
  match call with
  | .ok result => { s with writer := writer result }
  | .error _ => s.drop

def step (s : Session σ) : Step → Session σ
  | .write policy authorQuota evs =>
    s.after Prod.fst (writeEventsWithQuota env sink policy authorQuota s.writer evs)
  | .delete levs => s.after Prod.snd (deleteEvents env sink s.writer levs)
  | .defer on => { s with writer.txn.deferTagKind := on }
  | .commit => start (Wok.Db.commit s.writer.txn) s.writer.trees
  | .abort => s.drop

def run (s : Session σ) (steps : List Step) : Session σ := steps.foldl (step env sink) s

/-! ### Invariants of runs -/

variable {env sink}

theorem after_invariant {α : Type} {Inv : Tables → Prop} {s : Session σ} {writer : α → Writer σ}
    {call : Except DbError α} (committed : Inv s.committed)
    (kept : ∀ result, call = .ok result → Inv (writer result).txn.tables) :
    Inv (s.after writer call).committed ∧ Inv (s.after writer call).writer.txn.tables := by
  cases call with
  | ok result => exact ⟨committed, kept result rfl⟩
  | error e => exact ⟨committed, committed⟩

end Session

/-- A property of tables with exact indexes that the changes of a run keep, for events that satisfy
`valid`. -/
structure KeptByRuns (env : Services) (valid : EventToWrite → Prop) (Inv : Tables → Prop) :
    Prop where
  exact : ∀ {t}, Inv t → Exact env.host t
  same : ∀ {t t'}, SamePrimary t t' → Inv t → Inv t'
  written : ∀ {policy txn e p levs lev middle t'}, valid e → viewPacked e.packed = .ok p →
    judge env policy txn p e = .ok (.pending, levs) → Inv txn.tables →
    Adds env.host txn.tables middle lev p e.json → RemovesAll middle t' levs →
    Exact env.host t' → Inv t'
  removed : ∀ {t t' lev p}, Inv t → Removes env.host t t' lev p → Inv t'

namespace KeptByRuns

variable {σ : Type} {env : Services} {sink : NegentropySink σ} {valid : EventToWrite → Prop}
  {Inv : Tables → Prop} {w w' : Writer σ}

theorem writeEvents (kept : KeptByRuns env valid Inv) {policy : VanishPolicy} {authorQuota : Nat}
    {evs done : List EventToWrite} (ok : ∀ e ∈ evs, valid e) (inv : Inv w.txn.tables)
    (run : writeEventsWithQuota env sink policy authorQuota w evs = .ok (w', done)) :
    Inv w'.txn.tables := by
  simp only [writeEventsWithQuota, bind_eq_ok, pure_eq_ok] at run
  obtain ⟨st, loop, finished⟩ := run
  have looped : Inv st.writer.txn.tables := by
    refine foldlM_preserves (fun st : Batch σ => Inv st.writer.txn.tables) ?_ inv loop
    intro st e st' member inv step
    cases writeOne_round step with
    | copied | refused => exact inv
    | exceeded judged => exact kept.same (samePrimary_of_tables (overQuota_tables judged.quota)) inv
    | written judged stored =>
      have same := samePrimary_of_tables (overQuota_tables judged.quota)
      obtain ⟨exact, middle, adds, removes⟩ :=
        storeEvent_effect (judge_small judged.judged) ((kept.exact inv).same same) stored
      exact kept.written (ok e ((List.mem_insertionSort _).mp member)) judged.viewed judged.judged
        inv (adds.of_same same) removes exact
  have ended := st.finish_keeps (P := fun txn => Inv txn.tables) looped fun first last =>
    kept.same ((noteTagKindIndexed_touches _ first last).samePrimary (by decide)) looped
  rw [finished] at ended
  exact ended

theorem deleteEvents (kept : KeptByRuns env valid Inv) {levs : List (Fin (2 ^ 64))} {n : Nat}
    (inv : Inv w.txn.tables) (run : deleteEvents env sink w levs = .ok (n, w')) :
    Inv w'.txn.tables := by
  refine foldlM_preserves (fun done : Nat × Writer σ => Inv done.2.txn.tables) ?_ inv run
  rintro done lev done' _ inv step
  simp only [deleteOne, bind_eq_ok, pure_eq_ok, Prod.exists] at step
  obtain ⟨_, w, removed, rfl⟩ := step
  rcases removeEvent_effect lev.isLt removed with ⟨rfl, _⟩ | ⟨p, removes⟩
  · exact inv
  · exact kept.removed inv removes

/-- **The invariant rule**: what the changes keep holds in the transaction and the committed state of
every run that writes valid events. -/
theorem run (kept : KeptByRuns env valid Inv) (allowed : Step → Prop)
    (writes : ∀ {policy authorQuota evs}, allowed (.write policy authorQuota evs) →
      ∀ e ∈ evs, valid e)
    {s : Session σ} (start : Inv s.committed ∧ Inv s.writer.txn.tables) {steps : List Step}
    (all : ∀ st ∈ steps, allowed st) :
    Inv (s.run env sink steps).committed ∧ Inv (s.run env sink steps).writer.txn.tables := by
  induction steps generalizing s with
  | nil => exact start
  | cons st steps ih =>
    refine ih (s := s.step env sink st) ?_ fun other member =>
      all other (.tail st member)
    have here := all st (.head _)
    cases st with
    | write policy authorQuota evs =>
      exact Session.after_invariant start.1 fun result call =>
        kept.writeEvents (writes here) start.2 call
    | delete levs =>
      exact Session.after_invariant start.1 fun result call => kept.deleteEvents start.2 call
    | defer on => exact start
    | commit =>
      have flushed := kept.same ((flush_touches s.writer.txn).samePrimary (by decide)) start.2
      exact ⟨flushed, flushed⟩
    | abort => exact ⟨start.1, start.1⟩

end KeptByRuns

/-! ### The index tables -/

theorem Tables.fresh_primary : ∀ d ∈ Dbis.primary, Tables.fresh.rows d = [] := by
  intro d inside
  have apart : ∀ d ∈ Dbis.primary,
      d ≠ Dbis.state ∧ d ≠ Dbis.eventTagKind ∧ d ≠ Dbis.eventSearch := by decide
  obtain ⟨state, tagKind, search⟩ := apart d inside
  unfold Tables.fresh
  simp only [Tables.rows_put_of_ne state, Tables.rows_put_of_ne tagKind,
    Tables.rows_put_of_ne search]
  rfl

theorem exact_of_empty {host : Host} {t : Tables} (empty : ∀ d ∈ Dbis.primary, t.rows d = []) :
    Exact host t := by
  have none : ∀ lev p, ¬Holds t lev p := by
    rintro lev p ⟨_, member⟩
    rw [empty _ (by decide)] at member
    cases member
  refine ⟨fun e member => ?_, fun d inside e => ?_⟩
  · rw [empty _ (by decide)] at member
    cases member
  · rw [empty d (.tail _ (.tail _ inside))]
    constructor
    · intro member
      cases member
    · rintro ⟨lev, p, stored, _⟩
      exact absurd stored (none lev p)

theorem run_exact {σ : Type} (env : Services) (sink : NegentropySink σ) (trees : σ)
    (steps : List Step) :
    Exact env.host ((Session.fresh trees).run env sink steps).committed ∧
      Exact env.host ((Session.fresh trees).run env sink steps).writer.txn.tables := by
  have fresh : Exact env.host Tables.fresh := exact_of_empty Tables.fresh_primary
  have kept : KeptByRuns env (fun _ => True) (Exact env.host) :=
    ⟨id, fun same exact => exact.same same, fun _ _ _ _ _ _ exact => exact,
      fun exact removes => exact.remove removes⟩
  exact kept.run (fun _ => True) (fun _ _ _ => trivial) ⟨fresh, fresh⟩ fun _ _ => trivial

/-- Each index table holds the union of `eventIndexEntries` over the stored events. -/
def HoldsExactlyEntries (host : Host) (t : Tables) : Prop :=
  ∀ dbi ∈ Dbis.indices, ∀ key value, (key, value) ∈ t.rows dbi
    ↔ ∃ lev p, Holds t lev p ∧ ∃ entry ∈ eventIndexEntries host lev p,
        entry.dbi = dbi ∧ entry.key = key ∧ entry.value = value

theorem Exact.holdsExactlyEntries {host : Host} {t : Tables} (exact : Exact host t) :
    HoldsExactlyEntries host t := by
  intro dbi inside key value
  rw [exact.index dbi inside]
  simp only [mem_eventIndexEntries]

/-- **The index tables are exact in every run**, in the committed state and in the open
transaction. -/
theorem index_tables_exact {σ : Type} (env : Services) (sink : NegentropySink σ) (trees : σ)
    (steps : List Step) :
    HoldsExactlyEntries env.host ((Session.fresh trees).run env sink steps).committed ∧
      HoldsExactlyEntries env.host
        ((Session.fresh trees).run env sink steps).writer.txn.tables := by
  obtain ⟨committed, opened⟩ := run_exact env sink trees steps
  exact ⟨committed.holdsExactlyEntries, opened.holdsExactlyEntries⟩

end Wok.Db
