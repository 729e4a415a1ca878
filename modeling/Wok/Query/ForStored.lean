/-
**Skipping the search for newer versions.**

A reader of stored events looks for a newer version of each only when the count of superseded
versions is not 0. The writer keeps that count while it stores and removes events: it is loaded
from the index once, moved with every version beyond the first of an address, and stored by the
commit. So a stored 0 means that no stored event has a newer version.

* `stored_kept` — what the written events have in common the stored ones have.
* `forStored_allows` — with an exact count nothing changes for a reader.
* `superseded_counter_exact` — **the count is exact after every commit, no change of the writer
  fails for it, and stored events are as visible with the shortcut as without.**
-/

import Wok.Db.Replacements
import Wok.Query.PublicTree

namespace Wok.Query

open Wok.Library Wok.Event Wok.Db

section Stored

variable {host : Host} {env : Services} {t : Tables} {lev : Nat} {p : PackedEvent}

/-- Exact index tables, and stored events that all satisfy `P`. -/
structure AllStored (host : Host) (P : PackedEvent → Prop) (t : Tables) : Prop where
  exact : Exact host t
  stored : ∀ lev p, Holds t lev p → P p

theorem AllStored.same {P : PackedEvent → Prop} {t' : Tables} (all : AllStored host P t)
    (same : SamePrimary t t') : AllStored host P t' :=
  ⟨all.exact.same same, fun lev p held => all.stored lev p (same.stored.mp held)⟩

/-- The stored events satisfy `P` when the written ones do. -/
theorem stored_kept (env : Services) (P : PackedEvent → Prop) :
    KeptByWriter env (fun e => ∀ p, viewPacked e.packed = .ok p → P p)
      fun _ txn => AllStored env.host P txn.tables where
  counted inv quota := by
    rw [overQuota_tables quota]
    exact inv
  stored valid viewed _ _ inv mark insert := by
    have same := (markRequest_touches mark).samePrimary (by decide)
    have adds := insertEvent_adds insert
    refine ⟨(inv.exact.same same).add adds, fun lev q held => ?_⟩
    rcases adds.stored.mp held with ⟨_, rfl⟩ | old
    · exact valid q viewed
    · exact inv.stored lev q (same.stored.mp old)
  removed held inv run := by
    have removes := deleteEventBasic_removes held run
    exact ⟨inv.exact.remove removes,
      fun lev q here => inv.stored lev q (removes.stored_iff.mp here).1⟩

/-- The bytes are what packing makes of some event. -/
def PackedFrom (host : Host) (p : PackedEvent) : Prop :=
  ∃ v limits expiration, packEvent host limits v = .ok (p, expiration)

/-- **With an exact count the shortcut hides and shows the same events.** -/
theorem forStored_allows (ingested : Ingested host t)
    (counted : t.get Dbis.state supersededKey = none ∨
      t.get Dbis.state supersededKey = some (u64NeBytes (superseded t)))
    (stored : Holds t lev p) (v : ReadVisibility) (env : Services) (now : Nat) :
    v.allows env (.forStored t now) p = v.allows env (.new t now) p := by
  by_cases skipped : supersededEventsRo t = .ok (some 0)
  · have clean : superseded t = 0 := by
      have small := superseded_lt ingested.exact
      unfold supersededEventsRo at skipped
      split_ifs at skipped
      · cases skipped
      · rcases counted with absent | exact
        · rw [absent] at skipped
          cases skipped
        · rw [exact] at skipped
          obtain ⟨n, decoded, zero⟩ := map_eq_ok.mp skipped
          rw [decodeCounter_bytes small] at decoded
          exact (Except.ok.inj decoded).trans (Option.some.inj zero)
    have newest := isEventSupersededRo_of_clean ingested clean stored
    simp only [ReadVisibility.allows, ReadVisibility.globallyVisible, ReadSnapshot.forStored,
      ReadSnapshot.new, skipped, newest, ReadVisibility.andThen, if_true, Bool.false_eq_true, if_false]
    rfl
  · have looked : ReadSnapshot.forStored t now = .new t now := by
      simp only [ReadSnapshot.forStored, ReadSnapshot.new]
    rw [looked]

end Stored

section Runs

variable {σ : Type} {env : Services} {sink : NegentropySink σ}

/-- **The count of superseded versions.** On a database with exact index tables and a count that is
exact or missing, it is so after every commit of any run of batches and deletions; no call fails
because the count does not fit, unless a service or the sink reports that error itself; and with
records packed from events a reader sees the same stored events whether the count is used or not. -/
theorem superseded_counter_exact (env : Services) (sink : NegentropySink σ) {start : Tables}
    (exact : Exact env.host start)
    (counted : start.get Dbis.state supersededKey = none ∨
      start.get Dbis.state supersededKey = some (u64NeBytes (supersededVersions start)))
    (trees : σ) (acts : List (Act WriterCall)) :
    let opened := writerRun env sink start trees acts
    let t := opened.committed.1
    (t.get Dbis.state supersededKey = none ∨
      t.get Dbis.state supersededKey = some (u64NeBytes (supersededVersions t))) ∧
    (env.Avoid versionDrift → sink.Avoid versionDrift →
      ∀ c : WriterCall, Avoids versionDrift (c.apply env sink opened.txn)) ∧
    ((∀ lev p, Holds start lev p → PackedFrom env.host p) →
      (∀ c, Act.call c ∈ acts → c.All fun e => ∀ p, viewPacked e.packed = .ok p →
        PackedFrom env.host p) →
      ∀ lev p, Holds t lev p → ∀ (v : ReadVisibility) (now : Nat),
        v.allows env (.forStored t now) p = v.allows env (.new t now) p) := by
  intro opened t
  have begun : Versioned env.host (.begin start) := by
    refine ⟨exact, ?_, fun c member => by cases member⟩
    rw [← superseded_eq_versions exact] at counted
    exact counted.elim (fun absent => .inr ⟨rfl, absent⟩) fun stored => .inl (.inr ⟨rfl, stored⟩)
  have kept := versioned_kept env
  obtain ⟨committed, here⟩ : Versioned env.host (.begin t) ∧ Versioned env.host opened.txn.txn :=
    kept.run (fun first last versioned => versioned.note first last)
      (fun versioned => versioned.commit) begun trees fun c _ => c.all_true
  have stored : t.get Dbis.state supersededKey = none ∨
      t.get Dbis.state supersededKey = some (u64NeBytes (superseded t)) := by
    rcases committed.counter with (cached | ⟨_, stored⟩) | ⟨_, absent⟩
    · cases cached
    · exact .inr stored
    · exact .inl absent
  refine ⟨superseded_eq_versions committed.exact ▸ stored,
    fun quiet accepts c => here.apply quiet accepts c, ?_⟩
  · intro packed written lev p held v now
    have kept := stored_kept env (PackedFrom env.host)
    have packed' : AllStored env.host (PackedFrom env.host) t :=
      (kept.run (fun first last inv => inv.same (noteTagKindIndexed_touches _ first last |>.samePrimary
        (by decide))) (fun inv => inv.same (commit_samePrimary _)) ⟨exact, packed⟩ trees written).1
    have ingested : Ingested env.host t := by
      refine ⟨committed.exact, fun lev p held => ?_⟩
      obtain ⟨v, limits, expiration, run⟩ := packed'.stored lev p held
      obtain ⟨f, _, packs, _⟩ := packEvent_reads run
      exact ⟨f, packs⟩
    exact forStored_allows ingested stored held v env now

/-- Two versions of one address, as an import leaves them. -/
def importedVersions : Tables :=
  match [256, 257].foldlM (fun txn createdAt => (insertEvent sampleHost txn
    (sampleEvent (sampleVersion createdAt)).packed []).map Prod.snd) (.begin .fresh) with
  | .ok txn => commit txn
  | .error _ => .fresh

theorem packedFrom_of_accepted {host : Host} {e : ParsedEvent} (accepted : Accepted host e) :
    PackedFrom host e.packed := by
  obtain ⟨_, _, _, _, _, run⟩ := accepted
  simp only [parseAndVerifyEventWith, bind_eq_ok, pure_eq_ok] at run
  obtain ⟨_, _, _, _, _, _, ⟨_, expiration⟩, packs, _, _, _, _, _, _, _, _, _, _, rfl⟩ := run
  exact ⟨_, _, expiration, packs⟩

theorem packedFrom_toWrite {host : Host} {e : ParsedEvent} (packed : PackedFrom host e.packed)
    (p : PackedEvent) (viewed : viewPacked (ParsedEvent.toWrite e).packed = .ok p) :
    PackedFrom host p :=
  Except.ok.inj ((viewPacked_buf e.packed).symm.trans viewed) ▸ packed

theorem sampleVersion_packed {createdAt : Fin (2 ^ 64)} (known : createdAt ∈ [256, 257, 258]) :
    PackedFrom sampleHost (sampleEvent (sampleVersion createdAt)).packed := by
  have passes : (sampleIngest (sampleVersion 256)).isOk = true ∧
      (sampleIngest (sampleVersion 257)).isOk = true ∧
      (sampleIngest (sampleVersion 258)).isOk = true := by decide +kernel
  refine packedFrom_of_accepted (sampleEvent_accepted ?_).1
  simp only [List.mem_cons, List.not_mem_nil, or_false] at known
  rcases known with rfl | rfl | rfl
  exacts [passes.1, passes.2.1, passes.2.2]

theorem importedVersions_stored : AllStored sampleHost (PackedFrom sampleHost) importedVersions := by
  have none : AllStored sampleHost (PackedFrom sampleHost) .fresh :=
    ⟨exact_of_empty Tables.fresh_primary, fun lev p held => by cases held.2⟩
  unfold importedVersions
  split
  · rename_i txn run
    refine AllStored.same ?_ (commit_samePrimary txn)
    refine foldlM_preserves (fun txn : RwTxn => AllStored sampleHost _ txn.tables) ?_ none run
    intro txn createdAt txn' member all step
    obtain ⟨⟨lev, _⟩, insert, rfl⟩ := map_eq_ok.mp step
    have adds := insertEvent_adds insert
    refine ⟨all.exact.add adds, fun lev q held => ?_⟩
    rcases adds.stored.mp held with ⟨_, rfl⟩ | old
    · exact sampleVersion_packed (List.mem_append_left [258] member)
    · exact all.stored lev q old
  · exact none

/-- The older version of the two is deleted, then the newer one is superseded. -/
def importedRun : List (Act WriterCall) :=
  [.call (.delete [1]), .commit,
    .call (.write .disabled 0 [ParsedEvent.toWrite (sampleEvent (sampleVersion 258))]), .commit]

theorem superseded_counter_exact_imported :
    supersededVersions importedVersions = 1 ∧
    let opened := writerRun sampleServices noopNegentropy importedVersions () importedRun
    let t := opened.committed.1
    let newest := (sampleEvent (sampleVersion 258)).packed
    Holds t 3 newest ∧
    (t.get Dbis.state supersededKey = none ∨
      t.get Dbis.state supersededKey = some (u64NeBytes (supersededVersions t))) ∧
    (∀ c : WriterCall, Avoids versionDrift (c.apply sampleServices noopNegentropy opened.txn)) ∧
    ∀ (v : ReadVisibility) (now : Nat), v.allows sampleServices (.forStored t now) newest
      = v.allows sampleServices (.new t now) newest := by
  have counted : importedVersions.get Dbis.state supersededKey = some (u64NeBytes 1) ∧
      supersededVersions importedVersions = 1 := by decide +kernel
  have held : Holds (writerRun sampleServices noopNegentropy importedVersions () importedRun).committed.1
      3 (sampleEvent (sampleVersion 258)).packed := by
    unfold Holds
    decide +kernel
  have quiet : sampleServices.Avoid versionDrift :=
    ⟨fun _ _ _ => avoids_error.mpr (by decide), fun _ _ _ => avoids_ok _ _⟩
  obtain ⟨exact, calm, seen⟩ := superseded_counter_exact sampleServices noopNegentropy
    importedVersions_stored.exact (.inr (by rw [counted.1, counted.2])) () importedRun
  refine ⟨counted.2, held, exact, calm quiet fun _ _ _ => avoids_ok _ _,
    seen importedVersions_stored.stored (fun c member => ?_) 3 _ held⟩
  simp only [importedRun, List.mem_cons, List.not_mem_nil, or_false, Act.call.injEq, reduceCtorEq,
    false_or] at member
  rcases member with rfl | rfl
  · trivial
  · intro e member
    rw [List.mem_singleton.mp member]
    exact packedFrom_toWrite (sampleVersion_packed (by simp))

end Runs

end Wok.Query
