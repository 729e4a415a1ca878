/-
**Backfill steps of the `(tag, kind)` index.**

* `TagKinds.reset`, `TagKinds.localIdStep`, `TagKinds.keyOrderedStep`, `TagKinds.backfill` — every
  step keeps what the table holds, and a backfill step leaves less to do.
* `tag_kind_index_complete` — **in every run the postings are of stored events, a complete index has
  them all, and backfill steps alone complete it.**
-/

import Mathlib.Data.List.Count
import Mathlib.Order.WithBot
import Wok.Db.TagKind

namespace Wok.Db

open Wok.Library Wok.Event List

/-! ### Postings of stored events -/

section Posting

variable {env : Services} {log : List StoredEvent} {txn : RwTxn} {through lev : Nat}
  {p : PackedEvent} {keys : List Bytes} {e : Kv}

theorem mem_putTagKindEntries :
    e ∈ (putTagKindEntries txn lev keys).tables.rows Dbis.eventTagKind
      ↔ e ∈ txn.tables.rows Dbis.eventTagKind ∨ e.1 ∈ keys ∧ e.2 = u64NeBytes lev := by
  rw [putTagKindEntries, mem_putAll (by decide)]
  simp

/-- **A posting of a stored event is put.** -/
theorem Postings.post (postings : Postings env log txn through) (held : Holds txn.tables lev p)
    (own : ∀ key ∈ keys, key ∈ tagKindKeys p) :
    Postings env log (putTagKindEntries txn lev keys) through := by
  have alters : Alters [Dbis.eventTagKind] txn (putTagKindEntries txn lev keys) :=
    putAll_alters (by simp) txn
  have primary := alters.touches.samePrimary (by decide)
  have markers : ∀ key value, isTagKindMarker key = true →
      ((key, value) ∈ (putTagKindEntries txn lev keys).tables.rows Dbis.eventTagKind ↔
        (key, value) ∈ txn.tables.rows Dbis.eventTagKind) := by
    intro key value is
    rw [mem_putTagKindEntries]
    refine or_iff_left ?_
    rintro ⟨posting, _⟩
    rw [not_marker_of_mem (own key posting)] at is
    cases is
  refine ⟨postings.marked.same primary (alters.keepsSequence (by decide)), postings.below,
    fun value => ?_, fun value => ?_, ?_, ?_⟩
  · rw [markers _ _ (by simp [isTagKindMarker]), postings.schema]
  · rw [markers _ _ (by simp [isTagKindMarker]), postings.marker]
  · intro e row plain
    rcases mem_putTagKindEntries.mp row with before | ⟨posting, value⟩
    · obtain ⟨n, q, stored, posting, value⟩ := postings.sound e before plain
      exact ⟨n, q, primary.stored.mpr stored, posting, value⟩
    · exact ⟨lev, p, primary.stored.mpr held, own _ posting, value⟩
  · intro n q stored covered key posting
    exact mem_putTagKindEntries.mpr
      (.inl (postings.posted n q (primary.stored.mp stored) covered key posting))

end Posting

/-! ### Resets -/

section Reset

variable {env : Services} {log : List StoredEvent} {txn : RwTxn} {through : Nat}

theorem currentPass_clear (txn : RwTxn) :
    currentPass (txn.clear Dbis.eventTagKindBuild).tables = none := by
  have absent : (txn.clear Dbis.eventTagKindBuild).tables.get Dbis.eventTagKindBuild passTargetKey
      = none := Tables.get_eq_none.mpr fun value => not_mem_clear txn _ _
  rw [currentPass, absent]
  rfl

/-- **A reset leaves no postings**, and its marker covers no event. -/
theorem TagKinds.reset (kinds : TagKinds env log txn through) :
    TagKinds env log (resetTagKindIndex txn) 0 := by
  let cleared := (txn.clear Dbis.eventTagKind).clear Dbis.eventTagKindBuild
  have touches : Touches [Dbis.eventTagKind, Dbis.eventTagKindBuild] txn (resetTagKindIndex txn) :=
    ((clear_touches txn _).mono (by simp)).trans (((clear_touches _ _).mono (by simp)).trans
      (((setMarker_touches _ _ _ _).mono (by simp)).trans
        ((setMarker_touches _ _ _ _).mono (by simp))))
  have only : OnlyTables txn (resetTagKindIndex txn) := ⟨_, rfl⟩
  have apart : tagKindSchemaKey ≠ tagKindThroughKey := by decide
  have empty : ∀ e, e ∉ cleared.tables.rows Dbis.eventTagKind := by
    intro e member
    rw [clear_touches _ Dbis.eventTagKindBuild _ (by decide)] at member
    exact not_mem_clear txn _ e member
  have rows : ∀ e, e ∈ (resetTagKindIndex txn).tables.rows Dbis.eventTagKind ↔
      e = (tagKindThroughKey, u64NeBytes 0) ∨
        e = (tagKindSchemaKey, u64NeBytes tagKindSchemaVersion) := by
    intro e
    show e ∈ ((cleared.setMarker Dbis.eventTagKind tagKindSchemaKey
      tagKindSchemaVersion).setMarker Dbis.eventTagKind tagKindThroughKey 0).tables.rows _ ↔ _
    rw [mem_setMarker (by decide), mem_setMarker (by decide)]
    simp only [empty, false_and, or_false]
    refine or_congr_right (and_iff_left_of_imp ?_)
    rintro rfl
    exact apart
  have marked := kinds.postings.marked.same (touches.samePrimary (by decide))
    (only.keepsSequence touches (by decide))
  refine ⟨⟨marked, Nat.zero_le _, fun value => ?_, fun value => ?_, ?_, ?_⟩, fun pass running => ?_⟩
  · simp [rows, apart]
  · simp [rows, apart.symm]
  · intro e row plain
    rcases (rows e).mp row with rfl | rfl
    · cases plain
    · cases plain
  · intro lev p held covered
    have := (marked.logged.logs.small held).1
    omega
  · have build : (resetTagKindIndex txn).tables.rows Dbis.eventTagKindBuild
        = cleared.tables.rows Dbis.eventTagKindBuild :=
      ((setMarker_touches cleared Dbis.eventTagKind _ _).trans
        (setMarker_touches _ Dbis.eventTagKind _ _)) _ (by decide)
    rw [currentPass_congr build, currentPass_clear] at running
    cases running

end Reset

/-! ### Steps by local id -/

/-- In a step by local id from `txn`: the events are posted up to `done`. -/
structure Indexing (env : Services) (log : List StoredEvent) (txn : RwTxn) (through : Nat)
    (w : IdWalk) : Prop where
  postings : Postings env log w.txn through
  touches : Touches [Dbis.eventTagKind] txn w.txn
  below : w.done ≤ log.length
  posted : ∀ lev p, Holds w.txn.tables lev p → lev ≤ w.done → Posted w.txn.tables lev p

section ByLocalId

variable {env : Services} {log : List StoredEvent} {txn : RwTxn} {through : Nat} {w : IdWalk}

theorem Indexing.holds (indexing : Indexing env log txn through w) {lev : Nat} {p : PackedEvent} :
    Holds w.txn.tables lev p ↔ Holds txn.tables lev p :=
  (indexing.touches.samePrimary (by decide)).stored

/-- **The next event is posted.** -/
theorem Indexing.next (indexing : Indexing env log txn through w) {x : Nat × List Bytes}
    {l : List (Nat × List Bytes)} (events entries prepared : Nat)
    (ahead : Ahead (StoredWith txn.tables tagKindKeys) Prod.fst IsLastId w.done (x :: l)) :
    Indexing env log txn through
      ⟨putTagKindEntries w.txn x.1 x.2, x.1, events, entries, prepared⟩ := by
  obtain ⟨p, stored, keys⟩ := ahead.head
  have held := indexing.holds.mpr stored
  have put : Touches [Dbis.eventTagKind] w.txn (putTagKindEntries w.txn x.1 x.2) :=
    (putAll_alters (by simp) _).touches
  refine ⟨indexing.postings.post held (fun key posting => keys ▸ posting),
    indexing.touches.trans put, (indexing.postings.marked.logged.logs.small held).2, ?_⟩
  intro lev q held' covered key posting
  have before := (put.samePrimary (by decide)).stored.mp held'
  by_cases done : lev ≤ w.done
  · exact mem_putTagKindEntries.mpr (.inl (indexing.posted lev q before done key posting))
  · -- no stored event lies between the last one done and this one
    have next : x.1 ≤ lev := ahead.next_le (b := (lev, tagKindKeys q))
      ⟨q, indexing.holds.mp before, rfl⟩ (not_le.mp done)
    have same : lev = x.1 := le_antisymm covered next
    subst same
    rw [before.unique held, ← keys] at posting
    exact mem_putTagKindEntries.mpr (.inr ⟨posting, rfl⟩)

/-- **The loop of a step by local id** works through the events above the last one done. -/
theorem idLoop_walks (limits : StepLimits) (logs : Logs env.host log txn.tables) :
    Walks (idLoop limits) stepChunk (Indexing env log txn through) IdWalk.done
      (StoredWith txn.tables tagKindKeys) Prod.fst IsLastId fun done => log.length - done where
  two := by decide
  read := by
    intro w indexing
    have exact := indexing.postings.marked.logged.logs.exact
    have same : StoredWith txn.tables tagKindKeys = StoredWith w.txn.tables tagKindKeys := by
      funext x
      simp only [StoredWith, indexing.holds]
    let item : Kv → Nat × List Bytes := fun e =>
      (u64FromNe e.1, ((viewPacked e.2).toOption.map tagKindKeys).getD [])
    have each : ∀ chunk, ∀ e ∈ eventsAfter w.txn.tables w.done, collectEvent (chunk, none) e.1 e.2
        = ((chunk ++ [item e], none), decide ((chunk ++ [item e]).length < stepChunk)) := by
      intro chunk e member
      obtain ⟨lev, p, held, rfl⟩ := exact.records e (Tables.mem_scan.mp member).1
      simp only [collectEvent, u64FromNeChecked_ok held.1, viewPacked_buf, ok_bind, item,
        u64FromNe_u64NeBytes held.1]
      rfl
    let l := (eventsAfter w.txn.tables w.done).map item
    refine ⟨{ w with prepared := w.prepared + (l.take stepChunk).length }, l, ?_,
      ⟨indexing.postings, indexing.touches, indexing.below, indexing.posted⟩, rfl, ?_⟩
    · simp only [idLoop, scanFold_chunk (fun chunk => (chunk, none)) (by decide) each, l]
    · rw [same]
      refine ahead_eventsAfter exact
        (indexing.below.trans_lt indexing.postings.marked.logged.sequence.small) fun lev p held => ?_
      simp [item, u64FromNe_u64NeBytes held.1, Except.toOption]
  work indexing ahead := ⟨_, rfl, indexing.next _ _ _ ahead, rfl⟩
  lower le := Nat.sub_le_sub_left le _
  falls := by
    rintro done x ⟨p, held, _⟩ above
    have bound := (logs.small held).2
    omega

/-- **A step by local id** catches up with the high-water mark or moves the marker past some
event. -/
theorem TagKinds.localIdStep (kinds : TagKinds env log txn through)
    (idle : currentPass txn.tables = none) (limits : StepLimits) :
    ∃ work through' txn', localIdStep txn through log.length limits = .ok ((work, through'), txn') ∧
      TagKinds env log txn' through' ∧ currentPass txn'.tables = none ∧
      (through' = log.length ∨ through < through') := by
  have below := kinds.postings.below
  have bounded := kinds.postings.marked.logged.sequence.small
  by_cases caught : log.length ≤ through
  · have same : through = log.length := le_antisymm below caught
    refine ⟨⟨0, 0⟩, through, txn, ?_, kinds, idle, .inl same⟩
    simp only [Wok.Db.localIdStep, if_pos caught, ok_bind, if_true, max_eq_right caught, ne_eq,
      not_true_eq_false, if_false]
    rfl
  · have indexing : Indexing env log txn through ⟨txn, through, 0, 0, 0⟩ :=
      ⟨kinds.postings, .refl _ _, below, kinds.postings.posted⟩
    obtain ⟨w, walked, run, done, _, reached, progress⟩ :=
      (idLoop_walks limits kinds.postings.marked.logged.logs).walk indexing (Nat.lt_succ_self _)
    -- where the marker goes, the events are posted
    have goal : ∃ m, max (if walked = true then log.length else w.done) through = m ∧ through < m ∧
        m ≤ log.length ∧
        (∀ lev p, Holds w.txn.tables lev p → lev ≤ m → Posted w.txn.tables lev p) ∧
        (m = log.length ∨ through < m) := by
      cases walked with
      | true =>
        refine ⟨log.length, by simp [below], by omega, le_rfl, fun lev p held _ => ?_, .inl rfl⟩
        exact done.posted lev p held (reached rfl (lev, tagKindKeys p) ⟨p, done.holds.mp held, rfl⟩)
      | false =>
        have above : through < w.done := by
          rcases progress rfl with fewer | ⟨last, _⟩
          · simp only at fewer
            omega
          · have last : through = 2 ^ 64 - 1 := last
            omega
        exact ⟨w.done, by simp [above.le], above, done.below, done.posted, .inr above⟩
    obtain ⟨m, is, above, most, posted, progress⟩ := goal
    have build : (w.txn.setMarker Dbis.eventTagKind tagKindThroughKey m).tables.rows
        Dbis.eventTagKindBuild = txn.tables.rows Dbis.eventTagKindBuild :=
      (done.touches.trans (setMarker_touches w.txn Dbis.eventTagKind _ m)) _ (by decide)
    have idle' : currentPass (w.txn.setMarker Dbis.eventTagKind tagKindThroughKey m).tables = none :=
      (currentPass_congr build).trans idle
    refine ⟨⟨w.entries, w.prepared⟩, m, w.txn.setMarker Dbis.eventTagKind tagKindThroughKey m, ?_,
      ⟨done.postings.setThrough most posted, fun pass running => ?_⟩, idle', progress⟩
    · simp only [Wok.Db.localIdStep, if_neg caught, run, ok_bind, is, ne_eq, above.ne',
        not_false_eq_true, if_true]
      rfl
    · rw [idle'] at running
      cases running

end ByLocalId

/-! ### The key-ordered pass -/

def tagCode (x : TagEntry) : Bytes := entryCode Dbis.eventTag (x.1, u64NeBytes x.2)

/-- Where a pass is in the order of the tag index; nowhere before its first entry. -/
def placeOf (position : Option TagEntry) : WithBot Bytes :=
  position.elim ⊥ fun q => (tagCode q : WithBot Bytes)

/-- The tag index lists the entry. -/
def ListsTag (t : Tables) (x : TagEntry) : Prop :=
  (x.1, u64NeBytes x.2) ∈ t.rows Dbis.eventTag ∧ x.2 < 2 ^ 64

/-- An entry of the greatest id of all, which has no next one, is read again. -/
def AtLastId (place : WithBot Bytes) : Prop := ∃ key, place = tagCode (key, 2 ^ 64 - 1)

/-- The rows of the tag index after a place. -/
def rowsAfter (t : Tables) (place : WithBot Bytes) : Nat :=
  (t.rows Dbis.eventTag).countP fun e => place < (entryCode Dbis.eventTag e : WithBot Bytes)

section Order

variable {host : Host} {t : Tables} {position : Option TagEntry} {x y : TagEntry} {e : Kv}

theorem passed_iff : Passed position e ↔
    (entryCode Dbis.eventTag e : WithBot Bytes) ≤ placeOf position := by
  cases position with
  | none => simp [Passed, placeOf]
  | some q =>
    simp only [Passed, placeOf, Option.mem_def, Option.some.injEq, exists_eq_left',
      Option.elim_some, WithBot.coe_le_coe]
    rfl

theorem tagCode_inj (small : x.2 < 2 ^ 64) (small' : y.2 < 2 ^ 64) (same : tagCode x = tagCode y) :
    x = y := by
  have dups : (spec Dbis.eventTag).flags.dupSort = true := rfl
  obtain ⟨key, value⟩ := Prod.mk.inj (View.entryCode_injective_on dups same)
  exact Prod.ext key (u64NeBytes_inj small small' value)

/-- Entries from the next local id on are those after the one before, but for the greatest id. -/
theorem tagCode_next_le (small : x.2 < 2 ^ 64) (small' : y.2 < 2 ^ 64) :
    tagCode (x.1, nextId x.2) ≤ tagCode y ↔ tagCode x < tagCode y ∨ y = x ∧ x.2 = 2 ^ 64 - 1 := by
  have next : nextId x.2 < 2 ^ 64 := by
    unfold nextId
    omega
  have le : tagCode (x.1, nextId x.2) ≤ tagCode y ↔
      (cmpKey Dbis.eventTag x.1 y.1).then (cmp (nextId x.2) y.2) ≠ .gt := by
    rw [tagCode, tagCode, entry_le_iff, cmpEntry, cmpDup_u64 (by decide) (by decide) next small']
  have lt : tagCode x < tagCode y ↔
      (cmpKey Dbis.eventTag x.1 y.1).then (cmp x.2 y.2) = .lt := by
    rw [tagCode, tagCode, ← cmp_eq_lt_iff, ← cmpEntry_eq, cmpEntry,
      cmpDup_u64 (by decide) (by decide) small small']
  have keys : cmpKey Dbis.eventTag x.1 y.1 = .eq ↔ x.1 = y.1 := by
    rw [cmpKey_eq, cmp_eq_eq_iff]
    refine ⟨fun same => ?_, congrArg _⟩
    refine (keyPrefix_prefix_iff Dbis.eventTag _ _).mp ?_
    rw [same]
  rw [le, lt, Prod.ext_iff]
  cases order : cmpKey Dbis.eventTag x.1 y.1 with
  | lt => simp
  | gt =>
    have apart : y.1 ≠ x.1 := fun same => by simp [keys.mpr same.symm] at order
    simp [apart]
  | eq =>
    show cmp (nextId x.2) y.2 ≠ .gt ↔ cmp x.2 y.2 = .lt ∨ _
    rw [cmp_ne_gt_iff, cmp_eq_lt_iff]
    simp only [(keys.mp order).symm, true_and]
    unfold nextId
    omega

/-- **What the scan after a position reads.** -/
theorem ahead_tagRowsAfter (exact : Exact host t)
    (placed : ∀ q ∈ position, 8 < q.1.length ∧ q.2 < 2 ^ 64) :
    Ahead (ListsTag t) (fun x => (tagCode x : WithBot Bytes)) AtLastId (placeOf position)
      ((tagRowsAfter t position).map fun e => (e.1, u64FromNe e.2)) := by
  have shape : ∀ {e}, e ∈ t.rows Dbis.eventTag → ∃ x : TagEntry, ListsTag t x ∧
      e = (x.1, u64NeBytes x.2) ∧ (e.1, u64FromNe e.2) = x := by
    rintro ⟨key, value⟩ member
    obtain ⟨lev, p, tag, held, inside, rfl, rfl⟩ := exact.tagRow.mp member
    refine ⟨(tagRow p tag, lev), ⟨member, held.1⟩, rfl, ?_⟩
    rw [u64FromNe_u64NeBytes held.1]
  have side : ∀ x, ListsTag t x → ((x.1, u64NeBytes x.2) ∈ tagRowsAfter t position ↔
      placeOf position < (tagCode x : WithBot Bytes) ∨
        (tagCode x : WithBot Bytes) = placeOf position ∧ AtLastId (placeOf position)) := by
    rintro x ⟨row, small⟩
    cases position with
    | none => simp [tagRowsAfter, Tables.mem_scan, row, placeOf, View.onSide]
    | some q =>
      obtain ⟨long, bound⟩ := placed q rfl
      have key : q.1 ≠ [] := by
        intro empty
        simp [empty] at long
      have scan : (x.1, u64NeBytes x.2) ∈ tagRowsAfter t (some q) ↔
          tagCode (q.1, nextId q.2) ≤ tagCode x := by
        rw [tagRowsAfter, Tables.mem_scan, Tables.onSide_pair (by decide) key (u64NeBytes_ne_nil _)]
        simp only [row, true_and, Bool.false_eq_true, if_false]
        rfl
      rw [scan, tagCode_next_le bound small]
      simp only [placeOf, Option.elim_some, WithBot.coe_lt_coe, WithBot.coe_inj]
      refine or_congr_right ⟨?_, ?_⟩
      · rintro ⟨rfl, last⟩
        exact ⟨rfl, x.1, by rw [← last]⟩
      · rintro ⟨same, other, last⟩
        have equal := tagCode_inj small bound same
        refine ⟨equal, ?_⟩
        have bounded : (other, 2 ^ 64 - 1).2 < 2 ^ 64 := Nat.sub_lt (by decide) (by decide)
        rw [tagCode_inj bound bounded (WithBot.coe_inj.mp last)]
  have inside : ∀ {e}, e ∈ tagRowsAfter t position → e ∈ t.rows Dbis.eventTag := by
    intro e member
    unfold tagRowsAfter at member
    split at member <;> exact (Tables.mem_scan.mp member).1
  refine ⟨pairwise_map.mpr ?_, ?_, ?_⟩
  · have sorted : (tagRowsAfter t position).Pairwise fun a b =>
        entryCode Dbis.eventTag a < entryCode Dbis.eventTag b := by
      unfold tagRowsAfter
      split <;> exact Tables.scan_sorted t Dbis.eventTag _ _ false
    refine sorted.imp_of_mem fun {a b} first second less => ?_
    obtain ⟨x, _, rfl, read⟩ := shape (inside first)
    obtain ⟨y, _, rfl, read'⟩ := shape (inside second)
    rw [read, read']
    exact WithBot.coe_lt_coe.mpr less
  · intro x member
    obtain ⟨e, scanned, rfl⟩ := mem_map.mp member
    obtain ⟨x, lists, rfl, read⟩ := shape (inside scanned)
    rw [read]
    exact ⟨lists, (side x lists).mp scanned⟩
  · intro x lists above
    refine mem_map.mpr ⟨_, (side x lists).mpr (.inl above), ?_⟩
    rw [u64FromNe_u64NeBytes lists.2]

theorem rowsAfter_lower {k k' : WithBot Bytes} (le : k ≤ k') : rowsAfter t k' ≤ rowsAfter t k := by
  refine countP_mono_left fun e _ after => ?_
  simp only [decide_eq_true_eq] at after ⊢
  exact le.trans_lt after

theorem rowsAfter_falls {k : WithBot Bytes} (lists : ListsTag t x) (above : k < tagCode x) :
    rowsAfter t (tagCode x) < rowsAfter t k := by
  have inside : ∀ e : Kv, (tagCode x : WithBot Bytes) < entryCode Dbis.eventTag e →
      k < entryCode Dbis.eventTag e := fun e after => above.trans after
  have split : rowsAfter t (tagCode x) = ((t.rows Dbis.eventTag).filter fun e =>
      k < (entryCode Dbis.eventTag e : WithBot Bytes)).countP fun e =>
        (tagCode x : WithBot Bytes) < entryCode Dbis.eventTag e := by
    rw [countP_filter]
    refine countP_congr fun e _ => ?_
    simp only [decide_eq_true_eq, Bool.and_eq_true]
    exact ⟨fun after => ⟨after, inside e after⟩, And.left⟩
  rw [split, rowsAfter, @countP_eq_length_filter _ _ (t.rows Dbis.eventTag)]
  refine countP_lt_length_iff.mpr ⟨(x.1, u64NeBytes x.2), mem_filter.mpr ⟨lists.1, ?_⟩, ?_⟩
  · exact decide_eq_true above
  · exact decide_eq_false (lt_irrefl _)

end Order

/-- In a key-ordered step from `txn`: the tags of the events of the target are posted up to the
position. -/
structure Walking (env : Services) (log : List StoredEvent) (txn : RwTxn) (target : Nat)
    (w : TagWalk) : Prop where
  postings : Postings env log w.txn 0
  touches : Touches [Dbis.eventTagKind] txn w.txn
  placed : ∀ q ∈ w.position, 8 < q.1.length ∧ q.2 ≤ log.length
  passed : PassedThrough w.txn.tables target w.position

section KeyOrdered

variable {env : Services} {log : List StoredEvent} {txn : RwTxn} {target : Nat} {w : TagWalk}
  {limits : StepLimits}
variable {x : TagEntry}

theorem Walking.exact (walking : Walking env log txn target w) : Exact env.host w.txn.tables :=
  walking.postings.marked.logged.logs.exact

/-- The event and the tag of a listed entry, and what its visit does. -/
theorem Walking.visit (walking : Walking env log txn target w) (lists : ListsTag txn.tables x) :
    ∃ p, ∃ tag ∈ p.tags, Holds w.txn.tables x.2 p ∧
      x.1 = tagRow p tag ∧ visitTagEntry w x = .ok ⟨putTagKindEntries w.txn x.2 [kindRow p tag],
        some x, w.visited + 1, w.entries + 1, w.prepared⟩ := by
  have row : (x.1, u64NeBytes x.2) ∈ w.txn.tables.rows Dbis.eventTag := by
    rw [walking.touches _ (by decide)]
    exact lists.1
  obtain ⟨lev, p, tag, held, member, key, value⟩ := walking.exact.tagRow.mp row
  obtain rfl := u64NeBytes_inj lists.2 held.1 value
  refine ⟨p, tag, member, held, key, ?_⟩
  have kind : storedKind w.txn x.2 = .ok (some p.kind) := by
    simp only [storedKind, held.get, viewPacked_buf]
    rfl
  rw [visitTagEntry, key, tagRow, parseKeyStringU64_make _ p.createdAt_lt, ok_bind, kind]
  rfl

/-- **The next entry is visited.** -/
theorem Walking.next (walking : Walking env log txn target w) {l : List TagEntry}
    (ahead : Ahead (ListsTag txn.tables) (fun x => (tagCode x : WithBot Bytes)) AtLastId
      (placeOf w.position) (x :: l)) :
    ∃ w', visitTagEntry w x = .ok w' ∧ Walking env log txn target w' ∧ w'.position = some x ∧
      w'.visited = w.visited + 1 := by
  obtain ⟨p, tag, member, held, key, visit⟩ := walking.visit ahead.head
  have put : Touches [Dbis.eventTagKind] w.txn (putTagKindEntries w.txn x.2 [kindRow p tag]) :=
    (putAll_alters (by simp) _).touches
  refine ⟨_, visit, ⟨?_, walking.touches.trans put, ?_, ?_⟩, rfl, rfl⟩
  · refine walking.postings.post held fun key posting => ?_
    rw [mem_singleton.mp posting]
    exact kindRow_mem member
  · rintro _ ⟨⟩
    refine ⟨?_, (walking.postings.marked.logged.logs.small held).2⟩
    simp [key, tagRow, makeKeyStringU64, u64NeBytes]
  · intro lev q own inside stored within at_
    have before := (put.samePrimary (by decide)).stored.mp stored
    rw [mem_putTagKindEntries]
    by_cases earlier : Passed w.position (tagRow q own, u64NeBytes lev)
    · exact .inl (walking.passed lev q own inside before within earlier)
    · -- no entry lies between the position and the one visited
      rw [passed_iff, not_le] at earlier
      have listed : ListsTag txn.tables (tagRow q own, lev) := by
        refine ⟨?_, before.1⟩
        rw [← walking.touches _ (by decide)]
        exact walking.exact.tagRow.mpr ⟨lev, q, own, before, inside, rfl, rfl⟩
      have next : (tagCode x : WithBot Bytes) ≤ tagCode (tagRow q own, lev) :=
        ahead.next_le listed earlier
      have same := tagCode_inj listed.2 ahead.head.2
        (WithBot.coe_inj.mp (le_antisymm (passed_iff.mp at_) next))
      obtain ⟨row, rfl⟩ := Prod.mk.inj same
      obtain rfl := before.unique held
      rw [key] at row
      obtain ⟨name, _⟩ := makeKeyStringU64_inj row
      obtain ⟨letter, value⟩ := List.cons.inj name
      refine .inr ⟨mem_singleton.mpr ?_, rfl⟩
      show kindRow q own = kindRow q tag
      rw [kindRow, letter, value]
      rfl

/-- **The loop of a key-ordered step** works through the tag index after its position. -/
theorem tagLoop_walks (limits : StepLimits) :
    Walks (tagLoop limits) stepChunk (Walking env log txn target)
    (fun w => placeOf w.position) (ListsTag txn.tables) (fun x => (tagCode x : WithBot Bytes))
    AtLastId (rowsAfter txn.tables) where
  two := by decide
  read := by
    intro w walking
    let item : Kv → TagEntry := fun e => (e.1, u64FromNe e.2)
    let l := (tagRowsAfter w.txn.tables w.position).map item
    have each : ∀ chunk, ∀ e ∈ tagRowsAfter w.txn.tables w.position,
        collectTagEntry (chunk, none) e.1 e.2
          = ((chunk ++ [item e], none), decide ((chunk ++ [item e]).length < stepChunk)) := by
      rintro chunk ⟨key, value⟩ member
      have row : (key, value) ∈ w.txn.tables.rows Dbis.eventTag := by
        unfold tagRowsAfter at member
        split at member <;> exact (Tables.mem_scan.mp member).1
      obtain ⟨lev, p, tag, held, _, rfl, rfl⟩ := walking.exact.tagRow.mp row
      simp only [collectTagEntry, u64FromNeChecked_ok held.1, item, u64FromNe_u64NeBytes held.1]
      rfl
    have read : tagEntriesAfter w.txn w.position
        = .ok (l.take stepChunk, decide (l.length < stepChunk)) := by
      simp only [tagEntriesAfter, scanFold_chunk (fun chunk => (chunk, none)) (by decide) each, l]
    refine ⟨{ w with prepared := w.prepared + (l.take stepChunk).length }, l, ?_,
      ⟨walking.postings, walking.touches, walking.placed, walking.passed⟩, rfl, ?_⟩
    · simp only [tagLoop, read, ok_bind]
      rfl
    · have same : ListsTag txn.tables = ListsTag w.txn.tables := by
        funext x
        rw [ListsTag, ListsTag, walking.touches _ (by decide)]
      rw [same]
      refine ahead_tagRowsAfter walking.exact fun q at_ => ⟨(walking.placed q at_).1, ?_⟩
      exact (walking.placed q at_).2.trans_lt walking.postings.marked.logged.sequence.small
  work := by
    intro w x l walking ahead
    obtain ⟨w', visit, walking', at_, _⟩ := walking.next ahead
    refine ⟨w', visit, walking', ?_⟩
    rw [at_]
    rfl
  lower := rowsAfter_lower
  falls := rowsAfter_falls

/-! The build table holds the pass. -/

variable {pass : TagKindBulkPass}

theorem writePass_touches (txn : RwTxn) (pass : TagKindBulkPass) :
    Touches [Dbis.eventTagKindBuild] txn (writePass txn pass) :=
  (touches_put (by simp) _ _).trans (touches_put (by simp) _ _)

theorem currentPass_writePass (txn : RwTxn) (small : pass.target < 2 ^ 64) :
    currentPass (writePass txn pass).tables
      = some ⟨pass.target, leVal (u64NeBytes pass.visited)⟩ := by
  have apart : passTargetKey ≠ passVisitedKey := by decide
  have target : (writePass txn pass).tables.get Dbis.eventTagKindBuild passTargetKey
      = some (u64NeBytes pass.target) :=
    (Tables.get_put_of_ne (by decide) apart).trans (Tables.get_put_self (by decide))
  have visited : (writePass txn pass).tables.get Dbis.eventTagKindBuild passVisitedKey
      = some (u64NeBytes pass.visited) := Tables.get_put_self (by decide)
  rw [currentPass, target, visited]
  simp only [readPass, marker, Option.bind_some, readTimestamp_bytes small]
  rw [readTimestamp, if_pos (by simp [u64NeBytes])]
  rfl

theorem passCursor_writePass (txn : RwTxn) (pass : TagKindBulkPass) :
    passCursor (writePass txn pass).tables = passCursor txn.tables := by
  have visited : passCursorKey ≠ passVisitedKey := by decide
  have target : passCursorKey ≠ passTargetKey := by decide
  have same : (writePass txn pass).tables.get Dbis.eventTagKindBuild passCursorKey
      = txn.tables.get Dbis.eventTagKindBuild passCursorKey :=
    (Tables.get_put_of_ne (by decide) visited).trans (Tables.get_put_of_ne (by decide) target)
  rw [passCursor, same]
  rfl

theorem readCursor_long {raw : Bytes} {q : TagEntry} (read : readCursor raw = some q) :
    8 < q.1.length := by
  unfold readCursor at read
  split_ifs at read with short
  simp only [Option.ite_none_right_eq_some, Option.some.injEq] at read
  obtain ⟨long, rfl⟩ := read
  exact long

theorem readCursor_append {key : Bytes} {lev : Nat} (long : 8 < key.length) (small : lev < 2 ^ 64) :
    readCursor (key ++ u64NeBytes lev) = some (key, lev) := by
  have length : (u64NeBytes lev).length = 8 := by simp [u64NeBytes]
  have whole : (key ++ u64NeBytes lev).length - 8 = key.length := by
    rw [length_append, length, Nat.add_sub_cancel]
  rw [readCursor, if_neg (by rw [length_append]; omega), whole, take_left,
    drop_left, if_pos long, u64FromNe_u64NeBytes small]

theorem Walking.cursor (walking : Walking env log txn target w)
    (later : placeOf (passCursor txn.tables) ≤ placeOf w.position) :
    passCursor (writePass (putCursor w.txn w.position) pass).tables = w.position := by
  rw [passCursor_writePass]
  cases position : w.position with
  | none =>
    rw [putCursor, passCursor_congr (walking.touches _ (by decide))]
    rw [position] at later
    cases start : passCursor txn.tables with
    | none => rfl
    | some q =>
      rw [start] at later
      exact absurd (le_bot_iff.mp later) WithBot.coe_ne_bot
  | some q =>
    obtain ⟨long, bound⟩ := walking.placed q position
    have put : (putCursor w.txn (some q)).tables.get Dbis.eventTagKindBuild passCursorKey
        = some (q.1 ++ u64NeBytes q.2) := Tables.get_put_self (by decide)
    rw [passCursor, put, Option.bind_some]
    exact readCursor_append long (bound.trans_lt walking.postings.marked.logged.sequence.small)

theorem putCursor_touches (txn : RwTxn) (position : Option TagEntry) :
    Touches [Dbis.eventTagKindBuild] txn (putCursor txn position) := by
  unfold putCursor
  split
  · exact touches_put (by simp) _ _
  · exact .refl _ _

theorem visitTagEntry_visited {w' : TagWalk} (visit : visitTagEntry w x = .ok w') :
    w'.visited = w.visited + 1 := by
  simp only [visitTagEntry, bind_eq_ok, pure_eq_ok, Prod.exists] at visit
  obtain ⟨_, _, _, kind, _, rfl⟩ := visit
  simp only
  split <;> rfl

theorem readTags_visited {w' : TagWalk} {chunk : List TagEntry} {atEnd : Bool}
    (read : (tagLoop limits).read w = .ok (w', chunk, atEnd)) : w'.visited = w.visited := by
  simp only [tagLoop, bind_eq_ok, pure_eq_ok, Prod.exists, Prod.mk.injEq] at read
  obtain ⟨_, _, _, rfl, _⟩ := read
  rfl

/-- A cursor at the greatest id of all is at an event of that id. -/
theorem atLastId_le {position : Option TagEntry}
    (placed : ∀ q ∈ position, 8 < q.1.length ∧ q.2 ≤ log.length) (bounded : log.length < 2 ^ 64)
    (last : AtLastId (placeOf position)) : 2 ^ 64 - 1 ≤ log.length := by
  obtain ⟨key, at_⟩ := last
  cases position with
  | none => exact absurd at_.symm WithBot.coe_ne_bot
  | some q =>
    have bound := (placed q rfl).2
    have greatest : (key, 2 ^ 64 - 1).2 < 2 ^ 64 := Nat.sub_lt (by decide) (by decide)
    have same := tagCode_inj (bound.trans_lt bounded) greatest (WithBot.coe_inj.mp at_)
    rw [same] at bound
    exact bound

/-- A step may visit two entries, or no event has the greatest id of all. -/
def StepLimits.Moves (limits : StepLimits) (highWater : Nat) : Prop :=
  highWater < 2 ^ 64 - 1 ∨ 1 < limits.maxEntries ∧ limits.stops 1 = false

/-- What is left to do for a running pass. -/
def passLeft (t : Tables) : Nat := rowsAfter t (placeOf (passCursor t))

/-- **A key-ordered step** ends the pass, and the marker takes its target; or it leaves less of the
tag index to the next one. -/
theorem TagKinds.keyOrderedStep (kinds : TagKinds env log txn 0)
    (running : currentPass txn.tables = some pass) (limits : StepLimits) :
    ∃ work through pass' txn', keyOrderedStep txn pass 0 limits = .ok ((work, through, pass'), txn') ∧
      TagKinds env log txn' through ∧
      (currentPass txn'.tables = none ∧ through = pass.target ∨
        through = 0 ∧ (currentPass txn'.tables).isSome ∧ passLeft txn'.tables ≤ passLeft txn.tables ∧
          (limits.Moves log.length → passLeft txn'.tables < passLeft txn.tables)) := by
  have passing := kinds.passing pass running
  have bounded := kinds.postings.marked.logged.sequence.small
  have placed : ∀ q ∈ passCursor txn.tables, 8 < q.1.length ∧ q.2 ≤ log.length := by
    intro q at_
    obtain ⟨raw, _, read⟩ := Option.bind_eq_some_iff.mp at_
    exact ⟨readCursor_long read, passing.placed q at_⟩
  have start : Walking env log txn pass.target ⟨txn, passCursor txn.tables, 0, 0, 0⟩ :=
    ⟨kinds.postings, .refl _ _, placed, passing.passed⟩
  obtain ⟨w, walked, run, walking, later, reached, progress⟩ :=
    (tagLoop_walks limits).walk start (Nat.lt_succ_of_le countP_le_length)
  have tags : w.txn.tables.rows Dbis.eventTag = txn.tables.rows Dbis.eventTag :=
    walking.touches _ (by decide)
  simp only [Wok.Db.keyOrderedStep, run, ok_bind]
  cases walked with
  | true =>
    -- every event of the target has its postings
    have posted : ∀ lev p, Holds w.txn.tables lev p → lev ≤ pass.target →
        Posted w.txn.tables lev p := by
      intro lev p held within key posting
      obtain ⟨tag, member, rfl⟩ := mem_tagKindKeys.mp posting
      refine walking.passed lev p tag member held within (passed_iff.mpr ?_)
      refine reached rfl (tagRow p tag, lev) ⟨?_, held.1⟩
      rw [← tags]
      exact walking.exact.tagRow.mpr ⟨lev, p, tag, held, member, rfl, rfl⟩
    have cleared := clear_touches w.txn Dbis.eventTagKindBuild
    have only : OnlyTables w.txn (w.txn.clear Dbis.eventTagKindBuild) := ⟨_, rfl⟩
    have postings : Postings env log (w.txn.clear Dbis.eventTagKindBuild) 0 :=
      walking.postings.copy (walking.postings.marked.same (cleared.samePrimary (by decide))
        (only.keepsSequence cleared (by decide))) (cleared _ (by decide)) (cleared _ (by decide))
    have moved := postings.setThrough passing.known fun lev p held within => by
      rw [Posted, cleared _ (by decide)]
      exact posted lev p ((cleared.samePrimary (by decide)).stored.mp held) within
    have idle : currentPass ((w.txn.clear Dbis.eventTagKindBuild).setMarker Dbis.eventTagKind
        tagKindThroughKey pass.target).tables = none := by
      rw [currentPass_congr (setMarker_touches _ Dbis.eventTagKind _ _ _ (by decide))]
      exact currentPass_clear w.txn
    refine ⟨⟨w.entries, w.prepared⟩, pass.target, none, _, ?_, ⟨moved, fun pass running => ?_⟩,
      .inl ⟨idle, rfl⟩⟩
    · rw [if_pos rfl, Nat.max_zero]
      rfl
    · rw [idle] at running
      cases running
  | false =>
    let next : TagKindBulkPass := ⟨pass.target, pass.visited + w.visited⟩
    have current := currentPass_writePass (putCursor w.txn w.position)
      (show next.target < 2 ^ 64 from passing.known.trans_lt bounded)
    have cursor : passCursor (writePass (putCursor w.txn w.position) next).tables = w.position :=
      walking.cursor later
    have put : Touches [Dbis.eventTagKindBuild] w.txn (writePass (putCursor w.txn w.position) next) :=
      (putCursor_touches w.txn w.position).trans (writePass_touches _ _)
    have only : OnlyTables w.txn (writePass (putCursor w.txn w.position) next) := by
      unfold putCursor
      split <;> exact ⟨_, rfl⟩
    have left : passLeft (writePass (putCursor w.txn w.position) next).tables
        = rowsAfter txn.tables (placeOf w.position) := by
      rw [passLeft, cursor, rowsAfter, put _ (by decide), tags]
      rfl
    refine ⟨⟨w.entries, w.prepared⟩, 0, some next, _, rfl, ⟨?_, fun pass' running' => ?_⟩,
      .inr ⟨rfl, by rw [current]; rfl, left.trans_le (rowsAfter_lower later), fun moves => ?_⟩⟩
    · exact walking.postings.copy (walking.postings.marked.same (put.samePrimary (by decide))
        (only.keepsSequence put (by decide))) (put _ (by decide)) (put _ (by decide))
    · obtain rfl := Option.some.inj (current.symm.trans running')
      refine ⟨rfl, passing.some, passing.known, ?_, ?_⟩
      · rw [cursor]
        exact fun q at_ => (walking.placed q at_).2
      · rw [cursor]
        refine walking.passed.kept (.of_subset fun e row => ?_) fun lev p held _ => ?_
        · rw [put _ (by decide)]
          exact row
        · exact (put.samePrimary (by decide)).stored.mp held
    · rw [left]
      rcases progress rfl with fewer | ⟨last, w₀, x, items, atEnd, w₁, read, work, stop⟩
      · exact fewer
      · rcases moves with bound | ⟨two, more⟩
        · exact absurd (atLastId_le placed bounded last) (by omega)
        · have first : w₁.visited = 1 := by
            rw [visitTagEntry_visited work, readTags_visited read]
          have stop : (decide (limits.maxEntries ≤ w₁.visited) || limits.stops w₁.visited) = true :=
            stop
          rw [first, more, Bool.or_false, decide_eq_true_eq] at stop
          omega

end KeyOrdered

/-! ### Backfill steps -/

/-- What is left to do before the marker is at the high-water mark: a pass that runs or is about to
begin, and then the local ids above the marker. -/
def backfillLeft (t : Tables) (through highWater : Nat) : Nat :=
  if (currentPass t).isSome then highWater + 2 + passLeft t
  else if through = 0 ∧ (t.rows Dbis.event).length ≠ 0 then
    highWater + 3 + (t.rows Dbis.eventTag).length
  else highWater - through

section Backfill

variable {env : Services} {log : List StoredEvent} {txn : RwTxn} {through : Nat}

theorem backfillLeft_congr {t t' : Tables} {highWater : Nat}
    (build : t'.rows Dbis.eventTagKindBuild = t.rows Dbis.eventTagKindBuild)
    (event : t'.rows Dbis.event = t.rows Dbis.event)
    (tag : t'.rows Dbis.eventTag = t.rows Dbis.eventTag) :
    backfillLeft t' through highWater = backfillLeft t through highWater := by
  rw [backfillLeft, backfillLeft, passLeft, passLeft, rowsAfter, rowsAfter, currentPass_congr build,
    passCursor_congr build, event, tag]

theorem Logs.first (logs : Logs env.host log txn.tables)
    (events : (txn.tables.rows Dbis.event).length ≠ 0) : 1 ≤ log.length := by
  obtain ⟨row, inside⟩ := exists_mem_of_length_pos (Nat.pos_of_ne_zero events)
  obtain ⟨lev, p, held, _⟩ := logs.exact.records row inside
  have known := logs.small held
  exact known.1.trans known.2

/-- **A pass begins** before its first entry. -/
theorem TagKinds.begins (kinds : TagKinds env log txn 0)
    (events : (txn.tables.rows Dbis.event).length ≠ 0) :
    let begun := writePass (txn.clear Dbis.eventTagKindBuild) ⟨log.length, 0⟩
    TagKinds env log begun 0 ∧ currentPass begun.tables = some ⟨log.length, 0⟩ ∧
      Touches [Dbis.eventTagKindBuild] txn begun := by
  intro begun
  have bounded := kinds.postings.marked.logged.sequence.small
  have touches : Touches [Dbis.eventTagKindBuild] txn begun :=
    (clear_touches txn _).trans (writePass_touches _ _)
  have only : OnlyTables txn begun := ⟨_, rfl⟩
  have running : currentPass begun.tables = some ⟨log.length, 0⟩ := by
    have zero : leVal (u64NeBytes 0) = 0 := by decide
    rw [currentPass_writePass _ bounded, zero]
  have cursor : passCursor begun.tables = none := by
    rw [passCursor_writePass, passCursor,
      Tables.get_eq_none.mpr fun value => not_mem_clear txn _ _]
    rfl
  refine ⟨⟨?_, fun pass current => ?_⟩, running, touches⟩
  · exact kinds.postings.copy (kinds.postings.marked.same (touches.samePrimary (by decide))
      (only.keepsSequence touches (by decide))) (touches _ (by decide)) (touches _ (by decide))
  · obtain rfl := Option.some.inj (running.symm.trans current)
    refine ⟨rfl, kinds.postings.marked.logged.logs.first events, le_rfl, by simp [cursor], ?_⟩
    rw [cursor]
    rintro lev p tag _ _ _ ⟨q, at_, _⟩
    cases at_

theorem TagKinds.passStep {pass : TagKindBulkPass} (kinds : TagKinds env log txn 0)
    (running : currentPass txn.tables = some pass) (limits : StepLimits) :
    ∃ work through' pass' txn', Wok.Db.keyOrderedStep txn pass 0 limits
        = .ok ((work, through', pass'), txn') ∧ TagKinds env log txn' through' ∧
      backfillLeft txn'.tables through' log.length ≤ log.length + 2 + passLeft txn.tables ∧
      (limits.Moves log.length → backfillLeft txn'.tables through' log.length
        < log.length + 2 + passLeft txn.tables) := by
  obtain ⟨work, through', pass', txn', run, kinds', how⟩ := kinds.keyOrderedStep running limits
  have some := (kinds.passing pass running).some
  refine ⟨work, through', pass', txn', run, kinds', ?_⟩
  rcases how with ⟨idle, rfl⟩ | ⟨rfl, current, fewer, moves⟩
  · have left : backfillLeft txn'.tables pass.target log.length = log.length - pass.target := by
      rw [backfillLeft, idle, if_neg (by simp), if_neg (by omega)]
    omega
  · have left : backfillLeft txn'.tables 0 log.length = log.length + 2 + passLeft txn'.tables := by
      rw [backfillLeft, if_pos current]
    rw [left]
    exact ⟨Nat.add_le_add_left fewer _, fun fair => Nat.add_lt_add_left (moves fair) _⟩

/-- **A backfill step** keeps what the table holds and leaves less to do. -/
theorem TagKinds.backfill (kinds : TagKinds env log txn through) (limits : StepLimits) :
    ∃ step txn' through', backfillTagKindIndex txn limits = .ok (some step, txn') ∧
      TagKinds env log txn' through' ∧
      (limits.Moves log.length → backfillLeft txn'.tables through' log.length = 0 ∨
        backfillLeft txn'.tables through' log.length
          < backfillLeft txn.tables through log.length) := by
  let atLeastOne : StepLimits := { limits with maxEntries := max limits.maxEntries 1 }
  have moves : limits.Moves log.length → atLeastOne.Moves log.length := by
    rintro (below | ⟨two, more⟩)
    · exact .inl below
    · exact .inr ⟨two.trans_le (le_max_left _ _), more⟩
  let report (work : StepWork) (through : Nat) (pass : Option TagKindBulkPass) :
      TagKindBackfillStep := ⟨work.entries, work.prepared, (txn.tables.rows Dbis.eventTag).length,
    ⟨some tagKindSchemaVersion, through, log.length, pass⟩⟩
  simp only [backfillTagKindIndex, if_pos kinds.postings.schema_eq, kinds.postings.through_eq,
    kinds.postings.marked.greatest, ok_bind]
  cases current : currentPass txn.tables with
  | some pass =>
    obtain rfl := (kinds.passing pass current).unbuilt
    obtain ⟨work, through', pass', txn', run, kinds', _, falls⟩ :=
      kinds.passStep current atLeastOne
    have left : backfillLeft txn.tables 0 log.length = log.length + 2 + passLeft txn.tables := by
      rw [backfillLeft, current, if_pos (by simp)]
    refine ⟨report work through' pass', txn', through', ?_, kinds', fun fair => .inr ?_⟩
    · simp only [beginPass, current]
      rw [run]
      rfl
    · rw [left]
      exact falls (moves fair)
  | none =>
    by_cases begins : through = 0 ∧ (txn.tables.rows Dbis.event).length ≠ 0
    · obtain ⟨rfl, events⟩ := begins
      obtain ⟨begun, running, touches⟩ := kinds.begins events
      obtain ⟨work, through', pass', txn', run, kinds', most, _⟩ := begun.passStep running atLeastOne
      have left : backfillLeft txn.tables 0 log.length
          = log.length + 3 + (txn.tables.rows Dbis.eventTag).length := by
        rw [backfillLeft, current, if_neg (by simp), if_pos ⟨rfl, events⟩]
      have rows : passLeft (writePass (txn.clear Dbis.eventTagKindBuild) ⟨log.length, 0⟩).tables
          ≤ (txn.tables.rows Dbis.eventTag).length := by
        rw [← touches Dbis.eventTag (by decide)]
        exact countP_le_length
      refine ⟨report work through' pass', txn', through', ?_, kinds', fun _ => .inr ?_⟩
      · simp only [beginPass, current, events, ne_eq, not_false_eq_true, and_self, if_true]
        rw [run]
        rfl
      · rw [left]
        omega
    · obtain ⟨work, through', txn', run, kinds', idle, progress⟩ :=
        kinds.localIdStep current atLeastOne
      have left : backfillLeft txn.tables through log.length = log.length - through := by
        rw [backfillLeft, current, if_neg (by simp), if_neg begins]
      have below := kinds'.postings.below
      refine ⟨report work through' none, txn', through', ?_, kinds', fun _ => ?_⟩
      · simp only [beginPass, current, if_neg begins]
        rw [run]
        rfl
      · have left' : backfillLeft txn'.tables through' log.length = log.length - through' := by
          rw [backfillLeft, idle, if_neg (by simp), if_neg]
          rintro ⟨rfl, events⟩
          have := kinds'.postings.marked.logged.logs.first events
          omega
        omega

end Backfill

/-! ### Runs -/

/-- A call on the open transaction: of the writer, a choice of how it posts the tags of the events
it stores, a backfill step or a reset. -/
inductive TagKindCall
  | writer (c : WriterCall)
  | defer (openInAnotherProcess : Bool)
  | skip
  | backfill (limits : StepLimits)
  | reset

section Runs

variable {σ : Type} (env : Services) (sink : NegentropySink σ)

def TagKindCall.apply : TagKindCall → Writer σ → Except DbError (Writer σ)
  | .writer c, w => c.apply env sink w
  | .defer openInAnotherProcess, w =>
    .ok { w with txn := deferTagKindPostings w.txn openInAnotherProcess }
  | .skip, w => .ok { w with txn := skipTagKindPostings w.txn }
  | .backfill limits, w => (backfillTagKindIndex w.txn limits).map fun done => { w with txn := done.2 }
  | .reset, w => .ok { w with txn := resetTagKindIndex w.txn }

/-- Runs of the writer, backfill steps and resets. -/
def tagKindRuns : Transactional (Tables × σ) (Writer σ) TagKindCall DbError :=
  transactions (TagKindCall.apply env sink)

variable {env sink} {log : List StoredEvent} {t : Tables} {through : Nat}

theorem TagKinds.state (kinds : TagKinds env log (.begin t) through) :
    tagKindIndexCompleteRo t = .ok (decide (log.length ≤ through)) := by
  have schema : tagKindSchema t = some tagKindSchemaVersion := kinds.postings.schema_eq
  have marker : tagKindThrough t = through := kinds.postings.through_eq
  obtain ⟨newest, largest, mark⟩ := kinds.postings.marked.greatest_ro
  rw [tagKindIndexCompleteRo, tagKindIndexStateRo, largest, ok_bind, schema, marker, mark]
  simp [TagKindIndexState.complete, Except.map, pure, Except.pure]

theorem tagKinds_fresh (env : Services) : TagKinds env [] (.begin .fresh) 0 := by
  have rows : (RwTxn.begin .fresh).tables.rows Dbis.eventTagKind
      = [(tagKindSchemaKey, u64NeBytes tagKindSchemaVersion),
        (tagKindThroughKey, u64NeBytes 0)] := by decide
  have apart : tagKindSchemaKey ≠ tagKindThroughKey := by decide
  have marked := marked_fresh env.host
  refine ⟨⟨marked, le_rfl, fun value => ?_, fun value => ?_, fun e member plain => ?_,
    fun lev p held _ => ?_⟩, fun pass running => ?_⟩
  · rw [rows]
    simp [apart]
  · rw [rows]
    simp [apart.symm]
  · rw [rows] at member
    rcases mem_cons.mp member with rfl | last
    · cases plain
    · rw [mem_singleton.mp last] at plain
      cases plain
  · have bounds := marked.logged.logs.small held
    exact absurd (bounds.1.trans bounds.2) (by simp)
  · rw [show currentPass (RwTxn.begin .fresh).tables = none from by decide] at running
    cases running

theorem tagKindCall_kept {c : TagKindCall} {w w' : Writer σ}
    (inv : ∃ log through, TagKinds env log w.txn through) (run : c.apply env sink w = .ok w') :
    ∃ log through, TagKinds env log w'.txn through := by
  obtain ⟨log, through, kinds⟩ := inv
  have flagged : ∀ on, TagKinds env log { w.txn with deferTagKind := on } through := fun on =>
    kinds.copy (kinds.postings.marked.same (.refl _) ⟨rfl, rfl, fun _ => .inl⟩) rfl rfl rfl
  cases c with
  | writer c =>
    cases c with
    | write policy authorQuota evs =>
      obtain ⟨⟨_, done⟩, call, rfl⟩ := map_eq_ok.mp run
      obtain ⟨written, through', kinds'⟩ := writeBatch_tagKinds kinds call
      exact ⟨_, through', kinds'⟩
    | delete levs =>
      obtain ⟨⟨n, _⟩, call, rfl⟩ := map_eq_ok.mp run
      have kept := (batching_kept env through log.length w.txn.deferTagKind).deleteEvents
        kinds.batching call
      exact ⟨log, through, kept.kinds⟩
  | defer openInAnotherProcess =>
    cases run
    exact ⟨log, through, flagged _⟩
  | skip =>
    cases run
    exact ⟨log, through, flagged true⟩
  | backfill limits =>
    obtain ⟨step, txn', through', done, kinds', _⟩ := kinds.backfill limits
    simp only [TagKindCall.apply, done, Except.map, Except.ok.injEq] at run
    subst run
    exact ⟨log, through', kinds'⟩
  | reset =>
    cases run
    exact ⟨log, 0, kinds.reset⟩

/-- Backfill steps alone, each in a transaction of its own. -/
def afterSteps (env : Services) (sink : NegentropySink σ) (store : Tables × σ)
    (steps : List StepLimits) : Tables :=
  let runs := tagKindRuns env sink
  (runs.run (runs.start store) (Transactional.alone (steps.map .backfill))).committed.1

/-- **Enough backfill steps complete the index.** -/
theorem TagKinds.completes {store : Tables × σ} (kinds : TagKinds env log (.begin store.1) through)
    {steps : List StepLimits} (enough : backfillLeft store.1 through log.length ≤ steps.length)
    (moves : ∀ limits ∈ steps, limits.Moves log.length) :
    tagKindIndexCompleteRo (afterSteps env sink store steps) = .ok true := by
  let runs := tagKindRuns env sink
  let Ranked (n : Nat) (w : Writer σ) : Prop := ∃ through,
    TagKinds env log w.txn through ∧ backfillLeft w.txn.tables through log.length = n
  have advance : ∀ c, (∃ limits : StepLimits, limits.Moves log.length ∧ c = .backfill limits) →
      ∀ n store, Ranked n (runs.begin store) → ∃ w n', runs.call c (runs.begin store) = .ok w ∧
        Ranked n' (runs.begin (runs.commit w)) ∧ (n' = 0 ∨ n' < n) := by
    rintro _ ⟨limits, fair, rfl⟩ n store ⟨through, kinds, rfl⟩
    obtain ⟨step, txn', through', done, kinds', progress⟩ := kinds.backfill limits
    have flushed : Touches [Dbis.state] txn' (flush txn') := flush_touches txn'
    have same : backfillLeft (flush txn').tables through' log.length
        = backfillLeft txn'.tables through' log.length :=
      backfillLeft_congr (flushed _ (by decide)) (flushed _ (by decide)) (flushed _ (by decide))
    refine ⟨⟨txn', store.2⟩, _, ?_, ⟨through', kinds'.commit, same⟩, progress fair⟩
    show (backfillTagKindIndex (RwTxn.begin store.1) limits).map _ = _
    have run : backfillTagKindIndex (RwTxn.begin store.1) limits = _ := done
    rw [run]
    rfl
  have started : Ranked (backfillLeft store.1 through log.length) (runs.begin store) :=
    ⟨through, kinds, rfl⟩
  have all : ∀ c ∈ steps.map TagKindCall.backfill,
      ∃ limits : StepLimits, limits.Moves log.length ∧ c = .backfill limits := by
    intro c member
    obtain ⟨limits, inside, rfl⟩ := mem_map.mp member
    exact ⟨limits, moves limits inside, rfl⟩
  obtain ⟨through', kinds', left⟩ := Transactional.commits_reach Ranked _ advance started all
    (enough.trans_eq (length_map _).symm)
  have caught : log.length ≤ through' := by
    unfold backfillLeft at left
    split_ifs at left <;> omega
  rw [afterSteps, kinds'.state, decide_eq_true caught]

/-- **The `(tag, kind)` index.** In every run from a fresh database of writes that post, defer or
skip, deletions, backfill steps that stop anywhere and resets, each committed posting is a key of a
stored event with that local id, and a complete index has all keys of every stored event. From every
committed state backfill steps alone complete it; any do, in number enough, unless the greatest local
id of all was given and they visit a single entry each. -/
theorem tag_kind_index_complete {σ : Type} (env : Services) (sink : NegentropySink σ) (trees : σ)
    (acts : List (Act TagKindCall)) :
    let runs := tagKindRuns env sink
    let store := (runs.run (runs.start (.fresh, trees)) acts).committed
    (∀ key value, (key, value) ∈ store.1.rows Dbis.eventTagKind → isTagKindMarker key = false →
      ∃ lev p, Holds store.1 lev p ∧ key ∈ tagKindKeys p ∧ value = u64NeBytes lev) ∧
    (tagKindIndexCompleteRo store.1 = .ok true →
      ∀ lev p, Holds store.1 lev p → Posted store.1 lev p) ∧
    (∃ steps, tagKindIndexCompleteRo (afterSteps env sink store steps) = .ok true) ∧
    ∃ n highWater, (RwTxn.begin store.1).highWater = .ok highWater ∧
      ∀ steps : List StepLimits, n ≤ steps.length → (∀ limits ∈ steps, limits.Moves highWater) →
        tagKindIndexCompleteRo (afterSteps env sink store steps) = .ok true := by
  intro runs store
  let Inv (w : Writer σ) : Prop := ∃ log through, TagKinds env log w.txn through
  have call : ∀ c : TagKindCall, True → ∀ w w', Inv w → runs.call c w = .ok w' → Inv w' :=
    fun c _ w w' inv run => tagKindCall_kept inv run
  have commit : ∀ w, Inv w → Inv (runs.begin (runs.commit w)) := by
    rintro w ⟨log, through, kinds⟩
    exact ⟨log, through, kinds.commit⟩
  have fresh : Inv (runs.begin (.fresh, trees)) := ⟨[], 0, tagKinds_fresh env⟩
  have reached : Inv (runs.begin store) :=
    (Transactional.run_invariant Inv (fun _ => True) call commit fresh fresh (by simp)).1
  obtain ⟨log, through, kinds⟩ := reached
  have kinds : TagKinds env log (.begin store.1) through := kinds
  refine ⟨fun key value row plain => kinds.postings.sound (key, value) row plain,
    fun complete lev p held => ?_, ?_, ?_⟩
  · rw [kinds.state, Except.ok.injEq, decide_eq_true_eq] at complete
    exact kinds.postings.posted lev p held
      ((kinds.postings.marked.logged.logs.small held).2.trans complete)
  · refine ⟨List.replicate (backfillLeft store.1 through log.length) ⟨2, fun _ => false⟩,
      kinds.completes (by simp) fun limits member => ?_⟩
    rw [eq_of_mem_replicate member]
    exact .inr ⟨by decide, rfl⟩
  · exact ⟨_, log.length, kinds.postings.marked.greatest, fun steps enough moves =>
      kinds.completes enough moves⟩

end Runs

end Wok.Db
