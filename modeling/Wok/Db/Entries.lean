/-
**Entry counters count entries.**

A transaction over the column families refines the logical tables: a call that stages rows does to the
tables it shows what `Tables.apply` does. A counter that moves with what its table shows stays the
number of its entries, whatever the flags, the table or the order of the calls.

* `Tallied` — a transaction shows these tables, and its counters and its mirror are right.
* `Tallied.put`, `Tallied.del`, `Tallied.clear` — **every call keeps this**, with the call on the
  tables, and no counter overflows while fewer than `2^64` puts were made into its table.
* `entries_count_tables` — this at every point of every run.
* `counters_have_limits` — the two limits are needed.
-/

import Wok.Db.Shown

namespace Wok.Db

open Wok.Library List

/-! ### The mirrored values -/

/-- The values of a marker, in the order of the table. -/
abbrev MarkerOrdered (key : Bytes) (values : List Bytes) : Prop :=
  SortedBy (fun val => entryCode Dbis.eventTagKind (key, val)) values

namespace Tables

variable {t : Tables} {key : Bytes}

def markerValues (t : Tables) (key : Bytes) : List Bytes :=
  ((t.rows Dbis.eventTagKind).filter fun e => decide (e.1 = key)).map Prod.snd

theorem mem_markerValues {val : Bytes} :
    val ∈ t.markerValues key ↔ (key, val) ∈ t.rows Dbis.eventTagKind := by
  simp [markerValues]

theorem markerValues_ordered (t : Tables) (key : Bytes) :
    MarkerOrdered key (t.markerValues key) := by
  refine pairwise_map.mpr (((t.sorted Dbis.eventTagKind).filter _).imp_of_mem ?_)
  rintro ⟨k, a⟩ ⟨k', b⟩ first second less
  obtain rfl : k = key := by simpa using (mem_filter.mp first).2
  obtain rfl : k' = k := by simpa using (mem_filter.mp second).2
  exact less

theorem head?_markerValues : (t.markerValues key).head? = t.get Dbis.eventTagKind key := by
  rw [markerValues, head?_map, head?_filter]
  rfl

end Tables

/-- A change of a marker's values does what a write of one of them does to the table. -/
def Mirrors (key val : Bytes) (entry : Option Kv) (change : List Bytes → List Bytes) : Prop :=
  ∀ values, MarkerOrdered key values → MarkerOrdered key (change values) ∧
    ∀ v, v ∈ change values ↔ entry = some (key, v) ∨ v ∈ values ∧ v ≠ val

/-- Sorting puts marker values in the order of the table. -/
theorem sortMarkerValues_ordered {key : Bytes} {values : List Bytes} (distinct : values.Nodup) :
    MarkerOrdered key (sortMarkerValues key values) := by
  have order : ∀ a b : Bytes, decide (encode Dbis.eventTagKind key (some b)
      ≤ encode Dbis.eventTagKind key (some a)) = true ↔
        entryCode Dbis.eventTagKind (key, a) ≤ entryCode Dbis.eventTagKind (key, b) := by
    intro a b
    have code : ∀ c : Bytes, encode Dbis.eventTagKind key (some c)
        = complement (entryCode Dbis.eventTagKind (key, c)) :=
      fun c => entryKey_eq_code Dbis.eventTagKind (key, c)
    rw [decide_eq_true_iff, code, code, complement_entryCode_le]
  have sorted : (sortMarkerValues key values).Pairwise fun a b =>
      entryCode Dbis.eventTagKind (key, a) ≤ entryCode Dbis.eventTagKind (key, b) := by
    refine (pairwise_mergeSort ?_ ?_ values).imp fun le => (order _ _).mp le
    · intro a b c first second
      exact (order a c).mpr (((order a b).mp first).trans ((order b c).mp second))
    · intro a b
      rw [Bool.or_eq_true, order, order]
      exact le_total _ _
  have nodup : (sortMarkerValues key values).Nodup :=
    (mergeSort_perm values _).nodup_iff.mpr distinct
  refine (sorted.and nodup).imp fun both => lt_of_le_of_ne both.1 fun same => both.2 ?_
  exact (Prod.mk.inj (View.entryCode_injective_on rfl same)).2

/-! ### One call -/

/-- **A transaction shows these tables, with the counters and the mirror right**, and each table has
at most so many entries. -/
structure Tallied (n : Nat → Nat) (txn : RocksTxn) (t : Tables) : Prop where
  shows : txn.Shows t
  counts : ∀ dbi, dbi ≠ coverDbi → txn.entries dbi = .ok (t.rows dbi).length
  few : ∀ dbi, (t.rows dbi).length ≤ n dbi
  locals : ∀ dbi, combined dbi = true → ∀ e ∈ t.rows dbi, e.1.length = 8
  markers : ∀ key, isTagKindMarker key = true → txn.markers key = t.markerValues key

/-- The answer of a counter that leaves its range. -/
def countError : DbError := err "entry counter overflow/underflow"

namespace RocksTxn

variable {txn : RocksTxn} {dbi : Nat} {key : Bytes} {change : List Bytes → List Bytes}

@[simp] theorem view_mirror (d : Nat) : (txn.mirror dbi key change).view d = txn.view d := by
  unfold mirror
  split_ifs <;> rfl

@[simp] theorem entries_mirror (d : Nat) : (txn.mirror dbi key change).entries d = txn.entries d := by
  unfold mirror
  split_ifs <;> rfl

theorem markers_mirror (k : Bytes) : (txn.mirror dbi key change).markers k
    = if cachedMarker dbi key = true ∧ k = key then change (txn.markers key) else txn.markers k := by
  unfold mirror
  split_ifs with cached here here
  · obtain rfl := here.2
    exact Function.update_self ..
  · exact Function.update_of_ne (fun is => here ⟨cached, is⟩) ..
  · exact absurd here.1 cached
  · rfl

/-- A transaction whose counter of a table is set. -/
def withCount (txn : RocksTxn) (dbi n : Nat) : RocksTxn :=
  { txn with counts := Function.update txn.counts dbi (some n) }

theorem entries_withCount (n d : Nat) :
    (txn.withCount dbi n).entries d = if d = dbi then .ok n else txn.entries d := by
  by_cases here : d = dbi
  · simp [entries, withCount, here]
  · simp [entries, withCount, here]

theorem changeCount_insert {n : Nat} (count : txn.entries dbi = .ok n) (room : n + 1 < 2 ^ 64) :
    txn.changeCount dbi true = .ok (txn.withCount dbi (n + 1)) := by
  simp only [changeCount, count, ok_bind, if_true, if_pos room]
  rfl

theorem changeCount_delete {n : Nat} (count : txn.entries dbi = .ok n) (some' : 1 ≤ n) :
    txn.changeCount dbi false = .ok (txn.withCount dbi (n - 1)) := by
  simp only [changeCount, count, ok_bind, Bool.false_eq_true, if_false, if_pos some']
  rfl

/-! #### Other failures -/

theorem recordAt_raw (both : combined dbi = true) (pk : Bytes) :
    ∃ r, recordAt ((txn.view dbi).raw pk) = .ok r := by
  cases old : (txn.view dbi).raw pk with
  | none => exact ⟨_, rfl⟩
  | some raw =>
    obtain ⟨_, _, _, components, _⟩ : Stored dbi pk raw :=
      View.rows_stored (View.raw_eq_some.mp old) rfl
    obtain ⟨⟨packed, payload⟩, read⟩ := components both
    exact ⟨⟨packed, payload⟩, Record.decode_eq.mpr read⟩

theorem present_wrong {key val : Bytes} (both : combined dbi = true) (wrong : key.length ≠ 8) :
    txn.present dbi key val = .error (err "invalid event local ID") := by
  have plain : cachedMarker dbi key = false := by
    rcases combined_cases both with rfl | rfl <;> rfl
  simp [present, get, both, plain, wrong, Except.map]

theorem putValue_ok (txn : RocksTxn) (dbi : Nat) (pk val : Bytes) :
    ∃ value, txn.putValue dbi pk val = .ok value := by
  unfold putValue
  split_ifs with both
  · obtain ⟨r, read⟩ := txn.recordAt_raw both pk
    exact ⟨_, by rw [putPart, read]; rfl⟩
  all_goals exact ⟨_, rfl⟩

/-- A delete finds something to take away unless its table shows nothing there. -/
theorem delValue_ok (txn : RocksTxn) (dbi : Nat) (pk : Bytes) :
    ∃ value, txn.delValue dbi pk = .ok value ∧
      (value = none → (txn.view dbi).shown pk = none) := by
  unfold delValue
  cases old : (txn.view dbi).raw pk with
  | none => exact ⟨none, rfl, fun _ => by rw [View.shown, old]; rfl⟩
  | some raw =>
    simp only []
    split_ifs with both
    · obtain ⟨key, val, at', _⟩ : Stored dbi pk raw :=
        View.rows_stored (View.raw_eq_some.mp old) rfl
      obtain ⟨r, read⟩ := txn.recordAt_raw both pk
      rw [old] at read
      have shown : (txn.view dbi).shown pk = _ := old ▸ shows_record both at' read
      rw [delPart, show Record.decode raw = .ok r from read, ok_bind, shown]
      split_ifs with missing
      · exact ⟨none, rfl, fun _ => by simpa using missing⟩
      all_goals exact ⟨some _, rfl, fun is => absurd is (Option.some_ne_none _)⟩
    · exact ⟨some none, rfl, fun is => absurd is (Option.some_ne_none _)⟩

end RocksTxn

namespace View

variable {v : View} {key : Bytes}

/-- The first entry from a key on, if it has the key, is the first with it. -/
theorem find?_key : ((v.listed false).find? (fromKey v.dbi key)).filter (fun e => e.1 = key)
    = (v.listed false).find? fun e => e.1 = key := by
  cases found : ((v.listed false).find? (fromKey v.dbi key)).filter fun e => e.1 = key with
  | none =>
    exact (find?_eq_none.mpr fun e member => by simpa using key_ne found member).symm
  | some e =>
    obtain ⟨first, here⟩ := Option.filter_eq_some_iff.mp found
    refine (find?_listed (mem_listed.mp (mem_of_find?_eq_some first)) here ?_).symm
    intro x holds same
    have le := least_listed first (mem_listed.mpr holds : x ∈ v.listed false)
      (by simp [of_decide_eq_true same])
    rcases le.lt_or_eq with less | equal
    · exact .inr less
    · exact .inl (holds_unique holds (mem_listed.mp (mem_of_find?_eq_some first)) equal.symm)

theorem listed_true : v.listed true = (v.listed false).reverse := by
  unfold listed travel
  cases reversed v.dbi <;> simp

theorem find?_last : ((v.listed true).find? fun _ => true) = (v.listed false).getLast? := by
  have back := v.listed_true
  cases same : v.listed true with
  | nil => simp_all
  | cons e rest => simp [← head?_reverse, ← back, same]

end View

namespace Tallied

variable {n m : Nat → Nat} {txn txn' : RocksTxn} {t t' : Tables} {dbi : Nat} {key val pk : Bytes}
variable {entry : Option Kv} {change : List Bytes → List Bytes}

/-! #### Reading -/

/-- **A value read is the one of the table.** -/
theorem get_eq (tallied : Tallied n txn t) (local' : combined dbi = true → key.length = 8) :
    txn.get dbi key = .ok (t.get dbi key) := by
  unfold RocksTxn.get
  split_ifs with cached both short dups
  · obtain ⟨rfl, marker⟩ := of_decide_eq_true cached
    rw [tallied.markers key marker, Tables.head?_markerValues]
  · exact absurd (local' both) short
  · have at' : (1 :: beBytes 8 (u64FromNe key) : Bytes) = entryKey dbi key [] := by
      have code : entryKey 3 key [] = 1 :: beInts 1 key := by
        show keyPrefix 3 key ++ [] = _
        rw [append_nil, keyPrefix_integer rfl rfl, if_pos (decide_eq_true (local' both))]
      rw [RocksTxn.entryKey_combined both (show combined 3 = true from rfl) key [] [], code]
      simp [beInts]
    obtain ⟨r, read⟩ := txn.recordAt_raw both (entryKey dbi key [])
    have shown : (txn.view dbi).shown (entryKey dbi key []) = _ :=
      RocksTxn.shows_record both rfl read
    rw [tallied.shows.get_plain (View.dupSort_of_combined both), shown, at']
    cases old : (txn.view dbi).raw (entryKey dbi key []) with
    | none =>
      rw [old] at read
      cases read
      simp [Record.part]
    | some raw =>
      rw [old] at read
      simp [show Record.decode raw = .ok r from read, Except.map, Function.comp_def]
  · obtain ⟨c, found, _⟩ := View.get_setKey (View.placed_fresh (txn.view dbi)) key
    rw [found, View.find?_key, tallied.shows]
    rfl
  · have plain : (spec dbi).flags.dupSort = false := by simpa using dups
    rw [tallied.shows.get_plain plain, View.map_snd_shown (eq_false_of_ne_true both) plain, entryKey,
      if_neg dups]

theorem present_eq (tallied : Tallied n txn t) (local' : combined dbi = true → key.length = 8) :
    txn.present dbi key val = .ok (t.has dbi key val) := by
  unfold RocksTxn.present
  split_ifs with both
  · rw [tallied.get_eq local', Tables.has_plain (View.dupSort_of_combined both)]
    rfl
  · rw [← tallied.shows.isSome_shown]
    exact congrArg _ (View.isSome_shown (eq_false_of_ne_true both)).symm

/-- **The flags refuse a put where they refuse it on the tables.** -/
theorem refuses_eq (tallied : Tallied n txn t) (local' : combined dbi = true → key.length = 8)
    (flags : PutFlags) : txn.refuses flags dbi key (t.has dbi key val)
      = .ok (t.refuses flags dbi key val) := by
  obtain ⟨c, found, _⟩ := View.get_edge (View.placed_fresh (txn.view dbi)) true
  rw [if_pos rfl, View.find?_last, tallied.shows] at found
  have order : ∀ last : Kv, (if reversed dbi then decide (encode dbi last.1 none ≤ encode dbi key none)
      else decide (encode dbi key none ≤ encode dbi last.1 none))
        = decide (keyPrefix dbi key ≤ keyPrefix dbi last.1) := by
    intro last
    rw [View.encode_none, View.encode_none]
    cases back : reversed dbi <;> simp [complement_keyPrefix_le]
  obtain ⟨noOverwrite, noDupData, append⟩ := flags
  simp only [RocksTxn.refuses, tallied.get_eq local', found, ok_bind, order, Tables.refuses]
  generalize t.get dbi key = stored, t.has dbi key val = there
  cases noOverwrite <;> cases noDupData <;> cases append <;> cases stored <;> cases there <;>
    simp [Except.map, pure, Except.pure, bind, Except.bind]

/-! #### Writing -/

theorem mono (tallied : Tallied n txn t) (le : n ≤ m) : Tallied m txn t :=
  { tallied with few := fun dbi => (tallied.few dbi).trans (le dbi) }

/-- A row written, with its table's counter and mirror. -/
theorem step (tallied : Tallied n txn t) (writes : Writes txn txn' dbi pk entry)
    (changed : t.Changed t' dbi pk entry) (le : n ≤ m) (few : (t'.rows dbi).length ≤ m dbi)
    (count : txn'.entries dbi = .ok (t'.rows dbi).length)
    (others : ∀ d, d ≠ dbi → txn'.entries d = txn.entries d)
    (local' : combined dbi = true → ∀ e ∈ entry, e.1.length = 8)
    (markers : ∀ key, isTagKindMarker key = true → txn'.markers key = t'.markerValues key) :
    Tallied m txn' t' where
  shows := writes.shows tallied.shows changed
  counts d real := by
    by_cases here : d = dbi
    · rw [here, count]
    · rw [others d here, tallied.counts d real, changed.there d here]
  few d := by
    by_cases here : d = dbi
    · rw [here]; exact few
    · rw [changed.there d here]; exact (tallied.few d).trans (le d)
  locals d both e inside := by
    by_cases here : d = dbi
    · subst here
      rcases (changed.here e).mp inside with new | old
      · exact local' both e new
      · exact tallied.locals d both e old.1
    · exact tallied.locals d both e (changed.there d here ▸ inside)
  markers := markers

theorem marker_injective {p q : Kv} (same : entryKey Dbis.eventTagKind p.1 p.2
    = entryKey Dbis.eventTagKind q.1 q.2) : p = q :=
  View.entryCode_injective_on rfl (entryKey_inj.mp same)

section Written

variable (tallied : Tallied n txn t) (writes : Writes txn txn' dbi (entryKey dbi key val) entry)
  (changed : t.Changed t' dbi (entryKey dbi key val) entry) (kept : txn'.markers = txn.markers)
  (mirrors : dbi = Dbis.eventTagKind → Mirrors key val entry change)

include tallied writes changed kept mirrors

/-- The mirror after a write at an entry's key. -/
theorem markers_step : ∀ k, isTagKindMarker k = true →
    (txn'.mirror dbi key change).markers k = t'.markerValues k := by
  intro k marker
  rw [RocksTxn.markers_mirror, kept]
  have old := tallied.markers k marker
  by_cases table : dbi = Dbis.eventTagKind
  · subst table
    by_cases here : k = key
    · subst here
      rw [if_pos ⟨by simp [cachedMarker, marker], rfl⟩, old]
      obtain ⟨sorted, members⟩ := mirrors rfl _ (t.markerValues_ordered k)
      refine sorted.ext (t'.markerValues_ordered k) fun v => ?_
      rw [members, Tables.mem_markerValues, Tables.mem_markerValues, changed.here]
      refine or_congr_right (and_congr_right fun _ => not_congr ⟨fun is => is ▸ rfl, fun same => ?_⟩)
      exact (Prod.mk.inj (marker_injective (p := (k, v)) (q := (k, val)) same)).2
    · rw [if_neg fun is => here is.2, old]
      refine (t.markerValues_ordered k).ext (t'.markerValues_ordered k) fun v => ?_
      have apart : entryKey Dbis.eventTagKind k v ≠ entryKey Dbis.eventTagKind key val := fun same =>
        here (Prod.mk.inj (marker_injective (p := (k, v)) (q := (key, val)) same)).1
      have elsewhere : entry ≠ some (k, v) := fun is =>
        apart (View.shown_key (v := txn'.view Dbis.eventTagKind) (writes.shown.trans is))
      rw [Tables.mem_markerValues, Tables.mem_markerValues, changed.here]
      exact ⟨fun old => .inr ⟨old, apart⟩, fun new => (new.resolve_left elsewhere).1⟩
  · have other : ¬cachedMarker dbi key = true := fun is => table (of_decide_eq_true is).1
    rw [if_neg fun is => other is.1, old, Tables.markerValues, Tables.markerValues,
      changed.there _ (Ne.symm table)]

variable (le : n ≤ m) (few : (t'.rows dbi).length ≤ m dbi)
  (local' : combined dbi = true → ∀ e ∈ entry, e.1.length = 8)

include le few local'

/-- A row written at an entry's key, then its mirror. -/
theorem settle (count : txn'.entries dbi = .ok (t'.rows dbi).length)
    (others : ∀ d, d ≠ dbi → txn'.entries d = txn.entries d) :
    Tallied m (txn'.mirror dbi key change) t' := by
  refine step tallied (writes.congr RocksTxn.view_mirror) changed le few ?_ ?_ local' ?_
  · rw [RocksTxn.entries_mirror]; exact count
  · intro d other
    rw [RocksTxn.entries_mirror]; exact others d other
  · exact tallied.markers_step writes changed kept mirrors

theorem recount (entries : ∀ d, txn'.entries d = txn.entries d) :
    Tallied m ((txn'.withCount dbi (t'.rows dbi).length).mirror dbi key change) t' := by
  have writes : Writes txn (txn'.withCount dbi (t'.rows dbi).length) dbi _ _ :=
    writes.congr fun _ => rfl
  refine tallied.settle writes changed kept mirrors le few local' ?_ ?_
  · rw [RocksTxn.entries_withCount, if_pos rfl]
  · intro d other
    rw [RocksTxn.entries_withCount, if_neg other, entries]

end Written

theorem mirror_put : Mirrors key val (some (key, val)) fun values =>
    if val ∈ values then values else sortMarkerValues key (values ++ [val]) := by
  intro values sorted
  dsimp only
  split_ifs with old
  · refine ⟨sorted, fun v => ?_⟩
    by_cases here : val = v
    · simp [here, here ▸ old]
    · simp [here, Ne.symm here]
  · refine ⟨sortMarkerValues_ordered ?_, fun v => ?_⟩
    · exact nodup_append.mpr ⟨sorted.nodup, nodup_singleton val,
        fun a inside b is same => old (mem_singleton.mp is ▸ same ▸ inside)⟩
    · rw [sortMarkerValues, (mergeSort_perm _ _).mem_iff]
      by_cases here : val = v
      · simp [here]
      · simp [here, Ne.symm here]

/-- **A put** does what it does on the tables. -/
theorem put (tallied : Tallied n txn t) (le : n ≤ m) (more : n dbi < m dbi) (room : m dbi < 2 ^ 64)
    (flags : PutFlags) (fits : combined dbi = true → val.length < 2 ^ 32 - 1) :
    Tallied m (txn.put dbi key val flags fits).2 (t.putWith flags dbi key val) ∧
      Avoids countError (txn.put dbi key val flags fits).1 := by
  have same : Tallied m txn t := tallied.mono le
  unfold RocksTxn.put Tables.putWith
  by_cases cover : dbi = coverDbi
  · rw [if_pos cover, if_pos (.inl cover)]
    exact ⟨same, avoids_error.mpr (by decide)⟩
  rw [if_neg cover]
  by_cases wrong : combined dbi = true ∧ key.length ≠ 8
  · rw [if_pos (.inr (.inl wrong)), txn.present_wrong wrong.1 wrong.2]
    exact ⟨same, avoids_error.mpr (by decide)⟩
  have local' : combined dbi = true → key.length = 8 := by simpa using wrong
  simp only [tallied.present_eq local', tallied.refuses_eq local', cover, wrong, false_or]
  cases refused : t.refuses flags dbi key val with
  | true => exact ⟨same, avoids_ok _ _⟩
  | false =>
    simp only [Bool.false_eq_true, if_false]
    obtain ⟨value, stages⟩ := txn.putValue_ok dbi (entryKey dbi key val) val
    split
    · rename_i e failed
      exact absurd (stages.symm.trans failed) nofun
    rename_i value made
    have writes := txn.putValue_writes fits made (txn.stored_put fits made)
    have changed := t.changed_put dbi key val
    have count := tallied.counts dbi cover
    have moved := writes.size tallied.shows (writes.shows tallied.shows changed)
    have few := tallied.few dbi
    have there : _ = t.has dbi key val := tallied.shows.isSome_shown
    have locals : combined dbi = true → ∀ e ∈ some (key, val), e.1.length = 8 := by
      rintro both e ⟨⟩
      exact local' both
    generalize staged' : txn.stage dbi key (entryKey dbi key val, some value) _ = staged at writes ⊢
    have entries : ∀ d, staged.entries d = txn.entries d := fun d => staged' ▸ rfl
    have markers : staged.markers = txn.markers := staged' ▸ rfl
    generalize t.put dbi key val = t' at changed moved ⊢
    cases existed : t.has dbi key val with
    | true =>
      obtain ⟨old, shown⟩ := Option.isSome_iff_exists.mp (there.trans existed)
      rw [shown] at moved
      have moved : (t'.rows dbi).length = (t.rows dbi).length := Nat.add_right_cancel moved
      refine ⟨tallied.settle writes changed markers (fun _ => mirror_put) le (by omega) locals ?_
        fun d _ => entries d, avoids_ok _ _⟩
      rw [entries, count, moved]
    | false =>
      rw [Option.isSome_eq_false_iff.mp (there.trans existed) |> Option.isNone_iff_eq_none.mp] at moved
      have moved : (t'.rows dbi).length = (t.rows dbi).length + 1 := moved
      have counts : staged.changeCount dbi true
          = .ok (staged.withCount dbi (t'.rows dbi).length) :=
        moved ▸ RocksTxn.changeCount_insert ((entries dbi).trans count) (by omega)
      simp only [Bool.false_eq_true, if_false, counts]
      exact ⟨tallied.recount writes changed markers (fun _ => mirror_put) le (by omega) locals entries,
        avoids_ok _ _⟩

theorem mirror_del {val : Option Bytes} (named : val.isSome = true) :
    Mirrors key (val.getD []) none fun values => values.filter fun v => decide (some v ≠ val) := by
  obtain ⟨w, rfl⟩ := Option.isSome_iff_exists.mp named
  exact fun values sorted => ⟨sorted.filter _, fun v => by simp⟩

/-- **A delete of one entry** takes it from its table. -/
theorem delOne (tallied : Tallied n txn t) (real : dbi ≠ coverDbi) (key : Bytes) {val : Option Bytes}
    (named : (spec dbi).flags.dupSort = true → val.isSome = true) :
    ∃ removed txn', txn.delOne dbi key val = (.ok removed, txn') ∧
      Tallied n txn' (t.without dbi [(key, val.getD [])]) := by
  have at' : encode dbi key (if (spec dbi).flags.dupSort then val else none)
      = entryKey dbi key (val.getD []) := by
    rw [entryKey]
    by_cases dups : (spec dbi).flags.dupSort = true
    · obtain ⟨w, rfl⟩ := Option.isSome_iff_exists.mp (named dups)
      rfl
    · rw [if_neg dups, if_neg dups]
  have changed := t.changed_without dbi key (val.getD [])
  have there : _ = t.has dbi key (val.getD []) := tallied.shows.isSome_shown
  obtain ⟨value, found, missing⟩ := txn.delValue_ok dbi (entryKey dbi key (val.getD []))
  rw [← at'] at changed there found missing
  unfold RocksTxn.delOne
  simp only []
  split
  · rename_i e failed
    exact absurd (found.symm.trans failed) (by simp)
  · rename_i nothing
    rw [missing (Except.ok.inj (found.symm.trans nothing))] at there
    refine ⟨false, txn, rfl, ?_⟩
    rw [Tables.without_absent there.symm]
    exact tallied
  rename_i value made
  obtain ⟨writes, shown⟩ := txn.delValue_writes made key (txn.stored_del made)
  have count := tallied.counts dbi real
  have few := tallied.few dbi
  have moved := writes.size tallied.shows (writes.shows tallied.shows changed)
  generalize staged' : txn.stage dbi key (_, value) _ = staged at writes ⊢
  have entries : ∀ d, staged.entries d = txn.entries d := fun d => staged' ▸ rfl
  have markers : staged.markers = txn.markers := staged' ▸ rfl
  obtain ⟨old, shown⟩ := Option.isSome_iff_exists.mp shown
  have local' : combined dbi = true → key.length = 8 := by
    intro both
    have here := View.shown_key shown
    exact key_of_plain (View.dupSort_of_combined both) (here.trans at') ▸
      tallied.locals dbi both old (tallied.shows.mem_rows.mpr (here ▸ shown))
  have checked : ¬(combined dbi = true ∧ key.length ≠ 8) := fun is => is.2 (local' is.1)
  simp only [if_neg checked]
  rw [shown] at moved
  generalize t.without dbi [(key, val.getD [])] = t' at changed moved ⊢
  have moved : (t'.rows dbi).length + 1 = (t.rows dbi).length := moved
  have counts : staged.changeCount dbi false = .ok (staged.withCount dbi (t'.rows dbi).length) := by
    rw [RocksTxn.changeCount_delete ((entries dbi).trans count) (by omega), ← moved,
      Nat.add_sub_cancel]
  simp only [counts]
  rw [at'] at writes changed
  exact ⟨true, _, rfl, tallied.recount writes changed markers
    (fun table => mirror_del (named (by rw [table]; rfl))) le_rfl (by omega)
    (fun _ _ inside => absurd inside (by simp)) entries⟩

theorem delAll (real : dbi ≠ coverDbi) (entries : List (Bytes × Option Bytes))
    (named : (spec dbi).flags.dupSort = true → ∀ e ∈ entries, e.2.isSome = true)
    (tallied : Tallied n txn t) (removed : Bool) :
    ∃ removed' txn', RocksTxn.delAll dbi txn entries removed = (.ok removed', txn') ∧
      Tallied n txn' (t.without dbi (entries.map fun e => (e.1, e.2.getD []))) := by
  induction entries generalizing txn t removed with
  | nil => exact ⟨removed, txn, rfl, by rwa [Tables.without, Tables.keepOnly_all (by simp)]⟩
  | cons e entries ih =>
    obtain ⟨some', txn', deleted, tallied'⟩ := tallied.delOne real e.1
      fun dups => named dups e mem_cons_self
    rw [map_cons, ← Tables.without_cons]
    simp only [RocksTxn.delAll, deleted]
    exact ih (fun dups e inside => named dups e (.tail _ inside)) tallied' _

end Tallied

/-! ### Whole keys -/

namespace View

variable {v : View} {c : Cursor}

theorem get_nextDup (placed : v.Placed c) {p : Kv} (here : c.current = some (entryKey v.dbi p.1 p.2))
    (key : c.logicalKey = some p.1) :
    v.Finds c (v.get c none none .nextDup)
      (((v.listed false).find? fun e => pastEntry v.dbi e false p).filter fun e => e.1 = p.1) := by
  refine get_of_getInner (fun e found => (Option.filter_eq_some_iff.mp found).1) ?_
  have way : (!reversed v.dbi) = (false == reversed v.dbi) := by cases reversed v.dbi <;> rfl
  obtain ⟨c', reached, moved⟩ := position_listed placed way
    fun e => inRange_entryKey v.dbi e false false p
  refine ⟨c', ?_, moved⟩
  simp [getInner, here, key, reached, bind, Except.bind, pastEntry]

/-- The entries from one on. -/
def following (v : View) (p : Kv) : List Kv :=
  (v.listed false).filter fun e => decide (entryCode v.dbi p ≤ entryCode v.dbi e)

theorem following_lt {p q : Kv} (member : p ∈ v.listed false)
    (after : entryCode v.dbi p < entryCode v.dbi q) :
    (v.following q).length < (v.following p).length := by
  have same : v.following q
      = (v.following p).filter fun e => decide (entryCode v.dbi q ≤ entryCode v.dbi e) := by
    rw [following, following, filter_filter]
    refine filter_congr fun e _ => ?_
    rw [Bool.eq_iff_iff, Bool.and_eq_true, decide_eq_true_iff, decide_eq_true_iff]
    exact ⟨fun le => ⟨le, after.le.trans le⟩, And.left⟩
  rw [same, length_filter_lt_length_iff_exists]
  exact ⟨p, mem_filter.mpr ⟨member, by simp⟩, by simpa using after⟩

/-- The loop over the duplicates of a key ends within its turns and misses none. -/
theorem dupsFrom_ok {fuel : Nat} {row : Option Kv} (placed : v.Placed c)
    (here : ∀ p ∈ row, p ∈ v.listed false ∧ c.current = some (entryKey v.dbi p.1 p.2) ∧
      c.logicalKey = some p.1)
    (enough : ∀ p ∈ row, (v.following p).length ≤ fuel) :
    ∃ dups, RocksTxn.dupsFrom v fuel c row = .ok dups ∧ ∀ p ∈ row, ∀ e ∈ v.listed false,
      e.1 = p.1 → entryCode v.dbi p ≤ entryCode v.dbi e → e ∈ dups := by
  induction fuel generalizing c row with
  | zero =>
    cases row with
    | none => exact ⟨[], rfl, nofun⟩
    | some p =>
      have none' := length_eq_zero_iff.mp (Nat.le_zero.mp (enough p rfl))
      exact absurd (mem_filter.mpr ⟨(here p rfl).1, by simp⟩) (none' ▸ not_mem_nil)
  | succ fuel ih =>
    cases row with
    | none => exact ⟨[], rfl, nofun⟩
    | some p =>
      obtain ⟨member, current, key⟩ := here p rfl
      obtain ⟨c', stepped, moved⟩ := get_nextDup placed current key
      obtain ⟨dups, rest, all⟩ := ih moved.placed (fun q found => ⟨mem_of_find?_eq_some
        (Option.filter_eq_some_iff.mp found).1, moved.found q found⟩) fun q found => by
          have after : entryCode v.dbi p < entryCode v.dbi q := by
            simpa [inRange] using find?_some (Option.filter_eq_some_iff.mp found).1
          exact Nat.lt_succ_iff.mp ((following_lt member after).trans_le (enough p rfl))
      refine ⟨p :: dups, by simp only [RocksTxn.dupsFrom, stepped, ok_bind, rest]; rfl, ?_⟩
      rintro _ ⟨⟩ e inside same le
      rcases le.lt_or_eq with later | equal
      · have past : pastEntry v.dbi e false p = true := by simpa [inRange] using later
        cases next : ((v.listed false).find? fun e => pastEntry v.dbi e false p).filter
            fun e => e.1 = p.1 with
        | none =>
          have low : ∀ e, pastEntry v.dbi e false p = true →
              keyPrefix v.dbi p.1 ≤ keyPrefix v.dbi e.1 := fun e past =>
            keyPrefix_le_of_entryCode (le_of_lt (by simpa [inRange] using past))
          exact absurd past (by simp [no_key low next inside same])
        | some q =>
          obtain ⟨found, here⟩ := Option.filter_eq_some_iff.mp next
          exact .tail _ (all q next e inside (same.trans (of_decide_eq_true here).symm)
            (least_listed found inside past))
      · exact holds_unique (mem_listed.mp member) (mem_listed.mp inside) equal ▸ .head _

end View

namespace Tallied

variable {n m : Nat → Nat} {txn : RocksTxn} {t : Tables} {dbi : Nat} {key : Bytes}

/-- The values of a key, none missed. -/
theorem dupsOf_ok (tallied : Tallied n txn t) (dbi : Nat) (key : Bytes) :
    ∃ vals, txn.dupsOf dbi key = .ok vals ∧ ∀ v, (key, v) ∈ t.rows dbi → v ∈ vals := by
  unfold RocksTxn.dupsOf
  split_ifs with cached
  · obtain ⟨rfl, marker⟩ := of_decide_eq_true cached
    refine ⟨_, rfl, fun v member => ?_⟩
    rw [tallied.markers key marker]
    exact Tables.mem_markerValues.mpr member
  obtain ⟨c, found, moved⟩ := View.get_setKey (View.placed_fresh (txn.view dbi)) key
  obtain ⟨dups, collected, all⟩ := View.dupsFrom_ok moved.placed (fun p first =>
      ⟨mem_of_find?_eq_some (Option.filter_eq_some_iff.mp first).1, moved.found p first⟩)
    fun p _ => (length_filter_le _ _).trans (View.listed_length false)
  simp only [found, ok_bind, collected]
  refine ⟨_, rfl, fun v member => ?_⟩
  have inside : (key, v) ∈ (txn.view dbi).listed false := tallied.shows dbi ▸ member
  cases first : (((txn.view dbi).listed false).find? (View.fromKey (txn.view dbi).dbi key)).filter
      fun e => e.1 = key with
  | none => exact (View.key_ne first inside rfl).elim
  | some p =>
    obtain ⟨least, here⟩ := Option.filter_eq_some_iff.mp first
    have reached := all p first (key, v) inside (of_decide_eq_true here).symm
      (View.least_listed least inside (by simp))
    exact mem_map.mpr ⟨(key, v), reached, rfl⟩

/-- **A delete** does what it does on the tables. -/
theorem del (tallied : Tallied n txn t) (dbi : Nat) (key : Bytes) (val : Option Bytes) :
    Tallied n (txn.del dbi key val).2 (t.delWith dbi key val) ∧
      Avoids countError (txn.del dbi key val).1 := by
  unfold RocksTxn.del Tables.delWith
  by_cases cover : dbi = coverDbi
  · rw [if_pos cover, if_pos cover]
    exact ⟨tallied, avoids_error.mpr (by decide)⟩
  rw [if_neg cover, if_neg cover]
  by_cases dups : (spec dbi).flags.dupSort = true
  · rw [if_pos dups]
    cases val with
    | none =>
      obtain ⟨vals, found, all⟩ := tallied.dupsOf_ok dbi key
      obtain ⟨removed, txn', deleted, tallied'⟩ := delAll cover (vals.map fun v => (key, some v))
        (fun _ e inside => by obtain ⟨v, _, rfl⟩ := mem_map.mp inside; rfl) tallied false
      rw [if_pos ⟨dups, rfl⟩]
      simp only [map_map, Function.comp_def, Option.getD_some, Tables.without_key dups all]
        at tallied'
      simp only [found, deleted]
      exact ⟨tallied', avoids_ok _ _⟩
    | some v =>
      obtain ⟨removed, txn', deleted, tallied'⟩ := tallied.delOne cover key
        (fun _ => Option.isSome_some : _ → (some v).isSome = true)
      rw [Option.getD_some, Tables.without_pair dups] at tallied'
      rw [if_neg (by simp), deleted]
      exact ⟨tallied', avoids_ok _ _⟩
  · rw [if_neg dups, if_neg fun whole => dups whole.1]
    obtain ⟨removed, txn', deleted, tallied'⟩ := tallied.delOne cover key
      (fun is => absurd is dups : _ → val.isSome = true)
    rw [deleted]
    exact ⟨Tables.without_plain (eq_false_of_ne_true dups) ▸ tallied', avoids_ok _ _⟩

/-- **A scan** hands over what the tables have. -/
theorem foreach_eq (tallied : Tallied n txn t) (dbi : Nat) (startKey startDup : Bytes)
    (reverse : Bool) {σ : Type} (cb : σ → Bytes → Bytes → σ × Bool) (s : σ) :
    ∃ c, (txn.view dbi).foreach {} startKey startDup reverse cb s
      = .ok (c, View.scanFold cb s (t.scan dbi startKey startDup reverse)) := by
  obtain ⟨c, scanned, _⟩ := View.foreach_eq (View.placed_fresh (txn.view dbi)) startKey startDup
    reverse cb s
  refine ⟨c, scanned.trans ?_⟩
  rw [Tables.scan, ← tallied.shows, ← View.listed_true]
  cases reverse <;> rfl

/-- **A clear** empties its table. -/
theorem clear (tallied : Tallied n txn t) (dbi : Nat) :
    Tallied n (txn.clear dbi).2 (if dbi = coverDbi then t else t.clear dbi) ∧
      Avoids countError (txn.clear dbi).1 := by
  unfold RocksTxn.clear
  by_cases cover : dbi = coverDbi
  · rw [if_pos cover, if_pos cover]
    exact ⟨tallied, avoids_error.mpr (by decide)⟩
  obtain ⟨c, read⟩ := tallied.foreach_eq dbi [] [] false
    (fun (rows : List Kv) key val => (rows ++ [(key, val)], true)) []
  have rows : View.scanFold (fun (rows : List Kv) key val => (rows ++ [(key, val)], true)) []
      (t.scan dbi [] [] false) = (t.rows dbi, true) := by
    have whole : t.scan dbi [] [] false = t.rows dbi := filter_eq_self.mpr fun _ _ => if_pos rfl
    rw [View.scanFold_all fun _ _ _ => rfl, whole]
    simp [← flatMap_def]
  obtain ⟨removed, txn', deleted, tallied'⟩ := delAll cover ((t.rows dbi).map fun e =>
    (e.1, if (spec dbi).flags.dupSort then some e.2 else none))
    (fun dups e inside => by obtain ⟨entry, _, rfl⟩ := mem_map.mp inside; simp [dups]) tallied false
  rw [map_map, Tables.without_all fun e member => ⟨_, mem_map_of_mem member, ?_⟩] at tallied'
  · rw [rows] at read
    simp only [if_neg cover, read, deleted]
    exact ⟨tallied', avoids_ok _ _⟩
  · by_cases dups : (spec dbi).flags.dupSort = true <;> simp [entryCode, valCode, dups]

end Tallied

/-- The number of puts into a table. -/
def putsInto (calls : List RocksCall) (dbi : Nat) : Nat :=
  calls.countP fun
    | .put d .. => d = dbi
    | _ => false

theorem putsInto_append (calls more : List RocksCall) :
    putsInto (calls ++ more) = putsInto calls + putsInto more :=
  funext fun _ => countP_append

namespace Tallied

variable {n : Nat → Nat} {txn : RocksTxn} {t : Tables}

/-- **Every call does what it does on the tables.** -/
theorem call (tallied : Tallied n txn t) (call : RocksCall)
    (room : ∀ dbi, (n + putsInto [call]) dbi < 2 ^ 64) :
    Tallied (n + putsInto [call]) (txn.call call).2 (t.apply call) ∧
      Avoids countError (txn.call call).1 := by
  have le : n ≤ n + putsInto [call] := fun _ => Nat.le_add_right _ _
  cases call with
  | put dbi key val flags fits => exact tallied.put le (by simp [putsInto]) (room dbi) flags fits
  | del dbi key val => exact ⟨(tallied.del dbi key val).1.mono le, (tallied.del dbi key val).2⟩
  | clear dbi => exact ⟨(tallied.clear dbi).1.mono le, (tallied.clear dbi).2⟩

theorem calls (tallied : Tallied n txn t) (calls : List RocksCall)
    (room : ∀ dbi, (n + putsInto calls) dbi < 2 ^ 64) :
    Tallied (n + putsInto calls) (txn.calls calls) (calls.foldl Tables.apply t) := by
  induction calls generalizing n txn t with
  | nil => exact tallied
  | cons call rest ih =>
    rw [← singleton_append, putsInto_append, ← add_assoc] at room ⊢
    exact ih (tallied.call call fun dbi => (Nat.le_add_right _ _).trans_lt (room dbi)).1 room

end Tallied

/-! ### Whole runs -/

namespace RocksTxn

variable (txn : RocksTxn)

theorem raw_written (heads : Bytes → Option Bytes) (dbi : Nat) (pk : Bytes) :
    ((txn.written heads).view dbi).raw pk = (txn.view dbi).raw pk := by
  refine Option.ext fun value => ?_
  rw [View.raw_eq_some, View.raw_eq_some, View.mem_rows, View.mem_rows]
  have staged : (txn.view dbi).stagedRows = txn.staged (physical dbi) := txn.rows_overlay _
  have fresh : ((txn.written heads).view dbi).stagedRows = [] := rfl
  rw [staged, fresh]
  show (_ ∈ [] ∨ (∃ value', (pk, value') ∈ writeRows (txn.db.rows (physical dbi))
    (txn.staged (physical dbi)) ∧ _) ∧ _) ↔ (_ ∨ (∃ value', (pk, value') ∈
      txn.db.rows (physical dbi) ∧ _) ∧ _)
  simp [mem_writeRows (txn.db.sorted _) (txn.sorted _)]

end RocksTxn

namespace Tallied

variable {n : Nat → Nat} {t : Tables}

theorem listed_begin (db : RocksDb) (dbi : Nat) :
    ((RocksTxn.begin db).view dbi).listed false = (db.view dbi).listed false :=
  View.listed_ext rfl fun _ => rfl

theorem empty : Tallied n (RocksTxn.begin .empty) .empty := by
  refine ⟨fun dbi => ?_, fun dbi real => if_neg real, fun dbi => Nat.zero_le _, fun dbi _ => nofun,
    fun key _ => rfl⟩
  exact eq_nil_iff_forall_not_mem.mpr fun e inside => nomatch View.mem_listed_shown.mp inside

/-- A commit publishes what the transaction tallied. -/
theorem written {txn : RocksTxn} (tallied : Tallied n txn t) (heads : Bytes → Option Bytes) :
    Tallied n (RocksTxn.begin (txn.written heads)) t := by
  refine ⟨fun dbi => ?_, fun dbi real => ?_, tallied.few, tallied.locals, tallied.markers⟩
  · rw [listed_begin, ← tallied.shows]
    exact View.listed_ext rfl (txn.raw_written heads dbi)
  · rw [← tallied.counts dbi real, RocksTxn.entries, RocksTxn.entries]
    show (if dbi = coverDbi then _ else Except.ok ((txn.counts dbi).getD _)) = _
    rw [if_neg real]
    cases txn.counts dbi with
    | none => exact (if_neg real).symm
    | some count => rfl

/-- Every transaction, committed or not, leaves the tables, the counters and the mirror right. -/
theorem run {db : RocksDb} (tallied : Tallied n (RocksTxn.begin db) t)
    (txns : List (List RocksCall × Bool))
    (room : ∀ dbi, (n + putsInto (txns.flatMap Prod.fst)) dbi < 2 ^ 64) :
    ∃ db', db.run txns = .ok db' ∧
      Tallied (n + putsInto (txns.flatMap Prod.fst)) (RocksTxn.begin db') (t.run txns) := by
  induction txns generalizing n db t with
  | nil => exact ⟨db, rfl, tallied⟩
  | cons txn txns ih =>
    rw [flatMap_cons, putsInto_append, ← add_assoc] at room ⊢
    rw [RocksDb.run, foldlM_cons, Tables.run, foldl_cons]
    by_cases done : txn.2 = true
    · rw [if_pos done, if_pos done, RocksTxn.commit_eq, ok_bind]
      exact ih ((tallied.calls txn.1 fun dbi =>
        (Nat.le_add_right _ _).trans_lt (room dbi)).written _) room
    · rw [if_neg done, if_neg done, ok_bind]
      exact ih (tallied.mono fun _ => Nat.le_add_right _ _) room

end Tallied

/-- **Entry counters count entries.** After any transactions, committed or aborted, and within one, at
every point: the entries are those the calls leave of empty tables, and a scan hands them over; every
counter is the number of entries of its table, a marker read through the mirror is the first entry of
its key, and no call leaves the range of a counter. -/
theorem entries_count_tables (txns : List (List RocksCall × Bool)) (calls : List RocksCall)
    (call : RocksCall)
    (few : ∀ dbi, putsInto (txns.flatMap Prod.fst ++ (calls ++ [call])) dbi < 2 ^ 64) :
    ∃ db, RocksDb.empty.run txns = .ok db ∧
    let txn := (RocksTxn.begin db).calls calls
    let t := Tables.empty.run txns
    (∀ dbi, (db.view dbi).listed false = t.rows dbi ∧
      (txn.view dbi).listed false = (calls.foldl Tables.apply t).rows dbi) ∧
    (∀ dbi startKey startDup reverse cb, ∃ c, (txn.view dbi).foreach {} startKey startDup reverse cb []
      = .ok (c, View.scanFold cb ([] : List Kv)
        ((calls.foldl Tables.apply t).scan dbi startKey startDup reverse))) ∧
    (∀ dbi, dbi ≠ coverDbi →
      db.entries dbi = .ok ((db.view dbi).listed false).length ∧
      txn.entries dbi = .ok ((txn.view dbi).listed false).length) ∧
    (∀ key, isTagKindMarker key = true →
      (db.markers key).head? = (((db.view Dbis.eventTagKind).listed false).find? fun e =>
        decide (e.1 = key)).map Prod.snd ∧
      txn.get Dbis.eventTagKind key = .ok ((((txn.view Dbis.eventTagKind).listed false).find? fun e =>
        decide (e.1 = key)).map Prod.snd)) ∧
    (txn.call call).1 ≠ .error (err "entry counter overflow/underflow") := by
  rw [← append_assoc, putsInto_append, putsInto_append] at few
  have before : ∀ dbi, (putsInto (txns.flatMap Prod.fst) + putsInto calls) dbi < 2 ^ 64 := fun dbi =>
    (Nat.le_add_right _ _).trans_lt (few dbi)
  obtain ⟨db, ran, outside⟩ := (Tallied.empty (n := 0)).run txns fun dbi => by
    rw [zero_add]
    exact (Nat.le_add_right _ _).trans_lt (before dbi)
  rw [zero_add] at outside
  have inside := outside.calls calls before
  have committed : ∀ dbi, (db.view dbi).listed false = (Tables.empty.run txns).rows dbi := fun dbi =>
    (Tallied.listed_begin db dbi).symm.trans (outside.shows dbi)
  refine ⟨db, ran, fun dbi => ⟨committed dbi, inside.shows dbi⟩, fun dbi startKey startDup reverse cb =>
    inside.foreach_eq dbi startKey startDup reverse cb [], fun dbi real => ⟨?_, ?_⟩,
    fun key marker => ⟨?_, ?_⟩, (inside.call call few).2⟩
  · rw [committed]
    exact outside.counts dbi real
  · rw [inside.shows]
    exact inside.counts dbi real
  · rw [committed]
    exact (congrArg List.head? (outside.markers key marker)).trans Tables.head?_markerValues
  · rw [inside.shows]
    exact inside.get_eq fun both => absurd both (by decide)

/-- Both parts of an event and a marker are put, one part is deleted in a transaction that is aborted
and in one that is committed. -/
def sampleTxns : List (List RocksCall × Bool) :=
  [([.put 3 (u64NeBytes 7) [1] {} fun _ => by decide, .put 15 (u64NeBytes 7) [2] {} fun _ => by decide,
      .put Dbis.eventTagKind tagKindSchemaKey [9] {} nofun,
      .put Dbis.eventTagKind tagKindSchemaKey [4] {} nofun], true),
    ([.del 3 (u64NeBytes 7) none, .clear Dbis.eventTagKind], false),
    ([.del 3 (u64NeBytes 7) none], true)]

theorem entries_count_put : ∃ db, RocksDb.empty.run sampleTxns = .ok db ∧ db.entries 3 = .ok 0 ∧
    db.entries 15 = .ok 1 ∧ db.entries Dbis.eventTagKind = .ok 2 ∧
    (db.markers tagKindSchemaKey).head? = some [4] := by
  obtain ⟨db, ran, shown, _, counts, markers, _⟩ := entries_count_tables sampleTxns [] (.clear 20)
    fun _ => countP_le_length.trans_lt (by decide)
  refine ⟨db, ran, ?_, ?_, ?_, ?_⟩
  · rw [(counts 3 (by decide)).1, (shown 3).1]
    rfl
  · rw [(counts 15 (by decide)).1, (shown 15).1]
    rfl
  · rw [(counts Dbis.eventTagKind (by decide)).1, (shown Dbis.eventTagKind).1]
    rfl
  · rw [(markers tagKindSchemaKey rfl).1, (shown Dbis.eventTagKind).1]
    rfl

/-! ### The limits -/

/-- A component of `2^32 - 1` bytes is written as a missing one. -/
theorem putPart_unreadable : ∃ raw, putPart 3 none (List.replicate (2 ^ 32 - 1) 0) = .ok raw ∧
    recordAt (some raw) = .error (err "trailing combined bytes") := by
  obtain ⟨val, whole⟩ : ∃ val : Bytes, val = List.replicate (2 ^ 32 - 1) 0 := ⟨_, rfl⟩
  have long : val.length = 2 ^ 32 - 1 := by rw [whole, length_replicate]
  have split : val = encodePart (some []) ++ List.replicate (2 ^ 32 - 5) 0 := by
    rw [whole, show 2 ^ 32 - 1 = 4 + (2 ^ 32 - 5) from rfl, replicate_add]
    rfl
  have written : encodePart (some val) = encodePart none ++ val := by
    rw [encodePart, encodePart, Option.elim_some, long]
    simp
  rw [← whole]
  refine ⟨encodePart (some val) ++ encodePart none, rfl, ?_⟩
  have first : part (encodePart (some val) ++ encodePart none)
      = .ok (none, val ++ encodePart none) := by
    rw [written, append_assoc, part_encodePart none _ (by simp)]
  have second : part (val ++ encodePart none)
      = .ok (some [], List.replicate (2 ^ 32 - 5) 0 ++ encodePart none) := by
    rw [split, append_assoc]
    exact part_encodePart (some []) _ (by simp)
  have more : List.replicate (2 ^ 32 - 5) 0 ++ encodePart none ≠ [] :=
    append_ne_nil_of_right_ne_nil _ (by decide)
  show Record.decode _ = _
  simp only [Record.decode, parts, first, second, ok_bind, if_pos more]
  rfl

/-- Puts of different keys into the state table. -/
def distinctPut (i : Nat) : RocksCall := .put 20 (leBytes 9 i) [] {} nofun

theorem put_fresh {txn : RocksTxn} {n i : Nat} (count : txn.entries 20 = .ok n)
    (absent : (txn.view 20).raw (entryKey 20 (leBytes 9 i) []) = none) :
    (2 ^ 64 ≤ n + 1 →
      (txn.call (distinctPut i)).1 = .error (err "entry counter overflow/underflow")) ∧
    (n + 1 < 2 ^ 64 → (txn.call (distinctPut i)).2.entries 20 = .ok (n + 1)) ∧
    ∀ pk, pk ≠ entryKey 20 (leBytes 9 i) [] →
      ((txn.call (distinctPut i)).2.view 20).raw pk = (txn.view 20).raw pk := by
  have found : txn.present 20 (leBytes 9 i) [] = .ok false := by
    show Except.ok ((txn.view 20).raw (entryKey 20 (leBytes 9 i) [])).isSome = _
    rw [absent]
    rfl
  have goes : txn.refuses {} 20 (leBytes 9 i) false = .ok false := rfl
  unfold RocksTxn.call distinctPut RocksTxn.put
  simp only [found, goes]
  rw [if_neg (by decide)]
  split
  · rename_i e failed
    cases failed
  rename_i value made
  have fits : combined 20 = true → ([] : Bytes).length < 2 ^ 32 - 1 := nofun
  have writes := txn.putValue_writes fits made (txn.stored_put fits made)
  generalize staged' : txn.stage 20 _ (entryKey 20 (leBytes 9 i) [], some value) _ = staged
    at writes ⊢
  have count : staged.entries 20 = .ok n := by rw [← count, ← staged']; rfl
  simp only [show ¬(combined 20 = true ∧ (leBytes 9 i).length ≠ 8) by simp [combined], if_false,
    Bool.false_eq_true]
  by_cases room : n + 1 < 2 ^ 64
  · rw [RocksTxn.changeCount_insert count room]
    refine ⟨fun full => absurd room (by omega), fun _ => ?_, fun pk apart => ?_⟩
    · simp [RocksTxn.entries_withCount]
    · simp only [RocksTxn.view_mirror]
      exact writes.raw 20 pk apart
  · have fails : staged.changeCount 20 true = .error (err "entry counter overflow/underflow") := by
      simp only [RocksTxn.changeCount, count, ok_bind, if_true, if_neg room]
    rw [fails]
    exact ⟨fun _ => rfl, fun full => absurd full room, writes.raw 20⟩

theorem distinctPuts_counted {n : Nat} (room : n < 2 ^ 64) :
    ((RocksTxn.begin .empty).calls ((List.range n).map distinctPut)).entries 20 = .ok n ∧
    ∀ i, n ≤ i → i < 256 ^ 9 → (((RocksTxn.begin .empty).calls
      ((List.range n).map distinctPut)).view 20).raw (entryKey 20 (leBytes 9 i) []) = none := by
  induction n with
  | zero => exact ⟨rfl, fun _ _ _ => rfl⟩
  | succ n ih =>
    obtain ⟨count, absent⟩ := ih (by omega)
    have last : ∀ txn : RocksTxn, txn.calls ((List.range (n + 1)).map distinctPut)
        = ((txn.calls ((List.range n).map distinctPut)).call (distinctPut n)).2 := by
      intro txn
      rw [range_succ, map_append, RocksTxn.calls, foldl_append]
      rfl
    have small : n < 256 ^ 9 := room.trans_le' (Nat.le_succ n) |>.trans (by norm_num)
    obtain ⟨_, counts, others⟩ := put_fresh count (absent n le_rfl small)
    rw [last]
    refine ⟨counts room, fun i later bound => ?_⟩
    rw [others _ fun same => ?_, absent i (by omega) bound]
    have first := decode_entryKey 20 (leBytes 9 i) []
    rw [same, decode_entryKey] at first
    have same : leBytes 9 n = leBytes 9 i := (Prod.mk.inj (Except.ok.inj first)).1
    have := congrArg leVal same
    rw [leVal_leBytes small, leVal_leBytes bound] at this
    omega

/-- **The limits are needed**: a component of `2^32 - 1` bytes cannot be read back, and the put of the
`2^64`th entry of a table fails. -/
theorem counters_have_limits :
    (∃ raw, putPart 3 none (List.replicate (2 ^ 32 - 1) 0) = .ok raw ∧
      recordAt (some raw) = .error (err "trailing combined bytes")) ∧
    (((RocksTxn.begin .empty).calls ((List.range (2 ^ 64 - 1)).map distinctPut)).call
      (distinctPut (2 ^ 64 - 1))).1 = .error (err "entry counter overflow/underflow") := by
  obtain ⟨count, absent⟩ := distinctPuts_counted (n := 2 ^ 64 - 1) (by norm_num)
  exact ⟨putPart_unreadable, (put_fresh count (absent _ le_rfl (by norm_num))).1 (by norm_num)⟩

end Wok.Db
