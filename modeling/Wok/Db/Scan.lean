/-
**A scan reads the merged table in logical order.**

`View.entries` merges the committed rows with the overlay and keeps the visible ones with their
entries; `View.listed reverse` is the merged logical table in the order of a scan. Every cursor
operation answers from it:

* `settle_eq`, `nearer_eq` — the native iterator, with its shortcut for snapshots, and the nearer
  of the two sources are the first row in range.
* `position_listed` — **positioning finds the first entry in range**, skipping staged deletes and
  records without the table's component.
* `start_eq` — each chain of operations finds the first entry on the right side of the start.
* `foreach_eq` — **the scan hands over the entries on the right side of the start, in order**, to
  any callback, up to the one it stops at.
-/

import Wok.Db.Cursor

namespace Wok.Db

open Wok.Library List

/-! ### Codes -/

section Codes

variable (dbi : Nat)
variable {p q : Kv}

/-- An entry's physical key before complementing. -/
def entryCode (e : Kv) : Bytes := keyPrefix dbi e.1 ++ valCode dbi e.2

theorem cmpKey_eq (a b : Bytes) : cmpKey dbi a b = cmp (keyPrefix dbi a) (keyPrefix dbi b) := by
  have codes := cmp_keyPrefix dbi a b [] []
  simpa using codes.symm

theorem cmpEntry_eq (p q : Kv) : cmpEntry dbi p q = cmp (entryCode dbi p) (entryCode dbi q) := by
  rw [entryCode, entryCode, cmp_keyPrefix, cmp_valCode, cmpEntry]

theorem entryKey_eq_code (e : Kv) : entryKey dbi e.1 e.2
    = if reversed dbi then complement (entryCode dbi e) else entryCode dbi e :=
  entryKey_eq dbi e.1 e.2

/-- Two codes in order differ at a byte both have. -/
theorem entryCode_below (less : entryCode dbi p < entryCode dbi q) :
    Below (entryCode dbi p) (entryCode dbi q) :=
  below_of_lt_of_not_extends less fun pre => less.ne (entryCode_eq_of_extends dbi pre)

theorem complement_entryCode_le :
    complement (entryCode dbi q) ≤ complement (entryCode dbi p)
      ↔ entryCode dbi p ≤ entryCode dbi q :=
  complement_le (entryCode_below dbi) (entryCode_below dbi)

theorem complement_entryCode_lt :
    complement (entryCode dbi q) < complement (entryCode dbi p)
      ↔ entryCode dbi p < entryCode dbi q := by
  rw [← not_le, ← not_le, complement_entryCode_le]

/-- A key's prefix starts the code of exactly the entries with that key. -/
theorem keyPrefix_prefix_entryCode {key : Bytes} {e : Kv} :
    keyPrefix dbi key <+: entryCode dbi e ↔ e.1 = key := by
  constructor
  · rintro ⟨rest, joined⟩
    have first := decodeKey_keyPrefix dbi key rest
    have second := decodeKey_keyPrefix dbi e.1 (valCode dbi e.2)
    rw [joined, entryCode, second] at first
    simp only [Except.ok.injEq, Prod.mk.injEq] at first
    exact first.1
  · rintro rfl
    exact prefix_append _ _

/-- Two keys' prefixes in order differ at a byte both have. -/
theorem keyPrefix_below {a b : Bytes} (less : keyPrefix dbi a < keyPrefix dbi b) :
    Below (keyPrefix dbi a) (keyPrefix dbi b) :=
  below_of_lt_of_not_extends less fun pre =>
    less.ne (congrArg _ ((keyPrefix_prefix_iff dbi a b).mp pre))

theorem complement_keyPrefix_le {a b : Bytes} :
    complement (keyPrefix dbi b) ≤ complement (keyPrefix dbi a)
      ↔ keyPrefix dbi a ≤ keyPrefix dbi b :=
  complement_le (keyPrefix_below dbi) (keyPrefix_below dbi)

end Codes

/-! ### The end of a prefix -/

section Successor

theorem le_or_prefix_of_all_max {r : Bytes} (max : ∀ b ∈ r, b = 255) (t : Bytes) :
    t ≤ r ∨ r <+: t := by
  induction r generalizing t with
  | nil => exact Or.inr nil_prefix
  | cons b r ih =>
    cases t with
    | nil => exact Or.inl (empty_le _)
    | cons c t =>
      have top : b = 255 := max b mem_cons_self
      have rest := ih (fun x inside => max x (.tail b inside)) t
      rcases lt_trichotomy c b with less | rfl | greater
      · exact Or.inl (cons_lt_cons_iff.mpr (Or.inl less)).le
      · rcases rest with le | pre
        · exact Or.inl (cons_le_cons_same.mpr le)
        · exact Or.inr (cons_prefix_cons.mpr ⟨rfl, pre⟩)
      · rw [top] at greater
        exact absurd greater (not_lt.mpr (Fin.le_last c))

/-- What `successor` returns: the prefix up to its last byte below `255`, that byte incremented. -/
theorem successor_spec (pre : Bytes) :
    (successor pre = none ∧ ∀ b ∈ pre, b = 255) ∨
      ∃ p b r, pre = p ++ b :: r ∧ b ≠ 255 ∧ (∀ c ∈ r, c = 255) ∧
        successor pre = some (p ++ [b + 1]) := by
  have walk : ∀ out : Bytes, (successor.go out = none ∧ ∀ b ∈ out, b = 255) ∨
      ∃ p b r, out = r ++ b :: p ∧ b ≠ 255 ∧ (∀ c ∈ r, c = 255) ∧
        successor.go out = some (p.reverse ++ [b + 1]) := by
    intro out
    induction out with
    | nil => exact Or.inl ⟨rfl, by simp⟩
    | cons b out ih =>
      by_cases top : b = 255
      · rw [successor.go, if_neg (not_not.mpr top)]
        rcases ih with ⟨none, max⟩ | ⟨p, c, r, rfl, below, max, found⟩
        · exact Or.inl ⟨none, by simpa [top] using max⟩
        · exact Or.inr ⟨p, c, b :: r, rfl, below, by simpa [top] using max, found⟩
      · rw [successor.go, if_pos top]
        exact Or.inr ⟨out, b, [], rfl, top, by simp, by simp⟩
  rcases walk pre.reverse with ⟨none, max⟩ | ⟨p, b, r, split, below, max, found⟩
  · exact Or.inl ⟨none, fun b inside => max b (mem_reverse.mpr inside)⟩
  · refine Or.inr ⟨p.reverse, b, r.reverse, ?_, below, fun c inside => max c (by simpa using inside),
      found⟩
    have back := congrArg List.reverse split
    simpa using back

/-- **The successor bounds exactly the strings up to the prefix and those that start with it.** -/
theorem inRange_successor (pre s : Bytes) :
    inRange (successor pre) false false s = true ↔ s ≤ pre ∨ pre <+: s := by
  rcases successor_spec pre with ⟨none, max⟩ | ⟨p, b, r, rfl, below, max, found⟩
  · simp [none, inRange, le_or_prefix_of_all_max max s]
  · simp only [found, inRange, Bool.false_eq_true, if_false, decide_eq_true_eq]
    clear found
    induction p generalizing s with
    | nil =>
      have small : b.val < 255 := by
        have bound := b.isLt
        have apart : b.val ≠ 255 := fun same => below (Fin.ext same)
        omega
      have incremented : (b + 1).val = b.val + 1 := by
        rw [Fin.val_add]
        exact Nat.mod_eq_of_lt (show b.val + 1 < 256 by omega)
      cases s with
      | nil => simp [empty_le]
      | cons c s =>
        simp only [nil_append, cons_lt_cons_iff, not_lt_nil, and_false, or_false]
        rcases lt_trichotomy c b with less | rfl | greater
        · have first : c < b + 1 := by
            rw [Fin.lt_def] at less ⊢
            omega
          exact iff_of_true first (Or.inl (cons_lt_cons_iff.mpr (Or.inl less)).le)
        · have first : c < c + 1 := by
            rw [Fin.lt_def]
            omega
          refine iff_of_true first ?_
          rw [cons_le_cons_same, cons_prefix_cons, and_iff_right rfl]
          exact le_or_prefix_of_all_max max s
        · have first : ¬ c < b + 1 := by
            rw [Fin.lt_def] at greater ⊢
            omega
          refine iff_of_false first (not_or.mpr ⟨?_, ?_⟩)
          · exact not_le.mpr (cons_lt_cons_iff.mpr (Or.inl greater))
          · exact fun pre => greater.ne (cons_prefix_cons.mp pre).1
    | cons a p ih =>
      cases s with
      | nil => simp [empty_le]
      | cons c s =>
        simp only [cons_append, cons_lt_cons_iff, cons_prefix_cons]
        rcases lt_trichotomy c a with less | rfl | greater
        · exact iff_of_true (Or.inl less) (Or.inl (cons_lt_cons_iff.mpr (Or.inl less)).le)
        · rw [cons_le_cons_same]
          simpa using ih s
        · refine iff_of_false ?_ (not_or.mpr ⟨?_, fun pre => greater.ne pre.1⟩)
          · simp [greater.not_gt, greater.ne']
          · exact not_le.mpr (cons_lt_cons_iff.mpr (Or.inl greater))

end Successor

/-! ### Directions -/

section Directions

variable {α : Type} (forward : Bool)

/-- A list in physical order, or against it. -/
def travel (l : List α) : List α := if forward then l else l.reverse

/-- One physical key before another on the way. -/
def before (a b : Bytes) : Prop := if forward then a < b else b < a

variable {forward}
variable {a b : Bytes}

@[simp] theorem mem_travel {l : List α} {a : α} : a ∈ travel forward l ↔ a ∈ l := by
  cases forward <;> simp [travel]

theorem before_asymm (less : before forward a b) : ¬ before forward b a := by
  cases forward <;> simpa [before] using not_lt.mpr (le_of_lt less)

theorem before_trans {c : Bytes} (less : before forward a b) (less' : before forward b c) :
    before forward a c := by
  cases forward
  · exact lt_trans less' less
  · exact lt_trans less less'

theorem before_trichotomy (forward : Bool) (a b : Bytes) :
    before forward a b ∨ a = b ∨ before forward b a := by
  cases forward
  · rcases lt_trichotomy a b with less | same | greater
    · exact Or.inr (Or.inr less)
    · exact Or.inr (Or.inl same)
    · exact Or.inl greater
  · exact lt_trichotomy a b

theorem travel_sorted (forward : Bool) {key : α → Bytes} {l : List α} (sorted : SortedBy key l) :
    (travel forward l).Pairwise fun a b => before forward (key a) (key b) := by
  cases forward
  · exact pairwise_reverse.mpr sorted
  · exact sorted

theorem inRange_up {bound : Option Bytes} {inclusive : Bool}
    (inside : inRange bound forward inclusive a = true) (less : before forward a b) :
    inRange bound forward inclusive b = true := by
  cases bound with
  | none => rfl
  | some k =>
    cases forward <;> cases inclusive <;> simp only [inRange, if_true, if_false,
      Bool.false_eq_true, decide_eq_true_eq, before] at inside less ⊢
    · exact less.trans inside
    · exact less.le.trans inside
    · exact inside.trans less
    · exact inside.trans less.le

theorem inRange_exclusive {pk : Bytes} :
    inRange (some b) forward false pk = true ↔ before forward b pk := by
  cases forward <;> simp [inRange, before]

theorem inRange_inclusive {pk : Bytes} :
    inRange (some b) forward true pk = true ↔ b = pk ∨ before forward b pk := by
  cases forward
  · simp only [inRange, before, Bool.false_eq_true, if_false, if_true, decide_eq_true_eq]
    rw [le_iff_eq_or_lt, eq_comm]
  · simp [inRange, before, le_iff_eq_or_lt]

/-- The first row in range on the way. -/
def firstIn (bound : Option Bytes) (forward inclusive : Bool) (l : List (Bytes × α)) :
    Option (Bytes × α) :=
  (travel forward l).find? fun row => inRange bound forward inclusive row.1

variable {l : List (Bytes × α)} {row : Bytes × α} {bound : Option Bytes} {inclusive : Bool}

theorem firstIn_eq_none : firstIn bound forward inclusive l = none ↔
    ∀ row ∈ l, ¬ inRange bound forward inclusive row.1 = true := by
  simp [firstIn, find?_eq_none]

theorem firstIn_eq_some (sorted : SortedBy Prod.fst l) :
    firstIn bound forward inclusive l = some row ↔ row ∈ l ∧
      inRange bound forward inclusive row.1 = true ∧ ∀ other ∈ l,
        inRange bound forward inclusive other.1 = true → other = row ∨ before forward row.1 other.1 := by
  constructor
  · intro found
    refine ⟨mem_travel.mp (mem_of_find?_eq_some found), by simpa using find?_some found, ?_⟩
    exact fun other member => least_of_find? (travel_sorted _ sorted) found other
      (mem_travel.mpr member)
  · rintro ⟨member, inside, least⟩
    exact find?_eq_some_of_least (travel_sorted _ sorted) (fun _ _ => before_asymm)
      (mem_travel.mpr member) inside fun other member => least other (mem_travel.mp member)

end Directions

/-! ### The first row in range -/

namespace View

variable (v : View)

/-- A cursor whose native iterator is on a row of the table. -/
def Placed (c : Cursor) : Prop := ∀ row ∈ c.it, row ∈ v.committed

theorem placed_fresh : v.Placed {} := fun _ member => nomatch member

/-- The merged rows, staged deletes included. -/
def rows : List (Bytes × Option Bytes) :=
  mergeBy Prod.fst (v.committed.map fun row => (row.1, some row.2)) v.stagedRows

section Rows

variable {v}

theorem stagedRows_sorted : SortedBy Prod.fst v.stagedRows := by
  have sorted := v.staged_sorted
  unfold stagedRows
  cases h : v.staged with
  | none => exact List.Pairwise.nil
  | some s => exact sorted s (h ▸ rfl)

theorem committed_map_sorted :
    SortedBy Prod.fst (v.committed.map fun row => (row.1, some row.2)) :=
  pairwise_map.mpr v.committed_sorted

theorem rows_sorted : SortedBy Prod.fst v.rows := sortedBy_mergeBy committed_map_sorted _

theorem mem_rows {row : Bytes × Option Bytes} :
    row ∈ v.rows ↔ row ∈ v.stagedRows ∨
      (∃ value, (row.1, value) ∈ v.committed ∧ row.2 = some value) ∧
        ∀ other ∈ v.stagedRows, row.1 ≠ other.1 := by
  rw [rows, mem_mergeBy committed_map_sorted stagedRows_sorted, mem_map]
  refine or_congr_right (and_congr_left fun _ => ⟨?_, ?_⟩)
  · rintro ⟨⟨pk, value⟩, member, rfl⟩
    exact ⟨value, member, rfl⟩
  · rintro ⟨value, member, same⟩
    exact ⟨(row.1, value), member, Prod.ext rfl same.symm⟩

/-- The seek that starts a positioning step, whether or not the iterator already is there. -/
theorem reseek_eq {c : Cursor} (placed : v.Placed c) (bound : Option Bytes) (forward : Bool) :
    v.reseek c.it bound forward = firstIn bound forward true v.committed := by
  unfold reseek
  dsimp only
  split
  · have head : ∀ l : List (Bytes × Bytes), l.head? = l.find? fun _ => true := fun l => by
      cases l <;> simp
    cases bound <;> cases forward
    · exact head _
    · exact head _
    · rfl
    · rfl
  · rename_i stays
    simp only [Bool.or_eq_true, Bool.not_eq_true', not_or, Bool.not_eq_false, Bool.and_eq_true,
      beq_iff_eq] at stays
    obtain ⟨-, hasBound, onBound⟩ := stays
    obtain ⟨b, rfl⟩ := Option.isSome_iff_exists.mp hasBound
    obtain ⟨row, here, same⟩ := Option.map_eq_some_iff.mp onBound
    rw [here]
    refine ((firstIn_eq_some v.committed_sorted).mpr ⟨placed row here,
      inRange_inclusive.mpr (Or.inl same.symm), fun other member inside => ?_⟩).symm
    rcases inRange_inclusive.mp inside with equal | less
    · exact Or.inl (v.committed_sorted.eq_of_key_eq member (placed row here)
        (same.trans equal).symm)
    · exact Or.inr (same ▸ less)

/-- **The native iterator comes to rest on the first committed row in range.** -/
theorem settle_eq {c : Cursor} (placed : v.Placed c) (bound : Option Bytes)
    (forward inclusive : Bool) :
    v.settle c.it bound forward inclusive = firstIn bound forward inclusive v.committed := by
  simp only [settle, reseek_eq placed bound forward]
  cases bound with
  | none => simp [firstIn, inRange]
  | some b =>
    cases inclusive with
    | true => simp
    | false =>
      simp only [Bool.not_false, Option.isSome_some, Bool.true_and, beq_iff_eq]
      split
      · rename_i onBound
        obtain ⟨row, here, same⟩ := Option.map_eq_some_iff.mp onBound
        rw [here]
        cases forward <;> simp [next, prev, firstIn, travel, inRange, same]
      · rename_i offBound
        -- no row sits on the bound, so leaving it out changes nothing
        cases found : firstIn (some b) forward true v.committed with
        | none =>
          refine (firstIn_eq_none.mpr fun row member inside => ?_).symm
          refine firstIn_eq_none.mp found row member (inRange_inclusive.mpr (Or.inr ?_))
          exact inRange_exclusive.mp inside
        | some row =>
          rw [found] at offBound
          obtain ⟨member, inside, least⟩ := (firstIn_eq_some v.committed_sorted).mp found
          have less : before forward b row.1 :=
            (inRange_inclusive.mp inside).resolve_left fun same => offBound (by simp [same])
          refine ((firstIn_eq_some v.committed_sorted).mpr ⟨member, inRange_exclusive.mpr less,
            fun other inside holds => least other inside ?_⟩).symm
          exact inRange_inclusive.mpr (Or.inr (inRange_exclusive.mp holds))

theorem stagedFrom_eq (bound : Option Bytes) (forward inclusive : Bool) :
    v.stagedFrom bound forward inclusive = firstIn bound forward inclusive v.stagedRows := by
  cases forward <;> rfl

theorem nearer_cond {forward : Bool} {a b : Bytes} :
    ((forward = true ∧ a ≤ b) ∨ (forward = false ∧ b ≤ a)) ↔ ¬ before forward b a := by
  cases forward <;> simp [before]

section Merge

variable (bound : Option Bytes) (forward inclusive : Bool)

/-- The first committed row in range is the first merged one if every staged row is farther. -/
theorem first_committed {d : Bytes × Bytes}
    (found : firstIn bound forward inclusive v.committed = some d)
    (farther : ∀ s ∈ v.stagedRows, inRange bound forward inclusive s.1 = true →
      before forward d.1 s.1) :
    firstIn bound forward inclusive v.rows = some (d.1, some d.2) := by
  obtain ⟨member, holds, least⟩ := (firstIn_eq_some v.committed_sorted).mp found
  refine (firstIn_eq_some rows_sorted).mpr ⟨mem_rows.mpr (Or.inr ⟨⟨d.2, member, rfl⟩,
    fun s inside same => ?_⟩), holds, fun row inside inRow => ?_⟩
  · have less := farther s inside (same ▸ holds)
    exact before_asymm (same ▸ less) (same ▸ less)
  · rcases mem_rows.mp inside with inside | ⟨⟨value, inside, same⟩, -⟩
    · exact Or.inr (farther row inside inRow)
    · rcases least (row.1, value) inside inRow with equal | less
      · exact Or.inl (by rw [← equal, ← same])
      · exact Or.inr less

/-- The first staged row in range is the first merged one if no committed row is nearer. -/
theorem first_staged {s : Bytes × Option Bytes}
    (found : firstIn bound forward inclusive v.stagedRows = some s)
    (nearest : ∀ d ∈ v.committed, inRange bound forward inclusive d.1 = true →
      ¬ before forward d.1 s.1) :
    firstIn bound forward inclusive v.rows = some s := by
  obtain ⟨member, holds, least⟩ := (firstIn_eq_some stagedRows_sorted).mp found
  refine (firstIn_eq_some rows_sorted).mpr ⟨mem_rows.mpr (Or.inl member), holds,
    fun row inside inRow => ?_⟩
  rcases mem_rows.mp inside with inside | ⟨⟨value, inside, -⟩, apart⟩
  · exact least row inside inRow
  · rcases before_trichotomy forward s.1 row.1 with less | same | greater
    · exact Or.inr less
    · exact absurd same.symm (apart s member)
    · exact absurd greater (nearest (row.1, value) inside inRow)

/-- **Merging: the nearer of the two sources' first rows is the first merged row.** -/
theorem nearer_eq :
    nearer forward (firstIn bound forward inclusive v.committed)
        (firstIn bound forward inclusive v.stagedRows)
      = firstIn bound forward inclusive v.rows := by
  cases db : firstIn bound forward inclusive v.committed with
  | none =>
    have noCommitted := firstIn_eq_none.mp db
    cases staged : firstIn bound forward inclusive v.stagedRows with
    | none =>
      refine (firstIn_eq_none.mpr fun row member => ?_).symm
      rcases mem_rows.mp member with inside | ⟨⟨value, inside, -⟩, -⟩
      · exact firstIn_eq_none.mp staged row inside
      · exact noCommitted (row.1, value) inside
    | some s =>
      exact (first_staged bound forward inclusive staged fun d inside holds =>
        absurd holds (noCommitted d inside)).symm
  | some d =>
    cases staged : firstIn bound forward inclusive v.stagedRows with
    | none =>
      exact (first_committed bound forward inclusive db fun s inside holds =>
        absurd holds (firstIn_eq_none.mp staged s inside)).symm
    | some s =>
      simp only [nearer]
      split
      · rename_i staysBehind
        have notLess := nearer_cond.mp staysBehind
        refine (first_staged bound forward inclusive staged fun e inside holds less => ?_).symm
        rcases ((firstIn_eq_some v.committed_sorted).mp db).2.2 e inside holds with rfl | later
        · exact notLess less
        · exact notLess (before_trans later less)
      · rename_i ahead
        have less : before forward d.1 s.1 := not_not.mp fun no => ahead (nearer_cond.mpr no)
        refine (first_committed bound forward inclusive db fun e inside holds => ?_).symm
        rcases ((firstIn_eq_some stagedRows_sorted).mp staged).2.2 e inside holds with rfl | later
        · exact less
        · exact before_trans less later

end Merge

end Rows

/-! ### Visible entries -/

variable {dbi : Nat}

theorem dupSort_of_combined (both : combined dbi = true) : (spec dbi).flags.dupSort = false := by
  simp only [combined, Bool.or_eq_true, beq_iff_eq] at both
  rcases both with rfl | rfl <;> rfl

/-- A stored row reads as an entry with that physical key, or as a missing component. -/
theorem readRow_stored {pk value : Bytes} (stored : Stored dbi pk value) :
    ∃ row, readRow dbi pk value = .ok row ∧ ∀ e ∈ row, pk = entryKey dbi e.1 e.2 := by
  obtain ⟨key, val, rfl, components, plain⟩ := stored
  cases both : combined dbi with
  | true =>
    have single := dupSort_of_combined both
    obtain ⟨⟨packed, payload⟩, read⟩ := components both
    have decoded : decode dbi (entryKey dbi key val) [] = .ok (key, []) := by
      rw [entryKey_of_plain dbi single key val [], decode_entryKey]
    refine ⟨(if dbi = 3 then packed else payload).map fun v => (key, v), ?_, ?_⟩
    · simp [readRow, both, decoded, read, bind, Except.bind]
    · intro e member
      obtain ⟨v, -, rfl⟩ := Option.map_eq_some_iff.mp member
      exact entryKey_of_plain dbi single key val v
  | false =>
    have decoded : decode dbi (entryKey dbi key val) value = .ok (key, val) := by
      cases sorted : (spec dbi).flags.dupSort with
      | true => exact decode_entryKey_of_dupSort dbi sorted key val value
      | false => rw [← plain both sorted, decode_entryKey]
    refine ⟨some (key, val), ?_, ?_⟩
    · simp [readRow, both, decoded, Except.map]
    · rintro e ⟨⟩
      rfl

theorem stored_duplicate (single : combined dbi = false) (sorted : (spec dbi).flags.dupSort = true)
    (key dup value : Bytes) :
    Stored dbi (entryKey dbi key dup) value :=
  ⟨key, dup, rfl, by simp [single], by simp [sorted]⟩

/-- The entry a merged row shows, with its physical key. -/
def visible (row : Bytes × Option Bytes) : Option (Bytes × Kv) :=
  row.2.bind fun value =>
    match readRow v.dbi row.1 value with
    | .ok (some kv) => some (row.1, kv)
    | _ => none

/-- The merged table in physical order. -/
def entries : List (Bytes × Kv) := v.rows.filterMap v.visible

/-- The merged rows a positioning step has before it. -/
def ahead (bound : Option Bytes) (forward inclusive : Bool) : List (Bytes × Option Bytes) :=
  (travel forward v.rows).filter fun row => inRange bound forward inclusive row.1

section Entries

variable {v}
variable {row : Bytes × Option Bytes}

theorem visible_fst {entry : Bytes × Kv} (seen : v.visible row = some entry) : entry.1 = row.1 := by
  obtain ⟨value, -, read⟩ := Option.bind_eq_some_iff.mp seen
  split at read
  · exact (Option.some.inj read) ▸ rfl
  · cases read

theorem rows_stored (member : row ∈ v.rows) {value : Bytes} (present : row.2 = some value) :
    Stored v.dbi row.1 value := by
  rcases mem_rows.mp member with inside | ⟨⟨value', inside, same⟩, -⟩
  · have stored := v.staged_stored
    unfold stagedRows at inside
    cases h : v.staged with
    | none =>
      rw [h] at inside
      cases inside
    | some s =>
      rw [h] at inside
      exact stored s h row inside value present
  · rw [same, Option.some.injEq] at present
    exact present ▸ v.committed_stored _ inside

theorem visible_entryKey (member : row ∈ v.rows) {entry : Bytes × Kv}
    (seen : v.visible row = some entry) : entry.1 = entryKey v.dbi entry.2.1 entry.2.2 := by
  rw [visible_fst seen]
  obtain ⟨value, present, read⟩ := Option.bind_eq_some_iff.mp seen
  obtain ⟨read', stored, key⟩ := readRow_stored (rows_stored member present)
  rw [stored] at read
  cases read' with
  | none => cases read
  | some kv =>
    obtain rfl := Option.some.inj read
    exact key kv rfl

/-- A positioning step on a merged row: skip it or stop there. -/
theorem visible_cases (member : row ∈ v.rows) :
    (v.visible row = none ∧ ∀ value, row.2 = some value →
      readRow v.dbi row.1 value = .ok none) ∨
    ∃ value kv, row.2 = some value ∧ readRow v.dbi row.1 value = .ok (some kv) ∧
      v.visible row = some (row.1, kv) := by
  cases present : row.2 with
  | none => exact Or.inl ⟨by simp [visible, present], by simp⟩
  | some value =>
    obtain ⟨read, stored, -⟩ := readRow_stored (rows_stored member present)
    cases read with
    | none =>
      refine Or.inl ⟨by simp [visible, present, stored], fun value' same => ?_⟩
      rw [← Option.some.inj same, stored]
    | some kv => exact Or.inr ⟨value, kv, rfl, stored, by simp [visible, present, stored]⟩

theorem ahead_tail {bound : Option Bytes} {forward inclusive : Bool}
    {rest : List (Bytes × Option Bytes)} (scan : v.ahead bound forward inclusive = row :: rest) :
    v.ahead (some row.1) forward false = rest :=
  filter_after_head (travel_sorted forward rows_sorted) (fun _ _ => before_asymm)
    (fun _ _ inside less => inRange_up inside less) (fun _ => inRange_exclusive) scan

/-- The cursor after an operation: on the entry it found, or where it was. -/
structure Moved (v : View) (c c' : Cursor) (row : Option Kv) : Prop where
  placed : v.Placed c'
  found : ∀ e ∈ row, c'.current = some (entryKey v.dbi e.1 e.2) ∧ c'.logicalKey = some e.1
  kept : row = none → c'.current = c.current ∧ c'.logicalKey = c.logicalKey

/-- What an operation found, with the cursor on it. -/
def Finds (v : View) (c : Cursor) (result : Except DbError (Cursor × Option Kv))
    (row : Option Kv) : Prop :=
  ∃ c', result = .ok (c', row) ∧ v.Moved c c' row

/-- **A positioning loop stops at the first visible row ahead of it**, if its turns suffice. -/
theorem positionWithin_eq {fuel : Nat} {c : Cursor} (placed : v.Placed c) (bound : Option Bytes)
    (forward inclusive : Bool) (enough : (v.ahead bound forward inclusive).length < fuel) :
    v.Finds c (v.positionWithin fuel c bound forward inclusive)
      (((v.ahead bound forward inclusive).findSome? v.visible).map Prod.snd) := by
  induction fuel generalizing c bound inclusive with
  | zero => omega
  | succ fuel ih =>
    have settled : v.Placed { c with it := v.settle c.it bound forward inclusive } := by
      intro row member
      rw [settle_eq placed] at member
      exact ((firstIn_eq_some v.committed_sorted).mp member).1
    have first : nearer forward (v.settle c.it bound forward inclusive)
        (v.stagedFrom bound forward inclusive) = (v.ahead bound forward inclusive).head? := by
      rw [settle_eq placed, stagedFrom_eq, nearer_eq, firstIn, ahead, head?_filter]
    cases scan : v.ahead bound forward inclusive with
    | nil =>
      rw [scan] at first
      refine ⟨{ c with it := v.settle c.it bound forward inclusive }, ?_, settled, ?_, ?_⟩
      · simp [positionWithin, first]
      · simp
      · exact fun _ => ⟨rfl, rfl⟩
    | cons row rest =>
      have member : row ∈ v.rows := by
        have inside : row ∈ v.ahead bound forward inclusive := scan ▸ mem_cons_self
        exact mem_travel.mp (mem_filter.mp inside).1
      rw [scan] at first
      have tail := ahead_tail scan
      have next := ih settled (some row.1) false (by
        rw [scan, length_cons] at enough
        rw [tail]
        omega)
      rw [tail] at next
      rcases visible_cases member with ⟨hidden, skipped⟩ | ⟨value, kv, present, read, seen⟩
      · rw [findSome?_cons_of_isNone (by simp [hidden])]
        obtain ⟨c', reached, moved⟩ := next
        refine ⟨c', ?_, moved.placed, moved.found, moved.kept⟩
        rw [← reached]
        obtain ⟨pk, value⟩ := row
        cases value with
        | none => simp [positionWithin, first]
        | some value => simp [positionWithin, first, skipped value rfl]
      · have key := visible_entryKey member seen
        refine ⟨⟨v.settle c.it bound forward inclusive, some row.1, some kv.1⟩, ?_, settled, ?_, ?_⟩
        · obtain ⟨pk, value⟩ := row
          simp only at present read seen
          subst present
          simp [positionWithin, first, read, seen]
        · simp only [findSome?_cons, seen, Option.map_some, Option.mem_def,
            Option.some.injEq, forall_eq']
          exact ⟨key, trivial⟩
        · simp [seen]

theorem rows_length : v.rows.length ≤ v.committed.length + v.stagedRows.length := by
  have merged : v.rows.length ≤ (v.committed.map fun row => (row.1, some row.2)).length
      + v.stagedRows.length := length_mergeBy_le _ _
  rwa [length_map] at merged

/-- The rows of both sources bound what is ahead. -/
theorem ahead_length (bound : Option Bytes) (forward inclusive : Bool) :
    (v.ahead bound forward inclusive).length ≤ v.committed.length + v.stagedRows.length := by
  have same : (travel forward v.rows).length = v.rows.length := by cases forward <;> simp [travel]
  calc (v.ahead bound forward inclusive).length ≤ (travel forward v.rows).length :=
        length_filter_le _ _
    _ ≤ v.committed.length + v.stagedRows.length := same ▸ rows_length

theorem position_eq {c : Cursor} (placed : v.Placed c) (bound : Option Bytes)
    (forward inclusive : Bool) :
    v.Finds c (v.position c bound forward inclusive)
      ((firstIn bound forward inclusive v.entries).map Prod.snd) := by
  have same : (v.ahead bound forward inclusive).findSome? v.visible
      = firstIn bound forward inclusive v.entries := by
    have turned : travel forward v.entries = (travel forward v.rows).filterMap v.visible := by
      cases forward <;> simp [travel, entries]
    rw [firstIn, turned, ahead]
    induction travel forward v.rows with
    | nil => rfl
    | cons row rest ih =>
      cases seen : v.visible row with
      | none =>
        rw [filterMap_cons_none seen, ← ih, filter_cons]
        split
        · rw [findSome?_cons, seen]
        · rfl
      | some entry =>
        have key := visible_fst seen
        rw [filterMap_cons_some seen, find?_cons, key, filter_cons]
        cases inside : inRange bound forward inclusive row.1 with
        | true => simp [seen]
        | false => simpa using ih
  rw [← same]
  exact positionWithin_eq placed bound forward inclusive
    (Nat.lt_succ_of_le (ahead_length bound forward inclusive))

end Entries

/-! ### The logical table -/

/-- The merged logical table in the order of a scan. -/
def listed (reverse : Bool) : List Kv :=
  (travel (reverse == reversed v.dbi) v.entries).map Prod.snd

section Listed

variable {v}
variable {e p q : Kv} {reverse : Bool} {dbi : Nat} {c : Cursor}

theorem mem_entries {entry : Bytes × Kv} :
    entry ∈ v.entries ↔ ∃ row ∈ v.rows, v.visible row = some entry := mem_filterMap

theorem entries_entryKey {entry : Bytes × Kv} (member : entry ∈ v.entries) :
    entry.1 = entryKey v.dbi entry.2.1 entry.2.2 := by
  obtain ⟨row, inside, seen⟩ := mem_entries.mp member
  exact visible_entryKey inside seen

theorem entries_sorted : SortedBy Prod.fst v.entries := by
  refine List.Pairwise.filterMap v.visible (fun row row' less => ?_) rows_sorted
  intro entry seen entry' seen'
  rw [visible_fst seen, visible_fst seen']
  exact less

/-- Looking up one physical key finds its merged row. -/
theorem raw_eq_some {pk value : Bytes} : v.raw pk = some value ↔ (pk, some value) ∈ v.rows := by
  rw [raw, mem_rows]
  cases staged : v.stagedRows.find? fun row => row.1 = pk with
  | some row =>
    obtain ⟨member, same⟩ := (find?_key_eq_some stagedRows_sorted).mp staged
    constructor
    · intro present
      exact Or.inl (by rwa [← present, ← same])
    · rintro (inside | ⟨-, apart⟩)
      · rw [stagedRows_sorted.eq_of_key_eq member inside same]
      · exact absurd same.symm (apart row member)
  | none =>
    have missing : ∀ row ∈ v.stagedRows, row.1 ≠ pk := fun row member => by
      simpa using find?_eq_none.mp staged row member
    constructor
    · intro found
      obtain ⟨row, here, rfl⟩ := Option.map_eq_some_iff.mp found
      obtain ⟨member, rfl⟩ := (find?_key_eq_some v.committed_sorted).mp here
      exact Or.inr ⟨⟨row.2, member, rfl⟩, fun other inside => (missing other inside).symm⟩
    · rintro (inside | ⟨⟨value', inside, same⟩, -⟩)
      · exact absurd rfl (missing _ inside)
      · rw [Option.some.injEq] at same
        subst same
        rw [(find?_key_eq_some v.committed_sorted).mpr ⟨inside, rfl⟩]
        rfl

/-- **The listed entries are those the point lookups find.** -/
theorem mem_listed : e ∈ v.listed reverse ↔ v.Holds e := by
  simp only [listed, mem_map, mem_travel, mem_entries]
  constructor
  · rintro ⟨entry, ⟨row, member, seen⟩, rfl⟩
    have key := visible_entryKey member seen
    rcases visible_cases member with ⟨hidden, -⟩ | ⟨value, kv, present, read, seen'⟩
    · rw [hidden] at seen
      cases seen
    · rw [seen', Option.some.injEq] at seen
      subst seen
      simp only at key
      refine ⟨value, ?_, ?_⟩
      · rw [← key, raw_eq_some, ← present]
        exact member
      · rw [← key]
        exact read
  · rintro ⟨value, found, read⟩
    refine ⟨(entryKey v.dbi e.1 e.2, e), ⟨_, raw_eq_some.mp found, ?_⟩, rfl⟩
    simp [visible, read]

/-- Physical order on the way of a scan is logical order. -/
theorem before_entryKey :
    before (reverse == reversed dbi) (entryKey dbi p.1 p.2) (entryKey dbi q.1 q.2)
      ↔ before (!reverse) (entryCode dbi p) (entryCode dbi q) := by
  rw [entryKey_eq_code, entryKey_eq_code]
  cases back : reversed dbi <;> cases reverse <;> simp [before, complement_entryCode_lt]

theorem listed_sorted : (v.listed reverse).Pairwise fun p q =>
    before (!reverse) (entryCode v.dbi p) (entryCode v.dbi q) := by
  refine pairwise_map.mpr ?_
  refine (travel_sorted (reverse == reversed v.dbi) entries_sorted).imp_of_mem ?_
  intro a b left right less
  rw [entries_entryKey (mem_travel.mp left), entries_entryKey (mem_travel.mp right)] at less
  exact before_entryKey.mp less

/-- **Positioning finds the first entry in range**, for a range that is one of entries. -/
theorem position_listed (placed : v.Placed c) {bound : Option Bytes} {forward inclusive : Bool}
    (way : forward = (reverse == reversed v.dbi)) {p : Kv → Bool}
    (agrees : ∀ e, inRange bound (reverse == reversed v.dbi) inclusive (entryKey v.dbi e.1 e.2)
      = p e) :
    v.Finds c (v.position c bound forward inclusive) ((v.listed reverse).find? p) := by
  have same : (firstIn bound forward inclusive v.entries).map Prod.snd
      = (v.listed reverse).find? p := by
    rw [firstIn, listed, ← way, find?_map]
    congr 1
    refine find?_congr fun entry member => ?_
    rw [entries_entryKey (mem_travel.mp member), way]
    exact agrees entry.2
  rw [← same]
  exact position_eq placed bound forward inclusive

/-! ### Cursor operations -/

/-- The three ways an entry's code can lie to a key's prefix. -/
theorem code_cases (dbi : Nat) (key : Bytes) (e : Kv) :
    (keyPrefix dbi e.1 < keyPrefix dbi key ∧ Below (entryCode dbi e) (keyPrefix dbi key)) ∨
      (e.1 = key ∧ keyPrefix dbi key <+: entryCode dbi e) ∨
      (keyPrefix dbi key < keyPrefix dbi e.1 ∧ Below (keyPrefix dbi key) (entryCode dbi e)) := by
  rcases lt_trichotomy (keyPrefix dbi e.1) (keyPrefix dbi key) with less | same | greater
  · have below := (keyPrefix_below dbi less).append (valCode dbi e.2) []
    rw [append_nil] at below
    exact Or.inl ⟨less, below⟩
  · have key' : e.1 = key := (keyPrefix_prefix_iff dbi _ _).mp (same ▸ prefix_rfl)
    exact Or.inr (Or.inl ⟨key', (keyPrefix_prefix_entryCode dbi).mpr key'⟩)
  · have below := (keyPrefix_below dbi greater).append [] (valCode dbi e.2)
    rw [append_nil] at below
    exact Or.inr (Or.inr ⟨greater, below⟩)

theorem encode_none (dbi : Nat) (key : Bytes) : encode dbi key none
    = if reversed dbi then complement (keyPrefix dbi key) else keyPrefix dbi key := by
  simp [encode]

section Bounds

variable (dbi : Nat) (key : Bytes) (e : Kv)

/-- The key is this one or a later one. -/
abbrev fromKey : Bool := decide (keyPrefix dbi key ≤ keyPrefix dbi e.1)

/-- The key is this one or an earlier one. -/
abbrev upToKey : Bool := decide (keyPrefix dbi e.1 ≤ keyPrefix dbi key)

abbrev pastKey : Bool := decide (keyPrefix dbi key < keyPrefix dbi e.1)

/-- The entry is this one or on the way of a scan from it. -/
abbrev fromEntry (reverse : Bool) (p : Kv) : Bool :=
  inRange (some (entryCode dbi p)) (!reverse) true (entryCode dbi e)

abbrev pastEntry (reverse : Bool) (p : Kv) : Bool :=
  inRange (some (entryCode dbi p)) (!reverse) false (entryCode dbi e)

theorem inRange_fromKey :
    inRange (some (keyPrefix dbi key)) true true (entryCode dbi e) = fromKey dbi key e := by
  simp only [inRange, if_true, decide_eq_decide]
  rcases code_cases dbi key e with ⟨less, below⟩ | ⟨rfl, pre⟩ | ⟨greater, below⟩
  · exact iff_of_false (not_le.mpr below.lt) (not_le.mpr less)
  · exact iff_of_true (prefix_le pre) le_rfl
  · exact iff_of_true below.lt.le greater.le

theorem inRange_prefix_successor :
    inRange (successor (keyPrefix dbi key)) false false (entryCode dbi e) = upToKey dbi key e := by
  rw [Bool.eq_iff_iff, inRange_successor, decide_eq_true_eq]
  rcases code_cases dbi key e with ⟨less, below⟩ | ⟨rfl, pre⟩ | ⟨greater, below⟩
  · exact iff_of_true (Or.inl below.lt.le) less.le
  · exact iff_of_true (Or.inr pre) le_rfl
  · exact iff_of_false (not_or.mpr ⟨not_le.mpr below.lt, below.not_extends.1⟩) (not_le.mpr greater)

theorem inRange_complement :
    inRange (some (complement (keyPrefix dbi key))) true true (complement (entryCode dbi e))
      = upToKey dbi key e := by
  simp only [inRange, if_true, decide_eq_decide]
  rcases code_cases dbi key e with ⟨less, below⟩ | ⟨rfl, pre⟩ | ⟨greater, below⟩
  · exact iff_of_true below.complement.lt.le less.le
  · exact iff_of_true (prefix_le (complement_prefix_iff.mpr pre)) le_rfl
  · exact iff_of_false (not_le.mpr below.complement.lt) (not_le.mpr greater)

theorem inRange_complement_successor :
    inRange (successor (complement (keyPrefix dbi key))) false false (complement (entryCode dbi e))
      = fromKey dbi key e := by
  rw [Bool.eq_iff_iff, inRange_successor, decide_eq_true_eq]
  rcases code_cases dbi key e with ⟨less, below⟩ | ⟨rfl, pre⟩ | ⟨greater, below⟩
  · refine iff_of_false (not_or.mpr ⟨not_le.mpr below.complement.lt, ?_⟩) (not_le.mpr less)
    exact fun pre => below.not_extends.2 (complement_prefix_iff.mp pre)
  · exact iff_of_true (Or.inr (complement_prefix_iff.mpr pre)) le_rfl
  · exact iff_of_true (Or.inl below.complement.lt.le) greater.le

theorem inRange_complement_before :
    inRange (some (complement (keyPrefix dbi key))) false false (complement (entryCode dbi e))
      = pastKey dbi key e := by
  simp only [inRange, Bool.false_eq_true, if_false, decide_eq_decide]
  rcases code_cases dbi key e with ⟨less, below⟩ | ⟨rfl, pre⟩ | ⟨greater, below⟩
  · exact iff_of_false (not_lt.mpr below.complement.lt.le) (not_lt.mpr less.le)
  · exact iff_of_false (not_lt.mpr (prefix_le (complement_prefix_iff.mpr pre))) (lt_irrefl _)
  · exact iff_of_true below.complement.lt greater

theorem inRange_entryKey (reverse inclusive : Bool) (p : Kv) :
    inRange (some (entryKey dbi p.1 p.2)) (reverse == reversed dbi) inclusive (entryKey dbi e.1 e.2)
      = inRange (some (entryCode dbi p)) (!reverse) inclusive (entryCode dbi e) := by
  rw [entryKey_eq_code, entryKey_eq_code]
  cases back : reversed dbi <;> cases reverse <;> cases inclusive <;>
    simp [inRange, complement_entryCode_le, complement_entryCode_lt]

end Bounds

section Operations

variable {c : Cursor} (placed : v.Placed c)

include placed

theorem keyEdge_finds (key : Bytes) (first : Bool) :
    v.Finds c (v.keyEdge c key first) ((v.listed (!first)).find?
      (if first then fromKey v.dbi key else upToKey v.dbi key)) := by
  simp only [keyEdge, encode_none]
  cases back : reversed v.dbi <;> cases first <;>
    refine position_listed placed (by rw [back]; rfl) fun e => ?_ <;> rw [entryKey_eq_code, back]
  · exact inRange_prefix_successor v.dbi key e
  · exact inRange_fromKey v.dbi key e
  · exact inRange_complement v.dbi key e
  · exact inRange_complement_successor v.dbi key e

omit placed in
/-- A cursor operation hands out what it found or drops it; then the cursor stays where it was. -/
theorem get_of_getInner {key val : Option Bytes} {op : Op} {row row' : Option Kv}
    (sub : ∀ e ∈ row', e ∈ row)
    (inner : ∃ c', v.getInner c key val op = .ok (c', row') ∧ v.Moved c c' row) :
    v.Finds c (v.get c key val op) row' := by
  obtain ⟨c', reached, moved⟩ := inner
  cases row' with
  | none =>
    refine ⟨{ c' with current := c.current, logicalKey := c.logicalKey }, ?_, moved.placed, ?_, ?_⟩
    · simp [get, reached, bind, Except.bind]
    · simp
    · exact fun _ => ⟨rfl, rfl⟩
  | some e =>
    refine ⟨c', ?_, moved.placed, ?_, ?_⟩
    · simp [get, reached, bind, Except.bind]
    · rintro e' ⟨⟩
      exact moved.found e (sub e rfl)
    · simp

theorem get_edge (reverse : Bool) : v.Finds c (v.get c none none (if reverse then .last else .first))
    ((v.listed reverse).find? fun _ => true) := by
  refine get_of_getInner (fun _ => id) ?_
  cases reverse <;> exact position_listed placed (by cases reversed v.dbi <;> rfl) fun _ => rfl

/-- Stepping on from an entry, in either direction. -/
theorem get_step (reverse : Bool) {p : Kv} (here : c.current = some (entryKey v.dbi p.1 p.2)) :
    v.Finds c (v.get c none none (if reverse then .prev else .next))
      ((v.listed reverse).find? fun e => pastEntry v.dbi e reverse p) := by
  refine get_of_getInner (fun _ => id) ?_
  cases reverse <;>
    simp only [getInner, here, if_true, Bool.false_eq_true, if_false] <;>
    exact position_listed placed (by cases reversed v.dbi <;> rfl)
      fun e => inRange_entryKey v.dbi e _ false p

theorem get_setRange (key : Bytes) : v.Finds c (v.get c (some key) none .setRange)
    ((v.listed false).find? (fromKey v.dbi key)) := by
  refine get_of_getInner (fun _ => id) ?_
  obtain ⟨c', reached, moved⟩ := keyEdge_finds placed key true
  exact ⟨c', by simp [getInner, reached, bind, Except.bind], moved⟩

theorem get_setKey (key : Bytes) : v.Finds c (v.get c (some key) none .setKey)
    (((v.listed false).find? (fromKey v.dbi key)).filter fun e => e.1 = key) := by
  refine get_of_getInner (fun e found => (Option.filter_eq_some_iff.mp found).1) ?_
  obtain ⟨c', reached, moved⟩ := keyEdge_finds placed key true
  exact ⟨c', by simp [getInner, reached, bind, Except.bind], moved⟩

theorem get_getBothRange (sorted : (spec v.dbi).flags.dupSort = true) (key dup : Bytes) :
    v.Finds c (v.get c (some key) (some dup) .getBothRange)
      (((v.listed false).find? fun e => fromEntry v.dbi e false (key, dup)).filter
        fun e => e.1 = key) := by
  refine get_of_getInner (fun e found => (Option.filter_eq_some_iff.mp found).1) ?_
  have bound : encode v.dbi key (some dup) = entryKey v.dbi key dup := by
    simp [entryKey, sorted]
  have way : (!reversed v.dbi) = (false == reversed v.dbi) := by cases reversed v.dbi <;> rfl
  obtain ⟨c', reached, moved⟩ := position_listed placed way
    fun e => inRange_entryKey v.dbi e false true (key, dup)
  exact ⟨c', by simp [getInner, bound, reached, bind, Except.bind, fromEntry], moved⟩

theorem get_lastDup {key : Bytes} (here : c.logicalKey = some key) :
    v.Finds c (v.get c none none .lastDup) ((v.listed true).find? (upToKey v.dbi key)) := by
  refine get_of_getInner (fun _ => id) ?_
  simp only [getInner, here]
  exact keyEdge_finds placed key false

theorem get_nextNodup (sorted : (spec v.dbi).flags.dupSort = true) {key : Bytes}
    (here : c.logicalKey = some key) :
    v.Finds c (v.get c none none .nextNodup) ((v.listed false).find? (pastKey v.dbi key)) := by
  have back : reversed v.dbi = true := sorted
  refine get_of_getInner (fun _ => id) ?_
  simp only [getInner, here, back, encode_none]
  refine position_listed placed (by rw [back]; rfl) fun e => ?_
  rw [entryKey_eq_code, back]
  exact inRange_complement_before v.dbi key e

end Operations

/-! ### The start of a scan -/

variable {a b key : Bytes}

theorem entryCode_lt_of_key (less : keyPrefix dbi p.1 < keyPrefix dbi q.1) :
    entryCode dbi p < entryCode dbi q :=
  ((keyPrefix_below dbi less).append _ _).lt

theorem keyPrefix_le_of_entryCode (le : entryCode dbi p ≤ entryCode dbi q) :
    keyPrefix dbi p.1 ≤ keyPrefix dbi q.1 :=
  not_lt.mp fun less => absurd le (not_le.mpr (entryCode_lt_of_key less))

theorem entryCode_injective_on (sorted : (spec dbi).flags.dupSort = true)
    (same : entryCode dbi p = entryCode dbi q) : p = q := by
  have pre : entryCode dbi p <+: entryCode dbi q := same ▸ prefix_rfl
  obtain ⟨key, dup⟩ := entry_of_extends dbi pre
  exact Prod.ext key (dup sorted)

theorem holds_unique (left : v.Holds p) (right : v.Holds q)
    (same : entryCode v.dbi p = entryCode v.dbi q) : p = q := by
  obtain ⟨value, found, read⟩ := left
  obtain ⟨value', found', read'⟩ := right
  rw [entryKey_eq_code, same, ← entryKey_eq_code] at found read
  rw [found, Option.some.injEq] at found'
  subst found'
  rw [read, Except.ok.injEq, Option.some.injEq] at read'
  exact read'

theorem keyPrefix_injective (same : keyPrefix dbi a = keyPrefix dbi b) :
    a = b := (keyPrefix_prefix_iff dbi a b).mp (same ▸ prefix_rfl)

/-- The first entry in a range is no later than any other in it, whichever way that one is listed. -/
theorem least_listed {p : Kv → Bool} (found : (v.listed false).find? p = some e) {x : Kv}
    (member : x ∈ v.listed reverse) (holds : p x = true) : entryCode v.dbi e ≤ entryCode v.dbi x := by
  have member' : x ∈ v.listed false := mem_listed.mpr (mem_listed.mp member)
  rcases least_of_find? listed_sorted found x member' holds with rfl | less
  · exact le_rfl
  · exact le_of_lt less

/-- The first entry on the way is the one no other is before. -/
theorem find?_listed {p : Kv → Bool} (member : v.Holds e) (holds : p e = true)
    (least : ∀ x, v.Holds x → p x = true → x = e ∨
      before (!reverse) (entryCode v.dbi e) (entryCode v.dbi x)) :
    (v.listed reverse).find? p = some e :=
  find?_eq_some_of_least listed_sorted (fun _ _ => before_asymm) (mem_listed.mpr member) holds
    fun x inside => least x (mem_listed.mp inside)

/-- A range from a key, or from an entry with it, in which the first entry has another key holds no
entry with that key. -/
theorem no_key {p : Kv → Bool} (low : ∀ e, p e = true → keyPrefix v.dbi key ≤ keyPrefix v.dbi e.1)
    (missing : ((v.listed false).find? p).filter (fun e => e.1 = key) = none)
    (member : e ∈ v.listed reverse) (same : e.1 = key) : p e = false := by
  by_contra holds
  rw [Bool.not_eq_false] at holds
  cases found : (v.listed false).find? p with
  | none => exact find?_eq_none.mp found e (mem_listed.mpr (mem_listed.mp member)) holds
  | some f =>
    have high := keyPrefix_le_of_entryCode (least_listed found member holds)
    rw [same] at high
    rw [found, Option.filter_some,
      keyPrefix_injective (le_antisymm high (low f (find?_some found)))] at missing
    simp at missing

/-- Looking for a key finds nothing when no entry has it. -/
theorem key_ne (missing : ((v.listed false).find? (fromKey v.dbi key)).filter
      (fun e => e.1 = key) = none) (member : e ∈ v.listed reverse) : e.1 ≠ key := fun same => by
  simpa [same] using no_key (fun _ => of_decide_eq_true) missing member same

theorem no_duplicate {dup : Bytes}
    (missing : ((v.listed false).find? fun e => fromEntry v.dbi e false (key, dup)).filter
      (fun e => e.1 = key) = none) (member : e ∈ v.listed reverse) (same : e.1 = key) :
    entryCode v.dbi e < entryCode v.dbi (key, dup) :=
  not_le.mp (of_decide_eq_false
    (no_key (fun _ => keyPrefix_le_of_entryCode ∘ of_decide_eq_true) missing member same))

/-- An operation ends on an entry, or finds none. -/
def Reaches (v : View) (result : Except DbError (Cursor × Option Kv)) (row : Option Kv) : Prop :=
  ∃ c', result = .ok (c', row) ∧ v.Placed c' ∧
    ∀ e ∈ row, c'.current = some (entryKey v.dbi e.1 e.2)

theorem Finds.reaches {result : Except DbError (Cursor × Option Kv)} {row : Option Kv}
    (finds : v.Finds c result row) : v.Reaches result row := by
  obtain ⟨c', reached, moved⟩ := finds
  exact ⟨c', reached, moved.placed, fun e found => (moved.found e found).1⟩

/-- Entries from one on, in the order of the scan. -/
def Upward (v : View) (reverse : Bool) (q : Kv → Bool) : Prop :=
  ∀ x y, q x = true → before (!reverse) (entryCode v.dbi x) (entryCode v.dbi y) → q y = true

/-- **A step back from the first entry of a range** reaches the last entry outside it, and so does
the last entry when the range is empty. -/
theorem reaches_before (placed : v.Placed c) {p q : Kv → Bool}
    (outside : ∀ e ∈ v.listed true, q e = true ↔ p e = false) (up : v.Upward false p)
    {row : Option Kv} (range : (v.listed false).find? p = row)
    (here : ∀ e ∈ row, c.current = some (entryKey v.dbi e.1 e.2)) :
    v.Reaches (if row.isSome then v.get c none none .prev else v.get c none none .last)
      ((v.listed true).find? q) := by
  cases row with
  | some f =>
    have same : (v.listed true).find? q = (v.listed true).find? fun e => pastEntry v.dbi e true f := by
      refine find?_congr fun e member => Bool.eq_iff_iff.mpr ?_
      rw [outside e member, inRange_exclusive]
      refine ⟨fun no => not_le.mp fun le => ?_, fun less => Bool.eq_false_iff.mpr fun holds =>
        absurd less (not_lt.mpr (least_listed range member holds))⟩
      have inside := find?_some range
      rcases le.lt_or_eq with later | same
      · exact Bool.false_ne_true (no.symm.trans (up f e inside later))
      · have equal := holds_unique (mem_listed.mp (mem_of_find?_eq_some range))
          (mem_listed.mp member) same
        exact Bool.false_ne_true (no.symm.trans (equal ▸ inside))
    rw [same]
    exact (get_step placed true (here f rfl)).reaches
  | none =>
    have same : (v.listed true).find? q = (v.listed true).find? fun _ => true := by
      refine find?_congr fun e member => ?_
      rw [outside e member, Bool.eq_false_iff]
      exact find?_eq_none.mp range e (mem_listed.mpr (mem_listed.mp member))
    rw [same]
    exact (get_edge placed true).reaches

/-- The keys up to one are those not from it on, where no entry has it. -/
theorem upToKey_outside (missing : ∀ e ∈ v.listed true, e.1 ≠ key) :
    ∀ e ∈ v.listed true, upToKey v.dbi key e = true ↔ fromKey v.dbi key e = false :=
  fun e member => by
    have apart : keyPrefix v.dbi e.1 ≠ keyPrefix v.dbi key :=
      fun same => missing e member (keyPrefix_injective same)
    rw [decide_eq_true_eq, decide_eq_false_iff_not, not_le]
    exact ⟨fun le => lt_of_le_of_ne le apart, le_of_lt⟩

theorem fromKey_upward (key : Bytes) : v.Upward false (fromKey v.dbi key) :=
  fun _ _ holds less => decide_eq_true ((of_decide_eq_true holds).trans
    (keyPrefix_le_of_entryCode (le_of_lt less)))

/-- The chain of a reverse scan from a whole key: its last duplicate, or the entry before it. -/
theorem reaches_upToKey (placed : v.Placed c) (key : Bytes) :
    v.Reaches (do
        let (c, row) ← v.get c (some key) none .setKey
        if row.isSome then v.get c none none .lastDup
        else
          let (c, row) ← v.get c (some key) none .setRange
          if row.isSome then v.get c none none .prev else v.get c none none .last)
      ((v.listed true).find? (upToKey v.dbi key)) := by
  obtain ⟨c₁, exact, moved⟩ := get_setKey placed key
  simp only [exact, bind, Except.bind]
  cases found : ((v.listed false).find? (fromKey v.dbi key)).filter fun e => e.1 = key with
  | some f =>
    have here : f.1 = key := by simpa using (Option.filter_eq_some_iff.mp found).2
    exact (get_lastDup moved.placed (here ▸ (moved.found f found).2)).reaches
  | none =>
    obtain ⟨c₂, range, moved'⟩ := get_setRange moved.placed key
    simp only [range, Option.isSome_none, Bool.false_eq_true, if_false]
    exact reaches_before moved'.placed (upToKey_outside fun e member => key_ne found member)
      (fromKey_upward key) rfl fun e found => (moved'.found e found).1

/-- The chain of a forward scan past a whole key. -/
theorem reaches_afterKey (sorted : (spec v.dbi).flags.dupSort = true) (placed : v.Placed c)
    (key : Bytes) :
    v.Reaches (do
        let (c, row) ← v.get c (some key) none .setKey
        if row.isSome then v.get c none none .nextNodup
        else v.get c (some key) none .setRange)
      ((v.listed false).find? (pastKey v.dbi key)) := by
  obtain ⟨c₁, exact, moved⟩ := get_setKey placed key
  simp only [exact, bind, Except.bind]
  cases found : ((v.listed false).find? (fromKey v.dbi key)).filter fun e => e.1 = key with
  | some f =>
    have here : f.1 = key := by simpa using (Option.filter_eq_some_iff.mp found).2
    exact (get_nextNodup moved.placed sorted (here ▸ (moved.found f found).2)).reaches
  | none =>
    have same : (v.listed false).find? (pastKey v.dbi key)
        = (v.listed false).find? (fromKey v.dbi key) := by
      refine find?_congr fun e member => decide_eq_decide.mpr ⟨le_of_lt, fun le => ?_⟩
      exact lt_of_le_of_ne le fun same => key_ne found member (keyPrefix_injective same).symm
    rw [same]
    exact (get_setRange moved.placed key).reaches

/-- Whether an entry lies on the right side of a scan's start. A forward scan of a `DUPSORT` table
from a key without a duplicate starts after that key. -/
def onSide (dbi : Nat) (startKey startDup : Bytes) (reverse : Bool) (e : Kv) : Bool :=
  if startKey = [] then true
  else if (spec dbi).flags.dupSort = true ∧ startDup ≠ [] then
    if reverse then cmpEntry dbi e (startKey, startDup) ≠ .gt
    else cmpEntry dbi e (startKey, startDup) ≠ .lt
  else if reverse then cmpKey dbi e.1 startKey ≠ .gt
  else if (spec dbi).flags.dupSort then cmpKey dbi e.1 startKey = .gt
  else cmpKey dbi e.1 startKey ≠ .lt

theorem cmp_ne_lt_iff : cmp a b ≠ .lt ↔ b ≤ a := by
  rw [Ne, cmp_eq_lt_iff, not_lt]

section Start

variable {c : Cursor} (placed : v.Placed c) {startKey startDup : Bytes} (given : startKey ≠ [])

/-- With a duplicate given, the right side is that from the entry on. -/
theorem onSide_entry (given : startKey ≠ []) (sorted : (spec dbi).flags.dupSort = true)
    (dup : startDup ≠ []) (reverse : Bool) : onSide dbi startKey startDup reverse
      = fun e => fromEntry dbi e reverse (startKey, startDup) := by
  funext e
  cases reverse <;>
    simp [onSide, given, sorted, dup, inRange, cmpEntry_eq]

include placed given

/-- A reverse scan of a `DUPSORT` table through an overlay. -/
theorem start_reverse_dups (sorted : (spec v.dbi).flags.dupSort = true)
    (overlaid : v.staged.isNone = false ∨ startDup = []) :
    v.Reaches (v.start c startKey startDup true)
      ((v.listed true).find? (onSide v.dbi startKey startDup true)) := by
  by_cases noDup : startDup = []
  · have side : onSide v.dbi startKey startDup true = upToKey v.dbi startKey := by
      funext e
      simp [onSide, given, noDup, cmpKey_eq]
    rw [side]
    simp only [start, given, sorted, noDup, if_false, if_true, Bool.and_false, ne_eq,
      not_true_eq_false, decide_false, Bool.false_eq_true]
    exact reaches_upToKey placed startKey
  obtain ⟨c₁, range, moved⟩ := get_getBothRange placed sorted startKey startDup
  rw [onSide_entry given sorted noDup]
  simp only [start, given, sorted, overlaid.resolve_right noDup, noDup, if_false, if_true,
    Bool.false_and, Bool.false_eq_true, range, bind, Except.bind]
  cases found : ((v.listed false).find? fun e => fromEntry v.dbi e false (startKey, startDup)).filter
      fun e => e.1 = startKey with
  | some f =>
    obtain ⟨first, sameKey⟩ := Option.filter_eq_some_iff.mp found
    have key : f.1 = startKey := by simpa using sameKey
    have held : v.Holds f := mem_listed.mp (mem_of_find?_eq_some first)
    simp only
    split
    · rename_i dup
      have whole : f = (startKey, startDup) := Prod.ext key dup
      have last : ((v.listed true).find? fun e => fromEntry v.dbi e true (startKey, startDup))
          = some f := by
        refine find?_listed held (inRange_inclusive.mpr (Or.inl (by rw [whole]))) ?_
        intro e _ holds
        rcases inRange_inclusive.mp holds with same | less
        · exact Or.inl (entryCode_injective_on sorted (same.symm.trans (by rw [whole])))
        · exact Or.inr (whole ▸ less)
      rw [last]
      exact ⟨c₁, rfl, moved.placed, fun e inside => (moved.found e (found ▸ inside)).1⟩
    · rename_i otherDup
      refine reaches_before moved.placed (fun e member => ?_)
        (fun _ _ holds less => inRange_up holds less) first
        fun e inside => (moved.found e (found ▸ inside)).1
      -- The first entry from the start on is not the start itself, so none is.
      have apart : entryCode v.dbi e ≠ entryCode v.dbi (startKey, startDup) := fun same => by
        have low : entryCode v.dbi (startKey, startDup) ≤ entryCode v.dbi f := by
          simpa [inRange] using find?_some first
        have high := least_listed first member (decide_eq_true same.ge)
        have whole := entryCode_injective_on sorted (le_antisymm (high.trans same.le) low)
        exact otherDup (by rw [whole])
      simpa [inRange] using (lt_iff_le_and_ne.trans (and_iff_left apart)).symm
  | none =>
    have same : ((v.listed true).find? fun e => fromEntry v.dbi e true (startKey, startDup))
        = (v.listed true).find? (upToKey v.dbi startKey) := by
      refine find?_congr fun e member => decide_eq_decide.mpr
        ⟨keyPrefix_le_of_entryCode, fun le => ?_⟩
      rcases le.lt_or_eq with less | same
      · exact (entryCode_lt_of_key less).le
      · exact (no_duplicate found member (keyPrefix_injective same)).le
    rw [same]
    exact reaches_upToKey moved.placed startKey

/-- A forward scan of a `DUPSORT` table through an overlay, or from a whole key. -/
theorem start_forward_dups (sorted : (spec v.dbi).flags.dupSort = true)
    (overlaid : v.staged.isNone = false ∨ startDup = []) :
    v.Reaches (v.start c startKey startDup false)
      ((v.listed false).find? (onSide v.dbi startKey startDup false)) := by
  by_cases noDup : startDup = []
  · have side : onSide v.dbi startKey startDup false = pastKey v.dbi startKey := by
      funext e
      simp [onSide, given, noDup, sorted, cmpKey_eq, cmp_eq_gt_iff]
    rw [side]
    simp only [start, given, sorted, noDup, if_false, if_true, Bool.and_false, ne_eq,
      not_true_eq_false, decide_false, Bool.false_eq_true]
    exact reaches_afterKey sorted placed startKey
  obtain ⟨c₁, range, moved⟩ := get_getBothRange placed sorted startKey startDup
  rw [onSide_entry given sorted noDup]
  simp only [start, given, sorted, overlaid.resolve_right noDup, noDup, if_false, if_true,
    Bool.false_and, Bool.false_eq_true, ne_eq, not_false_eq_true, range, bind, Except.bind]
  cases found : ((v.listed false).find? fun e => fromEntry v.dbi e false (startKey, startDup)).filter
      fun e => e.1 = startKey with
  | some f =>
    rw [(Option.filter_eq_some_iff.mp found).1]
    exact ⟨c₁, rfl, moved.placed, fun e inside => (moved.found e (found ▸ inside)).1⟩
  | none =>
    have same : ((v.listed false).find? fun e => fromEntry v.dbi e false (startKey, startDup))
        = (v.listed false).find? (pastKey v.dbi startKey) := by
      refine find?_congr fun e member => decide_eq_decide.mpr ⟨fun le => ?_, fun less => ?_⟩
      · refine lt_of_le_of_ne (keyPrefix_le_of_entryCode le) fun same => ?_
        exact absurd le (not_le.mpr (no_duplicate found member (keyPrefix_injective same).symm))
      · exact (entryCode_lt_of_key less).le
    rw [same]
    exact reaches_afterKey sorted moved.placed startKey

theorem start_plain (plain : (spec v.dbi).flags.dupSort = false) (reverse : Bool) :
    v.Reaches (v.start c startKey startDup reverse)
      ((v.listed reverse).find? (onSide v.dbi startKey startDup reverse)) := by
  obtain ⟨c₁, range, moved⟩ := get_setRange placed startKey
  cases reverse with
  | false =>
    have side : onSide v.dbi startKey startDup false = fromKey v.dbi startKey := by
      funext e
      simp [onSide, given, plain, cmpKey_eq]
    rw [side]
    simp only [start, given, plain, if_false, Bool.and_false, Bool.false_and, Bool.false_eq_true]
    exact Finds.reaches ⟨c₁, range, moved⟩
  | true =>
    have side : onSide v.dbi startKey startDup true = upToKey v.dbi startKey := by
      funext e
      simp [onSide, given, plain, cmpKey_eq]
    rw [side]
    simp only [start, given, plain, if_false, if_true, Bool.and_false, Bool.false_and,
      Bool.false_eq_true, range, bind, Except.bind]
    cases found : (v.listed false).find? (fromKey v.dbi startKey) with
    | some f =>
      have here := fun e inside => (moved.found e (found ▸ inside)).1
      simp only
      split
      · rename_i key
        have code : ∀ e : Kv, entryCode v.dbi e = keyPrefix v.dbi e.1 := fun e => by
          simp [entryCode, valCode, plain]
        have held : v.Holds f := mem_listed.mp (mem_of_find?_eq_some found)
        have last : (v.listed true).find? (upToKey v.dbi startKey) = some f := by
          refine find?_listed held (by simp [key]) fun e held' holds => ?_
          rcases (of_decide_eq_true holds).lt_or_eq with less | same
          · exact Or.inr (entryCode_lt_of_key (key ▸ less))
          · exact Or.inl (holds_unique held' held (by rw [code, code, same, key]))
        rw [last]
        exact ⟨c₁, rfl, moved.placed, here⟩
      · rename_i otherKey
        refine reaches_before moved.placed (upToKey_outside fun e member => key_ne ?_ member)
          (fromKey_upward startKey) found here
        rw [found, Option.filter_some]
        simp [otherKey]
    | none =>
      refine reaches_before moved.placed (upToKey_outside fun e member => key_ne ?_ member)
        (fromKey_upward startKey) found (by simp)
      rw [found, Option.filter_none]

omit given in
/-- **The start of a scan is the first entry on the right side.** -/
theorem start_eq (startKey startDup : Bytes) (reverse : Bool) :
    v.Reaches (v.start c startKey startDup reverse)
      ((v.listed reverse).find? (onSide v.dbi startKey startDup reverse)) := by
  by_cases given : startKey = []
  · have side : onSide v.dbi startKey startDup reverse = fun _ => true := by
      funext e
      simp [onSide, given]
    rw [side, start, if_pos given]
    exact (get_edge placed reverse).reaches
  cases sorted : (spec v.dbi).flags.dupSort with
  | false => exact start_plain placed given sorted reverse
  | true =>
    by_cases shortcut : v.staged.isNone = true ∧ startDup ≠ []
    · have bound : encode v.dbi startKey (some startDup) = entryKey v.dbi startKey startDup := by
        simp [entryKey, sorted]
      rw [onSide_entry given sorted shortcut.2, start]
      simp only [given, sorted, shortcut.1, shortcut.2, if_false, if_true, ne_eq,
        not_false_eq_true, decide_true, Bool.and_true, bound]
      exact (position_listed placed rfl
        fun e => inRange_entryKey v.dbi e reverse true (startKey, startDup)).reaches
    · have overlaid : v.staged.isNone = false ∨ startDup = [] := by
        cases none : v.staged.isNone with
        | false => exact Or.inl rfl
        | true => exact Or.inr (not_not.mp fun some => shortcut ⟨none, some⟩)
      cases reverse with
      | false => exact start_forward_dups placed given sorted overlaid
      | true => exact start_reverse_dups placed given sorted overlaid

end Start

/-! ### The scan -/

/-- Hands entries to a callback until it stops. -/
def scanFold {σ : Type} (cb : σ → Bytes → Bytes → σ × Bool) : σ → List Kv → σ × Bool
  | s, [] => (s, true)
  | s, e :: l =>
    let (s, goOn) := cb s e.1 e.2
    if goOn = false then (s, false) else scanFold cb s l

theorem scanFold_all {σ : Type} {cb : σ → Bytes → Bytes → σ × Bool}
    (goesOn : ∀ s key dup, (cb s key dup).2 = true) (s : σ) (l : List Kv) :
    scanFold cb s l = (l.foldl (fun s e => (cb s e.1 e.2).1) s, true) := by
  induction l generalizing s with
  | nil => rfl
  | cons e l ih =>
    rw [scanFold, foldl_cons, ← ih]
    simp [goesOn]

theorem foreachFrom_eq {σ : Type} (cb : σ → Bytes → Bytes → σ × Bool) (reverse : Bool) {l : List Kv}
    {q : Kv → Bool} (up : v.Upward reverse q) (scan : (v.listed reverse).filter q = l) {fuel : Nat}
    (enough : l.length ≤ fuel) (placed : v.Placed c)
    (here : ∀ e ∈ l.head?, c.current = some (entryKey v.dbi e.1 e.2)) (s : σ) :
    ∃ c', v.foreachFrom cb reverse fuel c s l.head? = .ok (c', scanFold cb s l) ∧ v.Placed c' := by
  induction l generalizing q fuel c s with
  | nil => exact ⟨c, by cases fuel <;> rfl, placed⟩
  | cons e l ih =>
    obtain _ | fuel := fuel
    · simp at enough
    simp only [head?_cons, foreachFrom, scanFold]
    cases handed : cb s e.1 e.2 with
    | mk s' goOn =>
      cases goOn with
      | false => exact ⟨c, rfl, placed⟩
      | true =>
        obtain ⟨c₁, step, moved⟩ := get_step placed reverse (here e rfl)
        have tail : (v.listed reverse).filter (fun x => pastEntry v.dbi x reverse e) = l :=
          filter_after_head listed_sorted (fun _ _ => before_asymm) up
            (fun _ => inRange_exclusive) scan
        have next : (v.listed reverse).find? (fun x => pastEntry v.dbi x reverse e) = l.head? := by
          rw [← head?_filter, tail]
        rw [next] at step moved
        obtain ⟨c₂, rest, placed'⟩ := ih (fun _ _ holds less => inRange_up holds less) tail
          (by simpa using enough) moved.placed (fun x found => (moved.found x found).1) s'
        refine ⟨c₂, ?_, placed'⟩
        simp [step, bind, Except.bind, rest]

theorem onSide_upward (startKey startDup : Bytes) (reverse : Bool) :
    v.Upward reverse (onSide v.dbi startKey startDup reverse) := by
  intro x y holds less
  unfold onSide at holds ⊢
  cases reverse
  · simp only [Bool.false_eq_true, if_false] at less holds ⊢
    have keys := keyPrefix_le_of_entryCode less.le
    split_ifs at holds ⊢ <;>
      simp only [decide_eq_true_eq, cmpKey_eq, cmpEntry_eq, cmp_ne_lt_iff, cmp_eq_gt_iff]
        at holds ⊢
    · exact holds.trans less.le
    · exact holds.trans_le keys
    · exact holds.trans keys
  · simp only [if_true] at less holds ⊢
    have keys := keyPrefix_le_of_entryCode less.le
    split_ifs at holds ⊢ <;>
      simp only [decide_eq_true_eq, cmpKey_eq, cmpEntry_eq, cmp_ne_gt_iff] at holds ⊢
    · exact less.le.trans holds
    · exact keys.trans holds

theorem listed_length (reverse : Bool) :
    (v.listed reverse).length ≤ v.committed.length + v.stagedRows.length := by
  have same : (v.listed reverse).length = v.entries.length := by
    rw [listed, length_map, travel]
    split <;> simp
  rw [same]
  exact (length_filterMap_le _ _).trans rows_length

/-- **A scan hands over the entries on the right side of its start, in order**, up to the one the
callback stops at. -/
theorem foreach_eq {σ : Type} (placed : v.Placed c) (startKey startDup : Bytes) (reverse : Bool)
    (cb : σ → Bytes → Bytes → σ × Bool) (s : σ) :
    ∃ c', v.foreach c startKey startDup reverse cb s = .ok (c', scanFold cb s
        ((v.listed reverse).filter (onSide v.dbi startKey startDup reverse))) ∧ v.Placed c' := by
  obtain ⟨c₁, first, placed', here⟩ := start_eq placed startKey startDup reverse
  rw [← head?_filter] at first here
  have short : ((v.listed reverse).filter (onSide v.dbi startKey startDup reverse)).length
      ≤ v.committed.length + v.stagedRows.length :=
    (length_filter_le _ _).trans (listed_length reverse)
  obtain ⟨c₂, rest, placed''⟩ := foreachFrom_eq cb reverse
    (onSide_upward startKey startDup reverse) rfl short placed' here s
  exact ⟨c₂, by simp only [foreach, first, bind, Except.bind, rest], placed''⟩

end Listed

end View

/-- **A scan yields the merged logical table from its start on.** For every committed table and
overlay, every cursor of the transaction, every start and direction and every callback that never
stops, the scan ends having handed over, in strictly ascending or descending order, exactly the
entries on the right side of the start. -/
theorem foreach_yields_merged_table (v : View) {c : Cursor} (placed : v.Placed c)
    (startKey startDup : Bytes) (reverse : Bool) {σ : Type} (cb : σ → Bytes → Bytes → σ × Bool)
    (goesOn : ∀ s key dup, (cb s key dup).2 = true) (s : σ) :
    ∃ c', ∃ yielded : List Kv, v.foreach c startKey startDup reverse cb s
        = .ok (c', yielded.foldl (fun s e => (cb s e.1 e.2).1) s, true) ∧
      yielded.Pairwise (fun p q => cmpEntry v.dbi p q = if reverse then .gt else .lt) ∧
      ∀ e, e ∈ yielded ↔ v.Holds e ∧ View.onSide v.dbi startKey startDup reverse e = true := by
  obtain ⟨c', scanned, -⟩ := View.foreach_eq placed startKey startDup reverse cb s
  refine ⟨c', (v.listed reverse).filter (View.onSide v.dbi startKey startDup reverse), ?_, ?_, ?_⟩
  · rw [scanned, View.scanFold_all goesOn]
  · refine (View.listed_sorted.filter _).imp ?_
    intro p q less
    rw [cmpEntry_eq]
    cases reverse
    · exact less.cmp_eq_lt
    · exact less.cmp_eq_gt
  · intro e
    rw [mem_filter, View.mem_listed]

/-- A snapshot of one author's two posts, with a write that replaces the older one. -/
def sampleView : View where
  dbi := 10
  committed := [(entryKey 10 (makeKeyStringU64 [9] 300) (u64NeBytes 2), []),
    (entryKey 10 (makeKeyStringU64 [9] 7) (u64NeBytes 1), [])]
  staged := some [((10, entryKey 10 (makeKeyStringU64 [9] 8) (u64NeBytes 3)), some []),
    ((10, entryKey 10 (makeKeyStringU64 [9] 7) (u64NeBytes 1)), none)]
  committed_sorted := by unfold SortedBy; decide
  committed_stored := by
    intro row member
    simp only [mem_cons, not_mem_nil, or_false] at member
    rcases member with rfl | rfl <;> exact View.stored_duplicate rfl rfl _ _ _
  staged_sorted := by
    rintro s ⟨⟩
    unfold SortedBy
    decide
  staged_stored := by
    rintro s ⟨⟩ row member value present
    have rows : Overlay.rows [((10, entryKey 10 (makeKeyStringU64 [9] 8) (u64NeBytes 3)), some []),
        ((10, entryKey 10 (makeKeyStringU64 [9] 7) (u64NeBytes 1)), none)] (physical 10)
        = [(entryKey 10 (makeKeyStringU64 [9] 8) (u64NeBytes 3), some []),
          (entryKey 10 (makeKeyStringU64 [9] 7) (u64NeBytes 1), none)] := rfl
    rw [rows] at member
    simp only [mem_cons, not_mem_nil, or_false] at member
    rcases member with rfl | rfl
    · exact View.stored_duplicate rfl rfl _ _ _
    · cases present

theorem foreach_yields_sample :
    sampleView.Placed {} ∧
      ∃ c', ∃ yielded : List Kv, sampleView.foreach {} (makeKeyStringU64 [9] (2 ^ 64 - 1))
          (u64NeBytes (2 ^ 64 - 1)) true (fun s key _ => (s ++ [key], true)) []
          = .ok (c', yielded.foldl (fun s e => s ++ [e.1]) [], true) ∧
        yielded.Pairwise (fun p q => cmpEntry 10 p q = .gt) ∧
        ∀ e, e ∈ yielded ↔ sampleView.Holds e ∧ View.onSide 10 (makeKeyStringU64 [9] (2 ^ 64 - 1))
          (u64NeBytes (2 ^ 64 - 1)) true e = true := by
  have fresh : sampleView.Placed {} := by
    intro row member
    cases member
  exact ⟨fresh, foreach_yields_merged_table sampleView fresh _ _ true
    (fun s key _ => (s ++ [key], true)) (fun _ _ _ => rfl) []⟩

end Wok.Db
