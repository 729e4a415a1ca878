/-
**Logical tables.**

The writer works on logical tables: lists of entries in the table's order, as the merged view of
committed rows and overlay presents them (`View.listed`). A `DUPSORT` table holds pairs, the others
one value for each key.

* `mem_put_dup`, `mem_put_plain` — what a put adds and replaces.
* `mem_delPair`, `mem_delKey` — what a delete removes.
* `get_plain` — a lookup in a table without duplicates finds the entry.
* `rows_put_of_ne`, `rows_delKey_of_ne` — **other tables are unchanged.**
* `least_of_head?` — the first entry a scan hands over is before all others.
-/

import Wok.Db.Scan

namespace Wok.Db

open Wok.Library

/-! ### Tables -/

/-- Every table of the database, each in its logical order. -/
structure Tables where
  rows : Nat → List Kv
  sorted : ∀ dbi, SortedBy (entryCode dbi) (rows dbi)

namespace Tables

def empty : Tables := ⟨fun _ => [], fun _ => .nil⟩

variable {l : List Kv}

theorem update_sorted {rows : Nat → List Kv} (sorted : ∀ dbi, SortedBy (entryCode dbi) (rows dbi))
    {dbi : Nat} (here : SortedBy (entryCode dbi) l) (d : Nat) :
    SortedBy (entryCode d) (Function.update rows dbi l d) := by
  by_cases same : d = dbi
  · subst same
    rw [Function.update_self]
    exact here
  · rw [Function.update_of_ne same]
    exact sorted d

/-- One table replaced. -/
def set (t : Tables) (dbi : Nat) (l : List Kv) (here : SortedBy (entryCode dbi) l) : Tables :=
  ⟨Function.update t.rows dbi l, update_sorted t.sorted here⟩

/-- The value of a key: the first duplicate in a `DUPSORT` table. -/
def get (t : Tables) (dbi : Nat) (key : Bytes) : Option Bytes :=
  ((t.rows dbi).find? fun e => e.1 = key).map Prod.snd

/-- `txn.put` without flags. -/
def put (t : Tables) (dbi : Nat) (key val : Bytes) : Tables :=
  t.set dbi (insertBy (entryCode dbi) (key, val) (t.rows dbi)) (sortedBy_insertBy (t.sorted dbi) _)

/-- `txn.put` with `MDB_NOOVERWRITE | MDB_APPEND`: none unless the key is above all others. -/
def putAppend (t : Tables) (dbi : Nat) (key val : Bytes) : Option Tables :=
  if (t.get dbi key).isSome then none
  else if (t.rows dbi).getLast?.any fun last => keyPrefix dbi key ≤ keyPrefix dbi last.1 then none
  else some (t.put dbi key val)

/-- The entries of a table that satisfy `keep`. -/
def keepOnly (t : Tables) (dbi : Nat) (keep : Kv → Bool) : Tables :=
  t.set dbi ((t.rows dbi).filter keep) ((t.sorted dbi).filter keep)

def delPair (t : Tables) (dbi : Nat) (key val : Bytes) : Tables :=
  t.keepOnly dbi fun e => e ≠ (key, val)

def delKey (t : Tables) (dbi : Nat) (key : Bytes) : Tables :=
  t.keepOnly dbi fun e => e.1 ≠ key

/-- Every entry of the table removed. -/
def clear (t : Tables) (dbi : Nat) : Tables := t.keepOnly dbi fun _ => false

/-- The entries a scan hands over, in its order. -/
def scan (t : Tables) (dbi : Nat) (startKey startDup : Bytes) (reverse : Bool) : List Kv :=
  (if reverse then (t.rows dbi).reverse else t.rows dbi).filter
    (View.onSide dbi startKey startDup reverse)

/-! ### What changes -/

variable {t : Tables} {dbi d : Nat} {key val : Bytes} {e : Kv}

@[simp] theorem rows_set_self {here : SortedBy (entryCode dbi) l} :
    (t.set dbi l here).rows dbi = l := Function.update_self ..

theorem rows_set_of_ne {here : SortedBy (entryCode dbi) l} (other : d ≠ dbi) :
    (t.set dbi l here).rows d = t.rows d := Function.update_of_ne other ..

theorem rows_put_of_ne (other : d ≠ dbi) : (t.put dbi key val).rows d = t.rows d :=
  rows_set_of_ne other

theorem rows_keepOnly_of_ne {keep : Kv → Bool} (other : d ≠ dbi) :
    (t.keepOnly dbi keep).rows d = t.rows d := rows_set_of_ne other

theorem rows_delPair_of_ne (other : d ≠ dbi) : (t.delPair dbi key val).rows d = t.rows d :=
  rows_keepOnly_of_ne other

theorem rows_delKey_of_ne (other : d ≠ dbi) : (t.delKey dbi key).rows d = t.rows d :=
  rows_keepOnly_of_ne other

theorem mem_put : e ∈ (t.put dbi key val).rows dbi
    ↔ e = (key, val) ∨ e ∈ t.rows dbi ∧ entryCode dbi e ≠ entryCode dbi (key, val) := by
  rw [put, rows_set_self, mem_insertBy (t.sorted dbi)]

/-- **A put into a `DUPSORT` table adds its pair.** -/
theorem mem_put_dup (dups : (spec dbi).flags.dupSort = true) :
    e ∈ (t.put dbi key val).rows dbi ↔ e = (key, val) ∨ e ∈ t.rows dbi := by
  rw [mem_put]
  constructor
  · rintro (same | ⟨member, _⟩)
    · exact .inl same
    · exact .inr member
  · rintro (same | member)
    · exact .inl same
    · by_cases same : entryCode dbi e = entryCode dbi (key, val)
      · exact .inl (View.entryCode_injective_on dups same)
      · exact .inr ⟨member, same⟩

theorem entryCode_plain (plain : (spec dbi).flags.dupSort = false) :
    entryCode dbi e = keyPrefix dbi e.1 := by
  rw [entryCode, valCode, plain]
  exact List.append_nil _

/-- In a table without duplicates a key has one value. -/
theorem plain_unique (plain : (spec dbi).flags.dupSort = false) {p q : Kv} (left : p ∈ t.rows dbi)
    (right : q ∈ t.rows dbi) (same : p.1 = q.1) : p = q := by
  refine (t.sorted dbi).eq_of_key_eq left right ?_
  rw [entryCode_plain plain, entryCode_plain plain, same]

/-- **A put into a table without duplicates replaces the value of its key.** -/
theorem mem_put_plain (plain : (spec dbi).flags.dupSort = false) :
    e ∈ (t.put dbi key val).rows dbi ↔ e = (key, val) ∨ e ∈ t.rows dbi ∧ e.1 ≠ key := by
  rw [mem_put, entryCode_plain plain, entryCode_plain plain]
  constructor
  · rintro (same | ⟨member, other⟩)
    · exact .inl same
    · exact .inr ⟨member, fun same => other (congrArg _ same)⟩
  · rintro (same | ⟨member, other⟩)
    · exact .inl same
    · exact .inr ⟨member, fun same => other (View.keyPrefix_injective same)⟩

theorem mem_keepOnly {keep : Kv → Bool} :
    e ∈ (t.keepOnly dbi keep).rows dbi ↔ e ∈ t.rows dbi ∧ keep e = true := by
  rw [keepOnly, rows_set_self, List.mem_filter]

theorem mem_delPair : e ∈ (t.delPair dbi key val).rows dbi ↔ e ∈ t.rows dbi ∧ e ≠ (key, val) := by
  rw [delPair, mem_keepOnly, decide_eq_true_eq]

theorem mem_delKey : e ∈ (t.delKey dbi key).rows dbi ↔ e ∈ t.rows dbi ∧ e.1 ≠ key := by
  rw [delKey, mem_keepOnly, decide_eq_true_eq]

/-! ### Lookups -/

theorem mem_of_get (found : t.get dbi key = some val) : (key, val) ∈ t.rows dbi := by
  obtain ⟨row, first, rfl⟩ := Option.map_eq_some_iff.mp found
  have same : row.1 = key := by simpa using List.find?_some first
  subst same
  exact List.mem_of_find?_eq_some first

theorem get_eq_none : t.get dbi key = none ↔ ∀ value, (key, value) ∉ t.rows dbi := by
  rw [get, Option.map_eq_none_iff, List.find?_eq_none]
  constructor
  · intro absent value member
    exact absent _ member (by simp)
  · rintro absent ⟨k, value⟩ member
    simp only [decide_eq_true_eq]
    rintro rfl
    exact absent value member

theorem get_isSome : (t.get dbi key).isSome = true ↔ ∃ value, (key, value) ∈ t.rows dbi := by
  rw [← not_iff_not, Bool.not_eq_true, Option.isSome_eq_false_iff, Option.isNone_iff_eq_none,
    get_eq_none, not_exists]

/-- **A lookup in a table without duplicates finds the entry.** -/
theorem get_plain (plain : (spec dbi).flags.dupSort = false) :
    t.get dbi key = some val ↔ (key, val) ∈ t.rows dbi := by
  refine ⟨mem_of_get, fun member => ?_⟩
  obtain ⟨value, found⟩ := Option.isSome_iff_exists.mp (get_isSome.mpr ⟨val, member⟩)
  have same := plain_unique plain (mem_of_get found) member rfl
  rw [found]
  exact congrArg (fun row => some row.2) same

theorem get_congr {t' : Tables} (same : t'.rows dbi = t.rows dbi) (key : Bytes) :
    t'.get dbi key = t.get dbi key := by rw [get, get, same]

theorem get_put_self (plain : (spec dbi).flags.dupSort = false) :
    (t.put dbi key val).get dbi key = some val :=
  (get_plain plain).mpr ((mem_put_plain plain).mpr (.inl rfl))

theorem get_put_of_ne (plain : (spec dbi).flags.dupSort = false) {k : Bytes} (other : k ≠ key) :
    (t.put dbi key val).get dbi k = t.get dbi k := by
  ext value
  rw [get_plain plain, get_plain plain, mem_put_plain plain]
  constructor
  · rintro (same | ⟨member, _⟩)
    · exact absurd (congrArg Prod.fst same) other
    · exact member
  · exact fun member => .inr ⟨member, other⟩

theorem get_delKey_of_ne (plain : (spec dbi).flags.dupSort = false) {k : Bytes} (other : k ≠ key) :
    (t.delKey dbi key).get dbi k = t.get dbi k := by
  ext value
  rw [get_plain plain, get_plain plain, mem_delKey]
  exact and_iff_left other

/-! ### Scans -/

variable {startKey startDup : Bytes} {reverse : Bool}

theorem mem_scan : e ∈ t.scan dbi startKey startDup reverse
    ↔ e ∈ t.rows dbi ∧ View.onSide dbi startKey startDup reverse e = true := by
  rw [scan, List.mem_filter]
  cases reverse <;> simp

/-- A scan goes through the table in its order, or backwards. -/
theorem scan_sorted (t : Tables) (dbi : Nat) (startKey startDup : Bytes) (reverse : Bool) :
    (t.scan dbi startKey startDup reverse).Pairwise fun p q =>
      if reverse then entryCode dbi q < entryCode dbi p else entryCode dbi p < entryCode dbi q := by
  refine List.Pairwise.filter _ ?_
  cases reverse with
  | false => exact t.sorted dbi
  | true => exact List.pairwise_reverse.mpr (t.sorted dbi)

/-- Where a scan of a `DUPSORT` table from a pair starts. -/
theorem onSide_pair (dups : (spec dbi).flags.dupSort = true) (hasKey : startKey ≠ [])
    (hasDup : startDup ≠ []) : View.onSide dbi startKey startDup reverse e = true
      ↔ if reverse then entryCode dbi e ≤ entryCode dbi (startKey, startDup)
        else entryCode dbi (startKey, startDup) ≤ entryCode dbi e := by
  rw [View.onSide, if_neg hasKey, if_pos ⟨dups, hasDup⟩]
  cases reverse with
  | false =>
    simp only [Bool.false_eq_true, if_false, decide_eq_true_eq, cmpEntry_eq]
    exact View.cmp_ne_lt_iff
  | true =>
    simp only [if_true, decide_eq_true_eq, cmpEntry_eq]
    exact cmp_ne_gt_iff

/-- **The first entry a scan hands over is before all others.** -/
theorem least_of_head? (first : (t.scan dbi startKey startDup reverse).head? = some e) {x : Kv}
    (member : x ∈ t.rows dbi) (side : View.onSide dbi startKey startDup reverse x = true) :
    if reverse then entryCode dbi x ≤ entryCode dbi e else entryCode dbi e ≤ entryCode dbi x := by
  have sorted := scan_sorted t dbi startKey startDup reverse
  have inside := mem_scan.mpr ⟨member, side⟩
  obtain ⟨rest, split⟩ := List.head?_eq_some_iff.mp first
  rw [split] at sorted inside
  rcases List.mem_cons.mp inside with rfl | later
  · cases reverse <;> simp
  · have less := (List.pairwise_cons.mp sorted).1 x later
    cases reverse with
    | false => exact (show entryCode dbi e < entryCode dbi x from less).le
    | true => exact (show entryCode dbi x < entryCode dbi e from less).le

end Tables

end Wok.Db
