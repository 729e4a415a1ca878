/-
**What a transaction shows.**

A write changes one physical row. It changes what one logical table shows there and nothing else: the
table that shares the record keeps its component. So a transaction over the column families shows
logical tables, and a row it stages is a put into them or a delete.

* `View.length_listed` — how the number of entries moves with one row.
* `Writes` — the effect of a put or a delete, in every table.
* `Writes.shows` — **a staged row changes the shown tables as a put or a delete of an entry does.**
-/

import Wok.Db.Rocks

namespace Wok.Db

open Wok.Library List

/-! ### What a row shows -/

/-- The entry that a row of a table shows. -/
def shows (dbi : Nat) (pk : Bytes) (value : Option Bytes) : Option Kv :=
  value.bind fun value =>
    match readRow dbi pk value with
    | .ok entry => entry
    | .error _ => none

namespace View

variable {v v' : View} {pk : Bytes} {e : Kv}

/-- The entry that the merged table shows at a physical key. -/
def shown (v : View) (pk : Bytes) : Option Kv := shows v.dbi pk (v.raw pk)

theorem mem_listed_shown : e ∈ v.listed false ↔ v.shown (entryKey v.dbi e.1 e.2) = some e := by
  rw [mem_listed, Holds, shown, shows, Option.bind_eq_some_iff]
  refine exists_congr fun value => and_congr_right fun _ => ?_
  cases readRow v.dbi (entryKey v.dbi e.1 e.2) value <;> simp

theorem shown_key (found : v.shown pk = some e) : entryKey v.dbi e.1 e.2 = pk := by
  obtain ⟨value, there, read⟩ := Option.bind_eq_some_iff.mp found
  obtain ⟨entry, stored, key⟩ := readRow_stored (rows_stored (raw_eq_some.mp there) rfl)
  rw [stored] at read
  exact (key e read).symm

theorem listed_ordered (v : View) : SortedBy (entryCode v.dbi) (v.listed false) :=
  @listed_sorted v false

theorem listed_nodup : (v.listed false).Nodup := v.listed_ordered.nodup

theorem listed_ext (same : v'.dbi = v.dbi) (raw : ∀ pk, v'.raw pk = v.raw pk) :
    v'.listed false = v.listed false := by
  refine (same ▸ v'.listed_ordered).ext v.listed_ordered fun e => ?_
  rw [mem_listed_shown, mem_listed_shown, shown, shown, raw, same]

/-- Outside the combined records every row shows an entry. -/
theorem isSome_shown (single : combined v.dbi = false) :
    (v.shown pk).isSome = (v.raw pk).isSome := by
  rw [shown]
  cases there : v.raw pk with
  | none => rfl
  | some value =>
    obtain ⟨key, val, rfl, _, plain⟩ := rows_stored (raw_eq_some.mp there) rfl
    obtain ⟨e, decoded⟩ : ∃ e, decode v.dbi (entryKey v.dbi key val) value = .ok e := by
      cases dups : (spec v.dbi).flags.dupSort with
      | true => exact ⟨_, decode_entryKey_of_dupSort v.dbi dups key val value⟩
      | false =>
        obtain rfl := plain single dups
        exact ⟨_, decode_entryKey v.dbi key val⟩
    simp [shows, readRow, single, decoded, Except.map]

theorem map_snd_shown (single : combined v.dbi = false) (plain : (spec v.dbi).flags.dupSort = false) :
    (v.shown pk).map Prod.snd = v.raw pk := by
  rw [shown]
  cases there : v.raw pk with
  | none => rfl
  | some value =>
    obtain ⟨key, val, rfl, _, whole⟩ := rows_stored (raw_eq_some.mp there) rfl
    obtain rfl := whole single plain
    simp [shows, readRow, single, decode_entryKey, Except.map]

/-- The entries are the one shown at a key and those of other keys. -/
theorem perm_shown (v : View) (pk : Bytes) : (v.listed false).Perm ((v.shown pk).toList ++
    (v.listed false).filter fun e => decide (entryKey v.dbi e.1 e.2 ≠ pk)) := by
  refine (perm_ext_iff_of_nodup listed_nodup ?_).mpr fun e => ?_
  · refine List.Nodup.append ?_ (listed_nodup.filter _) fun e first second => ?_
    · cases v.shown pk <;> simp
    · rw [Option.mem_toList] at first
      simpa [shown_key first] using (mem_filter.mp second).2
  · simp only [mem_append, Option.mem_toList, mem_filter, decide_eq_true_eq]
    constructor
    · intro member
      by_cases here : entryKey v.dbi e.1 e.2 = pk
      · exact .inl (here ▸ mem_listed_shown.mp member)
      · exact .inr ⟨member, here⟩
    · rintro (found | ⟨member, _⟩)
      · exact mem_listed_shown.mpr (shown_key found ▸ found)
      · exact member

/-- **The number of entries moves with the row that changes.** -/
theorem length_listed (same : v'.dbi = v.dbi) (others : ∀ other, other ≠ pk →
    v'.raw other = v.raw other) : (v'.listed false).length + (v.shown pk).toList.length
      = (v.listed false).length + (v'.shown pk).toList.length := by
  have rest : ((v'.listed false).filter fun e => decide (entryKey v'.dbi e.1 e.2 ≠ pk)).Perm
      ((v.listed false).filter fun e => decide (entryKey v.dbi e.1 e.2 ≠ pk)) := by
    refine (perm_ext_iff_of_nodup (listed_nodup.filter _) (listed_nodup.filter _)).mpr ?_
    intro e
    simp only [mem_filter, decide_eq_true_eq, mem_listed_shown, shown, same]
    exact and_congr_left fun other => by rw [others _ other]
  have old := (perm_shown v pk).length_eq
  have new := (perm_shown v' pk).length_eq
  rw [length_append] at old new
  rw [rest.length_eq] at new
  omega

end View

/-! ### What a write does -/

/-- One row of a column family has changed, and with it what one table shows. -/
structure Writes (txn txn' : RocksTxn) (dbi : Nat) (pk : Bytes) (entry : Option Kv) : Prop where
  raw : ∀ d other, other ≠ pk → (txn'.view d).raw other = (txn.view d).raw other
  shown : (txn'.view dbi).shown pk = entry
  sibling : ∀ d, d ≠ dbi → (txn'.view d).shown pk = (txn.view d).shown pk

namespace RocksTxn

variable {txn txn' : RocksTxn} {dbi : Nat} {key val pk : Bytes}

theorem lookup_find {β : Type*} (pk : Bytes) (rows : List (Bytes × β)) :
    rows.lookup pk = (rows.find? fun row => decide (row.1 = pk)).map Prod.snd := by
  induction rows with
  | nil => rfl
  | cons row rows ih =>
    rw [lookup_cons_eq, ih, find?_cons]
    by_cases same : row.1 = pk
    · simp [same]
    · simp [same, Ne.symm same]

theorem raw_view (txn : RocksTxn) (dbi : Nat) (pk : Bytes) : (txn.view dbi).raw pk
    = ((txn.staged (physical dbi)).lookup pk).getD ((txn.db.rows (physical dbi)).lookup pk) := by
  have staged : (txn.view dbi).stagedRows = txn.staged (physical dbi) := txn.rows_overlay _
  rw [View.raw, staged, lookup_find, lookup_find]
  cases (txn.staged (physical dbi)).find? (fun row => decide (row.1 = pk)) <;> rfl

variable {noted : Bytes} {value : Option Bytes}
  {readable : ∀ d, physical d = physical dbi → ∀ v ∈ value, Stored d pk v}

theorem raw_stage (d : Nat) (other : Bytes) :
    ((txn.stage dbi noted (pk, value) readable).view d).raw other
    = if physical d = physical dbi ∧ other = pk then value else (txn.view d).raw other := by
  rw [raw_view, raw_view]
  show ((Function.update txn.staged (physical dbi) _ (physical d)).lookup other).getD
    ((txn.db.rows (physical d)).lookup other) = _
  by_cases same : physical d = physical dbi
  · rw [same, Function.update_self, lookup_insertBy]
    by_cases here : other = pk <;> simp [here]
  · rw [Function.update_of_ne same]
    simp [same]

theorem shows_record {d : Nat} (both : combined d = true) (at' : pk = entryKey d key val)
    {old : Option Bytes} {r : Record} (read : recordAt old = .ok r) :
    shows d pk old = (r.part d).map fun v => (key, v) := by
  subst at'
  cases old with
  | none =>
    cases read
    simp [shows, Record.part]
  | some raw =>
    have decoded : decode d (entryKey d key val) [] = .ok (key, []) := by
      rw [entryKey_of_plain d (View.dupSort_of_combined both) key val [], decode_entryKey]
    have read := Record.decode_eq.mp read
    simp [shows, readRow, both, decoded, read, ok_bind, Record.part]

theorem part_setPart {d : Nat} (first : combined d = true) (second : combined dbi = true)
    (r : Record) (val : Option Bytes) :
    (r.setPart dbi val).part d = if d = dbi then val else r.part d := by
  rcases combined_cases first with rfl | rfl <;> rcases combined_cases second with rfl | rfl <;>
    simp [Record.setPart, Record.part]

theorem writes_record (both : combined dbi = true) (at' : pk = entryKey dbi key val) {r : Record}
    (old : recordAt ((txn.view dbi).raw pk) = .ok r) {new : Option Bytes}
    (read : recordAt value = .ok (r.setPart dbi new)) :
    Writes txn (txn.stage dbi noted (pk, value) readable) dbi pk (new.map fun v => (key, v)) where
  raw d other apart := by rw [raw_stage, if_neg fun is => apart is.2]
  shown := by
    rw [View.shown, raw_stage, if_pos ⟨rfl, rfl⟩]
    exact (shows_record both at' read).trans (by rw [part_setPart both both, if_pos rfl])
  sibling d other := by
    rw [View.shown, View.shown, raw_stage]
    by_cases same : physical d = physical dbi
    · have first : combined d = true := ((sharing same).resolve_left other).1
      have there : pk = entryKey d key val := at'.trans (entryKey_combined both first key val val)
      have family : (txn.view d).raw pk = (txn.view dbi).raw pk := by rw [raw_view, raw_view, same]
      rw [if_pos ⟨same, rfl⟩, family]
      refine (shows_record first there read).trans ?_
      rw [part_setPart first both, if_neg other]
      exact (shows_record first there old).symm
    · rw [if_neg fun is => same is.1]
      rfl

/-- Staging a row of a table that has its column family for itself. -/
theorem writes_single (single : combined dbi = false) :
    Writes txn (txn.stage dbi noted (pk, value) readable) dbi pk (shows dbi pk value) where
  raw d other apart := by rw [raw_stage, if_neg fun is => apart is.2]
  shown := by rw [View.shown, raw_stage, if_pos ⟨rfl, rfl⟩]; rfl
  sibling d other := by
    have apart : ¬physical d = physical dbi := fun same =>
      absurd ((sharing same).resolve_left other).2 (by simp [single])
    rw [View.shown, View.shown, raw_stage, if_neg fun is => apart is.1]
    rfl

/-- **A put** makes its table show the entry. -/
theorem putValue_writes {new : Bytes} (fits : combined dbi = true → val.length < 2 ^ 32 - 1)
    (made : txn.putValue dbi (entryKey dbi key val) val = .ok new) (readable) :
    Writes txn (txn.stage dbi key (entryKey dbi key val, some new) readable) dbi (entryKey dbi key val)
      (some (key, val)) := by
  unfold putValue at made
  cases both : combined dbi with
  | true =>
    rw [if_pos both] at made
    obtain ⟨r, old, read⟩ := putPart_spec (fits both) made
    exact writes_record both rfl old read
  | false =>
    rw [both, if_neg (by decide)] at made
    cases made
    have shown : shows dbi (entryKey dbi key val)
        (some (if (spec dbi).flags.dupSort then [] else val)) = some (key, val) := by
      simp only [shows, Option.bind_some, readRow, both]
      cases dups : (spec dbi).flags.dupSort with
      | true => simp [decode_entryKey_of_dupSort dbi dups, Except.map]
      | false => simp [decode_entryKey, Except.map]
    exact shown ▸ writes_single both

/-- **A delete** takes away the entry that its table shows. -/
theorem delValue_writes (made : txn.delValue dbi pk = .ok (some value)) (noted) (readable) :
    Writes txn (txn.stage dbi noted (pk, value) readable) dbi pk none ∧
      ((txn.view dbi).shown pk).isSome = true := by
  unfold delValue at made
  cases old : (txn.view dbi).raw pk with
  | none => simp [old] at made
  | some raw =>
    obtain ⟨key, val, at', _⟩ : Stored dbi pk raw := View.rows_stored (View.raw_eq_some.mp old) rfl
    simp only [old] at made
    cases both : combined dbi with
    | true =>
      rw [if_pos both] at made
      obtain ⟨r, before, some', read⟩ := delPart_spec made
      have shown : (txn.view dbi).shown pk = _ := old ▸ shows_record both at' before
      rw [shown, Option.isSome_map]
      exact ⟨writes_record both at' (old ▸ before) read, some'⟩
    | false =>
      rw [both, if_neg (by decide)] at made
      cases made
      exact ⟨writes_single both, by rw [View.isSome_shown both, old]; rfl⟩

end RocksTxn

namespace Writes

variable {txn txn' : RocksTxn} {dbi : Nat} {pk : Bytes} {entry : Option Kv}

theorem mem_listed (writes : Writes txn txn' dbi pk entry) (e : Kv) :
    e ∈ (txn'.view dbi).listed false ↔
      entry = some e ∨ e ∈ (txn.view dbi).listed false ∧ entryKey dbi e.1 e.2 ≠ pk := by
  rw [View.mem_listed_shown, View.mem_listed_shown]
  show _ ↔ _ ∨ (txn.view dbi).shown (entryKey dbi e.1 e.2) = some e ∧ _
  by_cases here : entryKey dbi e.1 e.2 = pk
  · have there : (txn'.view dbi).shown (entryKey dbi e.1 e.2) = entry := here ▸ writes.shown
    exact ⟨fun found => .inl (there ▸ found), fun found => there.trans
      (found.resolve_right fun old => old.2 here)⟩
  · have kept : (txn'.view dbi).shown (entryKey dbi e.1 e.2)
        = (txn.view dbi).shown (entryKey dbi e.1 e.2) := by
      rw [View.shown, View.shown, writes.raw _ _ here]; rfl
    have elsewhere : entry ≠ some e := fun is =>
      here (View.shown_key (v := txn'.view dbi) (writes.shown.trans is))
    exact ⟨fun found => .inr ⟨kept ▸ found, here⟩, fun found => kept.trans
      (found.resolve_left elsewhere).1⟩

theorem listed_other (writes : Writes txn txn' dbi pk entry) {d : Nat} (other : d ≠ dbi) :
    (txn'.view d).listed false = (txn.view d).listed false := by
  refine (txn'.view d).listed_ordered.ext (txn.view d).listed_ordered fun e => ?_
  rw [View.mem_listed_shown, View.mem_listed_shown]
  show (txn'.view d).shown (entryKey d e.1 e.2) = _ ↔ (txn.view d).shown (entryKey d e.1 e.2) = _
  by_cases here : entryKey d e.1 e.2 = pk
  · rw [here, writes.sibling d other]
  · rw [View.shown, View.shown, writes.raw _ _ here]; rfl

theorem congr (writes : Writes txn txn' dbi pk entry) {txn'' : RocksTxn}
    (same : ∀ d, txn''.view d = txn'.view d) : Writes txn txn'' dbi pk entry where
  raw d other apart := same d ▸ writes.raw d other apart
  shown := same dbi ▸ writes.shown
  sibling d other := same d ▸ writes.sibling d other

end Writes

/-! ### Logical tables -/

variable {dbi : Nat}

theorem entryKey_inj {p q : Kv} :
    entryKey dbi p.1 p.2 = entryKey dbi q.1 q.2 ↔ entryCode dbi p = entryCode dbi q := by
  rw [entryKey_eq_code, entryKey_eq_code]
  split_ifs
  · exact complement_injective.eq_iff
  · rfl

theorem key_of_plain (plain : (spec dbi).flags.dupSort = false) {key key' val val' : Bytes}
    (same : entryKey dbi key val = entryKey dbi key' val') : key = key' := by
  have codes := entryKey_inj (p := (key, val)) (q := (key', val')) |>.mp same
  rw [Tables.entryCode_plain plain, Tables.entryCode_plain plain] at codes
  exact View.keyPrefix_injective codes

namespace Tables

variable {t t' : Tables} {dbi : Nat} {key val : Bytes}

/-- Whether an entry is where one would be put. -/
def has (t : Tables) (dbi : Nat) (key val : Bytes) : Bool :=
  (t.rows dbi).any fun e => entryCode dbi e = entryCode dbi (key, val)

/-- Whether the flags refuse a put: the key has a value, the entry is there, or the last key is no
earlier. -/
def refuses (t : Tables) (flags : PutFlags) (dbi : Nat) (key val : Bytes) : Bool :=
  flags.noOverwrite && (t.get dbi key).isSome || flags.noDupData && t.has dbi key val ||
    flags.append && (t.rows dbi).getLast?.any fun last => keyPrefix dbi key ≤ keyPrefix dbi last.1

/-- A put with flags. The covering index is not written, and the keys of events are local IDs. -/
def putWith (t : Tables) (flags : PutFlags) (dbi : Nat) (key val : Bytes) : Tables :=
  if dbi = coverDbi ∨ combined dbi = true ∧ key.length ≠ 8 ∨ t.refuses flags dbi key val = true then t
  else t.put dbi key val

/-- A delete of one entry, or of all entries of a key. -/
def delWith (t : Tables) (dbi : Nat) (key : Bytes) (val : Option Bytes) : Tables :=
  if dbi = coverDbi then t
  else if (spec dbi).flags.dupSort then val.elim (t.delKey dbi key) (t.delPair dbi key)
  else t.delKey dbi key

/-- What a call does to the logical tables. -/
def apply (t : Tables) : RocksCall → Tables
  | .put dbi key val flags _ => t.putWith flags dbi key val
  | .del dbi key val => t.delWith dbi key val
  | .clear dbi => if dbi = coverDbi then t else t.clear dbi

/-- What transactions do, each committed or aborted. -/
def run (t : Tables) (txns : List (List RocksCall × Bool)) : Tables :=
  txns.foldl (fun t txn => if txn.2 then txn.1.foldl apply t else t) t

/-- The tables without some entries. -/
def without (t : Tables) (dbi : Nat) (entries : List Kv) : Tables :=
  t.keepOnly dbi fun e => ∀ d ∈ entries, entryCode dbi e ≠ entryCode dbi d

theorem keepOnly_congr {keep keep' : Kv → Bool} (same : ∀ e ∈ t.rows dbi, keep e = keep' e) :
    t.keepOnly dbi keep = t.keepOnly dbi keep' := by
  simp only [keepOnly, filter_congr same]

theorem keepOnly_all {keep : Kv → Bool} (all : ∀ e ∈ t.rows dbi, keep e = true) :
    t.keepOnly dbi keep = t := by
  simp only [keepOnly, set, filter_eq_self.mpr all, Function.update_eq_self]

theorem without_absent (absent : t.has dbi key val = false) : t.without dbi [(key, val)] = t :=
  keepOnly_all fun e member => by
    simpa using any_eq_false.mp absent e member

theorem without_pair (dups : (spec dbi).flags.dupSort = true) :
    t.without dbi [(key, val)] = t.delPair dbi key val :=
  keepOnly_congr fun e _ => by
    have codes : entryCode dbi e = entryCode dbi (key, val) ↔ e = (key, val) :=
      ⟨View.entryCode_injective_on dups, congrArg _⟩
    simp [codes]

theorem without_plain (plain : (spec dbi).flags.dupSort = false) :
    t.without dbi [(key, val)] = t.delKey dbi key :=
  keepOnly_congr fun e _ => by
    have codes : keyPrefix dbi e.1 = keyPrefix dbi key ↔ e.1 = key :=
      ⟨View.keyPrefix_injective, congrArg _⟩
    simp [entryCode_plain plain, codes]

/-- All values of a key taken away. -/
theorem without_key (dups : (spec dbi).flags.dupSort = true) {vals : List Bytes}
    (all : ∀ v, (key, v) ∈ t.rows dbi → v ∈ vals) :
    t.without dbi (vals.map fun v => (key, v)) = t.delKey dbi key :=
  keepOnly_congr fun e member => by
    rw [Bool.eq_iff_iff, decide_eq_true_eq, decide_eq_true_eq]
    constructor
    · rintro apart rfl
      exact apart e (mem_map_of_mem (all e.2 member)) rfl
    · intro other d inside same
      obtain ⟨v, _, rfl⟩ := mem_map.mp inside
      exact other (congrArg Prod.fst (View.entryCode_injective_on dups same))

theorem without_all {entries : List Kv}
    (all : ∀ e ∈ t.rows dbi, ∃ d ∈ entries, entryCode dbi e = entryCode dbi d) :
    t.without dbi entries = t.clear dbi :=
  keepOnly_congr fun e member => by
    obtain ⟨d, inside, same⟩ := all e member
    exact decide_eq_false fun apart => apart d inside same

theorem without_cons (d : Kv) (entries : List Kv) :
    (t.without dbi [d]).without dbi entries = t.without dbi (d :: entries) := by
  simp only [without, keepOnly, set, Function.update_self, Function.update_idem, filter_filter]
  congr! 3
  funext e
  rw [Bool.eq_iff_iff]
  simp [and_comm]

theorem has_plain (plain : (spec dbi).flags.dupSort = false) :
    t.has dbi key val = (t.get dbi key).isSome := by
  rw [Bool.eq_iff_iff, get_isSome, has, any_eq_true]
  simp only [decide_eq_true_eq, entryCode_plain plain]
  constructor
  · rintro ⟨e, member, same⟩
    obtain rfl := View.keyPrefix_injective same
    exact ⟨e.2, member⟩
  · rintro ⟨value, member⟩
    exact ⟨_, member, rfl⟩

/-- The tables differ in one entry, at a physical key. -/
structure Changed (t t' : Tables) (dbi : Nat) (pk : Bytes) (entry : Option Kv) : Prop where
  here : ∀ e, e ∈ t'.rows dbi ↔ entry = some e ∨ e ∈ t.rows dbi ∧ entryKey dbi e.1 e.2 ≠ pk
  there : ∀ d, d ≠ dbi → t'.rows d = t.rows d

theorem changed_put (t : Tables) (dbi : Nat) (key val : Bytes) :
    Changed t (t.put dbi key val) dbi (entryKey dbi key val) (some (key, val)) where
  here e := by
    rw [mem_put, Option.some.injEq, eq_comm]
    exact or_congr_right (and_congr_right fun _ => not_congr entryKey_inj.symm)
  there _ other := rows_put_of_ne other

theorem changed_without (t : Tables) (dbi : Nat) (key val : Bytes) :
    Changed t (t.without dbi [(key, val)]) dbi (entryKey dbi key val) none where
  here e := by
    rw [without, mem_keepOnly]
    simpa using fun _ => not_congr (entryKey_inj (p := e) (q := (key, val))).symm
  there _ other := rows_keepOnly_of_ne other

end Tables

/-- The transaction shows these tables. -/
def RocksTxn.Shows (txn : RocksTxn) (t : Tables) : Prop :=
  ∀ dbi, (txn.view dbi).listed false = t.rows dbi

namespace RocksTxn.Shows

variable {txn : RocksTxn} {t : Tables} {dbi : Nat} {key val : Bytes} (shows : txn.Shows t)

include shows

theorem mem_rows {e : Kv} :
    e ∈ t.rows dbi ↔ (txn.view dbi).shown (entryKey dbi e.1 e.2) = some e := by
  rw [← shows dbi, View.mem_listed_shown]
  rfl

theorem isSome_shown :
    ((txn.view dbi).shown (entryKey dbi key val)).isSome = t.has dbi key val := by
  rw [Bool.eq_iff_iff, Option.isSome_iff_exists, Tables.has, any_eq_true]
  simp only [decide_eq_true_eq, shows.mem_rows, ← entryKey_inj]
  constructor
  · rintro ⟨e, found⟩
    have here : entryKey dbi e.1 e.2 = entryKey dbi key val := View.shown_key found
    exact ⟨e, here ▸ found, here⟩
  · rintro ⟨e, found, here⟩
    exact ⟨e, here ▸ found⟩

/-- A table without duplicates shows the value of a key. -/
theorem get_plain (plain : (spec dbi).flags.dupSort = false) :
    t.get dbi key = ((txn.view dbi).shown (entryKey dbi key [])).map Prod.snd := by
  ext value
  rw [Tables.get_plain plain, shows.mem_rows, entryKey_of_plain dbi plain key value [],
    Option.map_eq_some_iff]
  constructor
  · exact fun found => ⟨_, found, rfl⟩
  · rintro ⟨e, found, rfl⟩
    obtain rfl : e.1 = key := key_of_plain plain (View.shown_key found)
    exact found

end RocksTxn.Shows

/-- **A staged row changes the shown tables** in one entry. -/
theorem Writes.shows {txn txn' : RocksTxn} {pk : Bytes} {entry : Option Kv} {t t' : Tables}
    (writes : Writes txn txn' dbi pk entry) (shows : txn.Shows t)
    (changed : t.Changed t' dbi pk entry) : txn'.Shows t' := by
  intro d
  by_cases same : d = dbi
  · subst same
    refine (txn'.view d).listed_ordered.ext (t'.sorted d) fun e => ?_
    rw [writes.mem_listed, changed.here, shows d]
  · rw [writes.listed_other same, shows d, changed.there d same]

theorem Writes.size {txn txn' : RocksTxn} {pk : Bytes} {entry : Option Kv} {t t' : Tables}
    (writes : Writes txn txn' dbi pk entry) (shows : txn.Shows t) (shows' : txn'.Shows t') :
    (t'.rows dbi).length + ((txn.view dbi).shown pk).toList.length
      = (t.rows dbi).length + entry.toList.length := by
  rw [← shows, ← shows', ← writes.shown]
  exact View.length_listed rfl (writes.raw dbi)

end Wok.Db
