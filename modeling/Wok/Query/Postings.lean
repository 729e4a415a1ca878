/-
**Postings.**

What the operations of an `Index` do to its buckets, and why the keys of an event find every filter
that matches it.

* `Index.push_spec`, `Index.remove_spec` — **one bucket changes**, and the table of places with it.
* `NostrFilter.exists_key` — **a filter that matches an event is posted under one of its keys**,
  with a mask that has the event's kind.
* `Index.mem_lookup` — the postings a lookup meets.
-/

import Wok.Query.Monitor

namespace Wok.Query

open Wok.Library Wok.Event List Function

/-! ### Buckets -/

theorem position_eq {n : Nat} (room : n < 2 ^ 32) : position n = .ok n := if_pos room

theorem position_room {n k : Nat} (run : position n = .ok k) : n < 2 ^ 32 := by
  unfold position at run
  split_ifs at run with room
  exact room

section Buckets

variable {κ : Type} [DecidableEq κ] {map : Buckets κ}

theorem bucketOf_insert (key key' : κ) (bucket : List Posting) :
    bucketOf (map.insert key bucket) key' = if key' = key then bucket else bucketOf map key' := by
  unfold bucketOf
  split_ifs with same
  · rw [same, AList.lookup_insert, Option.getD_some]
  · rw [AList.lookup_insert_ne same]

theorem bucketOf_erase (key key' : κ) :
    bucketOf (map.erase key) key' = if key' = key then [] else bucketOf map key' := by
  unfold bucketOf
  split_ifs with same
  · rw [same, AList.lookup_erase, Option.getD_none]
  · rw [AList.lookup_erase_ne same]

theorem found_eq (key : κ) : found map key = bucketOf map key := by
  unfold found
  split_ifs with none
  · have empty : map = ∅ := AList.ext (isEmpty_iff.mp none)
    rw [empty, bucketOf, AList.lookup_empty, Option.getD_none]
  · rfl

theorem pushTo_eq {key : κ} (posting : Posting) (room : (bucketOf map key).length < 2 ^ 32) :
    pushTo map key posting
      = .ok (map.insert key (bucketOf map key ++ [posting]), (bucketOf map key).length) := by
  have last : (bucketOf map key ++ [posting]).length - 1 = (bucketOf map key).length := by simp
  unfold pushTo
  simp only [last, position_eq room]
  rfl

theorem pushTo_room {key : κ} {posting : Posting} {result : Buckets κ × Nat}
    (run : pushTo map key posting = .ok result) : (bucketOf map key).length < 2 ^ 32 := by
  obtain ⟨_, placed, _⟩ := bind_eq_ok.mp run
  have room := position_room placed
  rw [length_append, length_singleton, Nat.add_sub_cancel] at room
  exact room

/-- The map after a removal leaves `bucket` under `key`. -/
theorem bucketOf_afterRemoval (key key' : κ) (bucket : List Posting) :
    bucketOf (if bucket.isEmpty then map.erase key else map.insert key bucket) key'
      = if key' = key then bucket else bucketOf map key' := by
  split_ifs with none same same
  · rw [bucketOf_erase, if_pos same, isEmpty_iff.mp none]
  · rw [bucketOf_erase, if_neg same]
  · rw [bucketOf_insert, if_pos same]
  · rw [bucketOf_insert, if_neg same]

end Buckets

/-! ### Places -/

variable {places : Places} {slot : Nat}

def Posting.ref (p : Posting) : Nat × Nat := (p.slot, p.nth)

/-- Where the referenced posting sits. -/
def placeAt (places : Places) (r : Nat × Nat) : Option Nat := places[r.1]?.bind fun row => row[r.2]?

theorem placeAt_eq {row : List Nat} (there : places[slot]? = some row) (nth : Nat) :
    placeAt places (slot, nth) = row[nth]? := by
  simp [placeAt, there]

theorem placeAt_set (inside : slot < places.length) (row : List Nat) (r : Nat × Nat) :
    placeAt (places.set slot row) r = if r.1 = slot then row[r.2]? else placeAt places r := by
  unfold placeAt
  rw [getElem?_set]
  split_ifs with same other
  · rfl
  · exact absurd same.symm other
  · exact absurd (by assumption : r.1 = slot).symm same
  · rfl

theorem placeAt_push {row : List Nat} (there : places[slot]? = some row) (at' : Nat) :
    placeAt (places.set slot (row ++ [at']))
      = update (placeAt places) (slot, row.length) (some at') := by
  funext r
  rw [placeAt_set (List.getElem?_eq_some_iff.mp there).1, update_apply]
  by_cases same : r.1 = slot
  · obtain ⟨slot', nth⟩ := r
    subst same
    rw [if_pos rfl, placeAt_eq there, getElem?_append]
    simp only [Prod.mk.injEq, true_and, getElem?_singleton]
    split_ifs with before last last last
    · omega
    · rfl
    · rfl
    · omega
    · omega
    · exact (getElem?_eq_none (by omega)).symm
  · rw [if_neg same, if_neg fun eq => same (congrArg Prod.fst eq)]

theorem setPlace_spec {r : Nat × Nat} (at' : Nat) (there : placeAt places r ≠ none) :
    ∃ places', setPlace places r.1 r.2 at' = .ok places' ∧
      placeAt places' = update (placeAt places) r (some at') ∧
      places'.map List.length = places.map List.length := by
  obtain ⟨old, found⟩ := Option.ne_none_iff_exists'.mp there
  obtain ⟨row, here, placed⟩ := Option.bind_eq_some_iff.mp found
  have inside := (List.getElem?_eq_some_iff.mp here).1
  have wide := (List.getElem?_eq_some_iff.mp placed).1
  refine ⟨places.set r.1 (row.set r.2 at'), ?_, ?_, ?_⟩
  · simp only [setPlace, here, okOr_some, ok_bind, ensure_of wide]
    rfl
  · funext r'
    rw [placeAt_set inside, update_apply, getElem?_set]
    by_cases same : r' = r
    · subst same
      simp [wide]
    · rw [if_neg same]
      by_cases slot : r'.1 = r.1
      · have other : r.2 ≠ r'.2 := fun nth => same (Prod.ext slot nth.symm)
        rw [if_pos slot, if_neg other, ← placeAt_eq here, ← slot]
      · rw [if_neg slot]
  · apply ext_getElem?
    intro j
    rw [getElem?_map, getElem?_map, getElem?_set]
    split_ifs with same
    · subst same
      simp [here]
    · rfl

theorem swapRemoveAt_spec {bucket : List Posting} {at' : Nat} (inside : at' < bucket.length)
    (placed : ∀ p ∈ bucket, placeAt places p.ref ≠ none) :
    ∃ places', swapRemoveAt bucket at' places = .ok (swapRemove bucket at', places') ∧
      placeAt places' = Tracks.placesAfter Posting.ref (placeAt places) (swapRemove bucket at')[at']?
        at' ∧
      places'.map List.length = places.map List.length := by
  unfold swapRemoveAt
  rw [ensure_of inside, ok_bind]
  cases moved : (swapRemove bucket at')[at']? with
  | none => exact ⟨places, by simp only [moved]; rfl, rfl, rfl⟩
  | some p =>
    have member : p ∈ bucket := by
      rw [getElem?_swapRemove inside, if_pos rfl] at moved
      split_ifs at moved
      exact mem_of_getElem? moved
    obtain ⟨places', run, views, rows⟩ := setPlace_spec at' (placed p member)
    refine ⟨places', ?_, views, rows⟩
    have run' : setPlace places p.slot p.nth at' = .ok places' := run
    simp only [moved, run', ok_bind]
    rfl

theorem removeFrom_spec {κ : Type} [DecidableEq κ] {map : Buckets κ} {key : κ} {at' : Nat}
    (inside : at' < (bucketOf map key).length)
    (placed : ∀ p ∈ bucketOf map key, placeAt places p.ref ≠ none) :
    ∃ map' places', removeFrom map key at' places = .ok (map', places') ∧
      (∀ key', bucketOf map' key'
        = if key' = key then swapRemove (bucketOf map key) at' else bucketOf map key') ∧
      placeAt places' = Tracks.placesAfter Posting.ref (placeAt places)
        (swapRemove (bucketOf map key) at')[at']? at' ∧
      places'.map List.length = places.map List.length := by
  cases there : map.lookup key with
  | none => simp [bucketOf, there] at inside
  | some bucket =>
    have same : bucketOf map key = bucket := by simp [bucketOf, there]
    rw [same] at inside placed ⊢
    obtain ⟨places', run, views, rows⟩ := swapRemoveAt_spec inside placed
    refine ⟨_, places', ?_, fun key' => bucketOf_afterRemoval key key' (swapRemove bucket at'),
      views, rows⟩
    simp only [removeFrom, there, okOr_some, ok_bind, run]
    rfl

/-! ### Keys -/

namespace Key

/-- Ids and authors have the size of the map's keys. -/
def Sized : Key → Prop
  | id bytes => bytes.length = 32
  | author bytes => bytes.length = 32
  | _ => True

def isTag : Key → Bool
  | tag _ _ => true
  | _ => false

/-- What the key adds to `tagPostings`. -/
def tags (key : Key) : Nat := if key.isTag then 1 else 0

end Key

/-- The keys of an event. -/
def eventKeys (packed : PackedEvent) : List Key :=
  [.id packed.id, .author packed.pubkey] ++ packed.filterTags.map (fun tag => .tag tag.name tag.value)
    ++ [.kind packed.kind, .any]

theorem key32_eq {bytes : Bytes} (sized : bytes.length = 32) : key32 bytes = .ok bytes :=
  if_pos sized

/-! ### Operations of the index -/

namespace Index

variable {key : Key}

/-- The postings under a key. -/
def bucket (ix : Index) : Key → List Posting
  | .id id => bucketOf ix.ids id
  | .author pubkey => bucketOf ix.authors pubkey
  | .tag name value => bucketOf (ix.tags name) value
  | .kind kind => bucketOf ix.kinds kind
  | .any => ix.any

theorem push_spec (ix : Index) (posting : Posting) (sized : key.Sized)
    (room : (ix.bucket key).length < 2 ^ 32) :
    ∃ ix', ix.push key posting = .ok (ix', (ix.bucket key).length) ∧
      ix'.bucket = update ix.bucket key (ix.bucket key ++ [posting]) ∧
      ix'.tagPostings = ix.tagPostings + key.tags := by
  cases key with
  | id id =>
    refine ⟨{ ix with ids := ix.ids.insert id (bucketOf ix.ids id ++ [posting]) }, ?_, ?_, rfl⟩
    · simp only [push, key32_eq sized, ok_bind, pushTo_eq posting room]
      rfl
    · funext key
      cases key <;> simp [bucket, update_apply, bucketOf_insert]
  | author pubkey =>
    refine ⟨{ ix with authors := ix.authors.insert pubkey (bucketOf ix.authors pubkey ++ [posting]) },
      ?_, ?_, rfl⟩
    · simp only [push, key32_eq sized, ok_bind, pushTo_eq posting room]
      rfl
    · funext key
      cases key <;> simp [bucket, update_apply, bucketOf_insert]
  | tag name value =>
    refine ⟨{ ix with
      tags := update ix.tags name
        ((ix.tags name).insert value (bucketOf (ix.tags name) value ++ [posting]))
      tagPostings := ix.tagPostings + 1 }, ?_, ?_, rfl⟩
    · simp only [push, ok_bind, pushTo_eq posting room]
      rfl
    · funext key
      cases key with
      | tag name' value' =>
        by_cases same : name' = name
        · subst same
          simp [bucket, update_apply, bucketOf_insert]
        · simp [bucket, same]
      | _ => simp [bucket]
  | kind kind =>
    refine ⟨{ ix with kinds := ix.kinds.insert kind (bucketOf ix.kinds kind ++ [posting]) }, ?_, ?_,
      rfl⟩
    · simp only [push, ok_bind, pushTo_eq posting room]
      rfl
    · funext key
      cases key <;> simp [bucket, update_apply, bucketOf_insert]
  | any =>
    refine ⟨{ ix with any := ix.any ++ [posting] }, ?_, ?_, rfl⟩
    · have last : (ix.any ++ [posting]).length - 1 = ix.any.length := by simp
      have at' : position ix.any.length = .ok ix.any.length := position_eq room
      simp only [push, last, at', ok_bind]
      rfl
    · funext key
      cases key <;> simp [bucket]

/-- A push that does not panic had room in its bucket. -/
theorem push_room (ix : Index) {posting : Posting} {result : Index × Nat}
    (run : ix.push key posting = .ok result) : (ix.bucket key).length < 2 ^ 32 := by
  cases key with
  | id | author =>
    simp only [push, bind_eq_ok, Prod.exists] at run
    obtain ⟨key, sized, _, _, pushed, _⟩ := run
    unfold key32 at sized
    split_ifs at sized
    obtain rfl := Except.ok.inj sized
    exact pushTo_room pushed
  | tag | kind =>
    simp only [push, bind_eq_ok, Prod.exists] at run
    obtain ⟨_, _, pushed, _⟩ := run
    exact pushTo_room pushed
  | any =>
    simp only [push, bind_eq_ok] at run
    obtain ⟨_, placed, _⟩ := run
    have room := position_room placed
    rw [length_append, length_singleton, Nat.add_sub_cancel] at room
    exact room

theorem remove_spec (ix : Index) {at' : Nat} {places : Places}
    (inside : at' < (ix.bucket key).length) (counted : key.tags ≤ ix.tagPostings)
    (placed : ∀ p ∈ ix.bucket key, placeAt places p.ref ≠ none) :
    ∃ ix' places', ix.remove key at' places = .ok (ix', places') ∧
      ix'.bucket = update ix.bucket key (swapRemove (ix.bucket key) at') ∧
      ix'.tagPostings = ix.tagPostings - key.tags ∧
      placeAt places' = Tracks.placesAfter Posting.ref (placeAt places)
        (swapRemove (ix.bucket key) at')[at']? at' ∧
      places'.map List.length = places.map List.length := by
  cases key with
  | id id =>
    obtain ⟨map, places', run, buckets, views, rows⟩ := removeFrom_spec inside placed
    refine ⟨{ ix with ids := map }, places', ?_, ?_, rfl, views, rows⟩
    · simp only [remove, run, ok_bind]
      rfl
    · funext key
      cases key <;> simp [bucket, update_apply, buckets]
  | author pubkey =>
    obtain ⟨map, places', run, buckets, views, rows⟩ := removeFrom_spec inside placed
    refine ⟨{ ix with authors := map }, places', ?_, ?_, rfl, views, rows⟩
    · simp only [remove, run, ok_bind]
      rfl
    · funext key
      cases key <;> simp [bucket, update_apply, buckets]
  | tag name value =>
    obtain ⟨map, places', run, buckets, views, rows⟩ := removeFrom_spec inside placed
    refine ⟨{ ix with
      tags := update ix.tags name map
      tagPostings := ix.tagPostings - 1 }, places', ?_, ?_, rfl, views, rows⟩
    · have count : checkedSub ix.tagPostings 1 = .ok (ix.tagPostings - 1) := checkedSub_of_le counted
      simp only [remove, count, run, ok_bind]
      rfl
    · funext key
      cases key with
      | tag name' value' =>
        by_cases same : name' = name
        · subst same
          simp [bucket, update_apply, buckets]
        · simp [bucket, same]
      | _ => simp [bucket]
  | kind kind =>
    obtain ⟨map, places', run, buckets, views, rows⟩ := removeFrom_spec inside placed
    refine ⟨{ ix with kinds := map }, places', ?_, ?_, rfl, views, rows⟩
    · simp only [remove, run, ok_bind]
      rfl
    · funext key
      cases key <;> simp [bucket, update_apply, buckets]
  | any =>
    obtain ⟨places', run, views, rows⟩ := swapRemoveAt_spec inside placed
    refine ⟨{ ix with any := swapRemove ix.any at' }, places', ?_, ?_, rfl, views, rows⟩
    · have run' : swapRemoveAt ix.any at' places = .ok (swapRemove ix.any at', places') := run
      simp only [remove, run', ok_bind]
      rfl
    · funext key
      cases key <;> simp [bucket]

/-- **The postings a lookup meets** are those under the keys of the event. -/
theorem mem_lookup {ix : Index} (counted : ix.tagPostings = 0 →
      ∀ name value, ix.bucket (.tag name value) = []) {packed : PackedEvent} {p : Posting} :
    p ∈ ix.lookup packed ↔ ∃ key ∈ eventKeys packed, p ∈ ix.bucket key := by
  have tags : p ∈ (if ix.tagPostings ≠ 0 then
      packed.filterTags.flatMap fun tag => found (ix.tags tag.name) tag.value else [])
      ↔ ∃ tag ∈ packed.filterTags, p ∈ ix.bucket (.tag tag.name tag.value) := by
    by_cases none : ix.tagPostings = 0
    · simp [none, counted none]
    · simp [none, found_eq, bucket]
  rw [← mem_flatMap]
  unfold lookup eventKeys
  rw [mem_append, mem_append, mem_append, mem_append, tags]
  simp [flatMap_map, bucket, found_eq, or_assoc]

end Index

/-! ### Kinds -/

theorem kindBit_ne_zero (kind : Nat) : kindBit kind ≠ 0 := by
  unfold kindBit
  generalize BitVec.ofNat 64 kind * 0x9E3779B97F4A7C15#64 = hash
  have small : (hash >>> 58).toNat < 64 := by
    rw [BitVec.toNat_ushiftRight, Nat.shiftRight_eq_div_pow]
    have := hash.isLt
    omega
  intro zero
  have bit := congrArg (fun v : BitVec 64 => v.getLsbD (hash >>> 58).toNat) zero
  rw [BitVec.toNat_ushiftRight] at small
  simp at bit
  omega

theorem or_and_of_right {w : Nat} (mask bit : BitVec w) : (mask ||| bit) &&& bit = bit := by
  ext i inside
  simp
  tauto

theorem or_and_of_left {w : Nat} {mask bit : BitVec w} (other : BitVec w)
    (kept : mask &&& bit = bit) : (mask ||| other) &&& bit = bit := by
  rw [← kept]
  ext i inside
  simp
  tauto

/-- The bits of a mask stay, and those of the listed kinds are added. -/
theorem and_foldl_kindBit (kinds : List Nat) (mask : BitVec 64) (kind : Nat)
    (listed : kind ∈ kinds ∨ mask &&& kindBit kind = kindBit kind) :
    kinds.foldl (fun mask kind => mask ||| kindBit kind) mask &&& kindBit kind = kindBit kind := by
  induction kinds generalizing mask with
  | nil => simpa using listed
  | cons first kinds ih =>
    apply ih
    rcases listed with member | kept
    · rcases mem_cons.mp member with rfl | member
      · exact .inr (or_and_of_right mask _)
      · exact .inl member
    · exact .inr (or_and_of_left _ kept)

theorem kindMask_ne_zero {f : NostrFilter} {kind : Nat}
    (taken : f.kinds.all (fun kinds => kinds.doesMatch kind) = true) :
    kindMask f &&& kindBit kind ≠ 0 := by
  unfold kindMask
  cases listed : f.kinds with
  | none =>
    rw [BitVec.allOnes_and]
    exact kindBit_ne_zero kind
  | some kinds =>
    rw [listed] at taken
    have member : kind ∈ kinds.items := contains_iff_mem.mp taken
    rw [and_foldl_kindBit kinds.items 0 kind (.inl member)]
    exact kindBit_ne_zero kind

/-! ### The keys of a filter -/

namespace NostrFilter

/-- The keys a filter is posted under. -/
def keys (f : NostrFilter) : List Key := (forEachKey f).toOption.getD []

/-- The condition of the filter that its keys are taken from. -/
inductive KeysFrom (f : NostrFilter) : List Key → Prop
  | ids {set : FilterSetBytes} (listed : f.ids = some set) : KeysFrom f (set.items.map .id)
  | authors {set : FilterSetBytes} (listed : f.authors = some set) :
    KeysFrom f (set.items.map .author)
  | allOf {letter : Byte} {set : FilterSetBytes} {value : Bytes} (listed : (letter, set) ∈ f.andTags)
    (member : value ∈ set.items) : KeysFrom f [.tag letter value]
  | anyOf {letter : Byte} {set : FilterSetBytes} (listed : (letter, set) ∈ f.tags) :
    KeysFrom f (set.items.map (.tag letter))
  | kinds {set : FilterSetUint} (listed : f.kinds = some set) : KeysFrom f (set.items.map .kind)
  | any : KeysFrom f [.any]

variable {f : NostrFilter}

theorem Parsed.exists_keysFrom (parsed : f.Parsed) :
    ∃ keys, forEachKey f = .ok keys ∧ KeysFrom f keys := by
  unfold forEachKey
  split
  · exact ⟨_, rfl, .ids (by assumption)⟩
  · split
    · exact ⟨_, rfl, .authors (by assumption)⟩
    · split
      · rename_i name values rest first
        have listed : (name, values) ∈ f.andTags := first ▸ mem_cons_self ..
        obtain ⟨value, items, same⟩ := exists_cons_of_ne_nil (parsed.andTags_nonempty listed)
        exact ⟨[.tag name value], by rw [same]; rfl, .allOf listed (same ▸ mem_cons_self ..)⟩
      · split
        · exact ⟨_, rfl, .anyOf (argmin_mem (by assumption))⟩
        · split
          · exact ⟨_, rfl, .kinds (by assumption)⟩
          · exact ⟨_, rfl, .any⟩

theorem Parsed.forEachKey_eq (parsed : f.Parsed) : forEachKey f = .ok f.keys := by
  obtain ⟨keys, run, _⟩ := parsed.exists_keysFrom
  rw [NostrFilter.keys, run]
  rfl

theorem Parsed.keysFrom (parsed : f.Parsed) : KeysFrom f f.keys := by
  obtain ⟨keys, run, source⟩ := parsed.exists_keysFrom
  rw [NostrFilter.keys, run]
  exact source

theorem Parsed.keys_sized (parsed : f.Parsed) : ∀ key ∈ f.keys, key.Sized := by
  intro key member
  have source := parsed.keysFrom
  generalize f.keys = keys at member source
  cases source with
  | ids listed =>
    obtain ⟨id, inside, rfl⟩ := mem_map.mp member
    exact parsed.ids_size listed id inside
  | authors listed =>
    obtain ⟨pubkey, inside, rfl⟩ := mem_map.mp member
    exact parsed.authors_size listed pubkey inside
  | allOf | any =>
    rw [mem_singleton.mp member]
    exact trivial
  | anyOf | kinds =>
    obtain ⟨_, _, rfl⟩ := mem_map.mp member
    exact trivial

/-- The conditions of a filter that matches. -/
structure Holds (f : NostrFilter) (ev : PackedEvent) : Prop where
  ids : ∀ set, f.ids = some set → ev.id ∈ set.items
  authors : ∀ set, f.authors = some set → ev.pubkey ∈ set.items
  kinds : f.kinds.all (fun kinds => kinds.doesMatch ev.kind) = true
  anyOf : ∀ letter set, (letter, set) ∈ f.tags →
    ∃ tag ∈ ev.filterTags, tag.name = letter ∧ tag.value ∈ set.items
  allOf : ∀ letter set, (letter, set) ∈ f.andTags → ∀ value ∈ set.items,
    ∃ tag ∈ ev.filterTags, tag.name = letter ∧ tag.value = value

variable {ev : PackedEvent}

theorem Holds.of_doesMatch (holds : f.doesMatchWithoutSearch ev = true) : f.Holds ev := by
  simp only [doesMatchWithoutSearch, Bool.and_eq_true, all_eq_true] at holds
  obtain ⟨⟨⟨⟨⟨_, ids⟩, authors⟩, kinds⟩, anyOf⟩, allOf⟩ := holds
  refine ⟨fun set listed => ?_, fun set listed => ?_, kinds, fun letter set listed => ?_,
    fun letter set listed value member => ?_⟩
  · rw [listed] at ids
    exact contains_iff_mem.mp ids
  · rw [listed] at authors
    exact contains_iff_mem.mp authors
  · simpa [hasTagIn, FilterSetBytes.doesMatch] using anyOf _ listed
  · simpa [hasTag] using allOf _ listed value member

/-- **A filter that matches an event is posted under one of its keys.** -/
theorem exists_key (parsed : f.Parsed) (holds : f.Holds ev) : ∃ key ∈ f.keys, key ∈ eventKeys ev := by
  have source := parsed.keysFrom
  generalize f.keys = keys at source
  have ofTag : ∀ tag ∈ ev.filterTags, Key.tag tag.name tag.value ∈ eventKeys ev := by
    intro tag member
    simp only [eventKeys, mem_append, mem_map]
    exact .inl (.inr ⟨tag, member, rfl⟩)
  cases source with
  | ids listed => exact ⟨.id ev.id, mem_map_of_mem (holds.ids _ listed), by simp [eventKeys]⟩
  | authors listed =>
    exact ⟨.author ev.pubkey, mem_map_of_mem (holds.authors _ listed), by simp [eventKeys]⟩
  | allOf listed member =>
    obtain ⟨tag, inside, rfl, rfl⟩ := holds.allOf _ _ listed _ member
    exact ⟨_, mem_singleton_self _, ofTag tag inside⟩
  | anyOf listed =>
    obtain ⟨tag, inside, rfl, value⟩ := holds.anyOf _ _ listed
    exact ⟨_, mem_map_of_mem value, ofTag tag inside⟩
  | kinds listed =>
    have taken := holds.kinds
    rw [listed] at taken
    exact ⟨.kind ev.kind, mem_map_of_mem (contains_iff_mem.mp taken), by simp [eventKeys]⟩
  | any => exact ⟨.any, mem_singleton_self _, by simp [eventKeys]⟩

end NostrFilter

end Wok.Query
