/-
**The index of the open subscriptions.**

Both indexes together hold one posting for every key of every filter of every occupied slot, and
the places say where each one sits. Taking a subscription out of its slot, and putting one into an
empty slot, keep this.

* `Indexed` — the postings are those of the subscriptions in the slots.
* `uninstall_spec`, `install_spec` — **both loops run through and keep the index right.**
* `collect_spec` — **the candidates of an event**: the slots with a posting under one of
  its keys whose mask has its kind.
-/

import Mathlib.Algebra.Order.BigOperators.Group.List
import Wok.Query.Postings

namespace Wok.Query

open Wok.Library Wok.Event List Function

/-! ### Entries -/

/-- What one posting of a subscription says: its index, its key and its mask. -/
structure Entry where
  searching : Bool
  key : Key
  kinds : BitVec 64

def NostrFilter.entries (f : NostrFilter) : List Entry :=
  f.keys.map fun key => ⟨f.search.isSome, key, kindMask f⟩

def NostrFilterGroup.entries (g : NostrFilterGroup) : List Entry :=
  g.filters.flatMap NostrFilter.entries

theorem NostrFilterGroup.entries_sized (g : NostrFilterGroup) : ∀ e ∈ g.entries, e.key.Sized := by
  intro e member
  obtain ⟨f, inside, member⟩ := mem_flatMap.mp member
  obtain ⟨key, listed, rfl⟩ := mem_map.mp member
  exact (g.parsed f inside).keys_sized key listed

/-- The index a posting is in, and its key there. -/
abbrev PostKey := Bool × Key

def Entry.postKey (e : Entry) : PostKey := (e.searching, e.key)

/-- The posting with reference `r` that an entry stands for. -/
def Entry.posting (e : Entry) (r : Nat × Nat) : PostKey × Posting :=
  (e.postKey, ⟨r.1, r.2, e.kinds⟩)

/-- What an entry adds to the count of tag postings of an index. -/
def Entry.tagsIn (searching : Bool) (e : Entry) : Nat :=
  if e.searching = searching then e.key.tags else 0

/-! ### One entry -/

namespace ActiveMonitors

variable {m' : ActiveMonitors}

def bucket (m : ActiveMonitors) (k : PostKey) : List Posting := (m.indexFor k.1).bucket k.2

section SetIndex

variable (m : ActiveMonitors) (s : Bool) (ix : Index) (places : Places)

theorem indexFor_setIndex (s' : Bool) :
    (m.setIndex s ix places).indexFor s' = if s' = s then ix else m.indexFor s' := by
  cases s <;> cases s' <;> rfl

theorem places_setIndex : (m.setIndex s ix places).places = places := by
  cases s <;> rfl

variable {m s ix} in
theorem bucket_setIndex {key : Key} {b : List Posting}
    (changed : ix.bucket = update (m.indexFor s).bucket key b) :
    (m.setIndex s ix places).bucket = update m.bucket (s, key) b := by
  funext ⟨s', key'⟩
  rw [bucket, indexFor_setIndex, update_apply]
  by_cases same : s' = s
  · subst same
    rw [if_pos rfl, changed, update_apply]
    by_cases here : key' = key
    · rw [if_pos here, if_pos (by rw [here])]
    · rw [if_neg here, if_neg fun eq => here (congrArg Prod.snd eq)]
      rfl
  · rw [if_neg same, if_neg fun eq => same (congrArg Prod.fst eq)]
    rfl

end SetIndex

/-- Only the indexes and the places differ. -/
structure SameSubs (m m' : ActiveMonitors) : Prop where
  conns : m'.conns = m.conns
  slots : m'.slots = m.slots
  free : m'.free = m.free
  seen : m'.seen = m.seen
  pass : m'.pass = m.pass
  maxSubs : m'.maxSubs = m.maxSubs
  contentSubscriptions : m'.contentSubscriptions = m.contentSubscriptions

theorem SameSubs.refl (m : ActiveMonitors) : SameSubs m m := ⟨rfl, rfl, rfl, rfl, rfl, rfl, rfl⟩

theorem SameSubs.trans {m m'' : ActiveMonitors} (first : SameSubs m m') (second : SameSubs m' m'') :
    SameSubs m m'' where
  conns := second.conns.trans first.conns
  slots := second.slots.trans first.slots
  free := second.free.trans first.free
  seen := second.seen.trans first.seen
  pass := second.pass.trans first.pass
  maxSubs := second.maxSubs.trans first.maxSubs
  contentSubscriptions := second.contentSubscriptions.trans first.contentSubscriptions

theorem sameSubs_setIndex (m : ActiveMonitors) (s : Bool) (ix : Index) (places : Places) :
    SameSubs m (m.setIndex s ix places) := by
  cases s <;> exact ⟨rfl, rfl, rfl, rfl, rfl, rfl, rfl⟩

/-- The postings of `m` are those that `live` says. -/
abbrev Posted (m : ActiveMonitors) (live : Nat × Nat → Option (PostKey × Posting)) : Prop :=
  Tracks Posting.ref m.bucket (placeAt m.places) live

def installEntry (slot : Nat) (m : ActiveMonitors) (e : Entry) : Except Panic ActiveMonitors :=
  installKey slot e.searching e.kinds m e.key

variable {m : ActiveMonitors} {slot : Nat} {live : Nat × Nat → Option (PostKey × Posting)}
variable {e : Entry} {row : List Nat}

theorem installEntry_spec (posted : Posted m live) (here : m.places[slot]? = some row)
    (fresh : live (slot, row.length) = none) (sized : e.key.Sized)
    (room : (m.bucket (e.searching, e.key)).length < 2 ^ 32) (short : row.length < 2 ^ 32) :
    ∃ m' at', installEntry slot m e = .ok m' ∧ SameSubs m m' ∧
      Posted m' (update live (slot, row.length) (some (e.posting (slot, row.length)))) ∧
      m'.places = m.places.set slot (row ++ [at']) ∧
      ∀ s, (m'.indexFor s).tagPostings = (m.indexFor s).tagPostings + e.tagsIn s := by
  obtain ⟨ix, run, buckets, count⟩ :=
    (m.indexFor e.searching).push_spec ⟨slot, row.length, e.kinds⟩ sized room
  have inside := (List.getElem?_eq_some_iff.mp here).1
  refine ⟨m.setIndex e.searching ix (m.places.set slot (row ++ [(m.bucket (e.searching, e.key)).length])),
    (m.bucket (e.searching, e.key)).length, ?_, sameSubs_setIndex .., ?_, places_setIndex .., fun s => ?_⟩
  · simp only [installEntry, installKey, here, okOr_some, ok_bind, position_eq short, run]
    rfl
  · have pushed := posted.push (k := (e.searching, e.key)) (a := ⟨slot, row.length, e.kinds⟩) fresh
    refine pushed.congr (bucket_setIndex _ buckets) rfl fun r _ => ?_
    rw [places_setIndex, placeAt_push here]
    rfl
  · rw [indexFor_setIndex, Entry.tagsIn]
    by_cases same : s = e.searching
    · rw [if_pos same, if_pos same.symm, count, same]
    · rw [if_neg same, if_neg fun eq => same eq.symm, Nat.add_zero]

/-- An entry installed without a panic had room. -/
theorem installEntry_room (here : m.places[slot]? = some row)
    (run : installEntry slot m e = .ok m') :
    (m.bucket (e.searching, e.key)).length < 2 ^ 32 ∧ row.length < 2 ^ 32 := by
  simp only [installEntry, installKey, here, okOr_some, ok_bind, bind_eq_ok, Prod.exists] at run
  obtain ⟨_, placed, _, _, pushed, _⟩ := run
  exact ⟨Index.push_room _ pushed, position_room placed⟩

/-- `live` with the entries of `slot` from its `n`th on. -/
def withEntries (live : Nat × Nat → Option (PostKey × Posting)) (slot n : Nat) (es : List Entry)
    (r : Nat × Nat) : Option (PostKey × Posting) :=
  if r.1 = slot ∧ n ≤ r.2 ∧ r.2 < n + es.length then es[r.2 - n]?.map fun e => e.posting r
  else live r

/-- `live` without them. -/
def withoutEntries (live : Nat × Nat → Option (PostKey × Posting)) (slot n : Nat) (es : List Entry)
    (r : Nat × Nat) : Option (PostKey × Posting) :=
  if r.1 = slot ∧ n ≤ r.2 ∧ r.2 < n + es.length then none else live r

theorem withEntries_cons (n : Nat) (e : Entry) (es : List Entry) :
    withEntries (update live (slot, n) (some (e.posting (slot, n)))) slot (n + 1) es
      = withEntries live slot n (e :: es) := by
  funext r
  obtain ⟨slot', nth⟩ := r
  simp only [withEntries, update_apply, Prod.mk.injEq, length_cons]
  by_cases same : slot' = slot
  · subst same
    by_cases first : nth = n
    · subst first
      simp
    · by_cases later : n + 1 ≤ nth ∧ nth < n + 1 + es.length
      · have shift : nth - n = nth - (n + 1) + 1 := by omega
        rw [if_pos ⟨rfl, later⟩, if_pos ⟨rfl, by omega, by omega⟩, shift, getElem?_cons_succ]
      · rw [if_neg fun all => later all.2, if_neg fun both => first both.2,
          if_neg fun all => later ⟨by omega, by omega⟩]
  · simp [same]

theorem withoutEntries_cons (n : Nat) (e : Entry) (es : List Entry) :
    withoutEntries (update live (slot, n) none) slot (n + 1) es
      = withoutEntries live slot n (e :: es) := by
  funext r
  obtain ⟨slot', nth⟩ := r
  simp only [withoutEntries, update_apply, Prod.mk.injEq, length_cons]
  by_cases same : slot' = slot
  · subst same
    by_cases first : nth = n
    · subst first
      simp
    · by_cases later : n + 1 ≤ nth ∧ nth < n + 1 + es.length
      · rw [if_pos ⟨rfl, later⟩, if_pos ⟨rfl, by omega, by omega⟩]
      · rw [if_neg fun all => later all.2, if_neg fun both => first both.2,
          if_neg fun all => later ⟨by omega, by omega⟩]
  · simp [same]

/-! ### Loops over the entries -/

variable {es : List Entry}

def tagsOf (es : List Entry) (s : Bool) : Nat := (es.map (Entry.tagsIn s)).sum

theorem tagsOf_cons (e : Entry) (es : List Entry) (s : Bool) :
    tagsOf (e :: es) s = e.tagsIn s + tagsOf es s := by
  rw [tagsOf, map_cons, sum_cons, tagsOf]

/-- The row and what is live once the first of the entries is installed. -/
structure Installed (m m₁ : ActiveMonitors) (live : Nat × Nat → Option (PostKey × Posting))
    (slot : Nat) (row row₁ : List Nat) (e : Entry) : Prop where
  same : SameSubs m m₁
  posted : Posted m₁ (update live (slot, row.length) (some (e.posting (slot, row.length))))
  places : m₁.places = m.places.set slot row₁
  length : row₁.length = row.length + 1
  here : m₁.places[slot]? = some row₁
  tags : ∀ s, (m₁.indexFor s).tagPostings = (m.indexFor s).tagPostings + e.tagsIn s
  fresh : ∀ nth, row₁.length ≤ nth → update live (slot, row.length)
    (some (e.posting (slot, row.length))) (slot, nth) = none
  rest : ∀ es, withEntries (update live (slot, row.length)
    (some (e.posting (slot, row.length)))) slot row₁.length es
      = withEntries live slot row.length (e :: es)

theorem installEntry_installed (posted : Posted m live) (here : m.places[slot]? = some row)
    (fresh : ∀ nth, row.length ≤ nth → live (slot, nth) = none) (sized : e.key.Sized)
    (room : (m.bucket (e.searching, e.key)).length < 2 ^ 32) (short : row.length < 2 ^ 32) :
    ∃ m₁ row₁, installEntry slot m e = .ok m₁ ∧ Installed m m₁ live slot row row₁ e := by
  obtain ⟨m₁, at', run, same, posted₁, places₁, tags₁⟩ := installEntry_spec posted here
    (fresh _ le_rfl) sized room short
  have inside := (List.getElem?_eq_some_iff.mp here).1
  have longer : (row ++ [at']).length = row.length + 1 := by simp
  refine ⟨m₁, row ++ [at'], run, same, posted₁, places₁, longer, ?_, tags₁, fun nth after => ?_,
    fun es => ?_⟩
  · rw [places₁, getElem?_set_self inside]
  · rw [update_of_ne (by simp; omega)]
    exact fresh nth (by omega)
  · rw [longer]
    exact withEntries_cons row.length e es

/-- **What entries installed without a panic leave.** -/
theorem installEntries_spec (posted : Posted m live) (here : m.places[slot]? = some row)
    (fresh : ∀ nth, row.length ≤ nth → live (slot, nth) = none) (sized : ∀ e ∈ es, e.key.Sized)
    (run : es.foldlM (installEntry slot) m = .ok m') :
    ∃ row', SameSubs m m' ∧ Posted m' (withEntries live slot row.length es) ∧
      m'.places = m.places.set slot row' ∧ row'.length = row.length + es.length ∧
      ∀ s, (m'.indexFor s).tagPostings = (m.indexFor s).tagPostings + tagsOf es s := by
  induction es generalizing m row live with
  | nil =>
    cases run
    refine ⟨row, .refl _, ?_, ?_, rfl, fun s => rfl⟩
    · have same : withEntries live slot row.length [] = live := by
        funext r
        exact if_neg (by simp)
      rwa [same]
    · obtain ⟨inside, rfl⟩ := List.getElem?_eq_some_iff.mp here
      exact (set_getElem_self inside).symm
  | cons e es ih =>
    rw [foldlM_cons, bind_eq_ok] at run
    obtain ⟨m₀, first, rest⟩ := run
    obtain ⟨room, short⟩ := installEntry_room here first
    obtain ⟨m₁, row₁, run₁, installed⟩ := installEntry_installed posted here fresh
      (sized e (.head _)) room short
    obtain rfl := Except.ok.inj (first.symm.trans run₁)
    obtain ⟨row', same', posted', places', length', tags'⟩ := ih installed.posted installed.here
      installed.fresh (fun e' member => sized e' (.tail _ member)) rest
    refine ⟨row', installed.same.trans same', installed.rest es ▸ posted', ?_, ?_, fun s => ?_⟩
    · rw [places', installed.places, set_set]
    · rw [length', installed.length, length_cons]
      omega
    · rw [tags', installed.tags, tagsOf_cons, Nat.add_assoc]

/-- With few enough references no entry panics. -/
theorem installEntries_total {refs : PostKey → List (Nat × Nat)} (posted : Posted m live)
    (here : m.places[slot]? = some row) (fresh : ∀ nth, row.length ≤ nth → live (slot, nth) = none)
    (sized : ∀ e ∈ es, e.key.Sized) (short : row.length + es.length ≤ 2 ^ 32)
    (all : ∀ r k a, withEntries live slot row.length es r = some (k, a) → r ∈ refs k)
    (few : ∀ k, (refs k).length ≤ 2 ^ 32) : ∃ m', es.foldlM (installEntry slot) m = .ok m' := by
  induction es generalizing m row live with
  | nil => exact ⟨m, rfl⟩
  | cons e es ih =>
    rw [length_cons] at short
    have first : (slot, row.length) ∈ refs e.postKey :=
      all _ _ ⟨slot, row.length, e.kinds⟩ (by simp [withEntries, Entry.posting])
    -- The references live under the key so far are among the others.
    have room : (m.bucket (e.searching, e.key)).length < 2 ^ 32 := by
      have others : ∀ r a, live r = some (e.postKey, a) →
          r ∈ (refs e.postKey).erase (slot, row.length) := by
        intro r a alive
        have other : r ≠ (slot, row.length) := by
          rintro rfl
          rw [fresh _ le_rfl] at alive
          cases alive
        refine (mem_erase_of_ne other).mpr (all r _ a ?_)
        rw [withEntries]
        split_ifs with inside
        · have apart := fresh r.2 inside.2.1
          rw [← inside.1, alive] at apart
          cases apart
        · exact alive
      have bound := posted.length_le (e.searching, e.key) others
      have shorter := length_erase_of_mem first
      have some := length_pos_of_mem first
      have room := few e.postKey
      omega
    obtain ⟨m₁, row₁, run, installed⟩ := installEntry_installed posted here fresh
      (sized e (.head _)) room (by omega)
    obtain ⟨m', rest⟩ := ih installed.posted installed.here installed.fresh
      (fun e' member => sized e' (.tail _ member))
      (by rw [installed.length]; omega) (by rw [installed.rest]; exact all)
    exact ⟨m', by rw [foldlM_cons, run, ok_bind, rest]⟩

def uninstallEntry (slot : Nat) (st : ActiveMonitors × Nat) (e : Entry) :
    Except Panic (ActiveMonitors × Nat) :=
  uninstallKey slot e.searching st e.key

theorem uninstallEntry_spec {n : Nat} (posted : Posted m live)
    (alive : live (slot, n) = some (e.posting (slot, n)))
    (counted : e.tagsIn e.searching ≤ (m.indexFor e.searching).tagPostings) :
    ∃ m', uninstallEntry slot (m, n) e = .ok (m', n + 1) ∧ SameSubs m m' ∧
      Posted m' (update live (slot, n) none) ∧
      m'.places.map List.length = m.places.map List.length ∧
      ∀ s, (m'.indexFor s).tagPostings = (m.indexFor s).tagPostings - e.tagsIn s := by
  obtain ⟨own, i, there, found⟩ := posted.complete alive
  obtain ⟨row, here, placed⟩ := Option.bind_eq_some_iff.mp there
  have inside : i < ((m.indexFor e.searching).bucket e.key).length :=
    (List.getElem?_eq_some_iff.mp found).1
  have tags : e.tagsIn e.searching = e.key.tags := if_pos rfl
  have placedAll : ∀ p ∈ (m.indexFor e.searching).bucket e.key, placeAt m.places p.ref ≠ none := by
    intro p member
    obtain ⟨j, at'⟩ := mem_iff_getElem?.mp member
    simp [(posted.sound (k := (e.searching, e.key)) at').2]
  obtain ⟨ix, places', run, buckets, count, views, rows⟩ :=
    (m.indexFor e.searching).remove_spec inside (tags ▸ counted) placedAll
  refine ⟨m.setIndex e.searching ix places', ?_, sameSubs_setIndex .., ?_, ?_, fun s => ?_⟩
  · have row' : m.places[slot]? = some row := here
    have at' : row[n]? = some i := placed
    simp only [uninstallEntry, uninstallKey, row', at', okOr_some, ok_bind, run]
    rfl
  · refine (posted.remove alive there).congr (bucket_setIndex _ buckets) rfl fun r _ => ?_
    rw [places_setIndex, views]
    rfl
  · rw [places_setIndex, rows]
  · rw [indexFor_setIndex]
    by_cases same : s = e.searching
    · rw [if_pos same, same, tags, count]
    · rw [if_neg same, Entry.tagsIn, if_neg fun eq => same eq.symm, Nat.sub_zero]

theorem uninstallEntries_spec {n : Nat} (posted : Posted m live)
    (alive : ∀ j e, es[j]? = some e → live (slot, n + j) = some (e.posting (slot, n + j)))
    (counted : ∀ s, tagsOf es s ≤ (m.indexFor s).tagPostings) :
    ∃ m', es.foldlM (uninstallEntry slot) (m, n) = .ok (m', n + es.length) ∧ SameSubs m m' ∧
      Posted m' (withoutEntries live slot n es) ∧
      m'.places.map List.length = m.places.map List.length ∧
      ∀ s, (m'.indexFor s).tagPostings = (m.indexFor s).tagPostings - tagsOf es s := by
  induction es generalizing m n live with
  | nil =>
    refine ⟨m, rfl, .refl m, ?_, rfl, fun s => rfl⟩
    have same : withoutEntries live slot n [] = live := by
      funext r
      exact if_neg (by simp)
    rwa [same]
  | cons e es ih =>
    have each := counted e.searching
    rw [tagsOf_cons] at each
    have first : live (slot, n) = some (e.posting (slot, n)) := alive 0 e rfl
    obtain ⟨m₁, run, same, posted₁, rows₁, tags₁⟩ := uninstallEntry_spec posted first (by omega)
    obtain ⟨m', rest, same', posted', rows', tags'⟩ := ih (n := n + 1) posted₁
      (fun j e' later => by
        rw [update_of_ne (by simp; omega), Nat.add_assoc, Nat.add_comm 1 j]
        exact alive (j + 1) e' later)
      (fun s => by
        have all := counted s
        rw [tagsOf_cons] at all
        rw [tags₁]
        omega)
    refine ⟨m', ?_, same.trans same', withoutEntries_cons n e es ▸ posted', rows'.trans rows₁,
      fun s => ?_⟩
    · rw [foldlM_cons, run, ok_bind, rest, length_cons, Nat.add_assoc, Nat.add_comm 1]
    · rw [tags', tags₁, tagsOf_cons, Nat.sub_sub]

theorem installFilters_eq (g : NostrFilterGroup) (slot : Nat) (m : ActiveMonitors) :
    g.filters.foldlM (installFilter slot) m = g.entries.foldlM (installEntry slot) m := by
  refine foldlM_flatMap (fun m f member => ?_) m
  rw [installFilter, (g.parsed f member).forEachKey_eq, ok_bind, NostrFilter.entries,
    foldlM_map]
  rfl

theorem uninstallFilters_eq (g : NostrFilterGroup) (slot : Nat) (st : ActiveMonitors × Nat) :
    g.filters.foldlM (uninstallFilter slot) st = g.entries.foldlM (uninstallEntry slot) st := by
  refine foldlM_flatMap (fun st f member => ?_) st
  rw [uninstallFilter, (g.parsed f member).forEachKey_eq, ok_bind, NostrFilter.entries,
    foldlM_map]
  rfl

end ActiveMonitors

/-! ### The index of the slots -/

/-- What the index sees of a subscription. -/
structure Shape where
  connId : Nat
  subId : SubId
  group : NostrFilterGroup

def Monitored.shape (e : Monitored) : Shape := ⟨e.sub.connId, e.sub.subId, e.sub.filterGroup⟩

def entriesIn (cell : Option Shape) : List Entry := cell.elim [] fun s => s.group.entries

def contentIn (cell : Option Shape) : Nat :=
  cell.elim 0 fun s => if s.group.requiresContent then 1 else 0

/-- The postings of the subscriptions in the slots. -/
def liveIn (shapes : List (Option Shape)) (r : Nat × Nat) : Option (PostKey × Posting) :=
  shapes[r.1]?.bind fun cell => (entriesIn cell)[r.2]?.map fun e => e.posting r

/-- How many of the entries are under a key. -/
def entriesAt (k : PostKey) (es : List Entry) : Nat := es.countP fun e => e.postKey = k

/-- How many postings the subscriptions have under a key. -/
def postingCount (k : PostKey) (shapes : List (Option Shape)) : Nat :=
  (shapes.map fun cell => entriesAt k (entriesIn cell)).sum

/-- The references of the subscriptions' postings under a key. -/
def refsIn (shapes : List (Option Shape)) (k : PostKey) : List (Nat × Nat) :=
  shapes.zipIdx.flatMap fun entry => ((entriesIn entry.1).zipIdx.filter fun e =>
    e.1.postKey = k).map fun e => (entry.2, e.2)

theorem length_refsIn (shapes : List (Option Shape)) (k : PostKey) :
    (refsIn shapes k).length = postingCount k shapes := by
  have each : ∀ es : List Entry, (es.zipIdx.filter fun e => e.1.postKey = k).length
      = entriesAt k es := by
    intro es
    rw [entriesAt, ← countP_eq_length_filter, ← zipIdx_map_fst 0 es, countP_map]
    simp only [zipIdx_map_fst]
    rfl
  simp only [refsIn, length_flatMap, length_map, each, postingCount]
  rw [← zipIdx_map_fst 0 shapes, map_map]
  simp only [zipIdx_map_fst]
  rfl

theorem mem_refsIn {shapes : List (Option Shape)} {r : Nat × Nat} {k : PostKey} {a : Posting}
    (alive : liveIn shapes r = some (k, a)) : r ∈ refsIn shapes k := by
  obtain ⟨cell, there, found⟩ := Option.bind_eq_some_iff.mp alive
  obtain ⟨e, listed, is⟩ := Option.map_eq_some_iff.mp found
  refine mem_flatMap.mpr ⟨(cell, r.1), mem_zipIdx_iff_getElem?.mpr there, ?_⟩
  refine mem_map.mpr ⟨(e, r.2), mem_filter.mpr ⟨mem_zipIdx_iff_getElem?.mpr listed, ?_⟩, rfl⟩
  exact decide_eq_true (congrArg Prod.fst is)

section Shapes

variable {shapes : List (Option Shape)} {slot : Nat}

theorem liveIn_eq {cell : Option Shape} (there : shapes[slot]? = some cell) (nth : Nat) :
    liveIn shapes (slot, nth) = (entriesIn cell)[nth]?.map fun e => e.posting (slot, nth) := by
  rw [liveIn, there, Option.bind_some]

theorem liveIn_set (inside : slot < shapes.length) (cell : Option Shape) (r : Nat × Nat) :
    liveIn (shapes.set slot cell) r
      = if r.1 = slot then (entriesIn cell)[r.2]?.map fun e => e.posting r else liveIn shapes r := by
  split_ifs with same
  · obtain ⟨slot', nth⟩ := r
    subst same
    exact liveIn_eq (getElem?_set_self inside) nth
  · rw [liveIn, getElem?_set_ne fun eq => same eq.symm, liveIn]

theorem liveIn_set_some (free : shapes[slot]? = some none) (s : Shape) :
    liveIn (shapes.set slot (some s)) = ActiveMonitors.withEntries (liveIn shapes) slot 0
      s.group.entries := by
  funext r
  rw [liveIn_set (List.getElem?_eq_some_iff.mp free).1, ActiveMonitors.withEntries]
  by_cases same : r.1 = slot
  · rw [if_pos same]
    split_ifs with bound
    · rfl
    · have none := liveIn_eq free r.2
      rw [← same] at none
      rw [none, getElem?_eq_none (by simp only [entriesIn, Option.elim_some]; omega)]
      rfl
  · rw [if_neg same, if_neg fun all => same all.1]

theorem liveIn_set_none {s : Shape} (taken : shapes[slot]? = some (some s)) :
    liveIn (shapes.set slot none) = ActiveMonitors.withoutEntries (liveIn shapes) slot 0
      s.group.entries := by
  funext r
  rw [liveIn_set (List.getElem?_eq_some_iff.mp taken).1, ActiveMonitors.withoutEntries]
  by_cases same : r.1 = slot
  · rw [if_pos same]
    split_ifs with bound
    · rfl
    · have past := liveIn_eq taken r.2
      rw [← same, getElem?_eq_none (by simp only [entriesIn, Option.elim_some]; omega)] at past
      rw [past]
      rfl
  · rw [if_neg same, if_neg fun all => same all.1]

end Shapes

namespace ActiveMonitors

def shapes (m : ActiveMonitors) : List (Option Shape) := m.slots.map (Option.map Monitored.shape)

theorem getElem?_shapes (m : ActiveMonitors) (slot : Nat) :
    m.shapes[slot]? = m.slots[slot]?.map (Option.map Monitored.shape) := getElem?_map

/-- **The postings are those of the subscriptions in the slots**, each where its slot says. -/
structure Indexed (m : ActiveMonitors) : Prop where
  rows : m.places.map List.length = m.shapes.map fun cell => (entriesIn cell).length
  seen_length : m.seen.length = m.slots.length
  seen_le : ∀ n ∈ m.seen, n ≤ m.pass
  posted : Posted m (liveIn m.shapes)
  tags : ∀ s, (m.indexFor s).tagPostings = (m.shapes.map fun cell => tagsOf (entriesIn cell) s).sum
  content : m.contentSubscriptions = (m.shapes.map contentIn).sum

variable {m : ActiveMonitors} {slot : Nat}

theorem shapes_set (slot : Nat) (cell : Option Monitored) :
    (m.slots.set slot cell).map (Option.map Monitored.shape)
      = m.shapes.set slot (cell.map Monitored.shape) := map_set

theorem Indexed.row (indexed : Indexed m) {cell : Option Shape} (there : m.shapes[slot]? = some cell) :
    ∃ row, m.places[slot]? = some row ∧ row.length = (entriesIn cell).length := by
  have lengths := congrArg (fun l => l[slot]?) indexed.rows
  simp only [getElem?_map, there, Option.map_some] at lengths
  exact Option.map_eq_some_iff.mp lengths

/-- Everything but the slots, the postings and the counters of postings is as it was. -/
structure SameRest (m m' : ActiveMonitors) : Prop where
  conns : m'.conns = m.conns
  free : m'.free = m.free
  maxSubs : m'.maxSubs = m.maxSubs
  pass : m'.pass = m.pass

theorem occupant_eq {e : Monitored} (taken : m.slots[slot]? = some (some e)) (text : String) :
    m.occupant slot text = .ok e := by
  rw [occupant, taken]
  rfl

theorem not_live_of_none {shapes : List (Option Shape)} (inside : slot < shapes.length) {r : Nat × Nat}
    (alive : liveIn (shapes.set slot none) r ≠ none) : r.1 ≠ slot := by
  intro same
  rw [liveIn_set inside, if_pos same] at alive
  exact alive rfl

/-- **Taking a subscription out of its slot.** -/
theorem uninstall_spec (indexed : Indexed m) {e : Monitored}
    (taken : m.slots[slot]? = some (some e)) :
    ∃ m', m.uninstall slot = .ok m' ∧ Indexed m' ∧ m'.slots = m.slots.set slot none ∧
      SameRest m m' := by
  have shape : m.shapes[slot]? = some (some e.shape) := by rw [getElem?_shapes, taken]; rfl
  have inside := (List.getElem?_eq_some_iff.mp shape).1
  have total : ∀ f : Option Shape → Nat,
      ((m.shapes.set slot none).map f).sum + f (some e.shape) = (m.shapes.map f).sum + f none :=
    fun f => sum_map_set f shape none
  have content := total contentIn
  have fewer : contentIn (some e.shape) ≤ m.contentSubscriptions := by
    rw [indexed.content]
    exact Nat.le.intro ((Nat.add_comm ..).trans content)
  have tagged : ∀ s, tagsOf e.sub.filterGroup.entries s
      + ((m.shapes.set slot none).map fun cell => tagsOf (entriesIn cell) s).sum
        = (m.indexFor s).tagPostings := by
    intro s
    have here : _ + tagsOf e.sub.filterGroup.entries s = _ + 0 :=
      total fun cell => tagsOf (entriesIn cell) s
    rw [indexed.tags]
    omega
  let start : ActiveMonitors := { m with
    slots := m.slots.set slot none
    contentSubscriptions := m.contentSubscriptions - contentIn (some e.shape) }
  have alive : ∀ j x, e.sub.filterGroup.entries[j]? = some x →
      liveIn m.shapes (slot, 0 + j) = some (x.posting (slot, 0 + j)) := by
    intro j x listed
    rw [Nat.zero_add, liveIn_eq shape]
    exact congrArg _ listed
  have posted₀ : Posted start (liveIn m.shapes) := indexed.posted
  obtain ⟨m₁, run, same, posted, rows, tags⟩ :=
    uninstallEntries_spec posted₀ alive fun s => Nat.le.intro (tagged s)
  have wide : slot < m₁.places.length := by
    have lengths := congrArg List.length (rows.trans indexed.rows)
    rw [length_map, length_map] at lengths
    exact lengths ▸ inside
  have shapes' : m₁.shapes = m.shapes.set slot none := by
    rw [shapes, same.slots]
    exact shapes_set slot none
  refine ⟨{ m₁ with places := m₁.places.set slot [] }, ?_, ?_, same.slots,
    ⟨same.conns, same.free, same.maxSubs, same.pass⟩⟩
  · rw [uninstall, occupant_eq taken, ok_bind]
    show (checkedSub m.contentSubscriptions (contentIn (some e.shape)) >>= _) = _
    rw [checkedSub_of_le fewer, ok_bind]
    show (List.foldlM (uninstallFilter slot) (start, 0) e.sub.filterGroup.filters >>= _) = _
    rw [uninstallFilters_eq, run, ok_bind]
    simp only [ensure_of wide, ok_bind]
    rfl
  · refine ⟨?_, ?_, ?_, ?_, fun s => ?_, ?_⟩
    · show (m₁.places.set slot []).map List.length = m₁.shapes.map _
      rw [shapes', map_set, map_set, rows, ← indexed.rows]
      rfl
    · show m₁.seen.length = m₁.slots.length
      rw [same.seen, same.slots, length_set]
      exact indexed.seen_length
    · show ∀ n ∈ m₁.seen, n ≤ m₁.pass
      rw [same.seen, same.pass]
      exact indexed.seen_le
    · have lives : liveIn m₁.shapes = withoutEntries (liveIn m.shapes) slot 0
          e.sub.filterGroup.entries := by
        rw [shapes']
        exact liveIn_set_none shape
      refine posted.congr rfl lives fun r alive => ?_
      rw [← lives, shapes'] at alive
      show placeAt (m₁.places.set slot []) r = _
      rw [placeAt_set wide, if_neg (not_live_of_none inside alive)]
    · show (m₁.indexFor s).tagPostings = (m₁.shapes.map _).sum
      have here : (start.indexFor s).tagPostings = (m.indexFor s).tagPostings := rfl
      rw [tags, shapes', here, ← tagged s, Nat.add_sub_cancel_left]
    · show m₁.contentSubscriptions = (m₁.shapes.map contentIn).sum
      rw [same.contentSubscriptions, shapes']
      show m.contentSubscriptions - contentIn (some e.shape) = _
      have none : contentIn none = 0 := rfl
      rw [indexed.content]
      omega

theorem install_eq (free : m.slots[slot]? = some none) (e : Monitored) :
    ({ m with slots := m.slots.set slot (some e) } : ActiveMonitors).install slot
      = e.sub.filterGroup.entries.foldlM (installEntry slot) { m with
          slots := m.slots.set slot (some e)
          contentSubscriptions := m.contentSubscriptions + contentIn (some e.shape) } := by
  have there : ({ m with slots := m.slots.set slot (some e) } : ActiveMonitors).slots[slot]?
      = some (some e) := getElem?_set_self (List.getElem?_eq_some_iff.mp free).1
  rw [install, occupant_eq there, ok_bind]
  exact installFilters_eq ..

/-- An empty slot has an empty row and nothing live. -/
theorem Indexed.empty_row (indexed : Indexed m) (free : m.slots[slot]? = some none) :
    m.shapes[slot]? = some none ∧ ∃ row, m.places[slot]? = some row ∧ row.length = 0 ∧
      ∀ nth, row.length ≤ nth → liveIn m.shapes (slot, nth) = none := by
  have shape : m.shapes[slot]? = some none := by rw [getElem?_shapes, free]; rfl
  obtain ⟨row, here, empty⟩ := indexed.row shape
  refine ⟨shape, row, here, empty, fun nth _ => ?_⟩
  rw [liveIn_eq shape]
  rfl

/-- With room for its postings a subscription is installed without a panic. -/
theorem install_total (indexed : Indexed m) (free : m.slots[slot]? = some none) (e : Monitored)
    (short : e.sub.filterGroup.entries.length ≤ 2 ^ 32)
    (few : ∀ k, postingCount k (m.shapes.set slot (some e.shape)) ≤ 2 ^ 32) :
    ∃ m', ({ m with slots := m.slots.set slot (some e) } : ActiveMonitors).install slot
      = .ok m' := by
  obtain ⟨shape, row, here, empty, fresh⟩ := indexed.empty_row free
  have all : ∀ r k a, withEntries (liveIn m.shapes) slot row.length e.sub.filterGroup.entries r
      = some (k, a) → r ∈ refsIn (m.shapes.set slot (some e.shape)) k := by
    intro r k a alive
    rw [empty] at alive
    refine mem_refsIn (a := a) ?_
    rw [liveIn_set_some shape]
    exact alive
  rw [install_eq free]
  exact installEntries_total indexed.posted here fresh e.sub.filterGroup.entries_sized (by omega)
    all fun k => length_refsIn _ k ▸ few k

/-- **Putting a subscription into an empty slot.** -/
theorem install_spec (indexed : Indexed m) (free : m.slots[slot]? = some none) (e : Monitored)
    {m' : ActiveMonitors}
    (run : ({ m with slots := m.slots.set slot (some e) } : ActiveMonitors).install slot = .ok m') :
    Indexed m' ∧ m'.slots = m.slots.set slot (some e) ∧ SameRest m m' := by
  obtain ⟨shape, row, here, empty, fresh⟩ := indexed.empty_row free
  have total : ∀ f : Option Shape → Nat, ((m.shapes.set slot (some e.shape)).map f).sum + f none
      = (m.shapes.map f).sum + f (some e.shape) := fun f => sum_map_set f shape (some e.shape)
  rw [install_eq free] at run
  obtain ⟨row', same, posted, places, length, tags⟩ := installEntries_spec (m := { m with
      slots := m.slots.set slot (some e)
      contentSubscriptions := m.contentSubscriptions + contentIn (some e.shape) })
    indexed.posted here fresh e.sub.filterGroup.entries_sized run
  have shapes' : m'.shapes = m.shapes.set slot (some e.shape) := by
    rw [shapes, same.slots]
    exact shapes_set slot (some e)
  refine ⟨?_, same.slots, ⟨same.conns, same.free, same.maxSubs, same.pass⟩⟩
  refine ⟨?_, ?_, ?_, ?_, fun s => ?_, ?_⟩
  · rw [shapes', places, map_set, map_set, length, empty, Nat.zero_add]
    show (m.places.map List.length).set slot _ = _
    rw [indexed.rows]
    rfl
  · rw [same.seen, same.slots, length_set]
    exact indexed.seen_length
  · rw [same.seen, same.pass]
    exact indexed.seen_le
  · have lives : liveIn m'.shapes = withEntries (liveIn m.shapes) slot row.length
        e.sub.filterGroup.entries := by
      rw [shapes', empty]
      exact liveIn_set_some shape e.shape
    rw [lives]
    exact posted
  · have sums : _ + 0 = _ + tagsOf e.sub.filterGroup.entries s :=
      total fun cell => tagsOf (entriesIn cell) s
    have counted := indexed.tags s
    have after := tags s
    have start : (({ m with
      slots := m.slots.set slot (some e)
      contentSubscriptions := m.contentSubscriptions + contentIn (some e.shape) } :
        ActiveMonitors).indexFor s).tagPostings = (m.indexFor s).tagPostings := rfl
    rw [shapes']
    omega
  · rw [same.contentSubscriptions, shapes']
    show m.contentSubscriptions + contentIn (some e.shape) = _
    have sums : _ + 0 = _ := total contentIn
    rw [indexed.content]
    omega

/-! ### Candidates -/

variable {p : Posting}

theorem Indexed.entry_of_mem (indexed : Indexed m) {k : PostKey} (member : p ∈ m.bucket k) :
    ∃ cell, m.shapes[p.slot]? = some cell ∧
      ∃ e ∈ entriesIn cell, (e.searching, e.key) = k ∧ e.kinds = p.kinds := by
  obtain ⟨i, found⟩ := mem_iff_getElem?.mp member
  obtain ⟨cell, there, live⟩ := Option.bind_eq_some_iff.mp (indexed.posted.sound found).1
  obtain ⟨e, listed, same⟩ := Option.map_eq_some_iff.mp live
  refine ⟨cell, there, e, mem_of_getElem? listed, congrArg Prod.fst same, ?_⟩
  exact congrArg (fun live => live.2.kinds) same

theorem Indexed.mem_of_entry (indexed : Indexed m) {cell : Option Shape}
    (there : m.shapes[slot]? = some cell) {e : Entry} (member : e ∈ entriesIn cell) :
    ∃ p ∈ m.bucket (e.searching, e.key), p.slot = slot ∧ p.kinds = e.kinds := by
  obtain ⟨nth, listed⟩ := mem_iff_getElem?.mp member
  have live : liveIn m.shapes (slot, nth) = some (e.posting (slot, nth)) := by
    rw [liveIn_eq there, listed]
    rfl
  obtain ⟨_, i, _, found⟩ := indexed.posted.complete live
  exact ⟨_, mem_of_getElem? found, rfl, rfl⟩

theorem tagsOf_pos {es : List Entry} {e : Entry} (member : e ∈ es) (tag : e.key.isTag = true) :
    0 < tagsOf es e.searching := by
  have one : e.tagsIn e.searching = 1 := by
    rw [Entry.tagsIn, if_pos rfl, Key.tags, if_pos tag]
  have le := le_sum_of_mem (mem_map_of_mem (f := Entry.tagsIn e.searching) member)
  rw [tagsOf]
  omega

theorem Indexed.no_tags (indexed : Indexed m) {s : Bool} (none : (m.indexFor s).tagPostings = 0)
    (name : Byte) (value : Bytes) : (m.indexFor s).bucket (.tag name value) = [] := by
  refine eq_nil_iff_forall_not_mem.mpr fun p member => ?_
  obtain ⟨cell, there, e, inside, same, _⟩ := indexed.entry_of_mem (k := (s, .tag name value)) member
  obtain ⟨rfl, tag⟩ := Prod.mk.inj same
  have pos := tagsOf_pos inside (by rw [tag]; rfl)
  have le := le_sum_of_mem (mem_map_of_mem
    (f := fun cell => tagsOf (entriesIn cell) e.searching) (mem_of_getElem? there))
  rw [indexed.tags] at none
  omega

/-- The pass has marked the `n` slots it took, and no others, and took each once. -/
structure Collecting.Marked (pass n : Nat) (st : Collecting) : Prop where
  length : st.seen.length = n
  taken : ∀ slot, st.seen[slot]? = some pass ↔ slot ∈ st.candidates
  distinct : st.candidates.Nodup
  bound : ∀ k ∈ st.seen, k ≤ pass

theorem collectPosting_spec {pass n : Nat} (kind : BitVec 64) {st : Collecting}
    (marked : st.Marked pass n) (inside : p.slot < n) :
    ∃ st', collectPosting pass kind st p = .ok st' ∧ st'.Marked pass n ∧
      ∀ slot, slot ∈ st'.candidates ↔ slot ∈ st.candidates ∨ p.slot = slot ∧ p.kinds &&& kind ≠ 0 := by
  rw [← marked.length] at inside
  have there := getElem?_eq_getElem inside
  by_cases masked : p.kinds &&& kind = 0
  · exact ⟨st, if_pos masked, marked, by simp [masked]⟩
  · rw [collectPosting, if_neg masked, there, okOr_some, ok_bind]
    by_cases again : st.seen[p.slot] = pass
    · have already : p.slot ∈ st.candidates := (marked.taken _).mp (there.trans (congrArg _ again))
      refine ⟨st, by rw [if_neg (not_not.mpr again)]; rfl, marked, fun slot => ?_⟩
      refine ⟨.inl, fun either => either.elim id fun new => new.1 ▸ already⟩
    · have absent : p.slot ∉ st.candidates := by
        intro member
        have now := (marked.taken p.slot).mpr member
        exact again (Option.some.inj (there.symm.trans now))
      refine ⟨⟨st.seen.set p.slot pass, st.candidates ++ [p.slot]⟩, by rw [if_pos again]; rfl,
        ⟨?_, fun slot => ?_, ?_, fun k member => ?_⟩, fun slot => ?_⟩
      · rw [length_set, marked.length]
      · rw [getElem?_set, mem_append, mem_singleton, ← marked.taken]
        by_cases same : p.slot = slot
        · simp [same, same ▸ inside]
        · rw [if_neg same]
          exact ⟨.inl, fun either => either.elim id fun eq => absurd eq.symm same⟩
      · refine nodup_append'.mpr ⟨marked.distinct, nodup_singleton _, ?_⟩
        exact fun slot old new => absent (mem_singleton.mp new ▸ old)
      · rcases mem_or_eq_of_mem_set member with old | new
        · exact marked.bound k old
        · exact new.le
      · rw [mem_append, mem_singleton, eq_comm]
        exact or_congr_right ⟨fun same => ⟨same, masked⟩, And.left⟩

/-- One pass over postings takes each selected slot once. -/
theorem collectPostings_spec {pass n : Nat} (kind : BitVec 64) {postings : List Posting}
    {st : Collecting} (marked : st.Marked pass n) (inside : ∀ p ∈ postings, p.slot < n) :
    ∃ st', postings.foldlM (collectPosting pass kind) st = .ok st' ∧ st'.Marked pass n ∧
      ∀ slot, slot ∈ st'.candidates ↔ slot ∈ st.candidates ∨
        ∃ p ∈ postings, p.slot = slot ∧ p.kinds &&& kind ≠ 0 := by
  induction postings generalizing st with
  | nil => exact ⟨st, rfl, marked, by simp⟩
  | cons p postings ih =>
    obtain ⟨here, later⟩ := forall_mem_cons.mp inside
    obtain ⟨st₁, first, marked₁, members₁⟩ := collectPosting_spec kind marked here
    obtain ⟨st', rest, marked', members'⟩ := ih marked₁ later
    refine ⟨st', by rw [foldlM_cons, first, ok_bind, rest], marked', fun slot => ?_⟩
    rw [members', members₁, exists_mem_cons_iff, or_assoc]

theorem Indexed.mem_postings (indexed : Indexed m) {packed : PackedEvent} {searchOnly : Bool} :
    p ∈ (if searchOnly then [] else m.index.lookup packed) ++ m.search.lookup packed ↔
      ∃ k : PostKey, (searchOnly = true → k.1 = true) ∧ k.2 ∈ eventKeys packed ∧ p ∈ m.bucket k := by
  have searching : p ∈ m.search.lookup packed
      ↔ ∃ key ∈ eventKeys packed, p ∈ m.bucket (true, key) :=
    Index.mem_lookup (indexed.no_tags (s := true))
  have others : p ∈ m.index.lookup packed
      ↔ ∃ key ∈ eventKeys packed, p ∈ m.bucket (false, key) :=
    Index.mem_lookup (indexed.no_tags (s := false))
  have split : (∃ k : PostKey, (searchOnly = true → k.1 = true) ∧ k.2 ∈ eventKeys packed ∧
      p ∈ m.bucket k) ↔ (searchOnly = false ∧ ∃ key ∈ eventKeys packed, p ∈ m.bucket (false, key)) ∨
        ∃ key ∈ eventKeys packed, p ∈ m.bucket (true, key) := by
    simp [Prod.exists]
  rw [mem_append, searching, split, ← others]
  cases searchOnly <;> simp

/-- The event selects one of the entries, in the search index when asked so. -/
def Selected (packed : PackedEvent) (searchOnly : Bool) (cell : Option Shape) : Prop :=
  ∃ e ∈ entriesIn cell, (searchOnly = true → e.searching = true) ∧ e.key ∈ eventKeys packed ∧
    e.kinds &&& kindBit packed.kind ≠ 0

/-- **The candidates of an event**, each once. -/
theorem collect_spec (indexed : Indexed m) (room : m.pass + 1 < 2 ^ 64) (packed : PackedEvent)
    (searchOnly : Bool) :
    ∃ seen candidates, m.collect packed searchOnly
        = .ok ({ m with pass := m.pass + 1, seen := seen }, candidates) ∧
      Indexed { m with pass := m.pass + 1, seen := seen } ∧ candidates.Nodup ∧
      ∀ slot, slot ∈ candidates ↔
        ∃ cell, m.shapes[slot]? = some cell ∧ Selected packed searchOnly cell := by
  have fresh : (⟨m.seen, []⟩ : Collecting).Marked (m.pass + 1) m.slots.length := by
    refine ⟨indexed.seen_length, fun slot => ?_, nodup_nil, fun k member => ?_⟩
    · refine ⟨fun now => ?_, fun member => absurd member not_mem_nil⟩
      have le := indexed.seen_le _ (mem_of_getElem? now)
      omega
    · exact (indexed.seen_le k member).trans (Nat.le_succ _)
  have inside : ∀ p ∈ (if searchOnly then [] else m.index.lookup packed) ++ m.search.lookup packed,
      p.slot < m.slots.length := by
    intro p member
    obtain ⟨k, _, _, there⟩ := indexed.mem_postings.mp member
    obtain ⟨cell, found, _⟩ := indexed.entry_of_mem there
    simpa [shapes] using (List.getElem?_eq_some_iff.mp found).1
  obtain ⟨st, run, marked, members⟩ := collectPostings_spec (kindBit packed.kind) fresh inside
  refine ⟨st.seen, st.candidates, ?_, ⟨indexed.rows, marked.length, marked.bound, indexed.posted,
    indexed.tags, indexed.content⟩, marked.distinct, fun slot => ?_⟩
  · rw [collect, ensure_of room, ok_bind]
    dsimp only
    rw [run]
    rfl
  · rw [members]
    constructor
    · rintro (none | ⟨p, member, rfl, masked⟩)
      · exact absurd none not_mem_nil
      · obtain ⟨k, only, listed, there⟩ := indexed.mem_postings.mp member
        obtain ⟨cell, found, e, inside, rfl, kinds⟩ := indexed.entry_of_mem there
        exact ⟨cell, found, e, inside, only, listed, kinds ▸ masked⟩
    · rintro ⟨cell, found, e, inside, only, listed, masked⟩
      obtain ⟨p, there, rfl, kinds⟩ := indexed.mem_of_entry found inside
      exact .inr ⟨p, indexed.mem_postings.mpr ⟨_, only, listed, there⟩, rfl, kinds ▸ masked⟩

end ActiveMonitors

end Wok.Query
