/-
**Slots and their free list.**

Elements sit in numbered slots. A slot that is emptied goes on the free list, and the next element
takes the slot on top of it; a new slot is made only when the list is empty.

* `FreeList` — **the free list names every empty slot once**, and no other.
* `FreeList.grow`, `FreeList.reuse`, `FreeList.release` — the three changes keep this.
* `nodup_cells` — elements told apart by their slots.
* `Routed` — **each address is routed to its slot**, apart from slots about to be released.
* `Routed.release`, `Routed.unroute`, `Routed.fill`, `Routed.restrict` — the changes keep this.
* `routeIn_put`, `routeIn_remove`, `routeIn_erase` — routes in tables of tables.
-/

import Mathlib.Data.List.AList
import Mathlib.Data.List.Nodup
import Mathlib.Tactic.Basic

namespace Wok.Library

open List Function

variable {α β : Type}

/-- Every empty slot is on the free list, once. -/
structure FreeList (cells : List (Option α)) (free : List Nat) : Prop where
  nodup : free.Nodup
  empty : ∀ i, i ∈ free ↔ cells[i]? = some none

theorem freeList_nil : FreeList ([] : List (Option α)) [] :=
  ⟨nodup_nil, fun i => by simp⟩

namespace FreeList

variable {cells : List (Option α)} {free : List Nat} {i : Nat}

theorem grow (list : FreeList cells []) (a : α) : FreeList (cells ++ [some a]) [] := by
  refine ⟨nodup_nil, fun j => ?_⟩
  have old := list.empty j
  rw [getElem?_append]
  split_ifs with inside
  · exact old
  · constructor
    · exact fun absent => absurd absent (not_mem_nil)
    · intro found
      have last := mem_of_getElem? found
      simp at last

theorem reuse (list : FreeList cells (i :: free)) (a : α) : FreeList (cells.set i (some a)) free := by
  obtain ⟨absent, nodup⟩ := nodup_cons.mp list.nodup
  refine ⟨nodup, fun j => ?_⟩
  have old := list.empty j
  rw [getElem?_set]
  split_ifs with same inside
  · exact ⟨fun member => absurd (same ▸ member) absent, fun found => by cases found⟩
  · exact ⟨fun member => absurd (same ▸ member) absent, fun found => by cases found⟩
  · rw [← old, mem_cons]
    exact ⟨Or.inr, fun member => member.resolve_left fun equal => same equal.symm⟩

theorem release (list : FreeList cells free) {a : α} (held : cells[i]? = some (some a)) :
    FreeList (cells.set i none) (i :: free) := by
  have absent : i ∉ free := fun member => by
    rw [(list.empty i).mp member] at held
    cases held
  refine ⟨nodup_cons.mpr ⟨absent, list.nodup⟩, fun j => ?_⟩
  have inside : i < cells.length := (List.getElem?_eq_some_iff.mp held).1
  rw [mem_cons, list.empty j, getElem?_set]
  split_ifs with same
  · exact ⟨fun _ => rfl, fun _ => .inl same.symm⟩
  · exact ⟨fun found => found.resolve_left fun equal => same equal.symm, Or.inr⟩

theorem map (list : FreeList cells free) (f : α → β) : FreeList (cells.map (Option.map f)) free :=
  ⟨list.nodup, fun j => by simp [list.empty, getElem?_map]⟩

end FreeList

/-- Elements of different slots differ, where equal ones would share a slot. -/
theorem nodup_cells {cells : List (Option α)} (f : α → β)
    (apart : ∀ (i j : Nat) a b, cells[i]? = some (some a) → cells[j]? = some (some b) → f a = f b →
      i = j) :
    ((cells.filterMap id).map f).Nodup := by
  rw [map_filterMap]
  refine List.Pairwise.filterMap _ ?_ (R := fun x y => ∀ a b, x = some a → y = some b → f a ≠ f b) ?_
  · intro x y other u made v made' same
    obtain ⟨a, is, rfl⟩ := Option.map_eq_some_iff.mp made
    obtain ⟨b, is', rfl⟩ := Option.map_eq_some_iff.mp made'
    exact other a b is is' same
  · refine pairwise_iff_getElem.mpr fun i j left right less a b is is' same => ?_
    have equal := apart i j a b (List.getElem?_eq_some_iff.mpr ⟨left, is⟩)
      (List.getElem?_eq_some_iff.mpr ⟨right, is'⟩) same
    omega

/-! ### Routes -/

/-- Slots that no route leads to any more are `orphans`; every other slot with an address is the one
the address is routed to. -/
structure Routed (route : α → Option Nat) (addressed : Nat → Option α) (orphans : List Nat) :
    Prop where
  leads : ∀ {a slot}, route a = some slot ↔ addressed slot = some a ∧ slot ∉ orphans
  orphaned : ∀ slot ∈ orphans, ∃ a, addressed slot = some a
  nodup : orphans.Nodup
  distinct : ∀ {i j a}, addressed i = some a → addressed j = some a → i = j

namespace Routed

variable {route : α → Option Nat} {addressed : Nat → Option α} {orphans : List Nat} {slot : Nat}

theorem release (routed : Routed route addressed (slot :: orphans)) :
    Routed route (update addressed slot none) orphans := by
  obtain ⟨alone, rest⟩ := nodup_cons.mp routed.nodup
  have other : ∀ {i a}, update addressed slot none i = some a ↔
      addressed i = some a ∧ i ≠ slot := by
    intro i a
    by_cases eq : i = slot
    · simp [eq]
    · simp [eq]
  refine ⟨fun {a i} => ?_, fun i member => ?_, rest, fun first second =>
    routed.distinct (other.mp first).1 (other.mp second).1⟩
  · rw [routed.leads, other, mem_cons, not_or, and_assoc]
  · obtain ⟨a, there⟩ := routed.orphaned i (.tail _ member)
    exact ⟨a, other.mpr ⟨there, fun eq => alone (eq ▸ member)⟩⟩

/-- Routes are given up; the slots they led to are orphans. -/
theorem unroute (routed : Routed route addressed []) {route' : α → Option Nat} {lost : α → Prop}
    (routes : ∀ a, (lost a → route' a = none) ∧ (¬lost a → route' a = route a))
    (nodup : orphans.Nodup) (slots : ∀ slot, slot ∈ orphans ↔ ∃ a, route a = some slot ∧ lost a) :
    Routed route' addressed orphans := by
  have owned : ∀ {a slot}, route a = some slot ↔ addressed slot = some a := by
    simp [routed.leads]
  refine ⟨fun {a slot} => ?_, fun slot member => ?_, nodup, routed.distinct⟩
  · rw [slots]
    constructor
    · intro found
      have kept : ¬lost a := fun gone => by
        rw [(routes a).1 gone] at found
        cases found
      rw [(routes a).2 kept, owned] at found
      refine ⟨found, fun ⟨b, was, gone⟩ => kept ?_⟩
      rw [owned, found] at was
      exact Option.some.inj was ▸ gone
    · rintro ⟨there, notIn⟩
      have kept : ¬lost a := fun gone => notIn ⟨a, owned.mpr there, gone⟩
      rw [(routes a).2 kept, owned, there]
  · obtain ⟨a, was, _⟩ := (slots slot).mp member
    exact ⟨a, owned.mp was⟩

/-- A new address goes to a slot that had none. -/
theorem fill [DecidableEq α] (routed : Routed route addressed []) {a : α} (fresh : route a = none)
    (empty : addressed slot = none) :
    Routed (update route a (some slot)) (update addressed slot (some a)) [] := by
  have new : ∀ {i}, addressed i ≠ some a := by
    intro i there
    rw [routed.leads.mpr ⟨there, not_mem_nil⟩] at fresh
    cases fresh
  have split : ∀ {i b}, update addressed slot (some a) i = some b ↔
      i = slot ∧ b = a ∨ addressed i = some b := by
    intro i b
    by_cases eq : i = slot
    · simp [eq, empty, eq_comm]
    · simp [eq]
  refine ⟨fun {b i} => ?_, by simp, nodup_nil, fun {i j b} first second => ?_⟩
  · rw [split, update_apply]
    split_ifs with same
    · simp [same, new, eq_comm]
    · simp [same, routed.leads]
  · rcases split.mp first with ⟨rfl, rfl⟩ | before <;> rcases split.mp second with ⟨rfl, same⟩ | before'
    · rfl
    · exact absurd before' new
    · exact absurd (same ▸ before) new
    · exact routed.distinct before before'

/-- Addresses are given up together with their slots. -/
theorem restrict (routed : Routed route addressed []) (lost : α → Prop) [DecidablePred lost] :
    Routed (fun a => if lost a then none else route a)
      (fun slot => (addressed slot).filter fun a => ¬lost a) [] := by
  refine ⟨fun {a slot} => ?_, by simp, nodup_nil, fun {i j a} first second => ?_⟩
  · by_cases gone : lost a
    · simp [gone, Option.filter_eq_some_iff]
    · simp [gone, Option.filter_eq_some_iff, routed.leads]
  · exact routed.distinct (Option.filter_eq_some_iff.mp first).1 (Option.filter_eq_some_iff.mp second).1

end Routed

/-! ### Tables of tables -/

section Tables

variable {κ ν : Type} [DecidableEq κ] [DecidableEq ν]
variable {tables : AList fun _ : κ => AList fun _ : ν => Nat} {table : AList fun _ : ν => Nat}

/-- The slot of an address, in the table of its first component. -/
def routeIn (tables : AList fun _ : κ => AList fun _ : ν => Nat) (a : κ × ν) : Option Nat :=
  (tables.lookup a.1).bind fun table => table.lookup a.2

theorem routeIn_of_lookup {c : κ} (found : tables.lookup c = some table) (k : ν) :
    routeIn tables (c, k) = table.lookup k := by
  rw [routeIn, found, Option.bind_some]

theorem routeIn_insert (c : κ) (table : AList fun _ : ν => Nat) (a : κ × ν) :
    routeIn (tables.insert c table) a = if a.1 = c then table.lookup a.2 else routeIn tables a := by
  unfold routeIn
  split_ifs with same
  · rw [same, AList.lookup_insert, Option.bind_some]
  · rw [AList.lookup_insert_ne same]

theorem routeIn_erase (c : κ) (a : κ × ν) :
    routeIn (tables.erase c) a = if a.1 = c then none else routeIn tables a := by
  unfold routeIn
  split_ifs with same
  · rw [same, AList.lookup_erase, Option.bind_none]
  · rw [AList.lookup_erase_ne same]

theorem update_routeIn {c : κ} {k : ν} {value : Option Nat} (entry : ν → Option Nat)
    (here : ∀ k', entry k' = if k' = k then value else routeIn tables (c, k')) (a : κ × ν) :
    (if a.1 = c then entry a.2 else routeIn tables a)
      = update (routeIn tables) (c, k) value a := by
  obtain ⟨c', k'⟩ := a
  rw [update_apply, here]
  by_cases conn : c' = c
  · simp [conn]
  · simp [conn]

theorem routeIn_put (c : κ) (k : ν) (slot : Nat) :
    routeIn (tables.insert c (((tables.lookup c).getD ∅).insert k slot))
      = update (routeIn tables) (c, k) (some slot) := by
  funext a
  rw [routeIn_insert]
  refine update_routeIn (AList.lookup · (((tables.lookup c).getD ∅).insert k slot)) (fun k' => ?_) a
  split_ifs with same
  · rw [same, AList.lookup_insert]
  · rw [AList.lookup_insert_ne same, routeIn]
    cases tables.lookup c <;> rfl

theorem routeIn_remove {c : κ} (found : tables.lookup c = some table) (k : ν) :
    routeIn (if (table.erase k).entries.isEmpty then tables.erase c
      else tables.insert c (table.erase k)) = update (routeIn tables) (c, k) none := by
  funext a
  rw [← update_routeIn (AList.lookup · (table.erase k)) fun k' => ?_]
  · split_ifs with empty same same
    · have none : table.erase k = ∅ := AList.ext (isEmpty_iff.mp empty)
      rw [routeIn_erase, if_pos same, none, AList.lookup_empty]
    · rw [routeIn_erase, if_neg same]
    · rw [routeIn_insert, if_pos same]
    · rw [routeIn_insert, if_neg same]
  · split_ifs with same
    · rw [same, AList.lookup_erase]
    · rw [AList.lookup_erase_ne same, routeIn_of_lookup found]

/-- A table lists the slots that its addresses lead to, once each. -/
theorem Routed.entries {addressed : Nat → Option (κ × ν)}
    (routed : Routed (routeIn tables) addressed []) {c : κ} (found : tables.lookup c = some table) :
    (table.entries.map Sigma.snd).Nodup ∧ ∀ slot, slot ∈ table.entries.map Sigma.snd ↔
      ∃ a, routeIn tables a = some slot ∧ a.1 = c := by
  have leads : ∀ {k slot}, (⟨k, slot⟩ : Sigma fun _ => Nat) ∈ table.entries ↔
      routeIn tables (c, k) = some slot := by
    intro k slot
    rw [routeIn_of_lookup found]
    exact AList.mem_lookup_iff.symm
  constructor
  · refine List.Nodup.map_on ?_ table.nodupKeys.nodup
    rintro ⟨k, i⟩ left ⟨k', i'⟩ right same
    obtain rfl : i = i' := same
    have first := (routed.leads.mp (leads.mp left)).1
    rw [(routed.leads.mp (leads.mp right)).1] at first
    rw [(Prod.mk.inj (Option.some.inj first)).2]
  · intro slot
    rw [mem_map]
    constructor
    · rintro ⟨⟨k, i⟩, member, rfl⟩
      exact ⟨(c, k), leads.mp member, rfl⟩
    · rintro ⟨⟨_, k⟩, route, rfl⟩
      exact ⟨_, leads.mpr route, rfl⟩

end Tables

end Wok.Library
