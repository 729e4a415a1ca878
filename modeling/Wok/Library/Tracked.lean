/-
**Elements that know their place.**

A family of lists holds elements, each with a reference of its own, and a table says at which
position of its list each referenced element sits. An element is added at the end of a list. It is
removed by moving the last one of its list into its place, whose entry in the table then changes.

* `Tracks` — the table is right, and the lists hold exactly the live elements, each once.
* `Tracks.push`, `Tracks.remove` — **both operations keep the table right.**
* `Tracks.length_le` — a list is no longer than the references that are live in it.
-/

import Mathlib.Algebra.GroupWithZero.Nat
import Mathlib.Data.List.Basic
import Mathlib.Data.List.Perm.Subperm
import Mathlib.Logic.Function.Basic
import Mathlib.Tactic.Basic

namespace Wok.Library

open List Function

variable {κ ρ α : Type}

/-! ### Removal by the last element -/

/-- The list without the element at `i`, the last one moved into its place. -/
def swapRemove (l : List α) (i : Nat) : List α :=
  match l.getLast? with
  | some last => (l.set i last).dropLast
  | none => []

theorem getElem?_swapRemove {l : List α} {i : Nat} (inside : i < l.length) (j : Nat) :
    (swapRemove l i)[j]?
      = if j < l.length - 1 then (if j = i then l[l.length - 1]? else l[j]?) else none := by
  have last : l.getLast? = l[l.length - 1]? := getLast?_eq_getElem?
  have there : l.length - 1 < l.length := by omega
  rw [getElem?_eq_getElem there] at last
  unfold swapRemove
  rw [last]
  dsimp only
  rw [getElem?_dropLast, length_set, getElem?_set, getElem?_eq_getElem there]
  split_ifs <;> first | rfl | omega

/-! ### Totals -/

theorem sum_map_set (f : α → Nat) {l : List α} {i : Nat} {old : α} (there : l[i]? = some old)
    (new : α) : ((l.set i new).map f).sum + f old = (l.map f).sum + f new := by
  induction l generalizing i with
  | nil => cases there
  | cons a l ih =>
    cases i with
    | zero =>
      cases there
      simp only [set_cons_zero, map_cons, sum_cons]
      omega
    | succ i =>
      have rest := ih there
      simp only [set_cons_succ, map_cons, sum_cons]
      omega

/-! ### The table of places -/

variable (ref : α → ρ)

/-- `live r` is the list and the element that `r` refers to; `place r` is where it sits. -/
structure Tracks (bucket : κ → List α) (place : ρ → Option Nat) (live : ρ → Option (κ × α)) :
    Prop where
  sound : ∀ {k i a}, (bucket k)[i]? = some a → live (ref a) = some (k, a) ∧ place (ref a) = some i
  complete : ∀ {r k a}, live r = some (k, a) → ref a = r ∧ ∃ i, place r = some i
    ∧ (bucket k)[i]? = some a

namespace Tracks

variable {ref} {bucket : κ → List α} {place : ρ → Option Nat} {live : ρ → Option (κ × α)}

theorem empty : Tracks ref (fun _ : κ => []) place (fun _ => none) where
  sound found := by simp at found
  complete found := by cases found

theorem congr (tracks : Tracks ref bucket place live) {bucket' : κ → List α}
    {place' : ρ → Option Nat} {live' : ρ → Option (κ × α)} (buckets : bucket' = bucket)
    (lives : live' = live) (places : ∀ r, live r ≠ none → place' r = place r) :
    Tracks ref bucket' place' live' where
  sound := by
    intro k i a found
    rw [buckets] at found
    obtain ⟨alive, there⟩ := tracks.sound found
    rw [lives, places _ (by simp [alive])]
    exact ⟨alive, there⟩
  complete := by
    intro r k a alive
    rw [lives] at alive
    obtain ⟨own, i, there, found⟩ := tracks.complete alive
    refine ⟨own, i, ?_, ?_⟩
    · rw [places _ (by simp [alive]), there]
    · rw [buckets, found]

variable [DecidableEq κ] [DecidableEq ρ]

/-- **Adding an element at the end of a list.** -/
theorem push (tracks : Tracks ref bucket place live) {k : κ} {a : α} (fresh : live (ref a) = none) :
    Tracks ref (update bucket k (bucket k ++ [a]))
      (update place (ref a) (some (bucket k).length))
      (update live (ref a) (some (k, a))) where
  sound := by
    intro k' i b found
    -- An element that was there before has another reference.
    have old : ∀ {k' i b}, (bucket k')[i]? = some b →
        update live (ref a) (some (k, a)) (ref b) = some (k', b)
          ∧ update place (ref a) (some (bucket k).length) (ref b) = some i := by
      intro k' i b found
      obtain ⟨alive, there⟩ := tracks.sound found
      have other : ref b ≠ ref a := fun same => by rw [same, fresh] at alive; cases alive
      rw [update_of_ne other, update_of_ne other]
      exact ⟨alive, there⟩
    by_cases here : k' = k
    · subst here
      rw [update_self, getElem?_append] at found
      split_ifs at found with before
      · exact old found
      · obtain ⟨at0, rfl⟩ := List.getElem?_eq_some_iff.mp found
        have last : i = (bucket k').length := by
          simp only [length_cons, length_nil] at at0
          omega
        simp [last]
    · rw [update_of_ne here] at found
      exact old found
  complete := by
    intro r k' b alive
    by_cases own : r = ref a
    · subst own
      rw [update_self] at alive
      obtain ⟨rfl, rfl⟩ := Prod.mk.inj (Option.some.inj alive)
      refine ⟨rfl, (bucket k).length, update_self .., ?_⟩
      rw [update_self, getElem?_concat_length]
    · rw [update_of_ne own] at alive
      obtain ⟨same, i, there, found⟩ := tracks.complete alive
      refine ⟨same, i, by rw [update_of_ne own, there], ?_⟩
      by_cases here : k' = k
      · subst here
        rw [update_self]
        rw [getElem?_append_left (List.getElem?_eq_some_iff.mp found).1, found]
      · rw [update_of_ne here, found]

/-- The places after the removal at `i` of a list: the element moved there, if any, has it. -/
def placesAfter (ref : α → ρ) (place : ρ → Option Nat) (moved : Option α) (i : Nat) :
    ρ → Option Nat :=
  match moved with
  | some a => update place (ref a) (some i)
  | none => place

/-- **Removing a live element from its place.** -/
theorem remove (tracks : Tracks ref bucket place live) {r : ρ} {k : κ} {a : α} {i : Nat}
    (alive : live r = some (k, a)) (there : place r = some i) :
    Tracks ref (update bucket k (swapRemove (bucket k) i))
      (placesAfter ref place (swapRemove (bucket k) i)[i]? i) (update live r none) := by
  obtain ⟨own, i', there', found⟩ := tracks.complete alive
  obtain rfl : i = i' := Option.some.inj (there.symm.trans there')
  have inside : i < (bucket k).length := (List.getElem?_eq_some_iff.mp found).1
  have after := getElem?_swapRemove inside
  -- Only the last element of the list, when it is another one, changes its place.
  have kept : ∀ {r' k' b j}, live r' = some (k', b) → place r' = some j →
      ¬(k' = k ∧ j = (bucket k).length - 1) →
      placesAfter ref place (swapRemove (bucket k) i)[i]? i r' = some j := by
    intro r' k' b j alive' placed notLast
    cases moved : (swapRemove (bucket k) i)[i]? with
    | none => exact placed
    | some m =>
      rw [after, if_pos rfl] at moved
      split_ifs at moved
      obtain ⟨aliveLast, placedLast⟩ := tracks.sound moved
      have other : r' ≠ ref m := by
        intro same
        rw [same, aliveLast] at alive'
        rw [same, placedLast] at placed
        exact notLast ⟨(congrArg Prod.fst (Option.some.inj alive')).symm,
          (Option.some.inj placed).symm⟩
      show update place (ref m) (some i) r' = some j
      rw [update_of_ne other, placed]
  refine ⟨fun {k' j b} found' => ?_, fun {r' k' b} alive' => ?_⟩
  · by_cases here : k' = k
    · subst here
      rw [update_self, after] at found'
      split_ifs at found' with before same
      · -- The last element now sits at `i`.
        subst same
        obtain ⟨aliveLast, placedLast⟩ := tracks.sound found'
        have other : ref b ≠ r := by
          intro same
          rw [same, there] at placedLast
          have := Option.some.inj placedLast
          omega
        rw [update_of_ne other, after, if_pos before, if_pos rfl, found']
        exact ⟨aliveLast, update_self ..⟩
      · obtain ⟨aliveOther, placedOther⟩ := tracks.sound found'
        have other : ref b ≠ r := by
          intro eq
          rw [eq, there] at placedOther
          exact same (Option.some.inj placedOther).symm
        rw [update_of_ne other]
        exact ⟨aliveOther, kept aliveOther placedOther (by omega)⟩
    · rw [update_of_ne here] at found'
      obtain ⟨aliveOther, placedOther⟩ := tracks.sound found'
      have other : ref b ≠ r := by
        intro eq
        rw [eq, alive] at aliveOther
        exact here (congrArg Prod.fst (Option.some.inj aliveOther)).symm
      rw [update_of_ne other]
      exact ⟨aliveOther, kept aliveOther placedOther fun both => here both.1⟩
  · have other : r' ≠ r := fun same => by rw [same, update_self] at alive'; cases alive'
    rw [update_of_ne other] at alive'
    obtain ⟨own', j, placed, found'⟩ := tracks.complete alive'
    refine ⟨own', ?_⟩
    by_cases here : k' = k
    · subst here
      rw [update_self]
      have apart : j ≠ i := by
        intro same
        rw [same, found] at found'
        exact other (own'.symm.trans ((congrArg ref (Option.some.inj found')).symm.trans own))
      have bound : j < (bucket k').length := (List.getElem?_eq_some_iff.mp found').1
      by_cases last : j = (bucket k').length - 1
      · have moved : (swapRemove (bucket k') i)[i]? = some b := by
          rw [after, if_pos (by omega), if_pos rfl, ← last, found']
        refine ⟨i, ?_, moved⟩
        rw [moved, ← own']
        exact update_self ..
      · refine ⟨j, kept alive' placed fun both => last both.2, ?_⟩
        rw [after, if_pos (by omega), if_neg apart, found']
    · rw [update_of_ne here]
      exact ⟨j, kept alive' placed fun both => here both.1, found'⟩

omit [DecidableEq κ] [DecidableEq ρ] in
/-- The elements of a list have different references, all of them live in it. -/
theorem length_le (tracks : Tracks ref bucket place live) (k : κ) {refs : List ρ}
    (all : ∀ r a, live r = some (k, a) → r ∈ refs) : (bucket k).length ≤ refs.length := by
  have distinct : ((bucket k).map ref).Nodup := by
    refine pairwise_map.mpr (pairwise_iff_getElem.mpr fun i j here there less same => ?_)
    have first := (tracks.sound (getElem?_eq_getElem here)).2
    rw [same, (tracks.sound (getElem?_eq_getElem there)).2] at first
    exact Nat.ne_of_gt less (Option.some.inj first)
  have subset : (bucket k).map ref ⊆ refs := by
    intro r member
    obtain ⟨a, inside, rfl⟩ := mem_map.mp member
    obtain ⟨i, found⟩ := mem_iff_getElem?.mp inside
    exact all _ a (tracks.sound found).1
  have bound := (distinct.subperm subset).length_le
  rwa [length_map] at bound

end Tracks

end Wok.Library
