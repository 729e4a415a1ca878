/-
**Sorted lists as ordered maps.**

A map with keys in a linear order is a list strictly increasing in the key. `insertBy` replaces the
element with the same key, `mergeBy` lets a second map override a first one, and a cursor over the
map is answered by `find?`: in a list in the order of travel, the first element that satisfies a
condition is the least one that does.

* `mem_insertBy`, `sortedBy_insertBy`, `mem_mergeBy`, `sortedBy_mergeBy` — the operations, by
  their elements.
* `foldl_insertBy_eq_insertionSort` — elements put in one by one come out sorted.
* `sortDedup` — the elements of a list in order, each once; `lookup_eq_some` — a map as its
  pairs.
* `find?_eq_some_of_least` — **the first match is the least match.**
* `filter_after_head` — the rest of a scan is what lies strictly after its head.
* `repeats_cons`, `repeats_perm` — how many elements of a list repeat another one.
-/

import Mathlib.Algebra.BigOperators.Group.List.Lemmas
import Mathlib.Algebra.GroupWithZero.Nat
import Mathlib.Data.List.Basic
import Mathlib.Data.List.Dedup
import Mathlib.Data.List.Find
import Mathlib.Data.List.Sort
import Mathlib.Order.Basic
import Mathlib.Tactic.Basic

namespace Wok.Library

open List

variable {α κ : Type*}

section Maps

variable [LinearOrder κ] (key : α → κ)

/-- Strictly increasing in the key. -/
def SortedBy (l : List α) : Prop := l.Pairwise fun a b => key a < key b

/-- Inserts an element in its place, replacing one with the same key. -/
def insertBy (a : α) : List α → List α
  | [] => [a]
  | b :: l =>
    if key a < key b then a :: b :: l
    else if key a = key b then a :: l
    else b :: insertBy a l

theorem length_insertBy_le (a : α) (l : List α) : (insertBy key a l).length ≤ l.length + 1 := by
  induction l with
  | nil => simp [insertBy]
  | cons b l ih =>
    rw [insertBy]
    split_ifs <;> simp only [length_cons] <;> omega

variable {key}
variable {a x : α} {l : List α}

theorem SortedBy.eq_of_key_eq (sorted : SortedBy key l) {b : α} (left : a ∈ l) (right : b ∈ l)
    (same : key a = key b) : a = b := by
  induction l with
  | nil => cases left
  | cons c l ih =>
    obtain ⟨first, rest⟩ := pairwise_cons.mp sorted
    rcases mem_cons.mp left with rfl | inside <;>
      rcases mem_cons.mp right with rfl | inside'
    · rfl
    · exact absurd same (first b inside').ne
    · exact absurd same (first a inside).ne'
    · exact ih rest inside inside'

theorem SortedBy.nodup (sorted : SortedBy key l) : l.Nodup := by
  refine List.Pairwise.imp ?_ sorted
  rintro a b less rfl
  exact lt_irrefl _ less

theorem SortedBy.ext {l' : List α} (sorted : SortedBy key l) (sorted' : SortedBy key l')
    (members : ∀ x, x ∈ l ↔ x ∈ l') : l = l' :=
  ((perm_ext_iff_of_nodup sorted.nodup sorted'.nodup).mpr members).eq_of_pairwise
    (fun _ _ _ _ less greater => absurd (less.trans greater) (lt_irrefl _)) sorted sorted'

theorem SortedBy.perm_cons {l' : List α} (sorted : SortedBy key l) (sorted' : SortedBy key l')
    (absent : a ∉ l) (members : ∀ x, x ∈ l' ↔ x = a ∨ x ∈ l) : l'.Perm (a :: l) := by
  refine (perm_ext_iff_of_nodup sorted'.nodup ?_).mpr fun x => ?_
  · exact nodup_cons.mpr ⟨absent, sorted.nodup⟩
  · rw [members, mem_cons]

theorem mem_of_mem_insertBy (member : x ∈ insertBy key a l) : x = a ∨ x ∈ l := by
  induction l with
  | nil => exact .inl (mem_singleton.mp member)
  | cons b l ih =>
    rw [insertBy] at member
    split_ifs at member
    · exact mem_cons.mp member
    · exact (mem_cons.mp member).imp_right (mem_cons_of_mem b)
    · rcases mem_cons.mp member with rfl | inside
      · exact .inr (.head _)
      · exact (ih inside).imp_right (mem_cons_of_mem b)

theorem mem_insertBy (sorted : SortedBy key l) :
    x ∈ insertBy key a l ↔ x = a ∨ x ∈ l ∧ key x ≠ key a := by
  induction l with
  | nil => simp [insertBy]
  | cons b l ih =>
    obtain ⟨first, rest⟩ := pairwise_cons.mp sorted
    rw [insertBy]
    split_ifs with less same
    · have apart : x ∈ b :: l → key x ≠ key a := by
        intro member
        rcases mem_cons.mp member with rfl | member
        · exact less.ne'
        · exact (less.trans (first x member)).ne'
      rw [mem_cons]
      exact or_congr_right ⟨fun member => ⟨member, apart member⟩, And.left⟩
    · have apart : x ∈ l → key x ≠ key a := fun member => same ▸ (first x member).ne'
      have head : ¬ (x = b ∧ key x ≠ key a) := fun both => both.2 (both.1 ▸ same.symm)
      rw [mem_cons, mem_cons, or_and_right]
      tauto
    · have greater : key b ≠ key a := fun same' => same same'.symm
      rw [mem_cons, ih rest, mem_cons, or_and_right]
      constructor
      · rintro (rfl | rfl | member)
        · exact Or.inr (Or.inl ⟨rfl, greater⟩)
        · exact Or.inl rfl
        · exact Or.inr (Or.inr member)
      · rintro (rfl | ⟨rfl, -⟩ | member)
        · exact Or.inr (Or.inl rfl)
        · exact Or.inl rfl
        · exact Or.inr (Or.inr member)

theorem sortedBy_insertBy (sorted : SortedBy key l) (a : α) : SortedBy key (insertBy key a l) := by
  induction l with
  | nil => simp [insertBy, SortedBy]
  | cons b l ih =>
    obtain ⟨first, rest⟩ := pairwise_cons.mp sorted
    rw [insertBy]
    split_ifs with less same
    · refine pairwise_cons.mpr ⟨fun c member => ?_, sorted⟩
      rcases mem_cons.mp member with rfl | member
      · exact less
      · exact less.trans (first c member)
    · exact pairwise_cons.mpr ⟨fun c member => same ▸ first c member, rest⟩
    · refine pairwise_cons.mpr ⟨fun c member => ?_, ih rest⟩
      rcases (mem_insertBy rest).mp member with rfl | ⟨member, -⟩
      · exact lt_of_le_of_ne (not_lt.mp less) fun same' => same same'.symm
      · exact first c member

theorem perm_insertBy (fresh : ∀ b ∈ l, key b ≠ key a) : (insertBy key a l).Perm (a :: l) := by
  induction l with
  | nil => exact .refl _
  | cons b l ih =>
    rw [insertBy]
    split_ifs with less same
    · exact .refl _
    · exact absurd same.symm (fresh b (.head _))
    · exact ((ih fun c member => fresh c (.tail b member)).cons b).trans (.swap a b l)

/-- Elements put in one by one, with different keys, are all there. -/
theorem perm_foldl_insertBy {acc : List α} (distinct : ((acc ++ l).map key).Nodup) :
    (l.foldl (fun acc a => insertBy key a acc) acc).Perm (acc ++ l) := by
  induction l generalizing acc with
  | nil => rw [append_nil]; exact .refl _
  | cons a l ih =>
    have fresh : ∀ b ∈ acc, key b ≠ key a := by
      intro b member same
      rw [map_append, map_cons] at distinct
      exact (nodup_append.mp distinct).2.2 _ (mem_map_of_mem member) _
        (.head _) same
    have moved : (insertBy key a acc ++ l).Perm (acc ++ a :: l) :=
      ((perm_insertBy fresh).append_right l).trans perm_middle.symm
    exact (ih ((moved.map key).nodup_iff.mpr distinct)).trans moved

theorem sortedBy_foldl_insertBy {acc : List α} (sorted : SortedBy key acc) (l : List α) :
    SortedBy key (l.foldl (fun acc a => insertBy key a acc) acc) := by
  induction l generalizing acc with
  | nil => exact sorted
  | cons a l ih => exact ih (sortedBy_insertBy sorted a)

/-- **Putting elements with different keys in one by one sorts them.** -/
theorem foldl_insertBy_eq_insertionSort (distinct : (l.map key).Nodup) :
    l.foldl (fun acc a => insertBy key a acc) [] = l.insertionSort fun a b => key a ≤ key b := by
  have sorted : SortedBy key (l.foldl (fun acc a => insertBy key a acc) []) :=
    sortedBy_foldl_insertBy .nil l
  have listed : (l.foldl (fun acc a => insertBy key a acc) []).Perm ([] ++ l) :=
    perm_foldl_insertBy distinct
  have perm := listed.trans (perm_insertionSort (fun a b => key a ≤ key b) l).symm
  refine perm.eq_of_pairwise ?_ (sorted.imp le_of_lt) (pairwise_insertionSort _ l)
  intro a b left right le ge
  exact sorted.eq_of_key_eq left (perm.mem_iff.mpr right) (le_antisymm le ge)

/-- The elements in order, each once. -/
def sortDedup (l : List κ) : List κ := l.foldr (insertBy id) []

theorem sortedBy_sortDedup (l : List κ) : SortedBy id (sortDedup l) := by
  induction l with
  | nil => exact List.Pairwise.nil
  | cons a l ih => exact sortedBy_insertBy ih a

@[simp] theorem mem_sortDedup {l : List κ} {x : κ} : x ∈ sortDedup l ↔ x ∈ l := by
  induction l with
  | nil => rfl
  | cons a l ih =>
    show x ∈ insertBy id a (sortDedup l) ↔ _
    rw [mem_insertBy (sortedBy_sortDedup l), ih, mem_cons]
    by_cases same : x = a
    · simp [same]
    · simp [same]

/-- A map overridden by a second one. -/
def mergeBy (key : α → κ) (base upper : List α) : List α :=
  upper.foldl (fun l a => insertBy key a l) base

theorem length_mergeBy_le (base upper : List α) :
    (mergeBy key base upper).length ≤ base.length + upper.length := by
  induction upper generalizing base with
  | nil => simp [mergeBy]
  | cons a upper ih =>
    have grown := length_insertBy_le key a base
    have rest := ih (insertBy key a base)
    rw [mergeBy, foldl_cons, ← mergeBy, length_cons]
    omega

theorem sortedBy_mergeBy {base : List α} (sorted : SortedBy key base) (upper : List α) :
    SortedBy key (mergeBy key base upper) := by
  induction upper generalizing base with
  | nil => exact sorted
  | cons a upper ih => exact ih (sortedBy_insertBy sorted a)

theorem mem_mergeBy {base upper : List α} (sorted : SortedBy key base)
    (sorted' : SortedBy key upper) :
    x ∈ mergeBy key base upper ↔ x ∈ upper ∨ x ∈ base ∧ ∀ a ∈ upper, key x ≠ key a := by
  induction upper generalizing base with
  | nil => simp [mergeBy]
  | cons a upper ih =>
    obtain ⟨first, rest⟩ := pairwise_cons.mp sorted'
    rw [mergeBy, foldl_cons, ← mergeBy, ih (sortedBy_insertBy sorted a) rest,
      mem_insertBy sorted]
    simp only [mem_cons, forall_eq_or_imp]
    constructor
    · rintro (member | ⟨rfl | ⟨member, apart⟩, others⟩)
      · exact Or.inl (Or.inr member)
      · exact Or.inl (Or.inl rfl)
      · exact Or.inr ⟨member, apart, others⟩
    · rintro ((rfl | member) | ⟨member, apart, others⟩)
      · exact Or.inr ⟨Or.inl rfl, fun b inside => (first b inside).ne⟩
      · exact Or.inl member
      · exact Or.inr ⟨Or.inr ⟨member, apart⟩, others⟩

theorem SortedBy.filter (sorted : SortedBy key l) (p : α → Bool) :
    SortedBy key (l.filter p) := List.Pairwise.filter p sorted

theorem find?_key_eq_some [DecidableEq κ] (sorted : SortedBy key l) {k : κ} :
    l.find? (fun b => key b = k) = some a ↔ a ∈ l ∧ key a = k := by
  constructor
  · intro found
    exact ⟨mem_of_find?_eq_some found, by simpa using find?_some found⟩
  · rintro ⟨member, same⟩
    cases found : l.find? (fun b => key b = k) with
    | none => exact absurd same (by simpa using find?_eq_none.mp found a member)
    | some b =>
      have other : key b = k := by simpa using find?_some found
      rw [sorted.eq_of_key_eq (mem_of_find?_eq_some found) member (other.trans same.symm)]

variable {β : Type*} [BEq κ] [LawfulBEq κ] [DecidableEq κ]

omit [LinearOrder κ] in
theorem lookup_cons_eq (k : κ) (entry : κ × β) (l : List (κ × β)) :
    (entry :: l).lookup k = if k = entry.1 then some entry.2 else l.lookup k := by
  by_cases same : k = entry.1
  · rw [lookup_cons, beq_iff_eq.mpr same, if_pos same]
  · rw [lookup_cons, beq_false_of_ne same, if_neg same]

theorem lookup_insertBy (l : List (κ × β)) (k k' : κ) (v : β) :
    (insertBy Prod.fst (k', v) l).lookup k = if k = k' then some v else l.lookup k := by
  induction l with
  | nil => exact lookup_cons_eq k (k', v) []
  | cons entry l ih =>
    rw [insertBy]
    rcases lt_trichotomy k' entry.1 with less | equal | greater
    · rw [if_pos less, lookup_cons_eq]
    · rw [if_neg equal.not_lt, if_pos equal, lookup_cons_eq, lookup_cons_eq k entry, ← equal]
      split_ifs <;> rfl
    · rw [if_neg greater.not_gt, if_neg greater.ne', lookup_cons_eq, lookup_cons_eq, ih]
      split_ifs with here same
      · exact absurd (same.symm.trans here) greater.ne'
      · rfl
      · rfl
      · rfl

theorem lookup_eq_some {l : List (κ × β)} (sorted : SortedBy Prod.fst l) {k : κ} {v : β} :
    l.lookup k = some v ↔ (k, v) ∈ l := by
  induction l with
  | nil => simp
  | cons entry l ih =>
    obtain ⟨below, rest⟩ := pairwise_cons.mp sorted
    rw [lookup_cons_eq, mem_cons]
    split_ifs with same
    · have apart : (k, v) ∉ l := fun member => (below _ member).ne same.symm
      rw [or_iff_left apart, Prod.ext_iff, and_iff_right same, Option.some.injEq, eq_comm]
    · simp [Prod.ext_iff, same, ih rest]

end Maps

section Scans

variable {lt : α → α → Prop}
variable {a : α} {l : List α} {p : α → Bool}

/-- **In a list in the order of travel the first match is the least one.** -/
theorem find?_eq_some_of_least (sorted : l.Pairwise lt) (asymm : ∀ a b, lt a b → ¬ lt b a)
    (member : a ∈ l) (holds : p a = true) (least : ∀ b ∈ l, p b = true → b = a ∨ lt a b) :
    l.find? p = some a := by
  induction l with
  | nil => cases member
  | cons c l ih =>
    obtain ⟨first, rest⟩ := pairwise_cons.mp sorted
    rcases mem_cons.mp member with rfl | inside
    · exact find?_cons_of_pos holds
    · by_cases head : p c = true
      · rcases least c mem_cons_self head with rfl | before
        · exact find?_cons_of_pos head
        · exact absurd (first a inside) (asymm a c before)
      · rw [find?_cons_of_neg head]
        exact ih rest inside fun b inner => least b (.tail c inner)

/-- The first match of a sorted list is before every other match. -/
theorem least_of_find? (sorted : l.Pairwise lt) (found : l.find? p = some a) :
    ∀ b ∈ l, p b = true → b = a ∨ lt a b := by
  induction l with
  | nil => cases found
  | cons c l ih =>
    obtain ⟨first, rest⟩ := pairwise_cons.mp sorted
    intro b member holds
    by_cases head : p c = true
    · rw [find?_cons_of_pos head, Option.some.injEq] at found
      subst found
      rcases mem_cons.mp member with rfl | inside
      · exact Or.inl rfl
      · exact Or.inr (first b inside)
    · rw [find?_cons_of_neg head] at found
      rcases mem_cons.mp member with rfl | inside
      · exact absurd holds head
      · exact ih rest found b inside holds

/-- **What is left of a scan after its head is what lies strictly after the head.** -/
theorem filter_after_head (sorted : l.Pairwise lt) (asymm : ∀ a b, lt a b → ¬ lt b a) {q : α → Bool}
    {rest : List α} (up : ∀ b c, p b = true → lt b c → p c = true)
    (strict : ∀ b, q b = true ↔ lt a b) (scan : l.filter p = a :: rest) : l.filter q = rest := by
  induction l with
  | nil => cases scan
  | cons c l ih =>
    obtain ⟨first, others⟩ := pairwise_cons.mp sorted
    by_cases head : p c = true
    · have all : l.filter p = l := filter_eq_self.mpr fun b inside => up c b head (first b inside)
      rw [filter_cons_of_pos head, all] at scan
      obtain ⟨rfl, rfl⟩ := cons_eq_cons.mp scan
      rw [filter_cons_of_neg fun bad => asymm c c ((strict c).mp bad) ((strict c).mp bad)]
      exact filter_eq_self.mpr fun b inside => (strict b).mpr (first b inside)
    · rw [filter_cons_of_neg head] at scan
      have holds : p a = true := of_mem_filter (scan ▸ mem_cons_self)
      rw [filter_cons_of_neg fun bad => head (up a c holds ((strict c).mp bad))]
      exact ih others scan

/-- Taking while a property holds takes every element with it, when it holds before each of
them. -/
theorem mem_takeWhile_of_pairwise (sorted : l.Pairwise lt)
    (down : ∀ a ∈ l, ∀ b ∈ l, lt a b → p b = true → p a = true) {x : α} :
    x ∈ l.takeWhile p ↔ x ∈ l ∧ p x = true := by
  induction l with
  | nil => simp
  | cons c l ih =>
    obtain ⟨first, rest⟩ := pairwise_cons.mp sorted
    have inner := ih rest fun a left b right =>
      down a (.tail c left) b (.tail c right)
    by_cases head : p c = true
    · rw [takeWhile_cons_of_pos head, mem_cons, mem_cons, inner]
      constructor
      · rintro (rfl | ⟨inside, holds⟩)
        · exact ⟨.inl rfl, head⟩
        · exact ⟨.inr inside, holds⟩
      · rintro ⟨rfl | inside, holds⟩
        · exact .inl rfl
        · exact .inr ⟨inside, holds⟩
    · rw [takeWhile_cons_of_neg head]
      refine iff_of_false (by simp) ?_
      rintro ⟨member, holds⟩
      rcases mem_cons.mp member with rfl | inside
      · exact head holds
      · exact head (down c mem_cons_self x member (first x inside) holds)

end Scans

/-! ### Repeated elements -/

section Repeats

variable [DecidableEq α]
variable {l : List α}

/-- How many elements of a list repeat another one: its length less that of its distinct
elements. -/
def repeats (l : List α) : Nat := l.length - l.dedup.length

theorem repeats_cons (a : α) (l : List α) :
    repeats (a :: l) = repeats l + if a ∈ l then 1 else 0 := by
  have bound : l.dedup.length ≤ l.length := (dedup_sublist l).length_le
  unfold repeats
  by_cases inside : a ∈ l
  · rw [dedup_cons_of_mem inside, if_pos inside, length_cons]
    omega
  · rw [dedup_cons_of_notMem inside, if_neg inside, length_cons, length_cons]
    omega

theorem repeats_perm {l' : List α} (perm : l.Perm l') : repeats l = repeats l' := by
  rw [repeats, repeats, perm.length_eq, perm.dedup.length_eq]

theorem repeats_concat (l : List α) (a : α) :
    repeats (l ++ [a]) = repeats l + if a ∈ l then 1 else 0 := by
  rw [repeats_perm perm_append_comm, singleton_append, repeats_cons]

theorem repeats_lt_length (filled : l ≠ []) : repeats l < l.length := by
  have some : 0 < l.length := length_pos_of_ne_nil filled
  have distinct : 0 < l.dedup.length :=
    length_pos_of_ne_nil (mt (dedup_eq_nil l).mp filled)
  unfold repeats
  omega

/-- The repeated elements are those beyond the first of each. -/
theorem repeats_eq_sum (l : List α) : repeats l = (l.dedup.map fun a => l.count a - 1).sum := by
  have lowered : ∀ d : List α, (∀ a ∈ d, 0 < l.count a) →
      (d.map fun a => l.count a - 1).sum + d.length = (d.map fun a => l.count a).sum := by
    intro d
    induction d with
    | nil => simp
    | cons a d ih =>
      intro present
      obtain ⟨here, rest⟩ := forall_mem_cons.mp present
      have tail := ih rest
      simp only [map_cons, sum_cons, length_cons]
      omega
  have all := lowered l.dedup fun a member => count_pos_iff.mpr (mem_dedup.mp member)
  rw [sum_map_count_dedup_eq_length] at all
  unfold repeats
  omega

theorem nodup_of_repeats_eq_zero (none : repeats l = 0) : l.Nodup := by
  have sub := dedup_sublist l
  have same : l.dedup = l := sub.eq_of_length_le (Nat.sub_eq_zero_iff_le.mp none)
  exact same ▸ nodup_dedup l

end Repeats

/-- In an ascending list an element that comes again is the last one. -/
theorem getLast?_of_mem_ascending {κ : Type*} [PartialOrder κ] {l : List κ} {a : κ}
    (ascending : (l ++ [a]).Pairwise (· ≤ ·)) (member : a ∈ l) : l.getLast? = some a := by
  obtain ⟨within, _, below⟩ := pairwise_append.mp ascending
  rcases eq_nil_or_concat l with rfl | ⟨before, last, rfl⟩
  · cases member
  · rw [concat_eq_append] at within below member ⊢
    rw [getLast?_concat]
    have high : last ≤ a := below last (by simp) a (mem_singleton_self _)
    rcases mem_append.mp member with earlier | here
    · have low : a ≤ last :=
        (pairwise_append.mp within).2.2 a earlier last (mem_singleton_self _)
      rw [le_antisymm high low]
    · rw [mem_singleton.mp here]

end Wok.Library
