/-
**Splitting and trimming lists.**

* `splitOnce`, `rsplitOnce` — at the first or the last occurrence of an element, as
  `str::split_once` and `str::rsplit_once` do.
* `trimMatches` — without the elements at the ends that a test accepts.
* `splitOnce_append`, `rsplitOnce_append` — **a part without the element is split off whole.**
* `trimMatches_append` — what is between two accepted ends is left.
-/

import Mathlib.Data.Bool.AllAny
import Mathlib.Data.List.DropRight

namespace Wok.Library

variable {α : Type}

section Split

variable [DecidableEq α]
variable {c : α}

/-- What is before and after the first `c`. -/
def splitOnce (c : α) (s : List α) : Option (List α × List α) :=
  match s.dropWhile (· ≠ c) with
  | [] => none
  | _ :: after => some (s.takeWhile (· ≠ c), after)

/-- What is before and after the last `c`. -/
def rsplitOnce (c : α) (s : List α) : Option (List α × List α) :=
  (splitOnce c s.reverse).map fun (after, before) => (before.reverse, after.reverse)

theorem splitOnce_append {s : List α} (absent : c ∉ s) (t : List α) :
    splitOnce c (s ++ c :: t) = some (s, t) := by
  have passes : ∀ x ∈ s, decide (x ≠ c) = true := by
    intro x member
    exact decide_eq_true fun same => absent (same ▸ member)
  rw [splitOnce, List.dropWhile_append_of_pos passes, List.takeWhile_append_of_pos passes]
  simp

theorem splitOnce_length {s before after : List α} (split : splitOnce c s = some (before, after)) :
    after.length < s.length := by
  have rest : (s.dropWhile (· ≠ c)).length ≤ s.length := (List.dropWhile_suffix _).length_le
  unfold splitOnce at split
  cases found : s.dropWhile (· ≠ c) with
  | nil =>
    rw [found] at split
    cases split
  | cons x tail =>
    rw [found] at split rest
    cases split
    exact rest

theorem rsplitOnce_append {t : List α} (absent : c ∉ t) (s : List α) :
    rsplitOnce c (s ++ c :: t) = some (s, t) := by
  have reversed : (s ++ c :: t).reverse = t.reverse ++ c :: s.reverse := by simp
  rw [rsplitOnce, reversed, splitOnce_append (by simpa using absent)]
  simp

theorem splitOnce_eq_none {s : List α} (absent : c ∉ s) : splitOnce c s = none := by
  have passes : s.dropWhile (· ≠ c) = [] := by
    rw [List.dropWhile_eq_nil_iff]
    intro x member
    exact decide_eq_true fun same => absent (same ▸ member)
  rw [splitOnce, passes]

theorem rsplitOnce_eq_none {s : List α} (absent : c ∉ s) : rsplitOnce c s = none := by
  rw [rsplitOnce, splitOnce_eq_none (by simpa using absent)]
  rfl

theorem rsplitOnce_length {s before after : List α} (split : rsplitOnce c s = some (before, after)) :
    before.length < s.length := by
  obtain ⟨⟨rest, ahead⟩, found, same⟩ := Option.map_eq_some_iff.mp split
  cases same
  simpa using splitOnce_length found

end Split

/-! ### Trimming -/

def trimMatches (p : α → Bool) (s : List α) : List α := (s.dropWhile p).rdropWhile p

variable {p : α → Bool} {s t : List α}

/-- Nothing is trimmed at an end the test rejects. -/
def StartsClear (p : α → Bool) (s : List α) : Prop := ∀ x ∈ s.head?, p x = false

def EndsClear (p : α → Bool) (s : List α) : Prop := ∀ x ∈ s.getLast?, p x = false

theorem StartsClear.append (first : StartsClear p s) (second : StartsClear p t) :
    StartsClear p (s ++ t) := by
  intro x starts
  rw [List.head?_append] at starts
  cases s with
  | nil => exact second x starts
  | cons y s => exact first x starts

theorem EndsClear.append (first : EndsClear p s) (second : EndsClear p t) :
    EndsClear p (s ++ t) := by
  intro x ends
  rw [List.getLast?_append] at ends
  cases last : t.getLast? with
  | none =>
    rw [last] at ends
    exact first x ends
  | some y =>
    rw [last] at ends
    exact second x (last ▸ ends)

theorem dropWhile_append_clear (space : ∀ x ∈ s, p x = true) (clear : StartsClear p t) :
    (s ++ t).dropWhile p = t := by
  rw [List.dropWhile_append_of_pos space]
  cases t with
  | nil => rfl
  | cons x t =>
    have rejected := clear x rfl
    rw [List.dropWhile_cons_of_neg (by simp [rejected])]

theorem rdropWhile_append_clear (clear : EndsClear p s) (space : ∀ x ∈ t, p x = true) :
    (s ++ t).rdropWhile p = s := by
  have reversed : (s ++ t).reverse = t.reverse ++ s.reverse := List.reverse_append
  have front := dropWhile_append_clear (s := t.reverse) (t := s.reverse) (p := p)
    (by simpa using space) (by simpa [StartsClear, EndsClear] using clear)
  rw [List.rdropWhile, reversed, front, List.reverse_reverse]

theorem trimMatches_append {middle : List α} (before : ∀ x ∈ s, p x = true)
    (after : ∀ x ∈ t, p x = true) (starts : StartsClear p middle) (ends : EndsClear p middle) :
    trimMatches p (s ++ (middle ++ t)) = middle := by
  cases middle with
  | nil =>
    have all : (s ++ ([] ++ t)).dropWhile p = [] := by
      rw [List.dropWhile_eq_nil_iff]
      simpa [or_imp, forall_and] using ⟨before, after⟩
    rw [trimMatches, all]
    rfl
  | cons x middle =>
    have clear : StartsClear p (x :: middle ++ t) := by simpa [StartsClear] using starts
    rw [trimMatches, dropWhile_append_clear before clear, rdropWhile_append_clear ends after]

end Wok.Library
