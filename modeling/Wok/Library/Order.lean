/-
**Byte strings told apart by a byte both have.**

Lexicographic order is not preserved when something is appended to one of two strings, or when
every byte is complemented, as long as one string may be a prefix of the other. `Below s t` is the
part of the order that survives: `s` and `t` agree up to a position where both have an element,
and `s` has the smaller one there.

* `Below.lt`, `Below.not_extends` — it implies `s < t`, and that neither is a prefix of the other.
* `Below.append`, `Below.map_antitone` — it survives appending anything on either side, and
  complementing (with the sides exchanged).
* `below_of_lt_of_not_extends`, `below_of_lt_of_length` — where neither string is a prefix of the
  other it is the lexicographic order.
* `cmp_append` — **concatenating an ordered code with anything compares code first**.

A key codec whose parts are all ordered by `Below` is therefore an order embedding for the
concatenation, prefix free, and reversed by complementing.
-/

import Mathlib.Data.List.Lex
import Mathlib.Order.Fin.Basic
import Mathlib.Tactic.Basic

namespace Wok.Library

section Below

variable {α β : Type*}
variable {s t : List α}

/-- **`s` is smaller than `t` at a position both have.** -/
inductive Below [LT α] : List α → List α → Prop
  | head {a b : α} (s t : List α) : a < b → Below (a :: s) (b :: t)
  | tail (a : α) {s t : List α} : Below s t → Below (a :: s) (a :: t)

namespace Below

variable {s t : List α}

theorem append [LT α] (below : Below s t) (u v : List α) : Below (s ++ u) (t ++ v) := by
  induction below with
  | head s t less => exact .head _ _ less
  | tail a _ ih => exact .tail a ih

theorem map_antitone [LT α] [LT β] {f : α → β} (antitone : ∀ a b, a < b → f b < f a)
    (below : Below s t) : Below (t.map f) (s.map f) := by
  induction below with
  | head s t less => exact .head _ _ (antitone _ _ less)
  | tail a _ ih => exact .tail (f a) ih

theorem lt [LinearOrder α] (below : Below s t) : s < t := by
  induction below with
  | head s t less => exact List.cons_lt_cons_iff.mpr (Or.inl less)
  | tail a _ ih => exact List.cons_lt_cons_iff.mpr (Or.inr ⟨rfl, ih⟩)

theorem not_extends [LinearOrder α] (below : Below s t) : ¬ s <+: t ∧ ¬ t <+: s := by
  induction below with
  | head s t less =>
    constructor
    · exact fun pre => less.ne (List.cons_prefix_cons.mp pre).1
    · exact fun pre => less.ne (List.cons_prefix_cons.mp pre).1.symm
  | tail a _ ih =>
    constructor
    · exact fun pre => ih.1 (List.cons_prefix_cons.mp pre).2
    · exact fun pre => ih.2 (List.cons_prefix_cons.mp pre).2

end Below

/-- A smaller string that is no prefix is smaller at a position both have. -/
theorem below_of_lt_of_not_extends [LinearOrder α] (less : s < t) (noPrefix : ¬ s <+: t) :
    Below s t := by
  induction s generalizing t with
  | nil => exact absurd List.nil_prefix noPrefix
  | cons a s ih =>
    cases t with
    | nil => exact absurd less (List.not_lt_nil _)
    | cons b t =>
      rcases List.cons_lt_cons_iff.mp less with smaller | ⟨rfl, rest⟩
      · exact .head s t smaller
      · exact .tail a (ih rest fun pre => noPrefix (List.cons_prefix_cons.mpr ⟨rfl, pre⟩))

theorem below_of_lt_of_length [LinearOrder α] (length : s.length = t.length) (less : s < t) :
    Below s t :=
  below_of_lt_of_not_extends less fun pre => less.ne (pre.eq_of_length length)

/-! ### Comparing concatenations -/

variable {a b : α}

theorem empty_le [LinearOrder α] (s : List α) : [] ≤ s := not_lt.mp (List.not_lt_nil s)

theorem cons_le_cons_same [LinearOrder α] : a :: s ≤ a :: t ↔ s ≤ t := by
  rw [← not_lt, ← not_lt, List.cons_lt_cons_iff]
  simp

theorem prefix_le [LinearOrder α] (pre : s <+: t) : s ≤ t := by
  obtain ⟨rest, rfl⟩ := pre
  induction s with
  | nil => exact empty_le _
  | cons a s ih => exact cons_le_cons_same.mpr ih

theorem append_le_append_same [LinearOrder α] (p : List α) : p ++ s ≤ p ++ t ↔ s ≤ t := by
  induction p with
  | nil => exact Iff.rfl
  | cons a p ih => exact cons_le_cons_same.trans ih

/-- Strings that begin with parts of one length are ordered by these parts first. -/
theorem le_of_append_le_append [LinearOrder α] {u v : List α} (length : s.length = t.length)
    (le : s ++ u ≤ t ++ v) : s ≤ t := by
  by_contra greater
  have below := below_of_lt_of_length length.symm (not_le.mp greater)
  exact absurd (below.append v u).lt (not_lt.mpr le)

/-- Lists decide `<` as their linear order does: the lemmas about `cmp` are in its terms. -/
instance (priority := 2000) decidableLT [LinearOrder α] : DecidableLT (List α) :=
  LinearOrder.toDecidableLT

theorem cmp_ne_gt_iff [LinearOrder α] : cmp a b ≠ .gt ↔ a ≤ b := by
  rw [← not_lt, ← cmp_eq_gt_iff a b]

theorem cmp_append_same [LinearOrder α] (p u v : List α) :
    cmp (p ++ u) (p ++ v) = cmp u v := by
  have lift : ∀ {s t : List α}, s < t → p ++ s < p ++ t := fun less => by
    induction p with
    | nil => exact less
    | cons a p ih => exact List.cons_lt_cons_iff.mpr (Or.inr ⟨rfl, ih⟩)
  rcases lt_trichotomy u v with less | rfl | greater
  · rw [less.cmp_eq_lt, LT.lt.cmp_eq_lt (lift less)]
  · rw [cmp_self_eq_eq, cmp_self_eq_eq]
  · rw [greater.cmp_eq_gt, LT.lt.cmp_eq_gt (lift greater)]

/-- **Comparing two codes with anything appended**: the coded values decide, then the rest. -/
theorem cmp_append {κ : Type*} [LinearOrder κ] [LinearOrder α] (code : κ → List α) (a b : κ)
    (up : a < b → Below (code a) (code b)) (down : b < a → Below (code b) (code a))
    (u v : List α) :
    cmp (code a ++ u) (code b ++ v) = (cmp a b).then (cmp u v) := by
  rcases lt_trichotomy a b with less | rfl | greater
  · rw [less.cmp_eq_lt, LT.lt.cmp_eq_lt ((up less).append u v).lt]
    rfl
  · rw [cmp_append_same, cmp_self_eq_eq]
    rfl
  · rw [greater.cmp_eq_gt, LT.lt.cmp_eq_gt ((down greater).append v u).lt]
    rfl

end Below

end Wok.Library
