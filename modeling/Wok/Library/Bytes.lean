/-
**Bytes and fixed-width integers.**

* `Byte`, `Bytes` — bytes, and byte strings in lexicographic order. `Byte.not` is the complement.
* `leBytes w n`, `leVal` — the `w` little-endian bytes of `n` and back (`leVal_leBytes`,
  `leBytes_leVal`); `beBytes`, `beVal` the same with the most significant byte first.
* `beBytes_below` — **big-endian bytes are ordered as the numbers they spell**, at a byte both
  have; `lt_iff_beVal_lt` for any two strings of one length.
-/

import Wok.Library.Order
import Mathlib.Tactic.Ring
import Mathlib.Tactic.NormNum

namespace Wok.Library

variable {s t : Bytes}

/-- One byte. -/
abbrev Byte := Fin 256

instance instNeZeroByte : NeZero 256 := ⟨by decide⟩

instance instNeZeroU64 : NeZero (2 ^ 64) := ⟨by decide⟩

/-- A byte string. -/
abbrev Bytes := List Byte

/-- The complement of a byte, `!b`. -/
def Byte.not (b : Byte) : Byte := Fin.rev b

@[simp] theorem Byte.not_not (b : Byte) : Byte.not (Byte.not b) = b := Fin.rev_rev b

theorem Byte.not_lt_not (a b : Byte) (less : a < b) : Byte.not b < Byte.not a :=
  Fin.rev_lt_rev.mpr less

/-- Every byte complemented. -/
def complement (s : Bytes) : Bytes := s.map Byte.not

@[simp] theorem complement_complement (s : Bytes) : complement (complement s) = s := by
  simp [complement, Function.comp_def]

@[simp] theorem complement_append (s t : Bytes) :
    complement (s ++ t) = complement s ++ complement t := List.map_append

theorem complement_injective : Function.Injective complement :=
  Function.LeftInverse.injective complement_complement

/-- Complementing exchanges the two sides of `Below`. -/
theorem Below.complement (below : Below s t) :
    Below (Library.complement t) (Library.complement s) :=
  below.map_antitone Byte.not_lt_not

/-- Complementing reverses the order of strings that differ at a byte both have. -/
theorem complement_le (ahead : s < t → Below s t) (behind : t < s → Below t s) :
    complement t ≤ complement s ↔ s ≤ t := by
  constructor
  · intro le
    by_contra greater
    exact absurd le (not_le.mpr (behind (not_le.mp greater)).complement.lt)
  · intro le
    rcases le.lt_or_eq with less | same
    · exact (ahead less).complement.lt.le
    · rw [same]

theorem complement_prefix_iff : complement s <+: complement t ↔ s <+: t := by
  constructor
  · intro pre
    have := pre.map Byte.not
    simpa [complement, Function.comp_def] using this
  · exact fun pre => pre.map Byte.not

/-! ### Little-endian integers -/

variable {n w : Nat}

/-- The `w` little-endian bytes of `n`. -/
def leBytes : Nat → Nat → Bytes
  | 0, _ => []
  | w + 1, n => Fin.ofNat 256 n :: leBytes w (n / 256)

/-- The number spelled by little-endian bytes. -/
def leVal : Bytes → Nat
  | [] => 0
  | b :: s => b.val + 256 * leVal s

@[simp] theorem leBytes_length (w n : Nat) : (leBytes w n).length = w := by
  induction w generalizing n with
  | zero => rfl
  | succ w ih => simp [leBytes, ih]

theorem leVal_lt (s : Bytes) : leVal s < 256 ^ s.length := by
  induction s with
  | nil => simp [leVal]
  | cons b s ih =>
    have small : b.val < 256 := b.isLt
    rw [leVal, List.length_cons, pow_succ]
    omega

theorem leVal_leBytes (small : n < 256 ^ w) : leVal (leBytes w n) = n := by
  induction w generalizing n with
  | zero =>
    rw [pow_zero] at small
    simp only [leBytes, leVal]
    omega
  | succ w ih =>
    have quotient : n / 256 < 256 ^ w := by
      rw [pow_succ] at small
      omega
    rw [leBytes, leVal, ih quotient, Fin.val_ofNat]
    omega

theorem leBytes_leVal (s : Bytes) : leBytes s.length (leVal s) = s := by
  induction s with
  | nil => rfl
  | cons b s ih =>
    have small : b.val < 256 := b.isLt
    have quotient : (b.val + 256 * leVal s) / 256 = leVal s := by omega
    rw [List.length_cons, leBytes, leVal, quotient, ih]
    congr 1
    apply Fin.ext
    rw [Fin.val_ofNat]
    omega

theorem leVal_append (s t : Bytes) : leVal (s ++ t) = leVal s + 256 ^ s.length * leVal t := by
  induction s with
  | nil => simp [leVal]
  | cons b s ih =>
    rw [List.cons_append, leVal, leVal, ih, List.length_cons, pow_succ]
    ring

/-! ### Big-endian integers -/

/-- The `w` big-endian bytes of `n`. -/
def beBytes (w n : Nat) : Bytes := (leBytes w n).reverse

/-- The number spelled by big-endian bytes. -/
def beVal (s : Bytes) : Nat := leVal s.reverse

@[simp] theorem beBytes_length (w n : Nat) : (beBytes w n).length = w := by simp [beBytes]

theorem beVal_beBytes (small : n < 256 ^ w) : beVal (beBytes w n) = n := by
  rw [beVal, beBytes, List.reverse_reverse, leVal_leBytes small]

theorem beVal_cons (b : Byte) (s : Bytes) : beVal (b :: s) = beVal s + 256 ^ s.length * b.val := by
  rw [beVal, List.reverse_cons, leVal_append]
  simp [leVal, beVal]

theorem beVal_lt (s : Bytes) : beVal s < 256 ^ s.length := by
  simpa [beVal] using leVal_lt s.reverse

/-- **Strings of one length are ordered as the numbers they spell.** -/
theorem lt_iff_beVal_lt (length : s.length = t.length) : s < t ↔ beVal s < beVal t := by
  induction s generalizing t with
  | nil =>
    cases t with
    | nil => simp
    | cons b t => simp at length
  | cons a s ih =>
    cases t with
    | nil => simp at length
    | cons b t =>
      have lengths : s.length = t.length := by simpa using length
      have smallS := beVal_lt s
      have smallT := beVal_lt t
      rw [List.cons_lt_cons_iff, beVal_cons, beVal_cons, ih lengths, ← lengths]
      rw [← lengths] at smallT
      generalize 256 ^ s.length = base at *
      constructor
      · rintro (less | ⟨rfl, less⟩)
        · have step : base * a.val + base ≤ base * b.val := by
            rw [← Nat.mul_succ]
            exact Nat.mul_le_mul_left _ less
          omega
        · omega
      · intro less
        rcases lt_trichotomy a b with smaller | rfl | larger
        · exact Or.inl smaller
        · exact Or.inr ⟨rfl, by omega⟩
        · have step : base * b.val + base ≤ base * a.val := by
            rw [← Nat.mul_succ]
            exact Nat.mul_le_mul_left _ larger
          omega

/-- **Big-endian bytes of one width, ordered as the numbers.** -/
theorem beBytes_below {m : Nat} (less : n < m) (small : m < 256 ^ w) :
    Below (beBytes w n) (beBytes w m) := by
  refine below_of_lt_of_length (by simp) ?_
  rw [lt_iff_beVal_lt (by simp), beVal_beBytes small, beVal_beBytes (less.trans small)]
  exact less

end Wok.Library
