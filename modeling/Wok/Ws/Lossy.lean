/-
**Bytes read as text.**

Header values are bytes; `String::from_utf8_lossy` reads them, with `U+FFFD` for each longest start
of a sequence that is not UTF-8. Text is a list of characters.

* `fromUtf8Lossy_append` — **an ASCII byte stands for itself wherever it is**, and splits what is
  before it from what is after it.
* `fromUtf8Lossy_ascii` — ASCII text is read as it is.
* `readChar_high` — what is read from other bytes is not ASCII.
-/

import Wok.Event.Text

namespace Wok.Ws

open Wok.Library Wok.Event List

/-- Text, as characters. -/
abbrev Str := List Char

def asciiChar (b : Byte) : Char := Char.ofNat b.val

/-- The bytes of ASCII text. -/
def asciiBytes (s : Str) : Bytes := s.map fun c => Fin.ofNat 256 c.toNat

/-- `U+FFFD`. -/
def replacement : Char := Char.ofNat 0xfffd

/-- The low six bits of a continuation byte. -/
def tailBits (b : Byte) : Nat := b.val - 128

/-- The bytes a sequence of the lead byte `a` may continue with, one check for each. -/
def tailChecks (a : Byte) : List (Byte → Bool) :=
  if 194 ≤ a && a < 224 then [isTail]
  else if 224 ≤ a && a < 240 then [second3 a, isTail]
  else if 240 ≤ a && a < 245 then [second4 a, isTail, isTail]
  else []

/-- The bits of the lead byte. -/
def leadBits (a : Byte) : Nat :=
  if a < 128 then a.val
  else if a < 224 then a.val - 192
  else if a < 240 then a.val - 224
  else a.val - 240

/-- Reads the rest of a sequence: its code point, or nothing when it breaks off, and what follows
the bytes that were read. -/
def readTail : Nat → List (Byte → Bool) → Bytes → Option Nat × Bytes
  | code, [], rest => (some code, rest)
  | code, check :: checks, b :: rest =>
    if check b then readTail (code * 64 + tailBits b) checks rest else (none, b :: rest)
  | _, _ :: _, [] => (none, [])

/-- The character that starts with `a`, and the bytes after it. -/
def readChar (a : Byte) (rest : Bytes) : Char × Bytes :=
  if a < 128 then (asciiChar a, rest)
  else if (tailChecks a).isEmpty then (replacement, rest)
  else
    let (code, after) := readTail (leadBits a) (tailChecks a) rest
    ((code.map Char.ofNat).getD replacement, after)

theorem readTail_length (code : Nat) (checks : List (Byte → Bool)) (rest : Bytes) :
    (readTail code checks rest).2.length ≤ rest.length := by
  fun_induction readTail code checks rest with
  | case1 => exact le_rfl
  | case2 code check checks b rest passes ih =>
    exact ih.trans (Nat.le_succ _)
  | case3 => exact le_rfl
  | case4 => exact le_rfl

theorem readChar_length (a : Byte) (rest : Bytes) : (readChar a rest).2.length ≤ rest.length := by
  unfold readChar
  split_ifs
  · exact le_rfl
  · exact le_rfl
  · exact readTail_length _ _ _

/-- `String::from_utf8_lossy`. -/
def fromUtf8Lossy : Bytes → Str
  | [] => []
  | a :: rest => (readChar a rest).1 :: fromUtf8Lossy (readChar a rest).2
termination_by bytes => bytes.length
decreasing_by exact Nat.lt_succ_of_le (readChar_length a rest)

/-! ### ASCII bytes -/

variable {a b : Byte} {check : Byte → Bool} {checks : List (Byte → Bool)} {c : Char}

theorem tailChecks_tail (member : check ∈ tailChecks a) (passes : check b = true) :
    isTail b = true := by
  unfold tailChecks at member
  split_ifs at member
  · simp only [mem_singleton] at member
    exact member ▸ passes
  · simp only [mem_cons, not_mem_nil, or_false] at member
    rcases member with rfl | rfl
    · exact second3_tail passes
    · exact passes
  · simp only [mem_cons, not_mem_nil, or_false] at member
    rcases member with rfl | rfl | rfl
    · exact second4_tail passes
    · exact passes
    · exact passes
  · cases member

theorem tailChecks_ascii (member : check ∈ tailChecks a) (small : b < 128) : check b = false := by
  apply Bool.eq_false_of_not_eq_true
  intro passes
  exact absurd (isTail_range (tailChecks_tail member passes)).1 (not_le.mpr small)

theorem readTail_append (rejects : ∀ check ∈ checks, check b = false) (code : Nat) (s t : Bytes) :
    readTail code checks (s ++ b :: t)
      = ((readTail code checks s).1, (readTail code checks s).2 ++ b :: t) := by
  fun_induction readTail code checks s with
  | case1 code rest => rw [readTail]
  | case2 code check checks x rest passes ih =>
    rw [cons_append, readTail, if_pos passes]
    exact ih fun other member => rejects other (.tail check member)
  | case3 code check checks x rest fails =>
    rw [cons_append, readTail, if_neg fails]
  | case4 code check checks =>
    have fails := rejects check (.head _)
    rw [nil_append, readTail, fails]
    rfl

theorem readChar_append (small : b < 128) (a : Byte) (s t : Bytes) :
    readChar a (s ++ b :: t) = ((readChar a s).1, (readChar a s).2 ++ b :: t) := by
  unfold readChar
  split_ifs
  · rfl
  · rfl
  · simp only [readTail_append (fun check member => tailChecks_ascii member small)]

/-- **An ASCII byte is read as itself**, whatever is around it. -/
theorem fromUtf8Lossy_append (small : b < 128) (s t : Bytes) :
    fromUtf8Lossy (s ++ b :: t) = fromUtf8Lossy s ++ asciiChar b :: fromUtf8Lossy t := by
  fun_induction fromUtf8Lossy s with
  | case1 => rw [nil_append, fromUtf8Lossy, readChar, if_pos small, nil_append]
  | case2 a rest ih =>
    rw [cons_append, fromUtf8Lossy, readChar_append small, ih, cons_append]

theorem fromUtf8Lossy_nil : fromUtf8Lossy [] = [] := by
  rw [fromUtf8Lossy]

/-- A character below `U+0080`. -/
def IsAscii (c : Char) : Prop := c.toNat < 128

instance instDecidableIsAscii (c : Char) : Decidable (IsAscii c) :=
  inferInstanceAs (Decidable (c.toNat < 128))

theorem asciiChar_ofNat (small : IsAscii c) : asciiChar (Fin.ofNat 256 c.toNat) = c := by
  have fits : c.toNat < 256 := Nat.lt_trans small (by decide)
  rw [asciiChar, Fin.val_ofNat, Nat.mod_eq_of_lt fits, Char.ofNat_toNat]

theorem ofNat_small (small : IsAscii c) : (Fin.ofNat 256 c.toNat : Byte) < 128 := by
  have fits : c.toNat < 256 := Nat.lt_trans small (by decide)
  rw [Fin.lt_def, Fin.val_ofNat, Nat.mod_eq_of_lt fits]
  exact small

theorem asciiChar_eq_iff (small : IsAscii c) : asciiChar b = c ↔ b = Fin.ofNat 256 c.toNat := by
  constructor
  · rintro rfl
    have valid : b.val.isValidChar := .inl (b.isLt.trans (by decide))
    have value : (asciiChar b).toNat = b.val := by
      rw [asciiChar, Char.ofNat, dif_pos valid]
      rfl
    rw [value]
    exact Fin.ext (Nat.mod_eq_of_lt b.isLt).symm
  · rintro rfl
    exact asciiChar_ofNat small

theorem fromUtf8Lossy_ascii {s : Str} (small : ∀ c ∈ s, IsAscii c) (t : Bytes) :
    fromUtf8Lossy (asciiBytes s ++ t) = s ++ fromUtf8Lossy t := by
  induction s with
  | nil => rfl
  | cons c s ih =>
    have first := small c (.head _)
    have rest := ih fun other member => small other (.tail c member)
    have split := fromUtf8Lossy_append (ofNat_small first) [] (asciiBytes s ++ t)
    rw [fromUtf8Lossy_nil, asciiChar_ofNat first, rest] at split
    exact split

/-! ### Other bytes -/

variable {after rest : Bytes} {found : Nat}

theorem readTail_grows {code : Nat} (read : readTail code checks rest = (some found, after)) :
    code * 64 ^ checks.length ≤ found := by
  fun_induction readTail code checks rest with
  | case1 code rest =>
    cases read
    simp
  | case2 code check checks b rest passes ih =>
    refine le_trans ?_ (ih read)
    rw [length_cons, pow_succ', ← mul_assoc]
    exact Nat.mul_le_mul_right _ (Nat.le_add_right _ _)
  | case3 => cases read
  | case4 => cases read

/-- There are no overlong forms: a lead byte without bits needs a large second byte. -/
theorem readTail_second {code low : Nat}
    (large : ∀ b, check b = true → low ≤ code * 64 + tailBits b)
    (read : readTail code (check :: checks) rest = (some found, after)) :
    low * 64 ^ checks.length ≤ found := by
  cases rest with
  | nil => cases read
  | cons b rest =>
    rw [readTail] at read
    split_ifs at read with passes
    · exact (Nat.mul_le_mul_right _ (large b passes)).trans (readTail_grows read)
    · cases read

theorem second3_large (range : 224 ≤ a ∧ a < 240) (b : Byte) (second : second3 a b = true) :
    2 ≤ (a.val - 224) * 64 + tailBits b := by
  have lower : 224 ≤ a.val := range.1
  by_cases least : a = 224
  · simp only [second3, if_pos least, Bool.and_eq_true, decide_eq_true_eq] at second
    have large : 160 ≤ b.val := second.1
    have bits : 2 ≤ tailBits b := by
      unfold tailBits
      omega
    exact bits.trans (Nat.le_add_left _ _)
  · have above : a.val ≠ 224 := fun same => least (Fin.ext same)
    omega

theorem second4_large (range : 240 ≤ a ∧ a < 245) (b : Byte) (second : second4 a b = true) :
    2 ≤ (a.val - 240) * 64 + tailBits b := by
  have lower : 240 ≤ a.val := range.1
  by_cases least : a = 240
  · simp only [second4, if_pos least, Bool.and_eq_true, decide_eq_true_eq] at second
    have large : 144 ≤ b.val := second.1
    have bits : 2 ≤ tailBits b := by
      unfold tailBits
      omega
    exact bits.trans (Nat.le_add_left _ _)
  · have above : a.val ≠ 240 := fun same => least (Fin.ext same)
    omega

theorem readTail_high (several : (tailChecks a).isEmpty = false)
    (read : readTail (leadBits a) (tailChecks a) rest = (some found, after)) : 128 ≤ found := by
  have step : ∀ {x y : Byte}, x ≤ a → y ≤ x → ¬a < y := fun least le =>
    not_lt.mpr (le.trans least)
  unfold tailChecks at read several
  split_ifs at read several with two three four
  · simp only [Bool.and_eq_true, decide_eq_true_eq] at two
    rw [leadBits, if_neg (step two.1 (by decide)), if_pos two.2] at read
    have lower : 194 ≤ a.val := two.1
    have grows := readTail_grows read
    rw [length_singleton, pow_one] at grows
    omega
  · simp only [Bool.and_eq_true, decide_eq_true_eq] at three
    rw [leadBits, if_neg (step three.1 (by decide)), if_neg (step three.1 (by decide)),
      if_pos three.2] at read
    exact readTail_second (second3_large three) read
  · simp only [Bool.and_eq_true, decide_eq_true_eq] at four
    rw [leadBits, if_neg (step four.1 (by decide)), if_neg (step four.1 (by decide)),
      if_neg (step four.1 (by decide))] at read
    exact le_trans (by decide) (readTail_second (second4_large four) read)
  · cases several

/-- What other bytes are read as is none of the ASCII characters but the null. -/
theorem readChar_high (high : ¬a < 128) (rest : Bytes) (small : IsAscii c) (visible : c ≠ '\x00') :
    (readChar a rest).1 ≠ c := by
  have large : ∀ n, 128 ≤ n → Char.ofNat n ≠ c := by
    rintro n least rfl
    unfold IsAscii at small
    by_cases valid : n.isValidChar
    · rw [Char.ofNat, dif_pos valid] at small
      exact absurd (show n < 128 from small) (not_lt.mpr least)
    · exact visible (by rw [Char.ofNat, dif_neg valid]; rfl)
  unfold readChar
  rw [if_neg high]
  split_ifs with single
  · exact large 0xfffd (by decide)
  · rw [Bool.not_eq_true] at single
    cases read : readTail (leadBits a) (tailChecks a) rest with
    | mk code after =>
      cases code with
      | none => exact large 0xfffd (by decide)
      | some found => exact large _ (readTail_high single read)

theorem readTail_consumes (tails : ∀ check ∈ checks, ∀ b, check b = true → isTail b = true)
    (code : Nat) (rest : Bytes) :
    ∃ consumed, rest = consumed ++ (readTail code checks rest).2 ∧ ∀ b ∈ consumed, ¬b < 128 := by
  fun_induction readTail code checks rest with
  | case1 | case3 | case4 => exact ⟨[], rfl, by simp⟩
  | case2 code check checks b rest passes ih =>
    obtain ⟨consumed, split, high⟩ :=
      ih fun other member => tails other (.tail check member)
    have first := (isTail_range (tails check (.head _) b passes)).1
    refine ⟨b :: consumed, by rw [cons_append, ← split], ?_⟩
    intro other member
    rcases mem_cons.mp member with rfl | inside
    · exact not_lt.mpr first
    · exact high other inside

/-- A character takes no ASCII byte after its first byte. -/
theorem readChar_consumes (a : Byte) (rest : Bytes) :
    ∃ consumed, rest = consumed ++ (readChar a rest).2 ∧ ∀ b ∈ consumed, ¬b < 128 := by
  unfold readChar
  split_ifs
  · exact ⟨[], rfl, by simp⟩
  · exact ⟨[], rfl, by simp⟩
  · exact readTail_consumes (fun check member b passes => tailChecks_tail member passes) _ _

end Wok.Ws
