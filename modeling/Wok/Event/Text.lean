/-
**Text: UTF-8 strings, decimal numbers and lowercase hex.**

JSON strings are UTF-8 and are handled as bytes, so `Text` is a byte string that is well-formed
UTF-8. Numbers and keys inside strings are written in decimal and lowercase hex.

* `utf8Valid_ne_max` — no byte of a UTF-8 string is `0xFF`, so a marker byte `0xFF` tells hashed
  values from text.
* `digitsValue_decimal`, `decimal_digitsValue` — **decimal without leading zeros is the canonical
  spelling**: reading and writing undo each other on it.
* `fromLowerHex_toHex`, `toHex_fromLowerHex` — the same for hex.
-/

import Wok.Library.Bytes
import Mathlib.Data.Nat.Digits.Lemmas

namespace Wok.Event

open Wok.Library List

/-- The bytes of an ASCII string. -/
def ascii (s : String) : Bytes := s.toList.map fun c => Fin.ofNat 256 c.toNat

/-! ### UTF-8 -/

variable {b : Byte} {s t : Bytes}

/-- A continuation byte `10xxxxxx`. -/
def isTail (b : Byte) : Bool := 128 ≤ b && b < 192

/-- The second byte of a three-byte sequence: no overlong forms, no surrogates. -/
def second3 (a b : Byte) : Bool :=
  if a = 224 then 160 ≤ b && b < 192
  else if a = 237 then 128 ≤ b && b < 160
  else isTail b

/-- The second byte of a four-byte sequence: no overlong forms, nothing above `U+10FFFF`. -/
def second4 (a b : Byte) : Bool :=
  if a = 240 then 144 ≤ b && b < 192
  else if a = 244 then 128 ≤ b && b < 144
  else isTail b

/-- Well-formed UTF-8, as `std::str::from_utf8` checks it. -/
def utf8Valid : Bytes → Bool
  | [] => true
  | a :: rest =>
    if a < 128 then utf8Valid rest
    else if 194 ≤ a && a < 224 then
      match rest with
      | b :: rest => isTail b && utf8Valid rest
      | [] => false
    else if 224 ≤ a && a < 240 then
      match rest with
      | b :: c :: rest => second3 a b && isTail c && utf8Valid rest
      | _ => false
    else if 240 ≤ a && a < 245 then
      match rest with
      | b :: c :: d :: rest => second4 a b && isTail c && isTail d && utf8Valid rest
      | _ => false
    else false

theorem isTail_range (tail : isTail b = true) : 128 ≤ b ∧ b < 192 := by
  simpa [isTail] using tail

theorem isTail_of_range {low high : Byte} (least : 128 ≤ low) (greatest : high ≤ 192)
    (range : (low ≤ b && b < high) = true) : isTail b = true := by
  simp only [Bool.and_eq_true, decide_eq_true_eq] at range
  simpa [isTail] using ⟨least.trans range.1, range.2.trans_le greatest⟩

theorem second3_tail {a : Byte} (second : second3 a b = true) : isTail b = true := by
  unfold second3 at second
  split_ifs at second
  · exact isTail_of_range (by decide) (by decide) second
  · exact isTail_of_range (by decide) (by decide) second
  · exact second

theorem second4_tail {a : Byte} (second : second4 a b = true) : isTail b = true := by
  unfold second4 at second
  split_ifs at second
  · exact isTail_of_range (by decide) (by decide) second
  · exact isTail_of_range (by decide) (by decide) second
  · exact second

/-- **A UTF-8 string has no byte `0xFF`.** -/
theorem utf8Valid_ne_max (valid : utf8Valid s = true) : ∀ b ∈ s, b ≠ 255 := by
  have small : ∀ {b c : Byte}, b < c → c ≤ 245 → b ≠ 255 := by
    rintro b c less le rfl
    exact absurd (less.trans_le le) (by decide)
  fun_induction utf8Valid s with
  | case1 => simp
  | case2 a rest first ih =>
    intro b member
    rcases mem_cons.mp member with rfl | inside
    · exact small first (by decide)
    · exact ih valid b inside
  | case3 a notAscii first b rest ih =>
    simp only [Bool.and_eq_true, decide_eq_true_eq] at valid first
    intro x member
    simp only [mem_cons] at member
    rcases member with rfl | rfl | inside
    · exact small first.2 (by decide)
    · exact small (isTail_range valid.1).2 (by decide)
    · exact ih valid.2 x inside
  | case4 => cases valid
  | case5 a notAscii notTwo first b c rest ih =>
    simp only [Bool.and_eq_true, decide_eq_true_eq] at valid first
    intro x member
    simp only [mem_cons] at member
    rcases member with rfl | rfl | rfl | inside
    · exact small first.2 (by decide)
    · exact small (isTail_range (second3_tail valid.1.1)).2 (by decide)
    · exact small (isTail_range valid.1.2).2 (by decide)
    · exact ih valid.2 x inside
  | case6 => cases valid
  | case7 a notAscii notTwo notThree first b c d rest ih =>
    simp only [Bool.and_eq_true, decide_eq_true_eq] at valid first
    intro x member
    simp only [mem_cons] at member
    rcases member with rfl | rfl | rfl | rfl | inside
    · exact small first.2 (by decide)
    · exact small (isTail_range (second4_tail valid.1.1.1)).2 (by decide)
    · exact small (isTail_range valid.1.1.2).2 (by decide)
    · exact small (isTail_range valid.1.2).2 (by decide)
    · exact ih valid.2 x inside
  | case8 => cases valid
  | case9 => cases valid

/-- A UTF-8 string. -/
structure Text where
  bytes : Bytes
  valid : utf8Valid bytes = true
  deriving DecidableEq

theorem utf8Valid_nil : utf8Valid [] = true := rfl

theorem Text.ext_bytes {s t : Text} (same : s.bytes = t.bytes) : s = t := by
  cases s
  cases t
  simpa using same

theorem utf8Valid_cons (small : b < 128) (valid : utf8Valid s = true) :
    utf8Valid (b :: s) = true := by
  unfold utf8Valid
  rw [if_pos small]
  exact valid

theorem utf8Valid_ascii (small : ∀ b ∈ s, b < 128) : utf8Valid s = true := by
  induction s with
  | nil => rfl
  | cons b s ih =>
    exact utf8Valid_cons (small b (.head _)) <| ih fun c member => small c (.tail b member)

theorem utf8Valid_append (valid : utf8Valid s = true) (valid' : utf8Valid t = true) :
    utf8Valid (s ++ t) = true := by
  fun_induction utf8Valid s with
  | case1 => exact valid'
  | case2 a rest first ih =>
    exact utf8Valid_cons first (ih valid)
  | case3 a notAscii first b rest ih =>
    rw [Bool.and_eq_true] at valid
    simp only [cons_append, utf8Valid, if_neg notAscii, if_pos first, valid.1, ih valid.2,
      Bool.and_self]
  | case4 => cases valid
  | case5 a notAscii notTwo first b c rest ih =>
    rw [Bool.and_eq_true] at valid
    simp only [cons_append, utf8Valid, if_neg notAscii, if_neg notTwo, if_pos first, valid.1,
      ih valid.2, Bool.and_self]
  | case6 => cases valid
  | case7 a notAscii notTwo notThree first b c d rest ih =>
    rw [Bool.and_eq_true] at valid
    simp only [cons_append, utf8Valid, if_neg notAscii, if_neg notTwo, if_neg notThree,
      if_pos first, valid.1, ih valid.2, Bool.and_self]
  | case8 => cases valid
  | case9 => cases valid

/-- A byte of an ASCII text; others become `?`. -/
def asciiByte (b : Byte) : Byte := if b < 128 then b else 63

theorem asciiByte_lt (b : Byte) : asciiByte b < 128 := by
  unfold asciiByte
  split_ifs with small
  · exact small
  · decide

theorem utf8Valid_asciiByte (s : Bytes) : utf8Valid (s.map asciiByte) = true := by
  refine utf8Valid_ascii fun b member => ?_
  obtain ⟨c, _, rfl⟩ := mem_map.mp member
  exact asciiByte_lt c

/-- A literal of the source. -/
def Text.ofAscii (s : String) : Text := ⟨(ascii s).map asciiByte, utf8Valid_asciiByte (ascii s)⟩

/-! ### Decimal -/

def isDigit (b : Byte) : Bool := 48 ≤ b && b ≤ 57

def digitByte (d : Nat) : Byte := Fin.ofNat 256 (48 + d)

/-- `n` in decimal, without leading zeros. -/
def decimal (n : Nat) : Bytes :=
  if n = 0 then [48] else (Nat.digits 10 n).reverse.map digitByte

/-- The number a string of digits spells. -/
def digitsValue (s : Bytes) : Nat := s.foldl (fun n b => 10 * n + (b.val - 48)) 0

/-- `str::parse::<u64>` on a string of digits. -/
def parseU64 (s : Bytes) : Option Nat :=
  if s.isEmpty || !s.all isDigit then none
  else if digitsValue s < 2 ^ 64 then some (digitsValue s) else none

theorem digitByte_val {d : Nat} (small : d < 10) : (digitByte d).val = 48 + d := by
  show (48 + d) % 256 = 48 + d
  omega

theorem isDigit_digitByte {d : Nat} (small : d < 10) : isDigit (digitByte d) = true := by
  have value := digitByte_val small
  simp only [isDigit, Bool.and_eq_true, decide_eq_true_eq, Fin.le_def]
  rw [value]
  constructor
  · show 48 ≤ 48 + d
    omega
  · show 48 + d ≤ 57
    omega

theorem isDigit_val (digit : isDigit b = true) : 48 ≤ b.val ∧ b.val ≤ 57 := by
  simpa [isDigit, Fin.le_def] using digit

theorem digitByte_sub (digit : isDigit b = true) : digitByte (b.val - 48) = b := by
  have bounds := isDigit_val digit
  apply Fin.ext
  rw [digitByte_val (by omega)]
  omega

theorem decimal_isDigit (n : Nat) : (decimal n).all isDigit = true := by
  unfold decimal
  split_ifs with zero
  · decide
  · rw [all_eq_true]
    intro b member
    obtain ⟨d, inside, rfl⟩ := mem_map.mp member
    exact isDigit_digitByte (Nat.digits_lt_base (by decide) (mem_reverse.mp inside))

theorem decimal_ne_nil (n : Nat) : decimal n ≠ [] := by
  unfold decimal
  split_ifs with zero
  · simp
  · simpa [Nat.digits_eq_nil_iff_eq_zero] using zero

/-- The decimal form of a positive number starts with a digit other than zero. -/
theorem decimal_cons {n : Nat} (positive : n ≠ 0) :
    ∃ c rest, decimal n = c :: rest ∧ isDigit c = true ∧ c ≠ 48 := by
  have nonempty : Nat.digits 10 n ≠ [] := Nat.digits_ne_nil_iff_ne_zero.mpr positive
  have split := dropLast_append_getLast nonempty
  have small := Nat.digits_lt_base (m := n) (by decide : 1 < 10) (getLast_mem nonempty)
  have leading := Nat.getLast_digit_ne_zero 10 positive
  refine ⟨digitByte ((Nat.digits 10 n).getLast nonempty),
    (Nat.digits 10 n).dropLast.reverse.map digitByte, ?_, isDigit_digitByte small, ?_⟩
  · rw [decimal, if_neg positive]
    conv_lhs => rw [← split]
    simp
  · intro same
    have value := digitByte_val small
    rw [same] at value
    have zero : (48 : Nat) = 48 + (Nat.digits 10 n).getLast nonempty := value
    omega

theorem digitsValue_eq_ofDigits (s : Bytes) :
    digitsValue s = Nat.ofDigits 10 (s.reverse.map fun b => b.val - 48) := by
  induction s using List.reverseRecOn with
  | nil => rfl
  | append_singleton s b ih =>
    unfold digitsValue at ih ⊢
    rw [foldl_append, ih]
    simp [Nat.ofDigits_cons]
    ring

theorem digitsValue_decimal (n : Nat) : digitsValue (decimal n) = n := by
  unfold decimal
  split_ifs with zero
  · subst zero
    rfl
  · rw [digitsValue_eq_ofDigits, ← map_reverse, reverse_reverse, map_map]
    have same : (Nat.digits 10 n).map ((fun b : Byte => b.val - 48) ∘ digitByte)
        = Nat.digits 10 n := by
      conv_rhs => rw [← map_id (Nat.digits 10 n)]
      refine map_congr_left fun d member => ?_
      show (digitByte d).val - 48 = d
      rw [digitByte_val (Nat.digits_lt_base (by decide) member)]
      omega
    rw [same, Nat.ofDigits_digits]

/-- **Digits without a leading zero are the decimal form of their value.** -/
theorem decimal_digitsValue (digits : s.all isDigit = true)
    (plain : s = [48] ∨ s.head? ≠ some 48 ∧ s ≠ []) : decimal (digitsValue s) = s := by
  rcases plain with rfl | ⟨lead, full⟩
  · rfl
  · have small : ∀ d ∈ s.reverse.map fun b => b.val - 48, d < 10 := by
      intro d member
      obtain ⟨b, inside, rfl⟩ := mem_map.mp member
      have bounds := isDigit_val (all_eq_true.mp digits b (mem_reverse.mp inside))
      show b.val - 48 < 10
      omega
    have last : ∀ nonempty : (s.reverse.map fun b => b.val - 48) ≠ [],
        (s.reverse.map fun b => b.val - 48).getLast nonempty ≠ 0 := by
      intro nonempty
      cases s with
      | nil => exact absurd rfl full
      | cons b rest =>
        have bounds := isDigit_val (all_eq_true.mp digits b (.head _))
        have different : b.val ≠ 48 := fun same => lead (congrArg some (Fin.ext same))
        simp
        omega
    have spelled := Nat.digits_ofDigits 10 (by decide) _ small last
    have positive : digitsValue s ≠ 0 := by
      rw [← Nat.digits_ne_nil_iff_ne_zero (b := 10), digitsValue_eq_ofDigits, spelled]
      simpa using full
    unfold decimal
    rw [if_neg positive, digitsValue_eq_ofDigits, spelled, ← map_reverse,
      reverse_reverse, map_map]
    conv_rhs => rw [← map_id s]
    refine map_congr_left fun b member => ?_
    exact digitByte_sub (all_eq_true.mp digits b member)

/-! ### Lowercase hex -/

def hexDigit (n : Nat) : Byte := Fin.ofNat 256 (if n < 10 then 48 + n else 87 + n)

def toHex (s : Bytes) : Bytes :=
  s.flatMap fun b => [hexDigit (b.val / 16), hexDigit (b.val % 16)]

def isLowerHex (b : Byte) : Bool := isDigit b || (97 ≤ b && b ≤ 102)

def hexValue (b : Byte) : Nat := if b.val < 97 then b.val - 48 else b.val - 87

/-- `hex::decode` on lowercase digits. -/
def fromLowerHex : Bytes → Option Bytes
  | [] => some []
  | [_] => none
  | a :: b :: rest =>
    if isLowerHex a && isLowerHex b then
      (fromLowerHex rest).map (Fin.ofNat 256 (16 * hexValue a + hexValue b) :: ·)
    else none

theorem hexValue_hexDigit :
    ∀ n < 16, isLowerHex (hexDigit n) = true ∧ hexValue (hexDigit n) = n := by decide

theorem isLowerHex_val (digit : isLowerHex b = true) :
    48 ≤ b.val ∧ b.val ≤ 57 ∨ 97 ≤ b.val ∧ b.val ≤ 102 := by
  simpa [isLowerHex, isDigit, Fin.le_def] using digit

theorem hexDigit_hexValue (digit : isLowerHex b = true) :
    hexValue b < 16 ∧ hexDigit (hexValue b) = b := by
  have range := isLowerHex_val digit
  unfold hexValue
  split_ifs with decimalDigit
  · refine ⟨by omega, Fin.ext ?_⟩
    show (if b.val - 48 < 10 then 48 + (b.val - 48) else 87 + (b.val - 48)) % 256 = b.val
    rw [if_pos (by omega)]
    omega
  · refine ⟨by omega, Fin.ext ?_⟩
    show (if b.val - 87 < 10 then 48 + (b.val - 87) else 87 + (b.val - 87)) % 256 = b.val
    rw [if_neg (by omega)]
    omega

theorem toHex_cons (b : Byte) (s : Bytes) :
    toHex (b :: s) = hexDigit (b.val / 16) :: hexDigit (b.val % 16) :: toHex s := rfl

theorem toHex_length (s : Bytes) : (toHex s).length = 2 * s.length := by
  induction s with
  | nil => rfl
  | cons b s ih =>
    rw [toHex_cons, length_cons, length_cons, ih, length_cons]
    ring

theorem toHex_isLowerHex (s : Bytes) : (toHex s).all isLowerHex = true := by
  induction s with
  | nil => rfl
  | cons b s ih =>
    have high := (hexValue_hexDigit (b.val / 16) (by omega)).1
    have low := (hexValue_hexDigit (b.val % 16) (by omega)).1
    rw [toHex_cons, all_cons, all_cons, high, low, ih]
    rfl

/-- **Reading hex undoes writing it.** -/
theorem fromLowerHex_toHex (s : Bytes) : fromLowerHex (toHex s) = some s := by
  induction s with
  | nil => rfl
  | cons b s ih =>
    obtain ⟨high, highValue⟩ := hexValue_hexDigit (b.val / 16) (by omega)
    obtain ⟨low, lowValue⟩ := hexValue_hexDigit (b.val % 16) (by omega)
    have whole : Fin.ofNat 256 (16 * (b.val / 16) + b.val % 16) = b := by
      apply Fin.ext
      show (16 * (b.val / 16) + b.val % 16) % 256 = b.val
      omega
    rw [toHex_cons, fromLowerHex, high, low, highValue, lowValue, ih, whole]
    rfl

/-- **Writing hex undoes reading it**: the spelling is unique. -/
theorem toHex_fromLowerHex (read : fromLowerHex s = some t) : toHex t = s := by
  fun_induction fromLowerHex s generalizing t with
  | case1 =>
    cases read
    rfl
  | case2 => cases read
  | case3 a b rest digits ih =>
    simp only [Bool.and_eq_true] at digits
    obtain ⟨tail, readTail, rfl⟩ := Option.map_eq_some_iff.mp read
    obtain ⟨high, highByte⟩ := hexDigit_hexValue digits.1
    obtain ⟨low, lowByte⟩ := hexDigit_hexValue digits.2
    have value : (Fin.ofNat 256 (16 * hexValue a + hexValue b) : Byte).val
        = 16 * hexValue a + hexValue b := by
      show (16 * hexValue a + hexValue b) % 256 = _
      omega
    rw [toHex_cons, value, ih readTail]
    have quotient : (16 * hexValue a + hexValue b) / 16 = hexValue a := by omega
    have remainder : (16 * hexValue a + hexValue b) % 16 = hexValue b := by omega
    rw [quotient, remainder, highByte, lowByte]
  | case4 => cases read

theorem fromLowerHex_length (read : fromLowerHex s = some t) : s.length = 2 * t.length := by
  rw [← toHex_fromLowerHex read, toHex_length]

theorem toHex_inj (same : toHex s = toHex t) : s = t := by
  have read := fromLowerHex_toHex s
  rw [same, fromLowerHex_toHex] at read
  exact (Option.some.inj read).symm

end Wok.Event
