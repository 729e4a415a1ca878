/-
**The JSON grammar.**

RFC 8259 as the relation `Node.Spells` between syntax trees and byte strings: a tree keeps how each
string and number was written, and the grammar's white space is left free. What the standard
leaves to the reader is said of the tree: whether surrogate escapes come in pairs, whether keys
repeat, how deep it is, and the value it stands for.

* `Piece`, `Node` — strings and values as they are written.
* `Node.Spells`, `Spells` — **the grammar**: a value, and a whole text.
* `Node.DistinctKeys`, `Node.Paired`, `Node.Integers`, `Node.height` — the conditions on a tree.
* `Node.value` — the value of a tree.
* `Multibyte.scalar`, `utf8Encode_multibyte` — a character of more than one byte is the encoding of
  one scalar value.
-/

import Wok.Event.Json

namespace Wok.Event

open Wok.Library

/-! ### Strings -/

/-- One `char` of a string: itself, a two-character escape, or `\u` and a code unit. -/
inductive Piece
  | unescaped (cp : Nat)
  | short (letter stands : Byte)
  | unit (code : Nat)
  deriving DecidableEq

/-- A Unicode scalar value. -/
def Scalar (cp : Nat) : Prop := cp < 0xD800 ∨ 0xE000 ≤ cp ∧ cp < 0x110000

/-- The two-character escapes: the letter after the backslash and the character it stands for. -/
def shortEscapes : List (Byte × Byte) :=
  [(34, 34), (92, 92), (47, 47), (98, 8), (102, 12), (110, 10), (114, 13), (116, 9)]

/-- Four hex digits, most significant first, and their value. -/
def Hex4 (s : Bytes) (code : Nat) : Prop :=
  ∃ a b c d w x y z, s = [a, b, c, d] ∧ Parser.hexDigitValue a = some w ∧
    Parser.hexDigitValue b = some x ∧ Parser.hexDigitValue c = some y ∧
    Parser.hexDigitValue d = some z ∧ code = ((w * 16 + x) * 16 + y) * 16 + z

/-- How a `char` is written. -/
def Piece.Spells : Piece → Bytes → Prop
  | .unescaped cp, s =>
    Scalar cp ∧ 0x20 ≤ cp ∧ cp ≠ 0x22 ∧ cp ≠ 0x5C ∧ s = Parser.utf8Encode cp
  | .short letter stands, s => (letter, stands) ∈ shortEscapes ∧ s = [92, letter]
  | .unit code, s => ∃ digits, Hex4 digits code ∧ s = 92 :: 117 :: digits

/-- What stands between the quotes of a string. -/
def SpellsPieces : List Piece → Bytes → Prop
  | [], s => s = []
  | piece :: pieces, s => ∃ t u, piece.Spells t ∧ SpellsPieces pieces u ∧ s = t ++ u

def HighSurrogate (code : Nat) : Prop := 0xD800 ≤ code ∧ code < 0xDC00

def LowSurrogate (code : Nat) : Prop := 0xDC00 ≤ code ∧ code < 0xE000

instance (code : Nat) : Decidable (HighSurrogate code) :=
  inferInstanceAs (Decidable (_ ∧ _))

instance (code : Nat) : Decidable (LowSurrogate code) :=
  inferInstanceAs (Decidable (_ ∧ _))

/-- The scalar value of a surrogate pair. -/
def pairValue (high low : Nat) : Nat := 0x10000 + (high - 0xD800) * 1024 + (low - 0xDC00)

/-- Every surrogate escape is part of a high-low pair. -/
inductive Paired : List Piece → Prop
  | nil : Paired []
  | unescaped (cp : Nat) {pieces : List Piece} :
      Paired pieces → Paired (.unescaped cp :: pieces)
  | short (letter stands : Byte) {pieces : List Piece} :
      Paired pieces → Paired (.short letter stands :: pieces)
  | unit {code : Nat} {pieces : List Piece} :
      ¬HighSurrogate code → ¬LowSurrogate code → Paired pieces → Paired (.unit code :: pieces)
  | pair {high low : Nat} {pieces : List Piece} :
      HighSurrogate high → LowSurrogate low → Paired pieces →
        Paired (.unit high :: .unit low :: pieces)

/-- The characters a string stands for, in UTF-8. -/
def unescape : List Piece → Bytes
  | [] => []
  | .unescaped cp :: pieces => Parser.utf8Encode cp ++ unescape pieces
  | .short _ stands :: pieces => stands :: unescape pieces
  | .unit high :: .unit low :: pieces =>
    if HighSurrogate high ∧ LowSurrogate low then
      Parser.utf8Encode (pairValue high low) ++ unescape pieces
    else Parser.utf8Encode high ++ unescape (.unit low :: pieces)
  | .unit code :: pieces => Parser.utf8Encode code ++ unescape pieces

/-- The string a literal stands for, when its surrogates are paired. -/
def textOf (pieces : List Piece) : Text :=
  if valid : utf8Valid (unescape pieces) = true then ⟨unescape pieces, valid⟩ else ⟨[], utf8Valid_nil⟩

/-! ### Values -/

/-- A value as it is written. The fraction and the exponent of a number are empty when absent. -/
inductive Node
  | null
  | bool (b : Bool)
  | number (negative : Bool) (digits fraction exponent : Bytes)
  | string (pieces : List Piece)
  | array (items : List Node)
  | object (members : List (List Piece × Node))

/-- `ws`: spaces, tabs, line feeds and carriage returns. -/
def Ws (s : Bytes) : Prop := ∀ c ∈ s, c = 32 ∨ c = 9 ∨ c = 10 ∨ c = 13

def SomeDigits (s : Bytes) : Prop := s ≠ [] ∧ s.all isDigit = true

/-- `int`: zero, or digits that do not start with zero. -/
def IntPart (s : Bytes) : Prop := s = [48] ∨ SomeDigits s ∧ s.head? ≠ some 48

/-- `[ frac ]` -/
def Fraction (s : Bytes) : Prop := s = [] ∨ ∃ digits, SomeDigits digits ∧ s = 46 :: digits

/-- `[ exp ]` -/
def Exponent (s : Bytes) : Prop :=
  s = [] ∨ ∃ e sign digits, (e = 101 ∨ e = 69) ∧ (sign = [] ∨ sign = [43] ∨ sign = [45]) ∧
    SomeDigits digits ∧ s = e :: (sign ++ digits)

def minus (negative : Bool) : Bytes := if negative then [45] else []

mutual

/-- **The grammar of values.** Brackets, commas and colons have white space on both sides. -/
def Node.Spells : Node → Bytes → Prop
  | .null, s => s = ascii "null"
  | .bool b, s => s = ascii (if b then "true" else "false")
  | .number negative digits fraction exponent, s =>
    IntPart digits ∧ Fraction fraction ∧ Exponent exponent ∧
      s = minus negative ++ (digits ++ (fraction ++ exponent))
  | .string pieces, s => ∃ t, SpellsPieces pieces t ∧ s = 34 :: (t ++ [34])
  | .array items, s => ∃ a b t c d, Ws a ∧ Ws b ∧ Ws c ∧ Ws d ∧ SpellsItems items t ∧
      s = a ++ 91 :: (b ++ (t ++ (c ++ 93 :: d)))
  | .object members, s => ∃ a b t c d, Ws a ∧ Ws b ∧ Ws c ∧ Ws d ∧ SpellsMembers members t ∧
      s = a ++ 123 :: (b ++ (t ++ (c ++ 125 :: d)))

/-- `[ value *( value-separator value ) ]` -/
def SpellsItems : List Node → Bytes → Prop
  | [], s => s = []
  | [item], s => item.Spells s
  | item :: next :: items, s => ∃ t a b u, item.Spells t ∧ Ws a ∧ Ws b ∧
      SpellsItems (next :: items) u ∧ s = t ++ (a ++ 44 :: (b ++ u))

/-- `[ member *( value-separator member ) ]` with `member = string name-separator value` -/
def SpellsMembers : List (List Piece × Node) → Bytes → Prop
  | [], s => s = []
  | [(key, value)], s => ∃ k a b t, SpellsPieces key k ∧ Ws a ∧ Ws b ∧ value.Spells t ∧
      s = 34 :: (k ++ 34 :: (a ++ 58 :: (b ++ t)))
  | (key, value) :: next :: members, s => ∃ k a b t c d u, SpellsPieces key k ∧ Ws a ∧ Ws b ∧
      value.Spells t ∧ Ws c ∧ Ws d ∧ SpellsMembers (next :: members) u ∧
      s = 34 :: (k ++ 34 :: (a ++ 58 :: (b ++ (t ++ (c ++ 44 :: (d ++ u))))))

end

/-- `JSON-text = ws value ws` -/
def Spells (node : Node) (text : Bytes) : Prop :=
  ∃ a s b, Ws a ∧ node.Spells s ∧ Ws b ∧ text = a ++ (s ++ b)

mutual

/-- A condition holds of a tree and of every tree inside it. -/
def Node.All (p : Node → Prop) : Node → Prop
  | .array items => p (.array items) ∧ AllItems p items
  | .object members => p (.object members) ∧ AllMembers p members
  | .null => p .null
  | .bool b => p (.bool b)
  | .number negative digits fraction exponent => p (.number negative digits fraction exponent)
  | .string pieces => p (.string pieces)

def AllItems (p : Node → Prop) : List Node → Prop
  | [] => True
  | item :: items => item.All p ∧ AllItems p items

def AllMembers (p : Node → Prop) : List (List Piece × Node) → Prop
  | [] => True
  | (_, value) :: members => value.All p ∧ AllMembers p members

end

namespace Node

def keysDistinct : Node → Prop
  | .object members => (members.map fun member => unescape member.1).Nodup
  | _ => True

def surrogatesPaired : Node → Prop
  | .string pieces => Wok.Event.Paired pieces
  | .object members => ∀ member ∈ members, Wok.Event.Paired member.1
  | _ => True

/-- The number digits with a sign stand for. -/
def signed (negative : Bool) (digits : Bytes) : Int :=
  if negative then -(digitsValue digits : Int) else digitsValue digits

def numberFits : Node → Prop
  | .number negative digits fraction exponent => fraction = [] ∧ exponent = [] ∧
      -2 ^ 63 ≤ signed negative digits ∧ signed negative digits < 2 ^ 64
  | _ => True

/-- No object has two keys that are equal after unescaping. -/
def DistinctKeys (node : Node) : Prop := node.All keysDistinct

/-- Every surrogate escape is part of a high-low pair. -/
def Paired (node : Node) : Prop := node.All surrogatesPaired

/-- Every number is an integer of the `i64` or `u64` range, without fraction or exponent. -/
def Integers (node : Node) : Prop := node.All numberFits

end Node

mutual

/-- How many arrays and objects the innermost value sits in. -/
def Node.height : Node → Nat
  | .array items => itemHeights items
  | .object members => memberHeights members
  | .null | .bool _ | .number .. | .string _ => 0

def itemHeights : List Node → Nat
  | [] => 0
  | item :: items => max (item.height + 1) (itemHeights items)

def memberHeights : List (List Piece × Node) → Nat
  | [] => 0
  | (_, value) :: members => max (value.height + 1) (memberHeights members)

end

/-- An integer as a value; those out of range have no value here. -/
def integerValue (i : Int) : Value :=
  match Integer.ofInt i with
  | some i => .int i
  | none => .null

mutual

/-- **The value a tree stands for.** An object is its members in key order. -/
def Node.value : Node → Value
  | .null => .null
  | .bool b => .bool b
  | .number negative digits _ _ => integerValue (Node.signed negative digits)
  | .string pieces => .string (textOf pieces)
  | .array items => .array (itemValues items)
  | .object members => .object ((memberValues members).insertionSort fun a b => a.1.bytes ≤ b.1.bytes)

def itemValues : List Node → List Value
  | [] => []
  | item :: items => item.value :: itemValues items

def memberValues : List (List Piece × Node) → List (Text × Value)
  | [] => []
  | (key, value) :: members => (textOf key, value.value) :: memberValues members

end

/-! ### The parts of a tree -/

section Parts

variable {p : Node → Prop} {items : List Node} {members : List (List Piece × Node)} {t : Bytes}

theorem allItems_iff : AllItems p items ↔ ∀ item ∈ items, item.All p := by
  induction items with
  | nil => simp [AllItems]
  | cons item items ih => rw [AllItems, ih, List.forall_mem_cons]

theorem allMembers_iff : AllMembers p members ↔ ∀ member ∈ members, member.2.All p := by
  induction members with
  | nil => simp [AllMembers]
  | cons member members ih => rw [AllMembers, ih, List.forall_mem_cons]

/-- Every item is spelled by a part of the text. -/
theorem spellsItems_mem (spelled : SpellsItems items t) :
    ∀ item ∈ items, ∃ u, u <:+: t ∧ item.Spells u := by
  induction items generalizing t with
  | nil => simp
  | cons item items ih =>
    cases items with
    | nil => exact List.forall_mem_singleton.mpr ⟨t, List.infix_rfl, spelled⟩
    | cons next items =>
      obtain ⟨u, a, b, v, spelled, _, _, more, rfl⟩ := spelled
      refine List.forall_mem_cons.mpr ⟨⟨u, (List.prefix_append u _).isInfix, spelled⟩, ?_⟩
      intro other member
      obtain ⟨w, part, spelled⟩ := ih more other member
      exact ⟨w, part.trans ⟨u ++ (a ++ 44 :: b), [], by simp⟩, spelled⟩

theorem spellsMembers_mem (spelled : SpellsMembers members t) :
    ∀ member ∈ members, (∃ k, SpellsPieces member.1 k) ∧ ∃ u, u <:+: t ∧ member.2.Spells u := by
  induction members generalizing t with
  | nil => simp
  | cons member members ih =>
    obtain ⟨key, value⟩ := member
    cases members with
    | nil =>
      obtain ⟨k, a, b, u, named, _, _, spelled, rfl⟩ := spelled
      exact List.forall_mem_singleton.mpr
        ⟨⟨k, named⟩, u, ⟨34 :: (k ++ 34 :: (a ++ 58 :: b)), [], by simp⟩, spelled⟩
    | cons next members =>
      obtain ⟨k, a, b, u, c, d, v, named, _, _, spelled, _, _, more, rfl⟩ := spelled
      refine List.forall_mem_cons.mpr ⟨⟨⟨k, named⟩, u,
        ⟨34 :: (k ++ 34 :: (a ++ 58 :: b)), c ++ 44 :: (d ++ v), by simp⟩, spelled⟩, ?_⟩
      intro other member
      obtain ⟨named, w, part, spelled⟩ := ih more other member
      exact ⟨named, w, part.trans
        ⟨34 :: (k ++ 34 :: (a ++ 58 :: (b ++ (u ++ (c ++ 44 :: d))))), [], by simp⟩, spelled⟩

end Parts

/-! ### Characters in UTF-8 -/

variable {b a c : Byte} {n cp : Nat}

theorem ofNat_eq (same : n = b.val) : Fin.ofNat 256 n = b := by
  apply Fin.ext
  show n % 256 = b.val
  omega

theorem isTail_val (tail : isTail b = true) : 128 ≤ b.val ∧ b.val < 192 :=
  isTail_range tail

theorem second3_iff : second3 a b = true ↔ 128 ≤ b.val ∧ b.val < 192 ∧
    (a.val = 224 → 160 ≤ b.val) ∧ (a.val = 237 → b.val < 160) := by
  unfold second3 isTail
  split_ifs with least surrogate
  · subst least
    simp [Fin.le_def, Fin.lt_def]
    omega
  · subst surrogate
    simp [Fin.le_def, Fin.lt_def]
    omega
  · have other : a.val ≠ 224 := fun same => least (Fin.ext same)
    have other' : a.val ≠ 237 := fun same => surrogate (Fin.ext same)
    simp [Fin.le_def, Fin.lt_def, other, other']

theorem second4_iff : second4 a b = true ↔ 128 ≤ b.val ∧ b.val < 192 ∧
    (a.val = 240 → 144 ≤ b.val) ∧ (a.val = 244 → b.val < 144) := by
  unfold second4 isTail
  split_ifs with least greatest
  · subst least
    simp [Fin.le_def, Fin.lt_def]
    omega
  · subst greatest
    simp [Fin.le_def, Fin.lt_def]
    omega
  · have other : a.val ≠ 240 := fun same => least (Fin.ext same)
    have other' : a.val ≠ 244 := fun same => greatest (Fin.ext same)
    simp [Fin.le_def, Fin.lt_def, other, other']

/-- A character of more than one byte: the first tells its length, and `from_utf8` takes it. -/
structure Multibyte (c : Byte) (t : Bytes) : Prop where
  high : ¬ c < 128
  length : t.length = Parser.utf8Len c - 1
  valid : utf8Valid (c :: t) = true

theorem multibyte_two (range : 194 ≤ a.val ∧ a.val < 224) (tail : isTail b = true) :
    Multibyte a [b] := by
  have high : ¬ a < 128 := fun less => absurd (show a.val < 128 from less) (by omega)
  have lead : (194 ≤ a && a < 224) = true := by
    simpa [Fin.le_def, Fin.lt_def] using range
  refine ⟨high, ?_, ?_⟩
  · rw [Parser.utf8Len, if_neg high, if_pos (show a < 0xE0 from range.2)]
    rfl
  · simp only [utf8Valid, if_neg high, if_pos lead, tail, Bool.and_self]

theorem multibyte_three (range : 224 ≤ a.val ∧ a.val < 240) (second : second3 a b = true)
    (tail : isTail c = true) : Multibyte a [b, c] := by
  have high : ¬ a < 128 := fun less => absurd (show a.val < 128 from less) (by omega)
  have notTwo : ¬ (194 ≤ a && a < 224) = true := by
    simp [Fin.le_def, Fin.lt_def]
    omega
  have lead : (224 ≤ a && a < 240) = true := by
    simpa [Fin.le_def, Fin.lt_def] using range
  refine ⟨high, ?_, ?_⟩
  · rw [Parser.utf8Len, if_neg high, if_neg (show ¬ a < 0xE0 from not_lt.mpr range.1),
      if_pos (show a < 0xF0 from range.2)]
    rfl
  · simp only [utf8Valid, if_neg high, if_neg notTwo, if_pos lead, second, tail, Bool.and_self]

theorem multibyte_four {d : Byte} (range : 240 ≤ a.val ∧ a.val < 245) (second : second4 a b = true)
    (third : isTail c = true) (tail : isTail d = true) : Multibyte a [b, c, d] := by
  have high : ¬ a < 128 := fun less => absurd (show a.val < 128 from less) (by omega)
  have notTwo : ¬ (194 ≤ a && a < 224) = true := by
    simp [Fin.le_def, Fin.lt_def]
    omega
  have notThree : ¬ (224 ≤ a && a < 240) = true := by
    simp [Fin.le_def, Fin.lt_def]
    omega
  have lead : (240 ≤ a && a < 245) = true := by
    simpa [Fin.le_def, Fin.lt_def] using range
  have large : ¬ a < 0xE0 := fun less => absurd (show a.val < 224 from less) (by omega)
  refine ⟨high, ?_, ?_⟩
  · rw [Parser.utf8Len, if_neg high, if_neg large, if_neg (show ¬ a < 0xF0 from not_lt.mpr range.1)]
    rfl
  · simp only [utf8Valid, if_neg high, if_neg notTwo, if_neg notThree, if_pos lead, second, third,
      tail, Bool.and_self]

/-- **A multi-byte character that `from_utf8` takes encodes one scalar value.** -/
theorem Multibyte.scalar {t : Bytes} (multibyte : Multibyte c t) :
    ∃ cp, Scalar cp ∧ 128 ≤ cp ∧ Parser.utf8Encode cp = c :: t := by
  obtain ⟨high, length, valid⟩ := multibyte
  have large : ¬ c.val < 128 := high
  have first : c.val < 256 := c.isLt
  unfold utf8Valid at valid
  rw [if_neg high] at valid
  split_ifs at valid with two three four
  · -- two bytes
    simp only [Bool.and_eq_true, decide_eq_true_eq] at two
    have low : 194 ≤ c.val := two.1
    have below : c.val < 224 := two.2
    rw [Parser.utf8Len, if_neg high, if_pos (show c < 0xE0 from two.2)] at length
    obtain ⟨b, rfl⟩ := List.length_eq_one_iff.mp length
    simp only [Bool.and_eq_true] at valid
    have tail := isTail_val valid.1
    refine ⟨(c.val - 192) * 64 + (b.val - 128), .inl (by omega), by omega, ?_⟩
    rw [Parser.utf8Encode, if_neg (by omega), if_pos (by omega), ofNat_eq (b := c) (by omega),
      ofNat_eq (b := b) (by omega)]
  · -- three bytes
    simp only [Bool.and_eq_true, decide_eq_true_eq] at three
    have low : 224 ≤ c.val := three.1
    have below : c.val < 240 := three.2
    rw [Parser.utf8Len, if_neg high, if_neg (show ¬ c < 0xE0 from not_lt.mpr three.1),
      if_pos (show c < 0xF0 from three.2)] at length
    obtain ⟨b, d, rfl⟩ := List.length_eq_two.mp length
    simp only [Bool.and_eq_true] at valid
    obtain ⟨lowB, highB, lead, surrogate⟩ := second3_iff.mp valid.1.1
    have tail := isTail_val valid.1.2
    refine ⟨(c.val - 224) * 4096 + (b.val - 128) * 64 + (d.val - 128), ?_, ?_, ?_⟩
    · by_cases split : c.val ≤ 237
      · exact .inl (by omega)
      · exact .inr (by omega)
    · omega
    · rw [Parser.utf8Encode, if_neg (by omega), if_neg (by omega), if_pos (by omega),
        ofNat_eq (b := c) (by omega), ofNat_eq (b := b) (by omega), ofNat_eq (b := d) (by omega)]
  · -- four bytes
    simp only [Bool.and_eq_true, decide_eq_true_eq] at four
    have low : 240 ≤ c.val := four.1
    have below : c.val < 245 := four.2
    have less : ¬ c < 0xE0 := not_lt.mpr (le_trans (by decide) four.1)
    rw [Parser.utf8Len, if_neg high, if_neg less, if_neg (not_lt.mpr four.1)] at length
    obtain ⟨b, d, e, rfl⟩ := List.length_eq_three.mp length
    simp only [Bool.and_eq_true] at valid
    obtain ⟨lowB, highB, lead, last⟩ := second4_iff.mp valid.1.1.1
    have tail := isTail_val valid.1.1.2
    have tail' := isTail_val valid.1.2
    refine ⟨(c.val - 240) * 262144 + (b.val - 128) * 4096 + (d.val - 128) * 64 + (e.val - 128),
      .inr (by omega), by omega, ?_⟩
    rw [Parser.utf8Encode, if_neg (by omega), if_neg (by omega), if_neg (by omega),
      ofNat_eq (b := c) (by omega), ofNat_eq (b := b) (by omega), ofNat_eq (b := d) (by omega),
      ofNat_eq (b := e) (by omega)]

theorem ofNat_val (small : n < 256) : (Fin.ofNat 256 n : Byte).val = n :=
  Nat.mod_eq_of_lt small

theorem isTail_ofNat (small : n < 64) : isTail (Fin.ofNat 256 (0x80 + n)) = true := by
  have value := ofNat_val (n := 0x80 + n) (by omega)
  simp only [isTail, Bool.and_eq_true, decide_eq_true_eq, Fin.le_def, Fin.lt_def, value]
  exact ⟨Nat.le_add_right .., by show 0x80 + n < 192; omega⟩

/-- **The encoding of a scalar value above ASCII is such a character.** -/
theorem utf8Encode_multibyte (scalar : Scalar cp) (above : 128 ≤ cp) :
    ∃ c t, Parser.utf8Encode cp = c :: t ∧ Multibyte c t := by
  rw [Scalar] at scalar
  rw [Parser.utf8Encode, if_neg (by omega)]
  have valueOf : ∀ {n : Nat}, n < 256 → (Fin.ofNat 256 n : Byte).val = n := ofNat_val
  split_ifs with two three
  · refine ⟨_, _, rfl, multibyte_two ?_ (isTail_ofNat (by omega))⟩
    rw [valueOf (by omega)]
    omega
  · refine ⟨_, _, rfl, multibyte_three ?_ (second3_iff.mpr ?_) (isTail_ofNat (by omega))⟩
    · rw [valueOf (by omega)]
      omega
    · rw [valueOf (by omega), valueOf (by omega)]
      omega
  · refine ⟨_, _, rfl, multibyte_four ?_ (second4_iff.mpr ?_) (isTail_ofNat (by omega))
      (isTail_ofNat (by omega))⟩
    · rw [valueOf (by omega)]
      omega
    · rw [valueOf (by omega), valueOf (by omega)]
      omega

theorem utf8Encode_ascii (small : cp < 128) : Parser.utf8Encode cp = [Fin.ofNat 256 cp] := by
  rw [Parser.utf8Encode, if_pos small]

theorem ofNat_lt (small : cp < 128) : (Fin.ofNat 256 cp : Byte) < 128 := by
  rw [Fin.lt_def, ofNat_val (by omega)]
  exact small

/-- **The encoding of a scalar value is valid.** -/
theorem utf8Valid_utf8Encode (scalar : Scalar cp) : utf8Valid (Parser.utf8Encode cp) = true := by
  by_cases small : cp < 128
  · rw [utf8Encode_ascii small]
    exact utf8Valid_cons (ofNat_lt small) rfl
  · obtain ⟨c, t, encoded, multibyte⟩ := utf8Encode_multibyte scalar (not_lt.mp small)
    rw [encoded]
    exact multibyte.valid

/-! ### Strings and their text -/

variable {code : Nat}

theorem scalar_of_unit (notHigh : ¬HighSurrogate code) (notLow : ¬LowSurrogate code)
    (small : code < 0x10000) : Scalar code := by
  unfold HighSurrogate at notHigh
  unfold LowSurrogate at notLow
  unfold Scalar
  omega

theorem scalar_of_pair {high low : Nat} (isHigh : HighSurrogate high) (isLow : LowSurrogate low) :
    Scalar (pairValue high low) := by
  unfold HighSurrogate at isHigh
  unfold LowSurrogate at isLow
  unfold Scalar pairValue
  omega

theorem hexDigitValue_lt {d : Nat} (digit : Parser.hexDigitValue c = some d) : d < 16 := by
  unfold Parser.hexDigitValue at digit
  split_ifs at digit with lower upper
  · have range := isLowerHex_val lower
    cases digit
    unfold hexValue
    split_ifs <;> omega
  · cases digit
    have low : 65 ≤ c.val := upper.1
    have high : c.val ≤ 70 := upper.2
    omega

theorem Hex4.lt {s : Bytes} (digits : Hex4 s code) : code < 0x10000 := by
  obtain ⟨a, b, c, d, w, x, y, z, -, first, second, third, fourth, rfl⟩ := digits
  have smallW := hexDigitValue_lt first
  have smallX := hexDigitValue_lt second
  have smallY := hexDigitValue_lt third
  have smallZ := hexDigitValue_lt fourth
  omega

theorem unescape_unit (notHigh : ¬HighSurrogate code) (pieces : List Piece) :
    unescape (.unit code :: pieces) = Parser.utf8Encode code ++ unescape pieces := by
  cases pieces with
  | nil => simp [unescape]
  | cons piece pieces =>
    cases piece with
    | unit low => rw [unescape, if_neg fun both => notHigh both.1]
    | unescaped cp => simp [unescape]
    | short letter stands => simp [unescape]

theorem unescape_pair {high low : Nat} (isHigh : HighSurrogate high) (isLow : LowSurrogate low)
    (pieces : List Piece) : unescape (.unit high :: .unit low :: pieces)
      = Parser.utf8Encode (pairValue high low) ++ unescape pieces := by
  rw [unescape, if_pos ⟨isHigh, isLow⟩]

theorem shortEscapes_lt : ∀ escape ∈ shortEscapes, escape.2 < 128 := by
  simp [shortEscapes]

/-- **A written string with paired surrogates stands for UTF-8 text.** -/
theorem Paired.valid {pieces : List Piece} {s : Bytes} (paired : Paired pieces)
    (spelled : SpellsPieces pieces s) : utf8Valid (unescape pieces) = true := by
  induction paired generalizing s with
  | nil => rfl
  | unescaped cp _ ih =>
    obtain ⟨t, u, ⟨scalar, _⟩, rest, _⟩ := spelled
    exact utf8Valid_append (utf8Valid_utf8Encode scalar) (ih rest)
  | short letter stands _ ih =>
    obtain ⟨t, u, ⟨listed, _⟩, rest, _⟩ := spelled
    exact utf8Valid_cons (shortEscapes_lt _ listed) (ih rest)
  | unit notHigh notLow _ ih =>
    obtain ⟨t, u, ⟨digits, hex, _⟩, rest, _⟩ := spelled
    rw [unescape_unit notHigh]
    exact utf8Valid_append (utf8Valid_utf8Encode (scalar_of_unit notHigh notLow hex.lt)) (ih rest)
  | pair isHigh isLow _ ih =>
    obtain ⟨t, u, _, ⟨t', u', _, rest, _⟩, _⟩ := spelled
    rw [unescape_pair isHigh isLow]
    exact utf8Valid_append (utf8Valid_utf8Encode (scalar_of_pair isHigh isLow)) (ih rest)

theorem textOf_eq {pieces : List Piece} (valid : utf8Valid (unescape pieces) = true) :
    textOf pieces = ⟨unescape pieces, valid⟩ := dif_pos valid

/-! ### Trees -/

/-- Induction over a tree and the trees inside it. -/
theorem Node.induct {motive : Node → Prop} (null : motive .null) (bool : ∀ b, motive (.bool b))
    (number : ∀ negative digits fraction exponent,
      motive (.number negative digits fraction exponent))
    (string : ∀ pieces, motive (.string pieces))
    (array : ∀ items, (∀ item ∈ items, motive item) → motive (.array items))
    (object : ∀ members, (∀ member ∈ members, motive member.2) → motive (.object members))
    (node : Node) : motive node := by
  refine @Node.rec motive (fun items => ∀ item ∈ items, motive item)
    (fun members => ∀ member ∈ members, motive member.2) (fun member => motive member.2) null bool
    number string array object ?_ ?_ ?_ ?_ ?_ node
  · simp
  · exact fun item items first rest => List.forall_mem_cons.mpr ⟨first, rest⟩
  · simp
  · exact fun member members first rest => List.forall_mem_cons.mpr ⟨first, rest⟩
  · exact fun key value read => read

end Wok.Event
