/-
**What the grammar spells is read.**

A text of the grammar is read with the value of its tree, whatever white space the parser has not
looked at yet: positions are compared after `skipWs`.
-/

import Wok.Event.StrictSound

namespace Wok.Event

open Wok.Library List

namespace Parser

variable {host : Host} {p q : Parser} {s t w : Bytes}

/-! ### White space -/

variable {c : Byte} {pos : Nat}

@[simp] theorem advance_mk (pos n : Nat) (rest : Bytes) :
    (Parser.mk pos rest).advance n = ⟨pos + n, rest.drop n⟩ := rfl

@[simp] theorem bump_cons (pos : Nat) (c : Byte) (rest : Bytes) :
    (Parser.mk pos (c :: rest)).bump = (some c, ⟨pos + 1, rest⟩) := rfl

@[simp] theorem peek_cons (pos : Nat) (c : Byte) (rest : Bytes) :
    (Parser.mk pos (c :: rest)).peek = some c := rfl

theorem skipWs_of_head {rest : Bytes} (plain : isSpace c = false) :
    (Parser.mk pos (c :: rest)).skipWs = ⟨pos, c :: rest⟩ := by
  simp [skipWs, plain]

theorem skipWs_append (space : Ws w) (pos : Nat) (rest : Bytes) :
    (Parser.mk pos (w ++ rest)).skipWs = (Parser.mk (pos + w.length) rest).skipWs := by
  have all : ∀ c ∈ w, isSpace c = true := fun c member => isSpace_iff.mpr (space c member)
  simp only [skipWs, advance, takeWhile_append_of_pos all, length_append, Nat.add_assoc]
  rw [← drop_drop, drop_left]

theorem skipWs_skipWs (p : Parser) : p.skipWs.skipWs = p.skipWs := by
  have stops : (p.rest.drop (p.rest.takeWhile isSpace).length).takeWhile isSpace = [] := by
    have split : p.rest.drop (p.rest.takeWhile isSpace).length = p.rest.dropWhile isSpace := by
      have left : (p.rest.takeWhile isSpace ++ p.rest.dropWhile isSpace).drop
          (p.rest.takeWhile isSpace).length = p.rest.dropWhile isSpace := drop_left
      rwa [takeWhile_append_dropWhile] at left
    rw [split]
    exact takeWhile_eq_nil_iff.mpr fun positive => by
      simpa using dropWhile_get_zero_not isSpace p.rest positive
  conv_lhs => rw [skipWs]
  simp only [skipWs, advance, stops, length_nil, drop_zero, Nat.add_zero]

theorem skipWs_stop (space : Ws w) (other : isSpace c = false) (pos : Nat) (rest : Bytes) :
    (Parser.mk pos (w ++ c :: rest)).skipWs = ⟨pos + w.length, c :: rest⟩ := by
  rw [skipWs_append space, skipWs_of_head other]

/-! ### Strings -/

/-- **A multi-byte character is read whole.** -/
theorem parseStringFrom_multibyte (high : ¬ c < 128) (length : t.length = utf8Len c - 1)
    (valid : utf8Valid (c :: t) = true) (fuel : Nat) (out : Bytes) (pos : Nat) (tail : Bytes) :
    parseStringFrom (fuel + 1) out ⟨pos, c :: t ++ tail⟩
      = parseStringFrom fuel (out ++ c :: t) ⟨pos + (c :: t).length, tail⟩ := by
  have ne : ∀ {d : Byte}, d < 128 → c ≠ d := by
    rintro d small rfl
    exact high small
  have printable : ¬ c < 32 := fun less => high (less.trans (by decide))
  have long : ¬ utf8Len c ≤ 1 := by
    rw [utf8Len, if_neg (show ¬ c < 0x80 from high)]
    split_ifs <;> decide
  have enough : ¬ (t ++ tail).length < utf8Len c - 1 := by
    rw [length_append]
    omega
  have taken : (t ++ tail).take (utf8Len c - 1) = t := by rw [← length, take_left]
  have dropped : (t ++ tail).drop (utf8Len c - 1) = tail := by rw [← length, drop_left]
  rw [parseStringFrom]
  simp only [cons_append, bump_cons, if_neg (ne (d := 34) (by decide)),
    if_neg (ne (d := 92) (by decide)), if_neg printable, if_neg long, if_neg enough, taken,
    valid, if_true, advance_mk, dropped, length_cons]
  rw [← length, Nat.add_assoc pos 1 t.length, Nat.add_comm 1 t.length]

variable {code n : Nat} {digits bytes tail : Bytes} {pieces : List Piece}

theorem parseHex4_spelled (hex : Hex4 digits code) (pos : Nat) (tail : Bytes) :
    parseHex4 ⟨pos, digits ++ tail⟩ = .ok (code, ⟨pos + 4, tail⟩) := by
  obtain ⟨a, b, c, d, w, x, y, z, rfl, first, second, third, fourth, rfl⟩ := hex
  simp [parseHex4, hexDigits, first, second, third, fourth]

theorem hex4_length (hex : Hex4 digits code) : digits.length = 4 := by
  obtain ⟨a, b, c, d, w, x, y, z, rfl, -⟩ := hex
  rfl

theorem parseUnicode_unit (hex : Hex4 digits code) (notHigh : ¬HighSurrogate code)
    (notLow : ¬LowSurrogate code) (pos : Nat) (tail : Bytes) :
    parseUnicode ⟨pos, digits ++ tail⟩ = .ok (utf8Encode code, ⟨pos + 4, tail⟩) := by
  unfold parseUnicode
  rw [parseHex4_spelled hex]
  simp only [bind, Except.bind, if_neg (show ¬(0xD800 ≤ code ∧ code < 0xDC00) from notHigh),
    if_neg (show ¬(0xDC00 ≤ code ∧ code < 0xE000) from notLow)]
  rfl

theorem parseUnicode_pair {digits' : Bytes} {high low : Nat} (hex : Hex4 digits high)
    (hex' : Hex4 digits' low) (isHigh : HighSurrogate high) (isLow : LowSurrogate low) (pos : Nat)
    (tail : Bytes) : parseUnicode ⟨pos, digits ++ 92 :: 117 :: (digits' ++ tail)⟩
      = .ok (utf8Encode (pairValue high low), ⟨pos + 10, tail⟩) := by
  unfold parseUnicode
  rw [parseHex4_spelled hex]
  simp only [bind, Except.bind, if_pos (show 0xD800 ≤ high ∧ high < 0xDC00 from isHigh), bump_cons,
    ne_eq, not_true_eq_false, if_false, parseHex4_spelled hex',
    if_neg (not_not.mpr (show 0xDC00 ≤ low ∧ low < 0xE000 from isLow))]
  rfl

/-- What is written `t` is read in one round of the loop and stands for `bytes`. -/
structure ReadsChunk (t bytes : Bytes) : Prop where
  nonempty : 0 < t.length
  read : ∀ (n : Nat) (out : Bytes) (pos : Nat) (rest : Bytes),
    parseStringFrom (n + 1) out ⟨pos, t ++ rest⟩
      = parseStringFrom n (out ++ bytes) ⟨pos + t.length, rest⟩

theorem readsChunk_escape
    (escape : ∀ pos rest, parseEscape ⟨pos, t ++ rest⟩ = .ok (bytes, ⟨pos + t.length, rest⟩)) :
    ReadsChunk (92 :: t) bytes := by
  refine ⟨Nat.zero_lt_succ _, fun n out pos rest => ?_⟩
  rw [parseStringFrom]
  simp only [cons_append, bump_cons, escape (pos + 1) rest, length_cons]
  rw [Nat.add_assoc, Nat.add_comm 1]
  rfl

theorem readsChunk_short {letter stands : Byte} (listed : (letter, stands) ∈ shortEscapes) :
    ReadsChunk [92, letter] [stands] := by
  refine readsChunk_escape fun pos rest => ?_
  simp only [shortEscapes, mem_cons, Prod.mk.injEq, not_mem_nil, or_false] at listed
  rcases listed with ⟨rfl, rfl⟩ | ⟨rfl, rfl⟩ | ⟨rfl, rfl⟩ | ⟨rfl, rfl⟩ | ⟨rfl, rfl⟩ | ⟨rfl, rfl⟩ |
    ⟨rfl, rfl⟩ | ⟨rfl, rfl⟩
  all_goals rfl

theorem readsChunk_unit (hex : Hex4 digits code) (notHigh : ¬HighSurrogate code)
    (notLow : ¬LowSurrogate code) : ReadsChunk (92 :: 117 :: digits) (utf8Encode code) := by
  refine readsChunk_escape fun pos rest => ?_
  show parseUnicode ⟨pos + 1, digits ++ rest⟩ = _
  rw [parseUnicode_unit hex notHigh notLow, length_cons, hex4_length hex]

theorem readsChunk_pair {digits' : Bytes} {high low : Nat} (hex : Hex4 digits high)
    (hex' : Hex4 digits' low) (isHigh : HighSurrogate high) (isLow : LowSurrogate low) :
    ReadsChunk (92 :: 117 :: (digits ++ 92 :: 117 :: digits')) (utf8Encode (pairValue high low)) := by
  refine readsChunk_escape fun pos rest => ?_
  have length : (117 :: (digits ++ 92 :: 117 :: digits')).length = 11 := by
    simp [hex4_length hex, hex4_length hex']
  have text : 117 :: (digits ++ 92 :: 117 :: digits') ++ rest
      = 117 :: (digits ++ 92 :: 117 :: (digits' ++ rest)) := by simp
  rw [length, text]
  show parseUnicode ⟨pos + 1, _⟩ = _
  rw [parseUnicode_pair hex hex' isHigh isLow]

theorem readsChunk_unescaped {cp : Nat} (spelled : (Piece.unescaped cp).Spells s) :
    ReadsChunk s (utf8Encode cp) := by
  obtain ⟨scalar, printable, quote, slash, rfl⟩ := spelled
  by_cases small : cp < 128
  · have value : (Fin.ofNat 256 cp : Byte).val = cp := ofNat_val (by omega)
    have notQuote : (Fin.ofNat 256 cp : Byte) ≠ 34 := fun same => quote (value ▸ congrArg Fin.val same)
    have notSlash : (Fin.ofNat 256 cp : Byte) ≠ 92 := fun same => slash (value ▸ congrArg Fin.val same)
    have notControl : ¬ (Fin.ofNat 256 cp : Byte) < 32 := by
      rw [Fin.lt_def, value]
      exact Nat.not_lt.mpr printable
    have short : utf8Len (Fin.ofNat 256 cp) ≤ 1 := by rw [utf8Len, if_pos (ofNat_lt small)]
    rw [utf8Encode_ascii small]
    refine ⟨Nat.zero_lt_one, fun n out pos rest => ?_⟩
    rw [parseStringFrom]
    simp only [cons_append, nil_append, bump_cons, if_neg notQuote, if_neg notSlash,
      if_neg notControl, if_pos short]
    rfl
  · obtain ⟨c, t, encoded, multibyte⟩ := utf8Encode_multibyte scalar (Nat.not_lt.mp small)
    rw [encoded]
    exact ⟨Nat.zero_lt_succ _,
      parseStringFrom_multibyte multibyte.high multibyte.length multibyte.valid⟩

/-- One chunk in front of what is already known to be read. -/
theorem ReadsChunk.step {u more : Bytes} (chunk : ReadsChunk t bytes)
    (ih : ∀ {n : Nat}, u.length < n → ∀ (out : Bytes) (pos : Nat),
      parseStringFrom n out ⟨pos, u ++ 34 :: tail⟩
        = .ok (out ++ more, ⟨pos + u.length + 1, tail⟩)) (enough : (t ++ u).length < n)
    (out : Bytes) (pos : Nat) :
    parseStringFrom n out ⟨pos, (t ++ u) ++ 34 :: tail⟩
      = .ok (out ++ (bytes ++ more), ⟨pos + (t ++ u).length + 1, tail⟩) := by
  obtain ⟨n, rfl⟩ := Nat.exists_eq_add_one_of_ne_zero (Nat.ne_of_gt (Nat.zero_lt_of_lt enough))
  have nonempty := chunk.nonempty
  rw [length_append] at enough ⊢
  rw [append_assoc, chunk.read, ih (by omega), append_assoc, Nat.add_assoc pos]

/-- **A spelled string with paired surrogates is read.** -/
theorem parseStringFrom_spelled (paired : Paired pieces) (spelled : SpellsPieces pieces s)
    (enough : s.length < n) (out : Bytes) (pos : Nat) (tail : Bytes) :
    parseStringFrom n out ⟨pos, s ++ 34 :: tail⟩
      = .ok (out ++ unescape pieces, ⟨pos + s.length + 1, tail⟩) := by
  induction paired generalizing s n out pos with
  | nil =>
    obtain ⟨n, rfl⟩ := Nat.exists_eq_add_one_of_ne_zero (Nat.ne_of_gt (Nat.zero_lt_of_lt enough))
    cases spelled
    simp [parseStringFrom, unescape]
  | unescaped cp _ ih =>
    obtain ⟨t, u, first, rest, rfl⟩ := spelled
    exact (readsChunk_unescaped first).step (ih rest) enough out pos
  | short letter stands _ ih =>
    obtain ⟨t, u, ⟨listed, rfl⟩, rest, rfl⟩ := spelled
    exact (readsChunk_short listed).step (ih rest) enough out pos
  | unit notHigh notLow _ ih =>
    obtain ⟨t, u, ⟨digits, hex, rfl⟩, rest, rfl⟩ := spelled
    rw [unescape_unit notHigh]
    exact (readsChunk_unit hex notHigh notLow).step (ih rest) enough out pos
  | pair isHigh isLow _ ih =>
    obtain ⟨t, u, ⟨digits, hex, rfl⟩, ⟨t', u', ⟨digits', hex', rfl⟩, rest, rfl⟩, rfl⟩ := spelled
    have chunk := (readsChunk_pair hex hex' isHigh isLow).step (ih rest) (n := n)
      (by simpa using enough) out pos
    rw [unescape_pair isHigh isLow]
    simpa using chunk

theorem parseString_spelled (paired : Paired pieces) (spelled : SpellsPieces pieces s) (pos : Nat)
    (tail : Bytes) :
    parseString ⟨pos, 34 :: (s ++ 34 :: tail)⟩
      = .ok (textOf pieces, ⟨pos + s.length + 2, tail⟩) := by
  have valid := paired.valid spelled
  have read := parseStringFrom_spelled paired spelled
    (n := (34 :: (s ++ 34 :: tail)).length + 1) (by simp; omega) [] (pos + 1) tail
  unfold parseString
  simp only [advance_mk, drop_succ_cons, drop_zero, read, nil_append, valid,
    dite_true, textOf_eq valid]
  congr 3
  omega

/-! ### Numbers -/

/-- What follows does not continue a number. -/
def Ends (tail : Bytes) : Prop :=
  ∀ c, tail.head? = some c → isDigit c = false ∧ c ≠ 46 ∧ c ≠ 101 ∧ c ≠ 69

theorem takeWhile_digits (all : digits.all isDigit = true) (ends : Ends tail) :
    (digits ++ tail).takeWhile isDigit = digits := by
  have stop : tail.takeWhile isDigit = [] := by
    cases tail with
    | nil => rfl
    | cons c tail => rw [takeWhile_cons, (ends c rfl).1]; rfl
  rw [takeWhile_append_of_pos (all_eq_true.mp all), stop, append_nil]

theorem fractionPart_ends (ends : Ends tail) :
    fractionPart ⟨pos, tail⟩ = .ok (false, ⟨pos, tail⟩) := by
  have other : (Parser.mk pos tail).peek ≠ some 46 := fun point => (ends 46 point).2.1 rfl
  rw [fractionPart, if_neg other]

theorem exponentPart_ends (ends : Ends tail) :
    exponentPart ⟨pos, tail⟩ = .ok (false, ⟨pos, tail⟩) := by
  have other : ¬((Parser.mk pos tail).peek = some 101 ∨ (Parser.mk pos tail).peek = some 69) := by
    rintro (lower | upper)
    · exact (ends 101 lower).2.2.1 rfl
    · exact (ends 69 upper).2.2.2 rfl
  rw [exponentPart, if_neg other]

theorem ne_of_number {c d : Byte} (number : c = 45 ∨ isDigit c = true) (other : d ≠ 45)
    (notDigit : isDigit d = false) : c ≠ d := by
  rintro rfl
  rcases number with same | digit
  · exact other same
  · exact absurd digit (by simp [notDigit])

theorem isSpace_number (number : c = 45 ∨ isDigit c = true) : isSpace c = false := by
  have other := fun {d : Byte} => ne_of_number (d := d) number
  simp only [isSpace, Bool.or_eq_false_iff, decide_eq_false_iff_not]
  exact ⟨⟨⟨other (by decide) (by decide), other (by decide) (by decide)⟩,
    other (by decide) (by decide)⟩, other (by decide) (by decide)⟩

theorem ends_of (other : isDigit c = false ∧ c ≠ 46 ∧ c ≠ 101 ∧ c ≠ 69) : Ends (c :: tail) := by
  rintro d ⟨⟩
  exact other

theorem integerPart_spelled (whole : IntPart digits) (pos : Nat) (ends : Ends tail) :
    integerPart ⟨pos, digits ++ tail⟩ = .ok ⟨pos + digits.length, tail⟩ := by
  rcases whole with rfl | ⟨⟨full, all⟩, first⟩
  · rfl
  · obtain ⟨c, rest, rfl⟩ := exists_cons_of_ne_nil full
    have notZero : c ≠ 48 := fun same => first (congrArg some same)
    have digit := all_eq_true.mp all c (.head _)
    have taken := takeWhile_digits all ends
    unfold integerPart consumeDigits
    simp only [cons_append] at taken ⊢
    simp only [peek_cons, if_neg notZero, digit, if_true, taken, advance_mk]
    simp

theorem intPart_head (whole : IntPart digits) :
    ∃ c rest, digits = c :: rest ∧ isDigit c = true := by
  rcases whole with rfl | ⟨⟨full, all⟩, _⟩
  · exact ⟨48, [], rfl, rfl⟩
  · obtain ⟨c, rest, rfl⟩ := exists_cons_of_ne_nil full
    exact ⟨c, rest, rfl, all_eq_true.mp all c (.head _)⟩

/-- **A spelled integer in range is read.** -/
theorem parseNumber_spelled (host : Host) {negative : Bool} (whole : IntPart digits)
    (fits : (Node.number negative digits [] []).numberFits) (pos : Nat) (ends : Ends tail) :
    parseNumber host ⟨pos, minus negative ++ (digits ++ tail)⟩
      = .ok ((Node.number negative digits [] []).value,
          ⟨pos + (minus negative ++ digits).length, tail⟩) := by
  obtain ⟨_, _, low, high⟩ := fits
  have read : integerPart
      (if (Parser.mk pos (minus negative ++ (digits ++ tail))).peek = some 45
        then (Parser.mk pos (minus negative ++ (digits ++ tail))).advance 1
        else ⟨pos, minus negative ++ (digits ++ tail)⟩)
      = .ok ⟨pos + (minus negative ++ digits).length, tail⟩ := by
    cases negative with
    | true =>
      show integerPart ⟨pos + 1, digits ++ tail⟩ = _
      rw [integerPart_spelled whole (pos + 1) ends]
      simp only [minus, if_true, cons_append, nil_append, length_cons]
      congr 2
      omega
    | false =>
      obtain ⟨c, rest, rfl, digit⟩ := intPart_head whole
      have plus : (Parser.mk pos (minus false ++ (c :: rest ++ tail))).peek ≠ some 45 := by
        rintro ⟨⟩
        exact absurd digit (by decide)
      rw [if_neg plus]
      exact integerPart_spelled whole pos ends
  have text : (minus negative ++ (digits ++ tail)).take (pos + (minus negative ++ digits).length - pos)
      = minus negative ++ digits := by
    rw [Nat.add_sub_cancel_left, ← append_assoc, take_left]
  unfold parseNumber
  rw [read]
  simp only [bind, Except.bind, fractionPart_ends ends, exponentPart_ends ends, text, Bool.or_false,
    digitsValue_minus negative whole, Node.value, integerValue]
  rw [Integer.ofInt, dif_pos ⟨low, high⟩]
  rfl

/-! ### Values -/

theorem expect_write (s : String) (pos : Nat) (tail : Bytes) :
    expect ⟨pos, ascii s ++ tail⟩ s = .ok ⟨pos + (ascii s).length, tail⟩ := by
  have starts : (ascii s).isPrefixOf (ascii s ++ tail) = true := by simp
  rw [expect, if_pos starts, advance_mk, drop_left]

variable {node : Node}

/-- The value a tree stands for is read from each of its texts. -/
def Completes (host : Host) (node : Node) : Prop :=
  ∀ s, node.Spells s → ∀ n depth pos tail, depth + node.height ≤ 128 → 2 * s.length ≤ n →
    Ends tail →
    ∃ q, parseValue host (n + 1) depth (Parser.mk pos (s ++ tail)).skipWs = .ok (node.value, q) ∧
      q.skipWs = (Parser.mk (pos + s.length) tail).skipWs

/-- After white space, a byte that does not continue a number. -/
theorem ends_ws (space : Ws w) (other : isDigit c = false ∧ c ≠ 46 ∧ c ≠ 101 ∧ c ≠ 69)
    (tail : Bytes) : Ends (w ++ c :: tail) := by
  cases w with
  | nil => exact ends_of other
  | cons d w =>
    refine ends_of ?_
    rcases space d (.head _) with rfl | rfl | rfl | rfl
    all_goals decide

/-- A written value starts, after white space, with a byte that is no closing bracket. -/
theorem spells_head (spelled : node.Spells s) :
    ∃ w c rest, Ws w ∧ s = w ++ c :: rest ∧ isSpace c = false ∧ c ≠ 93 := by
  cases node with
  | null => exact ⟨[], 110, _, ws_nil, spelled, by decide, by decide⟩
  | bool b =>
    cases b
    · exact ⟨[], 102, _, ws_nil, spelled, by decide, by decide⟩
    · exact ⟨[], 116, _, ws_nil, spelled, by decide, by decide⟩
  | number negative digits fraction exponent =>
    obtain ⟨whole, _, _, rfl⟩ := spelled
    cases negative with
    | true => exact ⟨[], 45, _, ws_nil, rfl, by decide, by decide⟩
    | false =>
      obtain ⟨c, rest, rfl, digit⟩ := intPart_head whole
      exact ⟨[], c, _, ws_nil, rfl, isSpace_number (.inr digit),
        ne_of_number (.inr digit) (by decide) (by decide)⟩
  | string pieces =>
    obtain ⟨t, _, rfl⟩ := spelled
    exact ⟨[], 34, _, ws_nil, rfl, by decide, by decide⟩
  | array items =>
    obtain ⟨a, b, t, c, d, space, _, _, _, _, rfl⟩ := spelled
    exact ⟨a, 91, _, space, rfl, by decide, by decide⟩
  | object members =>
    obtain ⟨a, b, t, c, d, space, _, _, _, _, rfl⟩ := spelled
    exact ⟨a, 123, _, space, rfl, by decide, by decide⟩

theorem completes_word (word : String) (text : ∀ s, node.Spells s → s = ascii word)
    (start : ∃ c rest, ascii word = c :: rest ∧ isSpace c = false)
    (dispatch : ∀ n depth pos tail, ¬ 128 < depth →
      parseValue host (n + 1) depth ⟨pos, ascii word ++ tail⟩
        = ((Parser.mk pos (ascii word ++ tail)).expect word).map fun q => (node.value, q)) :
    Completes host node := by
  intro s spelled n depth pos tail deep _ _
  obtain ⟨c, rest, first, other⟩ := start
  rw [text s spelled]
  refine ⟨⟨pos + (ascii word).length, tail⟩, ?_, rfl⟩
  have stop : (Parser.mk pos (ascii word ++ tail)).skipWs = ⟨pos, ascii word ++ tail⟩ := by
    rw [first]
    exact skipWs_of_head other
  rw [stop, dispatch n depth pos tail (by omega), expect_write]
  rfl

theorem completes_number {negative : Bool} {digits fraction exponent : Bytes}
    (fits : (Node.number negative digits fraction exponent).numberFits) :
    Completes host (.number negative digits fraction exponent) := by
  intro s spelled n depth pos tail deep _ ends
  obtain ⟨whole, _, _, rfl⟩ := spelled
  obtain ⟨rfl, rfl, range⟩ := fits
  have read := parseNumber_spelled host whole ⟨rfl, rfl, range⟩ pos ends
  refine ⟨⟨pos + (minus negative ++ digits).length, tail⟩, ?_, by simp⟩
  obtain ⟨c, rest, start, number⟩ : ∃ c rest, minus negative ++ (digits ++ tail) = c :: rest ∧
      (c = 45 ∨ isDigit c = true) := by
    cases negative with
    | true => exact ⟨45, _, rfl, .inl rfl⟩
    | false =>
      obtain ⟨c, rest, rfl, digit⟩ := intPart_head whole
      exact ⟨c, _, rfl, .inr digit⟩
  have other := fun {d : Byte} => ne_of_number (d := d) number
  have text : minus negative ++ (digits ++ ([] ++ [])) ++ tail = minus negative ++ (digits ++ tail) := by
    simp
  rw [start] at read
  rw [text, start]
  rw [skipWs_of_head (isSpace_number number), parseValue, if_neg (by omega), peek_cons]
  simp only [if_neg (other (d := 123) (by decide) (by decide)),
    if_neg (other (d := 91) (by decide) (by decide)),
    if_neg (other (d := 34) (by decide) (by decide)),
    if_neg (other (d := 116) (by decide) (by decide)),
    if_neg (other (d := 102) (by decide) (by decide)),
    if_neg (other (d := 110) (by decide) (by decide)), if_pos number]
  exact read

theorem completes_string (paired : Wok.Event.Paired pieces) : Completes host (.string pieces) := by
  intro s spelled n depth pos tail deep _ _
  obtain ⟨t, spelled, rfl⟩ := spelled
  have read := parseString_spelled paired spelled pos tail
  have text : 34 :: (t ++ [34]) ++ tail = 34 :: (t ++ 34 :: tail) := by simp
  refine ⟨⟨pos + t.length + 2, tail⟩, ?_, ?_⟩
  · rw [text, skipWs_of_head (by decide), parseValue, if_neg (by omega), peek_cons]
    simp only [if_neg (by decide : (34 : Byte) ≠ 123), if_neg (by decide : (34 : Byte) ≠ 91),
      if_true, read]
    rfl
  · simp only [length_cons, length_append, length_nil]
    rfl

/-! ### Arrays -/

variable {depth pos : Nat} {items : List Node}

/-- One item is read, and the loop goes on at what follows it. -/
theorem parseItems_step (completes : Completes host node) (spelled : node.Spells t)
    {acc : List Value} {rest : Bytes} (deep : depth + (node.height + 1) ≤ 128)
    (enough : 2 * t.length ≤ n) (space : Ws w) (last : c = 44 ∨ c = 93)
    (start : p.skipWs = (Parser.mk pos (t ++ (w ++ c :: rest))).skipWs) :
    parseItems host (n + 2) depth acc p =
      if c = 44 then parseItems host (n + 1) depth (acc ++ [node.value])
        ⟨pos + t.length + w.length + 1, rest⟩
      else .ok (.array (acc ++ [node.value]), ⟨pos + t.length + w.length + 1, rest⟩) := by
  obtain ⟨ends, plain⟩ : Ends (w ++ c :: rest) ∧ isSpace c = false := by
    rcases last with rfl | rfl
    all_goals exact ⟨ends_ws space (by decide) rest, rfl⟩
  obtain ⟨q, read, stop⟩ := completes t spelled n (depth + 1) pos (w ++ c :: rest) (by omega)
    enough ends
  rw [skipWs_stop space plain] at stop
  rw [parseItems, start, read]
  simp only [bind, Except.bind, stop, bump_cons, Option.some.injEq]
  rcases last with rfl | rfl
  · rfl
  · rfl

/-- **The items of an array are read**, from white space in front of the first one on. -/
theorem parseItems_spelled {item : Node} (completes : ∀ node ∈ item :: items, Completes host node)
    (spelled : SpellsItems (item :: items) t) {acc : List Value}
    (deep : depth + itemHeights (item :: items) ≤ 128) (enough : 2 * t.length ≤ n)
    (space : Ws w) (start : p.skipWs = (Parser.mk pos (t ++ (w ++ 93 :: tail))).skipWs) :
    parseItems host (n + 2) depth acc p = .ok (.array (acc ++ itemValues (item :: items)),
      ⟨pos + t.length + w.length + 1, tail⟩) := by
  induction items generalizing item n t pos acc p with
  | nil =>
    have first := completes item (.head _)
    rw [itemHeights] at deep
    rw [parseItems_step first spelled (by omega) enough space (.inr rfl) start,
      if_neg (by decide)]
    rfl
  | cons next items ih =>
    obtain ⟨first, others⟩ := forall_mem_cons.mp completes
    obtain ⟨t, a, b, u, spelled, space', space'', rest, rfl⟩ := spelled
    rw [itemHeights] at deep
    simp only [length_append, length_cons] at enough ⊢
    have text : t ++ (a ++ 44 :: (b ++ u)) ++ (w ++ 93 :: tail)
        = t ++ (a ++ 44 :: (b ++ (u ++ (w ++ 93 :: tail)))) := by simp
    obtain ⟨n, rfl⟩ : ∃ k, n = k + 1 := ⟨n - 1, by omega⟩
    rw [text] at start
    rw [parseItems_step first spelled (by omega) (by omega) space' (.inl rfl) start, if_pos rfl,
      ih others rest (by omega) (by omega) (skipWs_append space'' _ _)]
    simp only [itemValues, append_assoc, cons_append, nil_append]
    congr 3
    omega

theorem spellsItems_head {item : Node} (spelled : SpellsItems (item :: items) t) :
    ∃ w c rest, Ws w ∧ t = w ++ c :: rest ∧ isSpace c = false ∧ c ≠ 93 := by
  cases items with
  | nil => exact spells_head spelled
  | cons next items =>
    obtain ⟨t, a, b, u, spelled, _, _, _, rfl⟩ := spelled
    obtain ⟨w, c, rest, space, rfl, plain, other⟩ := spells_head spelled
    exact ⟨w, c, _, space, by rw [append_assoc, cons_append], plain, other⟩

theorem completes_array (completes : ∀ node ∈ items, Completes host node) :
    Completes host (.array items) := by
  intro s spelled n depth pos tail deep enough ends
  obtain ⟨a, b, t, c, d, space, space', space'', space₃, spelled, rfl⟩ := spelled
  have text : a ++ 91 :: (b ++ (t ++ (c ++ 93 :: d))) ++ tail
      = a ++ 91 :: (b ++ (t ++ (c ++ 93 :: (d ++ tail)))) := by simp
  simp only [length_append, length_cons] at enough ⊢
  rw [text, skipWs_stop space (by decide), parseValue, if_neg (by omega)]
  simp only [peek_cons, if_neg (by decide : (91 : Byte) ≠ 123), if_true, advance_mk,
    drop_succ_cons, drop_zero, skipWs_append space']
  refine ⟨⟨pos + a.length + 1 + b.length + t.length + c.length + 1, d ++ tail⟩, ?_, ?_⟩
  · cases items with
    | nil =>
      cases spelled
      rw [nil_append, skipWs_stop space'' (by decide)]
      rfl
    | cons item items =>
      obtain ⟨w, e, rest, before, start, plain, other⟩ := spellsItems_head spelled
      have open' : (Parser.mk (pos + a.length + 1 + b.length)
          (t ++ (c ++ 93 :: (d ++ tail)))).skipWs.peek ≠ some 93 := by
        rw [start, append_assoc, cons_append, skipWs_stop before plain, peek_cons]
        exact fun same => other (Option.some.inj same)
      obtain ⟨n, rfl⟩ : ∃ k, n = k + 2 := ⟨n - 2, by omega⟩
      rw [if_neg open', parseItems_spelled completes spelled deep (by omega) space''
        (skipWs_skipWs _)]
      rfl
  · rw [skipWs_append space₃]
    congr 2
    omega

/-! ### Objects -/

variable {acc : List (Text × Value)} {members : List (List Piece × Node)}

/-- One member is read, and the loop goes on at what follows it. -/
theorem parseFields_step_spelled {key : List Piece} (completes : Completes host node)
    {k a b : Bytes} (named : SpellsPieces key k) (pairedKey : Wok.Event.Paired key)
    (spelled : node.Spells t) (space : Ws a) (space' : Ws b) {rest : Bytes}
    (fresh : unescape key ∉ acc.map fun field => field.1.bytes)
    (deep : depth + (node.height + 1) ≤ 128) (enough : 2 * t.length ≤ n) (space'' : Ws w)
    (last : c = 44 ∨ c = 125)
    (start : p.skipWs = ⟨pos, 34 :: (k ++ 34 :: (a ++ 58 :: (b ++ (t ++ (w ++ c :: rest)))))⟩) :
    parseFields host (n + 2) depth acc p =
      let acc := insertBy (fun field => field.1.bytes) (textOf key, node.value) acc
      let q : Parser :=
        ⟨pos + k.length + 2 + a.length + 1 + b.length + t.length + w.length + 1, rest⟩
      if c = 44 then parseFields host (n + 1) depth acc q else .ok (.object acc, q) := by
  obtain ⟨ends, plain⟩ : Ends (w ++ c :: rest) ∧ isSpace c = false := by
    rcases last with rfl | rfl
    all_goals exact ⟨ends_ws space'' (by decide) rest, rfl⟩
  have valid := pairedKey.valid named
  have new : ¬ (acc.any fun field => field.1 = textOf key) = true := by
    simp only [any_eq_true, decide_eq_true_eq, not_exists, not_and]
    rintro field member same
    refine fresh (mem_map.mpr ⟨field, member, ?_⟩)
    rw [same, textOf_eq valid]
  have quote : p.skipWs.peek = some 34 := by
    rw [start]
    rfl
  obtain ⟨q, read, stop⟩ := completes t spelled n (depth + 1)
    (pos + k.length + 2 + a.length + 1 + b.length) (w ++ c :: rest) (by omega) enough ends
  rw [skipWs_stop space'' plain] at stop
  rw [parseFields_succ, if_neg (not_not.mpr quote), start, parseString_spelled pairedKey named]
  simp only [Except.bind, if_neg new, skipWs_stop space (c := 58) (by decide), bump_cons, ne_eq,
    not_true_eq_false, if_false, skipWs_append space', read, stop, Option.some.injEq]
  rcases last with rfl | rfl
  · rfl
  · rfl

/-- The keys stay distinct when the first member moves into the map. -/
theorem nodup_insertBy {field : Text × Value} {keys : List Bytes}
    (distinct : (acc.map (fun field => field.1.bytes) ++ field.1.bytes :: keys).Nodup) :
    ((insertBy (fun field => field.1.bytes) field acc).map (fun field => field.1.bytes) ++ keys).Nodup := by
  have moved := perm_middle.nodup_iff.mp distinct
  have fresh : field.1.bytes ∉ acc.map fun field => field.1.bytes := fun old =>
    (nodup_cons.mp moved).1 (mem_append_left keys old)
  exact ((keys_insertBy field fresh).append_right keys).nodup_iff.mpr moved

/-- **The members of an object are read**, from white space in front of the first one on. -/
theorem parseFields_spelled {head : List Piece × Node}
    (completes : ∀ member ∈ head :: members, Completes host member.2)
    (spelled : SpellsMembers (head :: members) t)
    (pairedKeys : ∀ member ∈ head :: members, Wok.Event.Paired member.1)
    (keys : (acc.map (fun field => field.1.bytes) ++
      (head :: members).map fun member => unescape member.1).Nodup)
    (deep : depth + memberHeights (head :: members) ≤ 128) (enough : 2 * t.length ≤ n)
    (space : Ws w) (start : p.skipWs = (Parser.mk pos (t ++ (w ++ 125 :: tail))).skipWs) :
    parseFields host (n + 2) depth acc p = .ok (.object ((memberValues (head :: members)).foldl
        (fun acc field => insertBy (fun field => field.1.bytes) field acc) acc),
      ⟨pos + t.length + w.length + 1, tail⟩) := by
  induction members generalizing head n t pos acc p with
  | nil =>
    obtain ⟨key, node⟩ := head
    obtain ⟨k, a, b, t, named, space', space'', spelled, rfl⟩ := spelled
    have first : Completes host node := completes (key, node) (.head _)
    have pairedKey : Wok.Event.Paired key := pairedKeys (key, node) (.head _)
    have fresh := (nodup_cons.mp (perm_middle.nodup_iff.mp keys)).1
    rw [map_nil, append_nil] at fresh
    have text : 34 :: (k ++ 34 :: (a ++ 58 :: (b ++ t))) ++ (w ++ 125 :: tail)
        = 34 :: (k ++ 34 :: (a ++ 58 :: (b ++ (t ++ (w ++ 125 :: tail))))) := by simp
    rw [text, skipWs_of_head (by decide)] at start
    rw [memberHeights] at deep
    simp only [length_append, length_cons] at enough ⊢
    rw [parseFields_step_spelled first named pairedKey spelled space' space'' fresh (by omega)
      (by omega) space (.inr rfl) start]
    simp only [if_neg (by decide : (125 : Byte) ≠ 44)]
    simp only [memberValues, foldl_cons, foldl_nil]
    congr 3
    omega
  | cons next members ih =>
    obtain ⟨key, node⟩ := head
    obtain ⟨k, a, b, t, c, d, u, named, space', space'', spelled, space₃, space₄, rest, rfl⟩ := spelled
    obtain ⟨(first : Completes host node), others⟩ := forall_mem_cons.mp completes
    obtain ⟨pairedKey, pairedOthers⟩ := forall_mem_cons.mp pairedKeys
    have bytes : (textOf key).bytes = unescape key := by
      rw [textOf_eq (pairedKey.valid named)]
    have fresh : unescape key ∉ acc.map fun field => field.1.bytes := fun old =>
      (nodup_cons.mp (perm_middle.nodup_iff.mp keys)).1 (mem_append_left _ old)
    have text : 34 :: (k ++ 34 :: (a ++ 58 :: (b ++ (t ++ (c ++ 44 :: (d ++ u))))))
          ++ (w ++ 125 :: tail)
        = 34 :: (k ++ 34 :: (a ++ 58 :: (b ++ (t ++ (c ++ 44 :: (d ++ (u ++ (w ++ 125 :: tail)))))))) := by
      simp
    rw [text, skipWs_of_head (by decide)] at start
    rw [memberHeights] at deep
    simp only [length_append, length_cons] at enough ⊢
    have distinct' : (acc.map (fun field => field.1.bytes) ++ (textOf key, node.value).1.bytes ::
        (next :: members).map fun member => unescape member.1).Nodup := by
      rw [bytes]
      exact keys
    obtain ⟨n, rfl⟩ : ∃ k, n = k + 1 := ⟨n - 1, by omega⟩
    rw [parseFields_step_spelled first named pairedKey spelled space' space'' fresh (by omega)
      (by omega) space₃ (.inl rfl) start]
    simp only [if_true]
    rw [ih others rest pairedOthers (nodup_insertBy distinct') (by omega) (by omega)
      (skipWs_append space₄ _ _)]
    simp only [memberValues, foldl_cons]
    congr 3
    omega

theorem completes_object (completes : ∀ member ∈ members, Completes host member.2)
    (keys : (members.map fun member => unescape member.1).Nodup)
    (paired : ∀ member ∈ members, Wok.Event.Paired member.1) :
    Completes host (.object members) := by
  intro s spelled n depth pos tail deep enough ends
  obtain ⟨a, b, t, c, d, space, space', space'', space₃, spelled, rfl⟩ := spelled
  have text : a ++ 123 :: (b ++ (t ++ (c ++ 125 :: d))) ++ tail
      = a ++ 123 :: (b ++ (t ++ (c ++ 125 :: (d ++ tail)))) := by simp
  simp only [length_append, length_cons] at enough ⊢
  rw [text, skipWs_stop space (by decide), parseValue, if_neg (by omega)]
  simp only [peek_cons, if_true, advance_mk, drop_succ_cons, drop_zero,
    skipWs_append space']
  refine ⟨⟨pos + a.length + 1 + b.length + t.length + c.length + 1, d ++ tail⟩, ?_, ?_⟩
  · cases members with
    | nil =>
      cases spelled
      rw [nil_append, skipWs_stop space'' (by decide)]
      rfl
    | cons head members =>
      obtain ⟨rest, start⟩ : ∃ rest, t = 34 :: rest := by
        cases members with
        | nil =>
          obtain ⟨k, a, b, t, _, _, _, _, rfl⟩ := spelled
          exact ⟨_, rfl⟩
        | cons next members =>
          obtain ⟨k, a, b, t, c, d, u, _, _, _, _, _, _, _, rfl⟩ := spelled
          exact ⟨_, rfl⟩
      have open' : (Parser.mk (pos + a.length + 1 + b.length)
          (t ++ (c ++ 125 :: (d ++ tail)))).skipWs.peek ≠ some 125 := by
        rw [start, cons_append, skipWs_of_head (by decide), peek_cons]
        decide
      obtain ⟨n, rfl⟩ : ∃ k, n = k + 2 := ⟨n - 2, by omega⟩
      have fresh : (([] : List (Text × Value)).map (fun field => field.1.bytes) ++
          (head :: members).map fun member => unescape member.1).Nodup := keys
      rw [if_neg open', parseFields_spelled completes spelled paired fresh deep
        (by omega) space'' (skipWs_skipWs _), Node.value, foldl_insertBy_eq_insertionSort]
      rw [keys_memberValues fun member listed =>
        (paired member listed).valid (spellsMembers_mem spelled member listed).1.choose_spec]
      exact keys
  · rw [skipWs_append space₃]
    congr 2
    omega

/-- **A tree is read from its texts.** -/
theorem completes_all (host : Host) (node : Node) (distinct : node.DistinctKeys)
    (paired : node.Paired) (integers : node.Integers) : Completes host node := by
  induction node using Node.induct with
  | null =>
    refine completes_word "null" (fun s spelled => spelled) ⟨110, _, rfl, rfl⟩ ?_
    intro n depth pos tail shallow
    rw [parseValue, if_neg shallow]
    rfl
  | bool b =>
    cases b
    · refine completes_word "false" (fun s spelled => spelled) ⟨102, _, rfl, rfl⟩ ?_
      intro n depth pos tail shallow
      rw [parseValue, if_neg shallow]
      rfl
    · refine completes_word "true" (fun s spelled => spelled) ⟨116, _, rfl, rfl⟩ ?_
      intro n depth pos tail shallow
      rw [parseValue, if_neg shallow]
      rfl
  | number negative digits fraction exponent => exact completes_number integers
  | string pieces => exact completes_string paired
  | array items ih =>
    exact completes_array fun item member => ih item member (allItems_iff.mp distinct.2 item member)
      (allItems_iff.mp paired.2 item member) (allItems_iff.mp integers.2 item member)
  | object members ih =>
    refine completes_object (fun member listed => ih member listed ?_ ?_ ?_) distinct.1 paired.1
    · exact allMembers_iff.mp distinct.2 member listed
    · exact allMembers_iff.mp paired.2 member listed
    · exact allMembers_iff.mp integers.2 member listed

/-! ### Calls are bounded by the text -/

theorem skipWs_length (p : Parser) : p.skipWs.rest.length ≤ p.rest.length := by
  obtain ⟨w, _, went⟩ := consumes_skipWs p
  rw [went.length]
  omega

theorem bump_length (next : p.bump.1 = some c) : p.bump.2.rest.length + 1 = p.rest.length := by
  rw [(consumes_bump next).length, length_singleton, Nat.add_comm]

theorem advance_length (next : p.peek = some c) :
    (p.advance 1).rest.length + 1 = p.rest.length := by
  rw [(consumes_peek next).length, length_singleton, Nat.add_comm]

theorem parseValue_length {v : Value} (read : parseValue host n depth p = .ok (v, q)) :
    q.rest.length ≤ p.rest.length := by
  obtain ⟨node, reads⟩ := (parse_sound host n).1 depth p v q read
  obtain ⟨s, _, went⟩ := reads.went
  rw [went.length]
  omega

theorem parseString_length {text : Text} (quote : p.peek = some 34)
    (read : parseString p = .ok (text, q)) : q.rest.length ≤ p.rest.length := by
  obtain ⟨pieces, s, _, _, _, went⟩ := parseString_sound quote read
  rw [went.length]
  omega

theorem parseEscape_length (read : parseEscape p = .ok (bytes, q)) :
    q.rest.length ≤ p.rest.length := by
  obtain ⟨pieces, s, _, went⟩ := parseEscape_sound read
  rw [went.length]
  omega

/-- **The loop over a string ends with the text**: more rounds than bytes change nothing. -/
theorem parseStringFrom_rounds {m : Nat} (out : Bytes) (p : Parser) (enough : p.rest.length < n)
    (enough' : p.rest.length < m) : parseStringFrom n out p = parseStringFrom m out p := by
  induction n generalizing m out p with
  | zero => exact absurd enough (Nat.not_lt_zero _)
  | succ n ih =>
    obtain ⟨m, rfl⟩ : ∃ k, m = k + 1 := ⟨m - 1, by omega⟩
    obtain ⟨pos, rest⟩ := p
    cases rest with
    | nil => rfl
    | cons c rest =>
      simp only [length_cons] at enough enough'
      rw [parseStringFrom, parseStringFrom]
      simp only [bump_cons]
      split_ifs with quote slash control short truncated valid
      · rfl
      · cases escape : parseEscape ⟨pos + 1, rest⟩ with
        | error e => rfl
        | ok read =>
          have shorter := parseEscape_length escape
          exact ih _ _ (by simp only at shorter; omega) (by simp only at shorter; omega)
      · rfl
      · exact ih _ _ (by simp only; omega) (by simp only; omega)
      · rfl
      · exact ih _ _ (by simp; omega) (by simp; omega)
      · rfl

/-- The bound on the calls of a value, and of a loop over items or members. -/
def Rounds (host : Host) (n : Nat) : Prop :=
  (∀ m depth p, 2 * p.rest.length + 1 ≤ n → 2 * p.rest.length + 1 ≤ m →
    parseValue host n depth p = parseValue host m depth p) ∧
  (∀ m depth acc p, 2 * p.rest.length + 2 ≤ n → 2 * p.rest.length + 2 ≤ m →
    parseItems host n depth acc p = parseItems host m depth acc p) ∧
  (∀ m depth acc p, 2 * p.rest.length + 2 ≤ n → 2 * p.rest.length + 2 ≤ m →
    parseFields host n depth acc p = parseFields host m depth acc p)

/-- **More calls than the text has room for change nothing.** -/
theorem parse_rounds (host : Host) (n : Nat) : Rounds host n := by
  induction n with
  | zero => exact ⟨fun m depth p none => by omega, fun m depth acc p none => by omega,
      fun m depth acc p none => by omega⟩
  | succ n ih =>
    obtain ⟨values, items, fields⟩ := ih
    refine ⟨fun m depth p enough enough' => ?_, fun m depth acc p enough enough' => ?_,
      fun m depth acc p enough enough' => ?_⟩
    · obtain ⟨m, rfl⟩ : ∃ k, m = k + 1 := ⟨m - 1, by omega⟩
      rw [parseValue, parseValue]
      split_ifs with deep
      · rfl
      · cases next : p.peek with
        | none => rfl
        | some c =>
          have shorter := advance_length next
          have space := skipWs_length (p.advance 1)
          simp only
          rw [fields m depth [] (p.advance 1).skipWs (by omega) (by omega),
            items m depth [] (p.advance 1).skipWs (by omega) (by omega)]
    · obtain ⟨m, rfl⟩ : ∃ k, m = k + 1 := ⟨m - 1, by omega⟩
      have space := skipWs_length p
      rw [parseItems, parseItems, values m (depth + 1) p.skipWs (by omega) (by omega)]
      cases read : parseValue host m (depth + 1) p.skipWs with
      | error e => rfl
      | ok result =>
        obtain ⟨item, q⟩ := result
        have shorter := parseValue_length read
        have space' := skipWs_length q
        simp only [ok_bind]
        by_cases comma : q.skipWs.bump.1 = some 44
        · have last := bump_length comma
          simp only [if_pos comma]
          exact items m depth _ _ (by omega) (by omega)
        · simp only [if_neg comma]
    · obtain ⟨m, rfl⟩ : ∃ k, m = k + 1 := ⟨m - 1, by omega⟩
      have space := skipWs_length p
      rw [parseFields_succ, parseFields_succ]
      by_cases quote : p.skipWs.peek = some 34
      · simp only [if_neg (not_not.mpr quote)]
        cases literal : parseString p.skipWs with
        | error e => rfl
        | ok result =>
          obtain ⟨key, q⟩ := result
          have shorter := parseString_length quote literal
          simp only [Except.bind]
          by_cases colon : q.skipWs.bump.1 = some 58
          · have after := bump_length colon
            have space' := skipWs_length q
            have space'' := skipWs_length q.skipWs.bump.2
            rw [values m (depth + 1) q.skipWs.bump.2.skipWs (by omega) (by omega)]
            cases read : parseValue host m (depth + 1) q.skipWs.bump.2.skipWs with
            | error e => rfl
            | ok result =>
              obtain ⟨value, r⟩ := result
              have shorter' := parseValue_length read
              have space₃ := skipWs_length r
              by_cases comma : r.skipWs.bump.1 = some 44
              · have last := bump_length comma
                simp only [if_pos comma]
                rw [fields m depth _ r.skipWs.bump.2 (by omega) (by omega)]
              · simp only [if_neg comma]
          · simp only [if_pos colon, ne_eq]
      · simp only [ne_eq, if_pos quote]

end Parser

end Wok.Event
