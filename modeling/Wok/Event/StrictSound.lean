/-
**What the strict parser reads was spelled.**

Each scanner that succeeds went over a text of the grammar: `Consumes p s q` says which bytes lie
between two positions, and the bytes of each part join to those of the whole.

* `parseStringFrom_sound` — a string, with its surrogates paired.
* `parseNumber_sound` — a number.
* `parse_sound` — **values, items and members**, by the levels of calls that are left.
-/

import Wok.Event.Grammar
import Wok.Library.Result
import Mathlib.Data.List.TakeWhile

namespace Wok.Event

open Wok.Library List

namespace Parser

variable {host : Host} {p q r : Parser} {s t : Bytes}

/-! ### What the parser went over -/

variable {c : Byte}

/-- Going from `p` to `q` the parser went over `s`. -/
structure Consumes (p : Parser) (s : Bytes) (q : Parser) : Prop where
  rest : p.rest = s ++ q.rest
  pos : q.pos = p.pos + s.length

theorem Consumes.refl (p : Parser) : Consumes p [] p := ⟨rfl, rfl⟩

theorem Consumes.trans (first : Consumes p s q) (second : Consumes q t r) :
    Consumes p (s ++ t) r := by
  refine ⟨?_, ?_⟩
  · rw [first.rest, second.rest, append_assoc]
  · rw [second.pos, first.pos, length_append, Nat.add_assoc]

theorem Consumes.length (went : Consumes p s q) : p.rest.length = s.length + q.rest.length := by
  rw [went.rest, length_append]

theorem consumes_advance {rest : Bytes} (start : p.rest = s ++ rest) :
    Consumes p s (p.advance s.length) := by
  refine ⟨?_, rfl⟩
  rw [advance, start, drop_left]

theorem consumes_bump (next : p.bump.1 = some c) : Consumes p [c] p.bump.2 := by
  obtain ⟨pos, rest⟩ := p
  cases rest with
  | nil => cases next
  | cons d rest =>
    cases next
    exact ⟨rfl, rfl⟩

theorem consumes_peek (next : p.peek = some c) : Consumes p [c] (p.advance 1) := by
  obtain ⟨pos, rest⟩ := p
  cases rest with
  | nil => cases next
  | cons d rest =>
    cases next
    exact ⟨rfl, rfl⟩

theorem consumes_takeWhile (p : Parser) (test : Byte → Bool) :
    Consumes p (p.rest.takeWhile test) (p.advance (p.rest.takeWhile test).length) :=
  consumes_advance takeWhile_append_dropWhile.symm

theorem isSpace_iff : isSpace c = true ↔ c = 32 ∨ c = 9 ∨ c = 10 ∨ c = 13 := by
  simp only [isSpace, Bool.or_eq_true, decide_eq_true_eq, or_assoc]

theorem consumes_skipWs (p : Parser) : ∃ w, Ws w ∧ Consumes p w p.skipWs := by
  refine ⟨p.rest.takeWhile isSpace, fun c member => ?_, consumes_takeWhile p isSpace⟩
  exact isSpace_iff.mp (mem_takeWhile_imp member)

theorem consumes_expect {word : String} (read : p.expect word = .ok q) :
    Consumes p (ascii word) q := by
  unfold expect at read
  split_ifs at read with starts
  cases read
  obtain ⟨rest, start⟩ := isPrefixOf_iff_prefix.mp starts
  exact consumes_advance start.symm

/-! ### Strings -/

variable {code n : Nat} {digits : Bytes}

/-- Pieces in front of any string: how they are written and what they stand for. -/
structure Chunk (pieces : List Piece) (s bytes : Bytes) : Prop where
  spells : ∀ {rest : List Piece} {u : Bytes},
    SpellsPieces rest u → SpellsPieces (pieces ++ rest) (s ++ u)
  paired : ∀ {rest : List Piece}, Paired rest → Paired (pieces ++ rest)
  unescapes : ∀ rest : List Piece, unescape (pieces ++ rest) = bytes ++ unescape rest

theorem chunk_unescaped {cp : Nat} (spelled : (Piece.unescaped cp).Spells s) :
    Chunk [.unescaped cp] s (utf8Encode cp) where
  spells rest := ⟨_, _, spelled, rest, rfl⟩
  paired rest := .unescaped cp rest
  unescapes _ := rfl

theorem chunk_short {letter stands : Byte} (listed : (letter, stands) ∈ shortEscapes) :
    Chunk [.short letter stands] [92, letter] [stands] where
  spells rest := ⟨_, _, ⟨listed, rfl⟩, rest, rfl⟩
  paired rest := .short letter stands rest
  unescapes _ := rfl

theorem chunk_unit (hex : Hex4 digits code) (notHigh : ¬HighSurrogate code)
    (notLow : ¬LowSurrogate code) :
    Chunk [.unit code] (92 :: 117 :: digits) (utf8Encode code) where
  spells rest := ⟨_, _, ⟨digits, hex, rfl⟩, rest, rfl⟩
  paired rest := .unit notHigh notLow rest
  unescapes rest := unescape_unit notHigh rest

theorem chunk_pair {high low : Nat} {digits' : Bytes} (hex : Hex4 digits high)
    (hex' : Hex4 digits' low) (isHigh : HighSurrogate high) (isLow : LowSurrogate low) :
    Chunk [.unit high, .unit low] (92 :: 117 :: (digits ++ 92 :: 117 :: digits'))
      (utf8Encode (pairValue high low)) where
  spells rest := ⟨_, _, ⟨digits, hex, rfl⟩, ⟨_, _, ⟨digits', hex', rfl⟩, rest, rfl⟩, by simp⟩
  paired rest := .pair isHigh isLow rest
  unescapes rest := unescape_pair isHigh isLow rest

theorem hexDigits_sound {count v : Nat} (read : hexDigits (count + 1) v p = .ok (code, q)) :
    ∃ c d, hexDigitValue c = some d ∧ Consumes p [c] p.bump.2 ∧
      hexDigits count (v * 16 + d) p.bump.2 = .ok (code, q) := by
  rw [hexDigits] at read
  split at read
  · cases read
  · next c r next =>
    split at read
    · next d digit =>
      refine ⟨c, d, digit, consumes_bump (by rw [next]), ?_⟩
      rw [next]
      exact read
    · cases read

theorem parseHex4_sound (read : parseHex4 p = .ok (code, q)) :
    ∃ digits, Hex4 digits code ∧ Consumes p digits q := by
  unfold parseHex4 at read
  split_ifs at read
  obtain ⟨a, w, first, went, read⟩ := hexDigits_sound read
  obtain ⟨b, x, second, went', read⟩ := hexDigits_sound read
  obtain ⟨c, y, third, went'', read⟩ := hexDigits_sound read
  obtain ⟨d, z, fourth, last, read⟩ := hexDigits_sound read
  cases read
  refine ⟨[a, b, c, d], ⟨a, b, c, d, w, x, y, z, rfl, first, second, third, fourth, ?_⟩,
    ((went.trans went').trans went'').trans last⟩
  rw [Nat.zero_mul, Nat.zero_add]

/-- What follows `\u` is a code unit, or a pair of them. -/
theorem parseUnicode_sound {bytes : Bytes} (read : parseUnicode p = .ok (bytes, q)) :
    ∃ pieces s, Chunk pieces (92 :: 117 :: s) bytes ∧ Consumes p s q := by
  unfold parseUnicode at read
  rw [bind_eq_ok] at read
  obtain ⟨⟨code, r⟩, first, read⟩ := read
  obtain ⟨digits, hex, went⟩ := parseHex4_sound first
  by_cases high : HighSurrogate code
  · simp only [if_pos (show 0xD800 ≤ code ∧ code < 0xDC00 from high)] at read
    by_cases slash : r.bump.1 = some 92
    · by_cases u : r.bump.2.bump.1 = some 117
      · simp only [slash, u, ne_eq, not_true_eq_false, if_false] at read
        rw [bind_eq_ok] at read
        obtain ⟨⟨code', r'⟩, second, read⟩ := read
        obtain ⟨digits', hex', went'⟩ := parseHex4_sound second
        by_cases low : LowSurrogate code'
        · simp only [if_neg (not_not.mpr (show 0xDC00 ≤ code' ∧ code' < 0xE000 from low))] at read
          obtain ⟨rfl, rfl⟩ := Prod.mk.inj (Except.ok.inj read)
          refine ⟨_, _, chunk_pair hex hex' high low, ?_⟩
          have slashes := (consumes_bump slash).trans (consumes_bump u)
          exact went.trans (slashes.trans went')
        · simp only [if_pos (show ¬(0xDC00 ≤ code' ∧ code' < 0xE000) from low)] at read
          cases read
      · simp only [slash, ne_eq, not_true_eq_false, if_false, if_pos u] at read
        cases read
    · simp only [ne_eq, if_pos slash] at read
      cases read
  · simp only [if_neg (show ¬(0xD800 ≤ code ∧ code < 0xDC00) from high)] at read
    by_cases low : LowSurrogate code
    · simp only [if_pos (show 0xDC00 ≤ code ∧ code < 0xE000 from low)] at read
      cases read
    · simp only [if_neg (show ¬(0xDC00 ≤ code ∧ code < 0xE000) from low)] at read
      cases read
      exact ⟨_, _, chunk_unit hex high low, went⟩

theorem parseEscape_sound {bytes : Bytes} (read : parseEscape p = .ok (bytes, q)) :
    ∃ pieces s, Chunk pieces (92 :: s) bytes ∧ Consumes p s q := by
  unfold parseEscape at read
  split at read
  · cases read
  · next e r next =>
    have went : Consumes p [e] r := by
      have went := consumes_bump (p := p) (c := e) (by rw [next])
      rwa [next] at went
    by_cases unicode : e = 117
    · subst unicode
      simp only [show (117 : Byte) ≠ 34 from by decide] at read
      obtain ⟨pieces, s, chunk, rest⟩ := parseUnicode_sound read
      exact ⟨pieces, _, chunk, went.trans rest⟩
    · have listed : ∃ stands, (e, stands) ∈ shortEscapes ∧ bytes = [stands] ∧ q = r := by
        split_ifs at read with quote slash solidus back feed line carriage tab
        all_goals
          cases read
          simp_all [shortEscapes]
      obtain ⟨stands, listed, rfl, rfl⟩ := listed
      exact ⟨_, _, chunk_short listed, went⟩

theorem bump_eq (next : p.bump = (some c, q)) : Consumes p [c] q := by
  have went := consumes_bump (p := p) (c := c) (by rw [next])
  rwa [next] at went

theorem spells_unescaped (quote : c ≠ 34) (slash : c ≠ 92) (printable : ¬ c < 32) (small : c < 128) :
    (Piece.unescaped c.val).Spells [c] := by
  have low : c.val < 128 := small
  have least : ¬ c.val < 32 := printable
  refine ⟨.inl (by omega), by omega, fun same => quote (Fin.ext same),
    fun same => slash (Fin.ext same), ?_⟩
  rw [utf8Encode_ascii low, ofNat_eq rfl]

/-- **A string that was read was spelled.** -/
theorem parseStringFrom_sound {out out' : Bytes} (read : parseStringFrom n out p = .ok (out', q)) :
    ∃ pieces s, SpellsPieces pieces s ∧ Paired pieces ∧ out' = out ++ unescape pieces ∧
      Consumes p (s ++ [34]) q := by
  induction n generalizing out p with
  | zero => cases read
  | succ n ih =>
    -- what the rest of the string gives after one chunk
    have more : ∀ {pieces : List Piece} {s bytes : Bytes} {r : Parser}, Chunk pieces s bytes →
        Consumes p s r → parseStringFrom n (out ++ bytes) r = .ok (out', q) →
        ∃ pieces s, SpellsPieces pieces s ∧ Paired pieces ∧ out' = out ++ unescape pieces ∧
          Consumes p (s ++ [34]) q := by
      intro pieces s bytes r chunk went read
      obtain ⟨rest, u, spelled, paired, same, last⟩ := ih read
      refine ⟨pieces ++ rest, s ++ u, chunk.spells spelled, chunk.paired paired, ?_, ?_⟩
      · rw [same, chunk.unescapes, append_assoc]
      · rw [append_assoc]
        exact went.trans last
    rw [parseStringFrom] at read
    split at read
    · cases read
    · next c r next =>
      have went := bump_eq next
      split_ifs at read with quote slash control short enough valid
      · cases read
        exact ⟨[], [], rfl, .nil, by simp [unescape], quote ▸ went⟩
      · split at read
        · cases read
        · next escaped r' escape =>
          obtain ⟨pieces, s, chunk, went'⟩ := parseEscape_sound escape
          exact more chunk (slash ▸ went.trans went') read
      · have small : c < 128 := by
          unfold utf8Len at short
          split_ifs at short with small
          · exact small
          all_goals exact absurd short (by decide)
        have chunk := chunk_unescaped (spells_unescaped quote slash control small)
        rw [utf8Encode_ascii small, ofNat_eq rfl] at chunk
        exact more chunk went read
      · have high : ¬ c < 128 := by
          intro small
          rw [utf8Len, if_pos small] at short
          exact short le_rfl
        have length : (r.rest.take (utf8Len c - 1)).length = utf8Len c - 1 := by
          rw [length_take]
          omega
        obtain ⟨cp, scalar, above, encoded⟩ := Multibyte.scalar ⟨high, length, valid⟩
        have spelled : (Piece.unescaped cp).Spells (c :: r.rest.take (utf8Len c - 1)) :=
          ⟨scalar, by omega, by omega, by omega, encoded.symm⟩
        have chunk := chunk_unescaped spelled
        rw [encoded] at chunk
        have rest : Consumes r (r.rest.take (utf8Len c - 1)) (r.advance (utf8Len c - 1)) := by
          have went := consumes_advance (p := r) (take_append_drop (utf8Len c - 1) r.rest).symm
          rwa [length] at went
        exact more chunk (went.trans rest) read

/-- **A string literal that was read was spelled**, and its text is what it stands for. -/
theorem parseString_sound {text : Text} (quote : p.peek = some 34)
    (read : parseString p = .ok (text, q)) :
    ∃ pieces s, SpellsPieces pieces s ∧ Paired pieces ∧ text = textOf pieces ∧
      Consumes p (34 :: (s ++ [34])) q := by
  unfold parseString at read
  split at read
  · cases read
  · next out r loop =>
    split_ifs at read with valid
    cases read
    obtain ⟨pieces, s, spelled, paired, rfl, went⟩ := parseStringFrom_sound loop
    exact ⟨pieces, s, spelled, paired, (textOf_eq valid).symm, (consumes_peek quote).trans went⟩

/-! ### Numbers -/

variable {v : Value}

theorem consumeDigits_sound (next : p.peek = some c) (digit : isDigit c = true) :
    ∃ digits, SomeDigits digits ∧ digits.head? = some c ∧ Consumes p digits p.consumeDigits := by
  have first : (p.rest.takeWhile isDigit).head? = some c := by
    obtain ⟨pos, rest⟩ := p
    cases rest with
    | nil => cases next
    | cons d rest =>
      cases next
      rw [takeWhile_cons, digit]
      rfl
  refine ⟨_, ⟨?_, ?_⟩, first, consumes_takeWhile p isDigit⟩
  · intro empty
    rw [empty] at first
    cases first
  · exact all_eq_true.mpr fun d member => mem_takeWhile_imp member

theorem integerPart_sound (read : integerPart p = .ok q) :
    ∃ digits, IntPart digits ∧ Consumes p digits q := by
  unfold integerPart at read
  split at read
  · cases read
  · next c next =>
    split_ifs at read with zero digit
    · cases read
      exact ⟨[48], .inl rfl, zero ▸ consumes_peek next⟩
    · cases read
      obtain ⟨digits, full, first, went⟩ := consumeDigits_sound next digit
      refine ⟨digits, .inr ⟨full, ?_⟩, went⟩
      rw [first]
      exact fun same => zero (Option.some.inj same)

theorem someDigits_sound (read : someDigits p = .ok q) :
    ∃ digits, SomeDigits digits ∧ Consumes p digits q := by
  unfold someDigits at read
  split at read
  · cases read
  · next c next =>
    split_ifs at read with digit
    cases read
    obtain ⟨digits, full, _, went⟩ := consumeDigits_sound next digit
    exact ⟨digits, full, went⟩

theorem fractionPart_sound {present : Bool} (read : fractionPart p = .ok (present, q)) :
    ∃ s, Fraction s ∧ Consumes p s q ∧ (s = [] → present = false) := by
  unfold fractionPart at read
  split_ifs at read with point
  · obtain ⟨r, digits, made⟩ := map_eq_ok.mp read
    cases made
    obtain ⟨s, full, went⟩ := someDigits_sound digits
    exact ⟨46 :: s, .inr ⟨s, full, rfl⟩, (consumes_peek point).trans went, fun empty => by cases empty⟩
  · cases read
    exact ⟨[], .inl rfl, .refl p, fun _ => rfl⟩

theorem sign_sound (p : Parser) : ∃ sign, (sign = [] ∨ sign = [43] ∨ sign = [45]) ∧
    Consumes p sign (if p.peek = some 43 ∨ p.peek = some 45 then p.advance 1 else p) := by
  split_ifs with sign
  · rcases sign with plus | minus
    · exact ⟨[43], .inr (.inl rfl), consumes_peek plus⟩
    · exact ⟨[45], .inr (.inr rfl), consumes_peek minus⟩
  · exact ⟨[], .inl rfl, .refl p⟩

theorem exponentPart_sound {present : Bool} (read : exponentPart p = .ok (present, q)) :
    ∃ s, Exponent s ∧ Consumes p s q ∧ (s = [] → present = false) := by
  unfold exponentPart at read
  split_ifs at read with letter
  · obtain ⟨r, digits, made⟩ := map_eq_ok.mp read
    cases made
    obtain ⟨s, full, went⟩ := someDigits_sound digits
    obtain ⟨sign, signs, went'⟩ := sign_sound (p.advance 1)
    obtain ⟨e, either, next⟩ : ∃ e : Byte, (e = 101 ∨ e = 69) ∧ p.peek = some e := by
      rcases letter with lower | upper
      · exact ⟨101, .inl rfl, lower⟩
      · exact ⟨69, .inr rfl, upper⟩
    refine ⟨e :: (sign ++ s), .inr ⟨e, sign, s, either, signs, full, rfl⟩, ?_, fun empty => by cases empty⟩
    exact (consumes_peek next).trans (went'.trans went)
  · cases read
    exact ⟨[], .inl rfl, .refl p, fun _ => rfl⟩

theorem minus_sound (p : Parser) : ∃ negative,
    Consumes p (minus negative) (if p.peek = some 45 then p.advance 1 else p) := by
  split_ifs with sign
  · exact ⟨true, consumes_peek sign⟩
  · exact ⟨false, .refl p⟩

theorem digitsValue_minus (negative : Bool) (whole : IntPart digits) :
    literalInteger (minus negative ++ digits) = Integer.ofInt (Node.signed negative digits) := by
  cases negative with
  | true => rfl
  | false =>
    have first : digits.head? ≠ some 45 := by
      intro same
      rcases whole with rfl | ⟨⟨_, all⟩, _⟩
      · cases same
      · exact absurd (all_eq_true.mp all 45 (mem_of_mem_head? same)) (by decide)
    show literalInteger digits = _
    rw [literalInteger, if_neg first]
    rfl

/-- **A number that was read was spelled**, and an integer in range is its value. -/
theorem parseNumber_sound (read : parseNumber host p = .ok (v, q)) :
    ∃ negative digits fraction exponent s,
      (Node.number negative digits fraction exponent).Spells s ∧ Consumes p s q ∧
      ((Node.number negative digits fraction exponent).numberFits →
        v = (Node.number negative digits fraction exponent).value) := by
  unfold parseNumber at read
  simp only [bind_eq_ok] at read
  obtain ⟨p₁, whole, ⟨fractional, p₂⟩, fraction, ⟨exponential, p₃⟩, exponent, read⟩ := read
  obtain ⟨negative, went⟩ := minus_sound p
  obtain ⟨digits, integer, went₁⟩ := integerPart_sound whole
  obtain ⟨frac, isFraction, went₂, absent⟩ := fractionPart_sound fraction
  obtain ⟨exp, isExponent, went₃, absent'⟩ := exponentPart_sound exponent
  have all := went.trans (went₁.trans (went₂.trans went₃))
  have last : q = p₃ := by
    simp only at read
    split at read
    · cases read
      rfl
    · split at read
      · cases read
        rfl
      · cases read
  subst last
  refine ⟨negative, digits, frac, exp, _, ⟨integer, isFraction, isExponent, rfl⟩, all, ?_⟩
  rintro ⟨rfl, rfl, low, high⟩
  have literal : p.rest.take (q.pos - p.pos) = minus negative ++ digits := by
    rw [all.pos, Nat.add_sub_cancel_left, all.rest, take_left]
    simp
  simp only [absent rfl, absent' rfl, Bool.or_false, Bool.false_eq_true, if_false, literal,
    digitsValue_minus negative integer] at read
  rw [Node.value, integerValue]
  rw [Integer.ofInt, dif_pos ⟨low, high⟩] at read ⊢
  cases read
  rfl

/-! ### Values -/

variable {depth : Nat} {node : Node} {acc : List (Text × Value)} {key : Text} {value : Value}
  {members : List (List Piece × Node)}

theorem ws_append (left : Ws s) (right : Ws t) : Ws (s ++ t) :=
  forall_mem_append.mpr ⟨left, right⟩

/-- The tree that a value read at a depth was spelled with. -/
structure ReadsAs (depth : Nat) (p : Parser) (v : Value) (q : Parser) (node : Node) : Prop where
  went : ∃ s, node.Spells s ∧ Consumes p s q
  distinct : node.DistinctKeys
  paired : node.Paired
  shallow : depth + node.height ≤ 128
  value : node.Integers → v = node.value

/-- The trees that the items of an array, up to its bracket, were spelled with. -/
structure ItemsAs (depth : Nat) (acc : List Value) (p : Parser) (v : Value) (q : Parser)
    (items : List Node) : Prop where
  went : ∃ w t c, Ws w ∧ SpellsItems items t ∧ Ws c ∧ Consumes p (w ++ (t ++ (c ++ [93]))) q
  distinct : AllItems Node.keysDistinct items
  paired : AllItems Node.surrogatesPaired items
  shallow : depth + itemHeights items ≤ 128
  value : AllItems Node.numberFits items → v = .array (acc ++ itemValues items)

/-- The trees that the members of an object, up to its brace, were spelled with. -/
structure MembersAs (depth : Nat) (acc : List (Text × Value)) (p : Parser) (v : Value) (q : Parser)
    (members : List (List Piece × Node)) : Prop where
  went : ∃ w t c, Ws w ∧ SpellsMembers members t ∧ Ws c ∧ Consumes p (w ++ (t ++ (c ++ [125]))) q
  distinct : AllMembers Node.keysDistinct members
  paired : AllMembers Node.surrogatesPaired members
  keys : (acc.map (fun field => field.1.bytes) ++
    members.map fun member => unescape member.1).Nodup
  pairedKeys : ∀ member ∈ members, Paired member.1
  validKeys : ∀ member ∈ members, utf8Valid (unescape member.1) = true
  shallow : depth + memberHeights members ≤ 128
  value : AllMembers Node.numberFits members → v = .object ((memberValues members).foldl
    (fun acc field => insertBy (fun field => field.1.bytes) field acc) acc)

theorem readsAs_word {w : Value} {word : String} (shallow : ¬ 128 < depth)
    (leaf : node.Spells (ascii word) ∧ node.DistinctKeys ∧ node.Paired ∧
      node.height = 0 ∧ node.value = v) (read : (p.expect word).map (fun q => (v, q)) = .ok (w, q)) :
    ReadsAs depth p w q node := by
  obtain ⟨r, expected, made⟩ := map_eq_ok.mp read
  cases made
  obtain ⟨spells, distinct, paired, flat, value⟩ := leaf
  exact ⟨⟨_, spells, consumes_expect expected⟩, distinct, paired, by omega, fun _ => value.symm⟩

theorem itemsAs_last {acc : List Value} {item : Value}
    (only : ReadsAs (depth + 1) p.skipWs item r node) (bracket : r.skipWs.bump.1 = some 93) :
    ItemsAs depth acc p (.array (acc ++ [item])) r.skipWs.bump.2 [node] := by
  obtain ⟨w, space, went⟩ := consumes_skipWs p
  obtain ⟨t, spelled, went'⟩ := only.went
  obtain ⟨c, space', went''⟩ := consumes_skipWs r
  have shallow := only.shallow
  refine ⟨⟨w, t, c, space, spelled, space', ?_⟩, ⟨only.distinct, trivial⟩, ⟨only.paired, trivial⟩, ?_,
    fun integers => ?_⟩
  · exact went.trans (went'.trans (went''.trans (consumes_bump bracket)))
  · simp only [itemHeights]
    omega
  · rw [only.value integers.1]
    rfl

theorem itemsAs_cons {acc : List Value} {item : Value} {next : Node} {items : List Node}
    (first : ReadsAs (depth + 1) p.skipWs item r node) (comma : r.skipWs.bump.1 = some 44)
    (rest : ItemsAs depth (acc ++ [item]) r.skipWs.bump.2 v q (next :: items)) :
    ItemsAs depth acc p v q (node :: next :: items) := by
  obtain ⟨w, space, went⟩ := consumes_skipWs p
  obtain ⟨t, spelled, went'⟩ := first.went
  obtain ⟨a, space', went''⟩ := consumes_skipWs r
  obtain ⟨b, u, c, space'', spelled', space₃, last⟩ := rest.went
  have shallow := first.shallow
  have deeper := rest.shallow
  refine ⟨⟨w, t ++ (a ++ 44 :: (b ++ u)), c, space,
      ⟨t, a, b, u, spelled, space', space'', spelled', rfl⟩, space₃, ?_⟩,
    ⟨first.distinct, rest.distinct⟩, ⟨first.paired, rest.paired⟩, ?_, fun integers => ?_⟩
  · have all := went.trans (went'.trans (went''.trans ((consumes_bump comma).trans last)))
    simpa using all
  · rw [itemHeights]
    omega
  · rw [rest.value integers.2, first.value integers.1, append_assoc]
    rfl

/-- The key and the tree that one member of an object was spelled with. -/
structure MemberAs (depth : Nat) (acc : List (Text × Value)) (p : Parser) (key : Text)
    (value : Value) (q : Parser) (pieces : List Piece) (node : Node) : Prop where
  went : ∃ w k a b t, Ws w ∧ SpellsPieces pieces k ∧ Ws a ∧ Ws b ∧ node.Spells t ∧
    Consumes p (w ++ 34 :: (k ++ 34 :: (a ++ 58 :: (b ++ t)))) q
  text : ∃ valid : utf8Valid (unescape pieces) = true, key = ⟨unescape pieces, valid⟩
  pairedKey : Paired pieces
  fresh : unescape pieces ∉ acc.map fun field => field.1.bytes
  distinct : node.DistinctKeys
  paired : node.Paired
  shallow : depth + 1 + node.height ≤ 128
  value : node.Integers → value = node.value

theorem memberAs_of (quote : p.skipWs.peek = some 34) (read : parseString p.skipWs = .ok (key, q))
    (fresh : (acc.any fun field => field.1 = key) = false) (colon : q.skipWs.bump.1 = some 58)
    (inner : ReadsAs (depth + 1) q.skipWs.bump.2.skipWs value r node) :
    ∃ pieces, MemberAs depth acc p key value r pieces node := by
  obtain ⟨w, space, went⟩ := consumes_skipWs p
  obtain ⟨pieces, k, spelled, paired, same, went'⟩ := parseString_sound quote read
  obtain ⟨a, space', went''⟩ := consumes_skipWs q
  obtain ⟨b, space'', went₃⟩ := consumes_skipWs q.skipWs.bump.2
  obtain ⟨t, spelled', last⟩ := inner.went
  have valid := paired.valid spelled
  have text := same.trans (textOf_eq valid)
  refine ⟨pieces, ⟨w, k, a, b, t, space, spelled, space', space'', spelled', ?_⟩, ⟨valid, text⟩,
    paired, fun old => ?_, inner.distinct, inner.paired, inner.shallow, inner.value⟩
  · have all := went.trans (went'.trans (went''.trans ((consumes_bump colon).trans
      (went₃.trans last))))
    simpa using all
  · obtain ⟨field, member, twice⟩ := mem_map.mp old
    have equal : field.1 = key := Text.ext_bytes (twice.trans (congrArg Text.bytes text).symm)
    simp only [any_eq_false, decide_eq_true_eq] at fresh
    exact fresh field member equal

theorem keys_insertBy (field : Text × Value)
    (fresh : field.1.bytes ∉ acc.map fun field => field.1.bytes) :
    ((insertBy (fun field : Text × Value => field.1.bytes) field acc).map
      fun field => field.1.bytes).Perm (field.1.bytes :: acc.map fun field => field.1.bytes) := by
  have perm : (insertBy (fun field : Text × Value => field.1.bytes) field acc).Perm (field :: acc) :=
    perm_insertBy fun other member same => fresh (same ▸ mem_map_of_mem member)
  exact perm.map fun field => field.1.bytes

theorem membersAs_last {pieces : List Piece} (only : MemberAs depth acc p key value r pieces node)
    (distinct : (acc.map fun field => field.1.bytes).Nodup) (brace : r.skipWs.bump.1 = some 125) :
    MembersAs depth acc p
      (.object (insertBy (fun field => field.1.bytes) (key, value) acc)) r.skipWs.bump.2
      [(pieces, node)] := by
  obtain ⟨w, k, a, b, t, space, spelled, space', space'', spelled', went⟩ := only.went
  obtain ⟨c, space₃, went'⟩ := consumes_skipWs r
  obtain ⟨valid, text⟩ := only.text
  have shallow := only.shallow
  refine ⟨⟨w, _, c, space, ⟨k, a, b, t, spelled, space', space'', spelled', rfl⟩, space₃, ?_⟩,
    ⟨only.distinct, trivial⟩, ⟨only.paired, trivial⟩, ?_, ?_, ?_, ?_, fun integers => ?_⟩
  · have all := went.trans (went'.trans (consumes_bump brace))
    simpa using all
  · refine nodup_append.mpr ⟨distinct, nodup_singleton _, ?_⟩
    intro bytes old other new same
    rw [map_singleton, mem_singleton] at new
    exact only.fresh (new ▸ same ▸ old)
  · exact forall_mem_singleton.mpr only.pairedKey
  · exact forall_mem_singleton.mpr valid
  · simp only [memberHeights]
    omega
  · simp only [memberValues, foldl_cons, foldl_nil, ← only.value integers.1, text,
      textOf_eq valid]

theorem membersAs_cons {pieces : List Piece} {next : List Piece × Node}
    (first : MemberAs depth acc p key value r pieces node) (comma : r.skipWs.bump.1 = some 44)
    (rest : MembersAs depth (insertBy (fun field => field.1.bytes) (key, value) acc)
      r.skipWs.bump.2 v q (next :: members)) :
    MembersAs depth acc p v q ((pieces, node) :: next :: members) := by
  obtain ⟨w, k, a, b, t, space, spelled, space', space'', spelled', went⟩ := first.went
  obtain ⟨c, space₃, went'⟩ := consumes_skipWs r
  obtain ⟨d, u, e, space₄, spelled₂, space₅, went''⟩ := rest.went
  obtain ⟨valid, text⟩ := first.text
  have bytes : key.bytes = unescape pieces := congrArg Text.bytes text
  have shallow := first.shallow
  have deeper := rest.shallow
  refine ⟨⟨w, _, e, space,
      ⟨k, a, b, t, c, d, u, spelled, space', space'', spelled', space₃, space₄, spelled₂, rfl⟩,
      space₅, ?_⟩,
    ⟨first.distinct, rest.distinct⟩, ⟨first.paired, rest.paired⟩, ?_, ?_, ?_, ?_,
    fun integers => ?_⟩
  · have all := went.trans (went'.trans ((consumes_bump comma).trans went''))
    simpa using all
  · have moved := (keys_insertBy (key, value) (bytes ▸ first.fresh)).append_right
      ((next :: members).map fun member => unescape member.1)
    have distinct := moved.nodup_iff.mp rest.keys
    rw [bytes] at distinct
    exact perm_middle.nodup_iff.mpr distinct
  · exact forall_mem_cons.mpr ⟨first.pairedKey, rest.pairedKeys⟩
  · exact forall_mem_cons.mpr ⟨valid, rest.validKeys⟩
  · rw [memberHeights]
    omega
  · have same : (key, value) = (textOf pieces, node.value) := by
      rw [first.value integers.1, text, textOf_eq valid]
    rw [rest.value integers.2, same]
    rfl

theorem keys_memberValues (valid : ∀ member ∈ members, utf8Valid (unescape member.1) = true) :
    (memberValues members).map (fun field => field.1.bytes)
      = members.map fun member => unescape member.1 := by
  induction members with
  | nil => rfl
  | cons member members ih =>
    obtain ⟨first, rest⟩ := forall_mem_cons.mp valid
    rw [memberValues, map_cons, map_cons, ih rest, textOf_eq first]

theorem ws_nil : Ws [] := by simp [Ws]

theorem itemsAs_nil (shallow : ¬ 128 < depth) (bracket : p.peek = some 93) :
    ItemsAs depth [] p (.array []) (p.advance 1) [] where
  went := ⟨[], [], [], ws_nil, rfl, ws_nil, consumes_peek bracket⟩
  distinct := trivial
  paired := trivial
  shallow := Nat.not_lt.mp shallow
  value _ := rfl

theorem membersAs_nil (shallow : ¬ 128 < depth) (brace : p.peek = some 125) :
    MembersAs depth [] p (.object []) (p.advance 1) [] where
  went := ⟨[], [], [], ws_nil, rfl, ws_nil, consumes_peek brace⟩
  distinct := trivial
  paired := trivial
  keys := nodup_nil
  pairedKeys := by simp
  validKeys := by simp
  shallow := Nat.not_lt.mp shallow
  value _ := rfl

theorem readsAs_array {items : List Node} (bracket : p.peek = some 91)
    (inner : ItemsAs depth [] (p.advance 1).skipWs v q items) :
    ReadsAs depth p v q (.array items) := by
  obtain ⟨b, space, went⟩ := consumes_skipWs (p.advance 1)
  obtain ⟨w, t, c, space', spelled, space'', last⟩ := inner.went
  refine ⟨⟨_, ⟨[], b ++ w, t, c, [], ws_nil, ws_append space space', space'', ws_nil,
    spelled, rfl⟩, ?_⟩, ⟨trivial, inner.distinct⟩, ⟨trivial, inner.paired⟩, inner.shallow, ?_⟩
  · have all := (consumes_peek bracket).trans (went.trans last)
    simpa using all
  · exact fun integers => inner.value integers.2

theorem readsAs_object (brace : p.peek = some 123)
    (inner : MembersAs depth [] (p.advance 1).skipWs v q members) :
    ReadsAs depth p v q (.object members) := by
  obtain ⟨b, space, went⟩ := consumes_skipWs (p.advance 1)
  obtain ⟨w, t, c, space', spelled, space'', last⟩ := inner.went
  have keys : (members.map fun member => unescape member.1).Nodup := inner.keys
  refine ⟨⟨_, ⟨[], b ++ w, t, c, [], ws_nil, ws_append space space', space'', ws_nil,
    spelled, rfl⟩, ?_⟩, ⟨keys, inner.distinct⟩, ⟨inner.pairedKeys, inner.paired⟩, inner.shallow, ?_⟩
  · have all := (consumes_peek brace).trans (went.trans last)
    simpa using all
  · intro integers
    rw [inner.value integers.2, Node.value, foldl_insertBy_eq_insertionSort]
    rw [keys_memberValues inner.validKeys]
    exact keys

/-! ### Soundness -/

/-- One round of the loop over the members, branch by branch. -/
theorem parseFields_succ (host : Host) (n depth : Nat) (fields : List (Text × Value)) (p : Parser) :
    parseFields host (n + 1) depth fields p =
      if p.skipWs.peek ≠ some 34 then .error (p.skipWs.err "expected object key string")
      else p.skipWs.parseString.bind fun (key, q) =>
        if (fields.any fun field => field.1 = key) = true then
          .error (.quoting "duplicate JSON object key " key.bytes (" at byte " ++ toString q.pos))
        else if q.skipWs.bump.1 ≠ some 58 then .error (q.skipWs.bump.2.err "expected ':'")
        else (parseValue host n (depth + 1) q.skipWs.bump.2.skipWs).bind fun (value, r) =>
          let fields := insertBy (fun field => field.1.bytes) (key, value) fields
          if r.skipWs.bump.1 = some 44 then parseFields host n depth fields r.skipWs.bump.2
          else if r.skipWs.bump.1 = some 125 then .ok (.object fields, r.skipWs.bump.2)
          else .error (r.skipWs.bump.2.err "expected ',' or '\x7d'") := by
  rw [parseFields]
  by_cases quote : p.skipWs.peek = some 34
  · simp only [quote, ne_eq, not_true_eq_false, if_false]
    rfl
  · simp only [ne_eq, if_pos quote]
    rfl

/-- The values that calls of at most `n` levels read. -/
def ValuesSound (host : Host) (n : Nat) : Prop :=
  ∀ depth p v q, parseValue host n depth p = .ok (v, q) → ∃ node, ReadsAs depth p v q node

def ItemsSound (host : Host) (n : Nat) : Prop :=
  ∀ depth acc p v q, parseItems host n depth acc p = .ok (v, q) →
    ∃ item items, ItemsAs depth acc p v q (item :: items)

def FieldsSound (host : Host) (n : Nat) : Prop :=
  ∀ depth acc p v q, (acc.map fun field => field.1.bytes).Nodup →
    parseFields host n depth acc p = .ok (v, q) →
    ∃ member members, MembersAs depth acc p v q (member :: members)

theorem parseItems_sound (values : ValuesSound host n) (items : ItemsSound host n) :
    ItemsSound host (n + 1) := by
  intro depth acc p v q read
  rw [parseItems, bind_eq_ok] at read
  obtain ⟨⟨item, r⟩, first, read⟩ := read
  obtain ⟨node, first⟩ := values _ _ _ _ first
  simp only at read
  split_ifs at read with comma bracket
  · obtain ⟨next, rest, read⟩ := items _ _ _ _ _ read
    exact ⟨node, next :: rest, itemsAs_cons first comma read⟩
  · cases read
    exact ⟨node, [], itemsAs_last first bracket⟩

theorem except_bind_eq_ok {α β : Type} {x : Except EventError α} {f : α → Except EventError β}
    {b : β} : x.bind f = .ok b ↔ ∃ a, x = .ok a ∧ f a = .ok b := bind_eq_ok

theorem parseFields_sound (values : ValuesSound host n) (fields : FieldsSound host n) :
    FieldsSound host (n + 1) := by
  intro depth acc p v q distinct read
  rw [parseFields_succ] at read
  split_ifs at read with quote
  obtain ⟨⟨key, r⟩, literal, read⟩ := except_bind_eq_ok.mp read
  simp only at read
  split_ifs at read with twice colon
  obtain ⟨⟨value, r'⟩, inner, read⟩ := except_bind_eq_ok.mp read
  obtain ⟨node, inner⟩ := values _ _ _ _ inner
  obtain ⟨pieces, member⟩ := memberAs_of (not_not.mp quote) literal (Bool.not_eq_true _ ▸ twice)
    (not_not.mp colon) inner
  simp only at read
  split_ifs at read with comma brace
  · have kept := (keys_insertBy (key, value) ?_).nodup_iff.mpr
      (nodup_cons.mpr ⟨?_, distinct⟩)
    obtain ⟨next, rest, read⟩ := fields _ _ _ _ _ kept read
    exact ⟨(pieces, node), next :: rest, membersAs_cons member comma read⟩
    all_goals
      obtain ⟨valid, text⟩ := member.text
      exact text ▸ member.fresh
  · cases read
    exact ⟨(pieces, node), [], membersAs_last member distinct brace⟩

theorem parseValue_sound (items : ItemsSound host n) (fields : FieldsSound host n) :
    ValuesSound host (n + 1) := by
  intro depth p v q read
  rw [parseValue] at read
  split_ifs at read with deep
  split at read
  · cases read
  · next c next =>
    simp only at read
    split_ifs at read with brace empty bracket empty quote t f n number
    · cases read
      subst brace
      exact ⟨_, readsAs_object next (membersAs_nil deep empty)⟩
    · subst brace
      obtain ⟨member, members, inner⟩ := fields _ _ _ _ _ (by simp) read
      exact ⟨_, readsAs_object next inner⟩
    · cases read
      subst bracket
      exact ⟨_, readsAs_array next (itemsAs_nil deep empty)⟩
    · subst bracket
      obtain ⟨item, rest, inner⟩ := items _ _ _ _ _ read
      exact ⟨_, readsAs_array next inner⟩
    · subst quote
      obtain ⟨⟨text, r⟩, literal, made⟩ := map_eq_ok.mp read
      cases made
      obtain ⟨pieces, s, spelled, paired, same, went⟩ := parseString_sound next literal
      refine ⟨.string pieces, ⟨_, ⟨s, spelled, rfl⟩, went⟩, trivial, paired, ?_, fun _ => ?_⟩
      · exact Nat.not_lt.mp deep
      · rw [same]
        rfl
    · exact ⟨.bool true, readsAs_word deep ⟨rfl, trivial, trivial, rfl, rfl⟩ read⟩
    · exact ⟨.bool false, readsAs_word deep ⟨rfl, trivial, trivial, rfl, rfl⟩ read⟩
    · exact ⟨.null, readsAs_word deep ⟨rfl, trivial, trivial, rfl, rfl⟩ read⟩
    · obtain ⟨negative, digits, fraction, exponent, s, spelled, went, value⟩ :=
        parseNumber_sound read
      exact ⟨_, ⟨s, spelled, went⟩, trivial, trivial, Nat.not_lt.mp deep, value⟩

/-- **What was read was spelled.** -/
theorem parse_sound (host : Host) (n : Nat) :
    ValuesSound host n ∧ ItemsSound host n ∧ FieldsSound host n := by
  induction n with
  | zero =>
    refine ⟨?_, ?_, ?_⟩
    · exact fun _ _ _ _ read => by cases read
    · exact fun _ _ _ _ _ read => by cases read
    · exact fun _ _ _ _ _ _ read => by cases read
  | succ n ih =>
    obtain ⟨values, items, fields⟩ := ih
    exact ⟨parseValue_sound items fields, parseItems_sound values items,
      parseFields_sound values fields⟩

end Parser

end Wok.Event
