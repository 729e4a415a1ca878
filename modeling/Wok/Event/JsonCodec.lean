/-
**The JSON round trip.**

What either writer wrote spells a tree of the grammar, so parsing it gives the value back, for
values without doubles whose object keys are in order and that are nested at most 128 deep. So a
written text determines its value, whichever of the two escapings wrote it.

* `writes_string` — a written string: every escape is one of the grammar's, and a multi-byte
  character stands for itself.
* `writes` — a written value spells a tree of that value.
* `parseStrict_writeJson` — **the round trip.**
* `writeJson_inj` — **the text determines the value**, across escapings.
-/

import Wok.Event.Strict

namespace Wok.Event

open Wok.Library List

/-! ### Strings -/

variable {b c : Byte} {s t : Bytes} {pieces : List Piece} {escaping : Escaping}

theorem hexDigitValue_hexDigit {n : Nat} (small : n < 16) :
    Parser.hexDigitValue (hexDigit n) = some n := by
  obtain ⟨digit, value⟩ := hexValue_hexDigit n small
  rw [Parser.hexDigitValue, if_pos digit, value]

theorem escapeByte_high (escaping : Escaping) (high : ¬ b < 128) : escapeByte escaping b = [b] := by
  have ne : ∀ {c : Byte}, c < 128 → b ≠ c := by
    rintro c small rfl
    exact high small
  have control : ¬(b < 32 ∨ b = 127 ∧ escaping = .tao) := by
    rintro (less | ⟨same, _⟩)
    · exact high (less.trans (by decide))
    · exact ne (by decide) same
  simp only [escapeByte, if_neg (ne (c := 34) (by decide)), if_neg (ne (c := 92) (by decide)),
    if_neg (ne (c := 8) (by decide)), if_neg (ne (c := 12) (by decide)),
    if_neg (ne (c := 10) (by decide)), if_neg (ne (c := 13) (by decide)),
    if_neg (ne (c := 9) (by decide)), if_neg control]

theorem escaped_high (escaping : Escaping) (high : ∀ b ∈ t, ¬ b < 128) :
    t.flatMap (escapeByte escaping) = t := by
  induction t with
  | nil => rfl
  | cons b t ih =>
    rw [flatMap_cons, escapeByte_high escaping (high b (.head _)),
      ih fun c member => high c (.tail b member)]
    rfl

/-- A string, as written between its quotes. -/
structure WritesString (escaping : Escaping) (s : Bytes) (pieces : List Piece) : Prop where
  spells : SpellsPieces pieces (s.flatMap (escapeByte escaping))
  stands : unescape pieces = s
  paired : Paired pieces

theorem utf8Encode_byte (small : b < 128) : Parser.utf8Encode b.val = [b] := by
  rw [utf8Encode_ascii small, ofNat_eq rfl]

theorem WritesString.ascii (small : b < 128) (rest : WritesString escaping s pieces) :
    ∃ pieces, WritesString escaping (b :: s) pieces := by
  have below : b.val < 128 := small
  have plain : Parser.utf8Encode b.val = [b] := utf8Encode_byte small
  by_cases simple : b = 34 ∨ b = 92 ∨ b = 8 ∨ b = 12 ∨ b = 10 ∨ b = 13 ∨ b = 9
  · have short : ∃ letter, (letter, b) ∈ shortEscapes ∧ escapeByte escaping b = [92, letter] := by
      rcases simple with rfl | rfl | rfl | rfl | rfl | rfl | rfl <;>
        exact ⟨_, by simp [shortEscapes], rfl⟩
    obtain ⟨letter, listed, written⟩ := short
    refine ⟨.short letter b :: pieces, ⟨_, _, ⟨listed, rfl⟩, rest.spells, ?_⟩, ?_,
      .short _ _ rest.paired⟩
    · rw [flatMap_cons, written]
    · rw [unescape, rest.stands]
  · simp only [not_or] at simple
    obtain ⟨quote, slash, back, feed, line, carriage, tab⟩ := simple
    have written : escapeByte escaping b = if b < 32 ∨ b = 127 ∧ escaping = .tao then
        [92, 117, 48, 48, hexDigit (b.val / 16), hexDigit (b.val % 16)] else [b] := by
      simp only [escapeByte, if_neg quote, if_neg slash, if_neg back, if_neg feed, if_neg line,
        if_neg carriage, if_neg tab]
    split_ifs at written with control
    · have notHigh : ¬HighSurrogate b.val := fun high => absurd high.1 (by omega)
      have notLow : ¬LowSurrogate b.val := fun low => absurd low.1 (by omega)
      have hex : Hex4 [48, 48, hexDigit (b.val / 16), hexDigit (b.val % 16)] b.val :=
        ⟨_, _, _, _, 0, 0, _, _, rfl, by decide, by decide, hexDigitValue_hexDigit (by omega),
          hexDigitValue_hexDigit (by omega), by omega⟩
      refine ⟨.unit b.val :: pieces, ⟨_, _, ⟨_, hex, rfl⟩, rest.spells, ?_⟩, ?_,
        .unit notHigh notLow rest.paired⟩
      · rw [flatMap_cons, written]
      · rw [unescape_unit notHigh, plain, rest.stands]
        rfl
    · have printable : 32 ≤ b.val := not_lt.mp fun less => control (.inl less)
      refine ⟨.unescaped b.val :: pieces, ⟨_, _, ⟨.inl (by omega), printable,
        fun same => quote (Fin.ext same), fun same => slash (Fin.ext same), plain.symm⟩,
        rest.spells, ?_⟩, ?_, .unescaped _ rest.paired⟩
      · rw [flatMap_cons, written]
      · rw [unescape, plain, rest.stands]
        rfl

/-- A character of more than one byte in front. -/
theorem WritesString.multibyte (char : Multibyte c t) (tails : ∀ b ∈ t, isTail b = true)
    (rest : WritesString escaping s pieces) :
    ∃ pieces, WritesString escaping (c :: t ++ s) pieces := by
  obtain ⟨cp, scalar, above, encoded⟩ := char.scalar
  have high : ∀ b ∈ c :: t, ¬ b < 128 := forall_mem_cons.mpr
    ⟨char.high, fun b member => not_lt.mpr (isTail_range (tails b member)).1⟩
  refine ⟨.unescaped cp :: pieces, ⟨c :: t, _, ⟨scalar, by omega, by omega, by omega, encoded.symm⟩,
    rest.spells, ?_⟩, ?_, .unescaped _ rest.paired⟩
  · rw [flatMap_append, escaped_high escaping high]
  · rw [unescape, encoded, rest.stands]

/-- **A written string spells its text.** -/
theorem writes_string (escaping : Escaping) (valid : utf8Valid s = true) :
    ∃ pieces, WritesString escaping s pieces := by
  fun_induction utf8Valid s with
  | case1 => exact ⟨[], rfl, rfl, .nil⟩
  | case2 a rest first ih =>
    obtain ⟨pieces, written⟩ := ih valid
    exact written.ascii first
  | case3 a notAscii first b rest ih =>
    simp only [Bool.and_eq_true, decide_eq_true_eq] at valid first
    obtain ⟨pieces, written⟩ := ih valid.2
    exact written.multibyte (multibyte_two first valid.1) (by simpa using valid.1)
  | case4 => cases valid
  | case5 a notAscii notTwo first b c rest ih =>
    simp only [Bool.and_eq_true, decide_eq_true_eq] at valid first
    obtain ⟨pieces, written⟩ := ih valid.2
    exact written.multibyte (multibyte_three first valid.1.1 valid.1.2)
      (by simpa using ⟨second3_tail valid.1.1, valid.1.2⟩)
  | case6 => cases valid
  | case7 a notAscii notTwo notThree first b c d rest ih =>
    simp only [Bool.and_eq_true, decide_eq_true_eq] at valid first
    obtain ⟨pieces, written⟩ := ih valid.2
    exact written.multibyte (multibyte_four first valid.1.1.1 valid.1.1.2 valid.1.2)
      (by simpa using ⟨second4_tail valid.1.1.1, valid.1.1.2, valid.1.2⟩)
  | case8 => cases valid
  | case9 => cases valid

theorem WritesString.textOf {text : Text} (written : WritesString escaping text.bytes pieces) :
    textOf pieces = text := by
  obtain ⟨bytes, valid⟩ := text
  obtain rfl : unescape pieces = bytes := written.stands
  exact textOf_eq valid

/-! ### Values -/

variable {v : Value}

mutual

/-- No doubles, and the keys of every object in order. -/
def Value.Plain : Value → Prop
  | .float _ => False
  | .array items => PlainItems items
  | .object fields => SortedBy (fun field => field.1.bytes) fields ∧ PlainFields fields
  | .null | .bool _ | .int _ | .string _ => True

def PlainItems : List Value → Prop
  | [] => True
  | item :: items => item.Plain ∧ PlainItems items

def PlainFields : List (Text × Value) → Prop
  | [] => True
  | (_, value) :: fields => value.Plain ∧ PlainFields fields

end

mutual

/-- How many arrays and objects the innermost value sits in. -/
def Value.height : Value → Nat
  | .array items => itemsHeight items
  | .object fields => fieldsHeight fields
  | .null | .bool _ | .int _ | .float _ | .string _ => 0

def itemsHeight : List Value → Nat
  | [] => 0
  | item :: items => max (item.height + 1) (itemsHeight items)

def fieldsHeight : List (Text × Value) → Nat
  | [] => 0
  | (_, value) :: fields => max (value.height + 1) (fieldsHeight fields)

end

theorem Value.induct {motive : Value → Prop} (null : motive .null) (bool : ∀ b, motive (.bool b))
    (int : ∀ i, motive (.int i)) (float : ∀ text, motive (.float text))
    (string : ∀ s, motive (.string s))
    (array : ∀ items, (∀ item ∈ items, motive item) → motive (.array items))
    (object : ∀ fields, (∀ field ∈ fields, motive field.2) → motive (.object fields))
    (v : Value) : motive v := by
  refine @Value.rec motive (fun items => ∀ item ∈ items, motive item)
    (fun fields => ∀ field ∈ fields, motive field.2) (fun field => motive field.2) null bool int
    float string array object ?_ ?_ ?_ ?_ ?_ v
  · simp
  · intro item items first rest other member
    rcases mem_cons.mp member with rfl | inside
    · exact first
    · exact rest other inside
  · simp
  · intro field fields first rest other member
    rcases mem_cons.mp member with rfl | inside
    · exact first
    · exact rest other inside
  · exact fun key value read => read

theorem writeFields_eq_map (escaping : Escaping) (fields : List (Text × Value)) :
    writeFields escaping fields
      = fields.map fun field => (field.1, writeJson escaping field.2) := by
  induction fields with
  | nil => rfl
  | cons field fields ih => rw [writeFields, ih, map_cons]

variable {fields : List (Text × Value)}

theorem sortFields_sorted (escaping : Escaping)
    (sorted : SortedBy (fun field => field.1.bytes) fields) :
    sortFields (writeFields escaping fields) = writeFields escaping fields := by
  have keys : (writeFields escaping fields).Pairwise fun a b => a.1.bytes ≤ b.1.bytes := by
    rw [writeFields_eq_map, pairwise_map]
    exact List.Pairwise.imp le_of_lt sorted
  exact List.Pairwise.insertionSort_eq keys

/-- The fields of an object, as written between its braces. -/
def fieldTexts (escaping : Escaping) (fields : List (Text × Value)) : List Bytes :=
  (writeFields escaping fields).map fun field =>
    writeString escaping field.1 ++ 58 :: field.2

theorem writeJson_object (escaping : Escaping)
    (sorted : SortedBy (fun f : Text × Value => f.1.bytes) fields) :
    writeJson escaping (.object fields)
      = 123 :: commaSep (fieldTexts escaping fields) ++ [125] := by
  rw [writeJson, sortFields_sorted escaping sorted]
  rfl

theorem plainItems_mem {items : List Value} (plain : PlainItems items) :
    ∀ item ∈ items, item.Plain := by
  induction items with
  | nil => simp
  | cons item items ih =>
    rintro other (_ | ⟨_, inside⟩)
    · exact plain.1
    · exact ih plain.2 other inside

theorem plainFields_mem (plain : PlainFields fields) : ∀ field ∈ fields, field.2.Plain := by
  induction fields with
  | nil => simp
  | cons field fields ih =>
    rintro other (_ | ⟨_, inside⟩)
    · exact plain.1
    · exact ih plain.2 other inside

/-- The conditions of the grammar, on a tree and every tree inside it. -/
def Good (node : Node) : Prop := node.DistinctKeys ∧ node.Paired ∧ node.Integers

/-- A written value, as the text of a tree. -/
structure Writes (escaping : Escaping) (v : Value) (node : Node) : Prop where
  spells : node.Spells (writeJson escaping v)
  value : node.value = v
  height : node.height = v.height
  good : Good node

section RoundTrip

variable (escaping : Escaping)

theorem writes_int (i : Integer) :
    Writes escaping (.int i) (.number (i.value < 0) (decimal i.value.natAbs) [] []) := by
  have signed : Node.signed (i.value < 0) (decimal i.value.natAbs) = i.value := by
    unfold Node.signed
    rw [digitsValue_decimal]
    split_ifs with negative <;> simp only [decide_eq_true_eq] at negative <;> omega
  have whole : IntPart (decimal i.value.natAbs) := by
    by_cases zero : i.value.natAbs = 0
    · exact .inl (by rw [zero]; rfl)
    · obtain ⟨c, rest, written, -, notZero⟩ := decimal_cons zero
      refine .inr ⟨⟨decimal_ne_nil _, decimal_isDigit _⟩, ?_⟩
      rw [written]
      exact fun same => notZero (Option.some.inj same)
  refine ⟨⟨whole, .inl rfl, .inl rfl, ?_⟩, ?_, rfl, trivial, trivial, rfl, rfl, ?_, ?_⟩
  · by_cases negative : i.value < 0 <;> simp [writeJson, writeInt, minus, negative]
  · rw [Node.value, signed, integerValue, Integer.ofInt, dif_pos ⟨i.low, i.high⟩]
  · rw [signed]
    exact i.low
  · rw [signed]
    exact i.high

theorem writes_items {items : List Value}
    (each : ∀ item ∈ items, ∃ node, Writes escaping item node) :
    ∃ nodes, SpellsItems nodes (commaSep (writeItems escaping items)) ∧ itemValues nodes = items ∧
      itemHeights nodes = itemsHeight items ∧ ∀ node ∈ nodes, Good node := by
  induction items with
  | nil => exact ⟨[], rfl, rfl, rfl, by simp⟩
  | cons item items ih =>
    obtain ⟨⟨node, first⟩, rest⟩ := forall_mem_cons.mp each
    obtain ⟨nodes, spelled, values, heights, good⟩ := ih rest
    refine ⟨node :: nodes, ?_, by rw [itemValues, first.value, values],
      by rw [itemHeights, itemsHeight, first.height, heights],
      forall_mem_cons.mpr ⟨first.good, good⟩⟩
    cases nodes with
    | nil =>
      cases values
      exact first.spells
    | cons next nodes =>
      cases values
      exact ⟨_, [], [], _, first.spells, Parser.ws_nil, Parser.ws_nil, spelled, rfl⟩

theorem writes_members {fields : List (Text × Value)}
    (each : ∀ field ∈ fields, ∃ node, Writes escaping field.2 node) :
    ∃ members, SpellsMembers members (commaSep (fieldTexts escaping fields)) ∧
      memberValues members = fields ∧ memberHeights members = fieldsHeight fields ∧
        (members.map fun member => unescape member.1) = fields.map (fun field => field.1.bytes) ∧
          ∀ member ∈ members, Paired member.1 ∧ Good member.2 := by
  induction fields with
  | nil => exact ⟨[], rfl, rfl, rfl, rfl, by simp⟩
  | cons field fields ih =>
    obtain ⟨key, value⟩ := field
    obtain ⟨⟨node, first⟩, rest⟩ := forall_mem_cons.mp each
    obtain ⟨members, spelled, values, heights, keys, good⟩ := ih rest
    obtain ⟨pieces, named⟩ := writes_string escaping key.valid
    refine ⟨(pieces, node) :: members, ?_, by rw [memberValues, named.textOf, first.value, values],
      by rw [memberHeights, fieldsHeight, first.height, heights],
      by rw [map_cons, map_cons, named.stands, keys],
      forall_mem_cons.mpr ⟨⟨named.paired, first.good⟩, good⟩⟩
    cases members with
    | nil =>
      cases values
      exact ⟨_, [], [], _, named.spells, Parser.ws_nil, Parser.ws_nil, first.spells,
        by simp [fieldTexts, memberValues, writeFields, commaSep, writeString]⟩
    | cons next members =>
      obtain ⟨key', value'⟩ := next
      cases values
      exact ⟨_, [], [], _, [], [], _, named.spells, Parser.ws_nil, Parser.ws_nil, first.spells,
        Parser.ws_nil, Parser.ws_nil, spelled,
        by simp [fieldTexts, memberValues, writeFields, commaSep, writeString]⟩

/-- **A written value spells a tree of that value.** -/
theorem writes (plain : v.Plain) : ∃ node, Writes escaping v node := by
  induction v using Value.induct with
  | null => exact ⟨.null, rfl, rfl, rfl, trivial, trivial, trivial⟩
  | bool b => exact ⟨.bool b, rfl, rfl, rfl, trivial, trivial, trivial⟩
  | int i => exact ⟨_, writes_int escaping i⟩
  | float text => exact absurd plain (by simp [Value.Plain])
  | string text =>
    obtain ⟨pieces, written⟩ := writes_string escaping text.valid
    exact ⟨.string pieces, ⟨_, written.spells, rfl⟩, by rw [Node.value, written.textOf], rfl,
      trivial, written.paired, trivial⟩
  | array items ih =>
    obtain ⟨nodes, spelled, values, heights, good⟩ := writes_items escaping
      fun item member => ih item member (plainItems_mem plain item member)
    exact ⟨.array nodes, ⟨[], [], _, [], [], Parser.ws_nil, Parser.ws_nil, Parser.ws_nil,
      Parser.ws_nil, spelled, rfl⟩, by rw [Node.value, values], heights,
      ⟨trivial, allItems_iff.mpr fun node member => (good node member).1⟩,
      ⟨trivial, allItems_iff.mpr fun node member => (good node member).2.1⟩,
      ⟨trivial, allItems_iff.mpr fun node member => (good node member).2.2⟩⟩
  | object fields ih =>
    obtain ⟨sorted, plain⟩ := plain
    obtain ⟨members, spelled, values, heights, keys, good⟩ :=
      writes_members escaping fun field member => ih field member (plainFields_mem plain field member)
    have distinct' : (members.map fun member => unescape member.1).Nodup :=
      keys ▸ pairwise_map.mpr (sorted.imp ne_of_lt)
    refine ⟨.object members, ⟨[], [], _, [], [], Parser.ws_nil, Parser.ws_nil, Parser.ws_nil,
      Parser.ws_nil, spelled, writeJson_object escaping sorted⟩, ?_, heights,
      ⟨distinct', allMembers_iff.mpr fun member listed => (good member listed).2.1⟩,
      ⟨fun member listed => (good member listed).1,
        allMembers_iff.mpr fun member listed => (good member listed).2.2.1⟩,
      ⟨trivial, allMembers_iff.mpr fun member listed => (good member listed).2.2.2⟩⟩
    rw [Node.value, values]
    exact congrArg Value.object (List.Pairwise.insertionSort_eq (sorted.imp le_of_lt))

end RoundTrip

/-- **The round trip**: parsing what either writer wrote gives the value back. -/
theorem parseStrict_writeJson (host : Host) (escaping : Escaping) (plain : v.Plain)
    (shallow : v.height ≤ 128) : parseStrict host (writeJson escaping v) = .ok v := by
  obtain ⟨node, spells, value, height, distinct, paired, integers⟩ := writes escaping plain
  have text : Spells node (writeJson escaping v) :=
    ⟨[], _, [], Parser.ws_nil, spells, Parser.ws_nil, by simp⟩
  rw [parseStrict_complete text distinct paired (height ▸ shallow) integers, value]

/-- **The text determines the value**, whichever escaping wrote it. -/
theorem writeJson_inj (host : Host) {first second : Escaping} {w : Value} (plain : v.Plain)
    (shallow : v.height ≤ 128) (plain' : w.Plain) (shallow' : w.height ≤ 128)
    (same : writeJson first v = writeJson second w) : v = w := by
  have read := parseStrict_writeJson host first plain shallow
  rw [same, parseStrict_writeJson host second plain' shallow'] at read
  exact (Except.ok.inj read).symm

end Wok.Event
