/-
**Entries that proxies write.**

An entry of an address list is an address, with or without a port. An entry of a `Forwarded` header
is an RFC 7239 element: parameters between semicolons, one of which is the `for`. Both are read
whole when they stand last in a line.

* `Entry` — the well-formed entries that name an address.
* `elementForFrom_pair`, `elementForFrom_other` — one parameter of an element, and the parameters
  that are not the `for`.
* `Entry.read` — **an entry is found whole, whatever is ahead of it, and names its address.**
-/

import Wok.Ws.Quoted

namespace Wok.Ws

open Wok.Library List

/-! ### What proxies write -/

/-- Optional white space. -/
def IsSpace (s : Bytes) : Prop := ∀ b ∈ s, b = 32 ∨ b = 9

/-- An entry of an address list. -/
inductive AddressEntry (net : AddressText) : IpAddr → Str → Prop
  | bare (ip : IpAddr) : AddressEntry net ip (net.print ip)
  | withPort {port : Str} (isPort : AddressText.IsPort port) (ip : IpAddr) :
    AddressEntry net ip (net.printSocket port ip)

/-- Nothing, or a colon and a port, which may be obfuscated. -/
inductive PortSuffix : Str → Prop
  | none : PortSuffix []
  | port {port : Str} (isPort : isNodePort port = true) : PortSuffix (':' :: port)

/-- A node that names an address. -/
inductive Node (net : AddressText) : IpAddr → Str → Prop
  | v4 {port : Str} (suffix : PortSuffix port) (bits : BitVec 32) :
    Node net (.v4 bits) (net.printV4 bits ++ port)
  | v6 {port : Str} (suffix : PortSuffix port) (bits : BitVec 128) :
    Node net (.v6 bits) ('[' :: (net.printV6 bits ++ ']' :: port))

/-- The text with some of its characters escaped. -/
def escapeSome : List Bool → Str → Str
  | true :: escapes, c :: s => '\\' :: c :: escapeSome escapes s
  | false :: escapes, c :: s => c :: escapeSome escapes s
  | [], s => s
  | _, [] => []

/-- A token: parameter names, and values that need no quotes. -/
def IsToken (s : Str) : Prop := s ≠ [] ∧ ∀ c ∈ s, isTchar c = true

/-- A parameter's value: a token or a quoted string. -/
inductive Value : Bytes → Prop
  | token {s : Str} (isToken : IsToken s) : Value (asciiBytes s)
  | quoted {content : Bytes} (closed : closesBytes content = true) :
    Value (34 :: (content ++ [34]))

/-- A `for` value that names `ip`. -/
inductive ForValue (net : AddressText) (ip : IpAddr) : Str → Prop
  | bare {node : Str} (names : Node net ip node) : ForValue net ip node
  | quoted {node : Str} (names : Node net ip node) (escapes : List Bool) :
    ForValue net ip ('"' :: (escapeSome escapes node ++ ['"']))

/-- Whether a parameter is the `for`, in any case. -/
def IsFor (name : Str) : Prop := eqIgnoreAsciiCase name "for".toList = true

instance instDecidableIsFor (name : Str) : Decidable (IsFor name) :=
  inferInstanceAs (Decidable (eqIgnoreAsciiCase name "for".toList = true))

/-- One of the other parts of an element: nothing, or a parameter. -/
inductive OtherPart : Bytes → Prop
  | empty : OtherPart []
  | parameter {name : Str} {value : Bytes} (isToken : IsToken name) (other : ¬IsFor name)
    (isValue : Value value) : OtherPart (asciiBytes name ++ 61 :: value)

/-- An RFC 7239 element whose `for` names `ip`. -/
structure Element (net : AddressText) (ip : IpAddr) (element : Bytes) where
  before : List Bytes
  after : List Bytes
  name : Str
  value : Str
  others : ∀ part ∈ before ++ after, OtherPart part
  name_token : IsToken name
  name_for : IsFor name
  names : ForValue net ip value
  written : element = before.flatMap (· ++ [59]) ++ (asciiBytes (name ++ '=' :: value)
    ++ after.flatMap (59 :: ·))

/-- A well-formed entry that names `ip`. -/
def Entry (net : AddressText) : ListForm → IpAddr → Bytes → Prop
  | .addressList, ip, entry => ∃ s, AddressEntry net ip s ∧ entry = asciiBytes s
  | .rfc7239, ip, entry => Nonempty (Element net ip entry)

/-! ### Characters -/

variable {c : Char} {p : Char → Bool}

/-- The characters of addresses, nodes and ports. -/
def isNodeChar (c : Char) : Bool := c.isAlphanum || ['.', ':', '_', '-', '[', ']'].contains c

theorem isAscii_of_isAlphanum (alphanum : c.isAlphanum = true) : IsAscii c := by
  have ranges : (decide (c.val ≥ 65 ∧ c.val ≤ 90) || (c.val ≥ 97 && c.val ≤ 122)
      || (c.val ≥ 48 && c.val ≤ 57)) = true := alphanum
  simp only [Bool.or_eq_true, Bool.and_eq_true, decide_eq_true_eq] at ranges
  rcases ranges with (⟨_, le⟩ | ⟨_, le⟩) | ⟨_, le⟩
  · exact Nat.lt_of_le_of_lt (UInt32.le_iff_toNat_le.mp le) (by decide)
  · exact Nat.lt_of_le_of_lt (UInt32.le_iff_toNat_le.mp le) (by decide)
  · exact Nat.lt_of_le_of_lt (UInt32.le_iff_toNat_le.mp le) (by decide)

theorem isAscii_of_isNodeChar (isNode : isNodeChar c = true) : IsAscii c := by
  have others : ∀ c ∈ ['.', ':', '_', '-', '[', ']'], IsAscii c :=
    all_iff_forall_prop.mp (by decide)
  unfold isNodeChar at isNode
  rcases (Bool.or_eq_true _ _).mp isNode with alphanum | listed
  · exact isAscii_of_isAlphanum alphanum
  · exact others c (contains_iff_mem.mp listed)

theorem isAscii_of_isTchar (isT : isTchar c = true) : IsAscii c := by
  have others : ∀ c ∈ "!#$%&'*+-.^_`|~".toList, IsAscii c :=
    all_iff_forall_prop.mp (by decide)
  unfold isTchar at isT
  rcases (Bool.or_eq_true _ _).mp isT with alphanum | listed
  · exact isAscii_of_isAlphanum alphanum
  · exact others c (contains_iff_mem.mp listed)

theorem ne_of_test {d : Char} (accepted : p c = true) (rejected : p d = false) : c ≠ d := by
  rintro rfl
  rw [accepted] at rejected
  cases rejected

theorem isNodeChar_of_isDigit (digit : c.isDigit = true) : isNodeChar c = true := by
  simp [isNodeChar, Char.isAlphanum, digit]

section Texts

variable {net : AddressText}

theorem printV4_node (lawful : net.Lawful) (bits : BitVec 32) :
    ∀ c ∈ net.printV4 bits, isNodeChar c = true := by
  intro c member
  rcases lawful.printV4_chars bits c member with digit | rfl
  · exact isNodeChar_of_isDigit digit
  · decide

theorem printV6_node (lawful : net.Lawful) (bits : BitVec 128) :
    ∀ c ∈ net.printV6 bits, isNodeChar c = true := by
  have letters : ∀ c ∈ ['a', 'b', 'c', 'd', 'e', 'f', ':', '.'], isNodeChar c = true :=
    all_iff_forall_prop.mp (by decide)
  intro c member
  rcases lawful.printV6_chars bits c member with digit | listed
  · exact isNodeChar_of_isDigit digit
  · exact letters c listed

theorem isNodePort_node {port : Str} (isPort : isNodePort port = true) :
    ∀ c ∈ port, isNodeChar c = true := by
  intro c member
  unfold isNodePort at isPort
  rcases (Bool.or_eq_true _ _).mp isPort with digits | obfuscated
  · simp only [Bool.and_eq_true, all_eq_true] at digits
    exact isNodeChar_of_isDigit (digits.2 c member)
  · split at obfuscated
    · simp only [Bool.and_eq_true, all_eq_true] at obfuscated
      rcases mem_cons.mp member with rfl | inside
      · decide
      · have listed : ∀ c ∈ ['.', '_', '-'], isNodeChar c = true :=
          all_iff_forall_prop.mp (by decide)
        rcases (Bool.or_eq_true _ _).mp (obfuscated.2 c inside) with alphanum | other
        · simp [isNodeChar, alphanum]
        · exact listed c (contains_iff_mem.mp other)
    · cases obfuscated

theorem portSuffix_node {port : Str} (suffix : PortSuffix port) :
    ∀ c ∈ port, isNodeChar c = true := by
  cases suffix with
  | none => simp
  | port isPort => exact forall_mem_cons.mpr ⟨by decide, isNodePort_node isPort⟩

theorem node_chars (lawful : net.Lawful) {ip : IpAddr} {node : Str} (names : Node net ip node) :
    ∀ c ∈ node, isNodeChar c = true := by
  cases names with
  | v4 suffix bits =>
    exact forall_mem_append.mpr ⟨printV4_node lawful bits, portSuffix_node suffix⟩
  | v6 suffix bits =>
    exact forall_mem_cons.mpr ⟨by decide, forall_mem_append.mpr
      ⟨printV6_node lawful bits, forall_mem_cons.mpr ⟨by decide, portSuffix_node suffix⟩⟩⟩

theorem addressEntry_chars (lawful : net.Lawful) {ip : IpAddr} {entry : Str}
    (names : AddressEntry net ip entry) :
    ∀ c ∈ entry, isNodeChar c = true := by
  cases names with
  | bare =>
    cases ip with
    | v4 bits => exact printV4_node lawful bits
    | v6 bits => exact printV6_node lawful bits
  | withPort isPort =>
    obtain ⟨n, _, rfl⟩ := isPort
    have port : ∀ c ∈ ':' :: Nat.toDigits 10 n, isNodeChar c = true :=
      forall_mem_cons.mpr ⟨by decide, fun c member =>
        isNodeChar_of_isDigit (Nat.isDigit_of_mem_toDigits (by decide) (by decide) member)⟩
    cases ip with
    | v4 bits => exact forall_mem_append.mpr ⟨printV4_node lawful bits, port⟩
    | v6 bits =>
      exact forall_mem_append.mpr ⟨forall_mem_cons.mpr ⟨by decide,
        printV6_node lawful bits⟩, forall_mem_cons.mpr ⟨by decide, port⟩⟩

end Texts

/-! ### Bytes and the text they are read as -/

variable {s text : Str}

/-- `bytes` are read as `text`, whatever follows. -/
def ReadsAs (bytes : Bytes) (text : Str) : Prop :=
  ∀ rest, fromUtf8Lossy (bytes ++ rest) = text ++ fromUtf8Lossy rest

theorem ReadsAs.append {a b : Bytes} {t : Str} (first : ReadsAs a s) (second : ReadsAs b t) :
    ReadsAs (a ++ b) (s ++ t) := by
  intro rest
  rw [append_assoc, first, second, append_assoc]

theorem readsAs_nil : ReadsAs [] [] := fun _ => rfl

theorem readsAs_ascii (small : ∀ c ∈ s, IsAscii c) : ReadsAs (asciiBytes s) s :=
  fun rest => fromUtf8Lossy_ascii small rest

theorem readsAs_byte {b : Byte} (small : b < 128) : ReadsAs [b] [asciiChar b] := by
  intro rest
  have read := fromUtf8Lossy_append small [] rest
  rwa [fromUtf8Lossy_nil] at read

theorem readsAs_quoted (content : Bytes) :
    ReadsAs (34 :: (content ++ [34])) ('"' :: (fromUtf8Lossy content ++ ['"'])) := by
  have opening : ReadsAs [34] ['"'] := readsAs_byte (by decide)
  have inside : ReadsAs (content ++ [34]) (fromUtf8Lossy content ++ ['"']) := by
    intro rest
    have read := fromUtf8Lossy_append (show (34 : Byte) < 128 by decide) content rest
    rw [append_assoc, append_assoc]
    exact read
  exact opening.append inside

theorem ReadsAs.whole {bytes : Bytes} (reads : ReadsAs bytes text) :
    fromUtf8Lossy bytes = text := by
  have read := reads []
  rwa [append_nil, fromUtf8Lossy_nil, append_nil] at read

theorem IsSpace.readsAs {s : Bytes} (space : IsSpace s) :
    ∃ text, ReadsAs s text ∧ ∀ c ∈ text, isOws c = true := by
  induction s with
  | nil => exact ⟨[], readsAs_nil, by simp⟩
  | cons b s ih =>
    obtain ⟨blank, rest⟩ := forall_mem_cons.mp space
    obtain ⟨text, reads, ows⟩ := ih rest
    have first : b < 128 ∧ isOws (asciiChar b) = true := by
      rcases blank with rfl | rfl
      · decide
      · decide
    exact ⟨asciiChar b :: text, (readsAs_byte first.1).append reads,
      forall_mem_cons.mpr ⟨first.2, ows⟩⟩

/-! ### Text that is found whole -/

/-- Text that the scan from the right passes over and that trimming leaves as it is. -/
structure Whole (s : Str) : Prop where
  clear : Clear s
  starts : StartsClear isOws s
  ends : EndsClear isOws s

theorem Whole.append {t : Str} (first : Whole s) (second : Whole t) : Whole (s ++ t) :=
  ⟨clear_append first.clear second.clear, first.starts.append second.starts,
    first.ends.append second.ends⟩

/-- Text in characters other than quotes, commas and white space. -/
theorem whole_of_test (accepted : ∀ c ∈ s, p c = true)
    (rejected : ∀ c ∈ ['"', ',', ' ', '\t'], p c = false) : Whole s := by
  have apart : ∀ c ∈ s, ∀ d ∈ ['"', ',', ' ', '\t'], c ≠ d := fun c member d listed =>
    ne_of_test (accepted c member) (rejected d listed)
  have space : ∀ c ∈ s, isOws c = false := by
    intro c member
    simp [isOws, apart c member ' ' (by decide), apart c member '\t' (by decide)]
  refine ⟨clear_plain fun c member => ?_, fun c starts => ?_, fun c ends => ?_⟩
  · exact ⟨apart c member '"' (by decide), apart c member ',' (by decide)⟩
  · exact space c (mem_of_mem_head? starts)
  · exact space c (mem_of_mem_getLast? ends)

theorem whole_char (plain : c ∉ ['"', ',', ' ', '\t']) : Whole [c] := by
  refine whole_of_test (p := (· = c)) (by simp) fun d listed => ?_
  exact decide_eq_false fun same => plain (same ▸ listed)

theorem whole_quoted {content : Str} (closed : closesText content = true) :
    Whole ('=' :: '"' :: (content ++ ['"'])) where
  clear := clear_quoted closed
  starts := by
    intro c starts
    cases starts
    decide
  ends := by
    intro c ends
    have last : ('=' :: '"' :: (content ++ ['"'])).getLast? = some '"' :=
      getLast?_concat (l := '=' :: '"' :: content)
    rw [last] at ends
    cases ends
    decide

theorem isTchar_rejects : ∀ c ∈ ['"', ',', ' ', '\t'], isTchar c = false :=
  all_iff_forall_prop.mp (by decide)

theorem isNodeChar_rejects : ∀ c ∈ ['"', ',', ' ', '\t'], isNodeChar c = false :=
  all_iff_forall_prop.mp (by decide)

/-! ### Parameters -/

variable {rest value : Str}

/-- A value as text. -/
inductive ValueText : Str → Prop
  | token {s : Str} (isToken : IsToken s) : ValueText s
  | quoted {content : Str} (closed : closesText content = true) :
    ValueText ('"' :: (content ++ ['"']))

/-- A part of an element as text. -/
inductive OtherText : Str → Prop
  | empty : OtherText []
  | parameter {name value : Str} (isToken : IsToken name) (other : ¬IsFor name)
    (isValue : ValueText value) : OtherText (name ++ '=' :: value)

theorem Value.readsAs {value : Bytes} (isValue : Value value) :
    ∃ text, ReadsAs value text ∧ ValueText text := by
  cases isValue with
  | token isToken =>
    exact ⟨_, readsAs_ascii fun c member => isAscii_of_isTchar (isToken.2 c member), .token isToken⟩
  | quoted closed =>
    refine ⟨_, readsAs_quoted _, .quoted ?_⟩
    rw [closesText, closes_lossy]
    exact closed

theorem OtherPart.readsAs {part : Bytes} (other : OtherPart part) :
    ∃ text, ReadsAs part text ∧ OtherText text := by
  cases other with
  | empty => exact ⟨[], readsAs_nil, .empty⟩
  | @parameter name value isToken other isValue =>
    obtain ⟨text, reads, isText⟩ := isValue.readsAs
    have named := readsAs_ascii fun c member => isAscii_of_isTchar (isToken.2 c member)
    have equals : ReadsAs [61] ['='] := readsAs_byte (by decide)
    exact ⟨_, named.append (equals.append reads), .parameter isToken other isText⟩

theorem OtherText.whole (other : OtherText text) : Whole text := by
  cases other with
  | empty => exact whole_of_test (p := isTchar) (by simp) isTchar_rejects
  | parameter isToken other isValue =>
    refine (whole_of_test isToken.2 isTchar_rejects).append ?_
    cases isValue with
    | token isToken =>
      exact (whole_char (by decide)).append (whole_of_test isToken.2 isTchar_rejects)
    | quoted closed => exact whole_quoted closed

/-- The text ends, or goes on with another part. -/
def PartEnds (rest : Str) : Prop := rest = [] ∨ rest.head? = some ';'

theorem PartEnds.dropWhile (ends : PartEnds rest) : rest.dropWhile isOws = rest := by
  have clear : StartsClear isOws rest := by
    intro c starts
    rcases ends with rfl | next
    · cases starts
    · rw [next] at starts
      cases starts
      decide
  exact dropWhile_append_clear (s := []) (by simp) clear

theorem PartEnds.takeWhile (ends : PartEnds rest) (plain : ∀ c ∈ value, c ≠ ';') :
    (value ++ rest).takeWhile (· ≠ ';') = value ∧ (value ++ rest).dropWhile (· ≠ ';') = rest := by
  have passes : ∀ c ∈ value, decide (c ≠ ';') = true :=
    fun c member => decide_eq_true (plain c member)
  have stops : rest.takeWhile (· ≠ ';') = [] ∧ rest.dropWhile (· ≠ ';') = rest := by
    rcases ends with rfl | next
    · exact ⟨rfl, rfl⟩
    · cases rest with
      | nil => exact ⟨rfl, rfl⟩
      | cons c rest =>
        cases next
        exact ⟨rfl, rfl⟩
  rw [takeWhile_append_of_pos passes, dropWhile_append_of_pos passes, stops.1, stops.2,
    append_nil]
  exact ⟨rfl, rfl⟩

/-- A value in characters that need no quotes is read up to its end. -/
theorem readValue_bare (accepted : ∀ c ∈ value, p c = true)
    (rejected : ∀ c ∈ ['"', ';', ' ', '\t'], p c = false) (nonempty : value ≠ [])
    (ends : PartEnds rest) : readValue (value ++ rest) = some (value, rest) := by
  have apart : ∀ c ∈ value, ∀ d ∈ ['"', ';', ' ', '\t'], c ≠ d := fun c member d listed =>
    ne_of_test (accepted c member) (rejected d listed)
  have trimmed : value.rdropWhile isOws = value := by
    have clear : EndsClear isOws value := by
      intro c last
      have member := mem_of_mem_getLast? last
      simp [isOws, apart c member ' ' (by decide), apart c member '\t' (by decide)]
    simpa using rdropWhile_append_clear (t := []) clear (by simp)
  obtain ⟨taken, left⟩ := ends.takeWhile fun c member => apart c member ';' (by decide)
  cases value with
  | nil => exact absurd rfl nonempty
  | cons c value =>
    have quote := apart c (.head _) '"' (by decide)
    rw [readValue]
    · rw [taken, left, trimmed]
    · intro quoted same
      exact quote (List.cons.inj same).1

theorem readValue_quoted {content : Str}
    (read : quotedString (content ++ '"' :: rest) = some (value, rest)) :
    readValue ('"' :: (content ++ ['"']) ++ rest) = some (value, rest) := by
  have text : '"' :: (content ++ ['"']) ++ rest = '"' :: (content ++ '"' :: rest) := by simp
  rw [text, readValue, read]

theorem readPair_eq {name read : Str} (isToken : IsToken name)
    (isValue : readValue (value ++ rest) = some (read, rest)) (ends : PartEnds rest) :
    readPair (name ++ '=' :: (value ++ rest)) = some (name, read, rest) := by
  have equals : '=' ∉ name := fun member => ne_of_test (isToken.2 _ member) (by decide) rfl
  have all : name.all isTchar = true := all_eq_true.mpr isToken.2
  have checks : ¬(name = [] ∨ ¬name.all isTchar = true) := by simp [isToken.1, all]
  rw [readPair, splitOnce_append equals, Option.bind_eq_bind, Option.bind_some]
  simp only [if_neg checks, isValue, Option.bind_some, ends.dropWhile]
  exact if_pos ends

/-! ### Elements -/

theorem elementForFrom_nil (found : Option Str) : elementForFrom found [] = found := by
  rw [elementForFrom]
  rfl

theorem elementForFrom_semicolon (found : Option Str) (rest : Str) :
    elementForFrom found (';' :: rest) = elementForFrom found rest := by
  have start : (';' :: rest).dropWhile isOws = ';' :: rest := PartEnds.dropWhile (.inr rfl)
  rw [elementForFrom]
  split
  · rename_i same
    rw [start] at same
    cases same
  · rename_i after same
    rw [start] at same
    cases same
    rfl
  · rename_i c tail other same
    rw [start] at same
    cases same
    exact (other rfl).elim

theorem elementForFrom_pair {found : Option Str} {name read : Str} (isToken : IsToken name)
    (isValue : readValue (value ++ rest) = some (read, rest)) (ends : PartEnds rest) :
    elementForFrom found (name ++ '=' :: (value ++ rest))
      = if eqIgnoreAsciiCase name "for".toList then
          if found.isSome then none else elementForFrom (some read) rest
        else elementForFrom found rest := by
  have pair := readPair_eq isToken isValue ends
  have start : (name ++ '=' :: (value ++ rest)).dropWhile isOws = name ++ '=' :: (value ++ rest) := by
    have clear : StartsClear isOws (name ++ '=' :: (value ++ rest)) :=
      (whole_of_test isToken.2 isTchar_rejects).starts.append fun c starts => by
        cases starts
        decide
    exact dropWhile_append_clear (s := []) (by simp) clear
  obtain ⟨c, tail, text⟩ : ∃ c tail, name ++ '=' :: (value ++ rest) = c :: tail := by
    cases name with
    | nil => exact absurd rfl isToken.1
    | cons c name => exact ⟨c, _, rfl⟩
  have first : c ≠ ';' := by
    cases name with
    | nil => exact absurd rfl isToken.1
    | cons d name =>
      cases text
      exact ne_of_test (isToken.2 c (.head _)) (by decide)
  rw [text] at start pair ⊢
  rw [elementForFrom]
  split
  · rename_i same
    rw [start] at same
    cases same
  · rename_i after same
    rw [start] at same
    cases same
    exact absurd rfl first
  · rename_i c' tail' other same
    rw [start] at same
    cases same
    split
    · rename_i none
      rw [pair] at none
      cases none
    · rename_i name' value' rest' some
      rw [pair] at some
      cases some
      rfl

theorem ValueText.read (isValue : ValueText value) (ends : PartEnds rest) :
    ∃ read, readValue (value ++ rest) = some (read, rest) := by
  cases isValue with
  | token isToken =>
    exact ⟨value, readValue_bare isToken.2 (all_iff_forall_prop.mp (by decide)) isToken.1 ends⟩
  | quoted closed =>
    obtain ⟨read, quoted⟩ := quotedString_closes closed rest
    exact ⟨read, readValue_quoted quoted⟩

/-- The other parts of an element are passed over. -/
theorem elementForFrom_other (other : OtherText text) (ends : PartEnds rest) (found : Option Str) :
    elementForFrom found (text ++ rest) = elementForFrom found rest := by
  cases other with
  | empty => rfl
  | parameter isToken notFor isValue =>
    obtain ⟨read, value⟩ := isValue.read ends
    rw [append_assoc, cons_append, elementForFrom_pair isToken value ends]
    exact if_neg notFor

theorem elementForFrom_before {parts : List Str} (others : ∀ part ∈ parts, OtherText part)
    (found : Option Str) (rest : Str) :
    elementForFrom found (parts.flatMap (· ++ [';']) ++ rest) = elementForFrom found rest := by
  induction parts with
  | nil => rfl
  | cons part parts ih =>
    obtain ⟨first, rest⟩ := forall_mem_cons.mp others
    rw [flatMap_cons, append_assoc, append_assoc, singleton_append,
      elementForFrom_other first (.inr rfl), elementForFrom_semicolon, ih rest]

theorem partEnds_after (parts : List Str) : PartEnds (parts.flatMap (';' :: ·)) := by
  cases parts with
  | nil => exact .inl rfl
  | cons part parts => exact .inr rfl

theorem elementForFrom_after {parts : List Str} (others : ∀ part ∈ parts, OtherText part)
    (found : Option Str) : elementForFrom found (parts.flatMap (';' :: ·)) = found := by
  induction parts with
  | nil => exact elementForFrom_nil found
  | cons part parts ih =>
    obtain ⟨first, rest⟩ := forall_mem_cons.mp others
    rw [flatMap_cons, cons_append, elementForFrom_semicolon,
      elementForFrom_other first (partEnds_after parts), ih rest]

/-! ### The address an entry names -/

section Named

variable {net : AddressText} {ip : IpAddr}
variable {node : Str}

theorem nodeAddress_eq (lawful : net.Lawful) (names : Node net ip node) :
    nodeAddress net node = some ip := by
  have withPort : ∀ {port : Str} (ip : IpAddr), PortSuffix port → withNodePort ip port = some ip := by
    intro port ip suffix
    cases suffix with
    | none => rfl
    | port isPort => exact if_pos isPort
  cases names with
  | v6 suffix bits =>
    have closing : ']' ∉ net.printV6 bits := by
      intro member
      rcases lawful.printV6_chars bits _ member with digit | listed
      · cases digit
      · exact absurd listed (by decide)
    rw [nodeAddress, splitOnce_append closing, Option.bind_eq_bind, Option.bind_some]
    simp only [lawful.parseV6_print]
    exact withPort _ suffix
  | @v4 port suffix bits =>
    have plain : ∀ c ∈ net.printV4 bits, c ≠ ':' ∧ c ≠ '[' := by
      intro c member
      rcases lawful.printV4_chars bits c member with digit | rfl
      · exact ⟨ne_of_test digit (by decide), ne_of_test digit (by decide)⟩
      · decide
    have passes : ∀ c ∈ net.printV4 bits, decide (c ≠ ':') = true :=
      fun c member => decide_eq_true (plain c member).1
    have stops : port.takeWhile (· ≠ ':') = [] ∧ port.dropWhile (· ≠ ':') = port := by
      cases suffix with
      | none | port => exact ⟨rfl, rfl⟩
    have first : ∀ bracketed, net.printV4 bits ++ port ≠ '[' :: bracketed := by
      intro bracketed same
      have nonempty := lawful.print_ne (.v4 bits)
      cases address : net.printV4 bits with
      | nil => exact nonempty address
      | cons c rest =>
        rw [address] at same
        exact (plain c (address ▸ mem_cons_self ..)).2 (List.cons.inj same).1
    rw [nodeAddress]
    · rw [takeWhile_append_of_pos passes, dropWhile_append_of_pos passes, stops.1,
        stops.2, append_nil, lawful.parseV4_print, Option.bind_eq_bind, Option.bind_some]
      exact withPort _ suffix
    · exact first

/-- What holds of a text and of it with characters escaped, from its end on. -/
theorem escapeSome_induct {motive : Str → Str → Prop} (nil : motive [] [])
    (bare : ∀ c s t, isNodeChar c = true → motive s t → motive (c :: s) (c :: t))
    (escaped : ∀ c s t, isNodeChar c = true → motive s t → motive (c :: s) ('\\' :: c :: t))
    (plain : ∀ c ∈ node, isNodeChar c = true) (escapes : List Bool) :
    motive node (escapeSome escapes node) := by
  induction node generalizing escapes with
  | nil =>
    cases escapes with
    | nil => exact nil
    | cons escape escapes => cases escape <;> exact nil
  | cons c node ih =>
    obtain ⟨first, rest⟩ := forall_mem_cons.mp plain
    cases escapes with
    | nil => exact bare c _ _ first (ih rest [])
    | cons escape escapes =>
      cases escape with
      | false => exact bare c _ _ first (ih rest escapes)
      | true => exact escaped c _ _ first (ih rest escapes)

theorem quotedString_escapeSome (plain : ∀ c ∈ node, isNodeChar c = true) (escapes : List Bool)
    (rest : Str) : quotedString (escapeSome escapes node ++ '"' :: rest) = some (node, rest) := by
  refine escapeSome_induct (motive := fun s t => quotedString (t ++ '"' :: rest) = some (s, rest))
    (quotedString_quote rest) (fun c s t first read => ?_) (fun c s t _ read => ?_) plain escapes
  · rw [cons_append, quotedString_plain (ne_of_test first (by decide))
      (ne_of_test first (by decide)), read]
    rfl
  · rw [cons_append, cons_append, quotedString_escape, read]
    rfl

theorem closesText_escapeSome (plain : ∀ c ∈ node, isNodeChar c = true) (escapes : List Bool) :
    closesText (escapeSome escapes node) = true := by
  refine escapeSome_induct (motive := fun _ t => closesText t = true) rfl
    (fun c s t first closed => ?_) (fun c s t _ closed => closed) plain escapes
  rw [closesText, closes_plain (ne_of_test first (by decide)) (ne_of_test first (by decide))]
  exact closed

theorem escapeSome_ascii (plain : ∀ c ∈ node, isNodeChar c = true) (escapes : List Bool) :
    ∀ c ∈ escapeSome escapes node, IsAscii c :=
  escapeSome_induct (motive := fun _ t => ∀ c ∈ t, IsAscii c) (by simp)
    (fun _ _ _ first rest => forall_mem_cons.mpr ⟨isAscii_of_isNodeChar first, rest⟩)
    (fun _ _ _ first rest => forall_mem_cons.mpr
      ⟨by decide, forall_mem_cons.mpr ⟨isAscii_of_isNodeChar first, rest⟩⟩) plain escapes

theorem node_ne_nil (lawful : net.Lawful) (names : Node net ip node) : node ≠ [] := by
  cases names with
  | v4 suffix bits =>
    intro empty
    exact lawful.print_ne (.v4 bits) (append_eq_nil_iff.mp empty).1
  | v6 suffix bits => exact cons_ne_nil _ _

/-- A `for` value is found whole and read as its node. -/
theorem ForValue.read (lawful : net.Lawful) {value : Str} (names : ForValue net ip value) :
    Whole ('=' :: value) ∧ (∀ c ∈ value, IsAscii c) ∧ ∃ node, nodeAddress net node = some ip ∧
      ∀ rest, PartEnds rest → readValue (value ++ rest) = some (node, rest) := by
  cases names with
  | bare named =>
    have chars := node_chars lawful named
    refine ⟨(whole_char (by decide)).append (whole_of_test chars isNodeChar_rejects), ?_,
      value, nodeAddress_eq lawful named, fun rest ends => ?_⟩
    · exact fun c member => isAscii_of_isNodeChar (chars c member)
    · exact readValue_bare chars (all_iff_forall_prop.mp (by decide)) (node_ne_nil lawful named) ends
  | @quoted node named escapes =>
    have chars := node_chars lawful named
    refine ⟨whole_quoted (closesText_escapeSome chars escapes), ?_, node,
      nodeAddress_eq lawful named, fun rest _ => ?_⟩
    · exact forall_mem_cons.mpr ⟨by decide, forall_mem_append.mpr
        ⟨escapeSome_ascii chars escapes, forall_mem_singleton.mpr (by decide)⟩⟩
    · exact readValue_quoted (quotedString_escapeSome chars escapes rest)

theorem exists_texts {parts : List Bytes} (others : ∀ part ∈ parts, OtherPart part) :
    ∃ texts : List Str, (∀ text ∈ texts, OtherText text) ∧
      ReadsAs (parts.flatMap (· ++ [59])) (texts.flatMap (· ++ [';'])) ∧
      ReadsAs (parts.flatMap (59 :: ·)) (texts.flatMap (';' :: ·)) := by
  have semicolon : ReadsAs [59] [';'] := readsAs_byte (by decide)
  induction parts with
  | nil => exact ⟨[], by simp, readsAs_nil, readsAs_nil⟩
  | cons part parts ih =>
    obtain ⟨part, rest⟩ := forall_mem_cons.mp others
    obtain ⟨texts, isOther, before, after⟩ := ih rest
    obtain ⟨text, reads, first⟩ := part.readsAs
    exact ⟨text :: texts, forall_mem_cons.mpr ⟨first, isOther⟩,
      (reads.append semicolon).append before, (semicolon.append reads).append after⟩

theorem whole_before {texts : List Str} (others : ∀ text ∈ texts, OtherText text) :
    Whole (texts.flatMap (· ++ [';'])) ∧ Whole (texts.flatMap (';' :: ·)) := by
  have semicolon : Whole [';'] := whole_char (by decide)
  induction texts with
  | nil => exact ⟨OtherText.empty.whole, OtherText.empty.whole⟩
  | cons text texts ih =>
    obtain ⟨first, rest⟩ := forall_mem_cons.mp others
    obtain ⟨before, after⟩ := ih rest
    exact ⟨(first.whole.append semicolon).append before,
      (semicolon.append first.whole).append after⟩

/-- An element is found whole, and its `for` names the address. -/
theorem Element.read (lawful : net.Lawful) {entry : Bytes} (element : Element net ip entry) :
    ∃ text, ReadsAs entry text ∧ Whole text ∧ addressOf net .rfc7239 text = some ip := by
  obtain ⟨before, after, name, value, others, isToken, isFor, names, written⟩ := element
  obtain ⟨whole, ascii, node, named, reads⟩ := names.read lawful
  obtain ⟨earlier, earlierOther, earlierReads, _⟩ :=
    exists_texts fun part member => others part (mem_append_left after member)
  obtain ⟨later, laterOther, _, laterReads⟩ :=
    exists_texts fun part member => others part (mem_append_right before member)
  have pair : ReadsAs (asciiBytes (name ++ '=' :: value)) (name ++ '=' :: value) :=
    readsAs_ascii (forall_mem_append.mpr
      ⟨fun c inside => isAscii_of_isTchar (isToken.2 c inside),
        forall_mem_cons.mpr ⟨by decide, ascii⟩⟩)
  refine ⟨_, written ▸ earlierReads.append (pair.append laterReads), ?_, ?_⟩
  · have named := (whole_of_test isToken.2 isTchar_rejects).append whole
    exact (whole_before earlierOther).1.append (named.append (whole_before laterOther).2)
  · have ends := partEnds_after later
    have isFor : eqIgnoreAsciiCase name "for".toList = true := isFor
    rw [addressOf, elementFor, elementForFrom_before earlierOther, append_assoc,
      cons_append, elementForFrom_pair isToken (reads _ ends) ends, if_pos isFor,
      if_neg (by simp), elementForFrom_after laterOther, Option.bind_some, named]

theorem AddressEntry.address (lawful : net.Lawful) {entry : Str}
    (names : AddressEntry net ip entry) : addressOf net .addressList entry = some ip := by
  cases names with
  | bare => simp [addressOf, listEntryAddress, lawful.parseIp_print]
  | withPort isPort =>
    simp [addressOf, listEntryAddress, lawful.parseIp_printSocket _ _ isPort,
      lawful.parseSocket_print _ _ isPort]

/-! ### Entries are found whole -/

theorem isNodeChar_not_whitespace {c : Char} (isNode : isNodeChar c = true) :
    isWhitespace c = false := by
  have small : c.toNat < 128 := isAscii_of_isNodeChar isNode
  have listed : ∀ n < 128, isWhitespace (Char.ofNat n) = true → isNodeChar (Char.ofNat n) = false := by
    decide
  have checked := listed c.toNat small
  rw [Char.ofNat_toNat, isNode] at checked
  by_contra white
  exact absurd (checked (Bool.eq_true_of_not_eq_false white)) (by decide)

theorem isWhitespace_of_isOws {c : Char} (ows : isOws c = true) : isWhitespace c = true := by
  simp only [isOws, Bool.or_eq_true, decide_eq_true_eq] at ows
  rcases ows with rfl | rfl
  · decide
  · decide

/-- Where an entry is found: last in its line, with white space around it. -/
def Found (form : ListForm) (text : Str) : Prop :=
  ∀ before after : Str, (∀ c ∈ before, isOws c = true) → (∀ c ∈ after, isOws c = true) →
    splitLast form (before ++ (text ++ after)) = (text, none) ∧
      ∀ ahead, splitLast form (ahead ++ ',' :: (before ++ (text ++ after))) = (text, some ahead)

theorem found_addressList {text : Str} (chars : ∀ c ∈ text, isNodeChar c = true) :
    Found .addressList text := by
  intro before after spaceBefore spaceAfter
  have trimmed : trimMatches isWhitespace (before ++ (text ++ after)) = text :=
    trimMatches_append (fun c member => isWhitespace_of_isOws (spaceBefore c member))
      (fun c member => isWhitespace_of_isOws (spaceAfter c member))
      (fun c starts => isNodeChar_not_whitespace (chars c (mem_of_mem_head? starts)))
      (fun c ends => isNodeChar_not_whitespace (chars c (mem_of_mem_getLast? ends)))
  have comma : ',' ∉ before ++ (text ++ after) := by
    simp only [mem_append, not_or]
    exact ⟨fun member => absurd (spaceBefore _ member) (by decide),
      fun member => absurd (chars _ member) (by decide),
      fun member => absurd (spaceAfter _ member) (by decide)⟩
  refine ⟨?_, fun ahead => ?_⟩
  · rw [splitLast, splitLastEntry, rsplitOnce_eq_none comma, trimmed]
  · rw [splitLast, splitLastEntry, rsplitOnce_append comma]
    simp only [trimmed]

theorem clear_ows {s : Str} (space : ∀ c ∈ s, isOws c = true) : Clear s :=
  clear_plain fun c member => ⟨ne_of_test (space c member) (by decide),
    ne_of_test (space c member) (by decide)⟩

theorem found_rfc7239 {text : Str} (whole : Whole text) : Found .rfc7239 text := by
  intro before after spaceBefore spaceAfter
  have trimmed : trimMatches isOws (before ++ (text ++ after)) = text :=
    trimMatches_append spaceBefore spaceAfter whole.starts whole.ends
  have clear : Clear (before ++ (text ++ after)) :=
    clear_append (clear_ows spaceBefore) (clear_append whole.clear (clear_ows spaceAfter))
  refine ⟨?_, fun ahead => ?_⟩
  · have none := clear [] []
    rw [append_nil] at none
    rw [splitLast, splitLastElement, none, lastComma, trimmed]
  · have rearrange : (ahead ++ ',' :: (before ++ (text ++ after))).reverse
        = (before ++ (text ++ after)).reverse ++ ',' :: ahead.reverse := by simp
    rw [splitLast, splitLastElement, rearrange, clear, append_nil, lastComma,
      if_neg (by decide), if_pos (by decide)]
    simp only [trimmed, reverse_reverse]

/-- An entry is found whole and names its address. -/
theorem Entry.read (lawful : net.Lawful) {form : ListForm} {entry : Bytes}
    (names : Entry net form ip entry) :
    ∃ text, ReadsAs entry text ∧ Found form text ∧ addressOf net form text = some ip := by
  cases form with
  | addressList =>
    obtain ⟨text, address, rfl⟩ := names
    have chars := addressEntry_chars lawful address
    exact ⟨text, readsAs_ascii fun c member => isAscii_of_isNodeChar (chars c member),
      found_addressList chars, address.address lawful⟩
  | rfc7239 =>
    obtain ⟨element⟩ := names
    obtain ⟨text, reads, whole, address⟩ := element.read lawful
    exact ⟨text, reads, found_rfc7239 whole, address⟩

end Named

end Wok.Ws
