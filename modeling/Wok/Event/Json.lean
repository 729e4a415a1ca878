/-
**JSON: values, the two writers and the strict parser.**

Event JSON is parsed by `parseStrict`, which refuses duplicate keys, unpaired surrogates and deep
nesting, and is written back by `writeJson` with one of two escapings. The id of an event hashes
the text written with `Escaping.nip01`; its stored JSON is written with `Escaping.tao`.

A number outside the `i64` and `u64` ranges is a double. No modelled function computes with
doubles, so `Value.float` keeps the text the double is written as, and `Host.f64` stands for
reading a literal into it.
-/

import Wok.Event.Text
import Wok.Library.Sorted

namespace Wok.Event

open Wok.Library

/-! ### Errors and the host -/

/-- The bound an `EventError.limit` broke. -/
inductive EventLimit
  | eventSize
  | numTags
  | tagValSize
  | tooOld
  | tooNew
  | ephemeralTooOld
  deriving DecidableEq, Repr

/-- Why an event is refused. `quoting` is a message with a string of the input inside, as it was read:
the quotes and escapes that the parser prints around a duplicate key are left out. -/
inductive EventError
  | message (text : String)
  | restricted (text : String)
  | limit (limit : EventLimit) (text : String)
  | quoting (before : String) (value : Bytes) (after : String)
  deriving DecidableEq, Repr

def EventError.msg (text : String) : EventError := .message text

def EventError.text : EventError → Bytes
  | .message text => ascii text
  | .restricted text => ascii text
  | .limit _ text => ascii text
  | .quoting before value after => ascii before ++ (value ++ ascii after)

/-- What the program takes from other libraries: SHA-256, BIP-340 verification of a signature on
a hash by a public key, and the text `tao` writes for the double a number literal denotes (none
when it is infinite). -/
structure Host where
  sha256 : Bytes → Bytes
  sha256_length : ∀ s, (sha256 s).length = 32
  validPubkey : Bytes → Bool
  validSignature : Bytes → Bool
  verifySchnorr : Bytes → Bytes → Bytes → Bool
  f64 : Bytes → Option Bytes

attribute [simp] Host.sha256_length

/-! ### Values -/

/-- An integer a `u64` or an `i64` holds. -/
structure Integer where
  value : Int
  low : -2 ^ 63 ≤ value
  high : value < 2 ^ 64
  deriving DecidableEq

/-- The integer `i`, unless it fits neither `u64` nor `i64`. -/
def Integer.ofInt (i : Int) : Option Integer :=
  if range : -2 ^ 63 ≤ i ∧ i < 2 ^ 64 then some ⟨i, range.1, range.2⟩ else none

inductive Value
  | null
  | bool (b : Bool)
  | int (i : Integer)
  | float (text : Bytes)
  | string (s : Text)
  | array (items : List Value)
  | object (fields : List (Text × Value))

namespace Value

variable {v : Value}

/-- The field of an object under a key, given as bytes. -/
def fieldAt (v : Value) (key : Bytes) : Option Value :=
  match v with
  | .object fields => (fields.find? fun field => field.1.bytes = key).map Prod.snd
  | _ => none

/-- `Value::get`: the field of an object with this key. -/
def get (v : Value) (key : String) : Option Value := v.fieldAt (ascii key)

def isObject : Value → Bool
  | .object _ => true
  | _ => false

def asStr : Value → Option Text
  | .string s => some s
  | _ => none

def asArray : Value → Option (List Value)
  | .array items => some items
  | _ => none

/-- `Value::as_u64`. -/
def asU64 : Value → Option Nat
  | .int i => if 0 ≤ i.value then some i.value.toNat else none
  | _ => none

theorem asStr_eq {s : Text} (is : v.asStr = some s) : v = .string s := by
  cases v <;> simp_all [asStr]

theorem asArray_eq {items : List Value} (is : v.asArray = some items) : v = .array items := by
  cases v <;> simp_all [asArray]

theorem asU64_lt {n : Nat} (is : v.asU64 = some n) : n < 2 ^ 64 := by
  cases v with
  | int i =>
    simp only [asU64, Option.ite_none_right_eq_some, Option.some.injEq] at is
    have high := i.high
    omega
  | _ => simp [asU64] at is

end Value

/-! ### Writing -/

/-- Which escaping a writer uses. -/
inductive Escaping
  | tao
  | nip01
  deriving DecidableEq, Repr

/-- One byte of a written string. -/
def escapeByte (escaping : Escaping) (b : Byte) : Bytes :=
  if b = 34 then [92, 34]
  else if b = 92 then [92, 92]
  else if b = 8 then [92, 98]
  else if b = 12 then [92, 102]
  else if b = 10 then [92, 110]
  else if b = 13 then [92, 114]
  else if b = 9 then [92, 116]
  else if b < 32 ∨ b = 127 ∧ escaping = .tao then
    [92, 117, 48, 48, hexDigit (b.val / 16), hexDigit (b.val % 16)]
  else [b]

def writeString (escaping : Escaping) (s : Text) : Bytes :=
  34 :: s.bytes.flatMap (escapeByte escaping) ++ [34]

def writeInt (i : Int) : Bytes :=
  if i < 0 then 45 :: decimal i.natAbs else decimal i.natAbs

def commaSep : List Bytes → Bytes
  | [] => []
  | [item] => item
  | item :: next :: items => item ++ 44 :: commaSep (next :: items)

/-- The fields of an object, each written, in key order. -/
def sortFields (fields : List (Text × Bytes)) : List (Text × Bytes) :=
  fields.insertionSort fun a b => a.1.bytes ≤ b.1.bytes

mutual

def writeJson (escaping : Escaping) : Value → Bytes
  | .null => ascii "null"
  | .bool b => ascii (if b then "true" else "false")
  | .int i => writeInt i.value
  | .float text => text
  | .string s => writeString escaping s
  | .array items => 91 :: commaSep (writeItems escaping items) ++ [93]
  | .object fields =>
    123 :: commaSep ((sortFields (writeFields escaping fields)).map fun field =>
      writeString escaping field.1 ++ 58 :: field.2) ++ [125]

def writeItems (escaping : Escaping) : List Value → List Bytes
  | [] => []
  | item :: items => writeJson escaping item :: writeItems escaping items

def writeFields (escaping : Escaping) : List (Text × Value) → List (Text × Bytes)
  | [] => []
  | (key, value) :: fields => (key, writeJson escaping value) :: writeFields escaping fields

end

/-! ### Parsing -/

/-- A position in the text and what follows it. -/
structure Parser where
  pos : Nat
  rest : Bytes

namespace Parser

def err (p : Parser) (msg : String) : EventError := .msg (msg ++ " at byte " ++ toString p.pos)

def peek (p : Parser) : Option Byte := p.rest.head?

def bump (p : Parser) : Option Byte × Parser :=
  match p.rest with
  | [] => (none, p)
  | c :: rest => (some c, ⟨p.pos + 1, rest⟩)

/-- `n` bytes further. -/
def advance (p : Parser) (n : Nat) : Parser := ⟨p.pos + n, p.rest.drop n⟩

def isSpace (c : Byte) : Bool := c = 32 || c = 9 || c = 10 || c = 13

def skipWs (p : Parser) : Parser := p.advance (p.rest.takeWhile isSpace).length

def consumeDigits (p : Parser) : Parser := p.advance (p.rest.takeWhile isDigit).length

def expect (p : Parser) (s : String) : Except EventError Parser :=
  if (ascii s).isPrefixOf p.rest then .ok (p.advance (ascii s).length)
  else .error (p.err ("expected " ++ s))

/-- The value of a hex digit, of either case. -/
def hexDigitValue (c : Byte) : Option Nat :=
  if isLowerHex c then some (hexValue c)
  else if 65 ≤ c ∧ c ≤ 70 then some (c.val - 55)
  else none

/-- The next `count` hex digits, after digits of value `v`. -/
def hexDigits : Nat → Nat → Parser → Except EventError (Nat × Parser)
  | 0, v, p => .ok (v, p)
  | count + 1, v, p =>
    match p.bump with
    | (none, p) => .error (p.err "truncated \\u escape")
    | (some c, p) =>
      match hexDigitValue c with
      | some d => hexDigits count (v * 16 + d) p
      | none => .error (p.err "invalid hex digit in \\u escape")

def parseHex4 (p : Parser) : Except EventError (Nat × Parser) :=
  if p.rest.length < 4 then .error (p.err "truncated \\u escape") else hexDigits 4 0 p

/-- A code point in UTF-8. -/
def utf8Encode (cp : Nat) : Bytes :=
  if cp < 0x80 then [Fin.ofNat 256 cp]
  else if cp < 0x800 then [Fin.ofNat 256 (0xC0 + cp / 64), Fin.ofNat 256 (0x80 + cp % 64)]
  else if cp < 0x10000 then
    [Fin.ofNat 256 (0xE0 + cp / 4096), Fin.ofNat 256 (0x80 + cp / 64 % 64),
      Fin.ofNat 256 (0x80 + cp % 64)]
  else
    [Fin.ofNat 256 (0xF0 + cp / 262144), Fin.ofNat 256 (0x80 + cp / 4096 % 64),
      Fin.ofNat 256 (0x80 + cp / 64 % 64), Fin.ofNat 256 (0x80 + cp % 64)]

/-- The character of a `\u` escape; a high surrogate must be followed by a low one. -/
def parseUnicode (p : Parser) : Except EventError (Bytes × Parser) := do
  let (hi, p) ← parseHex4 p
  if 0xD800 ≤ hi ∧ hi < 0xDC00 then
    let (slash, p) := p.bump
    if slash ≠ some 92 then throw (p.err "unpaired surrogate")
    let (u, p) := p.bump
    if u ≠ some 117 then throw (p.err "unpaired surrogate")
    let (lo, p) ← parseHex4 p
    if ¬(0xDC00 ≤ lo ∧ lo < 0xE000) then throw (p.err "unpaired surrogate")
    return (utf8Encode (0x10000 + (hi - 0xD800) * 1024 + (lo - 0xDC00)), p)
  if 0xDC00 ≤ hi ∧ hi < 0xE000 then throw (p.err "unpaired surrogate")
  return (utf8Encode hi, p)

/-- What a backslash stands for. -/
def parseEscape (p : Parser) : Except EventError (Bytes × Parser) :=
  match p.bump with
  | (none, p) => .error (p.err "unterminated escape")
  | (some e, p) =>
    if e = 34 then .ok ([34], p)
    else if e = 92 then .ok ([92], p)
    else if e = 47 then .ok ([47], p)
    else if e = 98 then .ok ([8], p)
    else if e = 102 then .ok ([12], p)
    else if e = 110 then .ok ([10], p)
    else if e = 114 then .ok ([13], p)
    else if e = 116 then .ok ([9], p)
    else if e = 117 then parseUnicode p
    else .error (p.err "invalid escape")

def utf8Len (first : Byte) : Nat :=
  if first < 0x80 then 1 else if first < 0xE0 then 2 else if first < 0xF0 then 3 else 4

/-- The string after its opening quote, appended to `out`. -/
def parseStringFrom : Nat → Bytes → Parser → Except EventError (Bytes × Parser)
  | 0, _, p => .error (p.err "unterminated string")
  | fuel + 1, out, p =>
    match p.bump with
    | (none, p) => .error (p.err "unterminated string")
    | (some c, p) =>
      if c = 34 then .ok (out, p)
      else if c = 92 then
        match parseEscape p with
        | .error e => .error e
        | .ok (escaped, p) => parseStringFrom fuel (out ++ escaped) p
      else if c < 32 then .error (p.err "unescaped control character in string")
      else if utf8Len c ≤ 1 then parseStringFrom fuel (out ++ [c]) p
      else if p.rest.length < utf8Len c - 1 then .error (p.err "truncated UTF-8")
      else if utf8Valid (c :: p.rest.take (utf8Len c - 1)) then
        parseStringFrom fuel (out ++ c :: p.rest.take (utf8Len c - 1)) (p.advance (utf8Len c - 1))
      else .error (p.err "invalid UTF-8")

/-- A string literal. What a valid text spells is UTF-8; the type asks for the check. -/
def parseString (p : Parser) : Except EventError (Text × Parser) :=
  match parseStringFrom (p.rest.length + 1) [] (p.advance 1) with
  | .error e => .error e
  | .ok (out, p) =>
    if valid : utf8Valid out = true then .ok (⟨out, valid⟩, p) else .error (p.err "invalid UTF-8")

def integerPart (p : Parser) : Except EventError Parser :=
  match p.peek with
  | none => .error (p.err "invalid number")
  | some c =>
    if c = 48 then .ok (p.advance 1)
    else if isDigit c then .ok p.consumeDigits
    else .error (p.err "invalid number")

/-- At least one digit, after a point or an exponent. -/
def someDigits (p : Parser) : Except EventError Parser :=
  match p.peek with
  | none => .error (p.err "invalid number")
  | some c => if isDigit c then .ok p.consumeDigits else .error (p.err "invalid number")

/-- A fraction, if one follows, and whether it does. -/
def fractionPart (p : Parser) : Except EventError (Bool × Parser) :=
  if p.peek = some 46 then (someDigits (p.advance 1)).map fun p => (true, p) else .ok (false, p)

/-- An exponent, if one follows, and whether it does. -/
def exponentPart (p : Parser) : Except EventError (Bool × Parser) :=
  if p.peek = some 101 ∨ p.peek = some 69 then
    let p := p.advance 1
    let p := if p.peek = some 43 ∨ p.peek = some 45 then p.advance 1 else p
    (someDigits p).map fun p => (true, p)
  else .ok (false, p)

/-- The integer a literal without fraction or exponent denotes, if `u64` or `i64` holds it. -/
def literalInteger (text : Bytes) : Option Integer :=
  if text.head? = some 45 then Integer.ofInt (-(digitsValue text.tail : Int))
  else Integer.ofInt (digitsValue text)

def parseNumber (host : Host) (start : Parser) : Except EventError (Value × Parser) := do
  let p ← integerPart (if start.peek = some 45 then start.advance 1 else start)
  let (fraction, p) ← fractionPart p
  let (exponent, p) ← exponentPart p
  let text := start.rest.take (p.pos - start.pos)
  match if fraction || exponent then none else literalInteger text with
  | some i => return (.int i, p)
  | none =>
    match host.f64 text with
    | some double => return (.float double, p)
    | none => throw (p.err "number out of range")

mutual

/-- A value inside `depth` arrays and objects. `fuel` bounds the calls. -/
def parseValue (host : Host) : Nat → Nat → Parser → Except EventError (Value × Parser)
  | 0, _, p => .error (p.err "nesting too deep")
  | fuel + 1, depth, p =>
    if 128 < depth then .error (p.err "nesting too deep")
    else
      match p.peek with
      | none => .error (p.err "unexpected end of input")
      | some c =>
        if c = 123 then
          let p := (p.advance 1).skipWs
          if p.peek = some 125 then .ok (.object [], p.advance 1)
          else parseFields host fuel depth [] p
        else if c = 91 then
          let p := (p.advance 1).skipWs
          if p.peek = some 93 then .ok (.array [], p.advance 1)
          else parseItems host fuel depth [] p
        else if c = 34 then p.parseString.map fun (s, p) => (.string s, p)
        else if c = 116 then (p.expect "true").map fun p => (.bool true, p)
        else if c = 102 then (p.expect "false").map fun p => (.bool false, p)
        else if c = 110 then (p.expect "null").map fun p => (.null, p)
        else if c = 45 ∨ isDigit c then p.parseNumber host
        else .error (p.err "unexpected character")

/-- The items of an array, after `items`. -/
def parseItems (host : Host) :
    Nat → Nat → List Value → Parser → Except EventError (Value × Parser)
  | 0, _, _, p => .error (p.err "nesting too deep")
  | fuel + 1, depth, items, p => do
    let (item, p) ← parseValue host fuel (depth + 1) p.skipWs
    let (c, p) := p.skipWs.bump
    if c = some 44 then parseItems host fuel depth (items ++ [item]) p
    else if c = some 93 then return (.array (items ++ [item]), p)
    else throw (p.err "expected ',' or ']'")

/-- The fields of an object, put into `fields`. -/
def parseFields (host : Host) :
    Nat → Nat → List (Text × Value) → Parser → Except EventError (Value × Parser)
  | 0, _, _, p => .error (p.err "nesting too deep")
  | fuel + 1, depth, fields, p => do
    let p := p.skipWs
    if p.peek ≠ some 34 then throw (p.err "expected object key string")
    let (key, p) ← p.parseString
    if fields.any fun field => field.1 = key then
      throw (.quoting "duplicate JSON object key " key.bytes (" at byte " ++ toString p.pos))
    let (colon, p) := p.skipWs.bump
    if colon ≠ some 58 then throw (p.err "expected ':'")
    let (value, p) ← parseValue host fuel (depth + 1) p.skipWs
    let fields := insertBy (fun field => field.1.bytes) (key, value) fields
    let (c, p) := p.skipWs.bump
    if c = some 44 then parseFields host fuel depth fields p
    else if c = some 125 then return (.object fields, p)
    else throw (p.err "expected ',' or '\x7d'")

end

end Parser

/-- `parse_strict`: one JSON value with only whitespace around it. -/
def parseStrict (host : Host) (text : Bytes) : Except EventError Value := do
  let (v, p) ← Parser.parseValue host (2 * text.length + 2) 0 (Parser.mk 0 text).skipWs
  let p := p.skipWs
  if p.rest ≠ [] then throw (p.err "unexpected trailing characters")
  return v

/-! ### A host for runs on fixed inputs -/

def zeroHost : Host where
  sha256 _ := List.replicate 32 0
  sha256_length _ := rfl
  validPubkey _ := true
  validSignature _ := true
  verifySchnorr _ _ _ := true
  f64 _ := none

end Wok.Event
