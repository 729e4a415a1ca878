/-
**The client address a reverse proxy passes on.**

The lines of `relay.real_ip_header` form one comma-separated list, read from its end: an address
list such as `X-Forwarded-For`, or `Forwarded` elements, by the name of the header. Every proxy
appends the address it was reached from, so the client is the first address from the end that is
not a trusted proxy's.

* `client` — the address the header names on a connection from `peer`.
* `splitLastElement` — the last element of a `Forwarded` line, found from the right.
* `elementFor`, `nodeAddress` — the `for` value of an element and the address in it.
* `AddressText` — the address texts of the standard library, with what is assumed of them.
-/

import Wok.Library.Split
import Wok.Ws.IpRange
import Wok.Ws.Lossy

namespace Wok.Ws

open Wok.Library

/-! ### Addresses as text -/

/-- A character of an IPv4 address. -/
def IsV4Char (c : Char) : Prop := c.isDigit = true ∨ c = '.'

/-- A character of an IPv6 address. -/
def IsV6Char (c : Char) : Prop :=
  c.isDigit = true ∨ c ∈ ['a', 'b', 'c', 'd', 'e', 'f', ':', '.']

/-- What `std::net` prints and parses. -/
structure AddressText where
  printV4 : BitVec 32 → Str
  printV6 : BitVec 128 → Str
  parseV4 : Str → Option (BitVec 32)
  parseV6 : Str → Option (BitVec 128)
  parseIp : Str → Option IpAddr
  /-- The address of a socket address. -/
  parseSocket : Str → Option IpAddr

namespace AddressText

variable (net : AddressText)

def print : IpAddr → Str
  | .v4 bits => net.printV4 bits
  | .v6 bits => net.printV6 bits

/-- An address with a port: an IPv6 address is in brackets. -/
def printSocket (port : Str) : IpAddr → Str
  | .v4 bits => net.printV4 bits ++ ':' :: port
  | .v6 bits => '[' :: net.printV6 bits ++ ']' :: ':' :: port

/-- A port: the decimal digits of a number below `2 ^ 16`. -/
def IsPort (port : Str) : Prop := ∃ n < 2 ^ 16, port = Nat.toDigits 10 n

/-- **Printing and then parsing an address gives it back**, and an address is printed in its own
characters. -/
structure Lawful : Prop where
  parseV4_print : ∀ bits, net.parseV4 (net.printV4 bits) = some bits
  parseV6_print : ∀ bits, net.parseV6 (net.printV6 bits) = some bits
  parseIp_print : ∀ ip, net.parseIp (net.print ip) = some ip
  parseSocket_print : ∀ port ip, IsPort port →
    net.parseSocket (net.printSocket port ip) = some ip
  parseIp_printSocket : ∀ port ip, IsPort port → net.parseIp (net.printSocket port ip) = none
  printV4_chars : ∀ bits, ∀ c ∈ net.printV4 bits, IsV4Char c
  printV6_chars : ∀ bits, ∀ c ∈ net.printV6 bits, IsV6Char c
  print_ne : ∀ ip, net.print ip ≠ []

end AddressText

/-! ### Address lists -/

/-- Unicode `White_Space`. -/
def isWhitespace (c : Char) : Bool :=
  let n := c.toNat
  (9 ≤ n && n ≤ 13) || n = 0x20 || n = 0x85 || n = 0xa0 || n = 0x1680
    || (0x2000 ≤ n && n ≤ 0x200a) || n = 0x2028 || n = 0x2029 || n = 0x202f || n = 0x205f
    || n = 0x3000

/-- The last entry of an address list and the text ahead of it. -/
def splitLastEntry (line : Str) : Str × Option Str :=
  match rsplitOnce ',' line with
  | some (ahead, entry) => (trimMatches isWhitespace entry, some ahead)
  | none => (trimMatches isWhitespace line, none)

/-- The address of an entry, with or without a port. -/
def listEntryAddress (net : AddressText) (entry : Str) : Option IpAddr :=
  net.parseIp entry <|> net.parseSocket entry

/-! ### `Forwarded` elements -/

variable {after text value : Str}

/-- Optional white space. -/
def isOws (c : Char) : Bool := c = ' ' || c = '\t'

/-- A character of a token. -/
def isTchar (c : Char) : Bool := c.isAlphanum || "!#$%&'*+-.^_`|~".toList.contains c

/-- The loop of `split_last_element`, which goes from the right: `before` is the text not yet seen,
nearest character first, and `after` the text already seen. -/
def lastComma (quoted : Bool) : (before : Str) → (after : Str) → Option (Str × Str)
  | [], _ => none
  | c :: before, after =>
    if c = '"' then
      if quoted then
        let backslashes := before.takeWhile (· = '\\')
        lastComma (backslashes.length % 2 = 1) before (c :: after)
      else lastComma true before (c :: after)
    else if c = ',' ∧ !quoted then some (after, before.reverse)
    else lastComma quoted before (c :: after)

/-- The last element of a line, after its last comma outside a quoted string, and the text ahead of
it. -/
def splitLastElement (line : Str) : Str × Option Str :=
  match lastComma false line.reverse [] with
  | some (element, ahead) => (trimMatches isOws element, some ahead)
  | none => (trimMatches isOws line, none)

/-- The quoted string whose opening quote `text` follows, unescaped, and the text after its closing
quote. -/
def quotedString : (text : Str) → Option (Str × Str)
  | [] => none
  | '"' :: after => some ([], after)
  | ['\\'] => none
  | '\\' :: escaped :: rest => (quotedString rest).map fun (value, after) => (escaped :: value, after)
  | c :: rest => (quotedString rest).map fun (value, after) => (c :: value, after)

/-- `str::eq_ignore_ascii_case`. -/
def eqIgnoreAsciiCase (s t : Str) : Bool := s.map Char.toLower = t.map Char.toLower

/-- A value and the text after it. -/
def readValue (text : Str) : Option (Str × Str) :=
  match text with
  | '"' :: quoted => quotedString quoted
  | text => some ((text.takeWhile (· ≠ ';')).rdropWhile isOws, text.dropWhile (· ≠ ';'))

/-- The name and the value of the pair that `text` starts with, and the text after it. -/
def readPair (text : Str) : Option (Str × Str × Str) := do
  let (name, after) ← splitOnce '=' text
  if name = [] ∨ ¬name.all isTchar then none
  else
    let (value, after) ← readValue after
    let rest := after.dropWhile isOws
    if rest = [] ∨ rest.head? = some ';' then some (name, value, rest) else none

theorem quotedString_length (read : quotedString text = some (value, after)) :
    after.length < text.length := by
  fun_induction quotedString text generalizing value with
  | case1 | case3 => cases read
  | case2 after => simp_all
  | case4 _ _ ih | case5 _ _ _ _ _ ih =>
    obtain ⟨⟨tail, found⟩, more, same⟩ := Option.map_eq_some_iff.mp read
    cases same
    exact (ih more).trans (by simp)

theorem readValue_length (read : readValue text = some (value, after)) :
    after.length ≤ text.length := by
  unfold readValue at read
  split at read
  · exact (quotedString_length read).le.trans (Nat.le_succ _)
  · cases read
    exact (List.dropWhile_suffix _).length_le

theorem readPair_length {name rest : Str} (read : readPair text = some (name, value, rest)) :
    rest.length < text.length := by
  simp only [readPair, Option.bind_eq_bind, Option.bind_eq_some_iff, Prod.exists] at read
  obtain ⟨before, after, split, read⟩ := read
  split_ifs at read
  obtain ⟨⟨found, tail⟩, value, read⟩ := Option.bind_eq_some_iff.mp read
  simp only [Option.ite_none_right_eq_some, Option.some.injEq, Prod.mk.injEq] at read
  obtain ⟨_, _, _, rfl⟩ := read
  calc (tail.dropWhile isOws).length ≤ tail.length := (List.dropWhile_suffix _).length_le
    _ ≤ after.length := readValue_length value
    _ < text.length := splitOnce_length split

/-- The `for` value of an element, given the one `found` so far. -/
def elementForFrom (found : Option Str) (text : Str) : Option Str :=
  match _start : text.dropWhile isOws with
  | [] => found
  | ';' :: after => elementForFrom found after
  | c :: tail =>
    match _pair : readPair (c :: tail) with
    | none => none
    | some (name, value, rest) =>
      if eqIgnoreAsciiCase name "for".toList then
        if found.isSome then none else elementForFrom (some value) rest
      else elementForFrom found rest
termination_by text.length
decreasing_by
  · have shorter := (List.dropWhile_suffix isOws (l := text)).length_le
    rw [_start] at shorter
    exact shorter
  · have shorter := (List.dropWhile_suffix isOws (l := text)).length_le
    rw [_start] at shorter
    exact (readPair_length _pair).trans_le shorter
  · have shorter := (List.dropWhile_suffix isOws (l := text)).length_le
    rw [_start] at shorter
    exact (readPair_length _pair).trans_le shorter

/-- The `for` value of an element: nothing when a pair is malformed, or when the element has no
`for` or more than one. -/
def elementFor (element : Str) : Option Str := elementForFrom none element

/-- One to five digits, or `_` and an obfuscated name. -/
def isNodePort (port : Str) : Bool :=
  let digits := 1 ≤ port.length && port.length ≤ 5 && port.all Char.isDigit
  let obfuscated :=
    match port with
    | '_' :: name => name ≠ [] && name.all fun c => c.isAlphanum || ['.', '_', '-'].contains c
    | _ => false
  digits || obfuscated

/-- The address when `port` is empty or names a port. -/
def withNodePort (ip : IpAddr) (port : Str) : Option IpAddr :=
  match port with
  | [] => some ip
  | ':' :: port => if isNodePort port then some ip else none
  | _ => none

/-- The address of a node: an IPv4 address, or an IPv6 address in brackets, with an optional
port. -/
def nodeAddress (net : AddressText) (node : Str) : Option IpAddr :=
  match node with
  | '[' :: bracketed => do
    let (ip, port) ← splitOnce ']' bracketed
    let bits ← net.parseV6 ip
    withNodePort (.v6 bits) port
  | node => do
    let bits ← net.parseV4 (node.takeWhile (· ≠ ':'))
    withNodePort (.v4 bits) (node.dropWhile (· ≠ ':'))

/-! ### The client -/

/-- The client a request's header names. -/
inductive Forwarded
  | absent
  | untrusted
  | client (ip : IpAddr)
  | unparsed (entry : Str)
  deriving DecidableEq

/-- How a header's list is written. -/
inductive ListForm
  | addressList
  | rfc7239
  deriving DecidableEq

/-- `Forwarded` is told by its name, in any case. -/
def formOf (name : Str) : ListForm :=
  if eqIgnoreAsciiCase name "forwarded".toList then .rfc7239 else .addressList

def splitLast : ListForm → Str → Str × Option Str
  | .rfc7239, text => splitLastElement text
  | .addressList, text => splitLastEntry text

def addressOf (net : AddressText) : ListForm → Str → Option IpAddr
  | .rfc7239, entry => (elementFor entry).bind (nodeAddress net)
  | .addressList, entry => listEntryAddress net entry

theorem lastComma_length {quoted : Bool} {before entry ahead : Str}
    (found : lastComma quoted before after = some (entry, ahead)) :
    ahead.length < before.length := by
  fun_induction lastComma quoted before after with
  | case1 => cases found
  | case2 _ _ _ ih | case3 _ _ _ _ ih | case5 _ _ _ _ _ _ ih =>
    exact (ih found).trans (Nat.lt_succ_self _)
  | case4 quoted c before after _ _ =>
    cases found
    simp

theorem splitLast_length {form : ListForm} {entry ahead : Str}
    (split : splitLast form text = (entry, some ahead)) : ahead.length < text.length := by
  cases form with
  | addressList =>
    rw [splitLast, splitLastEntry] at split
    cases found : rsplitOnce ',' text with
    | none =>
      rw [found] at split
      cases split
    | some parts =>
      rw [found] at split
      cases split
      exact rsplitOnce_length found
  | rfc7239 =>
    rw [splitLast, splitLastElement] at split
    cases found : lastComma false text.reverse [] with
    | none =>
      rw [found] at split
      cases split
    | some parts =>
      rw [found] at split
      cases split
      simpa using lastComma_length found

/-- The loop over the entries of one line, from its end: `.error` is the answer, `.ok` the client so
far, when every address was a proxy's. -/
def readLine (net : AddressText) (form : ListForm) (isTrusted : IpAddr → Bool) (text : Str) :
    Except Forwarded Forwarded :=
  match _split : splitLast form text with
  | (entry, ahead) =>
    match addressOf net form entry with
    | none => .error (.unparsed entry)
    | some ip =>
      if !isTrusted ip then .error (.client ip)
      else
        match ahead with
        | none => .ok (.client ip)
        | some ahead => readLine net form isTrusted ahead
termination_by text.length
decreasing_by exact splitLast_length _split

/-- The loop over the lines, from the last: `first` is the client so far. -/
def readLines (net : AddressText) (form : ListForm) (isTrusted : IpAddr → Bool)
    (first : Forwarded) (lines : List Bytes) : Except Forwarded Forwarded :=
  lines.reverse.foldlM
    (fun _ line => readLine net form isTrusted (fromUtf8Lossy line)) first

/-- Whether an address is one of the trusted proxies'. -/
def isTrusted (trusted : List IpRange) (ip : IpAddr) : Bool :=
  trusted.any fun range => range.contains ip

/-- The client that the lines of the header `name` name on a connection from `peer`. -/
def client (net : AddressText) (lines : List Bytes) (name : Str) (peer : IpAddr)
    (trusted : List IpRange) : Forwarded :=
  if trusted ≠ [] ∧ !isTrusted trusted peer then .untrusted
  else
    match readLines net (formOf name) (isTrusted trusted) .absent lines with
    | .ok first => first
    | .error answer => answer

end Wok.Ws
