/-
**Kinds and addresses.**

A replaceable event is named by its kind and author, an addressable one also by its first `d` tag.
An `a` tag spells such an address as `kind:pubkey:d`.

* `parseATag_spell` — the canonical spelling of an address parses to it.
* `parseATag_eq` — what a parse says about its input: only the kind may be spelled otherwise.
* `parseCanonicalATag_iff` — **`parseCanonicalATag` accepts exactly canonical spellings.**
* `Address.spell_inj` — an address has one canonical spelling.
-/

import Wok.Event.Json
import Wok.Library.Result

namespace Wok.Event

open Wok.Library

/-! ### Kinds -/

def isReplaceableKind (kind : Nat) : Bool :=
  kind = 0 || kind = 3 || (10000 ≤ kind && kind < 20000)

def isParamReplaceableKind (kind : Nat) : Bool := 30000 ≤ kind && kind < 40000

def isEphemeralKind (kind : Nat) : Bool := 20000 ≤ kind && kind < 30000

def deletionKind : Nat := 5

def vanishKind : Nat := 62

def giftWrapKinds : List Nat := [1059, 21059]

/-- A kind of which only the newest version of each address is kept. -/
def isVersioned (kind : Nat) : Bool := isReplaceableKind kind || isParamReplaceableKind kind

theorem not_both_kinds (kind : Nat) :
    ¬(isReplaceableKind kind = true ∧ isParamReplaceableKind kind = true) := by
  simp only [isReplaceableKind, isParamReplaceableKind, Bool.or_eq_true, Bool.and_eq_true,
    decide_eq_true_eq]
  omega

theorem not_isVersioned_deletion : isVersioned deletionKind = false := by decide

theorem not_isVersioned_giftWrap {kind : Nat} (wrap : kind ∈ giftWrapKinds) :
    isVersioned kind = false := by
  simp only [giftWrapKinds, List.mem_cons, List.not_mem_nil, or_false] at wrap
  rcases wrap with rfl | rfl
  · decide
  · decide

/-! ### Spelling -/

variable {s : Bytes}

structure Address where
  kind : Nat
  pubkey : Bytes
  d : Bytes
  deriving DecidableEq, Repr

/-- The canonical `a` tag of an address. -/
def Address.spell (a : Address) : Bytes := decimal a.kind ++ 58 :: (toHex a.pubkey ++ 58 :: a.d)

/-- The text before the first colon and the text after it. -/
def splitColon : Bytes → Option (Bytes × Bytes)
  | [] => none
  | b :: rest =>
    if b = 58 then some ([], rest) else (splitColon rest).map fun (s, t) => (b :: s, t)

theorem splitColon_append {t : Bytes} (plain : ∀ b ∈ s, b ≠ 58) :
    splitColon (s ++ 58 :: t) = some (s, t) := by
  induction s with
  | nil => rfl
  | cons b s ih =>
    rw [List.cons_append, splitColon, if_neg (plain b (.head _)),
      ih fun c member => plain c (.tail b member)]
    rfl

theorem splitColon_eq {first rest : Bytes} (split : splitColon s = some (first, rest)) :
    s = first ++ 58 :: rest := by
  induction s generalizing first rest with
  | nil => cases split
  | cons b s ih =>
    rw [splitColon] at split
    split_ifs at split with colon
    · cases split
      rw [colon]
      rfl
    · obtain ⟨⟨before, after⟩, inner, same⟩ := Option.map_eq_some_iff.mp split
      cases same
      rw [ih inner]
      rfl

/-- Decode the lowercase hex of an identifier (`from_lower_hex_exact`). -/
def fromLowerHexExact (s : Bytes) : Except EventError Bytes :=
  if !s.all isLowerHex then .error (.msg "hex must be lowercase ASCII")
  else
    match fromLowerHex s with
    | some bytes => .ok bytes
    | none => .error (.msg "hex must have an even length and no prefix")

/-- `parse_a_tag`: `kind:pubkey:d`. -/
def parseATag (input : Bytes) : Except EventError Address := do
  let (kindStr, rest) ← okOr (splitColon input) (.msg "parse error")
  let kind ← okOr (parseU64 kindStr) (.msg "parse error")
  ensure (kind ≤ 65535) (.msg "parse error")
  let (pubkeyStr, d) ← okOr (splitColon rest) (.msg "parse error")
  ensure (pubkeyStr.length = 64) (.msg "parse error")
  let pubkey ← fromLowerHexExact pubkeyStr
  return ⟨kind, pubkey, d⟩

/-- `parse_canonical_a_tag`: the kind has no leading zeros either. -/
def parseCanonicalATag (input : Bytes) : Except EventError Address := do
  let address ← parseATag input
  ensure (¬([48] <+: input ∧ ¬ ascii "0:" <+: input)) (.msg "a tag kind has leading zeros")
  return address

/-! ### Parsing undoes spelling -/

variable {a : Address}

theorem fromLowerHexExact_eq {bytes : Bytes} (read : fromLowerHexExact s = .ok bytes) :
    fromLowerHex s = some bytes := by
  unfold fromLowerHexExact at read
  split_ifs at read
  split at read
  · rename_i found
    rw [found, Except.ok.inj read]
  · cases read

theorem fromLowerHexExact_toHex (bytes : Bytes) : fromLowerHexExact (toHex bytes) = .ok bytes := by
  rw [fromLowerHexExact, toHex_isLowerHex, fromLowerHex_toHex]
  rfl

theorem parseU64_decimal {n : Nat} (small : n < 2 ^ 64) : parseU64 (decimal n) = some n := by
  have nonempty : (decimal n).isEmpty = false := by
    simpa using decimal_ne_nil n
  rw [parseU64, nonempty, decimal_isDigit, digitsValue_decimal]
  exact if_pos small

theorem parseU64_eq {n : Nat} (read : parseU64 s = some n) :
    s ≠ [] ∧ s.all isDigit = true ∧ digitsValue s = n := by
  unfold parseU64 at read
  split_ifs at read with bad small
  simp only [Bool.or_eq_true, List.isEmpty_iff, Bool.not_eq_true', not_or,
    Bool.not_eq_false] at bad
  exact ⟨bad.1, bad.2, Option.some.inj read⟩

theorem not_colon_of_digit (digits : s.all isDigit = true) : ∀ b ∈ s, b ≠ 58 := by
  rintro b member rfl
  exact absurd (List.all_eq_true.mp digits 58 member) (by decide)

theorem not_colon_of_hex (digits : s.all isLowerHex = true) : ∀ b ∈ s, b ≠ 58 := by
  rintro b member rfl
  exact absurd (List.all_eq_true.mp digits 58 member) (by decide)

/-- **The canonical spelling parses.** -/
theorem parseATag_spell (small : a.kind ≤ 65535) (length : a.pubkey.length = 32) :
    parseATag a.spell = .ok a := by
  have first : splitColon a.spell = some (decimal a.kind, toHex a.pubkey ++ 58 :: a.d) :=
    splitColon_append (not_colon_of_digit (decimal_isDigit a.kind))
  have second : splitColon (toHex a.pubkey ++ 58 :: a.d) = some (toHex a.pubkey, a.d) :=
    splitColon_append (not_colon_of_hex (toHex_isLowerHex a.pubkey))
  have size : (toHex a.pubkey).length = 64 := by rw [toHex_length, length]
  have number : parseU64 (decimal a.kind) = some a.kind := parseU64_decimal (by omega)
  simp [parseATag, first, second, size, number, small, fromLowerHexExact_toHex]

/-- What a parse says about its input: only the kind may be spelled otherwise. -/
theorem parseATag_eq {input : Bytes} (read : parseATag input = .ok a) :
    ∃ digits, parseU64 digits = some a.kind ∧ a.kind ≤ 65535 ∧ a.pubkey.length = 32 ∧
      input = digits ++ 58 :: (toHex a.pubkey ++ 58 :: a.d) := by
  simp only [parseATag, bind_eq_ok, okOr_eq_ok, ensure_eq_ok, pure_eq_ok] at read
  obtain ⟨⟨digits, rest⟩, first, kind, number, _, fits, ⟨hex, d⟩, second, _, size, pubkey,
    decoded, rfl⟩ := read
  have written := toHex_fromLowerHex (fromLowerHexExact_eq decoded)
  have length : pubkey.length = 32 := by
    have double := fromLowerHex_length (fromLowerHexExact_eq decoded)
    rw [size] at double
    omega
  refine ⟨digits, number, fits, length, ?_⟩
  rw [written, ← splitColon_eq second]
  exact splitColon_eq first

/-- **`parseCanonicalATag` accepts exactly the canonical spellings** of addresses with a kind of
sixteen bits and an author of 32 bytes. -/
theorem parseCanonicalATag_iff {input : Bytes} :
    parseCanonicalATag input = .ok a
      ↔ a.kind ≤ 65535 ∧ a.pubkey.length = 32 ∧ input = a.spell := by
  simp only [parseCanonicalATag, bind_eq_ok, ensure_eq_ok, pure_eq_ok]
  constructor
  · rintro ⟨_, read, _, noZeros, rfl⟩
    obtain ⟨digits, number, fits, length, rfl⟩ := parseATag_eq read
    obtain ⟨nonempty, all, value⟩ := parseU64_eq number
    have plain : digits = [48] ∨ digits.head? ≠ some 48 ∧ digits ≠ [] := by
      by_cases zero : digits.head? = some 48
      · left
        obtain ⟨rest, rfl⟩ := List.head?_eq_some_iff.mp zero
        cases rest with
        | nil => rfl
        | cons b rest =>
          refine absurd ⟨⟨_, rfl⟩, ?_⟩ noZeros
          rintro ⟨tail, same⟩
          have colon : (58 : Byte) = b := (List.cons.inj (List.cons.inj same).2).1
          exact not_colon_of_digit all b (by simp) colon.symm
      · exact .inr ⟨zero, nonempty⟩
    refine ⟨fits, length, ?_⟩
    rw [Address.spell, ← value, decimal_digitsValue all plain]
  · rintro ⟨small, length, rfl⟩
    refine ⟨a, parseATag_spell small length, (), ?_, rfl⟩
    rintro ⟨zero, other⟩
    by_cases kind : a.kind = 0
    · refine other ⟨toHex a.pubkey ++ 58 :: a.d, ?_⟩
      rw [Address.spell, kind]
      rfl
    · obtain ⟨c, rest, written, _, notZero⟩ := decimal_cons kind
      obtain ⟨tail, same⟩ := zero
      rw [Address.spell, written] at same
      exact notZero (List.cons.inj same).1.symm

/-- **An address has one canonical spelling.** -/
theorem Address.spell_inj {b : Address} (small : a.kind ≤ 65535) (length : a.pubkey.length = 32)
    (small' : b.kind ≤ 65535) (length' : b.pubkey.length = 32) (same : a.spell = b.spell) :
    a = b := by
  have read := parseATag_spell small length
  rw [same, parseATag_spell small' length'] at read
  exact (Except.ok.inj read).symm

end Wok.Event
