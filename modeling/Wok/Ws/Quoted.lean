/-
**Quoted strings in `Forwarded` elements.**

A quoted string is read twice: from the left, by `quotedString`, and from the right, by `lastComma`,
which tells an escaped quote by the run of backslashes before it. The two agree on every quoted
string, whatever stands ahead of it.

* `closes` — the content of a quoted string: no quote but escaped ones, and no escape left open.
* `closes_lossy` — bytes that close also close as text.
* `quotedString_closes` — read from the left, the string ends at its closing quote.
* `clear_quoted` — **read from the right, the string is passed over whole.**
-/

import Wok.Ws.Forwarded

namespace Wok.Ws

open Wok.Library

/-! ### Content -/

section Content

variable {α : Type} [DecidableEq α]

/-- The content of a quoted string: `escaped` tells whether the last character was an open
escape. -/
def closes (quote escape : α) : (escaped : Bool) → List α → Bool
  | escaped, [] => !escaped
  | true, _ :: s => closes quote escape false s
  | false, c :: s => if c = quote then false else closes quote escape (c = escape) s

theorem closes_plain {quote escape : α} {escaped : Bool} {c : α} {s : List α} (plain : c ≠ quote)
    (other : c ≠ escape) : closes quote escape escaped (c :: s) = closes quote escape false s := by
  cases escaped with
  | true => rfl
  | false => rw [closes, if_neg plain, decide_eq_false other]

theorem closes_append {quote escape : α} {s t : List α} (plain : ∀ c ∈ s, c ≠ quote ∧ c ≠ escape) :
    closes quote escape false (s ++ t) = closes quote escape false t := by
  induction s with
  | nil => rfl
  | cons c s ih =>
    obtain ⟨first, second⟩ := plain c (.head _)
    rw [List.cons_append, closes_plain first second]
    exact ih fun other member => plain other (.tail c member)

end Content

/-- Content as text. -/
def closesText : Str → Bool := closes '"' '\\' false

/-- Content as bytes. -/
def closesBytes : Bytes → Bool := closes 34 92 false

theorem asciiChar_quote {b : Byte} : asciiChar b = '"' ↔ b = 34 := asciiChar_eq_iff (by decide)

theorem asciiChar_escape {b : Byte} : asciiChar b = '\\' ↔ b = 92 := asciiChar_eq_iff (by decide)

theorem closes_high {escaped : Bool} {s t : Bytes} {a : Byte} (first : ¬a < 128)
    (high : ∀ b ∈ s, ¬b < 128) :
    closes (34 : Byte) 92 escaped (a :: (s ++ t)) = closes 34 92 false t := by
  have ne : ∀ {b c : Byte}, ¬b < 128 → c < 128 → b ≠ c := by
    rintro b c large small rfl
    exact large small
  rw [closes_plain (ne first (by decide)) (ne first (by decide))]
  exact closes_append fun b member => ⟨ne (high b member) (by decide), ne (high b member) (by decide)⟩

/-- **Reading bytes as text keeps quoted strings.** -/
theorem closes_lossy (escaped : Bool) (s : Bytes) :
    closes '"' '\\' escaped (fromUtf8Lossy s) = closes 34 92 escaped s := by
  fun_induction fromUtf8Lossy s generalizing escaped with
  | case1 => rfl
  | case2 a rest ih =>
    by_cases small : a < 128
    · have read : readChar a rest = (asciiChar a, rest) := by rw [readChar, if_pos small]
      rw [read] at ih ⊢
      cases escaped with
      | true =>
        show closes '"' '\\' false (fromUtf8Lossy rest) = closes 34 92 false rest
        exact ih false
      | false =>
        simp only [closes, asciiChar_quote, asciiChar_escape]
        split_ifs
        · rfl
        · exact ih _
    · obtain ⟨consumed, split, high⟩ := readChar_consumes a rest
      rw [closes_plain (readChar_high small rest (by decide) (by decide))
        (readChar_high small rest (by decide) (by decide)), ih]
      conv_rhs => rw [split]
      rw [closes_high small high]

/-! ### From the left -/

variable {content : Str}

theorem quotedString_plain {c : Char} (plain : c ≠ '"') (other : c ≠ '\\') (rest : Str) :
    quotedString (c :: rest)
      = (quotedString rest).map fun (value, after) => (c :: value, after) := by
  rw [quotedString] <;> simp [plain, other]

theorem quotedString_escape (c : Char) (rest : Str) :
    quotedString ('\\' :: c :: rest)
      = (quotedString rest).map fun (value, after) => (c :: value, after) := by
  rw [quotedString]

theorem quotedString_quote (rest : Str) : quotedString ('"' :: rest) = some ([], rest) := by
  rw [quotedString]

theorem quotedString_closes (closed : closesText content = true) (rest : Str) :
    ∃ value, quotedString (content ++ '"' :: rest) = some (value, rest) := by
  -- with the escape that opens it, an open content is read to the same end
  have both : (closes '"' '\\' false content = true →
        ∃ value, quotedString (content ++ '"' :: rest) = some (value, rest)) ∧
      (closes '"' '\\' true content = true →
        ∃ value, quotedString ('\\' :: (content ++ '"' :: rest)) = some (value, rest)) := by
    clear closed
    induction content with
    | nil =>
      refine ⟨fun _ => ⟨[], quotedString_quote rest⟩, fun opened => ?_⟩
      cases opened
    | cons c s ih =>
      refine ⟨fun closed => ?_, fun opened => ?_⟩
      · rw [closes] at closed
        split_ifs at closed with quote
        by_cases escape : c = '\\'
        · rw [decide_eq_true escape] at closed
          rw [escape]
          exact ih.2 closed
        · rw [decide_eq_false escape] at closed
          obtain ⟨value, read⟩ := ih.1 closed
          refine ⟨c :: value, ?_⟩
          rw [List.cons_append, quotedString_plain quote escape, read]
          rfl
      · obtain ⟨value, read⟩ := ih.1 opened
        refine ⟨c :: value, ?_⟩
        rw [List.cons_append, quotedString_escape, read]
        rfl
  exact both.1 closed

/-! ### From the right -/

variable {s : Str}

/-- Whether the character after `s` is escaped. -/
def escapedAfter (escaped : Bool) (s : Str) : Bool := s.foldl (fun e c => !e && c = '\\') escaped

/-- The run of backslashes that ends `s`. -/
def backslashRun (s : Str) : Nat := (s.reverse.takeWhile (· = '\\')).length

/-- An open escape is an odd run of backslashes. -/
theorem escapedAfter_iff (s : Str) :
    escapedAfter false s = true ↔ backslashRun s % 2 = 1 := by
  induction s using List.reverseRecOn with
  | nil => simp [escapedAfter, backslashRun]
  | append_singleton s c ih =>
    have last : escapedAfter false (s ++ [c]) = (!escapedAfter false s && c = '\\') := by
      simp [escapedAfter]
    rw [last]
    by_cases escape : c = '\\'
    · have run : backslashRun (s ++ [c]) = backslashRun s + 1 := by simp [backslashRun, escape]
      rw [run, decide_eq_true escape, Bool.and_true, Bool.not_eq_true', ← Bool.not_eq_true, ih]
      omega
    · have run : backslashRun (s ++ [c]) = 0 := by simp [backslashRun, escape]
      simp [run, escape]

theorem closes_quote {escaped : Bool} {t : Str}
    (closed : closes '"' '\\' escaped (s ++ '"' :: t) = true) : escapedAfter escaped s = true := by
  induction s generalizing escaped with
  | nil =>
    cases escaped with
    | true => rfl
    | false => cases closed
  | cons c s ih =>
    cases escaped with
    | true => exact ih closed
    | false =>
      rw [List.cons_append, closes] at closed
      split_ifs at closed
      have step : escapedAfter false (c :: s) = escapedAfter (decide (c = '\\')) s := rfl
      rw [step]
      exact ih closed

/-- Every quote inside is escaped. -/
def QuotesEscaped (s : Str) : Prop := ∀ before after, s = before ++ '"' :: after →
  backslashRun before % 2 = 1

theorem quotesEscaped_of_closes (closed : closesText content = true) : QuotesEscaped content := by
  intro before after split
  rw [split] at closed
  exact (escapedAfter_iff before).mp (closes_quote closed)

theorem lastComma_other {quoted : Bool} {c : Char} (plain : c ≠ '"')
    (inside : quoted = true ∨ c ≠ ',') (before after : Str) :
    lastComma quoted (c :: before) after = lastComma quoted before (c :: after) := by
  rw [lastComma, if_neg plain, if_neg]
  rintro ⟨comma, outside⟩
  rcases inside with yes | no
  · simp [yes] at outside
  · exact no comma

theorem lastComma_inside (escaped : QuotesEscaped content) (before after : Str) :
    lastComma true (content.reverse ++ '"' :: before) after
      = lastComma true ('"' :: before) (content ++ after) := by
  induction content using List.reverseRecOn generalizing after with
  | nil => rfl
  | append_singleton s c ih =>
    have earlier : QuotesEscaped s := by
      intro ahead rest split
      exact escaped ahead (rest ++ [c]) (by simp [split])
    have rearrange : (s ++ [c]).reverse ++ '"' :: before = c :: (s.reverse ++ '"' :: before) := by
      simp
    rw [rearrange, List.append_assoc, List.singleton_append, ← ih earlier]
    by_cases quote : c = '"'
    · have odd := escaped s [] (by rw [quote])
      have run : ((s.reverse ++ '"' :: before).takeWhile (· = '\\')).length = backslashRun s := by
        rw [backslashRun, List.takeWhile_append]
        split_ifs <;> simp_all
      rw [quote, lastComma, if_pos rfl, if_pos rfl]
      simp only [run, odd, decide_true]
    · exact lastComma_other quote (.inl rfl) _ _

/-- Text the scan from the right passes over, whatever is ahead of it. -/
def Clear (s : Str) : Prop := ∀ before after, lastComma false (s.reverse ++ before) after
  = lastComma false before (s ++ after)

theorem clear_append {t : Str} (first : Clear s) (second : Clear t) : Clear (s ++ t) := by
  intro before after
  rw [List.reverse_append, List.append_assoc, second, first, List.append_assoc]

theorem clear_plain (plain : ∀ c ∈ s, c ≠ '"' ∧ c ≠ ',') : Clear s := by
  induction s with
  | nil => exact fun before after => rfl
  | cons c s ih =>
    obtain ⟨quote, comma⟩ := plain c (.head _)
    have single : Clear [c] := fun before after => lastComma_other quote (.inr comma) before after
    exact clear_append single (ih fun other member => plain other (.tail c member))

/-- **A quoted value is passed over whole.** -/
theorem clear_quoted (closed : closesText content = true) :
    Clear ('=' :: '"' :: (content ++ ['"'])) := by
  intro before after
  have rearrange : ('=' :: '"' :: (content ++ ['"'])).reverse ++ before
      = '"' :: (content.reverse ++ '"' :: '=' :: before) := by simp
  have opening : lastComma true ('"' :: '=' :: before) (content ++ '"' :: after)
      = lastComma false before ('=' :: '"' :: (content ++ '"' :: after)) := by
    rw [lastComma, if_pos rfl, if_pos rfl]
    exact lastComma_other (by decide) (.inr (by decide)) _ _
  rw [rearrange, lastComma, if_pos rfl, if_neg (by decide),
    lastComma_inside (quotesEscaped_of_closes closed), opening]
  simp

end Wok.Ws
