/-
**The strict parser accepts the grammar.**

On a text whose numbers are integers of the `i64` or `u64` range, `parseStrict` accepts exactly the
texts of the grammar whose keys are distinct, whose surrogates are paired and which are at most 128
deep, and returns the value of the tree.

* `parseStrict_sound`, `parseStrict_complete` — the two directions.
* `parseStrict_accepts` — **the parser is the grammar.**
* `integers_of_short` — a short text without points and exponents has only such integers.
-/

import Wok.Event.StrictComplete

namespace Wok.Event

open Wok.Library

variable {host : Host} {node : Node}

/-! ### Whole texts -/

variable {text : Bytes}

theorem parseStrict_eq_ok {v : Value} : parseStrict host text = .ok v ↔
    ∃ q, Parser.parseValue host (2 * text.length + 2) 0 (Parser.mk 0 text).skipWs = .ok (v, q) ∧
      q.skipWs.rest = [] := by
  unfold parseStrict
  rw [bind_eq_ok]
  constructor
  · rintro ⟨⟨w, q⟩, read, rest⟩
    by_cases whole : q.skipWs.rest = []
    · simp only [whole, ne_eq, not_true_eq_false, if_false] at rest
      cases rest
      exact ⟨q, read, whole⟩
    · simp only [ne_eq, if_pos whole] at rest
      cases rest
  · rintro ⟨q, read, whole⟩
    refine ⟨(v, q), read, ?_⟩
    simp only [whole, ne_eq, not_true_eq_false, if_false]
    rfl

/-- **An accepted text was spelled**, and its value is that of its tree. -/
theorem parseStrict_sound {v : Value} (read : parseStrict host text = .ok v) :
    ∃ node, Spells node text ∧ node.DistinctKeys ∧ node.Paired ∧ node.height ≤ 128 ∧
      (node.Integers → v = node.value) := by
  obtain ⟨q, read, whole⟩ := parseStrict_eq_ok.mp read
  obtain ⟨node, reads⟩ := (Parser.parse_sound host _).1 _ _ _ _ read
  obtain ⟨a, space, went⟩ := Parser.consumes_skipWs (Parser.mk 0 text)
  obtain ⟨s, spelled, went'⟩ := reads.went
  obtain ⟨b, space', went''⟩ := Parser.consumes_skipWs q
  have all := (went.trans (went'.trans went'')).rest
  have shallow := reads.shallow
  refine ⟨node, ⟨a, s, b, space, spelled, space', ?_⟩, reads.distinct, reads.paired, by omega,
    reads.value⟩
  rw [whole, List.append_nil] at all
  exact all

/-- **A spelled text is accepted**, with the value of its tree. -/
theorem parseStrict_complete (spelled : Spells node text) (distinct : node.DistinctKeys)
    (paired : node.Paired) (shallow : node.height ≤ 128) (integers : node.Integers) :
    parseStrict host text = .ok node.value := by
  obtain ⟨a, s, b, space, spelled, space', rfl⟩ := spelled
  have ends : Parser.Ends b := by
    cases b with
    | nil => simp [Parser.Ends]
    | cons c b =>
      have ends := Parser.ends_ws (w := []) (c := c) Parser.ws_nil ?_ b
      · exact ends
      · rcases space' c (.head _) with rfl | rfl | rfl | rfl
        all_goals decide
  obtain ⟨q, read, stop⟩ := Parser.completes_all host node distinct paired integers s spelled
    (2 * (a ++ (s ++ b)).length + 1) 0 a.length b (by omega)
    (by simp only [List.length_append]; omega) ends
  refine parseStrict_eq_ok.mpr ⟨q, ?_, ?_⟩
  · rw [Parser.skipWs_append space, Nat.zero_add]
    exact read
  · have done := Parser.skipWs_append space' (a.length + s.length) []
    rw [List.append_nil] at done
    rw [stop, done]
    rfl

/-! ### Texts with such integers -/

variable {s t : Bytes}

/-- At most 18 bytes, and no point and no letter of an exponent. -/
def Short (s : Bytes) : Prop := s.length ≤ 18 ∧ ∀ c ∈ s, c ≠ 46 ∧ c ≠ 101 ∧ c ≠ 69

theorem Short.of_infix (short : Short t) (part : s <:+: t) : Short s :=
  ⟨part.length_le.trans short.1, fun c member => short.2 c (part.subset member)⟩

theorem digitsValue_lt (digits : s.all isDigit = true) : digitsValue s < 10 ^ s.length := by
  rw [digitsValue_eq_ofDigits]
  have bound := Nat.ofDigits_lt_base_pow_length (b := 10)
    (l := s.reverse.map fun b => b.val - 48) (by decide) ?_
  · simpa using bound
  · intro d member
    obtain ⟨b, inside, rfl⟩ := List.mem_map.mp member
    have bounds := isDigit_val (List.all_eq_true.mp digits b (List.mem_reverse.mp inside))
    show b.val - 48 < 10
    omega

theorem numberFits_of_short {negative : Bool} {digits fraction exponent : Bytes}
    (spelled : (Node.number negative digits fraction exponent).Spells s) (short : Short s) :
    (Node.number negative digits fraction exponent).numberFits := by
  obtain ⟨whole, isFraction, isExponent, rfl⟩ := spelled
  have noFraction : fraction = [] := by
    rcases isFraction with none | ⟨more, _, rfl⟩
    · exact none
    · exact absurd rfl (short.2 46 (by simp)).1
  have noExponent : exponent = [] := by
    rcases isExponent with none | ⟨e, sign, more, rfl | rfl, _, _, rfl⟩
    · exact none
    · exact absurd rfl (short.2 101 (by simp)).2.1
    · exact absurd rfl (short.2 69 (by simp)).2.2
  have all : digits.all isDigit = true := by
    rcases whole with rfl | ⟨⟨_, all⟩, _⟩
    · rfl
    · exact all
  have length : digits.length ≤ 18 := by
    have bound := short.1
    simp only [List.length_append] at bound
    omega
  have small : digitsValue digits < 10 ^ 18 :=
    (digitsValue_lt all).trans_le (Nat.pow_le_pow_right (by decide) length)
  refine ⟨noFraction, noExponent, ?_, ?_⟩
  · unfold Node.signed
    split_ifs <;> omega
  · unfold Node.signed
    split_ifs <;> omega

/-- **A short text without points and exponents has only integers in range.** -/
theorem integers_of_short (spelled : node.Spells s) (short : Short s) : node.Integers := by
  induction node using Node.induct generalizing s with
  | null => trivial
  | bool b => trivial
  | number negative digits fraction exponent => exact numberFits_of_short spelled short
  | string pieces => trivial
  | array items ih =>
    obtain ⟨a, b, t, c, d, _, _, _, _, spelled, rfl⟩ := spelled
    have inside : t <:+: a ++ 91 :: (b ++ (t ++ (c ++ 93 :: d))) :=
      ⟨a ++ 91 :: b, c ++ 93 :: d, by simp⟩
    refine ⟨trivial, allItems_iff.mpr fun item member => ?_⟩
    obtain ⟨u, part, spelled⟩ := spellsItems_mem spelled item member
    exact ih item member spelled (short.of_infix (part.trans inside))
  | object members ih =>
    obtain ⟨a, b, t, c, d, _, _, _, _, spelled, rfl⟩ := spelled
    have inside : t <:+: a ++ 123 :: (b ++ (t ++ (c ++ 125 :: d))) :=
      ⟨a ++ 123 :: b, c ++ 125 :: d, by simp⟩
    refine ⟨trivial, allMembers_iff.mpr fun member listed => ?_⟩
    obtain ⟨_, u, part, spelled⟩ := spellsMembers_mem spelled member listed
    exact ih member listed spelled (short.of_infix (part.trans inside))

/-! ### Every text is answered -/

theorem hexDigits_error {count v : Nat} {p : Parser} {e : EventError} (enough : count ≤ p.rest.length)
    (failed : Parser.hexDigits count v p = .error e) :
    ∃ q : Parser, e = q.err "invalid hex digit in \\u escape" := by
  induction count generalizing v p with
  | zero => cases failed
  | succ count ih =>
    obtain ⟨pos, rest⟩ := p
    cases rest with
    | nil => exact absurd enough (Nat.not_succ_le_zero count)
    | cons c rest =>
      rw [Parser.hexDigits] at failed
      simp only [Parser.bump_cons] at failed
      split at failed
      · exact ih (Nat.le_of_succ_le_succ enough) failed
      · cases failed
        exact ⟨_, rfl⟩

/-- Nothing but the text decides the answer: the bounds on the calls and on the loop over a string
are never met, and the four digits after `\u` are there when they are taken. -/
structure Answers (host : Host) (text : Bytes) : Prop where
  calls : ∀ n, 2 * text.length + 2 ≤ n →
    Parser.parseValue host n 0 (Parser.mk 0 text).skipWs
      = Parser.parseValue host (2 * text.length + 2) 0 (Parser.mk 0 text).skipWs
  strings : ∀ n out (p : Parser), p.rest.length < n →
    Parser.parseStringFrom n out p = Parser.parseStringFrom (p.rest.length + 1) out p
  digits : ∀ (p : Parser) e, 4 ≤ p.rest.length → Parser.parseHex4 p = .error e →
    ∃ q : Parser, e = q.err "invalid hex digit in \\u escape"

theorem answers (host : Host) (text : Bytes) : Answers host text where
  calls n enough := by
    have space := Parser.skipWs_length (Parser.mk 0 text)
    have shorter : (Parser.mk 0 text).skipWs.rest.length ≤ text.length := space
    exact (Parser.parse_rounds host n).1 _ 0 _ (by omega) (by omega)
  strings n out p enough := Parser.parseStringFrom_rounds out p enough (Nat.lt_succ_self _)
  digits p e enough failed := by
    rw [Parser.parseHex4, if_neg (Nat.not_lt.mpr enough)] at failed
    exact hexDigits_error enough failed

/-- **The parser is the grammar**: on a text whose numbers are integers in range, it accepts exactly
what the grammar spells with distinct keys, paired surrogates and at most 128 levels, and returns
the value of the tree. -/
theorem parseStrict_accepts (host : Host) (text : Text)
    (integers : ∀ node, Spells node text.bytes → node.Integers) :
    Answers host text.bytes ∧
    ((∃ v, parseStrict host text.bytes = .ok v) ↔
      ∃ node, Spells node text.bytes ∧ node.DistinctKeys ∧ node.Paired ∧ node.height ≤ 128) ∧
    ∀ node, Spells node text.bytes → node.DistinctKeys → node.Paired → node.height ≤ 128 →
      parseStrict host text.bytes = .ok node.value := by
  refine ⟨answers host text.bytes, ⟨?_, ?_⟩, ?_⟩
  · rintro ⟨v, read⟩
    obtain ⟨node, spelled, distinct, paired, shallow, _⟩ := parseStrict_sound read
    exact ⟨node, spelled, distinct, paired, shallow⟩
  · rintro ⟨node, spelled, distinct, paired, shallow⟩
    exact ⟨node.value,
      parseStrict_complete spelled distinct paired shallow (integers node spelled)⟩
  · intro node spelled distinct paired shallow
    exact parseStrict_complete spelled distinct paired shallow (integers node spelled)

/-- The text `[1, -0]`. -/
def arrayText : Text := ⟨[91, 49, 44, 32, 45, 48, 93], by decide⟩

theorem arrayText_short : Short arrayText.bytes := by
  refine ⟨by decide, ?_⟩
  simp [arrayText]

theorem parseStrict_accepts_array :
    (∃ v, parseStrict zeroHost arrayText.bytes = .ok v) ↔
      ∃ node, Spells node arrayText.bytes ∧ node.DistinctKeys ∧ node.Paired ∧
        node.height ≤ 128 := by
  refine (parseStrict_accepts zeroHost arrayText fun node spelled => ?_).2.1
  obtain ⟨a, s, b, _, spelled, _, text⟩ := spelled
  exact integers_of_short spelled
    (arrayText_short.of_infix ⟨a, b, by rw [List.append_assoc]; exact text.symm⟩)

end Wok.Event
