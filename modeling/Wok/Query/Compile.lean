/-
**What parsing a filter gathers.**

Every key of a filter sets one part of the result and leaves the others. The lists of ids, authors
and tag values are all sets under a key, so one statement says what becomes of each.

* `parseField_effect` — what one key does.
* `parse_compiled` — **the parts of an accepted filter, each from its own key.**
-/

import Wok.Query.Filter

namespace Wok.Query

open Wok.Library Wok.Event

/-! ### Sets by key -/

/-- The keys with a set of values. -/
inductive SetKey
  | ids
  | authors
  | anyOf (letter : Byte)
  | allOf (letter : Byte)
  deriving DecidableEq

namespace SetKey

def text : SetKey → Bytes
  | ids => ascii "ids"
  | authors => ascii "authors"
  | anyOf letter => [35, letter]
  | allOf letter => [38, letter]

/-- How the values under the key are read. -/
def parse (host : Host) : SetKey → Value → Except QueryError FilterSetBytes
  | ids, v => FilterSetBytes.parse host v true 32 32
  | authors, v => FilterSetBytes.parse host v true 32 32
  | anyOf letter, v => NostrFilter.parseTagSet host letter v
  | allOf letter, v => NostrFilter.parseTagSet host letter v

/-- Whether an empty list under the key matches nothing; under the others it is an error. -/
def MayBeEmpty : SetKey → Prop
  | allOf _ => False
  | _ => True

theorem ids_length : (ascii "ids").length = 3 := by decide

theorem authors_length : (ascii "authors").length = 7 := by decide

theorem text_injective : Function.Injective text := by
  intro a b same
  have sizes := congrArg List.length same
  cases a <;> cases b <;>
    simp only [text, ids_length, authors_length, List.length_cons, List.length_nil] at sizes same ⊢
  all_goals first | omega | simp_all

/-- The other keys. -/
def otherKeys : List String := ["kinds", "since", "until", "limit", "search"]

theorem text_ne (key : SetKey) {name : String} (other : name ∈ otherKeys) :
    key.text ≠ ascii name := by
  have sizes : ∀ name ∈ otherKeys, (ascii name).length = 5 ∨ (ascii name).length = 6 := by decide
  intro same
  have size := sizes name other
  rw [← same] at size
  cases key <;> simp [text, ids_length, authors_length] at size

end SetKey

/-- The keys of a filter. -/
inductive FieldKey
  | set (key : SetKey)
  | kinds
  | since
  | «until»
  | limit
  | search

namespace FieldKey

def text : FieldKey → Bytes
  | set key => key.text
  | kinds => ascii "kinds"
  | since => ascii "since"
  | «until» => ascii "until"
  | limit => ascii "limit"
  | search => ascii "search"

theorem text_injective : Function.Injective text := by
  intro a b same
  cases a with
  | set key =>
    cases b with
    | set other => exact congrArg set (SetKey.text_injective same)
    | _ => exact absurd same (key.text_ne (by decide))
  | _ =>
    cases b with
    | set key => exact absurd same.symm (key.text_ne (by decide))
    | _ => first | rfl | exact absurd same (by decide)

end FieldKey

namespace NostrFilter

def setAt (f : NostrFilter) : SetKey → Option FilterSetBytes
  | .ids => f.ids
  | .authors => f.authors
  | .anyOf letter => f.tags.lookup letter
  | .allOf letter => f.andTags.lookup letter

def putSet (f : NostrFilter) (set : FilterSetBytes) : SetKey → NostrFilter
  | .ids => { f with ids := some set }
  | .authors => { f with authors := some set }
  | .anyOf letter => { f with tags := putTag f.tags letter set }
  | .allOf letter => { f with andTags := putTag f.andTags letter set }

theorem setAt_putSet (f : NostrFilter) (set : FilterSetBytes) (key other : SetKey) :
    (f.putSet set key).setAt other = if other = key then some set else f.setAt other := by
  cases key <;> cases other <;> simp [putSet, setAt, putTag, lookup_insertBy]

/-- The parts of a filter that are not sets of values. -/
structure SameRest (f g : NostrFilter) : Prop where
  kinds : f.kinds = g.kinds
  since : f.since = g.since
  «until» : f.until = g.until
  search : f.search = g.search
  neverMatch : f.neverMatch = g.neverMatch

theorem sameRest_putSet (f : NostrFilter) (set : FilterSetBytes) (key : SetKey) :
    SameRest (f.putSet set key) f := by
  cases key <;> exact ⟨rfl, rfl, rfl, rfl, rfl⟩

/-! ### One key -/

variable {key : Bytes} {v : Value}

/-- What one key does. -/
inductive FieldEffect (settings : Settings) (st : Parsing) : FieldKey → Value → Parsing → Prop
  | emptySet (key : SetKey) (mayBeEmpty : key.MayBeEmpty) :
    FieldEffect settings st (.set key) (.array []) { st with filter.neverMatch := true }
  | set (key : SetKey) {items : List Value} (some : items ≠ []) {set : FilterSetBytes}
    (read : key.parse settings.host (.array items) = .ok set) (count : Nat) :
    FieldEffect settings st (.set key) (.array items) ⟨st.filter.putSet set key, count⟩
  | emptyKinds : FieldEffect settings st .kinds (.array []) { st with filter.neverMatch := true }
  | kinds {items : List Value} (some : items ≠ []) {set : FilterSetUint}
    (read : FilterSetUint.parse (.array items) = .ok set) (count : Nat) :
    FieldEffect settings st .kinds (.array items) ⟨{ st.filter with kinds := .some set }, count⟩
  | since {v : Value} {n : Nat} (read : v.asU64 = some n) :
    FieldEffect settings st .since v { st with filter.since := n }
  | «until» {v : Value} {n : Nat} (read : v.asU64 = some n) :
    FieldEffect settings st .until v { st with filter.until := n }
  | limit (v : Value) (n : Nat) : FieldEffect settings st .limit v { st with filter.limit := n }
  | search (v : Value) (search : SearchQuery) (count : Nat) :
    FieldEffect settings st .search v ⟨{ st.filter with search := some search }, count⟩

theorem listField_eq {α : Type} {st st' : Parsing} {parse : Value → Except QueryError α}
    {put : α → Parsing} (run : listField st key v parse put = .ok st') :
    v = .array [] ∧ st' = { st with filter.neverMatch := true } ∨
      ∃ items set, v = .array items ∧ items ≠ [] ∧ parse v = .ok set ∧ st' = put set := by
  simp only [listField, bind_eq_ok, okOr_eq_ok] at run
  obtain ⟨items, list, run⟩ := run
  split_ifs at run with empty
  · rw [pure_eq_ok] at run
    rw [List.isEmpty_iff.mp empty] at list
    exact .inl ⟨Value.asArray_eq list, run.symm⟩
  · simp only [bind_eq_ok, mapError_eq_ok, pure_eq_ok] at run
    obtain ⟨set, read, same⟩ := run
    exact .inr ⟨items, set, Value.asArray_eq list, fun is => empty (is ▸ rfl), read, same.symm⟩

theorem tagLetter_eq {letter first : Byte} (found : tagLetter key = some letter)
    (starts : key.head? = some first) : key = [first, letter] := by
  unfold tagLetter at found
  split at found
  · split_ifs at found
    cases found
    cases starts
    rfl
  · cases found

theorem parseField_effect {settings : Settings} {st st' : Parsing} {k : Text}
    (run : parseField settings st (k, v) = .ok st') :
    ∃ key : FieldKey, k.bytes = key.text ∧ FieldEffect settings st key v st' := by
  unfold parseField at run
  dsimp only at run
  by_cases ids : k.bytes = ascii "ids"
  · rw [if_pos ids] at run
    rcases listField_eq run with ⟨rfl, rfl⟩ | ⟨items, set, rfl, some, read, rfl⟩
    · exact ⟨.set .ids, ids, .emptySet _ trivial⟩
    · exact ⟨.set .ids, ids, .set .ids some read _⟩
  rw [if_neg ids] at run
  by_cases authors : k.bytes = ascii "authors"
  · rw [if_pos authors] at run
    rcases listField_eq run with ⟨rfl, rfl⟩ | ⟨items, set, rfl, some, read, rfl⟩
    · exact ⟨.set .authors, authors, .emptySet _ trivial⟩
    · exact ⟨.set .authors, authors, .set .authors some read _⟩
  rw [if_neg authors] at run
  by_cases kinds : k.bytes = ascii "kinds"
  · rw [if_pos kinds] at run
    rcases listField_eq run with ⟨rfl, rfl⟩ | ⟨items, set, rfl, some, read, rfl⟩
    · exact ⟨.kinds, kinds, .emptyKinds⟩
    · exact ⟨.kinds, kinds, .kinds some read _⟩
  rw [if_neg kinds] at run
  by_cases any : k.bytes.head? = some 35
  · rw [if_pos any] at run
    simp only [orField, bind_eq_ok, okOr_eq_ok] at run
    obtain ⟨letter, found, run⟩ := run
    have here := tagLetter_eq found any
    rcases listField_eq run with ⟨rfl, rfl⟩ | ⟨items, set, rfl, some, read, rfl⟩
    · exact ⟨.set (.anyOf letter), here, .emptySet _ trivial⟩
    · exact ⟨.set (.anyOf letter), here, .set (.anyOf letter) some read _⟩
  rw [if_neg any] at run
  by_cases all : k.bytes.head? = some 38
  · rw [if_pos all] at run
    simp only [andField, bind_eq_ok, okOr_eq_ok, ensure_eq_ok, mapError_eq_ok, pure_eq_ok] at run
    obtain ⟨letter, found, items, list, _, some, set, read, rfl⟩ := run
    obtain rfl := Value.asArray_eq list
    exact ⟨.set (.allOf letter), tagLetter_eq found all,
      .set (.allOf letter) (fun empty => by simp [empty] at some) read _⟩
  rw [if_neg all] at run
  by_cases since : k.bytes = ascii "since"
  · rw [if_pos since] at run
    simp only [numberField, bind_eq_ok, okOr_eq_ok, pure_eq_ok] at run
    obtain ⟨n, read, rfl⟩ := run
    exact ⟨.since, since, .since read⟩
  rw [if_neg since] at run
  by_cases «until» : k.bytes = ascii "until"
  · rw [if_pos «until»] at run
    simp only [numberField, bind_eq_ok, okOr_eq_ok, pure_eq_ok] at run
    obtain ⟨n, read, rfl⟩ := run
    exact ⟨.until, «until», .until read⟩
  rw [if_neg «until»] at run
  by_cases limit : k.bytes = ascii "limit"
  · rw [if_pos limit] at run
    simp only [numberField, bind_eq_ok, okOr_eq_ok, pure_eq_ok] at run
    obtain ⟨n, _, rfl⟩ := run
    exact ⟨.limit, limit, .limit v n⟩
  rw [if_neg limit] at run
  by_cases search : k.bytes = ascii "search"
  · rw [if_pos search] at run
    simp only [bind_eq_ok, okOr_eq_ok, mapError_eq_ok, pure_eq_ok] at run
    obtain ⟨_, _, query, _, rfl⟩ := run
    exact ⟨.search, search, .search v query _⟩
  rw [if_neg search] at run
  cases run

section Effects

variable {settings : Settings} {st st' : Parsing} {key : FieldKey} {v : Value}

/-- What becomes of a list under its own key. -/
def ListRead {α : Type} (mayBeEmpty : Prop) (v : Value) (parse : Value → Except QueryError α)
    (before after : Option α) : Prop :=
  mayBeEmpty ∧ v = .array [] ∧ after = before ∨
    ∃ items set, v = .array items ∧ items ≠ [] ∧ parse v = .ok set ∧ after = some set

theorem FieldEffect.setAt_other (effect : FieldEffect settings st key v st') {setKey : SetKey}
    (other : key ≠ .set setKey) : st'.filter.setAt setKey = st.filter.setAt setKey := by
  cases effect with
  | set here =>
    rw [setAt_putSet, if_neg]
    rintro rfl
    exact other rfl
  | _ => cases setKey <;> rfl

theorem FieldEffect.setAt_own {setKey : SetKey}
    (effect : FieldEffect settings st (.set setKey) v st') :
    ListRead setKey.MayBeEmpty v (setKey.parse settings.host) (st.filter.setAt setKey)
      (st'.filter.setAt setKey) := by
  cases effect with
  | emptySet here mayBeEmpty =>
    refine .inl ⟨mayBeEmpty, rfl, ?_⟩
    cases setKey <;> rfl
  | set here some read =>
    exact .inr ⟨_, _, rfl, some, read, by rw [setAt_putSet, if_pos rfl]⟩

theorem FieldEffect.kinds_other (effect : FieldEffect settings st key v st')
    (other : key ≠ .kinds) : st'.filter.kinds = st.filter.kinds := by
  cases effect with
  | kinds => exact absurd rfl other
  | set here => exact (sameRest_putSet _ _ here).kinds
  | _ => rfl

theorem FieldEffect.kinds_own (effect : FieldEffect settings st .kinds v st') :
    ListRead True v FilterSetUint.parse st.filter.kinds st'.filter.kinds := by
  cases effect with
  | emptyKinds => exact .inl ⟨trivial, rfl, rfl⟩
  | kinds some read => exact .inr ⟨_, _, rfl, some, read, rfl⟩

theorem FieldEffect.since_other (effect : FieldEffect settings st key v st')
    (other : key ≠ .since) : st'.filter.since = st.filter.since := by
  cases effect with
  | since => exact absurd rfl other
  | set here => exact (sameRest_putSet _ _ here).since
  | _ => rfl

theorem FieldEffect.since_own (effect : FieldEffect settings st .since v st') :
    v.asU64 = some st'.filter.since := by
  cases effect with
  | since read => exact read

theorem FieldEffect.until_other (effect : FieldEffect settings st key v st')
    (other : key ≠ .until) : st'.filter.until = st.filter.until := by
  cases effect with
  | «until» => exact absurd rfl other
  | set here => exact (sameRest_putSet _ _ here).until
  | _ => rfl

theorem FieldEffect.until_own (effect : FieldEffect settings st .until v st') :
    v.asU64 = some st'.filter.until := by
  cases effect with
  | «until» read => exact read

theorem FieldEffect.search_other (effect : FieldEffect settings st key v st')
    (other : key ≠ .search) : st'.filter.search = st.filter.search := by
  cases effect with
  | search => exact absurd rfl other
  | set here => exact (sameRest_putSet _ _ here).search
  | _ => rfl

/-- The keys whose list must not be empty. -/
def IsOrKey (key : Bytes) : Prop :=
  key = ascii "kinds" ∨ ∃ setKey : SetKey, setKey.MayBeEmpty ∧ key = setKey.text

theorem isOrKey_text :
    IsOrKey key.text ↔ key = .kinds ∨ ∃ setKey : SetKey, setKey.MayBeEmpty ∧ key = .set setKey := by
  simp only [← FieldKey.text_injective.eq_iff]
  rfl

theorem FieldEffect.neverMatch (effect : FieldEffect settings st key v st') :
    st'.filter.neverMatch = true
      ↔ st.filter.neverMatch = true ∨ IsOrKey key.text ∧ v = .array [] := by
  rw [isOrKey_text]
  cases effect with
  | emptySet setKey mayBeEmpty =>
    exact iff_of_true rfl (.inr ⟨.inr ⟨setKey, mayBeEmpty, rfl⟩, rfl⟩)
  | emptyKinds => exact iff_of_true rfl (.inr ⟨.inl rfl, rfl⟩)
  | set setKey some =>
    rw [(sameRest_putSet _ _ setKey).neverMatch]
    simp [some]
  | kinds some => simp [some]
  | since | «until» | limit | search => simp

/-- The sets by letter stay in order. -/
def Ordered (f : NostrFilter) : Prop := SortedBy Prod.fst f.tags ∧ SortedBy Prod.fst f.andTags

theorem FieldEffect.ordered (effect : FieldEffect settings st key v st')
    (ordered : Ordered st.filter) : Ordered st'.filter := by
  cases effect with
  | set setKey =>
    cases setKey with
    | ids => exact ordered
    | authors => exact ordered
    | anyOf letter => exact ⟨sortedBy_insertBy ordered.1 _, ordered.2⟩
    | allOf letter => exact ⟨ordered.1, sortedBy_insertBy ordered.2 _⟩
  | _ => exact ordered

end Effects

/-! ### The whole filter -/

/-- An object's keys are distinct, as those of `serde_json::Map` are. -/
def DistinctKeys (fields : List (Text × Value)) : Prop :=
  fields.Pairwise fun a b => a.1.bytes ≠ b.1.bytes

theorem fieldAt_eq_some {fields : List (Text × Value)} (distinct : DistinctKeys fields) :
    (Value.object fields).fieldAt key = some v ↔ ∃ k, (k, v) ∈ fields ∧ k.bytes = key := by
  rw [Value.fieldAt, Option.map_eq_some_iff]
  constructor
  · rintro ⟨⟨k, w⟩, found, rfl⟩
    exact ⟨k, List.mem_of_find?_eq_some found, by simpa using List.find?_some found⟩
  · rintro ⟨k, member, rfl⟩
    cases found : fields.find? fun field => field.1.bytes = k.bytes with
    | none => exact absurd (List.find?_eq_none.mp found _ member) (by simp)
    | some other =>
      have same : other.1.bytes = k.bytes := by simpa using List.find?_some found
      have equal : other = (k, v) := by
        by_contra different
        have : Std.Symm fun a b : Text × Value => a.1.bytes ≠ b.1.bytes :=
          ⟨fun _ _ ne => ne.symm⟩
        exact distinct.forall (List.mem_of_find?_eq_some found) member different same
      exact ⟨(k, v), by rw [equal], rfl⟩

theorem fieldAt_eq_none {fields : List (Text × Value)} :
    (Value.object fields).fieldAt key = none ↔ ∀ field ∈ fields, field.1.bytes ≠ key := by
  rw [Value.fieldAt, Option.map_eq_none_iff, List.find?_eq_none]
  simp

/-- The list of a filter under a key: without it nothing is gathered. -/
def FromList {α : Type} (filterObj : Value) (key : Bytes) (mayBeEmpty : Prop)
    (parse : Value → Except QueryError α) (gathered : Option α) : Prop :=
  filterObj.fieldAt key = none ∧ gathered = none ∨
    ∃ v, filterObj.fieldAt key = some v ∧ ListRead mayBeEmpty v parse none gathered

/-- A number of a filter, or its default. -/
def FromNumber (filterObj : Value) (key : Bytes) (default gathered : Nat) : Prop :=
  filterObj.fieldAt key = none ∧ gathered = default ∨
    ∃ v, filterObj.fieldAt key = some v ∧ v.asU64 = some gathered

/-- What the loop over the keys gathers. -/
structure Compiled (host : Host) (filterObj : Value) (f : NostrFilter) : Prop where
  sets : ∀ key : SetKey,
    FromList filterObj key.text key.MayBeEmpty (key.parse host) (f.setAt key)
  kinds : FromList filterObj (ascii "kinds") True FilterSetUint.parse f.kinds
  since : FromNumber filterObj (ascii "since") 0 f.since
  «until» : FromNumber filterObj (ascii "until") (2 ^ 64 - 1) f.until
  search : filterObj.fieldAt (ascii "search") = none → f.search = none
  neverMatch : f.neverMatch = true
    ↔ ∃ key, IsOrKey key ∧ filterObj.fieldAt key = some (.array [])
  ordered : Ordered f

section Loop

variable {settings : Settings} {fields : List (Text × Value)} {st : Parsing}

/-- A part of the filter that its own key alone sets. -/
theorem loop_part {α : Type} (distinct : DistinctKeys fields)
    (run : fields.foldlM (parseField settings) ⟨.empty, 0⟩ = .ok st) (key : FieldKey)
    (part : NostrFilter → α) (Read : Value → α → α → Prop)
    (other : ∀ {st st' key' v}, FieldEffect settings st key' v st' → key' ≠ key →
      part st'.filter = part st.filter)
    (own : ∀ {st st' v}, FieldEffect settings st key v st' →
      Read v (part st.filter) (part st'.filter)) :
    (Value.object fields).fieldAt key.text = none ∧ part st.filter = part .empty ∨
      ∃ v, (Value.object fields).fieldAt key.text = some v ∧
        Read v (part .empty) (part st.filter) := by
  have once : fields.Pairwise fun a b => ¬(a.1.bytes = key.text ∧ b.1.bytes = key.text) :=
    distinct.imp fun ne both => ne (both.1.trans both.2.symm)
  rcases foldlM_component (fun st : Parsing => part st.filter)
    (fun field : Text × Value => field.1.bytes = key.text)
    (fun s field s' step ne => by
      obtain ⟨key', is, effect⟩ := parseField_effect step
      exact other effect fun same => ne (same ▸ is)) once run with
    ⟨none, same⟩ | ⟨⟨k, v⟩, member, here, before, after, step, was, same⟩
  · exact .inl ⟨fieldAt_eq_none.mpr none, same⟩
  · refine .inr ⟨v, (fieldAt_eq_some distinct).mpr ⟨k, member, here⟩, ?_⟩
    obtain ⟨key', is, effect⟩ := parseField_effect step
    obtain rfl := FieldKey.text_injective (is.symm.trans here)
    have read := own effect
    rw [was] at read
    exact same ▸ read

/-- **The loop gathers each part from its own key.** -/
theorem loop_compiled (distinct : DistinctKeys fields)
    (run : fields.foldlM (parseField settings) ⟨.empty, 0⟩ = .ok st) :
    Compiled settings.host (.object fields) st.filter where
  sets key := by
    have part := loop_part distinct run (.set key) (fun f => f.setAt key) _
      (fun effect => effect.setAt_other) FieldEffect.setAt_own
    cases key <;> exact part
  kinds := loop_part distinct run .kinds kinds _ FieldEffect.kinds_other FieldEffect.kinds_own
  since := loop_part distinct run .since since (fun v _ n => v.asU64 = some n)
    FieldEffect.since_other FieldEffect.since_own
  «until» := loop_part distinct run .until «until» (fun v _ n => v.asU64 = some n)
    FieldEffect.until_other FieldEffect.until_own
  search missing := by
    rcases loop_part distinct run .search search (fun _ _ _ => True) FieldEffect.search_other
      fun _ => trivial with ⟨_, same⟩ | ⟨v, found, _⟩
    · exact same
    · exact absurd (missing.symm.trans found) (Option.some_ne_none v).symm
  neverMatch := by
    have flag := foldlM_flag (fun st : Parsing => st.filter.neverMatch)
      (fun field : Text × Value => IsOrKey field.1.bytes ∧ field.2 = .array [])
      (fun s field s' step => by
        obtain ⟨key, is, effect⟩ := parseField_effect step
        exact is ▸ effect.neverMatch) run
    rw [flag]
    constructor
    · rintro (start | ⟨⟨k, v⟩, member, isOr, rfl⟩)
      · cases start
      · exact ⟨k.bytes, isOr, (fieldAt_eq_some distinct).mpr ⟨k, member, rfl⟩⟩
    · rintro ⟨key, isOr, found⟩
      obtain ⟨k, member, rfl⟩ := (fieldAt_eq_some distinct).mp found
      exact .inr ⟨_, member, isOr, rfl⟩
  ordered := by
    refine foldlM_preserves (fun st : Parsing => Ordered st.filter) ?_ ?_ run
    · intro _ _ _ _ kept step
      obtain ⟨_, _, effect⟩ := parseField_effect step
      exact effect.ordered kept
    · exact ⟨List.Pairwise.nil, List.Pairwise.nil⟩

end Loop

end NostrFilter

end Wok.Query
