/-
**Filter groups.**

A request sends several filters, and an event matches the group when it matches one of them. A
filter that can never match is counted and dropped. With a search, a filter matches only together
with the words of the content.

* `NostrFilterGroup` — filters that came out of `NostrFilter.parse`.
* `Parsed.ids_size`, `Parsed.authors_size`, `Parsed.andTags_nonempty` — **what the users of a
  parsed filter rely on.**
-/

import Wok.Query.Compile

namespace Wok.Query

open Wok.Library Wok.Event

/-! ### Groups -/

/-- The words of an event's content. -/
abbrev SearchTermSet := List Bytes

/-- The filter came out of a parse. -/
def NostrFilter.Parsed (f : NostrFilter) : Prop :=
  ∃ settings filterObj, NostrFilter.parse settings filterObj = .ok f

def NostrFilter.doesMatchWithSearchTerms (f : NostrFilter) (ev : PackedEvent)
    (searchTerms : Option SearchTermSet) : Bool :=
  f.doesMatchWithoutSearch ev &&
    match f.search, searchTerms with
    | none, _ => true
    | some _, none => false
    | some query, some searchTerms => query.terms.all fun term => searchTerms.contains term

/-- The filters of one request; `neverMatching` counts the ones dropped. -/
structure NostrFilterGroup where
  filters : List NostrFilter
  neverMatching : Nat
  parsed : ∀ f ∈ filters, f.Parsed

namespace NostrFilterGroup

def default : NostrFilterGroup := ⟨[], 0, by simp⟩

def addFilter (settings : NostrFilter.Settings) (g : NostrFilterGroup) (item : Value) :
    Except QueryError NostrFilterGroup :=
  match run : NostrFilter.parse settings item with
  | .error e => .error e
  | .ok f =>
    if f.neverMatch then .ok { g with neverMatching := g.neverMatching + 1 }
    else .ok
      { filters := g.filters ++ [f]
        neverMatching := g.neverMatching
        parsed := fun other member => by
          rcases List.mem_append.mp member with old | new
          · exact g.parsed other old
          · exact ⟨settings, item, by rw [List.mem_singleton.mp new, run]⟩ }

def fromValue (settings : NostrFilter.Settings) (filter : Value) :
    Except QueryError NostrFilterGroup :=
  match filter with
  | .array filters => filters.foldlM (addFilter settings) default
  | _ => addFilter settings default filter

variable (g : NostrFilterGroup)

def doesMatchWithSearchTerms (ev : PackedEvent) (searchTerms : Option SearchTermSet) : Bool :=
  g.filters.any fun f => f.doesMatchWithSearchTerms ev searchTerms

def requiresContent : Bool := g.filters.any fun f => f.search.isSome

end NostrFilterGroup

/-! ### Parsed filters -/

namespace FilterSetBytes

variable {host : Host} {v : Value} {hexDecode : Bool} {minSize maxSize : Nat} {set : FilterSetBytes}

/-- The items are the values read, in the form a packed event holds. -/
theorem parse_items (run : parse host v hexDecode minSize maxSize = .ok set) :
    ∃ (items : List Value) (values : List Bytes), v = .array items ∧ (∀ item ∈ items, ∃ value,
        readItem hexDecode minSize maxSize item = .ok value ∧ value ∈ values) ∧
      (∀ value ∈ values, minSize ≤ value.length ∧ value.length ≤ maxSize) ∧
      ∀ item, item ∈ set.items ↔ item ∈ values.map (indexedTagValue host) := by
  simp only [parse, bind_eq_ok, okOr_eq_ok, ensure_eq_ok, pure_eq_ok] at run
  obtain ⟨items, list, values, mapped, _, _, rfl⟩ := run
  obtain ⟨each, members⟩ := mapM_eq_ok mapped
  refine ⟨items, values, Value.asArray_eq list, fun item member => ?_, fun value member => ?_,
    fun item => mem_sortDedup⟩
  · obtain ⟨value, made⟩ := each item member
    exact ⟨value, made, (members value).mpr ⟨item, member, made⟩⟩
  · obtain ⟨item, _, made⟩ := (members value).mp member
    simp only [readItem, bind_eq_ok, ensure_eq_ok, pure_eq_ok] at made
    obtain ⟨_, _, bytes, _, _, large, _, small, rfl⟩ := made
    exact ⟨large, small⟩

theorem parse_nonempty (run : parse host v hexDecode minSize maxSize = .ok set)
    (nonempty : v ≠ .array []) : set.items ≠ [] := by
  obtain ⟨items, values, rfl, each, _, members⟩ := parse_items run
  cases items with
  | nil => exact absurd rfl nonempty
  | cons item items =>
    obtain ⟨value, _, member⟩ := each item (.head _)
    exact List.ne_nil_of_mem ((members _).mpr (List.mem_map_of_mem member))

theorem parse_size (run : parse host v true 32 32 = .ok set) :
    ∀ item ∈ set.items, item.length = 32 := by
  obtain ⟨items, values, _, _, sizes, members⟩ := parse_items run
  intro item member
  obtain ⟨value, inside, rfl⟩ := List.mem_map.mp ((members item).mp member)
  have size := sizes value inside
  rw [indexedTagValue_short host (by omega)]
  omega

end FilterSetBytes

namespace NostrFilter

variable {v : Value}

/-- No set is empty, and identifiers have their size. -/
def WellKeyed (f : NostrFilter) : Prop :=
  ∀ key set, f.setAt key = some set → set.items ≠ [] ∧
    (key = .ids ∨ key = .authors → ∀ item ∈ set.items, item.length = 32)

theorem parseTagSet_nonempty {host : Host} {letter : Byte} {set : FilterSetBytes}
    (read : parseTagSet host letter v = .ok set) (nonempty : v ≠ .array []) : set.items ≠ [] := by
  unfold parseTagSet at read
  split_ifs at read
  · exact FilterSetBytes.parse_nonempty read nonempty
  · exact FilterSetBytes.parse_nonempty read nonempty

theorem parse_wellKeyed {host : Host} {key : SetKey} {set : FilterSetBytes}
    (read : key.parse host v = .ok set) (nonempty : v ≠ .array []) :
    set.items ≠ [] ∧ (key = .ids ∨ key = .authors → ∀ item ∈ set.items, item.length = 32) := by
  cases key with
  | ids | authors =>
    exact ⟨FilterSetBytes.parse_nonempty read nonempty, fun _ => FilterSetBytes.parse_size read⟩
  | anyOf | allOf => exact ⟨parseTagSet_nonempty read nonempty, by simp⟩

theorem FieldEffect.wellKeyed {settings : Settings} {st st' : Parsing} {key : FieldKey}
    (effect : FieldEffect settings st key v st') (keyed : WellKeyed st.filter) :
    WellKeyed st'.filter := by
  cases effect with
  | set setKey some read =>
    intro other set found
    rw [setAt_putSet] at found
    split_ifs at found with same
    · subst same
      cases found
      exact parse_wellKeyed read (by simpa using some)
    · exact keyed other set found
  | emptySet | emptyKinds | kinds | since | «until» | limit | search => exact fun other => keyed other

theorem Parsed.loop {f : NostrFilter} (parsed : f.Parsed) : ∃ st : Parsing,
    WellKeyed st.filter ∧ Ordered st.filter ∧ f.ids = st.filter.ids ∧ f.authors = st.filter.authors ∧
      f.andTags = st.filter.andTags := by
  obtain ⟨settings, filterObj, run⟩ := parsed
  cases filterObj with
  | object fields =>
    simp only [parse, finish, bind_eq_ok, ensure_eq_ok, pure_eq_ok] at run
    obtain ⟨st, loop, _, _, _, _, rfl⟩ := run
    refine ⟨st, ?_, ?_, rfl, rfl, rfl⟩
    · refine foldlM_preserves (fun st : Parsing => WellKeyed st.filter) ?_ ?_ loop
      · intro _ _ _ _ kept step
        obtain ⟨_, _, effect⟩ := parseField_effect step
        exact effect.wellKeyed kept
      · intro key set found
        cases key <;> cases found
    · refine foldlM_preserves (fun st : Parsing => Ordered st.filter) ?_ ?_ loop
      · intro _ _ _ _ kept step
        obtain ⟨_, _, effect⟩ := parseField_effect step
        exact effect.ordered kept
      · exact ⟨List.Pairwise.nil, List.Pairwise.nil⟩
  | _ => cases run

variable {f : NostrFilter} {set : FilterSetBytes}

theorem Parsed.ids_size (parsed : f.Parsed) (found : f.ids = some set) :
    ∀ item ∈ set.items, item.length = 32 := by
  obtain ⟨st, keyed, _, same, _, _⟩ := parsed.loop
  exact (keyed .ids set (same.symm.trans found)).2 (.inl rfl)

theorem Parsed.authors_size (parsed : f.Parsed) (found : f.authors = some set) :
    ∀ item ∈ set.items, item.length = 32 := by
  obtain ⟨st, keyed, _, _, same, _⟩ := parsed.loop
  exact (keyed .authors set (same.symm.trans found)).2 (.inr rfl)

theorem Parsed.andTags_nonempty (parsed : f.Parsed) {letter : Byte}
    (listed : (letter, set) ∈ f.andTags) : set.items ≠ [] := by
  obtain ⟨st, keyed, ordered, _, _, same⟩ := parsed.loop
  rw [same] at listed
  exact (keyed (.allOf letter) set ((lookup_eq_some ordered.2).mpr listed)).1

end NostrFilter

/-! ### The open group -/

/-- The group of the filter without conditions. -/
def openGroup : NostrFilterGroup :=
  ((NostrFilterGroup.fromValue ⟨zeroHost, fun _ => .error [], 500, 8, 16⟩ (.object [])).toOption).getD
    .default

end Wok.Query
