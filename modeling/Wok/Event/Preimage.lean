/-
**Id preimages.**

The id of an event hashes the text of its five signed fields, written with one of two escapings.
Parsing undoes both writers, so equal texts come from equal fields, also across the escapings. The
two texts of one event differ only where `U+007F` occurs, so checking the legacy text only then
leaves no id out.

* `writeJson_tao` — a NIP-01 text without `U+007F` is the legacy text.
* `verifyIdAllowingLegacy_iff` — an id is accepted when it hashes either text.
* `preimages_faithful` — **the texts determine the event, and both are accepted.**
-/

import Wok.Event.Accepted

namespace Wok.Event

open Wok.Library List

/-! ### The two escapings -/

variable {v : Value}

theorem mem_commaSep {items : List Bytes} {item : Bytes} (member : item ∈ items) {c : Byte}
    (inside : c ∈ item) : c ∈ commaSep items := by
  fun_induction commaSep items with
  | case1 => cases member
  | case2 only =>
    rw [mem_singleton] at member
    exact member ▸ inside
  | case3 first next items ih =>
    rw [mem_append, mem_cons]
    rcases mem_cons.mp member with rfl | later
    · exact .inl inside
    · exact .inr (.inr (ih later))

theorem escapeByte_tao {b : Byte} (other : b ≠ 127) : escapeByte .tao b = escapeByte .nip01 b := by
  simp [escapeByte, other]

theorem writeString_tao {s : Text} (absent : (127 : Byte) ∉ writeString .nip01 s) :
    writeString .tao s = writeString .nip01 s := by
  unfold writeString at absent ⊢
  congr 2
  refine flatMap_congr fun b member => escapeByte_tao ?_
  rintro rfl
  have inside : (127 : Byte) ∈ s.bytes.flatMap (escapeByte .nip01) :=
    mem_flatMap.mpr ⟨127, member, by decide⟩
  exact absent (mem_append_left _ (.tail _ inside))

theorem writeItems_eq_map (escaping : Escaping) (items : List Value) :
    writeItems escaping items = items.map (writeJson escaping) := by
  induction items with
  | nil => rfl
  | cons item items ih => rw [writeItems, ih, map_cons]

/-- **A NIP-01 text without `U+007F` is the legacy text.** -/
theorem writeJson_tao (absent : (127 : Byte) ∉ writeJson .nip01 v) :
    writeJson .tao v = writeJson .nip01 v := by
  induction v using Value.induct with
  | null => rfl
  | bool b => rfl
  | int i => rfl
  | float text => rfl
  | string s => exact writeString_tao absent
  | array items ih =>
    rw [writeJson] at absent ⊢
    have same : writeItems .tao items = writeItems .nip01 items := by
      rw [writeItems_eq_map, writeItems_eq_map]
      refine map_congr_left fun item member => ih item member fun inside => absent ?_
      have listed : writeJson .nip01 item ∈ writeItems .nip01 items := by
        rw [writeItems_eq_map]
        exact mem_map_of_mem member
      exact mem_append_left _ (.tail _ (mem_commaSep listed inside))
    rw [same, writeJson]
  | object fields ih =>
    rw [writeJson] at absent ⊢
    -- every field stands between the braces
    have inner : ∀ field ∈ writeFields .nip01 fields, ∀ c ∈ writeString .nip01 field.1 ++ 58 :: field.2,
        c ≠ 127 := by
      rintro field member c inside rfl
      have sorted : field ∈ sortFields (writeFields .nip01 fields) :=
        (mem_insertionSort _).mpr member
      exact absent (mem_append_left _ (mem_cons_of_mem _
        (mem_commaSep (mem_map_of_mem sorted) inside)))
    have same : writeFields .tao fields = writeFields .nip01 fields := by
      rw [writeFields_eq_map, writeFields_eq_map]
      refine map_congr_left fun field member => congrArg _ (ih field member fun inside => ?_)
      have listed : (field.1, writeJson .nip01 field.2) ∈ writeFields .nip01 fields := by
        rw [writeFields_eq_map]
        exact mem_map.mpr ⟨field, member, rfl⟩
      exact inner _ listed 127 (mem_append_right _ (.tail _ inside)) rfl
    rw [same, writeJson]
    congr 3
    refine map_congr_left fun field member => ?_
    rw [writeString_tao fun inside => ?_]
    exact inner field ((mem_insertionSort _).mp member) 127 (mem_append_left _ inside) rfl

/-! ### The two texts of an event -/

/-- A field that is there. -/
def fieldOf (v : Value) (key : String) : Value := (v.get key).getD .null

/-- The text of the five signed fields. -/
def preimageText (escaping : Escaping) (v : Value) : Bytes :=
  ascii "[0" ++ (preimageKeys.map fun key => 44 :: writeJson escaping (fieldOf v key)).flatten ++
    ascii "]"

theorem mapM_field (escaping : Escaping) {keys : List String}
    (full : ∀ key ∈ keys, (v.get key).isSome = true) :
    keys.mapM (fun key => (field v key).map fun w => 44 :: writeJson escaping w)
      = .ok (keys.map fun key => 44 :: writeJson escaping (fieldOf v key)) := by
  induction keys with
  | nil => rfl
  | cons key keys ih =>
    obtain ⟨first, rest⟩ := forall_mem_cons.mp full
    obtain ⟨w, found⟩ := Option.isSome_iff_exists.mp first
    have present : fieldOf v key = w := by
      unfold fieldOf
      rw [found]
      rfl
    rw [mapM_cons, ih rest, map_cons, present, field, found]
    rfl

theorem idPreimage_eq (escaping : Escaping) (full : ∀ key ∈ preimageKeys, (v.get key).isSome = true) :
    idPreimage v escaping = .ok (preimageText escaping v) := by
  rw [idPreimage, mapM_field escaping full]
  rfl

/-- The two texts are one where `U+007F` does not occur. -/
theorem preimageText_tao (absent : (127 : Byte) ∉ preimageText .nip01 v) :
    preimageText .tao v = preimageText .nip01 v := by
  unfold preimageText at absent ⊢
  congr 3
  refine map_congr_left fun key member => congrArg _ (writeJson_tao fun inside => absent ?_)
  refine mem_append_left _ (mem_append_right _ (mem_flatten.mpr ?_))
  exact ⟨_, mem_map_of_mem member, mem_cons_of_mem _ inside⟩

/-- **An id is accepted when it is the hash of either text.** -/
theorem verifyIdAllowingLegacy_iff {host : Host} {id : Bytes}
    (full : ∀ key ∈ preimageKeys, (v.get key).isSome = true) :
    verifyIdAllowingLegacy host v id = .ok () ↔
      ∃ escaping, host.sha256 (preimageText escaping v) = id := by
  unfold verifyIdAllowingLegacy
  rw [idPreimage_eq .nip01 full, idPreimage_eq .tao full]
  simp only [ok_bind]
  split_ifs with same
  · exact ⟨fun _ => ⟨.nip01, same⟩, fun _ => rfl⟩
  · simp only [bind_eq_ok, ensure_eq_ok]
    constructor
    · rintro ⟨_, _, legacy⟩
      exact ⟨.tao, legacy⟩
    · rintro ⟨escaping, hashed⟩
      cases escaping with
      | nip01 => exact absurd hashed same
      | tao =>
        refine ⟨(), ?_, hashed⟩
        by_contra absent
        rw [preimageText_tao absent] at hashed
        exact same hashed

theorem fields_of_preimage (host : Host) {limits limits' : EventLimits} {w : Value}
    {packed packed' : PackedEvent × Nat} (accepted : packEvent host limits v = .ok packed)
    (accepted' : packEvent host limits' w = .ok packed') {first second : Escaping} {text : Bytes}
    (hashed : idPreimage v first = .ok text) (hashed' : idPreimage w second = .ok text) :
    ∀ key ∈ preimageKeys, v.get key = w.get key := by
  obtain ⟨f, reads, _⟩ := packEvent_reads accepted
  obtain ⟨g, reads', _⟩ := packEvent_reads accepted'
  rw [reads.idPreimage] at hashed
  rw [reads'.idPreimage] at hashed'
  have texts := (Except.ok.inj hashed).trans (Except.ok.inj hashed').symm
  have values := writeJson_inj host f.signed_plain f.signed_height g.signed_plain g.signed_height
    texts
  obtain ⟨pubkey, created, kind, tags, content⟩ := Fields.signed_inj values
  simp only [preimageKeys, forall_mem_cons, not_mem_nil, false_implies, implies_true,
    and_true, reads.pubkey, reads'.pubkey, reads.createdAt, reads'.createdAt, reads.kind,
    reads'.kind, reads.tags, reads'.tags, reads.content, reads'.content, pubkey, created, kind,
    tags, content, u64Value]

/-- **The texts determine the event, and both are accepted**: parsing undoes both writers, equal
preimages of packed events come from equal fields, and an id is accepted exactly when it is the
hash of one of the two preimages. -/
theorem preimages_faithful (host : Host) :
    (∀ escaping (v : Value), v.Plain → v.height ≤ 128 →
      parseStrict host (writeJson escaping v) = .ok v) ∧
    (∀ limits limits' v w packed packed' first second text,
      packEvent host limits v = .ok packed → packEvent host limits' w = .ok packed' →
      idPreimage v first = .ok text → idPreimage w second = .ok text →
      ∀ key ∈ preimageKeys, v.get key = w.get key) ∧
    ∀ (v : Value) id, (∀ key ∈ preimageKeys, (v.get key).isSome = true) →
      (verifyIdAllowingLegacy host v id = .ok () ↔
        ∃ escaping text, idPreimage v escaping = .ok text ∧ host.sha256 text = id) := by
  refine ⟨fun escaping v plain shallow => parseStrict_writeJson host escaping plain shallow,
    fun _ _ _ _ _ _ _ _ _ accepted accepted' => fields_of_preimage host accepted accepted',
    fun v id full => ?_⟩
  rw [verifyIdAllowingLegacy_iff full]
  refine exists_congr fun escaping => ?_
  rw [idPreimage_eq escaping full]
  simp

theorem zeroId_length : (List.replicate 32 (0 : Byte)).length = 32 := rfl

theorem epoch_lt : 0 < 2 ^ 64 := by decide

theorem noteKind_le : 1 ≤ 65535 := by decide

/-- A note with this content. -/
def noteOf (content : Text) : Fields :=
  ⟨List.replicate 32 0, List.replicate 32 0, 0, 1, [], content, zeroId_length, zeroId_length, epoch_lt,
    noteKind_le⟩

theorem utf8Valid_delete : utf8Valid [127] = true := rfl

theorem preimages_faithful_deleteEvent :
    let deleted := (noteOf ⟨[127], utf8Valid_delete⟩).stored []
    let note := (noteOf ⟨[], utf8Valid_nil⟩).stored
    parseStrict zeroHost (writeJson .tao deleted) = .ok deleted ∧
      (∀ key ∈ preimageKeys, (note [0]).get key = (note [1]).get key) ∧
      verifyIdAllowingLegacy zeroHost deleted (List.replicate 32 0) = .ok () := by
  obtain ⟨back, equal, accepted⟩ := preimages_faithful zeroHost
  refine ⟨back .tao _ (Fields.stored_plain _ _) (by decide),
    equal .unlimited .unlimited _ _ _ _ .nip01 .tao _ rfl rfl rfl rfl, ?_⟩
  refine (accepted _ _ ?_).mpr ⟨.tao, _, rfl, rfl⟩
  simp only [preimageKeys, forall_mem_cons, not_mem_nil, false_implies, implies_true,
    and_true]
  decide

end Wok.Event
