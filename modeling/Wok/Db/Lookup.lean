/-
**What the writer finds in exact tables.**

With exact index tables the lookups of the writer answer questions about the stored events: an id
lookup finds the event with the id, the replacement index lists the versions of an address, and
the tombstone check sees the last entry of the address in the byte order of the table.

* `lookupEventById_eq` — the event with an id, or none.
* `deletionExists_iff` — a stored request names the id.
* `foreachReplacement_eq` — **the versions under a key are visited, and the visit never fails.**
* `tombstoneCovers_eq` — **the check reads the tombstone with the greatest timestamp bytes.**
-/

import Wok.Db.Session

namespace Wok.Db

open Wok.Library Wok.Event List

/-! ### Keys of an event -/

section Posts

variable {idx : EventIndices} {key : Bytes}

theorem posts_of_mem {d : Nat} {keys : List Bytes} (member : (d, keys) ∈ idx.tables) :
    idx.Posts d key ↔ key ∈ keys := by
  have apart : (idx.tables.map Prod.fst).Nodup := by
    show [Dbis.eventCreatedAt, Dbis.eventDeletion, Dbis.eventExpiration, Dbis.eventId,
      Dbis.eventKind, Dbis.eventPubkey, Dbis.eventPubkeyKind, Dbis.eventReplace,
      Dbis.eventReplaceDeletion, Dbis.eventTag].Nodup
    decide
  constructor
  · rintro ⟨t, inside, same, posted⟩
    have keysOf : t.2 = keys := congrArg Prod.snd (inj_on_of_nodup_map apart inside member same)
    exact keysOf ▸ posted
  · exact fun posted => ⟨_, member, rfl, posted⟩

theorem posts_id : idx.Posts Dbis.eventId key ↔ key ∈ idx.id.toList :=
  posts_of_mem (by simp [EventIndices.tables])

theorem posts_pubkey : idx.Posts Dbis.eventPubkey key ↔ key ∈ idx.pubkey.toList :=
  posts_of_mem (by simp [EventIndices.tables])

theorem posts_deletion : idx.Posts Dbis.eventDeletion key ↔ key ∈ idx.deletion :=
  posts_of_mem (by simp [EventIndices.tables])

theorem posts_replace : idx.Posts Dbis.eventReplace key ↔ key ∈ idx.replace :=
  posts_of_mem (by simp [EventIndices.tables])

theorem posts_kind : idx.Posts Dbis.eventKind key ↔ key ∈ idx.kind.toList :=
  posts_of_mem (by simp [EventIndices.tables])

theorem posts_expiration : idx.Posts Dbis.eventExpiration key
    ↔ key ∈ idx.expiration.map u64NeBytes := posts_of_mem (by simp [EventIndices.tables])

theorem posts_replaceDeletion : idx.Posts Dbis.eventReplaceDeletion key
    ↔ key ∈ idx.replaceDeletion ++ idx.canonicalReplaceDeletion :=
  posts_of_mem (by simp [EventIndices.tables])

end Posts

/-! ### The order of entries -/

variable {n dbi n' : Nat} {e e' : Kv} {s s' : Bytes} {kind kind' created created' : Nat}

theorem u64FromNe_u64NeBytes (small : n < 2 ^ 64) : u64FromNe (u64NeBytes n) = n := by
  rw [u64FromNe, take_of_length_le (by simp [u64NeBytes]), u64NeBytes, leVal_leBytes small]

theorem entry_le_iff : entryCode dbi e ≤ entryCode dbi e' ↔ cmpEntry dbi e e' ≠ .gt := by
  rw [cmpEntry_eq, cmp_ne_gt_iff]

theorem ordering_then_ne_gt {a b : Ordering} (le : a.then b ≠ .gt) : a ≠ .gt := by
  rintro rfl
  exact le rfl

theorem cmpKey_of_entry_le (le : entryCode dbi e ≤ entryCode dbi e') :
    cmpKey dbi e.1 e'.1 ≠ .gt := ordering_then_ne_gt (entry_le_iff.mp le)

theorem key_le_of_entry_le (plain : (spec dbi).comparator = .default)
    (bytes : (spec dbi).flags.integerKey = false) (forward : (spec dbi).flags.reverseKey = false)
    (le : entryCode dbi e ≤ entryCode dbi e') : e.1 ≤ e'.1 := by
  have order := cmpKey_of_entry_le le
  simp only [cmpKey, plain, bytes, forward, Bool.false_eq_true, if_false, cmpMemn_eq] at order
  exact cmp_ne_gt_iff.mp order

theorem take_string (s : Bytes) (n : Nat) :
    (makeKeyStringU64 s n).take ((makeKeyStringU64 s n).length - 8) = s := by
  simp [makeKeyStringU64, u64NeBytes]

theorem drop_string (s : Bytes) (n : Nat) :
    (makeKeyStringU64 s n).drop ((makeKeyStringU64 s n).length - 8) = u64NeBytes n := by
  simp [makeKeyStringU64, u64NeBytes]

theorem parseKeyStringU64_make (s : Bytes) (small : n < 2 ^ 64) :
    parseKeyStringU64 (makeKeyStringU64 s n) = .ok (s, n) := by
  have long : ¬ (makeKeyStringU64 s n).length < 8 := by simp [makeKeyStringU64, u64NeBytes]
  rw [parseKeyStringU64, if_neg long, take_string, drop_string, u64FromNe_u64NeBytes small]

theorem makeKeyStringU64_inj (same : makeKeyStringU64 s n = makeKeyStringU64 s' n') :
    s = s' ∧ u64NeBytes n = u64NeBytes n' :=
  append_inj' same (by simp [u64NeBytes])

/-- A string of the same length begins a key that is made of it. -/
theorem isPrefixOf_makeKey (length : s'.length = s.length) :
    s.isPrefixOf (makeKeyStringU64 s' n) = true ↔ s' = s := by
  refine isPrefixOf_iff_prefix.trans ⟨?_, ?_⟩
  · intro begins
    have inner := prefix_of_prefix_length_le (prefix_append s' _) begins length.le
    exact inner.eq_of_length length
  · rintro rfl
    exact prefix_append _ _

theorem cmpKey_string (composite : (spec dbi).comparator = .stringUint64) (s s' : Bytes)
    (small : n < 2 ^ 64) (small' : n' < 2 ^ 64) :
    cmpKey dbi (makeKeyStringU64 s n) (makeKeyStringU64 s' n')
      = (cmp s s').then (cmp n n') := by
  have long : ∀ (s : Bytes) (n : Nat), decide (8 ≤ (makeKeyStringU64 s n).length) = true := by
    simp [makeKeyStringU64, u64NeBytes]
  simp only [cmpKey, composite, cmpStringU64, long, take_string, drop_string, cmpMemn_eq,
    u64FromNe_u64NeBytes small, u64FromNe_u64NeBytes small']
  cases cmp s s' <;> rfl

theorem cmpDup_u64 (dups : (spec dbi).flags.dupSort = true)
    (ints : (spec dbi).flags.integerDup = true) (small : n < 2 ^ 64) (small' : n' < 2 ^ 64) :
    cmpDup dbi (u64NeBytes n) (u64NeBytes n') = cmp n n' := by
  rw [cmpDup, if_pos dups, if_pos ints,
    cmpInteger_of_length (by simp [u64NeBytes]) (by simp [u64NeBytes]),
    u64FromNe_u64NeBytes small, u64FromNe_u64NeBytes small']

/-- Keys of a string and a number are ordered by the string first. -/
theorem string_le_of_entry_le (composite : (spec dbi).comparator = .stringUint64)
    (small : n < 2 ^ 64) (small' : n' < 2 ^ 64) {v v' : Bytes}
    (le : entryCode dbi (makeKeyStringU64 s n, v) ≤ entryCode dbi (makeKeyStringU64 s' n', v')) :
    s ≤ s' := by
  have order := cmpKey_of_entry_le le
  rw [cmpKey_string composite s s' small small'] at order
  exact cmp_ne_gt_iff.mp (ordering_then_ne_gt order)

theorem cmpKey_kind (small : kind < 2 ^ 64) (small' : kind' < 2 ^ 64)
    (createdSmall : created < 2 ^ 64) (createdSmall' : created' < 2 ^ 64) :
    cmpKey Dbis.eventKind (makeKeyU64U64 kind created) (makeKeyU64U64 kind' created')
      = (cmp kind kind').then (cmp created created') := by
  have long : ∀ a b, decide ((makeKeyU64U64 a b).length = 16) = true := by
    simp [makeKeyU64U64, u64NeBytes]
  have first : ∀ {a} b, a < 2 ^ 64 → u64FromNe (makeKeyU64U64 a b) = a := by
    intro a b low
    rw [u64FromNe, makeKeyU64U64, take_left' (by simp [u64NeBytes]), u64NeBytes,
      leVal_leBytes low]
  have second : ∀ a {b}, b < 2 ^ 64 → u64FromNe ((makeKeyU64U64 a b).drop 8) = b := by
    intro a b low
    rw [makeKeyU64U64, drop_left' (by simp [u64NeBytes]), u64FromNe_u64NeBytes low]
  have composite : (spec Dbis.eventKind).comparator = .uint64Uint64 := rfl
  simp only [cmpKey, composite, cmpU64U64, long, first _ small, first _ small',
    second _ createdSmall, second _ createdSmall']
  cases cmp kind kind' <;> rfl

theorem makeKeyU64U64_ne_nil (a b : Nat) : makeKeyU64U64 a b ≠ [] := by
  intro empty
  have length := congrArg List.length empty
  simp [makeKeyU64U64, u64NeBytes] at length

/-- Entries of the kind index are ordered by kind first. -/
theorem kind_le_of_entry_le (small : kind < 2 ^ 64) (small' : kind' < 2 ^ 64)
    (createdSmall : created < 2 ^ 64) (createdSmall' : created' < 2 ^ 64) {v v' : Bytes}
    (le : entryCode Dbis.eventKind (makeKeyU64U64 kind created, v)
      ≤ entryCode Dbis.eventKind (makeKeyU64U64 kind' created', v')) : kind ≤ kind' := by
  have order := cmpKey_of_entry_le le
  rw [cmpKey_kind small small' createdSmall createdSmall'] at order
  exact cmp_ne_gt_iff.mp (ordering_then_ne_gt order)

/-! ### Lookups by id -/

section Lookups

variable {host : Host} {txn : RwTxn}
variable {e : Kv}

theorem u64FromNeChecked_ok {n : Nat} (small : n < 2 ^ 64) :
    u64FromNeChecked (u64NeBytes n) = .ok n := by
  rw [u64FromNeChecked, if_neg (by simp [u64NeBytes]), u64FromNe_u64NeBytes small]

theorem makeKey_ne_nil (s : Bytes) (n : Nat) : makeKeyStringU64 s n ≠ [] := by
  intro empty
  have length := congrArg List.length empty
  simp [makeKeyStringU64, u64NeBytes] at length

theorem u64NeBytes_ne_nil (n : Nat) : u64NeBytes n ≠ [] := by
  intro empty
  have length := congrArg List.length empty
  simp [u64NeBytes] at length

/-- An entry of the id index is the id and time of a stored event. -/
theorem Exact.mem_eventId (exact : Exact host txn.tables) :
    e ∈ txn.tables.rows Dbis.eventId ↔ ∃ lev p, Holds txn.tables lev p ∧
      e = (makeKeyStringU64 p.id p.createdAt, u64NeBytes lev) := by
  rw [exact.index _ (by decide)]
  simp only [posts_id, indexEvent, Option.toList_some, mem_singleton, Prod.ext_iff]

/-- An entry of the kind index is the kind and time of a stored event. -/
theorem Exact.mem_eventKind {t : Tables} (exact : Exact host t) :
    e ∈ t.rows Dbis.eventKind ↔ ∃ lev p, Holds t lev p ∧
      e = (makeKeyU64U64 p.kind p.createdAt, u64NeBytes lev) := by
  rw [exact.index _ (by decide)]
  simp only [posts_kind, indexEvent, Option.toList_some, mem_singleton, Prod.ext_iff]

theorem cmp_zero_then (m n : Nat) : ((cmp 0 m).then (cmp 0 n)) ≠ .gt := by
  rcases Nat.eq_zero_or_pos m with rfl | positive
  · exact cmp_ne_gt_iff.mpr (Nat.zero_le n)
  · rw [positive.cmp_eq_lt]
    exact nofun

/-- **The event with an id**, or none. -/
theorem lookupEventById_eq (exact : Exact host txn.tables) {id : Bytes} (length : id.length = 32) :
    (∃ lev p, Holds txn.tables lev p ∧ p.id = id ∧
      lookupEventById txn id = .ok (some (lev, p.buf))) ∨
    (∀ lev p, Holds txn.tables lev p → p.id ≠ id) ∧ lookupEventById txn id = .ok none := by
  have side : ∀ {s : Bytes} {n : Nat} {v : Bytes},
      View.onSide Dbis.eventId (makeKeyStringU64 id 0) (u64NeBytes 0) false
        (makeKeyStringU64 s n, v) = true ↔ entryCode Dbis.eventId
          (makeKeyStringU64 id 0, u64NeBytes 0) ≤ entryCode Dbis.eventId (makeKeyStringU64 s n, v) :=
    Tables.onSide_pair (by decide) (makeKey_ne_nil _ _) (u64NeBytes_ne_nil _)
  -- An entry with the id lies on the side the scan visits.
  have visited : ∀ lev p, Holds txn.tables lev p → p.id = id →
      View.onSide Dbis.eventId (makeKeyStringU64 id 0) (u64NeBytes 0) false
        (makeKeyStringU64 p.id p.createdAt, u64NeBytes lev) = true := by
    rintro lev p stored rfl
    rw [side, entry_le_iff, cmpEntry, cmpKey_string rfl _ _ (Nat.two_pow_pos 64) p.createdAt_lt,
      cmpDup_u64 rfl rfl (Nat.two_pow_pos 64) stored.1, cmp_self_eq_eq]
    exact cmp_zero_then _ _
  unfold lookupEventById
  cases first : (txn.tables.scan Dbis.eventId (makeKeyStringU64 id 0) (u64NeBytes 0) false).head? with
  | none =>
    refine .inr ⟨fun lev p stored same => ?_, rfl⟩
    have member := Tables.mem_scan.mpr
      ⟨exact.mem_eventId.mpr ⟨lev, p, stored, rfl⟩, visited lev p stored same⟩
    rw [head?_eq_none_iff.mp first] at member
    cases member
  | some e =>
    obtain ⟨inside, after⟩ := Tables.mem_scan.mp (mem_of_head? first)
    obtain ⟨lev, p, stored, rfl⟩ := exact.mem_eventId.mp inside
    have starts := isPrefixOf_makeKey (n := p.createdAt) (p.id_length.trans length.symm)
    by_cases same : p.id = id
    · refine .inl ⟨lev, p, stored, same, ?_⟩
      simp only [if_pos (starts.mpr same), u64FromNeChecked_ok stored.1, ok_bind, stored.get]
      rfl
    · refine .inr ⟨fun n q held equal => ?_, by simp only [if_neg fun yes => same (starts.mp yes)]⟩
      -- The first entry lies between the start and the entry with the id.
      have before := Tables.least_of_head? first
        (exact.mem_eventId.mpr ⟨n, q, held, rfl⟩) (visited n q held equal)
      have high := string_le_of_entry_le rfl p.createdAt_lt q.createdAt_lt before
      have low := string_le_of_entry_le rfl (Nat.two_pow_pos 64) p.createdAt_lt (side.mp after)
      exact same (le_antisymm (equal ▸ high) low)

/-- **A stored request of the author names the id.** -/
theorem deletionExists_iff (exact : Exact host txn.tables) {id pubkey : Bytes}
    (length : pubkey.length = 32) : deletionExists txn id pubkey = true
      ↔ ∃ lev p, Holds txn.tables lev p ∧ id ∈ deletionTags p 101 ∧ p.pubkey = pubkey := by
  unfold deletionExists RwTxn.get
  rw [Tables.get_isSome]
  simp only [exact.index Dbis.eventDeletion (by decide), posts_deletion, indexEvent, mem_map]
  constructor
  · rintro ⟨value, lev, p, stored, ⟨named, inside, same⟩, _⟩
    obtain ⟨rfl, rfl⟩ := append_inj' same (by rw [p.pubkey_length, length])
    exact ⟨lev, p, stored, inside, rfl⟩
  · rintro ⟨lev, p, stored, inside, rfl⟩
    exact ⟨u64NeBytes lev, lev, p, stored, ⟨id, inside, rfl⟩, rfl⟩

/-! ### The versions of an address -/

variable {key : Bytes}

/-- Hands versions to `f` until it returns `false`. -/
def foldVersions {α : Type} (f : α → Nat → PackedEvent → α × Bool) :
    List (Nat × PackedEvent) → α → α
  | [], state => state
  | v :: rest, state =>
    if (f state v.1 v.2).2 then foldVersions f rest (f state v.1 v.2).1 else (f state v.1 v.2).1

theorem visitReplacements_eq {α : Type} {f : α → Nat → PackedEvent → α × Bool}
    {versions : List (Nat × PackedEvent)} (stored : ∀ v ∈ versions, Holds txn.tables v.1 v.2)
    (state : α) : visitReplacements txn f (versions.map fun v => (key, u64NeBytes v.1)) state
      = .ok (foldVersions f versions state) := by
  induction versions generalizing state with
  | nil => rfl
  | cons v versions ih =>
    have here := stored v (.head _)
    rw [map_cons, visitReplacements, u64FromNeChecked_ok here.1, ok_bind, here.get, okOr_some,
      ok_bind, viewPacked_buf, ok_bind, foldVersions]
    simp only []
    split_ifs
    · exact ih (fun u member => stored u (.tail v member)) _
    · rfl

theorem exists_map_of_forall_mem {α β : Type} {g : α → β} {R : α → Prop} {l : List β}
    (all : ∀ b ∈ l, ∃ a, R a ∧ b = g a) : ∃ l' : List α, l = l'.map g ∧ ∀ a ∈ l', R a := by
  induction l with
  | nil => exact ⟨[], rfl, by simp⟩
  | cons b l ih =>
    obtain ⟨a, holds, rfl⟩ := all b (.head _)
    obtain ⟨l', rfl, rest⟩ := ih fun c member => all c (.tail _ member)
    refine ⟨a :: l', rfl, fun c member => ?_⟩
    rcases mem_cons.mp member with rfl | inside
    · exact holds
    · exact rest c inside

theorem mem_replacements (filled : key ≠ []) :
    e ∈ (txn.tables.scan Dbis.eventReplace key (u64NeBytes (2 ^ 64 - 1)) true).takeWhile
        (fun e => e.1 = key) ↔ (e ∈ txn.tables.rows Dbis.eventReplace ∧
          View.onSide Dbis.eventReplace key (u64NeBytes (2 ^ 64 - 1)) true e = true) ∧ e.1 = key := by
  have side : ∀ e, View.onSide Dbis.eventReplace key (u64NeBytes (2 ^ 64 - 1)) true e = true
      ↔ entryCode Dbis.eventReplace e
        ≤ entryCode Dbis.eventReplace (key, u64NeBytes (2 ^ 64 - 1)) :=
    fun e => Tables.onSide_pair rfl filled (u64NeBytes_ne_nil _)
  have sorted := Tables.scan_sorted txn.tables Dbis.eventReplace key (u64NeBytes (2 ^ 64 - 1)) true
  rw [mem_takeWhile_of_pairwise sorted, Tables.mem_scan, decide_eq_true_eq]
  -- An entry before one with the key has it too: it lies between the start and that entry.
  intro a member b _ before same
  rw [decide_eq_true_eq] at same ⊢
  have high := key_le_of_entry_le rfl rfl rfl ((side a).mp (Tables.mem_scan.mp member).2)
  have low := key_le_of_entry_le rfl rfl rfl (le_of_lt (show entryCode _ b < entryCode _ a from before))
  exact le_antisymm high (same ▸ low)

theorem onSide_replace (filled : key ≠ []) {lev : Nat} (small : lev < 2 ^ 64) :
    View.onSide Dbis.eventReplace key (u64NeBytes (2 ^ 64 - 1)) true (key, u64NeBytes lev) = true := by
  rw [Tables.onSide_pair rfl filled (u64NeBytes_ne_nil _), if_pos rfl, entry_le_iff, cmpEntry,
    cmpDup_u64 rfl rfl small (by omega)]
  have same : cmpKey Dbis.eventReplace key key = .eq := by
    show cmpMemn key key = .eq
    rw [cmpMemn_eq, cmp_self_eq_eq]
  rw [same]
  exact cmp_ne_gt_iff.mpr (by omega)

/-- **The versions under a key**, which a visit goes through without an error. -/
theorem foreachReplacement_eq (exact : Exact host txn.tables) (filled : key ≠ []) :
    ∃ versions : List (Nat × PackedEvent),
      (∀ lev p, (lev, p) ∈ versions ↔ Holds txn.tables lev p ∧ replaceKey p = some key) ∧
      ∀ (α : Type) (f : α → Nat → PackedEvent → α × Bool) (state : α),
        foreachReplacement txn key f state = .ok (foldVersions f versions state) := by
  have entries : ∀ e, e ∈ (txn.tables.scan Dbis.eventReplace key
      (u64NeBytes (2 ^ 64 - 1)) true).takeWhile (fun e => e.1 = key)
        ↔ ∃ v : Nat × PackedEvent, (Holds txn.tables v.1 v.2 ∧ replaceKey v.2 = some key) ∧
          e = (key, u64NeBytes v.1) := by
    intro e
    rw [mem_replacements filled, exact.index _ (by decide)]
    simp only [posts_replace, indexEvent, Option.mem_toList]
    constructor
    · rintro ⟨⟨⟨lev, p, stored, posted, value⟩, _⟩, rfl⟩
      exact ⟨(lev, p), ⟨stored, posted⟩, Prod.ext rfl value⟩
    · rintro ⟨⟨lev, p⟩, ⟨stored, posted⟩, rfl⟩
      exact ⟨⟨⟨lev, p, stored, posted, rfl⟩, onSide_replace filled stored.1⟩, rfl⟩
  obtain ⟨versions, rows, all⟩ := exists_map_of_forall_mem fun e member => (entries e).mp member
  refine ⟨versions, fun lev p => ⟨all (lev, p), fun held => ?_⟩, fun α f state => ?_⟩
  · have member := (entries (key, u64NeBytes lev)).mpr ⟨(lev, p), held, rfl⟩
    rw [rows] at member
    obtain ⟨⟨n, q⟩, inside, same⟩ := mem_map.mp member
    have equal := u64NeBytes_inj (all _ inside).1.1 held.1.1 (congrArg Prod.snd same)
    simp only at equal
    subst equal
    rwa [held.1.unique (all _ inside).1]
  · rw [foreachReplacement, rows]
    exact visitReplacements_eq (fun v member => (all v member).1) state

/-! ### Tombstones of an address -/

/-- A stored request left a tombstone of the address at time `n`. -/
def TombstoneAt (host : Host) (t : Tables) (digest : Bytes) (n : Nat) : Prop :=
  ∃ lev p, Holds t lev p ∧ p.createdAt = n ∧
    (indexEvent host p).Posts Dbis.eventReplaceDeletion (makeKeyStringU64 digest n)

theorem addressTombstones_key {p : PackedEvent} {value : Bytes}
    (member : key ∈ (addressTombstones host p value).1 ∨ key ∈ (addressTombstones host p value).2) :
    ∃ digest, digest.length = 32 ∧ key = makeKeyStringU64 digest p.createdAt := by
  unfold addressTombstones at member
  split at member
  · rename_i digest hashed
    refine ⟨digest, ?_, by simpa using member⟩
    unfold hashedTagValueDigest at hashed
    split at hashed
    · split_ifs at hashed with marked
      exact Option.some.inj hashed ▸ marked.2
    · cases hashed
  · split_ifs at member
    · split at member
      · simp only [] at member
        split_ifs at member <;>
          simp only [not_mem_nil, mem_singleton, or_false, false_or, or_self] at member
        · rcases member with rfl | rfl
          · exact ⟨_, host.sha256_length _, rfl⟩
          · exact ⟨_, host.sha256_length _, rfl⟩
        · exact ⟨_, host.sha256_length _, member⟩
        · exact ⟨_, host.sha256_length _, member⟩
      · simp at member
    · simp at member

/-- Every entry of the table is a digest and the time of the request. -/
theorem posts_tombstone {p : PackedEvent}
    (posts : (indexEvent host p).Posts Dbis.eventReplaceDeletion key) :
    ∃ digest, digest.length = 32 ∧ key = makeKeyStringU64 digest p.createdAt := by
  rw [posts_replaceDeletion, mem_append] at posts
  simp only [indexEvent, mem_flatMap] at posts
  rcases posts with ⟨value, _, member⟩ | ⟨value, _, member⟩
  · exact addressTombstones_key (.inl member)
  · exact addressTombstones_key (.inr member)

theorem u64NeBytes_le_max (n : Nat) : u64NeBytes n ≤ u64NeBytes (2 ^ 64 - 1) := by
  have greatest : beVal (u64NeBytes (2 ^ 64 - 1)) = 256 ^ 8 - 1 := by decide
  have bound := beVal_lt (u64NeBytes n)
  rw [show (u64NeBytes n).length = 8 by simp [u64NeBytes]] at bound
  refine not_lt.mp fun less => ?_
  rw [lt_iff_beVal_lt (by simp [u64NeBytes]), greatest] at less
  omega

/-- A tombstone of the address lies on the side the check visits. -/
theorem onSide_tombstone (digest : Bytes) (n : Nat) {lev : Nat} (small : lev < 2 ^ 64) :
    View.onSide Dbis.eventReplaceDeletion (makeKeyStringU64 digest (2 ^ 64 - 1))
      (u64NeBytes (2 ^ 64 - 1)) true (makeKeyStringU64 digest n, u64NeBytes lev) = true := by
  rw [Tables.onSide_pair rfl (makeKey_ne_nil _ _) (u64NeBytes_ne_nil _), if_pos rfl, entry_le_iff,
    cmpEntry, cmpDup_u64 rfl rfl small (by omega)]
  have order : cmpKey Dbis.eventReplaceDeletion (makeKeyStringU64 digest n)
      (makeKeyStringU64 digest (2 ^ 64 - 1)) = cmp (u64NeBytes n) (u64NeBytes (2 ^ 64 - 1)) := by
    show cmpMemn _ _ = _
    rw [cmpMemn_eq]
    exact cmp_append_same digest _ _
  have dups : cmp lev (2 ^ 64 - 1) ≠ .gt := cmp_ne_gt_iff.mpr (by omega)
  have keys : cmp (u64NeBytes n) (u64NeBytes (2 ^ 64 - 1)) ≠ .gt :=
    cmp_ne_gt_iff.mpr (u64NeBytes_le_max n)
  rw [order]
  cases compared : cmp (u64NeBytes n) (u64NeBytes (2 ^ 64 - 1)) with
  | lt => simp
  | eq => exact dups
  | gt => exact absurd compared keys

/-- **The check reads the tombstone whose timestamp has the greatest bytes**, little end first. -/
theorem tombstoneCovers_eq (exact : Exact host txn.tables) {digest : Bytes}
    (length : digest.length = 32) (createdAt : Nat) :
    ∃ found, tombstoneCovers txn digest createdAt = .ok found ∧
      (found = true ↔ ∃ n, TombstoneAt host txn.tables digest n ∧
        (∀ m, TombstoneAt host txn.tables digest m → u64NeBytes m ≤ u64NeBytes n) ∧
        createdAt ≤ n) := by
  have entry : ∀ {n}, TombstoneAt host txn.tables digest n → ∃ lev < 2 ^ 64,
      (makeKeyStringU64 digest n, u64NeBytes lev) ∈ txn.tables.rows Dbis.eventReplaceDeletion := by
    rintro n ⟨lev, p, stored, _, posts⟩
    exact ⟨lev, stored.1, (exact.index _ (by decide) _).mpr ⟨lev, p, stored, posts, rfl⟩⟩
  have small : ∀ {n}, TombstoneAt host txn.tables digest n → n < 2 ^ 64 := by
    rintro n ⟨lev, p, _, rfl, _⟩
    exact p.createdAt_lt
  unfold tombstoneCovers
  cases first : (txn.tables.scan Dbis.eventReplaceDeletion (makeKeyStringU64 digest (2 ^ 64 - 1))
      (u64NeBytes (2 ^ 64 - 1)) true).head? with
  | none =>
    refine ⟨false, rfl, by simp, ?_⟩
    rintro ⟨n, tombstone, _⟩
    obtain ⟨lev, small, member⟩ := entry tombstone
    have visited := Tables.mem_scan.mpr ⟨member, onSide_tombstone digest n small⟩
    rw [head?_eq_none_iff.mp first] at visited
    cases visited
  | some e =>
    obtain ⟨inside, after⟩ := Tables.mem_scan.mp (mem_of_head? first)
    obtain ⟨lev, p, stored, posts, value⟩ := (exact.index _ (by decide) e).mp inside
    obtain ⟨d, dLength, key⟩ := posts_tombstone posts
    refine ⟨decide (d = digest) && decide (createdAt ≤ p.createdAt), ?_, ?_⟩
    · simp only [key, parseKeyStringU64_make d p.createdAt_lt, ok_bind]
      rfl
    · -- The entry is not before any tombstone of the address.
      have last : ∀ m, TombstoneAt host txn.tables digest m → makeKeyStringU64 digest m ≤ e.1 := by
        intro m tombstone
        obtain ⟨n, small, member⟩ := entry tombstone
        have before := Tables.least_of_head? first member (onSide_tombstone digest m small)
        exact key_le_of_entry_le rfl rfl rfl before
      have bound : e.1 ≤ makeKeyStringU64 digest (2 ^ 64 - 1) := by
        rw [Tables.onSide_pair rfl (makeKey_ne_nil _ _) (u64NeBytes_ne_nil _), if_pos rfl] at after
        exact key_le_of_entry_le rfl rfl rfl after
      have lengths : digest.length = d.length := length.trans dLength.symm
      rw [key] at last bound posts
      simp only [Bool.and_eq_true, decide_eq_true_eq]
      constructor
      · rintro ⟨rfl, late⟩
        exact ⟨p.createdAt, ⟨lev, p, stored, rfl, posts⟩,
          fun m tombstone => (append_le_append_same d).mp (last m tombstone), late⟩
      · rintro ⟨n, tombstone, greatest, late⟩
        have same : d = digest := le_antisymm (le_of_append_le_append lengths.symm bound)
          (le_of_append_le_append lengths (last n tombstone))
        subst same
        have up := greatest p.createdAt ⟨lev, p, stored, rfl, posts⟩
        have down := (append_le_append_same d).mp (last n tombstone)
        have equal := u64NeBytes_inj (small tombstone) p.createdAt_lt (le_antisymm down up)
        exact ⟨rfl, equal ▸ late⟩

end Lookups

end Wok.Db
