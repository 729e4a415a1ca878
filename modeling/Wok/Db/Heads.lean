/-
**The newest two postings of each author.**

A posting of the author index is a 32-byte author with a time, and a local id. An author's head record
holds its newest two postings: the first two rows of a scan that starts after all of them and goes
backwards.

* `decode_encode` — a head record is read back.
* `entryCode_lt_iff` — postings are in order of author, time and local id.
* `scanFold_newest` — **the scan stops with the newest two postings.**
-/

import Wok.Db.Scan
import Wok.Library.Result

namespace Wok.Db

open Wok.Library List

/-! ### Head records -/

/-- Full-width chronological position of an author posting. -/
structure AuthorPosition where
  createdAt : Nat
  localId : Nat
  deriving DecidableEq

namespace AuthorPosition

def encode (self : AuthorPosition) : Bytes := beBytes 8 self.createdAt ++ beBytes 8 self.localId

/-- The order of the derived `Ord`: time, then local id. -/
def Older (p q : AuthorPosition) : Prop :=
  p.createdAt < q.createdAt ∨ p.createdAt = q.createdAt ∧ p.localId < q.localId

instance (p q : AuthorPosition) : Decidable (p.Older q) :=
  inferInstanceAs (Decidable (_ ∨ _))

/-- Both numbers are 64-bit. -/
def Fits (p : AuthorPosition) : Prop := p.createdAt < 256 ^ 8 ∧ p.localId < 256 ^ 8

end AuthorPosition

/-- First candidate and exact second-row resume endpoint for an author. -/
structure AuthorHead where
  first : AuthorPosition
  next : Option AuthorPosition
  deriving DecidableEq

namespace AuthorHead

def position (bytes : Bytes) : AuthorPosition :=
  ⟨beVal (bytes.take 8), beVal ((bytes.drop 8).take 8)⟩

def decode (raw : Bytes) : Except DbError AuthorHead :=
  if raw.length ≠ 16 ∧ raw.length ≠ 32 then
    .error (err "invalid author head: expected 16 or 32 bytes")
  else
    let first := position (raw.take 16)
    let next := if raw.length = 32 then some (position (raw.drop 16)) else none
    if next.any fun next => !decide (next.Older first) then
      .error (err "invalid author head: next position must be strictly older")
    else .ok ⟨first, next⟩

def encode (self : AuthorHead) : Bytes := self.first.encode ++ self.next.elim [] (·.encode)

theorem position_encode {p : AuthorPosition} (fits : p.Fits) (rest : Bytes) :
    position (p.encode ++ rest) = p := by
  have time : (beBytes 8 p.createdAt).length = 8 := by simp
  have id : (beBytes 8 p.localId).length = 8 := by simp
  unfold position AuthorPosition.encode
  rw [append_assoc, take_left' time, drop_left' time, take_left' id,
    beVal_beBytes fits.1, beVal_beBytes fits.2]

/-- **A head record is read back.** -/
theorem decode_encode {head : AuthorHead} (fits : head.first.Fits)
    (fits' : ∀ next ∈ head.next, next.Fits) (older : ∀ next ∈ head.next, next.Older head.first) :
    decode head.encode = .ok head := by
  obtain ⟨first, next⟩ := head
  have length : ∀ p : AuthorPosition, p.encode.length = 16 := by
    intro p
    simp [AuthorPosition.encode]
  have read : position first.encode = first := by simpa using position_encode fits []
  cases next with
  | none =>
    have taken : first.encode.take 16 = first.encode :=
      take_of_length_le (length first).le
    simp [decode, encode, length, taken, read]
  | some next =>
    have read' : position next.encode = next := by simpa using position_encode (fits' next rfl) []
    have less : next.Older first := older next rfl
    have taken : (first.encode ++ next.encode).take 16 = first.encode := take_left' (length first)
    have dropped : (first.encode ++ next.encode).drop 16 = next.encode := drop_left' (length first)
    simp [decode, encode, length, taken, dropped, read, read', less]

end AuthorHead

/-! ### The scan of an author's postings -/

/-- The number of the author index. -/
def authorDbi : Nat := 10

/-- A posting: a 32-byte author with its time, and a local id. -/
def WellFormed (e : Kv) : Prop := e.1.length = 40 ∧ e.2.length = 8

/-- The author of a posting's key. -/
def authorOf (key : Bytes) : Bytes := key.take 32

theorem authorDbi_dupSort : (spec authorDbi).flags.dupSort = true := rfl

/-- What the scan of an author's postings has found. -/
structure HeadScan where
  first : Option AuthorPosition := none
  next : Option AuthorPosition := none
  malformed : Bool := false

/-- The callback of the scan, on the entry `IndexEntry::from_logical` makes of the row. -/
def headStep (author : Bytes) (scan : HeadScan) (key value : Bytes) : HeadScan × Bool :=
  match parseKeyStringU64 key with
  | .error _ => (scan, false)
  | .ok (pre, createdAt) =>
    if pre ≠ author then (scan, false)
    else
      match u64FromNeChecked value with
      | .error _ => ({ scan with malformed := true }, false)
      | .ok localId =>
        if scan.first.isNone then ({ scan with first := some ⟨createdAt, localId⟩ }, true)
        else ({ scan with next := some ⟨createdAt, localId⟩ }, false)

/-! ### The order of postings -/

variable {e f : Kv}

/-- The position of a posting. -/
def positionOf (e : Kv) : AuthorPosition := ⟨u64FromNe (e.1.drop 32), u64FromNe e.2⟩

theorem cmp_then_lt {a b : Nat} {c d : Nat} :
    (cmp a b).then (cmp c d) = .lt ↔ a < b ∨ a = b ∧ c < d := by
  rw [Ordering.then_eq_lt, cmp_eq_lt_iff, cmp_eq_eq_iff, cmp_eq_lt_iff]

/-- Postings are in order of author, time and local id. -/
theorem cmpEntry_posting (left : WellFormed e) (right : WellFormed f) :
    cmpEntry authorDbi e f = (cmp (authorOf e.1) (authorOf f.1)).then
      ((cmp (positionOf e).createdAt (positionOf f).createdAt).then
        (cmp (positionOf e).localId (positionOf f).localId)) := by
  have key : cmpKey authorDbi e.1 f.1 = (cmp (authorOf e.1) (authorOf f.1)).then
      (cmp (positionOf e).createdAt (positionOf f).createdAt) := by
    show cmpStringU64 e.1 f.1 = _
    simp only [cmpStringU64, left.1, right.1, cmpMemn_eq, authorOf, positionOf]
    cases cmp (List.take 32 e.1) (List.take 32 f.1) <;> rfl
  have dup : cmpDup authorDbi e.2 f.2 = cmp (positionOf e).localId (positionOf f).localId :=
    cmpInteger_of_length left.2 right.2
  rw [cmpEntry, key, dup, Ordering.then_assoc]

theorem entryCode_lt_iff (left : WellFormed e) (right : WellFormed f) :
    entryCode authorDbi e < entryCode authorDbi f ↔ authorOf e.1 < authorOf f.1 ∨
      authorOf e.1 = authorOf f.1 ∧ (positionOf e).Older (positionOf f) := by
  rw [← cmp_eq_lt_iff, ← cmpEntry_eq, cmpEntry_posting left right, Ordering.then_eq_lt, cmp_then_lt,
    cmp_eq_lt_iff, cmp_eq_eq_iff]
  rfl

/-- The posting of an author at a position. -/
def entryAt (author : Bytes) (p : AuthorPosition) : Kv :=
  (makeKeyStringU64 author p.createdAt, u64NeBytes p.localId)

section Entries

variable {author : Bytes} (length : author.length = 32)

include length

theorem entryAt_wellFormed (p : AuthorPosition) : WellFormed (entryAt author p) := by
  simp [WellFormed, entryAt, makeKeyStringU64, u64NeBytes, length]

theorem authorOf_entryAt (p : AuthorPosition) : authorOf (entryAt author p).1 = author :=
  take_left' length

theorem positionOf_entryAt {p : AuthorPosition} (fits : p.Fits) :
    positionOf (entryAt author p) = p := by
  have time : u64FromNe ((author ++ u64NeBytes p.createdAt).drop 32) = p.createdAt := by
    rw [drop_left' length, u64FromNe, u64NeBytes, take_of_length_le (by simp),
      leVal_leBytes fits.1]
  have id : u64FromNe (u64NeBytes p.localId) = p.localId := by
    rw [u64FromNe, u64NeBytes, take_of_length_le (by simp), leVal_leBytes fits.2]
  exact AuthorPosition.mk.injEq .. ▸ ⟨time, id⟩

omit length in
theorem positionOf_fits (e : Kv) : (positionOf e).Fits :=
  ⟨u64FromNe_lt (e.1.drop 32), u64FromNe_lt e.2⟩

omit length in
/-- A posting is what its author and position say. -/
theorem entryAt_positionOf {e : Kv} (wellFormed : WellFormed e) :
    entryAt (authorOf e.1) (positionOf e) = e := by
  have key : u64NeBytes (u64FromNe (e.1.drop 32)) = e.1.drop 32 := by
    have whole := u64NeBytes_u64FromNe (s := e.1.drop 32) (by simp [wellFormed.1])
    rw [whole, take_of_length_le (by simp [wellFormed.1])]
  have dup : u64NeBytes (u64FromNe e.2) = e.2 := by
    rw [u64NeBytes_u64FromNe wellFormed.2.ge, take_of_length_le wellFormed.2.le]
  refine Prod.ext ?_ dup
  show authorOf e.1 ++ u64NeBytes (u64FromNe (e.1.drop 32)) = e.1
  rw [key, authorOf, take_append_drop]

/-- The scan of an author starts at or after all of its postings. -/
theorem onSide_author {e : Kv} (wellFormed : WellFormed e) :
    View.onSide authorDbi (makeKeyStringU64 author (2 ^ 64 - 1)) (u64NeBytes (2 ^ 64 - 1)) true e
        = true ↔ authorOf e.1 ≤ author := by
  have fits : AuthorPosition.Fits ⟨2 ^ 64 - 1, 2 ^ 64 - 1⟩ := ⟨by norm_num, by norm_num⟩
  have bound := positionOf_fits e
  have start := cmpEntry_posting wellFormed (entryAt_wellFormed length ⟨2 ^ 64 - 1, 2 ^ 64 - 1⟩)
  rw [positionOf_entryAt length fits, authorOf_entryAt length] at start
  have key : makeKeyStringU64 author (2 ^ 64 - 1) ≠ [] := by
    intro empty
    have lengths := congrArg List.length empty
    simp [makeKeyStringU64, u64NeBytes] at lengths
  have dup : u64NeBytes (2 ^ 64 - 1) ≠ [] := by
    intro empty
    have lengths := congrArg List.length empty
    simp [u64NeBytes] at lengths
  rw [View.onSide, if_neg key, if_pos ⟨authorDbi_dupSort, dup⟩, if_pos rfl, decide_eq_true_eq]
  rw [show (makeKeyStringU64 author (2 ^ 64 - 1), u64NeBytes (2 ^ 64 - 1)) =
    entryAt author ⟨2 ^ 64 - 1, 2 ^ 64 - 1⟩ from rfl, start]
  have newest : (cmp (positionOf e).createdAt (2 ^ 64 - 1)).then
      (cmp (positionOf e).localId (2 ^ 64 - 1)) ≠ .gt := by
    have time : (positionOf e).createdAt ≤ 2 ^ 64 - 1 := by
      have := bound.1
      omega
    have id : (positionOf e).localId ≤ 2 ^ 64 - 1 := by
      have := bound.2
      omega
    rcases time.lt_or_eq with less | same
    · rw [less.cmp_eq_lt]
      simp
    · rw [same, cmp_self_eq_eq]
      exact cmp_ne_gt_iff.mpr id
  rcases lt_trichotomy (authorOf e.1) author with less | same | greater
  · rw [less.cmp_eq_lt]
    exact iff_of_true (by simp) less.le
  · rw [same, cmp_self_eq_eq]
    exact iff_of_true newest le_rfl
  · rw [greater.cmp_eq_gt]
    exact iff_of_false (by simp) (not_le.mpr greater)

end Entries

/-! ### The newest two -/

variable {author : Bytes}

/-- `head` is the newest two of the positions, the only one, or nothing when there is none. -/
def Newest (posted : AuthorPosition → Prop) : Option AuthorHead → Prop
  | none => ∀ p, ¬posted p
  | some ⟨first, none⟩ => ∀ p, posted p ↔ p = first
  | some ⟨first, some next⟩ => posted first ∧ posted next ∧ next.Older first ∧
      ∀ p, posted p → p = first ∨ p = next ∨ p.Older next

/-- The head a scan makes. -/
def HeadScan.head (scan : HeadScan) : Option AuthorHead :=
  scan.first.map fun first => ⟨first, scan.next⟩

theorem headStep_posting (wellFormed : WellFormed e) (scan : HeadScan) :
    headStep author scan e.1 e.2 =
      if authorOf e.1 ≠ author then (scan, false)
      else if scan.first.isNone then ({ scan with first := some (positionOf e) }, true)
      else ({ scan with next := some (positionOf e) }, false) := by
  have parsed : parseKeyStringU64 e.1 = .ok (authorOf e.1, (positionOf e).createdAt) := by
    rw [parseKeyStringU64, if_neg (by rw [wellFormed.1]; omega), wellFormed.1]
    rfl
  have id : u64FromNeChecked e.2 = .ok (positionOf e).localId := by
    rw [u64FromNeChecked, if_neg (not_not.mpr wellFormed.2)]
    rfl
  simp only [headStep, parsed, id]

/-- Postings before one of an earlier author are of earlier authors. -/
theorem author_lt_of_after (left : WellFormed e) (right : WellFormed f)
    (side : authorOf e.1 ≤ author) (other : authorOf e.1 ≠ author)
    (after : entryCode authorDbi f < entryCode authorDbi e) : authorOf f.1 ≠ author := by
  have less : authorOf e.1 < author := lt_of_le_of_ne side other
  rcases (entryCode_lt_iff right left).mp after with earlier | ⟨same, _⟩
  · exact (earlier.trans less).ne
  · exact same ▸ other

/-- **The scan of sorted postings stops with the newest two of the author.** -/
theorem scanFold_newest {l : List Kv} (wellFormed : ∀ e ∈ l, WellFormed e)
    (side : ∀ e ∈ l, authorOf e.1 ≤ author)
    (sorted : l.Pairwise fun p q => entryCode authorDbi q < entryCode authorDbi p) :
    (View.scanFold (headStep author) {} l).1.malformed = false ∧
      Newest (fun p => ∃ e ∈ l, authorOf e.1 = author ∧ positionOf e = p)
        (View.scanFold (headStep author) {} l).1.head := by
  -- Only the first two rows count: later ones are older, or of an earlier author.
  cases l with
  | nil => exact ⟨rfl, by rintro p ⟨e, ⟨⟩, _⟩⟩
  | cons e rest =>
    obtain ⟨after, sorted⟩ := pairwise_cons.mp sorted
    have here := wellFormed e mem_cons_self
    rw [View.scanFold, headStep_posting here]
    by_cases mine : authorOf e.1 = author
    · rw [if_neg (not_not.mpr mine)]
      simp only [Option.isNone_none, if_true]
      cases rest with
      | nil =>
        refine ⟨rfl, fun p => ⟨?_, ?_⟩⟩
        · rintro ⟨f, member, _, rfl⟩
          rw [mem_singleton.mp member]
        · rintro rfl
          exact ⟨e, mem_cons_self, mine, rfl⟩
      | cons e' rest =>
        obtain ⟨after', _⟩ := pairwise_cons.mp sorted
        have here' := wellFormed e' (by simp)
        simp only [Bool.true_eq_false, if_false]
        rw [View.scanFold, headStep_posting here']
        by_cases mine' : authorOf e'.1 = author
        · rw [if_neg (not_not.mpr mine'), if_neg (by simp)]
          have older : ∀ f ∈ e' :: rest, authorOf f.1 = author →
              (positionOf f).Older (positionOf e) := by
            intro f member author
            have less := (entryCode_lt_iff (wellFormed f (.tail _ member)) here).mp
              (after f member)
            rw [author, mine] at less
            simpa using less
          refine ⟨rfl, ⟨e, by simp, mine, rfl⟩, ⟨e', by simp, mine', rfl⟩,
            older e' mem_cons_self mine', ?_⟩
          rintro p ⟨f, member, author, rfl⟩
          simp only [mem_cons] at member
          rcases member with rfl | rfl | member
          · exact .inl rfl
          · exact .inr (.inl rfl)
          · have less := (entryCode_lt_iff (wellFormed f (by simp [member])) here').mp
              (after' f member)
            rw [author, mine'] at less
            exact .inr (.inr (by simpa using less))
        · rw [if_pos mine']
          refine ⟨rfl, fun p => ⟨?_, ?_⟩⟩
          · rintro ⟨f, member, author, rfl⟩
            simp only [mem_cons] at member
            rcases member with rfl | rfl | member
            · rfl
            · exact absurd author mine'
            · exact absurd author (author_lt_of_after here' (wellFormed f (by simp [member]))
                (side e' (by simp)) mine' (after' f member))
          · rintro rfl
            exact ⟨e, mem_cons_self, mine, rfl⟩
    · rw [if_pos mine]
      refine ⟨rfl, ?_⟩
      rintro p ⟨f, member, author, _⟩
      rcases mem_cons.mp member with rfl | member
      · exact mine author
      · exact author_lt_of_after here (wellFormed f (.tail _ member))
          (side e mem_cons_self) mine (after f member) author

end Wok.Db
