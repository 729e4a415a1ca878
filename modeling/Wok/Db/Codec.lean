/-
**The ordered key codec.**

RocksDB compares keys byte by byte, so the store writes each logical pair (key, duplicate) as one
byte string whose byte order is the order LMDB had: zero-terminated escaped strings, big-endian
integers, a header byte for keys of the wrong length, and every byte complemented in `DUPSORT`
tables, so that a reverse scan walks forward.

* `decodeKey_keyPrefix`, `decode_entryKey` — decoding undoes encoding.
* `keyPrefix_prefix_iff` — **a key's prefix is a prefix of no other key's.**
* `cmp_keyPrefix`, `physicalCmp_eq` — **the physical order is the declared comparator on the
  keys and then the duplicate order**, for malformed keys and duplicates too: they come before the
  well-formed ones, in byte order.
-/

import Wok.Db.Schema

namespace Wok.Db

open Wok.Library List

/-- An error of the RocksDB layer. -/
def err (e : String) : DbError := .msg ("rocksdb: " ++ e)

/-! ### Escaped strings -/

/-- A string with its zero bytes marked, and a terminator. -/
def escape : Bytes → Bytes
  | [] => [0, 0]
  | b :: raw => if b = 0 then 0 :: 255 :: escape raw else b :: escape raw

/-- Reads an escaped string; returns it with the bytes after its terminator. -/
def unescape : Bytes → Except DbError (Bytes × Bytes)
  | [] => .error (err "unterminated escaped key")
  | b :: rest =>
    if b ≠ 0 then (unescape rest).map fun p => (b :: p.1, p.2)
    else
      match rest with
      | [] => .error (err "truncated escaped key")
      | c :: rest =>
        if c = 0 then .ok ([], rest)
        else if c = 255 then (unescape rest).map fun p => (0 :: p.1, p.2)
        else .error (err "invalid escaped key")

theorem unescape_escape (s rest : Bytes) : unescape (escape s ++ rest) = .ok (s, rest) := by
  induction s with
  | nil => simp [escape, unescape]
  | cons b s ih =>
    by_cases zero : b = 0
    · have marker : (255 : Byte) ≠ 0 := by decide
      simp [escape, unescape, zero, ih, marker, Except.map]
    · rw [escape, if_neg zero, cons_append, unescape.eq_def]
      simp [zero, ih, Except.map]

/-- **Escaping keeps the lexicographic order**, at a byte both codes have. -/
theorem escape_below {s t : Bytes} (less : s < t) : Below (escape s) (escape t) := by
  induction s generalizing t with
  | nil =>
    cases t with
    | nil => exact absurd less (lt_irrefl _)
    | cons b t =>
      by_cases zero : b = 0
      · rw [escape, escape, if_pos zero]
        exact .tail 0 (.head _ _ (by decide))
      · rw [escape, escape, if_neg zero]
        exact .head _ _ (Fin.pos_iff_ne_zero.mpr zero)
  | cons a s ih =>
    cases t with
    | nil => exact absurd less (not_lt_nil _)
    | cons b t =>
      rcases cons_lt_cons_iff.mp less with smaller | ⟨rfl, rest⟩
      · have positive : b ≠ 0 := ((Fin.zero_le a).trans_lt smaller).ne'
        by_cases zero : a = 0
        · rw [escape, escape, if_pos zero, if_neg positive]
          exact .head _ _ (zero ▸ smaller)
        · rw [escape, escape, if_neg zero, if_neg positive]
          exact .head _ _ smaller
      · by_cases zero : a = 0
        · rw [escape, escape, if_pos zero, if_pos zero]
          exact .tail 0 (.tail 255 (ih rest))
        · rw [escape, escape, if_neg zero, if_neg zero]
          exact .tail a (ih rest)

theorem cmp_escape (s t u v : Bytes) :
    cmp (escape s ++ u) (escape t ++ v) = (cmp s t).then (cmp u v) :=
  cmp_append escape s t escape_below escape_below u v

/-! ### Integers -/

/-- The first `n` native-endian integers of a string, written big-endian. -/
def beInts : Nat → Bytes → Bytes
  | 0, _ => []
  | n + 1, s => beBytes 8 (u64FromNe s) ++ beInts n (s.drop 8)

/-- Reads `n` big-endian integers back into native-endian bytes. -/
def readInts (short : DbError) : Nat → Bytes → Except DbError (Bytes × Bytes)
  | 0, raw => .ok ([], raw)
  | n + 1, raw =>
    if raw.length < 8 then .error short
    else (readInts short n (raw.drop 8)).map fun p =>
      (u64NeBytes (beVal (raw.take 8)) ++ p.1, p.2)

theorem u64FromNe_lt (s : Bytes) : u64FromNe s < 256 ^ 8 :=
  (leVal_lt _).trans_le (Nat.pow_le_pow_right (by decide) (by simp))

theorem u64NeBytes_u64FromNe {s : Bytes} (long : 8 ≤ s.length) :
    u64NeBytes (u64FromNe s) = s.take 8 := by
  have back := leBytes_leVal (s.take 8)
  rwa [length_take_of_le long] at back

theorem readInts_beInts (short : DbError) (n : Nat) (s rest : Bytes) (length : s.length = n * 8) :
    readInts short n (beInts n s ++ rest) = .ok (s, rest) := by
  induction n generalizing s with
  | zero =>
    rw [length_eq_zero_iff.mp (by omega : s.length = 0)]
    rfl
  | succ n ih =>
    have tail : (s.drop 8).length = n * 8 := by
      rw [length_drop]
      omega
    have first : ((beBytes 8 (u64FromNe s) ++ (beInts n (s.drop 8) ++ rest)).take 8)
        = beBytes 8 (u64FromNe s) := by
      rw [take_append_of_le_length (by simp), take_of_length_le (by simp)]
    have others : ((beBytes 8 (u64FromNe s) ++ (beInts n (s.drop 8) ++ rest)).drop 8)
        = beInts n (s.drop 8) ++ rest := by
      rw [drop_append_of_le_length (by simp), drop_of_length_le (by simp),
        nil_append]
    rw [beInts, append_assoc, readInts, if_neg (by simp), first, others, ih _ tail,
      beVal_beBytes (u64FromNe_lt s), u64NeBytes_u64FromNe (by omega)]
    simp [Except.map, take_append_drop]

theorem cmp_beBytes (a b u v : Bytes) :
    cmp (beBytes 8 (u64FromNe a) ++ u) (beBytes 8 (u64FromNe b) ++ v)
      = (cmp (u64FromNe a) (u64FromNe b)).then (cmp u v) :=
  cmp_append (beBytes 8) (u64FromNe a) (u64FromNe b)
    (fun less => beBytes_below less (u64FromNe_lt b))
    (fun less => beBytes_below less (u64FromNe_lt a)) u v

/-! ### Keys -/

/-- How many integers a composite key ends with. -/
def ComparatorKind.ints : ComparatorKind → Nat
  | .stringUint64 => 1
  | .stringUint64Uint64 | .uint64Uint64 => 2
  | .default => 0

/-- Whether a composite key is long enough to hold its integers. -/
def validKey (c : ComparatorKind) (key : Bytes) : Bool :=
  decide (c.ints * 8 ≤ key.length) && (c != .uint64Uint64 || key.length == 16)

/-- The part of the physical key that depends on the logical key only, before complementing. -/
def keyPrefix (dbi : Nat) (key : Bytes) : Bytes :=
  let s := spec dbi
  let ints := s.comparator.ints
  if ints ≠ 0 then
    if validKey s.comparator key = false then 0 :: escape key
    else
      let cut := key.length - ints * 8
      1 :: ((if s.comparator ≠ .uint64Uint64 then escape (key.take cut) else [])
        ++ beInts ints (key.drop cut))
  else if s.flags.integerKey then
    if key.length = 8 then 1 :: beInts 1 key else 0 :: escape key
  else if s.flags.reverseKey then escape key.reverse
  else escape key

/-- The duplicate's part of the physical key. -/
def dupCode (dbi : Nat) (dup : Bytes) : Bytes :=
  if (spec dbi).flags.integerDup = true ∧ dup.length = 8 then 1 :: beInts 1 dup
  else if (spec dbi).flags.integerDup then 0 :: escape dup
  else escape dup

/-- The physical key of a logical key and duplicate. -/
def encode (dbi : Nat) (key : Bytes) (dup : Option Bytes) : Bytes :=
  let out := keyPrefix dbi key ++ (dup.map (dupCode dbi)).getD []
  if reversed dbi then complement out else out

/-- The integers of a composite or integer key, after its string. -/
def decodeKey (dbi : Nat) (raw : Bytes) : Except DbError (Bytes × Bytes) :=
  let s := spec dbi
  let ints := s.comparator.ints
  if ints ≠ 0 ∨ s.flags.integerKey = true then
    match raw with
    | [] => .error (err "empty key")
    | valid :: raw =>
      if valid = 0 then unescape raw
      else if valid = 1 then do
        let (key, raw) ←
          if ints ≠ 0 ∧ s.comparator ≠ .uint64Uint64 then unescape raw else .ok ([], raw)
        let (tail, raw) ← readInts (err "truncated integer key") (max ints 1) raw
        .ok (key ++ tail, raw)
      else .error (err "invalid key header")
  else do
    let (key, raw) ← unescape raw
    .ok (if s.flags.reverseKey then key.reverse else key, raw)

def decodeVal (dbi : Nat) (value raw : Bytes) : Except DbError (Bytes × Bytes) :=
  let s := spec dbi
  if s.flags.dupSort then
    if s.flags.integerDup then
      match raw with
      | [] => .error (err "missing duplicate header")
      | valid :: raw =>
        if valid = 0 then unescape raw
        else if valid = 1 then readInts (err "truncated duplicate") 1 raw
        else .error (err "invalid duplicate header")
    else unescape raw
  else .ok (value, raw)

/-- A physical key and value read back as the logical key and value. -/
def decode (dbi : Nat) (raw value : Bytes) : Except DbError (Bytes × Bytes) := do
  let raw := if reversed dbi then complement raw else raw
  let (key, raw) ← decodeKey dbi raw
  let (val, raw) ← decodeVal dbi value raw
  if raw ≠ [] then .error (err "trailing key bytes") else .ok (key, val)

/-- The physical key an entry is stored under: duplicates are part of the key. -/
def entryKey (dbi : Nat) (key value : Bytes) : Bytes :=
  encode dbi key (if (spec dbi).flags.dupSort then some value else none)

/-- The duplicate's part of an entry's physical key, before complementing. -/
def valCode (dbi : Nat) (value : Bytes) : Bytes :=
  if (spec dbi).flags.dupSort then dupCode dbi value else []

theorem entryKey_eq (dbi : Nat) (key value : Bytes) :
    entryKey dbi key value = if reversed dbi then complement (keyPrefix dbi key ++ valCode dbi value)
      else keyPrefix dbi key ++ valCode dbi value := by
  by_cases sorted : (spec dbi).flags.dupSort = true <;> simp [entryKey, encode, valCode, sorted]

/-! ### The forms of a key prefix -/

section Forms

variable {dbi : Nat}

/-- A composite key's prefix, by whether the key is long enough. -/
theorem keyPrefix_string (dbi : Nat) (composite : (spec dbi).comparator.ints ≠ 0)
    (string : (spec dbi).comparator ≠ .uint64Uint64) (key : Bytes) :
    keyPrefix dbi key = if decide ((spec dbi).comparator.ints * 8 ≤ key.length) = true then
        1 :: (escape (key.take (key.length - (spec dbi).comparator.ints * 8))
          ++ beInts (spec dbi).comparator.ints
            (key.drop (key.length - (spec dbi).comparator.ints * 8)))
      else 0 :: escape key := by
  by_cases long : (spec dbi).comparator.ints * 8 ≤ key.length <;>
    simp [keyPrefix, composite, string, validKey, long]

theorem keyPrefix_pair (pair : (spec dbi).comparator = .uint64Uint64) (key : Bytes) :
    keyPrefix dbi key
      = if decide (key.length = 16) = true then 1 :: beInts 2 key else 0 :: escape key := by
  by_cases valid : key.length = 16 <;>
    simp [keyPrefix, pair, ComparatorKind.ints, validKey, valid]

theorem keyPrefix_integer (plain : (spec dbi).comparator = .default)
    (integer : (spec dbi).flags.integerKey = true) (key : Bytes) :
    keyPrefix dbi key
      = if decide (key.length = 8) = true then 1 :: beInts 1 key else 0 :: escape key := by
  by_cases valid : key.length = 8 <;>
    simp [keyPrefix, plain, ComparatorKind.ints, integer, valid]

theorem keyPrefix_of_bytes (plain : (spec dbi).comparator = .default)
    (bytes : (spec dbi).flags.integerKey = false) (key : Bytes) :
    keyPrefix dbi key
      = escape (if (spec dbi).flags.reverseKey then key.reverse else key) := by
  by_cases back : (spec dbi).flags.reverseKey = true <;>
    simp [keyPrefix, plain, ComparatorKind.ints, bytes, back]

end Forms

/-! ### Decoding undoes encoding -/

section Decode

variable (dbi : Nat)
variable {value value' : Bytes}

/-- **Reading a key back from its prefix**, whatever follows. -/
theorem decodeKey_keyPrefix (key rest : Bytes) :
    decodeKey dbi (keyPrefix dbi key ++ rest) = .ok (key, rest) := by
  by_cases composite : (spec dbi).comparator.ints ≠ 0
  · by_cases pair : (spec dbi).comparator = .uint64Uint64
    · rw [keyPrefix_pair pair]
      by_cases valid : key.length = 16
      · simp [decodeKey, pair, ComparatorKind.ints, valid, bind, Except.bind,
          readInts_beInts _ 2 key rest valid]
      · simp [decodeKey, pair, ComparatorKind.ints, valid, unescape_escape]
    · rw [keyPrefix_string dbi composite pair]
      by_cases long : (spec dbi).comparator.ints * 8 ≤ key.length
      · have tail : (key.drop (key.length - (spec dbi).comparator.ints * 8)).length
            = (spec dbi).comparator.ints * 8 := by
          rw [length_drop]
          omega
        have count : max (spec dbi).comparator.ints 1 = (spec dbi).comparator.ints := by
          omega
        simp [decodeKey, pair, composite, long, bind, Except.bind, count, unescape_escape,
          readInts_beInts _ _ _ _ tail]
      · simp [decodeKey, composite, long, unescape_escape]
  · have plain : (spec dbi).comparator = .default := by
      revert composite
      cases (spec dbi).comparator <;> simp [ComparatorKind.ints]
    cases integer : (spec dbi).flags.integerKey with
    | true =>
      rw [keyPrefix_integer plain integer]
      by_cases valid : key.length = 8
      · simp [decodeKey, plain, ComparatorKind.ints, integer, valid, bind, Except.bind,
          readInts_beInts _ 1 key rest valid]
      · simp [decodeKey, plain, ComparatorKind.ints, integer, valid, unescape_escape]
    | false =>
      rw [keyPrefix_of_bytes plain integer]
      by_cases back : (spec dbi).flags.reverseKey = true <;>
        simp [decodeKey, plain, ComparatorKind.ints, integer, back, unescape_escape, bind,
          Except.bind]

theorem decodeVal_valCode (value rest : Bytes) :
    decodeVal dbi value (valCode dbi value ++ rest) = .ok (value, rest) := by
  by_cases sorted : (spec dbi).flags.dupSort = true
  · by_cases integer : (spec dbi).flags.integerDup = true
    · by_cases valid : value.length = 8
      · simp [decodeVal, valCode, dupCode, sorted, integer, valid,
          readInts_beInts _ 1 value rest valid]
      · simp [decodeVal, valCode, dupCode, sorted, integer, valid, unescape_escape]
    · simp [decodeVal, valCode, dupCode, sorted, integer, unescape_escape]
  · simp [decodeVal, valCode, sorted]

theorem decode_entryKey (key value : Bytes) :
    decode dbi (entryKey dbi key value) value = .ok (key, value) := by
  have plain : (if reversed dbi then complement (entryKey dbi key value)
      else entryKey dbi key value) = keyPrefix dbi key ++ valCode dbi value := by
    rw [entryKey_eq]
    by_cases back : reversed dbi = true <;> simp [back]
  have val := decodeVal_valCode dbi value []
  rw [append_nil] at val
  simp [decode, plain, decodeKey_keyPrefix, val, bind, Except.bind]

/-- In a `DUPSORT` table the stored value plays no part. -/
theorem decode_entryKey_of_dupSort (sorted : (spec dbi).flags.dupSort = true)
    (key dup value : Bytes) : decode dbi (entryKey dbi key dup) value = .ok (key, dup) := by
  have same : decode dbi (entryKey dbi key dup) value = decode dbi (entryKey dbi key dup) dup := by
    simp [decode, decodeVal, sorted]
  rw [same, decode_entryKey]

theorem entryKey_of_plain (plain : (spec dbi).flags.dupSort = false) (key value value' : Bytes) :
    entryKey dbi key value = entryKey dbi key value' := by
  simp [entryKey, plain]

/-- **A key's prefix is a prefix of no other key's prefix.** -/
theorem keyPrefix_prefix_iff (a b : Bytes) : keyPrefix dbi a <+: keyPrefix dbi b ↔ a = b := by
  refine ⟨?_, fun same => same ▸ prefix_rfl⟩
  rintro ⟨rest, joined⟩
  have first := decodeKey_keyPrefix dbi a rest
  have second := decodeKey_keyPrefix dbi b []
  rw [append_nil, ← joined, first] at second
  simp only [Except.ok.injEq, Prod.mk.injEq] at second
  exact second.1

/-- **One entry's code is a prefix of another's only when they are one entry**: the value of a
table without duplicates is not part of its key. -/
theorem entry_of_extends {key key' : Bytes}
    (pre : keyPrefix dbi key ++ valCode dbi value <+: keyPrefix dbi key' ++ valCode dbi value') :
    key = key' ∧ (reversed dbi = true → value = value') := by
  obtain ⟨rest, joined⟩ := pre
  have first := decodeKey_keyPrefix dbi key (valCode dbi value ++ rest)
  have second := decodeKey_keyPrefix dbi key' (valCode dbi value')
  rw [← joined, append_assoc, first] at second
  simp only [Except.ok.injEq, Prod.mk.injEq] at second
  refine ⟨second.1, fun sorted => ?_⟩
  have read : ∀ v w rest, decodeVal dbi w (valCode dbi v ++ rest) = .ok (v, rest) := by
    intro v w rest
    have back := decodeVal_valCode dbi v rest
    rw [reversed] at sorted
    simpa [decodeVal, sorted] using back
  have first := read value [] rest
  have last := read value' [] []
  rw [append_nil, ← second.2, first] at last
  simp only [Except.ok.injEq, Prod.mk.injEq] at last
  exact last.1

theorem valCode_congr (same : reversed dbi = true → value = value') :
    valCode dbi value = valCode dbi value' := by
  by_cases sorted : (spec dbi).flags.dupSort = true
  · rw [same sorted]
  · simp [valCode, sorted]

theorem entryCode_eq_of_extends {key key' : Bytes}
    (pre : keyPrefix dbi key ++ valCode dbi value <+: keyPrefix dbi key' ++ valCode dbi value') :
    keyPrefix dbi key ++ valCode dbi value = keyPrefix dbi key' ++ valCode dbi value' := by
  obtain ⟨same, values⟩ := entry_of_extends dbi pre
  rw [same, valCode_congr dbi values]

end Decode

/-! ### The logical order -/

/-- Integers in numeric order, after strings of any other length in byte order. -/
def cmpInteger (a b : Bytes) : Ordering :=
  match decide (a.length = 8), decide (b.length = 8) with
  | false, false => cmpMemn a b
  | false, true => .lt
  | true, false => .gt
  | true, true => cmp (u64FromNe a) (u64FromNe b)

/-- The order of a table's keys, malformed ones included. -/
def cmpKey (dbi : Nat) (a b : Bytes) : Ordering :=
  match (spec dbi).comparator with
  | .stringUint64 => cmpStringU64 a b
  | .uint64Uint64 => cmpU64U64 a b
  | .stringUint64Uint64 => cmpStringU64U64 a b
  | .default =>
    if (spec dbi).flags.integerKey then cmpInteger a b
    else if (spec dbi).flags.reverseKey then cmpMemn a.reverse b.reverse
    else cmpMemn a b

/-- The order of the duplicates of one key; a table without duplicates has one value per key. -/
def cmpDup (dbi : Nat) (a b : Bytes) : Ordering :=
  if (spec dbi).flags.dupSort then
    if (spec dbi).flags.integerDup then cmpInteger a b else cmpMemn a b
  else .eq

/-- The order of a table's entries: key, then duplicate. -/
def cmpEntry (dbi : Nat) (p q : Bytes × Bytes) : Ordering :=
  (cmpKey dbi p.1 q.1).then (cmpDup dbi p.2 q.2)

/-- The order in which RocksDB keeps two entries, read backwards for `DUPSORT` tables. -/
def physicalCmp (dbi : Nat) (p q : Bytes × Bytes) : Ordering :=
  if reversed dbi then cmp (entryKey dbi q.1 q.2) (entryKey dbi p.1 p.2)
  else cmp (entryKey dbi p.1 p.2) (entryKey dbi q.1 q.2)

section Compare

variable (dbi : Nat)

theorem cmp_head_lt {a b : Byte} (less : a < b) (u v : Bytes) : cmp (a :: u) (b :: v) = .lt :=
  LT.lt.cmp_eq_lt (cons_lt_cons_iff.mpr (Or.inl less))

theorem cmp_head_gt {a b : Byte} (less : b < a) (u v : Bytes) : cmp (a :: u) (b :: v) = .gt :=
  LT.lt.cmp_eq_gt (cons_lt_cons_iff.mpr (Or.inl less))

theorem cmp_head (a : Byte) (u v : Bytes) : cmp (a :: u) (a :: v) = cmp u v :=
  cmp_append_same [a] u v

theorem cmp_integer (a b u v : Bytes) :
    cmp (beInts 1 a ++ u) (beInts 1 b ++ v)
      = (cmp (u64FromNe a) (u64FromNe b)).then (cmp u v) := by
  rw [beInts, beInts, beInts, beInts, append_nil, append_nil, cmp_beBytes]

theorem cmp_two (a b u v : Bytes) :
    cmp (beInts 2 a ++ u) (beInts 2 b ++ v)
      = (cmp (u64FromNe a) (u64FromNe b)).then
        ((cmp (u64FromNe (a.drop 8)) (u64FromNe (b.drop 8))).then (cmp u v)) := by
  have split : ∀ s, beInts 2 s = beBytes 8 (u64FromNe s) ++ beInts 1 (s.drop 8) := fun _ => rfl
  rw [split, split, append_assoc, append_assoc, cmp_beBytes, cmp_integer]

/-- A header that tells well-formed strings from others, and the two codes after it. -/
theorem cmp_header (valid : Bytes → Bool) (code : Bytes → Bytes) (compare : Bytes → Bytes → Ordering)
    (a b u v : Bytes)
    (wellFormed : valid a = true → valid b = true →
      cmp (code a ++ u) (code b ++ v) = (compare a b).then (cmp u v)) :
    cmp ((if valid a = true then 1 :: code a else 0 :: escape a) ++ u)
        ((if valid b = true then 1 :: code b else 0 :: escape b) ++ v)
      = (match valid a, valid b with
        | false, false => cmpMemn a b
        | false, true => .lt
        | true, false => .gt
        | true, true => compare a b).then (cmp u v) := by
  cases first : valid a <;> cases second : valid b
  · simp only [Bool.false_eq_true, if_false, cons_append, cmp_head, cmp_escape,
      cmpMemn_eq]
  · simp only [Bool.false_eq_true, if_false, if_true, cons_append]
    rw [cmp_head_lt (by decide)]
    rfl
  · simp only [Bool.false_eq_true, if_false, if_true, cons_append]
    rw [cmp_head_gt (by decide)]
    rfl
  · simp only [if_true, cons_append, cmp_head]
    exact wellFormed first second

theorem cmp_integerCode (a b u v : Bytes) :
    cmp ((if decide (a.length = 8) = true then 1 :: beInts 1 a else 0 :: escape a) ++ u)
        ((if decide (b.length = 8) = true then 1 :: beInts 1 b else 0 :: escape b) ++ v)
      = (cmpInteger a b).then (cmp u v) :=
  cmp_header (fun s => decide (s.length = 8)) (beInts 1)
    (fun a b => cmp (u64FromNe a) (u64FromNe b)) a b u v fun _ _ => cmp_integer a b u v

/-- **Key prefixes are ordered as the keys**, and tell them apart before what follows. -/
theorem cmp_keyPrefix (a b u v : Bytes) :
    cmp (keyPrefix dbi a ++ u) (keyPrefix dbi b ++ v) = (cmpKey dbi a b).then (cmp u v) := by
  cases kind : (spec dbi).comparator with
  | stringUint64 =>
    have form := keyPrefix_string dbi (by simp [kind, ComparatorKind.ints]) (by simp [kind])
    simp only [kind, ComparatorKind.ints, Nat.one_mul] at form
    rw [form, form, cmp_header (fun s => decide (8 ≤ s.length))
      (fun s => escape (s.take (s.length - 8)) ++ beInts 1 (s.drop (s.length - 8)))
      (fun a b => (cmpMemn (a.take (a.length - 8)) (b.take (b.length - 8))).then
        (cmp (u64FromNe (a.drop (a.length - 8))) (u64FromNe (b.drop (b.length - 8)))))]
    · simp only [cmpKey, kind, cmpStringU64]
      rfl
    · intro _ _
      rw [append_assoc, append_assoc, cmp_escape, cmp_integer, cmpMemn_eq,
        Ordering.then_assoc]
  | uint64Uint64 =>
    rw [keyPrefix_pair kind, keyPrefix_pair kind,
      cmp_header (fun s => decide (s.length = 16)) (beInts 2)
      (fun a b => (cmp (u64FromNe a) (u64FromNe b)).then
        (cmp (u64FromNe (a.drop 8)) (u64FromNe (b.drop 8))))]
    · simp only [cmpKey, kind, cmpU64U64]
      rfl
    · intro _ _
      rw [cmp_two, Ordering.then_assoc]
  | stringUint64Uint64 =>
    have form := keyPrefix_string dbi (by simp [kind, ComparatorKind.ints]) (by simp [kind])
    simp only [kind, ComparatorKind.ints, Nat.reduceMul] at form
    rw [form, form, cmp_header (fun s => decide (16 ≤ s.length))
      (fun s => escape (s.take (s.length - 16)) ++ beInts 2 (s.drop (s.length - 16)))
      (fun a b => (cmpMemn (a.take (a.length - 16)) (b.take (b.length - 16))).then
        ((cmp (u64FromNe (a.drop (a.length - 16))) (u64FromNe (b.drop (b.length - 16)))).then
          (cmp (u64FromNe (a.drop (a.length - 8))) (u64FromNe (b.drop (b.length - 8))))))]
    · simp only [cmpKey, kind, cmpStringU64U64]
      rfl
    · intro first second
      have inner : ∀ s : Bytes, 16 ≤ s.length →
          (s.drop (s.length - 16)).drop 8 = s.drop (s.length - 8) := by
        intro s long
        rw [drop_drop]
        congr 1
        omega
      rw [append_assoc, append_assoc, cmp_escape, cmp_two, cmpMemn_eq,
        inner a (by simpa using first), inner b (by simpa using second), Ordering.then_assoc,
        Ordering.then_assoc]
  | default =>
    cases integer : (spec dbi).flags.integerKey with
    | true =>
      rw [keyPrefix_integer kind integer, keyPrefix_integer kind integer,
        cmp_integerCode]
      simp only [cmpKey, kind, integer, if_true]
    | false =>
      rw [keyPrefix_of_bytes kind integer, keyPrefix_of_bytes kind integer, cmp_escape]
      by_cases back : (spec dbi).flags.reverseKey = true <;>
        simp [cmpKey, kind, integer, back, cmpMemn_eq]

theorem cmp_valCode (a b : Bytes) : cmp (valCode dbi a) (valCode dbi b) = cmpDup dbi a b := by
  by_cases sorted : (spec dbi).flags.dupSort = true
  · by_cases integer : (spec dbi).flags.integerDup = true
    · have ordered := cmp_integerCode a b [] []
      simp only [append_nil, cmp_self_eq_eq, Ordering.then_eq] at ordered
      simp only [valCode, dupCode, cmpDup, sorted, integer, if_true, true_and]
      simpa using ordered
    · have ordered := cmp_escape a b [] []
      simp only [append_nil, cmp_self_eq_eq, Ordering.then_eq] at ordered
      simp [valCode, dupCode, cmpDup, sorted, integer, ordered, cmpMemn_eq]
  · simp [valCode, cmpDup, sorted]

/-- Complementing reverses the comparison of two codes neither of which extends the other. -/
theorem cmp_complement {s t : Bytes} (noPrefix : s <+: t → s = t) (noPrefix' : t <+: s → t = s) :
    cmp (complement t) (complement s) = cmp s t := by
  rcases lt_trichotomy s t with less | rfl | greater
  · have below := below_of_lt_of_not_extends less fun pre => less.ne (noPrefix pre)
    rw [less.cmp_eq_lt, LT.lt.cmp_eq_lt below.complement.lt]
  · simp
  · have below := below_of_lt_of_not_extends greater fun pre => greater.ne (noPrefix' pre)
    rw [greater.cmp_eq_gt, LT.lt.cmp_eq_gt below.complement.lt]

/-- **The physical order is the logical order.** -/
theorem physicalCmp_eq (p q : Bytes × Bytes) : physicalCmp dbi p q = cmpEntry dbi p q := by
  have plain : cmp (keyPrefix dbi p.1 ++ valCode dbi p.2) (keyPrefix dbi q.1 ++ valCode dbi q.2)
      = cmpEntry dbi p q := by
    rw [cmp_keyPrefix, cmp_valCode, cmpEntry]
  rw [physicalCmp, entryKey_eq, entryKey_eq, ← plain]
  by_cases back : reversed dbi = true
  · simp only [back, if_true]
    exact cmp_complement (entryCode_eq_of_extends dbi) (entryCode_eq_of_extends dbi)
  · simp only [back]
    rfl

/-- Entries compare equal only when they are the same entry. -/
theorem physicalCmp_eq_iff (p q : Bytes × Bytes) :
    physicalCmp dbi p q = .eq ↔ p.1 = q.1 ∧ (reversed dbi = true → p.2 = q.2) := by
  have codes : physicalCmp dbi p q = .eq ↔
      keyPrefix dbi p.1 ++ valCode dbi p.2 = keyPrefix dbi q.1 ++ valCode dbi q.2 := by
    rw [physicalCmp, entryKey_eq, entryKey_eq]
    split
    · rw [cmp_eq_eq_iff, complement_injective.eq_iff, eq_comm]
    · rw [cmp_eq_eq_iff]
  rw [codes]
  constructor
  · intro same
    exact entry_of_extends dbi (same ▸ prefix_rfl)
  · rintro ⟨key, dup⟩
    rw [key, valCode_congr dbi dup]

end Compare

/-! ### The declared order -/

section Declared

/-- Whether a key is long enough for the integers its table's comparator reads. -/
def wellFormedKey (dbi : Nat) (key : Bytes) : Bool :=
  match (spec dbi).comparator with
  | .default => !(spec dbi).flags.integerKey || key.length == 8
  | c => validKey c key

def wellFormedDup (dbi : Nat) (dup : Bytes) : Bool :=
  !(spec dbi).flags.integerDup || dup.length == 8

/-- The comparator LMDB applies to the table's keys, which reads integers of fixed width. -/
def declaredCmp (dbi : Nat) (a b : Bytes) : Ordering :=
  match (spec dbi).comparator with
  | .stringUint64 => cmpStringU64 a b
  | .uint64Uint64 => cmpU64U64 a b
  | .stringUint64Uint64 => cmpStringU64U64 a b
  | .default =>
    if (spec dbi).flags.integerKey then cmp (u64FromNe a) (u64FromNe b)
    else if (spec dbi).flags.reverseKey then cmpMemn a.reverse b.reverse
    else cmpMemn a b

/-- The order LMDB keeps the duplicates of one key in. -/
def declaredDupCmp (dbi : Nat) (a b : Bytes) : Ordering :=
  if (spec dbi).flags.dupSort then
    if (spec dbi).flags.integerDup then cmp (u64FromNe a) (u64FromNe b) else cmpMemn a b
  else .eq

variable {dbi : Nat} {a b : Bytes}

theorem cmpInteger_of_length (first : a.length = 8) (second : b.length = 8) :
    cmpInteger a b = cmp (u64FromNe a) (u64FromNe b) := by
  simp [cmpInteger, first, second]

theorem cmpKey_eq_declaredCmp (first : wellFormedKey dbi a = true)
    (second : wellFormedKey dbi b = true) : cmpKey dbi a b = declaredCmp dbi a b := by
  unfold cmpKey declaredCmp
  cases kind : (spec dbi).comparator with
  | default =>
    cases integer : (spec dbi).flags.integerKey with
    | true =>
      simp only [wellFormedKey, kind, integer, Bool.not_true, Bool.false_or, beq_iff_eq]
        at first second
      simp [cmpInteger_of_length first second]
    | false => simp
  | stringUint64 => rfl
  | uint64Uint64 => rfl
  | stringUint64Uint64 => rfl

theorem cmpDup_eq_declaredDupCmp (first : wellFormedDup dbi a = true)
    (second : wellFormedDup dbi b = true) : cmpDup dbi a b = declaredDupCmp dbi a b := by
  cases integer : (spec dbi).flags.integerDup with
  | true =>
    simp only [wellFormedDup, integer, Bool.not_true, Bool.false_or, beq_iff_eq] at first second
    simp [cmpDup, declaredDupCmp, integer, cmpInteger_of_length first second]
  | false => simp [cmpDup, declaredDupCmp, integer]

end Declared

/-- **The codec is an order embedding.** Comparing physical keys, backwards for `DUPSORT` tables,
is a total order on the entries of every table; on well-formed entries it is the declared
comparator and then the duplicate order. Decoding returns the entry, and the prefix of one key is
no prefix of another's. -/
theorem encode_embeds_entries (dbi : Nat) :
    (∀ p q, (physicalCmp dbi p q).swap = physicalCmp dbi q p) ∧
    (∀ p q r, physicalCmp dbi p q ≠ .gt → physicalCmp dbi q r ≠ .gt →
      physicalCmp dbi p r ≠ .gt) ∧
    (∀ p q, physicalCmp dbi p q = .eq ↔ p.1 = q.1 ∧ (reversed dbi = true → p.2 = q.2)) ∧
    (∀ p q, wellFormedKey dbi p.1 = true → wellFormedDup dbi p.2 = true →
      wellFormedKey dbi q.1 = true → wellFormedDup dbi q.2 = true →
      physicalCmp dbi p q = (declaredCmp dbi p.1 q.1).then (declaredDupCmp dbi p.2 q.2)) ∧
    (∀ key value, decode dbi (entryKey dbi key value) value = .ok (key, value)) ∧
    (∀ key key', key ≠ key' → ¬ keyPrefix dbi key <+: keyPrefix dbi key') := by
  refine ⟨?_, ?_, physicalCmp_eq_iff dbi, ?_, decode_entryKey dbi, ?_⟩
  · intro p q
    unfold physicalCmp
    split <;> exact cmp_swap _ _
  · intro p q r first second
    unfold physicalCmp at *
    by_cases back : reversed dbi = true
    · rw [if_pos back, cmp_ne_gt_iff] at *
      exact second.trans first
    · rw [if_neg back, cmp_ne_gt_iff] at *
      exact first.trans second
  · intro p q key dup key' dup'
    rw [physicalCmp_eq, cmpEntry, cmpKey_eq_declaredCmp key key', cmpDup_eq_declaredDupCmp dup dup']
  · intro key key' different pre
    exact different ((keyPrefix_prefix_iff dbi key key').mp pre)

end Wok.Db
