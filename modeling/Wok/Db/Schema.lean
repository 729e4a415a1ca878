/-
**The logical tables and their comparators.**

`dbiSpecs` lists the 22 tables in the order of their numbers, with the LMDB flags and comparator
each declares; `spec dbi` is the entry of table `dbi` (numbered from 1). The comparators are those
of the LMDB layout: byte order, or a string followed by one or two native-endian integers, with
keys too short to hold the integers ordered before all others. `cmpMemn_eq` says that LMDB's
length-aware byte comparison is lexicographic order.

Integers are in little-endian byte order, the native order of the hosts the relay supports.
-/

import Mathlib
import Wok.Event.Json

namespace Wok.Db

open Wok.Library

/-- A storage error: a message, an error about an event, or a message that is the text of one. -/
inductive DbError
  | msg (text : String)
  | event (e : Event.EventError)
  | shown (e : Event.EventError)
  deriving DecidableEq, Repr

/-! ### Tables -/

inductive ComparatorKind
  | default
  | stringUint64
  | uint64Uint64
  | stringUint64Uint64
  deriving DecidableEq, Repr

/-- The LMDB flags a table is opened with. -/
structure Flags where
  create : Bool := true
  reverseKey : Bool := false
  dupSort : Bool := false
  integerKey : Bool := false
  dupFixed : Bool := false
  integerDup : Bool := false
  deriving DecidableEq, Repr

structure DbiSpec where
  flags : Flags
  comparator : ComparatorKind
  deriving DecidableEq, Repr

instance : Inhabited DbiSpec := ⟨⟨{}, .default⟩⟩

def dup : Flags := { dupSort := true, integerDup := true, dupFixed := true }
def int : Flags := { integerKey := true }
def dupIntkey : Flags := { dup with integerKey := true }

/-- The tables in the order of their numbers, which start with 1. -/
def dbiSpecs : List DbiSpec :=
  [⟨int, .default⟩, -- Meta
    ⟨int, .default⟩, -- NegentropyFilter
    ⟨int, .default⟩, -- Event
    ⟨dup, .stringUint64⟩, -- Event__id
    ⟨dup, .stringUint64Uint64⟩, -- Event__pubkeyKind
    ⟨dup, .stringUint64⟩, -- Event__tag
    ⟨dup, .default⟩, -- Event__deletion
    ⟨dup, .default⟩, -- Event__replace
    ⟨dupIntkey, .default⟩, -- Event__created_at
    ⟨dup, .stringUint64⟩, -- Event__pubkey
    ⟨dup, .default⟩, -- Event__replaceDeletion
    ⟨dup, .uint64Uint64⟩, -- Event__kind
    ⟨dupIntkey, .default⟩, -- Event__expiration
    ⟨int, .default⟩, -- CompressionDictionary
    ⟨int, .default⟩, -- EventPayload
    ⟨{ reverseKey := true }, .default⟩, -- negentropy
    ⟨dup, .default⟩, -- Event__search
    ⟨{}, .default⟩, -- VanishPubkey
    ⟨{}, .default⟩, -- Moderation
    ⟨{}, .default⟩, -- State
    ⟨dup, .stringUint64Uint64⟩, -- Event__tagKind
    ⟨{}, .default⟩] -- Event__tagKindBuild

/-- The number the covering index would have; no database holds that table. -/
def coverDbi : Nat := 23

def spec (dbi : Nat) : DbiSpec :=
  dbiSpecs.getD (if dbi = coverDbi then 9 else dbi - 1) default

/-- Whether the two components of an event share one record: `Event` and `EventPayload`. -/
def combined (dbi : Nat) : Bool := dbi == 3 || dbi == 15

def reversed (dbi : Nat) : Bool := (spec dbi).flags.dupSort

/-! ### Composite keys -/

def u64FromNe (bytes : Bytes) : Nat := leVal (bytes.take 8)

def u64FromNeChecked (bytes : Bytes) : Except DbError Nat :=
  if bytes.length ≠ 8 then .error (.msg "u64 key/value has unexpected length (corrupt index?)")
  else .ok (u64FromNe bytes)

def u64NeBytes (n : Nat) : Bytes := leBytes 8 n

def makeKeyStringU64 (s : Bytes) (n : Nat) : Bytes := s ++ u64NeBytes n

def parseKeyStringU64 (k : Bytes) : Except DbError (Bytes × Nat) :=
  if k.length < 8 then .error (.msg "StringUint64 key too short to parse")
  else .ok (k.take (k.length - 8), u64FromNe (k.drop (k.length - 8)))

def makeKeyU64U64 (n1 n2 : Nat) : Bytes := u64NeBytes n1 ++ u64NeBytes n2

def makeKeyStringU64U64 (s : Bytes) (n1 n2 : Nat) : Bytes := s ++ u64NeBytes n1 ++ u64NeBytes n2

/-! ### Comparators -/

/-- LMDB `mdb_cmp_memn`: the common prefix, then the shorter first. -/
def cmpMemn (a b : Bytes) : Ordering :=
  let len := min a.length b.length
  match cmp (a.take len) (b.take len) with
  | .eq => cmp a.length b.length
  | o => o

def cmpStringU64 (a b : Bytes) : Ordering :=
  match decide (8 ≤ a.length), decide (8 ≤ b.length) with
  | false, false => cmpMemn a b
  | false, true => .lt
  | true, false => .gt
  | true, true =>
    match cmpMemn (a.take (a.length - 8)) (b.take (b.length - 8)) with
    | .eq => cmp (u64FromNe (a.drop (a.length - 8))) (u64FromNe (b.drop (b.length - 8)))
    | o => o

def cmpU64U64 (a b : Bytes) : Ordering :=
  match decide (a.length = 16), decide (b.length = 16) with
  | false, false => cmpMemn a b
  | false, true => .lt
  | true, false => .gt
  | true, true =>
    match cmp (u64FromNe a) (u64FromNe b) with
    | .eq => cmp (u64FromNe (a.drop 8)) (u64FromNe (b.drop 8))
    | o => o

def cmpStringU64U64 (a b : Bytes) : Ordering :=
  match decide (16 ≤ a.length), decide (16 ≤ b.length) with
  | false, false => cmpMemn a b
  | false, true => .lt
  | true, false => .gt
  | true, true =>
    match cmpMemn (a.take (a.length - 16)) (b.take (b.length - 16)) with
    | .eq =>
      match cmp (u64FromNe (a.drop (a.length - 16))) (u64FromNe (b.drop (b.length - 16))) with
      | .eq => cmp (u64FromNe (a.drop (a.length - 8))) (u64FromNe (b.drop (b.length - 8)))
      | o => o
    | o => o

/-- **LMDB's byte comparison is lexicographic order.** -/
theorem cmpMemn_eq (a b : Bytes) : cmpMemn a b = cmp a b := by
  unfold cmpMemn
  induction a generalizing b with
  | nil =>
    cases b with
    | nil => simp
    | cons y b => simp [LT.lt.cmp_eq_lt (List.nil_lt_cons y b), LT.lt.cmp_eq_lt (Nat.succ_pos b.length)]
  | cons x a ih =>
    cases b with
    | nil => simp [LT.lt.cmp_eq_gt (List.nil_lt_cons x a), LT.lt.cmp_eq_gt (Nat.succ_pos a.length)]
    | cons y b =>
      have cut : min (x :: a).length (y :: b).length = min a.length b.length + 1 := by
        simp only [List.length_cons]
        omega
      have sizes : cmp (x :: a).length (y :: b).length = cmp a.length b.length := by
        simp only [List.length_cons]
        rcases lt_trichotomy a.length b.length with less | same | greater
        · rw [less.cmp_eq_lt, LT.lt.cmp_eq_lt (by omega)]
        · rw [same, cmp_self_eq_eq, cmp_self_eq_eq]
        · rw [greater.cmp_eq_gt, LT.lt.cmp_eq_gt (by omega)]
      simp only [cut, List.take_succ_cons, sizes]
      rcases lt_trichotomy x y with less | rfl | greater
      · rw [LT.lt.cmp_eq_lt (List.cons_lt_cons_iff.mpr (Or.inl less)),
          LT.lt.cmp_eq_lt (List.cons_lt_cons_iff.mpr (Or.inl less))]
      · have drop : ∀ s t : Bytes, cmp (x :: s) (x :: t) = cmp s t :=
          fun s t => cmp_append_same [x] s t
        rw [drop, drop]
        exact ih b
      · rw [LT.lt.cmp_eq_gt (List.cons_lt_cons_iff.mpr (Or.inl greater)),
          LT.lt.cmp_eq_gt (List.cons_lt_cons_iff.mpr (Or.inl greater))]

end Wok.Db
