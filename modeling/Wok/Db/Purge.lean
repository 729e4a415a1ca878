/-
**Purging superseded versions.**

Imports may leave several versions of an address. A purge goes through the replacement index in
batches, each in a transaction of its own, and removes all versions of an address but the winner of
the replacement order. A batch takes whole addresses and says after which key the next one resumes.

* `purgeScan` — what the scan of a batch collects; `purgeBatch` — the batch.
-/

import Wok.Db.Keeps

namespace Wok.Db

open Wok.Library Wok.Event

/-! ### A batch -/

/-- Addresses with more than one stored version, and the versions beyond one for each. -/
structure SupersededHistory where
  groups : Nat
  events : Nat
  deriving DecidableEq, Repr

def isReplacementKey (key : Bytes) : Except DbError Bool :=
  (parseKeyStringU64 key).map fun parts => isVersioned parts.2

/-- What the scan of a batch carries: the members of the addresses, the entries visited, the
current key and whether it is an address, and what ended the scan. -/
structure PurgeScan where
  groups : List (List Nat)
  visited : Nat
  current : Option (Bytes × Bool)
  resumeAfter : Option Bytes
  error : Option DbError

def PurgeScan.empty : PurgeScan := ⟨[], 0, none, none, none⟩

/-- The entry's key becomes the current one, unless enough entries were visited. -/
def PurgeScan.enter (maxEntries : Nat) (s : PurgeScan) (key : Bytes) :
    Except DbError (Option PurgeScan) :=
  if s.current.any fun current => current.1 = key then .ok (some s)
  else if maxEntries ≤ s.visited then .ok none
  else do
    let replacement ← isReplacementKey key
    return some { s with
      groups := if replacement then s.groups ++ [[]] else s.groups
      current := some (key, replacement) }

/-- The member goes to the last group. -/
def pushMember (groups : List (List Nat)) (lev : Nat) : List (List Nat) :=
  groups.dropLast ++ [groups.getLast?.getD [] ++ [lev]]

/-- The entry is a member of the current group, if its key is an address. -/
def PurgeScan.visit (s : PurgeScan) (value : Bytes) : Except DbError PurgeScan :=
  if s.current.any Prod.snd then do
    let lev ← u64FromNeChecked value
    return { s with visited := s.visited + 1, groups := pushMember s.groups lev }
  else .ok { s with visited := s.visited + 1 }

/-- One entry of the scan. -/
def purgeEntry (maxEntries : Nat) (s : PurgeScan) (key value : Bytes) : PurgeScan × Bool :=
  match s.enter maxEntries key with
  | .error e => ({ s with error := some e }, false)
  | .ok none => ({ s with resumeAfter := s.current.map Prod.fst, current := none }, false)
  | .ok (some s) =>
    match s.visit value with
    | .error e => ({ s with error := some e }, false)
    | .ok s => (s, true)

def memberRaw (txn : RwTxn) (lev : Nat) : Except DbError Bytes :=
  okOr (txn.getU64 Dbis.event lev) (.msg "dangling replacement index entry")

/-- The winner so far against the next member: one of them loses. -/
def loserStep (txn : RwTxn) (s : (Nat × Bytes) × List Nat) (lev : Nat) :
    Except DbError ((Nat × Bytes) × List Nat) := do
  let raw ← memberRaw txn lev
  let winner ← viewPacked s.1.2
  let other ← viewPacked raw
  return if isEventABeforeEventB winner other then ((lev, raw), s.2 ++ [s.1.1])
    else (s.1, s.2 ++ [lev])

/-- Every member of the group but its winner is a loser. -/
def groupLosers (txn : RwTxn) (losers members : List Nat) : Except DbError (List Nat) :=
  match members with
  | [] => .ok losers
  | first :: rest => do
    let raw ← memberRaw txn first
    let result ← rest.foldlM (loserStep txn) ((first, raw), losers)
    return result.2

structure PurgeBatch where
  history : SupersededHistory
  resumeAfter : Option Bytes

section Batches

variable {σ : Type} (env : Services) (sink : NegentropySink σ)

/-- The scan of a batch. -/
def purgeScan (t : Tables) (after : Option Bytes) (maxEntries : Nat) : PurgeScan :=
  (View.scanFold (purgeEntry maxEntries) .empty
    (t.scan Dbis.eventReplace (after.getD []) [] false)).1

/-- The members of the addresses with more than one version. -/
def PurgeScan.crowded (s : PurgeScan) : List (List Nat) :=
  s.groups.filter fun members => 1 < members.length

/-- `purge_batch`. -/
def purgeBatch (w : Writer σ) (after : Option Bytes) (maxEntries : Nat) :
    Except DbError (PurgeBatch × Writer σ) :=
  let scan := purgeScan w.txn.tables after maxEntries
  match scan.error with
  | some e => .error e
  | none => do
    let losers ← scan.crowded.foldlM (groupLosers w.txn) []
    let (_, w) ← deleteEvents env sink w (losers.map (Fin.ofNat (2 ^ 64)))
    return (⟨⟨scan.crowded.length, (scan.crowded.map fun members => members.length - 1).sum⟩,
      scan.resumeAfter⟩, w)

end Batches

end Wok.Db
