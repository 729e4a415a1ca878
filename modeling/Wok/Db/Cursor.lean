/-
**Cursors over a snapshot and its staged writes.**

A column family is a byte map in key order; a write transaction keeps its puts and deletes in an
overlay of the same shape, where `none` marks a staged delete. A cursor merges the two. The model
follows the source operation by operation: the native iterator with its four seeks and two steps,
`position`, which finds the next visible row in one direction, the LMDB cursor operations on top
of it, and `foreach`, which chooses a chain of them to find the start of a scan.

* `View` — a table's committed rows and its overlay, with the facts the writer maintains: both in
  key order, every stored row the encoding of an entry.
* `View.Holds` — the merged logical table, by point lookup.
* `View.position`, `View.get`, `View.foreach` — the cursor.
-/

import Wok.Db.Codec
import Wok.Library.Sorted

namespace Wok.Db

open Wok.Library

/-- A logical key and value. -/
abbrev Kv := Bytes × Bytes

/-! ### Combined records -/

/-- The column family of a table: the two parts of an event share one. -/
def physical (dbi : Nat) : Nat := if combined dbi then 3 else dbi

structure Record where
  packed : Option Bytes := none
  payload : Option Bytes := none
  deriving DecidableEq

/-- One component of a combined record; a length of `u32::MAX` marks a missing one. -/
def part (raw : Bytes) : Except DbError (Option Bytes × Bytes) :=
  if raw.length < 4 then .error (err "short combined record")
  else
    let n := leVal (raw.take 4)
    let raw := raw.drop 4
    if n = 2 ^ 32 - 1 then .ok (none, raw)
    else if raw.length < n then .error (err "short combined component")
    else .ok (some (raw.take n), raw.drop n)

def parts (raw : Bytes) : Except DbError (Option Bytes × Option Bytes) := do
  let (packed, raw) ← part raw
  let (payload, raw) ← part raw
  if raw ≠ [] then .error (err "trailing combined bytes") else .ok (packed, payload)

def Record.decode (raw : Bytes) : Except DbError Record := do
  let (packed, payload) ← parts raw
  .ok { packed, payload }

def encodePart (v : Option Bytes) : Bytes :=
  leBytes 4 (v.elim (2 ^ 32 - 1) (·.length % 2 ^ 32)) ++ v.getD []

def Record.encode (r : Record) : Bytes := encodePart r.packed ++ encodePart r.payload

theorem part_encodePart (v : Option Bytes) (rest : Bytes)
    (small : ∀ b ∈ v, b.length < 2 ^ 32 - 1) : part (encodePart v ++ rest) = .ok (v, rest) := by
  cases v with
  | none =>
    have head : leVal (leBytes 4 (2 ^ 32 - 1)) = 2 ^ 32 - 1 := leVal_leBytes (by norm_num)
    rw [encodePart, Option.elim_none, Option.getD_none, List.append_nil, part,
      if_neg (by simp), List.take_append_of_le_length (by simp),
      List.take_of_length_le (by simp), head]
    simp
  | some b =>
    have length : b.length < 2 ^ 32 - 1 := small b rfl
    have head : leVal (leBytes 4 (b.length % 2 ^ 32)) = b.length := by
      rw [Nat.mod_eq_of_lt (by omega)]
      exact leVal_leBytes (length.trans (by norm_num))
    rw [encodePart, Option.elim_some, Option.getD_some, List.append_assoc, part,
      if_neg (by simp), List.take_append_of_le_length (by simp),
      List.take_of_length_le (by simp), head, List.drop_append_of_le_length (by simp),
      List.drop_of_length_le (by simp)]
    simp
    omega

/-- Components shorter than `u32::MAX` are read back. -/
theorem parts_encode (r : Record) (packed : ∀ b ∈ r.packed, b.length < 2 ^ 32 - 1)
    (payload : ∀ b ∈ r.payload, b.length < 2 ^ 32 - 1) :
    parts r.encode = .ok (r.packed, r.payload) := by
  have last := part_encodePart r.payload [] payload
  rw [List.append_nil] at last
  simp [parts, Record.encode, part_encodePart _ _ packed, last, bind, Except.bind]

/-! ### Views -/

/-- Staged writes in order of column family and physical key; `none` is a delete. -/
abbrev Overlay := List ((Nat × Bytes) × Option Bytes)

/-- The staged rows of one column family: the range from `(id, [])` to before `(id + 1, [])`. -/
def Overlay.rows (s : Overlay) (id : Nat) : List (Bytes × Option Bytes) :=
  (s.filter fun e => e.1.1 = id).map fun e => (e.1.2, e.2)

/-- A stored row read as a logical entry; a combined record may lack the table's component. -/
def readRow (dbi : Nat) (pk value : Bytes) : Except DbError (Option Kv) :=
  if combined dbi then do
    let (key, _) ← decode dbi pk []
    let (packed, payload) ← parts value
    .ok ((if dbi = 3 then packed else payload).map fun v => (key, v))
  else (decode dbi pk value).map some

/-- A row the writer can have stored: the encoding of an entry. A combined record can be read while
its components are shorter than `2^32 - 1` bytes, the length that marks a missing one. -/
def Stored (dbi : Nat) (pk value : Bytes) : Prop :=
  ∃ key val, pk = entryKey dbi key val ∧
    (combined dbi = true → ∃ components, parts value = .ok components) ∧
    (combined dbi = false → (spec dbi).flags.dupSort = false → val = value)

/-- One table as a transaction sees it. A snapshot has no overlay. -/
structure View where
  dbi : Nat
  committed : List (Bytes × Bytes)
  staged : Option Overlay
  committed_sorted : SortedBy Prod.fst committed
  committed_stored : ∀ row ∈ committed, Stored dbi row.1 row.2
  staged_sorted : ∀ s ∈ staged, SortedBy Prod.fst (s.rows (physical dbi))
  staged_stored : ∀ s ∈ staged, ∀ row ∈ s.rows (physical dbi), ∀ value ∈ row.2,
    Stored dbi row.1 value

namespace View

variable (v : View)

/-- The staged rows of the table's column family. -/
def stagedRows : List (Bytes × Option Bytes) := v.staged.elim [] fun s => s.rows (physical v.dbi)

/-- A point lookup: the overlay decides where it has the key. -/
def raw (pk : Bytes) : Option Bytes :=
  match v.stagedRows.find? fun row => row.1 = pk with
  | some row => row.2
  | none => (v.committed.find? fun row => row.1 = pk).map Prod.snd

/-- The entries of the merged table. -/
def Holds (e : Kv) : Prop :=
  ∃ value, v.raw (entryKey v.dbi e.1 e.2) = some value ∧
    readRow v.dbi (entryKey v.dbi e.1 e.2) value = .ok (some e)

/-! ### The native iterator -/

def seek (b : Bytes) : Option (Bytes × Bytes) := v.committed.find? fun row => b ≤ row.1

def seekForPrev (b : Bytes) : Option (Bytes × Bytes) :=
  v.committed.reverse.find? fun row => row.1 ≤ b

def seekToFirst : Option (Bytes × Bytes) := v.committed.head?

def seekToLast : Option (Bytes × Bytes) := v.committed.reverse.head?

def next (it : Option (Bytes × Bytes)) : Option (Bytes × Bytes) :=
  it.bind fun at_ => v.committed.find? fun row => at_.1 < row.1

def prev (it : Option (Bytes × Bytes)) : Option (Bytes × Bytes) :=
  it.bind fun at_ => v.committed.reverse.find? fun row => row.1 < at_.1

end View

/-! ### Cursors -/

/-- A cursor: the native iterator's row, the physical and the logical key it is on. -/
structure Cursor where
  it : Option (Bytes × Bytes) := none
  current : Option Bytes := none
  logicalKey : Option Bytes := none
  deriving DecidableEq

/-- The least upper bound of the strings that start with a prefix. -/
def successor (pre : Bytes) : Option Bytes :=
  go pre.reverse
where
  /-- The prefix without its trailing `255`s, last byte incremented. -/
  go : Bytes → Option Bytes
  | [] => none
  | b :: out => if b ≠ 255 then some ((b + 1) :: out).reverse else go out

/-- Whether a physical key lies between a bound and the end the cursor moves to. -/
def inRange (bound : Option Bytes) (forward inclusive : Bool) (pk : Bytes) : Bool :=
  match bound with
  | none => true
  | some b =>
    if forward then if inclusive then b ≤ pk else b < pk
    else if inclusive then pk ≤ b else pk < b

namespace View

variable (v : View)

/-- The staged row a positioning step looks at. -/
def stagedFrom (bound : Option Bytes) (forward inclusive : Bool) :
    Option (Bytes × Option Bytes) :=
  if forward then v.stagedRows.find? fun row => inRange bound forward inclusive row.1
  else v.stagedRows.reverse.find? fun row => inRange bound forward inclusive row.1

/-- Moves the native iterator to the bound. A snapshot cursor that is already there keeps its
place; an overlay cursor's last row may exist only in the staged writes, so it always seeks. -/
def reseek (it : Option (Bytes × Bytes)) (bound : Option Bytes) (forward : Bool) :
    Option (Bytes × Bytes) :=
  let onBound := bound.isSome && it.map Prod.fst == bound
  if v.staged.isSome || !onBound then
    match bound, forward with
    | some b, true => v.seek b
    | some b, false => v.seekForPrev b
    | none, true => v.seekToFirst
    | none, false => v.seekToLast
  else it

/-- The row the native iterator is on before the overlay is merged in. -/
def settle (it : Option (Bytes × Bytes)) (bound : Option Bytes) (forward inclusive : Bool) :
    Option (Bytes × Bytes) :=
  let it := v.reseek it bound forward
  if !inclusive && bound.isSome && it.map Prod.fst == bound then
    if forward then v.next it else v.prev it
  else it

/-- The nearer of a committed and a staged row; the staged one wins a tie. -/
def nearer (forward : Bool) (db : Option (Bytes × Bytes)) (staged : Option (Bytes × Option Bytes)) :
    Option (Bytes × Option Bytes) :=
  match db, staged with
  | some d, some s =>
    if (forward = true ∧ s.1 ≤ d.1) ∨ (forward = false ∧ d.1 ≤ s.1) then some s
    else some (d.1, some d.2)
  | some d, none => some (d.1, some d.2)
  | none, some s => some s
  | none, none => none

/-- Finds the first visible row from a bound on, in physical order or against it. -/
def positionWithin : Nat → Cursor → Option Bytes → Bool → Bool →
    Except DbError (Cursor × Option Kv)
  | 0, _, _, _, _ => .error (err "position ran out of rows")
  | fuel + 1, c, bound, forward, inclusive =>
    let c := { c with it := v.settle c.it bound forward inclusive }
    match nearer forward c.it (v.stagedFrom bound forward inclusive) with
    | none => .ok (c, none)
    | some (pk, none) => positionWithin fuel c (some pk) forward false
    | some (pk, some value) =>
      match readRow v.dbi pk value with
      | .error e => .error e
      | .ok none => positionWithin fuel c (some pk) forward false
      | .ok (some kv) =>
        .ok ({ c with current := some pk, logicalKey := some kv.1 }, some kv)

/-- Each turn of the loop passes a row, so the rows of both sources bound its turns. -/
def position (c : Cursor) (bound : Option Bytes) (forward inclusive : Bool) :
    Except DbError (Cursor × Option Kv) :=
  v.positionWithin (v.committed.length + v.stagedRows.length + 1) c bound forward inclusive

/-- First or last logical duplicate of a key, optionally accepting other keys. -/
def keyEdge (c : Cursor) (key : Bytes) (first : Bool) : Except DbError (Cursor × Option Kv) :=
  let pre := encode v.dbi key none
  if first != reversed v.dbi then v.position c (some pre) true true
  else v.position c (successor pre) false false

end View

/-- The LMDB cursor operations. -/
inductive Op
  | first
  | last
  | next
  | prev
  | getCurrent
  | set
  | setKey
  | setRange
  | getBoth
  | getBothRange
  | nextDup
  | prevDup
  | firstDup
  | lastDup
  | nextNodup
  | prevNodup
  deriving DecidableEq, Repr

namespace View

variable (v : View)

def getInner (c : Cursor) (key val : Option Bytes) (op : Op) :
    Except DbError (Cursor × Option Kv) :=
  let rev := reversed v.dbi
  match op with
  | .first => v.position c none (!rev) true
  | .last => v.position c none rev true
  | .next => v.position c c.current (!rev) false
  | .prev => v.position c c.current rev false
  | .getCurrent =>
    match c.current with
    | some k => v.position c (some k) true true
    | none => .ok (c, none)
  | .set | .setKey | .setRange =>
    match key with
    | none => .error (err "missing seek key")
    | some key => do
      let (c, row) ← v.keyEdge c key true
      .ok (c, if op = .setRange then row else row.filter fun r => r.1 = key)
  | .getBoth | .getBothRange =>
    match key, val with
    | none, _ => .error (err "missing seek key")
    | some _, none => .error (err "missing seek duplicate")
    | some k, some d => do
      let (c, row) ← v.position c (some (encode v.dbi k (some d))) (!rev) true
      .ok (c, row.filter fun r => r.1 = k ∧ (op = .getBothRange ∨ r.2 = d))
  | .nextDup | .prevDup => do
    let currentKey := c.logicalKey
    let (c, row) ← v.position c c.current (if op = .nextDup then !rev else rev) false
    .ok (c, row.filter fun r => some r.1 = currentKey)
  | .firstDup | .lastDup =>
    match c.logicalKey with
    | some k => v.keyEdge c k (op = .firstDup)
    | none => .ok (c, none)
  | .nextNodup | .prevNodup =>
    match c.logicalKey with
    | none => v.position c none (if op = .nextNodup then !rev else rev) true
    | some k =>
      let pre := encode v.dbi k none
      if decide (op = .nextNodup) != rev then
        match successor pre with
        | some up => v.position c (some up) true true
        | none => .ok (c, none)
      else v.position c (some pre) false false

/-- A cursor operation; one that finds nothing leaves the cursor on its row. -/
def get (c : Cursor) (key val : Option Bytes) (op : Op) : Except DbError (Cursor × Option Kv) := do
  let (c', row) ← v.getInner c key val op
  if row.isNone then .ok ({ c' with current := c.current, logicalKey := c.logicalKey }, none)
  else .ok (c', row)

/-- The first row of a scan. -/
def start (c : Cursor) (startKey startDup : Bytes) (reverse : Bool) :
    Except DbError (Cursor × Option Kv) :=
  let dups := (spec v.dbi).flags.dupSort
  if startKey = [] then v.get c none none (if reverse then .last else .first)
  else if v.staged.isNone && dups && startDup ≠ [] then
    v.position c (some (encode v.dbi startKey (some startDup))) (reverse == reversed v.dbi) true
  else if reverse then
    if dups then do
      let (c, at_) ←
        if startDup = [] then .ok (c, none)
        else v.get c (some startKey) (some startDup) .getBothRange
      match at_ with
      | some row => if row.2 = startDup then .ok (c, some row) else v.get c none none .prev
      | none =>
        let (c, row) ← v.get c (some startKey) none .setKey
        if row.isSome then v.get c none none .lastDup
        else
          let (c, row) ← v.get c (some startKey) none .setRange
          if row.isSome then v.get c none none .prev else v.get c none none .last
    else do
      let (c, row) ← v.get c (some startKey) none .setRange
      match row with
      | some row => if row.1 = startKey then .ok (c, some row) else v.get c none none .prev
      | none => v.get c none none .last
  else if dups then
    if startDup ≠ [] then do
      let (c, row) ← v.get c (some startKey) (some startDup) .getBothRange
      match row with
      | some row => .ok (c, some row)
      | none =>
        let (c, row) ← v.get c (some startKey) none .setKey
        if row.isSome then v.get c none none .nextNodup
        else v.get c (some startKey) none .setRange
    else do
      let (c, row) ← v.get c (some startKey) none .setKey
      if row.isSome then v.get c none none .nextNodup
      else v.get c (some startKey) none .setRange
  else v.get c (some startKey) none .setRange

/-- Hands rows to the callback until it stops or the scan ends. -/
def foreachFrom {σ : Type} (cb : σ → Bytes → Bytes → σ × Bool) (reverse : Bool) :
    Nat → Cursor → σ → Option Kv → Except DbError (Cursor × σ × Bool)
  | _, c, s, none => .ok (c, s, true)
  | 0, _, _, some _ => .error (err "scan ran out of rows")
  | fuel + 1, c, s, some row =>
    let (s, goOn) := cb s row.1 row.2
    if goOn = false then .ok (c, s, false)
    else do
      let (c, row) ← v.get c none none (if reverse then .prev else .next)
      foreachFrom cb reverse fuel c s row

/-- A range scan from a start, with a callback that keeps a state. -/
def foreach {σ : Type} (c : Cursor) (startKey startDup : Bytes) (reverse : Bool)
    (cb : σ → Bytes → Bytes → σ × Bool) (s : σ) : Except DbError (Cursor × σ × Bool) := do
  let (c, row) ← v.start c startKey startDup reverse
  v.foreachFrom cb reverse (v.committed.length + v.stagedRows.length) c s row

end View

end Wok.Db
