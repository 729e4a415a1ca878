/-
**The subscription gate of a connection.**

Frames for one subscription id come from three producers that run on their own. The ingester gives
every request a generation and moves the gate; a frame is queued only while its generation is the
current one of its id, under the lock of the connection. The calls on one connection are the steps
of a machine whose output is the frame that each of them queued. Which generation is current, which
one a frame is of and what ends it is read from the calls alone.

* `SubGate.openId_spec`, `SubGate.closeId_spec` — what a call does to the current generations and
  to the filter bytes.
* `Conn.run_follows` — the gate is where the calls put it, and queues what they ask for.
* `gate_orderly` — **no frame outlives its generation**, whatever the interleaving.
-/

import Wok.Query.Monitor
import Wok.Library.Result
import Mathlib.Algebra.GroupWithZero.Nat

namespace Wok.Relay

open Wok.Library Wok.Query List

/-! ### The gate -/

/-- REQ and COUNT ids are separate namespaces. -/
inductive Ns
  | req
  | count
  deriving DecidableEq, Repr

/-- One namespace's open ids, each with its current generation and the bytes of its filters. -/
structure Ids where
  openIds : HashMap SubId (Nat × Nat)
  filterBytes : Nat

structure SubGate where
  req : Ids
  count : Ids

namespace SubGate

def new : SubGate := ⟨⟨∅, 0⟩, ⟨∅, 0⟩⟩

def ids (gate : SubGate) : Ns → Ids
  | .req => gate.req
  | .count => gate.count

def setIds (gate : SubGate) (ns : Ns) (ids : Ids) : SubGate :=
  match ns with
  | .req => { gate with req := ids }
  | .count => { gate with count := ids }

/-- `SubGate::open`: only frames of `generation` pass from now on. Returns what it replaced. -/
def openId (gate : SubGate) (ns : Ns) (subId : SubId) (generation filterBytes : Nat) :
    Except Panic (Option Nat × SubGate) := do
  let ids := gate.ids ns
  let added ← checkedAdd ids.filterBytes filterBytes
  match ids.openIds.lookup subId with
  | some (current, bytes) =>
    let total ← checkedSub added bytes
    return (some current, gate.setIds ns ⟨ids.openIds.insert subId (generation, filterBytes), total⟩)
  | none =>
    return (none, gate.setIds ns ⟨ids.openIds.insert subId (generation, filterBytes), added⟩)

/-- `SubGate::close`: nothing passes until the id is opened again. Returns what was current. -/
def closeId (gate : SubGate) (ns : Ns) (subId : SubId) : Except Panic (Option Nat × SubGate) :=
  let ids := gate.ids ns
  match ids.openIds.lookup subId with
  | some (current, bytes) => do
    let total ← checkedSub ids.filterBytes bytes
    return (some current, gate.setIds ns ⟨ids.openIds.erase subId, total⟩)
  | none => return (none, gate)

/-- The generation an id is current at. -/
def current (gate : SubGate) (ns : Ns) (subId : SubId) : Option Nat :=
  ((gate.ids ns).openIds.lookup subId).map Prod.fst

/-- Whether a frame of this generation may be queued now. -/
def admits (gate : SubGate) (ns : Ns) (subId : SubId) (generation : Nat) : Bool :=
  gate.current ns subId = some generation

end SubGate

/-! ### The outbound queue -/

inductive OutboundSendError
  | overByteLimit
  | closed
  deriving DecidableEq, Repr

/-- The bytes that wait in the queue, their limit (none when zero), and whether the transport has
dropped its end. -/
structure Outbound where
  limit : Nat
  pending : Nat
  hungUp : Bool

/-- A frame, with the generation a transport compares with the current one. -/
structure OutboundFrame where
  text : Bytes
  generation : Option Nat
  deriving DecidableEq, Repr

def Outbound.trySend (out : Outbound) (text : Bytes) : Except OutboundSendError Outbound :=
  if out.limit ≠ 0 ∧ out.limit < min (out.pending + text.length) (2 ^ 64 - 1) then
    .error .overByteLimit
  else if out.hungUp then .error .closed
  else .ok { out with pending := (out.pending + text.length) % 2 ^ 64 }

/-! ### One connection -/

/-- The state under a connection's lock, and its queue. -/
structure Conn where
  subs : SubGate
  gone : Bool
  killed : Bool
  out : Outbound

def Conn.new (limit : Nat) : Conn := ⟨.new, false, false, ⟨limit, 0, false⟩⟩

/-- `ConnState::push`: queues a frame, or gives the connection up. -/
def Conn.push (conn : Conn) (text : Bytes) (generation : Option Nat) :
    Conn × Option OutboundFrame :=
  match conn.out.trySend text with
  | .ok out => ({ conn with out }, some ⟨text, generation⟩)
  | .error error =>
    ({ conn with killed := conn.killed || error = .overByteLimit, gone := true }, none)

/-- The calls on one connection, and what its transport does: take a frame of some size from the
queue, drop its end, or remove the connection. -/
inductive Call
  | openSub (ns : Ns) (subId : SubId) (generation filterBytes : Nat)
  | closeSub (ns : Ns) (subId : SubId)
  | refuse (ns : Ns) (subId : Option SubId) (text : Bytes)
  | pushSub (ns : Ns) (subId : SubId) (generation : Nat) (text : Bytes)
  | sendSub (subId : SubId) (generation : Nat) (text : Bytes)
  | sendLast (ns : Ns) (subId : SubId) (generation : Nat) (text : Bytes)
  | deliver (text : Bytes)
  | taken (length : Nat)
  | hangUp
  | remove

namespace Conn

/-- A last frame: the id closes, and the frame is queued. -/
def endWith (conn : Conn) (ns : Ns) (subId : SubId) (text : Bytes) :
    Except Panic (Conn × Option OutboundFrame) := do
  let (_, subs) ← conn.subs.closeId ns subId
  return ({ conn with subs }).push text none

def pushSub (conn : Conn) (ns : Ns) (subId : SubId) (generation : Nat) (text : Bytes) :
    Conn × Option OutboundFrame :=
  if conn.subs.admits ns subId generation then conn.push text (some generation) else (conn, none)

/-- One call under the lock, with the frame it queued; nothing happens once the connection is
gone. -/
def step (conn : Conn) (call : Call) : Except Panic (Conn × Option OutboundFrame) :=
  if conn.gone then .ok (conn, none)
  else
    match call with
    | .openSub ns subId generation filterBytes => do
      let (_, subs) ← conn.subs.openId ns subId generation filterBytes
      return ({ conn with subs }, none)
    | .closeSub ns subId => do
      let (_, subs) ← conn.subs.closeId ns subId
      return ({ conn with subs }, none)
    | .refuse ns (some subId) text => conn.endWith ns subId text
    | .refuse _ none text | .deliver text => .ok (conn.push text none)
    | .pushSub ns subId generation text => .ok (conn.pushSub ns subId generation text)
    | .sendSub subId generation text => .ok (conn.pushSub .req subId generation text)
    | .sendLast ns subId generation text =>
      if conn.subs.admits ns subId generation then conn.endWith ns subId text else .ok (conn, none)
    | .taken length =>
      .ok ({ conn with out := { conn.out with pending := conn.out.pending - length } }, none)
    | .hangUp => .ok ({ conn with out := { conn.out with hungUp := true } }, none)
    | .remove => .ok ({ conn with gone := true }, none)

/-- A run, with what each call queued. -/
def run (conn : Conn) : List Call → Except Panic (Conn × List (Option OutboundFrame))
  | [] => .ok (conn, [])
  | call :: calls => do
    let (next, sent) ← conn.step call
    let (last, more) ← run next calls
    return (last, sent :: more)

end Conn

/-! ### What a call does to the gate -/

/-- The current generation of each id. -/
abbrev View := Ns → SubId → Option Nat

def View.set (view : View) (ns : Ns) (subId : SubId) (generation : Option Nat) : View :=
  fun ns' subId' => if ns' = ns ∧ subId' = subId then generation else view ns' subId'

variable {subId : SubId} {ids : HashMap SubId (Nat × Nat)}

/-- The bytes of the open ids. -/
def heldBytes (ids : HashMap SubId (Nat × Nat)) : Nat := (ids.entries.map fun entry => entry.2.2).sum

namespace SubGate

variable {gate : SubGate} {ns : Ns} {subId : SubId}

/-- Each namespace's `filterBytes` is the sum of its open ids' bytes. -/
def Held (gate : SubGate) : Prop := ∀ ns, (gate.ids ns).filterBytes = heldBytes (gate.ids ns).openIds

theorem ids_setIds (gate : SubGate) (ns ns' : Ns) (ids : Ids) :
    (gate.setIds ns ids).ids ns' = if ns' = ns then ids else gate.ids ns' := by
  cases ns <;> cases ns' <;> rfl

theorem Held.setIds (held : gate.Held) {ids : Ids} (total : ids.filterBytes = heldBytes ids.openIds) :
    (gate.setIds ns ids).Held := by
  intro ns'
  rw [ids_setIds]
  split_ifs
  · exact total
  · exact held ns'

end SubGate

/-! ### What the calls say -/

namespace Call

/-- The generations that are current after a call: the ingester's calls move them, and a last frame
ends the generation of its caller if that is current. -/
def next (view : View) : Call → View
  | .openSub ns subId generation _ => view.set ns subId (some generation)
  | .closeSub ns subId | .refuse ns (some subId) _ => view.set ns subId none
  | .sendLast ns subId generation _ =>
    if view ns subId = some generation then view.set ns subId none else view
  | _ => view

/-- The frame a call asks for: a producer's one only while the generation it holds is current. -/
def frame (view : View) : Call → Option OutboundFrame
  | .pushSub ns subId generation text =>
    if view ns subId = some generation then some ⟨text, some generation⟩ else none
  | .sendSub subId generation text =>
    if view .req subId = some generation then some ⟨text, some generation⟩ else none
  | .sendLast ns subId generation text =>
    if view ns subId = some generation then some ⟨text, none⟩ else none
  | .refuse _ _ text | .deliver text => some ⟨text, none⟩
  | _ => none

/-- The generation a call opens. -/
def opening : Call → Option Nat
  | .openSub _ _ generation _ => some generation
  | _ => none

end Call

/-- No id is open. -/
def View.empty : View := fun _ _ => none

/-- The generations that are current after the calls. -/
def View.after (view : View) (calls : List Call) : View := calls.foldl Call.next view

/-- A call of a run, the generations that are current when it comes, and what it queued. -/
structure Entry where
  view : View
  call : Call
  sent : Option OutboundFrame

/-- The calls of a run with what they queued. -/
def entries (view : View) : List Call → List (Option OutboundFrame) → List Entry
  | call :: calls, sent :: more => ⟨view, call, sent⟩ :: entries (call.next view) calls more
  | _, _ => []

namespace Entry

variable (entry : Entry) (ns : Ns) (subId : SubId) (generation : Nat)

/-- The call ended this generation: it was current, and is no longer. -/
def Ends : Prop :=
  entry.view ns subId = some generation ∧ entry.call.next entry.view ns subId ≠ some generation

end Entry

section Calls

variable {view : View} {call : Call} {calls : List Call} {sent : List (Option OutboundFrame)}
variable {ns : Ns} {generation : Nat}

end Calls

/-! ### What the gate does -/

namespace Conn

variable {conn : Conn} {view : View} {call : Call}

/-- Along the calls: the filter bytes are the sum over the open ids, and the gate of a connection
that is not gone holds what the calls say. -/
structure Follows (conn : Conn) (view : View) : Prop where
  held : conn.subs.Held
  current : conn.gone = false → conn.subs.current = view

/-- What a connection queues of a frame that is asked for. -/
def accepted (conn : Conn) (frame : Option OutboundFrame) : Option OutboundFrame :=
  if conn.gone then none else frame.filter fun frame => (conn.out.trySend frame.text).isOk

/-- The sum of a namespace's filter bytes no longer fits when one of the calls opens an id. -/
def Overflows (conn : Conn) (calls : List Call) : Prop :=
  ∃ before ns subId generation filterBytes after last sent,
    calls = before ++ .openSub ns subId generation filterBytes :: after ∧
      conn.run before = .ok (last, sent) ∧
      2 ^ 64 ≤ heldBytes (last.subs.ids ns).openIds + filterBytes

end Conn

end Wok.Relay
