/-
**Handing messages to the workers.**

An ingester never waits for a worker. A message for a full queue is parked, and so is every later
one for that worker. While something of a connection is parked its ingress gate is closed. A
connection that closes takes its parked messages with it, and a worker that was handed something of
it gets one `Close`. A subscription's message for the req worker follows its monitor message: it is
released when that one is in the monitor's queue.

* `Turn.flush`, `Turn.sendThen`, `Turn.close` — one lane: a worker's queue and what is parked for it.
* `Gates` — how much of each connection is parked, over all lanes.
* `Dispatch` — the lanes of an ingester, with `subscription`, `close` and `flush`.

A queue answers each try as it likes. What entered it is kept, and so is the order in which messages
were given to the lanes and entered the monitors' queues.
-/

import Mathlib.Data.Finset.Basic
import Mathlib.Data.Fintype.Fin
import Mathlib.Tactic.DeriveFintype
import Wok.Query.Monitor
import Wok.Query.Scheduler

namespace Wok.Relay

open Wok.Library Wok.Event Wok.Query

/-! ### Messages -/

/-- A message the ingester routes, by its connection. -/
class Routed (T : Type) where
  connId : T → Nat
  isClose : T → Bool

inductive MonitorMsg
  | register (sub : Subscription)
  | remove (connId : Nat) (subId : SubId) (generation : Nat)
  | historyDone (connId : Nat) (subId : SubId) (generation snapshot : Nat)
  | setAuth (connId : Nat) (authed : Bytes) (epoch : Nat)
  | close (connId : Nat)

inductive ReqMsg
  | scan (sub : QuerySubscription)
  | count (sub : QuerySubscription)
  | setAuth (connId : Nat) (authed : Bytes) (epoch : Nat)
  | cancel (connId : Nat) (subId : SubId) (generation : Nat) (countOnly : Bool)
  | close (connId : Nat)

instance : Routed ReqMsg where
  connId
    | .scan sub => sub.connId
    | .count sub => sub.connId
    | .setAuth connId _ _ => connId
    | .cancel connId _ _ _ => connId
    | .close connId => connId
  isClose
    | .close _ => true
    | _ => false

instance : Routed MonitorMsg where
  connId
    | .register sub => sub.connId
    | .remove connId _ _ => connId
    | .historyDone connId _ _ _ => connId
    | .setAuth connId _ _ => connId
    | .close connId => connId
  isClose
    | .close _ => true
    | _ => false

inductive NegMsg
  | «open» (sub : Subscription) (filterStr payload : Bytes)
  | msg (connId : Nat) (subId : SubId) (payload : Bytes) (received : Nat)
  | setAuth (connId : Nat) (authed : Bytes) (epoch : Nat)
  | closeSub (connId : Nat) (subId : SubId)
  | fail (connId : Nat) (subId : SubId) (message : Bytes)
  | close (connId : Nat)

instance : Routed NegMsg where
  connId
    | .open sub _ _ => sub.connId
    | .msg connId _ _ _ => connId
    | .setAuth connId _ _ => connId
    | .closeSub connId _ => connId
    | .fail connId _ _ => connId
    | .close connId => connId
  isClose
    | .close _ => true
    | _ => false

/-- Maintenance, management and the end of the writer are never sent by an ingester. -/
inductive WriterMsg
  | maintenance
  | addEvent (connId : Nat) (packed json : Bytes) (authed : Option Bytes)
  | close (connId : Nat)
  | management
  | stop

instance : Routed WriterMsg where
  connId
    | .addEvent connId _ _ _ => connId
    | .close connId => connId
    | .maintenance => 0
    | .management => 0
    | .stop => 0
  isClose
    | .close _ => true
    | _ => false

/-! ### Gates -/

/-- The gates of the open connections, `true` while they let messages in, and how many messages of
each connection are parked. -/
structure Gates where
  «open» : HashMap Nat Bool
  parked : HashMap Nat Nat

namespace Gates

def new : Gates := ⟨∅, ∅⟩

/-- Sets the gate of a connection that has one. -/
def setGate (gates : Gates) (connId : Nat) (value : Bool) : Gates :=
  if (gates.open.lookup connId).isSome then { gates with «open» := gates.open.insert connId value }
  else gates

def park (gates : Gates) (connId : Nat) : Gates :=
  let parked := (gates.parked.lookup connId).getD 0 + 1
  let gates := { gates with parked := gates.parked.insert connId parked }
  if parked = 1 then gates.setGate connId false else gates

def unpark (gates : Gates) (connId : Nat) : Gates :=
  match gates.parked.lookup connId with
  | none => gates
  | some parked =>
    let parked := parked - 1
    if parked = 0 then
      { gates with parked := gates.parked.erase connId }.setGate connId true
    else { gates with parked := gates.parked.insert connId parked }

end Gates

/-! ### Lanes -/

/-- What a queue answers. -/
inductive Answer
  | ok
  | full
  | disconnected
  deriving DecidableEq, Repr

/-- A queue that answers its tries in this order. -/
structure Sender where
  answers : Nat → Answer
  tries : Nat

def Sender.trySend (tx : Sender) : Answer × Sender :=
  (tx.answers tx.tries, { tx with tries := tx.tries + 1 })

/-- A worker's queue as an ingester sees it. `delivered` are the open connections of which something
is in the queue, `passed` is what has entered it. -/
structure Lane (T F : Type) where
  tx : Sender
  parked : List (T × Option F)
  delivered : Finset Nat
  passed : List (T × Option F)

/-- A lane, the gates, and the follow-ups released so far. -/
structure Turn (T F : Type) where
  lane : Lane T F
  gates : Gates
  released : List F

section Lanes

variable {T F : Type} [Routed T]

open Routed

def Lane.new (answers : Nat → Answer) : Lane T F := ⟨⟨answers, 0⟩, [], ∅, []⟩

/-- The message enters the queue. -/
def Lane.pass (lane : Lane T F) (tx : Sender) (msg : T) (follow : Option F) : Lane T F :=
  { lane with
    tx := tx
    delivered := if isClose msg then lane.delivered else insert (connId msg) lane.delivered
    passed := lane.passed ++ [(msg, follow)] }

namespace Turn

variable (t : Turn T F)

def park (msg : T) (follow : Option F) : Turn T F :=
  { t with
    lane := { t.lane with parked := t.lane.parked ++ [(msg, follow)] }
    gates := t.gates.park (connId msg) }

/-- Moves these parked messages into the queue while it has room; those left stay parked. -/
def flushLoop : List (T × Option F) → Turn T F → Turn T F × Bool
  | [], t => ({ t with lane := { t.lane with parked := [] } }, true)
  | (msg, follow) :: rest, t =>
    let (answer, tx) := t.lane.tx.trySend
    match answer with
    | .ok => flushLoop rest
        ⟨t.lane.pass tx msg follow, t.gates.unpark (connId msg), t.released ++ follow.toList⟩
    | .disconnected => flushLoop rest
        { t with lane := { t.lane with tx := tx }, gates := t.gates.unpark (connId msg) }
    | .full => ({ t with lane := { t.lane with tx := tx, parked := (msg, follow) :: rest } }, false)

/-- The backlog; `true` when nothing is left parked. -/
def flush : Turn T F × Bool := flushLoop t.lane.parked t

/-- A message, and what follows it on another lane once it is in the queue. -/
def sendThen (msg : T) (follow : Option F) : Turn T F :=
  let (t, done) := t.flush
  if done then
    let (answer, tx) := t.lane.tx.trySend
    match answer with
    | .ok => { t with lane := t.lane.pass tx msg follow, released := t.released ++ follow.toList }
    | .disconnected => { t with lane := { t.lane with tx := tx } }
    | .full => { t with lane := { t.lane with tx := tx } }.park msg follow
  else t.park msg follow

/-- A connection closes: what is parked of it is dropped, and `close` is sent if the worker was
handed something of it. -/
def close (conn : Nat) (close : T) : Turn T F :=
  let dropped := t.lane.parked.filter fun e => connId e.1 = conn
  let t := { t with
    lane := { t.lane with parked := t.lane.parked.filter fun e => connId e.1 ≠ conn }
    gates := dropped.foldl (fun gates _ => gates.unpark conn) t.gates }
  if conn ∈ t.lane.delivered then
    { t with lane := { t.lane with delivered := t.lane.delivered.erase conn } }.sendThen close none
  else t

end Turn

end Lanes

/-! ### The ingester's lanes -/

/-- The workers an ingester hands messages to. -/
inductive Worker (reqs monitors negs : Nat)
  | writer
  | req (i : Fin reqs)
  | mon (i : Fin monitors)
  | neg (i : Fin negs)
  deriving DecidableEq, Fintype

namespace Worker

variable {reqs monitors negs : Nat}

@[reducible] def Msg : Worker reqs monitors negs → Type
  | .writer => WriterMsg
  | .req _ => ReqMsg
  | .mon _ => MonitorMsg
  | .neg _ => NegMsg

/-- Only a monitor's message has a follow-up, for a req worker. -/
@[reducible] def Follow : Worker reqs monitors negs → Type
  | .mon _ => ReqMsg
  | _ => Unit

instance routed : (w : Worker reqs monitors negs) → Routed w.Msg
  | .writer => inferInstanceAs (Routed WriterMsg)
  | .req _ => inferInstanceAs (Routed ReqMsg)
  | .mon _ => inferInstanceAs (Routed MonitorMsg)
  | .neg _ => inferInstanceAs (Routed NegMsg)

/-- What tells a worker that a connection has closed. -/
def close : (w : Worker reqs monitors negs) → Nat → w.Msg
  | .writer, conn => WriterMsg.close conn
  | .req _, conn => ReqMsg.close conn
  | .mon _, conn => MonitorMsg.close conn
  | .neg _, conn => NegMsg.close conn

end Worker

/-- A message was given to its lane, or a monitor message entered the queue. -/
inductive Moment (monitors : Nat)
  | writer (msg : WriterMsg)
  | req (msg : ReqMsg)
  | mon (entry : MonitorMsg × Option ReqMsg)
  | neg (msg : NegMsg)
  | queued (monitor : Fin monitors) (entry : MonitorMsg × Option ReqMsg)

/-- A worker's lane is given a message. -/
def Worker.moment {reqs monitors negs : Nat} :
    (w : Worker reqs monitors negs) → w.Msg × Option w.Follow → Moment monitors
  | .writer, e => .writer e.1
  | .req _, e => .req e.1
  | .mon _, e => .mon e
  | .neg _, e => .neg e.1

/-- The worker queues of an ingester and the gates of its connections. -/
structure Dispatch (reqs monitors negs : Nat) where
  lanes : (w : Worker reqs monitors negs) → Lane w.Msg w.Follow
  gates : Gates
  released : List ReqMsg
  log : List (Moment monitors)

namespace Dispatch

variable {reqs monitors negs : Nat} [NeZero reqs] [NeZero monitors] [NeZero negs]

/-- No message yet, and queues that will answer so. -/
def new (answers : Worker reqs monitors negs → Nat → Answer) : Dispatch reqs monitors negs where
  lanes w := .new (answers w)
  gates := .new
  released := []
  log := []

variable (d : Dispatch reqs monitors negs)

/-- A connection opens with its gate open. -/
def «open» (conn : Nat) : Dispatch reqs monitors negs :=
  { d with gates := { d.gates with «open» := d.gates.open.insert conn true } }

/-! #### One lane at a time -/

/-- The follow-ups released so far, on a lane that has them. -/
def due : (w : Worker reqs monitors negs) → List w.Follow
  | .mon _ => d.released
  | .writer | .req _ | .neg _ => []

def turn (w : Worker reqs monitors negs) : Turn w.Msg w.Follow := ⟨d.lanes w, d.gates, d.due w⟩

/-- The outcome of a turn on a lane that was given `new`. -/
def set : (w : Worker reqs monitors negs) → Turn w.Msg w.Follow → List (w.Msg × Option w.Follow) →
    Dispatch reqs monitors negs
  | .mon i, t, new =>
    { lanes := Function.update d.lanes (.mon i) t.lane
      gates := t.gates
      released := t.released
      log := d.log ++ new.map .mon
        ++ (t.lane.passed.drop (d.lanes (.mon i)).passed.length).map (.queued i) }
  | w, t, new => { d with
      lanes := Function.update d.lanes w t.lane
      gates := t.gates
      log := d.log ++ new.map w.moment }

def send (w : Worker reqs monitors negs) (msg : w.Msg) (follow : Option w.Follow) :
    Dispatch reqs monitors negs :=
  d.set w ((d.turn w).sendThen msg follow) [(msg, follow)]

def closeLane (w : Worker reqs monitors negs) (conn : Nat) : Dispatch reqs monitors negs :=
  d.set w ((d.turn w).close conn (w.close conn)) [(w.close conn, none)]

/-- Flushes these lanes; `true` when nothing is parked on any. -/
def flushLanes (workers : List (Worker reqs monitors negs)) : Dispatch reqs monitors negs × Bool :=
  workers.foldl (fun (d, done) w =>
    let (t, emptied) := (d.turn w).flush
    (d.set w t [], done && emptied)) (d, true)

/-- The lane of a connection. -/
def reqOf (conn : Nat) : Fin reqs := Fin.ofNat reqs conn
def monOf (conn : Nat) : Fin monitors := Fin.ofNat monitors conn
def negOf (conn : Nat) : Fin negs := Fin.ofNat negs conn

/-! #### Sending -/

def sendWriter (msg : WriterMsg) : Dispatch reqs monitors negs := d.send .writer msg none

def sendReq (msg : ReqMsg) : Dispatch reqs monitors negs :=
  d.send (.req (reqOf (Routed.connId msg))) msg none

def sendNeg (msg : NegMsg) : Dispatch reqs monitors negs :=
  d.send (.neg (negOf (Routed.connId msg))) msg none

/-- Hands over the follow-ups. -/
def release : Dispatch reqs monitors negs :=
  d.released.foldl sendReq { d with released := [] }

def monitorThen (msg : MonitorMsg) (follow : Option ReqMsg) : Dispatch reqs monitors negs :=
  (d.send (.mon (monOf (Routed.connId msg))) msg follow).release

def monitor (msg : MonitorMsg) : Dispatch reqs monitors negs := d.monitorThen msg none

def subscription (msg : MonitorMsg) (follow : ReqMsg) : Dispatch reqs monitors negs :=
  d.monitorThen msg (some follow)

/-! #### Closing and flushing -/

def close (conn : Nat) : Dispatch reqs monitors negs :=
  let d := { d with gates := { d.gates with «open» := d.gates.open.erase conn } }
  let d := (d.closeLane (.mon (monOf conn)) conn).release
  let d := d.closeLane (.req (reqOf conn)) conn
  let d := d.closeLane (.neg (negOf conn)) conn
  d.closeLane .writer conn

/-- `true` when nothing is parked on any worker. -/
def flush : Dispatch reqs monitors negs × Bool :=
  let (d, writer) := d.flushLanes [.writer]
  let (d, mon) := d.flushLanes ((List.finRange monitors).map .mon)
  let (d, req) := d.release.flushLanes ((List.finRange reqs).map .req)
  let (d, neg) := d.flushLanes ((List.finRange negs).map .neg)
  (d, writer && mon && req && neg)

end Dispatch

/-! ### Runs -/

inductive DispatchCall
  | «open» (conn : Nat)
  | writer (msg : WriterMsg)
  | req (msg : ReqMsg)
  | monitor (msg : MonitorMsg)
  | subscription (msg : MonitorMsg) (follow : ReqMsg)
  | neg (msg : NegMsg)
  | flush
  | close (conn : Nat)

/-- The connection a call is about. -/
def DispatchCall.conn : DispatchCall → Option Nat
  | .open conn => some conn
  | .writer msg => some (Routed.connId msg)
  | .req msg => some (Routed.connId msg)
  | .monitor msg => some (Routed.connId msg)
  | .subscription msg _ => some (Routed.connId msg)
  | .neg msg => some (Routed.connId msg)
  | .flush => none
  | .close conn => some conn

namespace Dispatch

variable {reqs monitors negs : Nat} [NeZero reqs] [NeZero monitors] [NeZero negs]

def step (d : Dispatch reqs monitors negs) : DispatchCall → Dispatch reqs monitors negs
  | .open conn => d.open conn
  | .writer msg => d.sendWriter msg
  | .req msg => d.sendReq msg
  | .monitor msg => d.monitor msg
  | .subscription msg follow => d.subscription msg follow
  | .neg msg => d.sendNeg msg
  | .flush => d.flush.1
  | .close conn => d.close conn

def run (answers : Worker reqs monitors negs → Nat → Answer) (calls : List DispatchCall) :
    Dispatch reqs monitors negs := calls.foldl step (new answers)

end Dispatch

end Wok.Relay
