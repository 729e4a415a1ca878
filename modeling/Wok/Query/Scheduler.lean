/-
**The query scheduler.**

A worker gives its running queries time slices in turn. Each sits in a numbered slot; the slots of
ended queries are used again. A connection runs at most a fixed number of queries at once. Past that
its queries wait in a queue of their own, and each that ends lets the oldest one start. A query
replaces the one of its connection with the same id and kind, running or waiting.

* `QueryScheduler.addSub`, `removeQuery`, `closeConn`, `processVisible` — the calls of the worker.
* `QueryScheduler.promote` — waiting queries start while there is room.

What a time slice does to a query is the business of the scan: a call is told how the slice ended.
The log of the queries started is kept for the proofs: nothing reads it.
-/

import Wok.Db.State
import Wok.Query.Monitor

namespace Wok.Query

open Wok.Library Wok.Event

/-- A subscription and whether it answers a COUNT. -/
structure QuerySubscription extends Subscription where
  countOnly : Bool

/-- The queries of a connection are told apart by id, those of REQ and COUNT separately. -/
abbrev QueryKey := SubId × Bool

def QuerySubscription.key (sub : QuerySubscription) : QueryKey := (sub.subId, sub.countOnly)

/-- A query without a snapshot takes the newest local id as its own. -/
def QuerySubscription.resolve (sub : QuerySubscription) (latest : Except Db.DbError Nat) :
    Except Db.DbError QuerySubscription :=
  (if sub.latestEventId = 2 ^ 64 - 1 then latest else .ok sub.latestEventId).map fun levId =>
    { sub with latestEventId := levId }

structure DbQuery where
  sub : QuerySubscription
  dead : Bool

def DbQuery.new (sub : QuerySubscription) : DbQuery := ⟨sub, false⟩

/-- What `add_sub` did with a query. -/
inductive Scheduled
  | running
  | waiting
  | refused
  deriving DecidableEq, Repr

/-- A query started while its connection ran this many, under this cap. -/
structure Start where
  sub : QuerySubscription
  running : Nat
  cap : Nat

/-- `conns` holds the running queries of each connection by their slots, `waiting` its waiting
ones, oldest first. The top of `free` is its head. `started` is a log. -/
structure QueryScheduler where
  conns : HashMap Nat (HashMap QueryKey Nat)
  waiting : HashMap Nat (List QuerySubscription)
  queries : List (Option DbQuery)
  free : List Nat
  running : List Nat
  maxSubsPerConnection : Nat
  maxWaitingPerConnection : Nat
  started : List Start

namespace QueryScheduler

def new (maxSubsPerConnection : Nat) : QueryScheduler where
  conns := ∅
  waiting := ∅
  queries := []
  free := []
  running := []
  maxSubsPerConnection := maxSubsPerConnection
  maxWaitingPerConnection := 0
  started := []

variable (s : QueryScheduler)

/-- The waiting queries of a connection. -/
def waitingOf (connId : Nat) : List QuerySubscription := (s.waiting.lookup connId).getD []

def runningFor (connId : Nat) : Nat := ((s.conns.lookup connId).getD ∅).entries.length

/-- The most queries a connection may run once some wait. -/
def room : Nat := max s.maxSubsPerConnection 1

/-! ### Starting -/

/-- A slot for the query: the one emptied last, or a new one. -/
def place (q : DbQuery) : Except Panic (QueryScheduler × Nat) :=
  match s.free with
  | slot :: free => do
    ensure (slot < s.queries.length) .outOfBounds
    return ({ s with queries := s.queries.set slot (some q), free := free }, slot)
  | [] => .ok ({ s with queries := s.queries ++ [some q] }, s.queries.length)

/-- Puts a query in the run queue: first, when it is new, or last, when it waited. -/
def start (sub : QuerySubscription) (first : Bool) : Except Panic QueryScheduler := do
  let begun : Start := ⟨sub, s.runningFor sub.connId, s.maxSubsPerConnection⟩
  let (s, slot) ← s.place (.new sub)
  let cell ← okOr s.queries[slot]? .outOfBounds
  let q ← okOr cell (.expect "a query just put in its slot")
  let map := ((s.conns.lookup q.sub.connId).getD ∅).insert q.sub.key slot
  return { s with
    conns := s.conns.insert q.sub.connId map
    running := if first then slot :: s.running else s.running ++ [slot]
    started := s.started ++ [begun] }

/-- The waiting queries of a connection; a queue that runs empty is dropped. -/
def setWaiting (connId : Nat) (queue : List QuerySubscription) : QueryScheduler :=
  { s with waiting :=
      if queue.isEmpty then s.waiting.erase connId else s.waiting.insert connId queue }

/-- The loop of `promote`, for no more rounds than queries wait, and one to find none left. -/
def promoteLoop (connId : Nat) : Nat → QueryScheduler → Except Panic QueryScheduler
  | 0, s => .ok s
  | rounds + 1, s =>
    if s.runningFor connId < s.room then
      match s.waiting.lookup connId with
      | none => .ok s
      | some [] => .error (.expect "waiting queues are never empty")
      | some (sub :: queue) => do
        let s ← (s.setWaiting connId queue).start sub false
        promoteLoop connId rounds s
    else .ok s

/-- Starts the waiting queries of a connection, oldest first, while it runs fewer than it may; one
at a time if it may run none. -/
def promote (connId : Nat) : Except Panic QueryScheduler :=
  promoteLoop connId ((s.waitingOf connId).length + 1) s

/-! ### Ending -/

/-- The query leaves its slot, if it is still there. -/
def vacate (slot : Nat) : Except Panic QueryScheduler := do
  let cell ← okOr s.queries[slot]? .outOfBounds
  if cell.isSome then
    return { s with
      queries := s.queries.set slot none
      running := s.running.filter (· ≠ slot)
      free := slot :: s.free }
  else return s

/-- The connections when `key` leaves `map`, the running queries of `connId`. -/
def connsWithout (connId : Nat) (map : HashMap QueryKey Nat) (key : QueryKey) :
    HashMap Nat (HashMap QueryKey Nat) :=
  let map := map.erase key
  if map.entries.isEmpty then s.conns.erase connId else s.conns.insert connId map

/-- The waiting queries without the one of this key. -/
def dropWaiting (connId : Nat) (key : QueryKey) : QueryScheduler :=
  match s.waiting.lookup connId with
  | none => s
  | some queue => s.setWaiting connId (queue.filter fun sub => sub.key ≠ key)

/-- A running query makes room for the oldest waiting one of its connection. -/
def removeQuery (connId : Nat) (key : QueryKey) : Except Panic QueryScheduler :=
  match s.conns.lookup connId with
  | none => .ok (s.dropWaiting connId key)
  | some map =>
    match map.lookup key with
    | none => .ok ({ s with conns := s.connsWithout connId map key }.dropWaiting connId key)
    | some slot => do
      let s ← { s with conns := s.connsWithout connId map key }.vacate slot
      s.promote connId

def removeSub (connId : Nat) (subId : SubId) : Except Panic QueryScheduler :=
  s.removeQuery connId (subId, false)

/-- The running query of this key. -/
def runningQuery (connId : Nat) (key : QueryKey) : Except Panic (Option QuerySubscription) :=
  match (s.conns.lookup connId).bind fun map => map.lookup key with
  | none => .ok none
  | some slot => do
    let cell ← okOr s.queries[slot]? .outOfBounds
    return cell.map DbQuery.sub

/-- Removes the query only if it is still the one of this generation. -/
def removeGeneration (connId : Nat) (key : QueryKey) (generation : Nat) :
    Except Panic QueryScheduler := do
  let running ← s.runningQuery connId key
  let found := running.or ((s.waitingOf connId).find? fun sub => sub.key = key)
  if found.any fun sub => sub.generation = generation then s.removeQuery connId key
  else return s

/-- The running queries, by their slots. -/
def runningSubs : List QuerySubscription := (s.queries.filterMap id).map DbQuery.sub

/-- Removes each query that `refusal` gives a reason for. -/
def removeRefused {ρ : Type} (order : IterOrder Nat) (refusal : QuerySubscription → Option ρ) :
    Except Panic (QueryScheduler × List (QuerySubscription × ρ)) := do
  let held := s.runningSubs ++ (order.order s.waiting.keys).flatMap s.waitingOf
  let refused := held.filterMap fun sub => (refusal sub).map fun reason => (sub, reason)
  let s ← refused.foldlM (fun s r => s.removeQuery r.1.connId r.1.key) s
  return (s, refused)

def closeConn (order : IterOrder Nat) (connId : Nat) : Except Panic QueryScheduler :=
  let s := { s with waiting := s.waiting.erase connId }
  match s.conns.lookup connId with
  | none => .ok s
  | some map =>
    (order.order (map.entries.map Sigma.snd)).foldlM vacate
      { s with conns := s.conns.erase connId }

/-! ### Scheduling -/

/-- Schedules a query in place of the one with its key. `latest` is the newest local id. -/
def addSub (latest : Except Db.DbError Nat) (sub : QuerySubscription) :
    Except Panic (QueryScheduler × Except Db.DbError Scheduled) := do
  let s ← s.removeQuery sub.connId sub.key
  match sub.resolve latest with
  | .error e => return (s, .error e)
  | .ok sub =>
    if s.maxSubsPerConnection = 0 then return (s, .ok .refused)
    else do
      let s ← s.promote sub.connId
      if s.runningFor sub.connId < s.maxSubsPerConnection ∧
          (s.waiting.lookup sub.connId).isNone then do
        let s ← s.start sub true
        return (s, .ok .running)
      else if s.maxWaitingPerConnection ≤ (s.waitingOf sub.connId).length then
        return (s.setWaiting sub.connId (s.waitingOf sub.connId), .ok .refused)
      else return (s.setWaiting sub.connId (s.waitingOf sub.connId ++ [sub]), .ok .waiting)

/-- How a time slice of a query ended. -/
inductive Slice
  | unfinished
  | finished
  | failed (e : Db.DbError)

/-- What a call found: no query, a dead one, one that goes on, or one that ended. -/
inductive Processed
  | idle
  | dead
  | paused
  | completed (sub : QuerySubscription)
  | failed (sub : QuerySubscription) (e : Db.DbError)

/-- The query has ended: its slot is free before its connection forgets it. -/
def finish (slot : Nat) (q : DbQuery) : Except Panic QueryScheduler :=
  { s with queries := s.queries.set slot none, free := slot :: s.free }.removeQuery
    q.sub.connId q.sub.key

/-- Gives the first running query a time slice. -/
def processVisible (slice : Slice) : Except Panic (QueryScheduler × Processed) :=
  match s.running with
  | [] => .ok (s, .idle)
  | slot :: running => do
    let s := { s with running := running }
    match s.queries[slot]?.join with
    | none => do
      ensure (slot < s.queries.length) .outOfBounds
      return ({ s with queries := s.queries.set slot none, free := slot :: s.free }, .dead)
    | some q =>
      if q.dead then
        return ({ s with queries := s.queries.set slot none, free := slot :: s.free }, .dead)
      else
        match slice with
        | .unfinished => return ({ s with running := running ++ [slot] }, .paused)
        | .finished => return (← s.finish slot q, .completed q.sub)
        | .failed e => return (← s.finish slot q, .failed q.sub e)

/-- Raising the cap starts waiting queries at once. -/
def setMaxSubsPerConnection (order : IterOrder Nat) (maximum : Nat) :
    Except Panic QueryScheduler :=
  let raised := s.maxSubsPerConnection < maximum
  let s := { s with maxSubsPerConnection := maximum }
  if raised then (order.order s.waiting.keys).foldlM promote s else .ok s

def setMaxWaitingPerConnection (maximum : Nat) : QueryScheduler :=
  { s with maxWaitingPerConnection := maximum }

end QueryScheduler

/-! ### Runs -/

/-- A call on the scheduler. -/
inductive ScheduleCall (ρ : Type)
  | addSub (latest : Except Db.DbError Nat) (sub : QuerySubscription)
  | removeSub (connId : Nat) (subId : SubId)
  | removeQuery (connId : Nat) (subId : SubId) (countOnly : Bool)
  | removeGeneration (connId : Nat) (subId : SubId) (countOnly : Bool) (generation : Nat)
  | removeRefused (order : IterOrder Nat) (refusal : QuerySubscription → Option ρ)
  | closeConn (order : IterOrder Nat) (connId : Nat)
  | processVisible (slice : QueryScheduler.Slice)
  | setMaxSubsPerConnection (order : IterOrder Nat) (maximum : Nat)
  | setMaxWaitingPerConnection (maximum : Nat)

/-- The scheduler after a call. -/
def QueryScheduler.step {ρ : Type} (s : QueryScheduler) :
    ScheduleCall ρ → Except Panic QueryScheduler
  | .addSub latest sub => (s.addSub latest sub).map Prod.fst
  | .removeSub connId subId => s.removeSub connId subId
  | .removeQuery connId subId countOnly => s.removeQuery connId (subId, countOnly)
  | .removeGeneration connId subId countOnly generation =>
    s.removeGeneration connId (subId, countOnly) generation
  | .removeRefused order refusal => (s.removeRefused order refusal).map Prod.fst
  | .closeConn order connId => s.closeConn order connId
  | .processVisible slice => (s.processVisible slice).map Prod.fst
  | .setMaxSubsPerConnection order maximum => s.setMaxSubsPerConnection order maximum
  | .setMaxWaitingPerConnection maximum => .ok (s.setMaxWaitingPerConnection maximum)

def QueryScheduler.run {ρ : Type} (s : QueryScheduler) (calls : List (ScheduleCall ρ)) :
    Except Panic QueryScheduler := calls.foldlM step s

/-- The cap and the queries that came to be scheduled, oldest first, after one more call. -/
def ScheduleCall.noted {ρ : Type} (came : Nat × List QuerySubscription) :
    ScheduleCall ρ → Nat × List QuerySubscription
  | .addSub latest sub =>
    (came.1, if came.1 = 0 then came.2 else came.2 ++ (sub.resolve latest).toOption.toList)
  | .setMaxSubsPerConnection _ maximum => (maximum, came.2)
  | _ => came

end Wok.Query
