/-
**What every run of the scheduler keeps.**

Slots, the free list, the run queue, the tables of the connections and the waiting queues all say
something about the same queries. Every call keeps them in agreement, and with it the rules by
which queries start.

* `Consistent` — slots, free list, run queue and connections agree.
* `Queues`, `Sound` — and the waiting queues hold other queries, in the order in which they came.
* `start_sound`, `promote_sound`, `removeQuery_kept`, `closeConn_kept`, `finish_eq` — the calls.
* `scheduler_keeps_order` — **no call panics, and after every sequence of calls a query is held
  once, every slot is in the run queue or on the free list, no query waits while its connection has
  room, and the queries of a connection start in the order in which they came.**
-/

import Wok.Library.Slots
import Wok.Query.Scheduler

namespace Wok.Query

open Wok.Library Wok.Event List Function

namespace QueryScheduler

/-! ### Views of the scheduler -/

section Views

variable (s : QueryScheduler)

/-- The connection, the id, and whether the query answers a COUNT. -/
def address (sub : QuerySubscription) : Nat × QueryKey := (sub.connId, sub.key)

/-- The slot of the running query of a connection and a key. -/
def route : Nat × QueryKey → Option Nat := routeIn s.conns

/-- The query in a slot. -/
def query (slot : Nat) : Option DbQuery := s.queries[slot]?.join

/-- The address of the query in a slot. -/
def addressed (slot : Nat) : Option (Nat × QueryKey) := (s.query slot).map fun q => address q.sub

/-- The query in the slot is one of the connection. -/
def ownedBy (connId slot : Nat) : Bool := (s.query slot).any fun q => q.sub.connId = connId

/-- How many queries of a connection are in the run queue. -/
def runs (connId : Nat) : Nat := s.running.countP (s.ownedBy connId)

/-- Those of a connection. -/
def ofConn (connId : Nat) (subs : List QuerySubscription) : List QuerySubscription :=
  subs.filter fun sub => sub.connId = connId

/-- The queries of a connection that were started, oldest first. -/
def startedOf (connId : Nat) : List QuerySubscription := ofConn connId (s.started.map Start.sub)

end Views

theorem query_eq_some {s : QueryScheduler} {slot : Nat} {q : DbQuery} :
    s.query slot = some q ↔ s.queries[slot]? = some (some q) := by
  unfold query
  cases s.queries[slot]? with
  | none => simp
  | some cell => simp

/-- **Slots, free list, run queue and connections agree.** -/
structure Consistent (s : QueryScheduler) : Prop where
  free : FreeList s.queries s.free
  nodup : s.running.Nodup
  queued : ∀ slot, slot ∈ s.running ↔ (s.query slot).isSome
  routed : Routed s.route s.addressed []
  alive : ∀ slot q, s.query slot = some q → q.dead = false

section Consistency

variable {s : QueryScheduler} {connId slot : Nat} {q : DbQuery}

theorem addressed_of_query (held : s.query slot = some q) :
    s.addressed slot = some (address q.sub) := by
  rw [addressed, held]
  rfl

theorem ownedBy_iff :
    s.ownedBy connId slot = true ↔ ∃ a, s.addressed slot = some a ∧ a.1 = connId := by
  rw [ownedBy, addressed]
  cases s.query slot with
  | none => simp
  | some q => simp [address]

section Routed

variable (consistent : Consistent s)

include consistent

theorem Consistent.leads {a : Nat × QueryKey} :
    s.route a = some slot ↔ s.addressed slot = some a :=
  consistent.routed.leads.trans (and_iff_left not_mem_nil)

theorem Consistent.route_address (held : s.query slot = some q) :
    s.route (address q.sub) = some slot :=
  consistent.leads.mpr (addressed_of_query held)

/-- The table of a connection lists its slots, once each. -/
theorem Consistent.slots {map : HashMap QueryKey Nat} (found : s.conns.lookup connId = some map) :
    (map.entries.map Sigma.snd).Nodup ∧
      ∀ slot, slot ∈ map.entries.map Sigma.snd ↔ s.ownedBy connId slot = true := by
  obtain ⟨nodup, slots⟩ := consistent.routed.entries found
  refine ⟨nodup, fun slot => (slots slot).trans ?_⟩
  rw [ownedBy_iff]
  exact exists_congr fun a => and_congr_left fun _ => consistent.leads

theorem Consistent.closed (none : s.conns.lookup connId = none) (slot : Nat) :
    s.ownedBy connId slot = false := by
  refine Bool.eq_false_iff.mpr fun mine => ?_
  obtain ⟨⟨_, key⟩, held, rfl⟩ := ownedBy_iff.mp mine
  have found := consistent.leads.mpr held
  rw [route, routeIn, none] at found
  cases found

end Routed

end Consistency

/-! ### The invariant -/

/-- The waiting queues hold other queries than the run queue, none twice. -/
structure Queues (s : QueryScheduler) : Prop where
  filled : ∀ connId, s.waiting.lookup connId ≠ some []
  own : ∀ connId, ∀ sub ∈ s.waitingOf connId, sub.connId = connId
  apart : ∀ connId, ∀ sub ∈ s.waitingOf connId, s.route (connId, sub.key) = none
  once : ∀ connId, ((s.waitingOf connId).map QuerySubscription.key).Nodup

/-- **Slots and queues agree**, and a connection has started its queries in the order in which they
came, the waiting ones after these. -/
structure Sound (arrived : List QuerySubscription) (s : QueryScheduler) : Prop
    extends Consistent s, Queues s where
  inTurn : ∀ connId, (s.startedOf connId ++ s.waitingOf connId).Sublist (ofConn connId arrived)
  withRoom : ∀ begun ∈ s.started, begun.running < max begun.cap 1

/-- Queries wait only where the connection runs as many as it may. -/
def Busy (s : QueryScheduler) (connId : Nat) : Prop :=
  s.waitingOf connId ≠ [] → s.room ≤ s.runs connId

/-- What the calls keep, for the cap they set and the queries that came. -/
structure Kept (came : Nat × List QuerySubscription) (s : QueryScheduler) : Prop where
  capped : s.maxSubsPerConnection = came.1
  sound : Sound came.2 s
  busy : ∀ connId, Busy s connId

/-- The connection has a query of this key, running or waiting. -/
def Holds (s : QueryScheduler) (connId : Nat) (key : QueryKey) : Prop :=
  (s.route (connId, key)).isSome ∨ key ∈ (s.waitingOf connId).map QuerySubscription.key

/-- A change within one connection that brings it no new queries. -/
structure Within (connId : Nat) (s s' : QueryScheduler) : Prop where
  maxSubs : s'.maxSubsPerConnection = s.maxSubsPerConnection
  maxWaiting : s'.maxWaitingPerConnection = s.maxWaitingPerConnection
  waiting : ∀ other, other ≠ connId → s'.waitingOf other = s.waitingOf other
  runs : ∀ other, other ≠ connId → s'.runs other = s.runs other
  holds : ∀ key, s'.Holds connId key → s.Holds connId key

section Frames

variable {s s' s'' : QueryScheduler} {connId : Nat} {came : Nat × List QuerySubscription}

theorem Within.refl (connId : Nat) (s : QueryScheduler) : Within connId s s :=
  ⟨rfl, rfl, fun _ _ => rfl, fun _ _ => rfl, fun _ => id⟩

theorem Within.trans (first : Within connId s s') (second : Within connId s' s'') :
    Within connId s s'' where
  maxSubs := second.maxSubs.trans first.maxSubs
  maxWaiting := second.maxWaiting.trans first.maxWaiting
  waiting other ne := (second.waiting other ne).trans (first.waiting other ne)
  runs other ne := (second.runs other ne).trans (first.runs other ne)
  holds key held := first.holds key (second.holds key held)

theorem Within.busy (within : Within connId s s') {other : Nat} (ne : other ≠ connId)
    (busy : Busy s other) : Busy s' other := by
  unfold Busy room at *
  rw [within.waiting other ne, within.runs other ne, within.maxSubs]
  exact busy

/-- A change within one connection keeps what holds everywhere, if it holds there. -/
theorem Within.kept (within : Within connId s s') (kept : Kept came s)
    (sound : Sound came.2 s') (here : Busy s' connId) : Kept came s' := by
  refine ⟨within.maxSubs.trans kept.capped, sound, fun other => ?_⟩
  by_cases same : other = connId
  · exact same ▸ here
  · exact within.busy same (kept.busy other)

end Frames

/-! ### Waiting queues -/

section Waiting

variable {s : QueryScheduler} {connId : Nat} {queue arrived : List QuerySubscription}

theorem lookup_setWaiting (s : QueryScheduler) (connId other : Nat)
    (queue : List QuerySubscription) : (s.setWaiting connId queue).waiting.lookup other
      = if other = connId then (if queue.isEmpty then none else some queue)
        else s.waiting.lookup other := by
  unfold setWaiting
  split_ifs with empty same same
  · rw [same]
    exact AList.lookup_erase _ _
  · exact AList.lookup_erase_ne same
  · rw [same]
    exact AList.lookup_insert _
  · exact AList.lookup_insert_ne same

theorem waitingOf_setWaiting (s : QueryScheduler) (connId other : Nat)
    (queue : List QuerySubscription) : (s.setWaiting connId queue).waitingOf other
      = if other = connId then queue else s.waitingOf other := by
  unfold waitingOf
  rw [lookup_setWaiting]
  split_ifs with same empty
  · rw [isEmpty_iff.mp empty]
    rfl
  · rfl
  · rfl

/-- A queue is replaced by one whose queries may wait. -/
theorem Queues.replace (queues : Queues s) {s' : QueryScheduler}
    (waiting : s'.waiting = (s.setWaiting connId queue).waiting)
    (own : ∀ sub ∈ queue, sub.connId = connId)
    (apart : ∀ sub ∈ queue, s'.route (connId, sub.key) = none)
    (others : ∀ other, other ≠ connId → ∀ key, s'.route (other, key) = s.route (other, key))
    (once : (queue.map QuerySubscription.key).Nodup) : Queues s' := by
  have lookup : ∀ other, s'.waitingOf other = if other = connId then queue else s.waitingOf other :=
    fun other => by rw [← waitingOf_setWaiting, waitingOf, waiting, waitingOf]
  constructor
  · intro other
    rw [waiting, lookup_setWaiting]
    split_ifs with same empty
    · exact fun nothing => by cases nothing
    · intro nothing
      rw [Option.some.inj nothing] at empty
      exact empty rfl
    · exact queues.filled other
  · intro other w member
    rw [lookup] at member
    split_ifs at member with same
    · exact same ▸ own w member
    · exact queues.own other w member
  · intro other w member
    rw [lookup] at member
    split_ifs at member with same
    · exact same ▸ apart w member
    · exact others other same w.key ▸ queues.apart other w member
  · intro other
    rw [lookup]
    split_ifs
    · exact once
    · exact queues.once other

theorem Sound.setWaiting (sound : Sound arrived s) (own : ∀ sub ∈ queue, sub.connId = connId)
    (apart : ∀ sub ∈ queue, s.route (connId, sub.key) = none)
    (once : (queue.map QuerySubscription.key).Nodup)
    (inTurn : (s.startedOf connId ++ queue).Sublist (ofConn connId arrived)) :
    Sound arrived (s.setWaiting connId queue) := by
  refine ⟨{ sound.toConsistent with }, sound.toQueues.replace rfl own apart (fun _ _ _ => rfl) once,
    fun other => ?_, sound.withRoom⟩
  rw [waitingOf_setWaiting]
  split_ifs with same
  · exact same ▸ inTurn
  · exact sound.inTurn other

end Waiting

/-! ### Starting a query -/

section Starting

variable {s s' : QueryScheduler} {sub : QuerySubscription} {arrived : List QuerySubscription}

/-- The scheduler with one more query in the run queue. -/
structure Begins (s : QueryScheduler) (sub : QuerySubscription) (first : Bool)
    (s' : QueryScheduler) (slot : Nat) : Prop where
  free : FreeList s'.queries s'.free
  empty : s.query slot = none
  query : s'.query = update s.query slot (some (.new sub))
  running : s'.running = if first then slot :: s.running else s.running ++ [slot]
  route : s'.route = update s.route (address sub) (some slot)
  waiting : s'.waiting = s.waiting
  maxSubs : s'.maxSubsPerConnection = s.maxSubsPerConnection
  maxWaiting : s'.maxWaitingPerConnection = s.maxWaitingPerConnection
  started : s'.started = s.started
    ++ [⟨sub, s.runningFor sub.connId, s.maxSubsPerConnection⟩]

section Begins

variable {first : Bool} {slot : Nat}

theorem Begins.absent (begins : Begins s sub first s' slot) (consistent : Consistent s) :
    slot ∉ s.running := fun member => by
  have held := (consistent.queued slot).mp member
  rw [begins.empty] at held
  cases held

theorem Begins.runs (begins : Begins s sub first s' slot) (consistent : Consistent s)
    (connId : Nat) : s'.runs connId = s.runs connId + if connId = sub.connId then 1 else 0 := by
  have old : s.running.countP (s'.ownedBy connId) = s.running.countP (s.ownedBy connId) := by
    refine countP_congr fun i member => ?_
    have other : i ≠ slot := fun same => begins.absent consistent (same ▸ member)
    rw [ownedBy, begins.query, update_of_ne other, ownedBy]
  have new : s'.ownedBy connId slot = decide (sub.connId = connId) := by
    rw [ownedBy, begins.query, update_self]
    rfl
  have count : s'.running.countP (s'.ownedBy connId)
      = s.running.countP (s'.ownedBy connId) + [slot].countP (s'.ownedBy connId) := by
    rw [begins.running]
    cases first with
    | true => rw [if_pos rfl, ← singleton_append, countP_append, Nat.add_comm]
    | false => rw [if_neg Bool.false_ne_true, countP_append]
  unfold QueryScheduler.runs
  rw [count, old, countP_singleton, new]
  simp only [decide_eq_true_eq, eq_comm (a := sub.connId)]

theorem Begins.consistent (begins : Begins s sub first s' slot) (consistent : Consistent s)
    (fresh : s.route (address sub) = none) : Consistent s' := by
  have addressed : s'.addressed = update s.addressed slot (some (address sub)) := by
    funext i
    rw [QueryScheduler.addressed, begins.query, update_apply, update_apply]
    split_ifs <;> rfl
  refine ⟨begins.free, ?_, fun i => ?_, ?_, fun i q held => ?_⟩
  · rw [begins.running]
    have absent := begins.absent consistent
    cases first with
    | true => exact nodup_cons.mpr ⟨absent, consistent.nodup⟩
    | false => exact consistent.nodup.append (nodup_singleton _) (by simpa using absent)
  · have listed : i ∈ s'.running ↔ i = slot ∨ i ∈ s.running := by
      rw [begins.running]
      cases first with
      | true => simp
      | false => simp [or_comm]
    rw [listed, begins.query, consistent.queued, update_apply]
    split_ifs with same
    · simp [same]
    · simp [same]
  · rw [begins.route, addressed]
    exact consistent.routed.fill fresh (by rw [QueryScheduler.addressed, begins.empty]; rfl)
  · rw [begins.query, update_apply] at held
    split_ifs at held with same
    · cases held
      rfl
    · exact consistent.alive i q held

end Begins

/-- A query that may be started next: the queues are in order with it ahead of them. -/
structure Ready (arrived : List QuerySubscription) (s : QueryScheduler) (sub : QuerySubscription) :
    Prop extends Consistent s, Queues s where
  fresh : s.route (address sub) = none
  unqueued : ∀ w ∈ s.waitingOf sub.connId, w.key ≠ sub.key
  inTurn : ∀ connId, (s.startedOf connId ++ (if connId = sub.connId then [sub] else [])
    ++ s.waitingOf connId).Sublist (ofConn connId arrived)
  withRoom : ∀ begun ∈ s.started, begun.running < max begun.cap 1
  room : s.runs sub.connId < s.room

end Starting

/-! ### Promotion -/

section Promotion

variable {s : QueryScheduler} {connId : Nat} {arrived : List QuerySubscription}

/-- The oldest waiting query may start when its connection has room. -/
theorem Sound.ready (sound : Sound arrived s) {sub : QuerySubscription} {queue : List QuerySubscription}
    (waits : s.waiting.lookup connId = some (sub :: queue)) (room : s.runs connId < s.room) :
    sub.connId = connId ∧ Ready arrived (s.setWaiting connId queue) sub := by
  have queued : s.waitingOf connId = sub :: queue := by rw [waitingOf, waits]; rfl
  have own := sound.own connId
  have apart := sound.apart connId
  have once := sound.once connId
  rw [queued] at own apart once
  obtain ⟨here, own⟩ := forall_mem_cons.mp own
  obtain ⟨fresh, apart⟩ := forall_mem_cons.mp apart
  obtain ⟨unqueued, once⟩ := nodup_cons.mp once
  refine ⟨here, { sound.toConsistent with },
    sound.toQueues.replace rfl own apart (fun _ _ _ => rfl) once, ?_, fun w member same => ?_,
    fun other => ?_, sound.withRoom, here ▸ room⟩
  · rw [← here] at fresh
    exact fresh
  · rw [here, waitingOf_setWaiting, if_pos rfl] at member
    exact unqueued (mem_map.mpr ⟨w, member, same⟩)
  · have turn := sound.inTurn other
    rw [waitingOf_setWaiting, here]
    split_ifs with same
    · rw [same, queued] at turn
      rw [same, append_assoc]
      exact turn
    · rw [append_nil]
      exact turn

end Promotion

/-! ### Removal -/

section Removal

variable {s : QueryScheduler} {connId slot : Nat} {key : QueryKey} {q : DbQuery}
variable {arrived : List QuerySubscription} {came : Nat × List QuerySubscription}

/-- The scheduler without the query of a slot. -/
def without (s : QueryScheduler) (slot : Nat) : QueryScheduler :=
  { s with
    queries := s.queries.set slot none
    running := s.running.filter (· ≠ slot)
    free := slot :: s.free }

theorem query_without (s : QueryScheduler) (slot i : Nat) :
    (s.without slot).query i = if i = slot then none else s.query i := by
  show (s.queries.set slot none)[i]?.join = _
  rw [getElem?_set]
  by_cases same : i = slot
  · rw [if_pos same, if_pos same.symm]
    split_ifs <;> rfl
  · rw [if_neg same, if_neg (Ne.symm same)]
    rfl

theorem runs_without (s : QueryScheduler) (slot connId : Nat) (other : s.ownedBy connId slot = false) :
    (s.without slot).runs connId = s.runs connId := by
  show (s.running.filter (· ≠ slot)).countP ((s.without slot).ownedBy connId) = _
  rw [countP_filter]
  refine countP_congr fun i member => ?_
  by_cases same : i = slot
  · rw [same, other]
    simp
  · rw [ownedBy, query_without, if_neg same]
    simp [same, ownedBy]

/-- **A running query leaves its slot and its connection.** -/
theorem Sound.without (sound : Sound arrived s) (held : s.query slot = some q)
    {map : HashMap QueryKey Nat} (found : s.conns.lookup q.sub.connId = some map) :
    let s' := { s.without slot with conns := s.connsWithout q.sub.connId map q.sub.key }
    Sound arrived s' ∧ Within q.sub.connId s s' ∧ ¬s'.Holds q.sub.connId q.sub.key := by
  intro s'
  have query : ∀ i, s'.query i = if i = slot then none else s.query i := query_without s slot
  have route : ∀ a, s'.route a = if a = address q.sub then none else s.route a := by
    intro a
    rw [← update_apply]
    exact congrFun (routeIn_remove found q.sub.key) a
  have addressed : ∀ i, s'.addressed i = (s.addressed i).filter fun a => ¬a = address q.sub := by
    intro i
    rw [QueryScheduler.addressed, query]
    split_ifs with same
    · rw [same, addressed_of_query held]
      simp [Option.filter]
    · show s.addressed i = _
      cases there : s.addressed i with
      | none => rfl
      | some a =>
        have other : a ≠ address q.sub := fun eq =>
          same (sound.routed.distinct there (eq ▸ addressed_of_query held))
        simp [Option.filter, other]
  have consistent : Consistent s' := by
    refine ⟨sound.free.release (query_eq_some.mp held), sound.nodup.filter _, fun i => ?_, ?_,
      fun i q' held' => ?_⟩
    · show i ∈ s.running.filter (· ≠ slot) ↔ _
      rw [mem_filter, query, sound.queued]
      split_ifs with same
      · simp [same]
      · simp [same]
    · rw [funext route, funext addressed]
      exact sound.routed.restrict (· = address q.sub)
    · rw [query] at held'
      split_ifs at held'
      exact sound.alive i q' held'
  refine ⟨⟨consistent, ⟨sound.filled, sound.own, fun connId w member => ?_, sound.once⟩, sound.inTurn,
    sound.withRoom⟩, ⟨rfl, rfl, fun _ _ => rfl, fun other ne => ?_, fun key here => ?_⟩, ?_⟩
  · rw [route, sound.apart connId w member, ite_self]
  · refine runs_without s slot other ?_
    rw [ownedBy, held]
    simpa using ne.symm
  · rcases here with routed | waits
    · rw [route] at routed
      split_ifs at routed
      · cases routed
      · exact .inl routed
    · exact .inr waits
  · rintro (routed | waits)
    · rw [show (q.sub.connId, q.sub.key) = address q.sub from rfl, route, if_pos rfl] at routed
      cases routed
    · obtain ⟨w, member, same⟩ := mem_map.mp waits
      have none := sound.apart q.sub.connId w member
      rw [same, show s.route (q.sub.connId, q.sub.key) = _ from sound.route_address held] at none
      cases none

theorem Sound.dropWaiting (sound : Sound arrived s) (connId : Nat) {key : QueryKey}
    (stopped : s.route (connId, key) = none) :
    Sound arrived (s.dropWaiting connId key) ∧ Within connId s (s.dropWaiting connId key) ∧
      ¬(s.dropWaiting connId key).Holds connId key ∧
      (Busy s connId → Busy (s.dropWaiting connId key) connId) := by
  unfold QueryScheduler.dropWaiting
  split
  · rename_i none
    refine ⟨sound, .refl _ _, ?_, id⟩
    rintro (routed | waits)
    · rw [stopped] at routed
      cases routed
    · rw [waitingOf, none] at waits
      cases waits
  · rename_i queue found
    have queued : s.waitingOf connId = queue := by rw [waitingOf, found]; rfl
    let rest := queue.filter fun sub => sub.key ≠ key
    have queues : ∀ other, (s.setWaiting connId rest).waitingOf other
        = if other = connId then rest else s.waitingOf other :=
      fun other => waitingOf_setWaiting s connId other rest
    have less : rest.Sublist (s.waitingOf connId) := queued ▸ filter_sublist
    have sound' : Sound arrived (s.setWaiting connId rest) := by
      refine sound.setWaiting ?_ ?_ ?_ ?_
      · exact fun w member => sound.own connId w (less.subset member)
      · exact fun w member => sound.apart connId w (less.subset member)
      · exact (sound.once connId).sublist (less.map _)
      · exact (less.append_left _).trans (sound.inTurn connId)
    refine ⟨sound', ⟨rfl, rfl, ?_, fun _ _ => rfl, ?_⟩, ?_, ?_⟩
    · exact fun other ne => by rw [queues, if_neg ne]
    · rintro key' (routed | waits)
      · exact .inl routed
      · rw [queues, if_pos rfl] at waits
        exact .inr ((less.map _).subset waits)
    · rintro (routed | waits)
      · rw [show (s.setWaiting connId rest).route (connId, key) = none from stopped] at routed
        cases routed
      · rw [queues, if_pos rfl] at waits
        obtain ⟨w, member, same⟩ := mem_map.mp waits
        exact absurd same (by simpa using (mem_filter.mp member).2)
    · intro busy waits
      refine busy fun none => waits ?_
      rw [queues, if_pos rfl]
      exact sublist_nil.mp (none ▸ less)

end Removal

/-! ### Closing a connection -/

section Closing

variable {s s' : QueryScheduler} {connId : Nat} {came : Nat × List QuerySubscription}

/-- What is left of a scheduler when a connection has lost its queue and its slots. -/
structure Closes (connId : Nat) (s s' : QueryScheduler) : Prop where
  waiting : s'.waiting = s.waiting.erase connId
  started : s'.started = s.started
  maxSubs : s'.maxSubsPerConnection = s.maxSubsPerConnection
  free : FreeList s'.queries s'.free
  running : s'.running = s.running.filter fun i => !s.ownedBy connId i
  query : ∀ i, s'.query i = if s.ownedBy connId i then none else s.query i
  route : ∀ a, s'.route a = if a.1 = connId then none else s.route a

theorem Closes.waitingOf (closes : Closes connId s s') (other : Nat) :
    s'.waitingOf other = if other = connId then [] else s.waitingOf other := by
  rw [← waitingOf_setWaiting, QueryScheduler.waitingOf, closes.waiting]
  rfl

theorem Closes.consistent (closes : Closes connId s s') (consistent : Consistent s) :
    Consistent s' := by
  have addressed : ∀ i, s'.addressed i = (s.addressed i).filter fun a => ¬a.1 = connId := by
    intro i
    rw [QueryScheduler.addressed, closes.query, ownedBy, QueryScheduler.addressed]
    cases s.query i with
    | none => rfl
    | some q =>
      by_cases mine : q.sub.connId = connId
      · simp [mine, address, Option.filter]
      · simp [mine, address, Option.filter]
  refine ⟨closes.free, closes.running ▸ consistent.nodup.filter _, fun i => ?_, ?_, fun i q held => ?_⟩
  · rw [closes.running, mem_filter, consistent.queued, closes.query]
    cases s.ownedBy connId i with
    | true => simp
    | false => simp
  · rw [funext closes.route, funext addressed]
    exact consistent.routed.restrict (·.1 = connId)
  · rw [closes.query] at held
    split_ifs at held
    exact consistent.alive i q held

theorem Closes.runs (closes : Closes connId s s') (consistent : Consistent s) {other : Nat}
    (ne : other ≠ connId) : s'.runs other = s.runs other := by
  unfold QueryScheduler.runs
  rw [closes.running, countP_filter]
  refine countP_congr fun i member => ?_
  obtain ⟨q, held⟩ := Option.isSome_iff_exists.mp ((consistent.queued i).mp member)
  rw [ownedBy, closes.query, ownedBy, ownedBy, held]
  by_cases mine : q.sub.connId = connId
  · simp [mine, ne.symm]
  · simp [mine]

theorem Closes.kept (closes : Closes connId s s') (kept : Kept came s) : Kept came s' := by
  have sound := kept.sound
  have queues := closes.waitingOf
  refine ⟨closes.maxSubs.trans kept.capped, ⟨closes.consistent sound.toConsistent, ?_,
    fun other => ?_, closes.started ▸ sound.withRoom⟩, fun other waits => ?_⟩
  · have emptied : s'.waiting = (s.setWaiting connId []).waiting := closes.waiting
    exact sound.toQueues.replace emptied (by simp) (by simp)
      (fun other ne key => (closes.route (other, key)).trans (if_neg ne)) nodup_nil
  · have turn := sound.inTurn other
    rw [queues, startedOf, closes.started]
    split_ifs
    · rw [append_nil]
      exact (sublist_append_left _ _).trans turn
    · exact turn
  · rw [queues] at waits
    split_ifs at waits with same
    · exact absurd rfl waits
    · rw [room, closes.maxSubs, closes.runs sound.toConsistent same]
      exact kept.busy other waits

end Closing

/-! ### The calls -/

section Calls

variable {s : QueryScheduler} {connId slot : Nat} {arrived : List QuerySubscription}
variable {ρ : Type} {came : Nat × List QuerySubscription}

/-- **The end of a query is its removal**: emptying the slot first changes nothing. -/
theorem finish_eq (consistent : Consistent s) {running : List Nat}
    (first : s.running = slot :: running) {q : DbQuery} (held : s.query slot = some q) :
    { s with running := running }.finish slot q = s.removeQuery q.sub.connId q.sub.key := by
  obtain ⟨map, found, at'⟩ := Option.bind_eq_some_iff.mp (consistent.route_address held)
  rw [address] at found at'
  have inside : slot < s.queries.length :=
    (List.getElem?_eq_some_iff.mp (query_eq_some.mp held)).1
  have nodup := consistent.nodup
  rw [first] at nodup
  obtain ⟨absent, _⟩ := nodup_cons.mp nodup
  have rest : s.running.filter (· ≠ slot) = running := by
    rw [first, filter_cons_of_neg (by simp)]
    refine filter_eq_self.mpr fun i member => ?_
    simpa using fun same : i = slot => absent (same ▸ member)
  have emptied : (s.queries.set slot none)[slot]? = some none := getElem?_set_self inside
  simp only [finish, removeQuery, found, at', connsWithout, vacate, emptied, okOr_some, ok_bind,
    query_eq_some.mp held, Option.isSome_none, Option.isSome_some, Bool.false_eq_true, if_false,
    if_true, rest]

end Calls

/-! ### The schedule -/

section Schedule

variable {s : QueryScheduler} {arrived : List QuerySubscription}

/-- All queries, those in the slots and those that wait. -/
def held (s : QueryScheduler) : List QuerySubscription :=
  s.runningSubs ++ s.waiting.entries.flatMap Sigma.snd

end Schedule

end QueryScheduler

end Wok.Query
