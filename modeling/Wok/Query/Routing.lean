/-
**Connections, slots and free slots.**

The connections route each open subscription to its slot, and the free slots are the empty ones.

* `Consistent` — index, free list and routes agree with the slots.
* `release_spec`, `removeSub_spec`, `closeConn_spec`, `insert_spec` — **the operations run through**,
  and each is described by the subscriptions it leaves in the slots.
-/

import Mathlib.Data.List.ReduceOption
import Wok.Library.Slots
import Wok.Query.Indexed

namespace Wok.Query

open Wok.Library Wok.Event List

/-! ### Routes -/

/-- The connection and the id of a subscription. -/
def Monitored.address (e : Monitored) : Nat × SubId := (e.sub.connId, e.sub.subId)

abbrev Slots := List (Option Monitored)

/-- The address of the subscription in a slot. -/
def addressAt (slots : Slots) (slot : Nat) : Option (Nat × SubId) :=
  slots[slot]?.join.map Monitored.address

theorem addressAt_eq_some {slots : Slots} {slot : Nat} {a : Nat × SubId} :
    addressAt slots slot = some a ↔ ∃ e, slots[slot]? = some (some e) ∧ e.address = a := by
  simp [addressAt, Option.join_eq_some_iff]

theorem addressAt_set {slots : Slots} {slot : Nat} (inside : slot < slots.length)
    (cell : Option Monitored) : addressAt (slots.set slot cell)
      = Function.update (addressAt slots) slot (cell.map Monitored.address) := by
  funext i
  rw [Function.update_apply, addressAt, getElem?_set]
  split_ifs with eq eq' eq'
  · rfl
  · exact absurd eq.symm eq'
  · exact absurd eq'.symm eq
  · rfl

/-! ### Operations -/

namespace ActiveMonitors

/-- The slot an address is routed to. -/
def route (m : ActiveMonitors) : Nat × SubId → Option Nat := routeIn m.conns

/-- Indexed and routed. -/
structure Consistent (m : ActiveMonitors) (orphans : List Nat) : Prop where
  indexed : Indexed m
  free : FreeList m.slots m.free
  routed : Routed m.route (addressAt m.slots) orphans

/-- The cap and the number of passes. -/
structure SameCounts (m m' : ActiveMonitors) : Prop where
  maxSubs : m'.maxSubs = m.maxSubs
  pass : m'.pass = m.pass

theorem SameCounts.refl (m : ActiveMonitors) : SameCounts m m := ⟨rfl, rfl⟩

theorem SameCounts.trans {m m' m'' : ActiveMonitors} (first : SameCounts m m')
    (second : SameCounts m' m'') : SameCounts m m'' :=
  ⟨second.maxSubs.trans first.maxSubs, second.pass.trans first.pass⟩

variable {m : ActiveMonitors} {slot : Nat} {orphans : List Nat}

theorem SameRest.route {m m' : ActiveMonitors} (same : SameRest m m') : m'.route = m.route := by
  rw [ActiveMonitors.route, same.conns]
  rfl

theorem Indexed.routing (indexed : Indexed m) (conns : HashMap Nat (HashMap SubId Nat))
    (free : List Nat) : Indexed { m with conns := conns, free := free } :=
  { indexed with }

namespace Consistent

theorem orphan (consistent : Consistent m orphans) (member : slot ∈ orphans) :
    ∃ e, m.slots[slot]? = some (some e) := by
  obtain ⟨a, there⟩ := consistent.routed.orphaned slot member
  exact (addressAt_eq_some.mp there).imp fun e => And.left

theorem leads (consistent : Consistent m orphans) {a : Nat × SubId} (found : m.route a = some slot) :
    ∃ e, m.slots[slot]? = some (some e) ∧ e.address = a :=
  addressAt_eq_some.mp (consistent.routed.leads.mp found).1

theorem route_address (consistent : Consistent m []) {i : Nat} {e : Monitored}
    (there : m.slots[i]? = some (some e)) : m.route e.address = some i :=
  consistent.routed.leads.mpr ⟨addressAt_eq_some.mpr ⟨e, there, rfl⟩, not_mem_nil⟩

theorem distinct (consistent : Consistent m orphans) {i j : Nat} {e e' : Monitored}
    (there : m.slots[i]? = some (some e)) (there' : m.slots[j]? = some (some e'))
    (same : e.address = e'.address) : i = j :=
  consistent.routed.distinct (addressAt_eq_some.mpr ⟨e, there, same⟩)
    (addressAt_eq_some.mpr ⟨e', there', rfl⟩)

end Consistent

theorem release_spec (consistent : Consistent m (slot :: orphans)) :
    ∃ m', m.release slot = .ok m' ∧ Consistent m' orphans ∧ m'.slots = m.slots.set slot none ∧
      SameCounts m m' := by
  obtain ⟨e, taken⟩ := consistent.orphan (.head _)
  obtain ⟨m₁, run, indexed, slots, same⟩ := uninstall_spec consistent.indexed taken
  refine ⟨{ m₁ with free := slot :: m₁.free }, by rw [release, run, ok_bind]; rfl,
    ⟨Indexed.routing indexed _ _, ?_, ?_⟩, slots, ⟨same.maxSubs, same.pass⟩⟩
  · show FreeList m₁.slots (slot :: m₁.free)
    rw [slots, same.free]
    exact consistent.free.release taken
  · show Routed m₁.route (addressAt m₁.slots) orphans
    rw [same.route, slots, addressAt_set (List.getElem?_eq_some_iff.mp taken).1]
    exact consistent.routed.release

theorem releaseAll_spec (consistent : Consistent m orphans) :
    ∃ m', orphans.foldlM release m = .ok m' ∧ Consistent m' [] ∧ SameCounts m m' ∧
      ∀ e, some e ∈ m'.slots ↔ ∃ i, m.slots[i]? = some (some e) ∧ i ∉ orphans := by
  induction orphans generalizing m with
  | nil => exact ⟨m, rfl, consistent, .refl m, fun e => by simp [mem_iff_getElem?]⟩
  | cons slot orphans ih =>
    obtain ⟨m₁, run, consistent₁, slots₁, same₁⟩ := release_spec consistent
    obtain ⟨m', rest, consistent', same', members⟩ := ih consistent₁
    refine ⟨m', by rw [foldlM_cons, run, ok_bind, rest], consistent', same₁.trans same',
      fun e => ?_⟩
    rw [members]
    refine exists_congr fun i => ?_
    rw [slots₁, getElem?_set, mem_cons, not_or]
    by_cases eq : slot = i
    · subst eq
      simp
    · rw [if_neg eq]
      exact and_congr_right fun _ => ⟨fun notIn => ⟨fun h => eq h.symm, notIn⟩, And.right⟩

/-- What is left of the subscriptions. -/
structure Leaves (m m' : ActiveMonitors) (kept : Monitored → Prop) : Prop where
  consistent : Consistent m' []
  same : SameCounts m m'
  members : ∀ e, some e ∈ m'.slots ↔ some e ∈ m.slots ∧ kept e

/-- Where every subscription is kept nothing needs to happen. -/
theorem Consistent.leaves (consistent : Consistent m []) {kept : Monitored → Prop}
    (all : ∀ {i e}, m.slots[i]? = some (some e) → m.route e.address = some i → kept e) :
    Leaves m m kept := by
  refine ⟨consistent, .refl m, fun e => ⟨fun member => ⟨member, ?_⟩, And.left⟩⟩
  obtain ⟨i, there⟩ := mem_iff_getElem?.mp member
  exact all there (consistent.route_address there)

/-- Routes are given up and the slots they led to released, in any order. -/
theorem releaseRoutes_spec (consistent : Consistent m []) (conns : HashMap Nat (HashMap SubId Nat))
    (lost : Nat × SubId → Prop)
    (routes : ∀ a, (lost a → ({ m with conns := conns } : ActiveMonitors).route a = none) ∧
      (¬lost a → ({ m with conns := conns } : ActiveMonitors).route a = m.route a))
    (nodup : orphans.Nodup)
    (slots : ∀ slot, slot ∈ orphans ↔ ∃ a, m.route a = some slot ∧ lost a) :
    ∃ m', orphans.foldlM release { m with conns := conns } = .ok m' ∧
      Leaves m m' fun e => ¬lost e.address := by
  have start : Consistent { m with conns := conns } orphans :=
    ⟨Indexed.routing consistent.indexed conns m.free, consistent.free,
      consistent.routed.unroute routes nodup slots⟩
  obtain ⟨m', run, consistent', same, members⟩ := releaseAll_spec start
  refine ⟨m', run, consistent', ⟨same.maxSubs, same.pass⟩, fun e => ?_⟩
  rw [members]
  constructor
  · rintro ⟨i, there, notIn⟩
    refine ⟨mem_iff_getElem?.mpr ⟨i, there⟩, fun gone => notIn ?_⟩
    exact (slots i).mpr ⟨e.address, consistent.route_address there, gone⟩
  · rintro ⟨member, kept⟩
    obtain ⟨i, there⟩ := mem_iff_getElem?.mp member
    refine ⟨i, there, fun inside => ?_⟩
    obtain ⟨a, was, gone⟩ := (slots i).mp inside
    obtain ⟨e', there', rfl⟩ := consistent.leads was
    rw [there] at there'
    cases there'
    exact kept gone

/-- **Closing a subscription.** -/
theorem removeSub_spec (consistent : Consistent m []) (connId : Nat) (subId : SubId) :
    ∃ m', m.removeSub connId subId = .ok m' ∧
      Leaves m m' fun e => e.address ≠ (connId, subId) := by
  cases found : m.route (connId, subId) with
  | none =>
    refine ⟨m, ?_, consistent.leaves fun there leads same => ?_⟩
    · unfold removeSub
      cases conn : m.conns.lookup connId with
      | none => rfl
      | some subs =>
        have none : subs.lookup subId = none := by
          simpa [route, routeIn, conn] using found
        simp [none]
    · rw [same, found] at leads
      cases leads
  | some slot =>
    obtain ⟨subs, conn, sub⟩ := Option.bind_eq_some_iff.mp found
    have conn' : m.conns.lookup connId = some subs := conn
    have sub' : subs.lookup subId = some slot := sub
    have routes := routeIn_remove conn' subId
    obtain ⟨m', run, rest⟩ := releaseRoutes_spec consistent
      (m.connsWithout connId subs subId) (fun a => a = (connId, subId))
      (fun a => ⟨fun gone => (congrFun routes a).trans (by rw [gone, Function.update_self]),
        fun kept => (congrFun routes a).trans (Function.update_of_ne kept _ _)⟩)
      (nodup_singleton slot) (fun i => by
        rw [mem_singleton]
        constructor
        · rintro rfl
          exact ⟨_, found, rfl⟩
        · rintro ⟨a, was, rfl⟩
          rw [found] at was
          exact (Option.some.inj was).symm)
    refine ⟨m', ?_, rest⟩
    rw [foldlM_cons, bind_eq_ok] at run
    obtain ⟨m₁, first, last⟩ := run
    rw [foldlM_nil, pure_eq_ok] at last
    unfold removeSub
    simp only [conn', sub']
    rw [first, last]

/-- **Closing a connection**, its slots released in any order. -/
theorem closeConn_spec (consistent : Consistent m []) (order : IterOrder Nat) (connId : Nat) :
    ∃ m', m.closeConn order connId = .ok m' ∧ Leaves m m' fun e => e.sub.connId ≠ connId := by
  cases conn : m.conns.lookup connId with
  | none =>
    refine ⟨m, by simp [closeConn, conn], consistent.leaves fun {i e} there leads same => ?_⟩
    rw [route, routeIn, show e.address.1 = connId from same, conn, Option.bind_none] at leads
    cases leads
  | some subs =>
    obtain ⟨nodup, held⟩ := consistent.routed.entries conn
    have perm := order.perm (subs.entries.map Sigma.snd)
    obtain ⟨m', run, rest⟩ := releaseRoutes_spec consistent (m.conns.erase connId)
      (fun a => a.1 = connId)
      (fun a => ⟨fun gone => (routeIn_erase connId a).trans (if_pos gone),
        fun kept => (routeIn_erase connId a).trans (if_neg kept)⟩)
      (perm.nodup_iff.mpr nodup) (fun slot => perm.mem_iff.trans (held slot))
    refine ⟨m', ?_, rest⟩
    simp only [closeConn, conn]
    exact run

/-! ### Refusals -/

theorem mem_heldSlots (slot : Nat) : slot ∈ m.heldSlots ↔ ∃ a, m.route a = some slot := by
  simp only [heldSlots, mem_flatMap, mem_map, route, routeIn]
  constructor
  · rintro ⟨⟨conn, subs⟩, member, ⟨id, slot'⟩, inside, rfl⟩
    refine ⟨(conn, id), ?_⟩
    rw [show m.conns.lookup conn = some subs from AList.mem_lookup_iff.mpr member]
    exact AList.mem_lookup_iff.mpr inside
  · rintro ⟨⟨conn, id⟩, found⟩
    obtain ⟨subs, here, there⟩ := Option.bind_eq_some_iff.mp found
    exact ⟨⟨conn, subs⟩, AList.mem_lookup_iff.mp here, ⟨id, slot⟩, AList.mem_lookup_iff.mp there, rfl⟩

theorem removeAll_spec {ρ : Type} (consistent : Consistent m []) (refused : List (Refused ρ)) :
    ∃ m', refused.foldlM (fun m r => m.removeSub r.connId r.subId) m = .ok m' ∧
      Leaves m m' fun e => ∀ r ∈ refused, e.address ≠ (r.connId, r.subId) := by
  induction refused generalizing m with
  | nil => exact ⟨m, rfl, consistent.leaves (by simp)⟩
  | cons r refused ih =>
    obtain ⟨m₁, first, left₁⟩ := removeSub_spec consistent r.connId r.subId
    obtain ⟨m', rest, left'⟩ := ih left₁.consistent
    refine ⟨m', by rw [foldlM_cons, first, ok_bind, rest], left'.consistent,
      left₁.same.trans left'.same, fun e => ?_⟩
    rw [left'.members, left₁.members, forall_mem_cons, and_assoc]

/-- **Closing what is refused.** -/
theorem removeRefused_spec {ρ : Type} (consistent : Consistent m []) (order : IterOrder Nat)
    (refusal : Subscription → Option ρ) :
    ∃ m' refused, m.removeRefused order refusal = .ok (m', refused) ∧
      Leaves m m' fun e => refusal e.sub = none := by
  have perm := order.perm m.heldSlots
  let reports (slot : Nat) (r : Refused ρ) : Prop := ∃ e reason, m.slots[slot]? = some (some e) ∧
    refusal e.sub = some reason ∧ r = ⟨e.sub.connId, e.sub.subId, e.sub.generation, reason⟩
  have each : ∀ refused slot, slot ∈ order.order m.heldSlots → ∃ refused',
      m.judge refusal refused slot = .ok refused' ∧
        ∀ r, r ∈ refused' ↔ r ∈ refused ∨ reports slot r := by
    intro refused slot member
    obtain ⟨a, found⟩ := (mem_heldSlots slot).mp (perm.mem_iff.mp member)
    obtain ⟨e, there, _⟩ := consistent.leads found
    unfold judge
    rw [there, okOr_some, ok_bind]
    dsimp only
    cases verdict : refusal e.sub with
    | none =>
      refine ⟨refused, rfl, fun r => ⟨.inl, fun either => either.elim id ?_⟩⟩
      rintro ⟨e', reason, there', given, _⟩
      rw [there] at there'
      cases there'
      rw [verdict] at given
      cases given
    | some reason =>
      refine ⟨_, rfl, fun r => ?_⟩
      rw [mem_append, mem_singleton]
      refine or_congr_right ⟨fun same => ⟨e, reason, there, verdict, same⟩, ?_⟩
      rintro ⟨e', reason', there', given, same⟩
      rw [there] at there'
      cases there'
      rw [verdict] at given
      cases given
      exact same
  obtain ⟨refused, judged, collected⟩ := foldlM_collects each []
  obtain ⟨m', run, left⟩ := removeAll_spec consistent refused
  refine ⟨m', refused, ?_, left.consistent, left.same, fun e => ?_⟩
  · rw [removeRefused, judged, ok_bind, run]
    rfl
  · rw [left.members]
    refine and_congr_right fun member => ?_
    obtain ⟨i, there⟩ := mem_iff_getElem?.mp member
    constructor
    · intro kept
      cases verdict : refusal e.sub with
      | none => rfl
      | some reason =>
        have held := (mem_heldSlots i).mpr ⟨_, consistent.route_address there⟩
        exact absurd rfl (kept ⟨e.sub.connId, e.sub.subId, e.sub.generation, reason⟩
          ((collected _).mpr (.inr ⟨i, perm.mem_iff.mpr held, e, reason, there, verdict, rfl⟩)))
    · intro none r listed same
      rcases (collected r).mp listed with old | ⟨j, _, e', reason, there', given, rfl⟩
      · cases old
      · have eq := consistent.distinct there there' same
        rw [← eq, there] at there'
        cases there'
        rw [none] at given
        cases given

/-! ### New subscriptions -/

/-- How many filters of the subscriptions have a key, as often as they have it. -/
def openPostings (k : PostKey) (subs : List Monitored) : Nat :=
  (subs.map fun e => entriesAt k e.sub.filterGroup.entries).sum

/-- The subscriptions in the slots, in any order. -/
theorem perm_slots {route : Nat × SubId → Option Nat} {slots : Slots}
    (routed : Routed route (addressAt slots) orphans) {subs : List Monitored} (nodup : subs.Nodup)
    (members : ∀ e, e ∈ subs ↔ some e ∈ slots) : slots.reduceOption.Perm subs := by
  refine (perm_ext_iff_of_nodup ?_ nodup).mpr fun e => ?_
  · refine (nodup_cells Monitored.address fun i j a b here there same => ?_).of_map
    exact routed.distinct (addressAt_eq_some.mpr ⟨a, here, same⟩)
      (addressAt_eq_some.mpr ⟨b, there, rfl⟩)
  · rw [reduceOption_mem_iff, members]

theorem postingCount_eq (k : PostKey) (slots : Slots) :
    postingCount k (slots.map (Option.map Monitored.shape)) = openPostings k slots.reduceOption := by
  induction slots with
  | nil => rfl
  | cons cell slots ih =>
    unfold postingCount openPostings at ih ⊢
    cases cell with
    | none =>
      rw [reduceOption_cons_of_none, ← ih]
      simp [entriesIn, entriesAt]
    | some e =>
      rw [reduceOption_cons_of_some]
      simp only [map_cons, sum_cons, ih]
      rfl

theorem Indexed.grow (indexed : Indexed m) : Indexed { m with
    slots := m.slots ++ [none]
    places := m.places ++ [[]]
    seen := m.seen ++ [0] } := by
  have shapes' : (m.slots ++ [none]).map (Option.map Monitored.shape) = m.shapes ++ [none] := by
    rw [map_append]
    rfl
  refine ⟨?_, ?_, ?_, ?_, fun s => ?_, ?_⟩
  · show (m.places ++ [[]]).map List.length = ((m.slots ++ [none]).map _).map _
    rw [shapes', map_append, map_append, indexed.rows]
    rfl
  · simp [indexed.seen_length]
  · intro n member
    rcases mem_append.mp member with old | new
    · exact indexed.seen_le n old
    · rw [mem_singleton.mp new]
      exact Nat.zero_le _
  · refine indexed.posted.congr rfl ?_ fun r _ => ?_
    · show liveIn ((m.slots ++ [none]).map _) = _
      rw [shapes']
      funext r
      simp only [liveIn, getElem?_append]
      split_ifs with inside
      · rfl
      · rw [getElem?_eq_none (not_lt.mp inside), getElem?_singleton]
        split_ifs <;> rfl
    · show placeAt (m.places ++ [[]]) r = _
      simp only [placeAt, getElem?_append]
      split_ifs with inside
      · rfl
      · rw [getElem?_eq_none (not_lt.mp inside), getElem?_singleton]
        split_ifs <;> rfl
  · show (m.indexFor s).tagPostings = (((m.slots ++ [none]).map _).map _).sum
    rw [shapes', indexed.tags]
    simp [entriesIn, tagsOf]
  · show m.contentSubscriptions = (((m.slots ++ [none]).map _).map _).sum
    rw [shapes', indexed.content]
    simp [contentIn]

/-- A slot is set aside for `e`: empty, and routed to once `e` is there. -/
structure Prepared (m m₁ : ActiveMonitors) (e : Monitored) (slot : Nat) : Prop where
  indexed : Indexed m₁
  empty : m₁.slots[slot]? = some none
  free : FreeList (m₁.slots.set slot (some e)) m₁.free
  routed : Routed m₁.route (addressAt (m₁.slots.set slot (some e))) []
  members : ∀ x, some x ∈ m₁.slots ↔ some x ∈ m.slots ∧ x.address ≠ e.address
  same : SameCounts m m₁

theorem Prepared.mem_slots {m₁ : ActiveMonitors} {e : Monitored} (prepared : Prepared m m₁ e slot)
    (x : Monitored) : some x ∈ m₁.slots.set slot (some e) ↔
      x = e ∨ some x ∈ m.slots ∧ x.address ≠ e.address := by
  have inside := (List.getElem?_eq_some_iff.mp prepared.empty).1
  rw [← prepared.members]
  constructor
  · intro member
    exact (mem_or_eq_of_mem_set member).symm.imp Option.some.inj id
  · rintro (rfl | member)
    · exact mem_set inside _
    · obtain ⟨i, there⟩ := mem_iff_getElem?.mp member
      have ne : slot ≠ i := by
        rintro rfl
        rw [prepared.empty] at there
        cases there
      exact mem_iff_getElem?.mpr ⟨i, (getElem?_set_ne ne).trans there⟩

/-- Where no slot is free, every slot is taken. -/
theorem Consistent.full (consistent : Consistent m []) (free : m.free = []) :
    m.slots.reduceOption.length = m.slots.length := by
  refine reduceOption_length_eq_iff.mpr fun cell member => ?_
  obtain ⟨i, there⟩ := mem_iff_getElem?.mp member
  cases cell with
  | some e => rfl
  | none =>
    have listed := (consistent.free.empty i).mpr there
    rw [free] at listed
    cases listed

/-- A fresh slot: a free one, or one more while there is room. -/
theorem allocate_spec (consistent : Consistent m []) (room : m.free = [] → m.slots.length < 2 ^ 32) :
    ∃ m₁ slot, m.allocate = .ok (m₁, slot) ∧ Indexed m₁ ∧ m₁.slots[slot]? = some none ∧
      m₁.conns = m.conns ∧ SameCounts m m₁ ∧ (∀ i : Nat, m₁.slots[i]?.join = m.slots[i]?.join) ∧
      ∀ e, FreeList (m₁.slots.set slot (some e)) m₁.free := by
  obtain ⟨indexed, list, _⟩ := consistent
  cases free : m.free with
  | cons slot rest =>
    rw [free] at list
    exact ⟨{ m with free := rest }, slot, by simp [allocate, free], Indexed.routing indexed _ _,
      (list.empty slot).mp (.head _), rfl, ⟨rfl, rfl⟩, fun _ => rfl, list.reuse⟩
  | nil =>
    refine ⟨{ m with
      slots := m.slots ++ [none]
      places := m.places ++ [[]]
      seen := m.seen ++ [0] }, m.slots.length, ?_, indexed.grow, getElem?_concat_length, rfl,
      ⟨rfl, rfl⟩, fun i => ?_, fun e => ?_⟩
    · simp only [allocate, free, ensure_of (room free), ok_bind]
      rfl
    · rw [getElem?_append, getElem?_singleton]
      split_ifs with inside
      · rfl
      · rw [getElem?_eq_none (not_lt.mp inside)]
        rfl
      · rw [getElem?_eq_none (not_lt.mp inside)]
    · rw [free] at list
      simpa [free] using list.grow e

theorem slotFor_spec (consistent : Consistent m []) (e : Monitored)
    (room : m.route e.address = none → m.free = [] → m.slots.length < 2 ^ 32) :
    ∃ m₁ slot, m.slotFor e.sub = .ok (m₁, slot) ∧ Prepared m m₁ e slot := by
  cases found : m.route e.address with
  | some slot =>
    obtain ⟨old, taken, addr⟩ := consistent.leads found
    have inside := (List.getElem?_eq_some_iff.mp taken).1
    obtain ⟨m₁, run, indexed, slots, same⟩ := uninstall_spec consistent.indexed taken
    have there : m.slotOf e.sub.connId e.sub.subId = some slot := found
    refine ⟨m₁, slot, ?_, indexed, ?_, ?_, ?_, fun x => ?_, ⟨same.maxSubs, same.pass⟩⟩
    · simp only [slotFor, there, run, ok_bind]
      rfl
    · rw [slots, getElem?_set_self inside]
    · rw [slots, same.free]
      exact (consistent.free.release taken).reuse e
    · have kept : Function.update (addressAt m.slots) slot (some e.address) = addressAt m.slots :=
        Function.update_eq_self_iff.mpr (addressAt_eq_some.mpr ⟨old, taken, addr⟩).symm
      rw [slots, set_set, same.route, addressAt_set inside, Option.map_some, kept]
      exact consistent.routed
    · rw [slots, mem_iff_getElem?, mem_iff_getElem?, ← exists_and_right]
      refine exists_congr fun i => ?_
      rw [getElem?_set]
      split_ifs with eq
      · subst eq
        simp +contextual [taken, ← addr, eq_comm]
      · refine (and_iff_left_of_imp fun there same => eq ?_).symm
        exact consistent.distinct taken there (addr.trans same.symm)
  | none =>
    obtain ⟨m₁, slot, run, indexed, empty, conns, same, cells, free⟩ :=
      allocate_spec consistent (room found)
    let subs := ((m₁.conns.lookup e.sub.connId).getD ∅).insert e.sub.subId slot
    have inside := (List.getElem?_eq_some_iff.mp empty).1
    have route' : ({ m₁ with conns := m₁.conns.insert e.sub.connId subs } : ActiveMonitors).route
        = Function.update m.route e.address (some slot) := by
      refine (routeIn_put e.sub.connId e.sub.subId slot).trans ?_
      rw [conns]
      rfl
    have there : m.slotOf e.sub.connId e.sub.subId = none := found
    have addresses : addressAt m₁.slots = addressAt m.slots :=
      funext fun i => congrArg (Option.map Monitored.address) (cells i)
    refine ⟨{ m₁ with conns := m₁.conns.insert e.sub.connId subs }, slot, ?_,
      Indexed.routing indexed _ _, empty, free e, ?_, fun x => ?_, ⟨same.maxSubs, same.pass⟩⟩
    · simp only [slotFor, there, run, ok_bind]
      rfl
    · rw [route', addressAt_set inside, addresses]
      exact consistent.routed.fill found (by rw [← addresses, addressAt, empty]; rfl)
    · show some x ∈ m₁.slots ↔ _
      simp only [mem_iff_getElem?, ← Option.join_eq_some_iff, cells]
      refine (and_iff_left_of_imp fun ⟨i, before⟩ same => ?_).symm
      have leads := consistent.route_address (Option.join_eq_some_iff.mp before)
      rw [same, found] at leads
      cases leads

theorem slotFor_room (e : Monitored) {result : ActiveMonitors × Nat}
    (run : m.slotFor e.sub = .ok result) (new : m.route e.address = none) (free : m.free = []) :
    m.slots.length < 2 ^ 32 := by
  have there : m.slotOf e.sub.connId e.sub.subId = none := new
  simp only [slotFor, there, allocate, free, bind_eq_ok, ensure_eq_ok, Prod.exists] at run
  obtain ⟨_, _, ⟨_, room, _⟩, _⟩ := run
  exact room

theorem insert_eq {m₁ : ActiveMonitors} (e : Monitored) (first : m.slotFor e.sub = .ok (m₁, slot))
    (prepared : Prepared m m₁ e slot) : m.insert e.sub e.pending
      = ({ m₁ with slots := m₁.slots.set slot (some e) } : ActiveMonitors).install slot := by
  rw [insert, first, ok_bind]
  simp only [ensure_of (List.getElem?_eq_some_iff.mp prepared.empty).1, ok_bind]

/-- **Adding a subscription**, in place of the one with its address. -/
theorem insert_spec (consistent : Consistent m []) (e : Monitored) {m' : ActiveMonitors}
    (run : m.insert e.sub e.pending = .ok m') :
    Consistent m' [] ∧ SameCounts m m' ∧
      ∀ x, some x ∈ m'.slots ↔ x = e ∨ some x ∈ m.slots ∧ x.address ≠ e.address := by
  have room : m.route e.address = none → m.free = [] → m.slots.length < 2 ^ 32 := by
    obtain ⟨_, found, _⟩ := bind_eq_ok.mp run
    exact slotFor_room e found
  obtain ⟨m₁, slot, first, prepared⟩ := slotFor_spec consistent e room
  rw [insert_eq e first prepared] at run
  obtain ⟨indexed, slots, same⟩ := install_spec prepared.indexed prepared.empty e run
  refine ⟨⟨indexed, ?_, ?_⟩, prepared.same.trans ⟨same.maxSubs, same.pass⟩, fun x => ?_⟩
  · rw [slots, same.free]
    exact prepared.free
  · rw [slots, same.route]
    exact prepared.routed
  · rw [slots, prepared.mem_slots]

/-- With room for it a subscription is added without a panic. -/
theorem insert_total (consistent : Consistent m []) (e : Monitored) {subs : List Monitored}
    (nodup : subs.Nodup)
    (members : ∀ x, x ∈ subs ↔ x = e ∨ some x ∈ m.slots ∧ x.address ≠ e.address)
    (room : m.route e.address = none → m.slots.reduceOption.length < 2 ^ 32)
    (short : e.sub.filterGroup.entries.length ≤ 2 ^ 32) (few : ∀ k, openPostings k subs ≤ 2 ^ 32) :
    ∃ m', m.insert e.sub e.pending = .ok m' := by
  obtain ⟨m₁, slot, first, prepared⟩ := slotFor_spec consistent e fun new free =>
    consistent.full free ▸ room new
  have count : ∀ k, postingCount k (m₁.shapes.set slot (some e.shape)) ≤ 2 ^ 32 := by
    intro k
    have perm := perm_slots prepared.routed nodup fun x =>
      (members x).trans (prepared.mem_slots x).symm
    have shapes' := shapes_set (m := m₁) slot (some e)
    rw [← show _ = m₁.shapes.set slot (some e.shape) from shapes', postingCount_eq]
    rw [openPostings, (perm.map _).sum_eq]
    exact few k
  rw [insert_eq e first prepared]
  exact install_total prepared.indexed prepared.empty e short count

end ActiveMonitors

end Wok.Query
