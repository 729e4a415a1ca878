/-
**The monitors against a list of open subscriptions.**

A registry is the plain list of the open subscriptions. Every call on the monitors has its meaning
there: adding puts a subscription in place of the one with its address, closing takes some out, and
an event moves the cursors of those it is delivered to.

* `Refines` — the monitors hold the subscriptions of the registry.
* `step_refines` — **every call keeps this**, and none panics while there is room.
* `processInner_spec`, `eventRequiresContent_spec` — what an event is answered, over the registry.
* `process_serves_registry` — **the monitors answer every event as the registry says**, after every
  sequence of calls.
* `add_panics_when_full` — the room is needed: one more subscription than slot numbers panics.
-/

import Wok.Query.Routing

namespace Wok.Query

open Wok.Library Wok.Event ActiveMonitors List

/-! ### The registry -/

/-- The open subscriptions, the cap per connection, and how many events were looked at. -/
structure Registry where
  subs : List Monitored
  maxSubs : Nat
  passes : Nat

/-- A call on the monitors. -/
inductive MonitorCall (ρ : Type)
  | addSub (sub : Subscription)
  | addPending (sub : Subscription) (buffer : PendingBuffer)
  | removeSub (connId : Nat) (subId : SubId)
  | removeRefused (order : IterOrder Nat) (refusal : Subscription → Option ρ)
  | closeConn (order : IterOrder Nat) (connId : Nat)
  | finishPending (connId : Nat) (subId : SubId) (generation delivered : Nat)
  | pendingMut (connId : Nat) (subId : SubId) (change : PendingBuffer → PendingBuffer)
  | setMaxSubs (maxSubs : Nat)
  | process (levId : Nat) (packed : PackedEvent) (searchTerms : Option SearchTermSet)
  | processEphemeral (packed : PackedEvent) (searchTerms : Option SearchTermSet)
  | eventRequiresContent (packed : PackedEvent)

/-- The monitors after a call. -/
def ActiveMonitors.step {ρ : Type} (m : ActiveMonitors) : MonitorCall ρ → Except Panic ActiveMonitors
  | .addSub sub => (m.addSub sub).map Prod.fst
  | .addPending sub buffer => m.addPending sub buffer
  | .removeSub connId subId => m.removeSub connId subId
  | .removeRefused order refusal => (m.removeRefused order refusal).map Prod.fst
  | .closeConn order connId => m.closeConn order connId
  | .finishPending connId subId generation delivered =>
    (m.finishPending connId subId generation delivered).map Prod.fst
  | .pendingMut connId subId change => m.pendingMut connId subId change
  | .setMaxSubs maxSubs => .ok (m.setMaxSubs maxSubs)
  | .process levId packed searchTerms => (m.process levId packed searchTerms).map Prod.fst
  | .processEphemeral packed searchTerms => (m.processEphemeral packed searchTerms).map Prod.fst
  | .eventRequiresContent packed => (m.eventRequiresContent packed).map Prod.fst

def ActiveMonitors.run {ρ : Type} (m : ActiveMonitors) (calls : List (MonitorCall ρ)) :
    Except Panic ActiveMonitors := calls.foldlM step m

/-- The history of this generation has been sent up to `delivered`. -/
def Monitored.finish (generation delivered : Nat) (e : Monitored) : Monitored :=
  if e.sub.generation = generation ∧ e.pending.isSome then
    ⟨{ e.sub with latestEventId := max e.sub.latestEventId delivered }, none⟩
  else e

/-- The cursor moves when the event is delivered. -/
def Monitored.advance (levId : Option Nat) (packed : PackedEvent)
    (searchTerms : Option SearchTermSet) (e : Monitored) : Monitored :=
  if takes levId packed searchTerms e.sub then
    { e with sub := { e.sub with latestEventId := levId.getD e.sub.latestEventId } }
  else e

namespace Registry

def new (maxSubs : Nat) : Registry := ⟨[], maxSubs, 0⟩

variable (r : Registry)

def put (e : Monitored) : Registry :=
  { r with subs := e :: r.subs.filter fun other => other.address ≠ e.address }

def close (closed : Monitored → Bool) : Registry :=
  { r with subs := r.subs.filter fun e => !closed e }

/-- Changes the subscription with this address. -/
def modify (a : Nat × SubId) (change : Monitored → Monitored) : Registry :=
  { r with subs := r.subs.map fun e => if e.address = a then change e else e }

def openCount (connId : Nat) : Nat := r.subs.countP fun e => e.sub.connId = connId

/-- What a call means. -/
def step {ρ : Type} : MonitorCall ρ → Registry
  | .addSub sub =>
    let replacing := r.subs.any fun e => e.address = (sub.connId, sub.subId)
    if !replacing && r.maxSubs ≤ r.openCount sub.connId then r else r.put ⟨sub, none⟩
  | .addPending sub buffer => r.put ⟨sub, some buffer⟩
  | .removeSub connId subId => r.close fun e => e.address = (connId, subId)
  | .removeRefused _ refusal => r.close fun e => (refusal e.sub).isSome
  | .closeConn _ connId => r.close fun e => e.sub.connId = connId
  | .finishPending connId subId generation delivered =>
    r.modify (connId, subId) (Monitored.finish generation delivered)
  | .pendingMut connId subId change =>
    r.modify (connId, subId) fun e => { e with pending := e.pending.map change }
  | .setMaxSubs maxSubs => { r with maxSubs := maxSubs }
  | .process levId packed searchTerms => { r with
      subs := r.subs.map (Monitored.advance (some levId) packed searchTerms)
      passes := r.passes + 1 }
  | .processEphemeral _ _ => { r with passes := r.passes + 1 }
  | .eventRequiresContent _ => { r with passes := r.passes + 1 }

def run {ρ : Type} (calls : List (MonitorCall ρ)) : Registry :=
  calls.foldl (fun r call => r.step call) r

/-- There are slot numbers for the subscriptions, positions for the keys of each and for the
postings under each key, and pass numbers. -/
structure Fits : Prop where
  subs : r.subs.length ≤ 2 ^ 32
  keys : ∀ e ∈ r.subs, e.sub.filterGroup.entries.length ≤ 2 ^ 32
  buckets : ∀ k, openPostings k r.subs ≤ 2 ^ 32
  passes : r.passes + 1 < 2 ^ 64

variable {r}

/-- Room for all keys together is enough. -/
theorem Fits.of_total (subs : r.subs.length ≤ 2 ^ 32)
    (total : (r.subs.map fun e => e.sub.filterGroup.entries.length).sum ≤ 2 ^ 32)
    (passes : r.passes + 1 < 2 ^ 64) : r.Fits where
  subs := subs
  keys _ member := (le_sum_of_mem (mem_map_of_mem member)).trans total
  buckets _ := (sum_le_sum fun _ _ => countP_le_length).trans total
  passes := passes

end Registry

/-! ### Refinement -/

/-- The monitors hold the subscriptions of the registry. -/
structure Refines (m : ActiveMonitors) (r : Registry) : Prop where
  consistent : Consistent m []
  distinct : (r.subs.map Monitored.address).Nodup
  members : ∀ e, e ∈ r.subs ↔ some e ∈ m.slots
  maxSubs : m.maxSubs = r.maxSubs
  passes : m.pass ≤ r.passes

namespace Refines

variable {m : ActiveMonitors} {r : Registry}
variable {e : Monitored} {a : Nat × SubId}

theorem new (maxSubs : Nat) : Refines (.new maxSubs) (.new maxSubs) where
  consistent := by
    refine ⟨⟨rfl, rfl, fun _ member => absurd member not_mem_nil, ?_, fun s => ?_, rfl⟩, ?_, ?_⟩
    · have none : Tracks Posting.ref (fun _ : PostKey => []) (fun _ => none) (fun _ => none) :=
        Tracks.empty
      refine none.congr ?_ ?_ fun _ alive => absurd rfl alive
      · funext ⟨s, key⟩
        cases s <;> cases key <;> rfl
      · funext r
        rfl
    · cases s <;> rfl
    · exact freeList_nil
    · exact ⟨⟨fun found => (by cases found), fun found => (by cases found.1)⟩,
        fun _ member => (by cases member), nodup_nil, fun found => (by cases found)⟩
  distinct := nodup_nil
  members _ := ⟨fun member => absurd member not_mem_nil,
    fun member => absurd member not_mem_nil⟩
  maxSubs := rfl
  passes := le_rfl

theorem nodup (refines : Refines m r) : r.subs.Nodup := refines.distinct.of_map

theorem exists_slot (refines : Refines m r) (member : e ∈ r.subs) :
    ∃ slot, m.slots[slot]? = some (some e) ∧ m.route e.address = some slot := by
  obtain ⟨slot, there⟩ := mem_iff_getElem?.mp ((refines.members e).mp member)
  exact ⟨slot, there, refines.consistent.route_address there⟩

theorem route_eq_none (refines : Refines m r) : m.route a = none ↔ ∀ e ∈ r.subs, e.address ≠ a := by
  constructor
  · rintro none e member rfl
    obtain ⟨slot, _, found⟩ := refines.exists_slot member
    rw [none] at found
    cases found
  · intro absent
    by_contra some
    obtain ⟨slot, found⟩ := Option.ne_none_iff_exists'.mp some
    obtain ⟨e, there, addr⟩ := refines.consistent.leads found
    exact absent e ((refines.members e).mpr (mem_iff_getElem?.mpr ⟨slot, there⟩)) addr

/-- As many slots are occupied as subscriptions open. -/
theorem length_eq (refines : Refines m r) : m.slots.reduceOption.length = r.subs.length :=
  (perm_slots refines.consistent.routed refines.nodup refines.members).length_eq

/-! ### Adding and closing -/

theorem distinct_put (distinct : (r.subs.map Monitored.address).Nodup) (e : Monitored) :
    ((r.put e).subs.map Monitored.address).Nodup := by
  refine nodup_cons.mpr ⟨fun member => ?_, ?_⟩
  · obtain ⟨x, inside, same⟩ := mem_map.mp member
    have ne := (mem_filter.mp inside).2
    simp [same] at ne
  · exact distinct.sublist (filter_sublist.map _)

section Calls

variable (refines : Refines m r)

include refines

theorem mem_put (e : Monitored) {x : Monitored} :
    x ∈ (r.put e).subs ↔ x = e ∨ some x ∈ m.slots ∧ x.address ≠ e.address := by
  simp only [Registry.put, mem_cons, mem_filter, refines.members, decide_eq_true_eq]

theorem put_spec (e : Monitored) {m' : ActiveMonitors} (run : m.insert e.sub e.pending = .ok m') :
    Refines m' (r.put e) := by
  obtain ⟨consistent, same, members⟩ := insert_spec refines.consistent e run
  refine ⟨consistent, distinct_put refines.distinct e, fun x => ?_, ?_, ?_⟩
  · rw [refines.mem_put, members]
  · rw [same.maxSubs, refines.maxSubs]
    rfl
  · rw [same.pass]
    exact refines.passes

theorem put_total (e : Monitored) (fits : (r.put e).Fits) :
    ∃ m', m.insert e.sub e.pending = .ok m' := by
  refine insert_total refines.consistent e (distinct_put refines.distinct e).of_map
    (fun x => refines.mem_put e) (fun none => ?_) (fits.keys e (mem_cons_self ..)) fits.buckets
  have all : r.subs.filter (fun other => other.address ≠ e.address) = r.subs := by
    refine filter_eq_self.mpr fun x member => ?_
    exact decide_eq_true (refines.route_eq_none.mp none x member)
  have few := fits.subs
  simp only [Registry.put, all, length_cons] at few
  rw [refines.length_eq]
  omega

theorem close_spec {m' : ActiveMonitors} {closed : Monitored → Bool} {kept : Monitored → Prop}
    (left : Leaves m m' kept) (rest : ∀ e, kept e ↔ closed e = false) :
    Refines m' (r.close closed) where
  consistent := left.consistent
  distinct := refines.distinct.sublist (filter_sublist.map _)
  members e := by
    rw [left.members, ← refines.members, rest]
    simp [Registry.close]
  maxSubs := by
    rw [left.same.maxSubs, refines.maxSubs]
    rfl
  passes := by
    rw [left.same.pass]
    exact refines.passes

theorem openCount_eq (connId : Nat) : m.openCount connId = r.openCount connId := by
  have inner : ∀ subId, ((m.conns.lookup connId).getD ∅).lookup subId = m.route (connId, subId) := by
    intro subId
    rw [ActiveMonitors.route, routeIn]
    cases m.conns.lookup connId with
    | none => exact AList.lookup_empty subId
    | some subs => rfl
  have perm : ((m.conns.lookup connId).getD ∅).keys.Perm
      ((r.subs.filter fun e => e.sub.connId = connId).map fun e => e.sub.subId) := by
    refine (perm_ext_iff_of_nodup (AList.keys_nodup _) ?_).mpr fun subId => ?_
    · refine pairwise_map.mpr ?_
      have distinct := (pairwise_map.mp refines.distinct).sublist
        (filter_sublist (p := fun e : Monitored => decide (e.sub.connId = connId)))
      refine distinct.imp_of_mem fun {a b} first second ne same => ne (Prod.ext ?_ same)
      have conn := (mem_filter.mp first).2
      have conn' := (mem_filter.mp second).2
      simp only [decide_eq_true_eq] at conn conn'
      exact conn.trans conn'.symm
    · rw [← AList.mem_keys, ← AList.lookup_isSome, inner, Option.isSome_iff_ne_none, Ne,
        refines.route_eq_none]
      simp only [mem_map, mem_filter, decide_eq_true_eq]
      push Not
      constructor
      · rintro ⟨e, member, addr⟩
        exact ⟨e, ⟨member, congrArg Prod.fst addr⟩, congrArg Prod.snd addr⟩
      · rintro ⟨e, ⟨member, conn⟩, sub⟩
        exact ⟨e, member, Prod.ext conn sub⟩
  have count := perm.length_eq
  rw [length_map, ← countP_eq_length_filter] at count
  rw [Registry.openCount, ← count, openCount, AList.keys, List.keys, length_map]

/-! ### Changes in place -/

/-- Subscriptions change, but not what the index sees of them. -/
theorem map {change : Monitored → Monitored} (kept : ∀ e, (change e).shape = e.shape) :
    Refines { m with slots := m.slots.map (Option.map change) }
      { r with subs := r.subs.map change } := by
  have addressed : ∀ e, (change e).address = e.address := by
    intro e
    have shape := kept e
    exact Prod.ext (congrArg Shape.connId shape) (congrArg Shape.subId shape)
  have shapes : ({ m with slots := m.slots.map (Option.map change) } : ActiveMonitors).shapes
      = m.shapes := by
    refine (map_map ..).trans (map_congr_left fun cell _ => ?_)
    cases cell with
    | none => rfl
    | some e => exact congrArg some (kept e)
  have addresses : addressAt (m.slots.map (Option.map change)) = addressAt m.slots := by
    funext i
    rw [addressAt, getElem?_map, addressAt]
    rcases m.slots[i]? with _ | _ | e
    · rfl
    · rfl
    · exact congrArg some (addressed e)
  obtain ⟨⟨rows, seen, seen_le, posted, tags, content⟩, free, routed⟩ := refines.consistent
  refine ⟨⟨⟨?_, ?_, seen_le, ?_, fun s => ?_, ?_⟩, free.map change, ?_⟩, ?_, fun e => ?_,
    refines.maxSubs, refines.passes⟩
  · rwa [shapes]
  · exact seen.trans (length_map _).symm
  · rwa [shapes]
  · rw [shapes]
    exact tags s
  · rwa [shapes]
  · rw [addresses]
    exact routed
  · show ((r.subs.map change).map Monitored.address).Nodup
    rw [map_map]
    have same : Monitored.address ∘ change = Monitored.address := funext addressed
    rw [same]
    exact refines.distinct
  · show e ∈ r.subs.map change ↔ some e ∈ m.slots.map (Option.map change)
    rw [mem_map, mem_map]
    constructor
    · rintro ⟨x, member, rfl⟩
      exact ⟨some x, (refines.members x).mp member, rfl⟩
    · rintro ⟨cell, member, same⟩
      obtain ⟨x, rfl, rfl⟩ := Option.map_eq_some_iff.mp same
      exact ⟨x, (refines.members x).mpr member, rfl⟩

theorem set_eq_map {slot : Nat} (there : m.slots[slot]? = some (some e))
    (change : Monitored → Monitored) :
    m.slots.set slot (some (change e))
      = m.slots.map (Option.map fun x => if x.address = e.address then change x else x) := by
  have inside := (List.getElem?_eq_some_iff.mp there).1
  apply ext_getElem?
  intro i
  rw [getElem?_map]
  by_cases eq : slot = i
  · subst eq
    rw [getElem?_set_self inside, there]
    exact congrArg (fun e => some (some e)) (if_pos rfl).symm
  · rw [getElem?_set_ne eq]
    cases cell : m.slots[i]? with
    | none => rfl
    | some occupant =>
      cases occupant with
      | none => rfl
      | some e' =>
        have other : e'.address ≠ e.address := fun same =>
          eq (refines.consistent.distinct there cell same.symm)
        exact congrArg (fun e => some (some e)) (if_neg other).symm

/-- A call that changes the subscription with an address, if it is open. -/
theorem modify_spec {change : Monitored → Monitored} (kept : ∀ e, (change e).shape = e.shape)
    {β : Type} {call : Except Panic β} (after : β → ActiveMonitors)
    (closed : m.route a = none → ∃ b, call = .ok b ∧ after b = m)
    (opened : ∀ slot e, m.route a = some slot → m.slots[slot]? = some (some e) →
      ∃ b, call = .ok b ∧ after b = { m with slots := m.slots.set slot (some (change e)) }) :
    ∃ b, call = .ok b ∧ Refines (after b) (r.modify a change) := by
  have shaped : ∀ e, (if e.address = a then change e else e).shape = e.shape := by
    intro e
    split_ifs
    · exact kept e
    · rfl
  have mapped := refines.map shaped
  cases found : m.route a with
  | none =>
    obtain ⟨b, run, same⟩ := closed found
    have id : m.slots.map (Option.map fun e => if e.address = a then change e else e) = m.slots := by
      refine (map_congr_left (g := id) fun cell member => ?_).trans (map_id _)
      cases cell with
      | none => rfl
      | some e =>
        have other := refines.route_eq_none.mp found e ((refines.members e).mpr member)
        exact congrArg some (if_neg other)
    rw [id] at mapped
    exact ⟨b, run, same ▸ mapped⟩
  | some slot =>
    obtain ⟨e, there, addr⟩ := refines.consistent.leads found
    obtain ⟨b, run, same⟩ := opened slot e found there
    rw [refines.set_eq_map there, addr] at same
    exact ⟨b, run, same ▸ mapped⟩

end Calls

theorem entry_none (closed : m.route a = none) : m.entry a.1 a.2 = .ok none := by
  have missing : m.slotOf a.1 a.2 = none := closed
  simp only [entry, missing]

theorem entry_some {slot : Nat} (found : m.route a = some slot)
    (there : m.slots[slot]? = some (some e)) : m.entry a.1 a.2 = .ok (some (slot, e)) := by
  have routed : m.slotOf a.1 a.2 = some slot := found
  simp only [entry, routed, there, okOr_some, ok_bind]
  rfl

theorem pendingMut_spec (refines : Refines m r) (a : Nat × SubId)
    (change : PendingBuffer → PendingBuffer) :
    ∃ m', m.pendingMut a.1 a.2 change = .ok m' ∧ Refines m'
      (r.modify a fun e => { e with pending := e.pending.map change }) := by
  have kept : ∀ e : Monitored,
      ({ e with pending := e.pending.map change } : Monitored).shape = e.shape := fun _ => rfl
  refine refines.modify_spec kept id ?_ ?_
  · intro closed
    refine ⟨m, ?_, rfl⟩
    rw [pendingMut, entry_none closed, ok_bind]
    rfl
  · intro slot e found there
    refine ⟨_, ?_, rfl⟩
    rw [pendingMut, entry_some found there, ok_bind]
    rfl

theorem finish_shape (generation delivered : Nat) (e : Monitored) :
    (e.finish generation delivered).shape = e.shape := by
  unfold Monitored.finish
  split_ifs <;> rfl

theorem finishPending_spec (refines : Refines m r) (a : Nat × SubId) (generation delivered : Nat) :
    ∃ result, m.finishPending a.1 a.2 generation delivered = .ok result ∧
      Refines result.1 (r.modify a (Monitored.finish generation delivered)) := by
  refine refines.modify_spec (finish_shape generation delivered) Prod.fst (fun closed => ?_)
    fun slot e found there => ?_
  · refine ⟨(m, none), ?_, rfl⟩
    rw [finishPending, entry_none closed, ok_bind]
    rfl
  · have unchanged : m.slots.set slot (some e) = m.slots := by
      obtain ⟨inside, same⟩ := List.getElem?_eq_some_iff.mp there
      rw [← same, set_getElem_self inside]
    rw [finishPending, entry_some found there, ok_bind]
    dsimp only
    by_cases current : e.sub.generation = generation
    · rw [if_neg (not_not.mpr current)]
      cases waiting : e.pending with
      | none =>
        refine ⟨(m, none), rfl, ?_⟩
        rw [Monitored.finish, if_neg (by simp [waiting]), unchanged]
      | some buffer =>
        refine ⟨_, rfl, ?_⟩
        rw [Monitored.finish, if_pos ⟨current, by simp [waiting]⟩]
    · refine ⟨(m, none), by rw [if_pos current]; rfl, ?_⟩
      rw [Monitored.finish, if_neg fun both => current both.1, unchanged]

end Refines

/-! ### Events -/

section Events

variable {levId : Option Nat} {packed : PackedEvent} {searchTerms : Option SearchTermSet}
variable {e : Monitored}

/-- **A filter that matches selects its subscription.** -/
theorem selected_of_match {f : NostrFilter} (listed : f ∈ e.sub.filterGroup.filters)
    (holds : f.doesMatchWithoutSearch packed = true) {searchOnly : Bool}
    (searching : searchOnly = true → f.search.isSome = true) :
    Selected packed searchOnly (some e.shape) := by
  have conditions := NostrFilter.Holds.of_doesMatch holds
  obtain ⟨key, member, inside⟩ := NostrFilter.exists_key (e.sub.filterGroup.parsed f listed) conditions
  refine ⟨⟨f.search.isSome, key, kindMask f⟩, ?_, searching, inside,
    kindMask_ne_zero conditions.kinds⟩
  exact mem_flatMap.mpr ⟨f, listed, mem_map_of_mem member⟩

theorem selected_of_takes (taken : takes levId packed searchTerms e.sub = true) :
    Selected packed false (some e.shape) := by
  obtain ⟨_, matching⟩ := (Bool.and_eq_true _ _).mp taken
  obtain ⟨f, listed, holds⟩ := any_eq_true.mp matching
  exact selected_of_match listed ((Bool.and_eq_true _ _).mp holds).1 (by simp)

/-- The recipient in a slot, if its subscription takes the event. -/
def recipientAt (levId : Option Nat) (packed : PackedEvent) (searchTerms : Option SearchTermSet)
    (slots : Slots) (slot : Nat) : Option Recipient :=
  slots[slot]?.join.bind fun e =>
    if takes levId packed searchTerms e.sub then some (recipientOf e) else none

theorem processSlot_spec {slots : Slots} {slot : Nat} (recipients : List Recipient)
    (there : slots[slot]? = some (some e)) :
    processSlot levId packed searchTerms (slots, recipients) slot
      = .ok (slots.set slot (some (e.advance levId packed searchTerms)),
          recipients ++ (recipientAt levId packed searchTerms slots slot).toList) := by
  obtain ⟨inside, same⟩ := List.getElem?_eq_some_iff.mp there
  simp only [processSlot, there, okOr_some, ok_bind, recipientAt, Option.join_some, Option.bind_some,
    Monitored.advance]
  by_cases taken : takes levId packed searchTerms e.sub = true
  · simp only [if_pos taken]
    rfl
  · simp only [if_neg taken]
    rw [← same, set_getElem_self inside]
    simp

theorem processSlots_spec (levId : Option Nat) (packed : PackedEvent)
    (searchTerms : Option SearchTermSet) {candidates : List Nat} (nodup : candidates.Nodup)
    {slots : Slots} (occupied : ∀ slot ∈ candidates, ∃ e, slots[slot]? = some (some e))
    (recipients : List Recipient) :
    ∃ slots', candidates.foldlM (processSlot levId packed searchTerms) (slots, recipients)
        = .ok (slots', recipients
          ++ candidates.filterMap (recipientAt levId packed searchTerms slots)) ∧
      ∀ i, slots'[i]? = if i ∈ candidates
        then slots[i]?.map (Option.map (Monitored.advance levId packed searchTerms))
        else slots[i]? := by
  induction candidates generalizing slots recipients with
  | nil => exact ⟨slots, by simp, by simp⟩
  | cons slot candidates ih =>
    obtain ⟨alone, nodup⟩ := nodup_cons.mp nodup
    obtain ⟨⟨e, there⟩, later⟩ := forall_mem_cons.mp occupied
    have inside := (List.getElem?_eq_some_iff.mp there).1
    have apart : ∀ i ∈ candidates, (slots.set slot (some (e.advance levId packed searchTerms)))[i]?
        = slots[i]? := fun i member =>
      getElem?_set_ne fun eq : slot = i => alone (eq ▸ member)
    obtain ⟨slots', run, at'⟩ := ih nodup
      (fun i member => (later i member).imp fun e' here => (apart i member).trans here)
      (recipients ++ (recipientAt levId packed searchTerms slots slot).toList)
    refine ⟨slots', ?_, fun i => ?_⟩
    · have same : candidates.filterMap (recipientAt levId packed searchTerms
          (slots.set slot (some (e.advance levId packed searchTerms))))
            = candidates.filterMap (recipientAt levId packed searchTerms slots) :=
        filterMap_congr fun i member => by rw [recipientAt, apart i member, recipientAt]
      rw [foldlM_cons, processSlot_spec recipients there, ok_bind, run, same, append_assoc]
      congr 3
      cases first : recipientAt levId packed searchTerms slots slot <;> simp [first]
    · rw [at']
      by_cases eq : slot = i
      · subst eq
        rw [if_neg alone, if_pos (.head _), getElem?_set_self inside, there]
        rfl
      · by_cases member : i ∈ candidates
        · rw [if_pos member, if_pos (.tail _ member), apart i member]
        · rw [if_neg member, getElem?_set_ne eq, if_neg]
          exact fun either => (mem_cons.mp either).elim (fun h => eq h.symm) member

variable {m : ActiveMonitors} {r : Registry}

/-- What a delivery to the registry leaves. -/
def Registry.deliver (r : Registry) (levId : Option Nat) (packed : PackedEvent)
    (searchTerms : Option SearchTermSet) : Registry :=
  { r with subs := r.subs.map (Monitored.advance levId packed searchTerms), passes := r.passes + 1 }

theorem advance_shape (e : Monitored) : (e.advance levId packed searchTerms).shape = e.shape := by
  unfold Monitored.advance
  split_ifs <;> rfl

theorem Refines.room (refines : Refines m r) (fits : r.Fits) : m.pass + 1 < 2 ^ 64 :=
  lt_of_le_of_lt (Nat.succ_le_succ refines.passes) fits.passes

/-- A pass leaves the subscriptions as they are. -/
theorem Refines.collect_spec (refines : Refines m r) (room : m.pass + 1 < 2 ^ 64)
    (packed : PackedEvent) (searchOnly : Bool) :
    ∃ m' candidates, m.collect packed searchOnly = .ok (m', candidates) ∧ candidates.Nodup ∧
      Refines m' { r with passes := r.passes + 1 } ∧ m'.slots = m.slots ∧
      ∀ slot, slot ∈ candidates ↔ ∃ e, m.slots[slot]? = some (some e) ∧
        Selected packed searchOnly (some e.shape) := by
  have passes := refines.passes
  obtain ⟨seen, candidates, run, indexed, nodup, members⟩ :=
    ActiveMonitors.collect_spec refines.consistent.indexed room packed searchOnly
  refine ⟨_, candidates, run, nodup, ⟨{ refines.consistent with indexed }, refines.distinct,
    refines.members, refines.maxSubs, Nat.succ_le_succ passes⟩, rfl, fun slot => ?_⟩
  rw [members]
  simp only [getElem?_shapes]
  constructor
  · rintro ⟨cell, there, selected⟩
    obtain ⟨occupant, at', rfl⟩ := Option.map_eq_some_iff.mp there
    cases occupant with
    | none =>
      obtain ⟨x, none, _⟩ := selected
      exact absurd none not_mem_nil
    | some e => exact ⟨e, at', selected⟩
  · rintro ⟨e, there, selected⟩
    exact ⟨some e.shape, by rw [there]; rfl, selected⟩

/-- **What an event is answered**: the recipients are the open subscriptions that take it, each
once. -/
theorem Refines.processInner_spec (refines : Refines m r) (room : m.pass + 1 < 2 ^ 64)
    (levId : Option Nat) (packed : PackedEvent) (searchTerms : Option SearchTermSet) :
    ∃ m' recipients, m.processInner levId packed searchTerms = .ok (m', recipients) ∧
      Refines m' (r.deliver levId packed searchTerms) ∧
      (recipients.map fun x => (x.connId, x.subId)).Nodup ∧
      ∀ x, x ∈ recipients ↔
        ∃ e ∈ r.subs, takes levId packed searchTerms e.sub = true ∧ x = recipientOf e := by
  obtain ⟨m₁, candidates, collected, nodup, refines₁, slots₁, members⟩ :=
    refines.collect_spec room packed false
  obtain ⟨slots', run, at'⟩ := processSlots_spec levId packed searchTerms nodup
    (fun slot member => by
      obtain ⟨e, there, _⟩ := (members slot).mp member
      exact ⟨e, slots₁.symm ▸ there⟩ : ∀ slot ∈ candidates, ∃ e, m₁.slots[slot]? = some (some e)) []
  rw [nil_append] at run
  -- A subscription that takes the event is a candidate, so the others stay as they are.
  have all : slots' = m₁.slots.map (Option.map (Monitored.advance levId packed searchTerms)) := by
    apply ext_getElem?
    intro i
    rw [at', getElem?_map]
    split_ifs with member
    · rfl
    · cases cell : m₁.slots[i]? with
      | none => rfl
      | some occupant =>
        cases occupant with
        | none => rfl
        | some e =>
          have not : ¬takes levId packed searchTerms e.sub = true := fun taken =>
            member ((members i).mpr ⟨e, slots₁ ▸ cell, selected_of_takes taken⟩)
          have same : e.advance levId packed searchTerms = e := if_neg not
          simp [same]
  have found : ∀ slot x, recipientAt levId packed searchTerms m₁.slots slot = some x ↔
      ∃ e, m₁.slots[slot]? = some (some e) ∧ takes levId packed searchTerms e.sub = true
        ∧ x = recipientOf e := by
    intro slot x
    unfold recipientAt
    rw [Option.bind_eq_some_iff]
    simp only [Option.join_eq_some_iff]
    refine exists_congr fun e => and_congr_right fun _ => ?_
    split_ifs with taken
    · simp [taken, eq_comm]
    · simp [taken]
  let recipients := candidates.filterMap (recipientAt levId packed searchTerms m₁.slots)
  have perm := perm_insertionSort recipientBefore recipients
  refine ⟨{ m₁ with slots := slots' }, recipients.insertionSort recipientBefore, ?_, ?_, ?_,
    fun x => ?_⟩
  · rw [processInner, collected, ok_bind]
    simp only [run, ok_bind]
    rfl
  · rw [all]
    exact refines₁.map advance_shape
  · refine ((perm.map _).nodup_iff).mpr (pairwise_map.mpr ?_)
    refine pairwise_filterMap.mpr (nodup.imp fun {i j} ne x first y second same => ne ?_)
    obtain ⟨e, there, _, rfl⟩ := (found i x).mp first
    obtain ⟨e', there', _, rfl⟩ := (found j y).mp second
    exact refines₁.consistent.distinct there there' same
  · rw [perm.mem_iff, mem_filterMap]
    constructor
    · rintro ⟨slot, _, some⟩
      obtain ⟨e, there, taken, same⟩ := (found slot x).mp some
      exact ⟨e, (refines₁.members e).mpr (mem_iff_getElem?.mpr ⟨slot, there⟩), taken, same⟩
    · rintro ⟨e, member, taken, same⟩
      obtain ⟨slot, there, _⟩ := refines₁.exists_slot member
      exact ⟨slot, (members slot).mpr ⟨e, slots₁ ▸ there, selected_of_takes taken⟩,
        (found slot x).mpr ⟨e, there, taken, same⟩⟩

theorem needsContent_loop (packed : PackedEvent) {candidates : List Nat}
    (occupied : ∀ slot ∈ candidates, ∃ e, m.slots[slot]? = some (some e)) (start : Bool) :
    ∃ needed, candidates.foldlM (fun any slot =>
        if any then .ok true else m.needsContent packed slot) start = .ok needed ∧
      (needed = true ↔ start = true ∨ ∃ slot ∈ candidates, ∃ e, m.slots[slot]? = some (some e) ∧
        e.sub.filterGroup.mayNeedContent packed = true) := by
  induction candidates generalizing start with
  | nil => exact ⟨start, rfl, by simp⟩
  | cons slot candidates ih =>
    obtain ⟨⟨e, there⟩, later⟩ := forall_mem_cons.mp occupied
    have step : (if start then .ok true else m.needsContent packed slot)
        = (.ok (start || e.sub.filterGroup.mayNeedContent packed) : Except Panic Bool) := by
      cases start with
      | true => rfl
      | false =>
        simp only [needsContent, there, okOr_some, ok_bind]
        rfl
    obtain ⟨needed, run, iff⟩ := ih later (start || e.sub.filterGroup.mayNeedContent packed)
    refine ⟨needed, by rw [foldlM_cons, step, ok_bind, run], ?_⟩
    rw [iff, exists_mem_cons_iff, Bool.or_eq_true, or_assoc]
    refine or_congr_right (or_congr_left ⟨fun may => ⟨e, there, may⟩, ?_⟩)
    rintro ⟨e', there', may⟩
    rw [there] at there'
    cases there'
    exact may

/-- Without a search filter there is nothing to count. -/
theorem Refines.requiresContent_of_member (refines : Refines m r) (member : e ∈ r.subs)
    (may : e.sub.filterGroup.mayNeedContent packed = true) : m.requiresContent = true := by
  obtain ⟨f, listed, holds⟩ := any_eq_true.mp may
  have one : contentIn (some e.shape) = 1 := by
    refine if_pos (any_eq_true.mpr ⟨f, listed, ?_⟩)
    exact ((Bool.and_eq_true _ _).mp holds).1
  have cell : some e.shape ∈ m.shapes :=
    mem_map.mpr ⟨some e, (refines.members e).mp member, rfl⟩
  have le := le_sum_of_mem (mem_map_of_mem (f := contentIn) cell)
  rw [← refines.consistent.indexed.content, one] at le
  exact bne_iff_ne.mpr (by omega)

/-- **Whether an event's content is needed.** -/
theorem Refines.eventRequiresContent_spec (refines : Refines m r)
    (room : m.requiresContent = true → m.pass + 1 < 2 ^ 64) (packed : PackedEvent) :
    ∃ m' needed, m.eventRequiresContent packed = .ok (m', needed) ∧
      Refines m' { r with passes := r.passes + 1 } ∧
      (needed = true ↔ ∃ e ∈ r.subs, e.sub.filterGroup.mayNeedContent packed = true) := by
  by_cases content : m.requiresContent = true
  · obtain ⟨m₁, candidates, collected, _, refines₁, slots₁, members⟩ :=
      refines.collect_spec (room content) packed true
    obtain ⟨needed, run, iff⟩ := needsContent_loop packed
      (fun slot member => by
        obtain ⟨e, there, _⟩ := (members slot).mp member
        exact ⟨e, slots₁.symm ▸ there⟩ :
          ∀ slot ∈ candidates, ∃ e, m₁.slots[slot]? = some (some e)) false
    refine ⟨m₁, needed, ?_, refines₁, ?_⟩
    · rw [eventRequiresContent, if_pos content, collected, ok_bind]
      simp only [run, ok_bind]
      rfl
    · rw [iff]
      constructor
      · rintro (start | ⟨slot, _, e, there, may⟩)
        · cases start
        · exact ⟨e, (refines₁.members e).mpr (mem_iff_getElem?.mpr ⟨slot, there⟩), may⟩
      · rintro ⟨e, member, may⟩
        obtain ⟨slot, there, _⟩ := refines₁.exists_slot member
        obtain ⟨f, listed, holds⟩ := any_eq_true.mp may
        obtain ⟨searching, holds⟩ := (Bool.and_eq_true _ _).mp holds
        exact .inr ⟨slot, (members slot).mpr ⟨e, slots₁ ▸ there,
          selected_of_match listed holds fun _ => searching⟩, e, there, may⟩
  · refine ⟨m, false, by rw [eventRequiresContent, if_neg content], ?_, ?_⟩
    · exact ⟨refines.consistent, refines.distinct, refines.members, refines.maxSubs,
        refines.passes.trans (Nat.le_succ _)⟩
    · refine ⟨fun h => absurd h Bool.false_ne_true, ?_⟩
      rintro ⟨e, member, may⟩
      exact absurd (refines.requiresContent_of_member member may) content

end Events

/-! ### Runs -/

section Runs

variable {ρ : Type} {m : ActiveMonitors} {r : Registry}

theorem deliver_none (packed : PackedEvent) (searchTerms : Option SearchTermSet) :
    r.deliver none packed searchTerms = { r with passes := r.passes + 1 } := by
  have same : Monitored.advance none packed searchTerms = id := by
    funext e
    unfold Monitored.advance
    split_ifs <;> rfl
  rw [Registry.deliver, same, map_id]

/-- **Every call keeps the refinement**, and runs through while there is room. -/
theorem step_refines (refines : Refines m r) (before : r.Fits) (call : MonitorCall ρ)
    (after : (r.step call).Fits) : ∃ m', m.step call = .ok m' ∧ Refines m' (r.step call) := by
  cases call with
  | addSub sub =>
    have replacing : (m.slotOf sub.connId sub.subId).isSome
        = r.subs.any fun e => e.address = (sub.connId, sub.subId) := by
      rw [Bool.eq_iff_iff, Option.isSome_iff_ne_none, any_eq_true]
      show m.route (sub.connId, sub.subId) ≠ none ↔ _
      rw [Ne, refines.route_eq_none]
      simp
    simp only [ActiveMonitors.step, addSub, Registry.step, replacing, refines.maxSubs,
      refines.openCount_eq] at after ⊢
    split_ifs at after ⊢ with refused
    · exact ⟨m, rfl, refines⟩
    · obtain ⟨m', run⟩ := refines.put_total ⟨sub, none⟩ after
      refine ⟨m', ?_, refines.put_spec ⟨sub, none⟩ run⟩
      rw [show m.insert sub none = .ok m' from run]
      rfl
  | addPending sub buffer =>
    obtain ⟨m', run⟩ := refines.put_total ⟨sub, some buffer⟩ after
    exact ⟨m', run, refines.put_spec ⟨sub, some buffer⟩ run⟩
  | removeSub connId subId =>
    obtain ⟨m', run, left⟩ := removeSub_spec refines.consistent connId subId
    exact ⟨m', run, refines.close_spec left fun e => decide_eq_false_iff_not.symm⟩
  | removeRefused order refusal =>
    obtain ⟨m', refused, run, left⟩ := removeRefused_spec refines.consistent order refusal
    refine ⟨m', by rw [ActiveMonitors.step, run]; rfl, refines.close_spec left fun e => ?_⟩
    simp
  | closeConn order connId =>
    obtain ⟨m', run, left⟩ := closeConn_spec refines.consistent order connId
    exact ⟨m', run, refines.close_spec left fun e => decide_eq_false_iff_not.symm⟩
  | finishPending connId subId generation delivered =>
    obtain ⟨result, run, refines'⟩ :=
      refines.finishPending_spec (connId, subId) generation delivered
    have run' : m.finishPending connId subId generation delivered = .ok result := run
    exact ⟨result.1, by rw [ActiveMonitors.step, run']; rfl, refines'⟩
  | pendingMut connId subId change => exact refines.pendingMut_spec (connId, subId) change
  | setMaxSubs maxSubs =>
    obtain ⟨⟨indexed, free, routed⟩, distinct, members, _, passes⟩ := refines
    exact ⟨_, rfl, ⟨{ indexed with }, free, routed⟩, distinct, members, rfl, passes⟩
  | process levId packed searchTerms =>
    obtain ⟨m', recipients, run, refines', _⟩ :=
      refines.processInner_spec (refines.room before) (some levId) packed searchTerms
    exact ⟨m', by rw [ActiveMonitors.step, process, run]; rfl, refines'⟩
  | processEphemeral packed searchTerms =>
    obtain ⟨m', recipients, run, refines', _⟩ :=
      refines.processInner_spec (refines.room before) none packed searchTerms
    rw [deliver_none] at refines'
    exact ⟨m', by rw [ActiveMonitors.step, processEphemeral, run]; rfl, refines'⟩
  | eventRequiresContent packed =>
    obtain ⟨m', needed, run, refines', _⟩ := refines.eventRequiresContent_spec
      (fun _ => refines.room before) packed
    exact ⟨m', by rw [ActiveMonitors.step, run]; rfl, refines'⟩

/-- There is room at every point of the calls. -/
def Registry.FitsAll (r : Registry) (calls : List (MonitorCall ρ)) : Prop :=
  ∀ n, (r.run (calls.take n)).Fits

theorem run_refines (refines : Refines m r) {calls : List (MonitorCall ρ)} (fits : r.FitsAll calls) :
    ∃ m', m.run calls = .ok m' ∧ Refines m' (r.run calls) := by
  induction calls generalizing m r with
  | nil => exact ⟨m, rfl, refines⟩
  | cons call calls ih =>
    obtain ⟨m₁, first, refines₁⟩ := step_refines refines (fits 0) call (fits 1)
    obtain ⟨m', rest, refines'⟩ := ih refines₁ fun n => fits (n + 1)
    exact ⟨m', by rw [ActiveMonitors.run, foldlM_cons, first, ok_bind]; exact rest, refines'⟩

/-- The recipients are those of the subscriptions that qualify, each once. -/
def ListsOnce (recipients : List Recipient) (subs : List Monitored)
    (qualifies : Subscription → Prop) : Prop :=
  (recipients.map fun x => (x.connId, x.subId)).Nodup ∧
    ∀ x, x ∈ recipients ↔ ∃ e ∈ subs, qualifies e.sub ∧ x = recipientOf e

/-- **The monitors answer every event as the registry says**, after every sequence of calls that
has room: no call panics, `process` lists the open subscriptions that match and are behind the
event, `processEphemeral` all that match, and the content is needed exactly when the other
conditions of some search filter hold. -/
theorem process_serves_registry (maxSubs : Nat) (calls : List (MonitorCall ρ))
    (fits : (Registry.new maxSubs).FitsAll calls) :
    ∃ m, (ActiveMonitors.new maxSubs).run calls = .ok m ∧ ∀ packed searchTerms,
      (∀ levId, ∃ m' recipients, m.process levId packed searchTerms = .ok (m', recipients) ∧
        ListsOnce recipients ((Registry.new maxSubs).run calls).subs fun sub =>
          sub.filterGroup.doesMatchWithSearchTerms packed searchTerms = true
            ∧ sub.latestEventId < levId) ∧
      (∃ m' recipients, m.processEphemeral packed searchTerms = .ok (m', recipients) ∧
        ListsOnce recipients ((Registry.new maxSubs).run calls).subs fun sub =>
          sub.filterGroup.doesMatchWithSearchTerms packed searchTerms = true) ∧
      ∃ m' needed, m.eventRequiresContent packed = .ok (m', needed) ∧
        (needed = true ↔ ∃ e ∈ ((Registry.new maxSubs).run calls).subs,
          ∃ f ∈ e.sub.filterGroup.filters,
            f.search.isSome = true ∧ f.doesMatchWithoutSearch packed = true) := by
  obtain ⟨m, run, refines⟩ := run_refines (Refines.new maxSubs) fits
  have fitting : ((Registry.new maxSubs).run calls).Fits := by
    have last := fits calls.length
    rwa [take_length] at last
  refine ⟨m, run, fun packed searchTerms => ⟨fun levId => ?_, ?_, ?_⟩⟩
  · obtain ⟨m', recipients, processed, _, once, members⟩ :=
      refines.processInner_spec (refines.room fitting) (some levId) packed searchTerms
    refine ⟨m', recipients, processed, once, fun x => ?_⟩
    simp only [members, takes, Option.all_some, Bool.and_eq_true, decide_eq_true_eq, and_comm]
  · obtain ⟨m', recipients, processed, _, once, members⟩ :=
      refines.processInner_spec (refines.room fitting) none packed searchTerms
    refine ⟨m', recipients, processed, once, fun x => ?_⟩
    simp only [members, takes, Option.all_none, Bool.true_and]
  · obtain ⟨m', needed, answered, _, iff⟩ := refines.eventRequiresContent_spec
      (fun _ => refines.room fitting) packed
    refine ⟨m', needed, answered, iff.trans ?_⟩
    simp only [NostrFilterGroup.mayNeedContent, any_eq_true, Bool.and_eq_true]

end Runs

/-! ### Subscriptions that come and go -/

/-- A subscription of a connection to everything. -/
def openSub (connId : Nat) : Subscription := ⟨connId, ⟨ascii "feed"⟩, openGroup, 0, 1⟩

/-- A note without tags. -/
def bareNote : PackedEvent :=
  ⟨List.replicate 72 0 ++ ([1] ++ List.replicate 15 0), by decide⟩

/-- The slot of a subscription that ends is used again. -/
def openCalls : List (MonitorCall Unit) :=
  [.addSub (openSub 8), .addSub (openSub 7), .removeSub 8 ⟨ascii "feed"⟩, .addSub (openSub 9)]

theorem openCalls_fit : (Registry.new 1).FitsAll openCalls := by
  have short : ∀ n ≤ 4, ((Registry.new 1).run (openCalls.take n)).Fits := by
    intro n few
    interval_cases n <;> exact .of_total (by decide +kernel) (by decide +kernel) (by decide +kernel)
  intro n
  rcases le_total n 4 with few | many
  · exact short n few
  · rw [take_of_length_le many]
    exact short 4 le_rfl

theorem process_serves_registry_open : ∃ m m' recipients,
    (ActiveMonitors.new 1).run openCalls = .ok m ∧
      m.process 5 bareNote none = .ok (m', recipients) ∧
      ∀ connId, (∃ x ∈ recipients, x.connId = connId) ↔ connId = 9 ∨ connId = 7 := by
  obtain ⟨m, run, answers⟩ := process_serves_registry 1 openCalls openCalls_fit
  obtain ⟨m', recipients, processed, _, members⟩ := (answers bareNote none).1 5
  have subs : ((Registry.new 1).run openCalls).subs = [⟨openSub 9, none⟩, ⟨openSub 7, none⟩] := rfl
  refine ⟨m, m', recipients, run, processed, fun connId => ⟨?_, ?_⟩⟩
  · rintro ⟨x, member, rfl⟩
    obtain ⟨e, listed, _, rfl⟩ := (members x).mp member
    rw [subs, mem_pair] at listed
    rcases listed with rfl | rfl
    · exact .inl rfl
    · exact .inr rfl
  · rintro (rfl | rfl) <;>
      exact ⟨_, (members _).mpr ⟨⟨openSub _, none⟩, by simp [subs], ⟨by decide +kernel, by decide⟩,
        rfl⟩, rfl⟩

/-! ### Too many subscriptions -/

/-- A subscription of connection `i` without filters. -/
def idleCall (i : Nat) : MonitorCall Unit :=
  .addPending ⟨i, ⟨ascii "idle"⟩, .default, 0, 0⟩ (.new 0 0)

/-- The first `n` slots are taken, and connections from `n` on hold nothing. -/
structure Packed (m : ActiveMonitors) (n : Nat) : Prop where
  slots : m.slots.length = n
  free : m.free = []
  closed : ∀ connId, n ≤ connId → m.conns.lookup connId = none

variable {m : ActiveMonitors} {n : Nat}

theorem Packed.missing (packed : Packed m n) : m.slotOf n ⟨ascii "idle"⟩ = none := by
  rw [slotOf, packed.closed n le_rfl, Option.bind_none]

theorem Packed.add (packed : Packed m n) (room : n < 2 ^ 32) :
    ∃ m', m.step (idleCall n) = .ok m' ∧ Packed m' (n + 1) := by
  have few : m.slots.length < 2 ^ 32 := packed.slots ▸ room
  let sub : Subscription := ⟨n, ⟨ascii "idle"⟩, .default, 0, 0⟩
  let e : Monitored := ⟨sub, some (.new 0 0)⟩
  let subs := ((m.conns.lookup n).getD ∅).insert ⟨ascii "idle"⟩ m.slots.length
  let m₁ : ActiveMonitors := { m with
    conns := m.conns.insert n subs
    slots := m.slots ++ [none]
    places := m.places ++ [[]]
    seen := m.seen ++ [0]
    free := [] }
  let m₂ : ActiveMonitors := { m₁ with slots := m₁.slots.set m.slots.length (some e) }
  have inside : m.slots.length < m₁.slots.length := by simp [m₁]
  have slotted : m.slotFor sub = .ok (m₁, m.slots.length) := by
    simp only [slotFor, sub, packed.missing, allocate, packed.free, ensure_of few, ok_bind]
    rfl
  have there : m₂.slots[m.slots.length]? = some (some e) := getElem?_set_self inside
  have installed : m₂.install m.slots.length = .ok m₂ := by
    rw [ActiveMonitors.install, occupant_eq there, ok_bind]
    rfl
  refine ⟨m₂, ?_, ?_, rfl, fun connId later => ?_⟩
  · show m.insert sub (some (.new 0 0)) = .ok m₂
    rw [ActiveMonitors.insert, slotted, ok_bind]
    simp only [ensure_of inside, ok_bind]
    exact installed
  · simp [m₂, m₁, packed.slots]
  · show (m.conns.insert n subs).lookup connId = none
    rw [AList.lookup_insert_ne (by omega)]
    exact packed.closed connId (by omega)

theorem Packed.panics (packed : Packed m (2 ^ 32)) :
    m.step (idleCall (2 ^ 32)) = .error (.expect "fewer than 2^32 subscriptions") := by
  have full : ¬m.slots.length < 2 ^ 32 := by rw [packed.slots]; exact lt_irrefl _
  have refused : ensure (m.slots.length < 2 ^ 32) (Panic.expect "fewer than 2^32 subscriptions")
      = .error (.expect "fewer than 2^32 subscriptions") := if_neg full
  show (m.slotFor ⟨2 ^ 32, ⟨ascii "idle"⟩, .default, 0, 0⟩ >>= _) = _
  simp only [slotFor, packed.missing, allocate, packed.free, refused]
  rfl

theorem packed_after (room : n ≤ 2 ^ 32) :
    ∃ m, (ActiveMonitors.new 1).run ((List.range n).map idleCall) = .ok m ∧ Packed m n := by
  induction n with
  | zero => exact ⟨.new 1, rfl, rfl, rfl, fun connId _ => AList.lookup_empty connId⟩
  | succ n ih =>
    obtain ⟨m, run, packed⟩ := ih (by omega)
    obtain ⟨m', last, packed'⟩ := packed.add (by omega)
    refine ⟨m', ?_, packed'⟩
    rw [ActiveMonitors.run, range_succ, map_append, foldlM_append]
    rw [ActiveMonitors.run] at run
    rw [run, ok_bind]
    exact (bind_pure _).trans last

/-- **The room is needed**: with every slot number taken, one more subscription panics. -/
theorem add_panics_when_full : ∃ calls : List (MonitorCall Unit),
    (ActiveMonitors.new 1).run calls = .error (.expect "fewer than 2^32 subscriptions") := by
  obtain ⟨m, run, packed⟩ := packed_after le_rfl
  refine ⟨(List.range (2 ^ 32)).map idleCall ++ [idleCall (2 ^ 32)], ?_⟩
  rw [ActiveMonitors.run, foldlM_append]
  rw [ActiveMonitors.run] at run
  rw [run, ok_bind]
  exact (bind_pure _).trans packed.panics

end Wok.Query
