/-
**Matches held back.**

While a subscription's history is being sent, its live matches wait in a bounded buffer, in the
order of arrival. Stored events are kept by their local id. Past the bound they are dropped, to be
read again from the database, and ephemeral events, which cannot be, are dropped oldest first.

* `Retains` — what is left of the events pushed: all the stored ones or none, and the newest
  ephemeral ones that fit, in order, within the bound.
* `Retains.pushStored`, `Retains.pushEphemeral` — a push runs through and keeps this.
* `pending_buffer_bounded` — **this holds after every sequence of pushes.**
-/

import Mathlib.Algebra.BigOperators.Group.List.Basic
import Mathlib.Algebra.GroupWithZero.Nat
import Mathlib.Algebra.Order.BigOperators.Group.List
import Mathlib.Tactic.Ring
import Wok.Event.Packed
import Wok.Library.Result

namespace Wok.Query

open Wok.Library Wok.Event List

/-! ### Panics -/

/-- The places where the code stops a thread. -/
inductive Panic
  | expect (text : String)
  | outOfBounds
  | overflow
  | underflow
  deriving DecidableEq, Repr

/-- `a + b` on `usize`. A build without the check wraps where this fails. -/
def checkedAdd (a b : Nat) : Except Panic Nat :=
  if a + b < 2 ^ 64 then .ok (a + b) else .error .overflow

/-- `a - b`, likewise. -/
def checkedSub (a b : Nat) : Except Panic Nat :=
  if b ≤ a then .ok (a - b) else .error .underflow

theorem checkedSub_of_le {a b : Nat} (le : b ≤ a) : checkedSub a b = .ok (a - b) := if_pos le

/-- `saturating_add` of 64-bit integers. -/
def saturatingAdd (a b : Nat) : Nat := min (a + b) (2 ^ 64 - 1)

/-! ### Events held -/

def storedEntryBytes : Nat := 16
def ephemeralEntryOverhead : Nat := 64

/-- A live-only event: its packed record and its JSON. -/
structure HeldEvent where
  packed : Bytes
  json : Bytes
  deriving DecidableEq, Repr

inductive PendingEvent
  | stored (levId : Nat)
  | ephemeral (event : HeldEvent)
  deriving DecidableEq, Repr

namespace PendingEvent

def cost : PendingEvent → Nat
  | stored _ => storedEntryBytes
  | ephemeral event =>
    saturatingAdd (event.packed.length + event.json.length) ephemeralEntryOverhead

def isStored : PendingEvent → Bool
  | stored _ => true
  | ephemeral _ => false

end PendingEvent

/-- `limit` 0 is unbounded. -/
structure PendingBuffer where
  events : List PendingEvent
  bytes : Nat
  stored : Nat
  limit : Nat
  liveFrom : Nat
  storedOverflowed : Bool
  deriving DecidableEq, Repr

namespace PendingBuffer

def new (liveFrom limit : Nat) : PendingBuffer := ⟨[], 0, 0, limit, liveFrom, false⟩

variable (b : PendingBuffer)

def fits (cost : Nat) : Bool := b.limit = 0 || saturatingAdd b.bytes cost ≤ b.limit

def push (event : PendingEvent) : PendingBuffer :=
  { b with
    events := b.events ++ [event]
    bytes := b.bytes + event.cost
    stored := b.stored + if event.isStored then 1 else 0 }

def dropStored : Except Panic PendingBuffer := do
  let bytes ← checkedSub b.bytes (b.stored * storedEntryBytes)
  return { b with
    events := b.events.filter fun event => !event.isStored
    bytes := bytes
    stored := 0
    storedOverflowed := true }

/-- The buffer, and whether this push made stored events overflow. -/
def pushStored (levId : Nat) : Except Panic (PendingBuffer × Bool) :=
  if b.storedOverflowed then .ok (b, false)
  else if b.fits (PendingEvent.stored levId).cost then .ok (b.push (.stored levId), false)
  else do return (← b.dropStored, true)

/-- The loop that drops the oldest events until `cost` fits. -/
def makeRoom (cost : Nat) : List PendingEvent → PendingBuffer → Nat →
    Except Panic (PendingBuffer × Nat)
  | [], b, dropped =>
    if b.fits cost then .ok (b, dropped) else .error (.expect "fits an empty buffer")
  | oldest :: rest, b, dropped =>
    if b.fits cost then .ok (b, dropped)
    else do
      let bytes ← checkedSub b.bytes oldest.cost
      makeRoom cost rest { b with events := rest, bytes := bytes } (dropped + 1)

/-- The buffer, how many ephemeral events were dropped, and whether stored ones overflowed. -/
def pushEphemeral (event : HeldEvent) : Except Panic (PendingBuffer × Nat × Bool) :=
  let event := PendingEvent.ephemeral event
  let cost := event.cost
  if b.limit ≠ 0 ∧ b.limit < cost then .ok (b, 1, false)
  else do
    let overflowed := !b.fits cost && b.stored != 0
    let b ← if overflowed then b.dropStored else .ok b
    let (b, dropped) ← makeRoom cost b.events b 0
    return (b.push event, dropped, overflowed)

/-- A push, and how many ephemeral events it dropped. -/
def pushEvent : PendingEvent → Except Panic (PendingBuffer × Nat)
  | .stored levId => do
    let (b, _) ← b.pushStored levId
    return (b, 0)
  | .ephemeral event => do
    let (b, dropped, _) ← b.pushEphemeral event
    return (b, dropped)

/-- Pushes one after the other, with the events dropped in all. -/
def pushAll : PendingBuffer → Nat → List PendingEvent → Except Panic (PendingBuffer × Nat)
  | b, drops, [] => .ok (b, drops)
  | b, drops, event :: events => do
    let (b, dropped) ← b.pushEvent event
    pushAll b (drops + dropped) events

end PendingBuffer

namespace PendingEvent

@[simp] theorem isStored_stored (levId : Nat) : (stored levId).isStored = true := rfl

@[simp] theorem isStored_ephemeral (event : HeldEvent) : (ephemeral event).isStored = false := rfl

/-- The cost of an event if it does not saturate. -/
def charge : PendingEvent → Nat
  | stored _ => storedEntryBytes
  | ephemeral event => event.packed.length + event.json.length + ephemeralEntryOverhead

theorem cost_le_charge (event : PendingEvent) : event.cost ≤ event.charge := by
  cases event with
  | stored levId => exact le_rfl
  | ephemeral event => exact Nat.min_le_left ..

/-- The sums the buffer forms fit in 64 bits: so do the charges of all pushes, or, where the buffer
has a limit, that limit and the charge of any one of them. -/
def SumsFit (limit : Nat) (pushes : List PendingEvent) : Prop :=
  (pushes.map charge).sum < 2 ^ 64 ∨
    limit ≠ 0 ∧ limit < 2 ^ 64 ∧ ∀ event ∈ pushes, limit + event.charge < 2 ^ 64

theorem SumsFit.front {limit : Nat} {pushes more : List PendingEvent}
    (small : SumsFit limit (pushes ++ more)) : SumsFit limit pushes := by
  refine small.imp (fun sum => ?_) fun ⟨bound, fits, each⟩ =>
    ⟨bound, fits, fun event member => each event (mem_append_left _ member)⟩
  rw [map_append, sum_append] at sum
  omega

/-- An ephemeral event that fits an empty buffer. -/
def fitsAlone (limit : Nat) (event : PendingEvent) : Bool :=
  !event.isStored && (limit = 0 || event.cost ≤ limit)

end PendingEvent

open PendingEvent

/-! ### What is held -/

/-- The buffer after these pushes, with the ephemeral events dropped. -/
structure Retains (b : PendingBuffer) (limit : Nat) (pushes : List PendingEvent) (drops : Nat) :
    Prop where
  limited : b.limit = limit
  bytes : b.bytes = (b.events.map cost).sum
  counter : b.stored = (b.events.filter isStored).length
  bounded : limit ≠ 0 → b.bytes ≤ limit
  order : b.events.Sublist pushes
  stored : b.events.filter isStored
    = if b.storedOverflowed then [] else pushes.filter isStored
  newest : b.events.filter (fun event => !event.isStored) <:+ pushes.filter (fitsAlone limit)
  drops : drops + (b.events.filter fun event => !event.isStored).length
    = (pushes.filter fun event => !event.isStored).length

namespace Retains

variable {b : PendingBuffer} {limit drops : Nat} {pushes : List PendingEvent}

theorem new (liveFrom limit : Nat) : Retains (.new liveFrom limit) limit [] 0 where
  limited := rfl
  bytes := rfl
  counter := rfl
  bounded _ := Nat.zero_le _
  order := .slnil
  stored := rfl
  newest := suffix_rfl
  drops := rfl

section Bytes

variable (retains : Retains b limit pushes drops)

include retains

theorem bytes_le : b.bytes ≤ (pushes.map charge).sum := by
  have held : (b.events.map cost).sum ≤ (pushes.map cost).sum :=
    (retains.order.map cost).sum_le_sum fun _ _ => Nat.zero_le _
  have charged : (pushes.map cost).sum ≤ (pushes.map charge).sum :=
    sum_le_sum fun event _ => event.cost_le_charge
  rw [retains.bytes]
  exact held.trans charged

theorem bytes_lt (small : SumsFit limit pushes) : b.bytes < 2 ^ 64 :=
  small.elim retains.bytes_le.trans_lt fun ⟨bound, fits, _⟩ => (retains.bounded bound).trans_lt fits

theorem bytes_add_lt {event : PendingEvent} (small : SumsFit limit (pushes ++ [event])) :
    b.bytes + event.cost < 2 ^ 64 := by
  have last := event.cost_le_charge
  rcases small with sum | ⟨bound, _, each⟩
  · have held := retains.bytes_le
    rw [map_append, sum_append] at sum
    simp only [map_cons, map_nil, sum_cons, sum_nil] at sum
    omega
  · have held := retains.bounded bound
    have fits := each event (mem_append_right _ (.head _))
    omega

theorem fits_iff {cost : Nat} (small : b.bytes + cost < 2 ^ 64) :
    b.fits cost = true ↔ limit ≠ 0 → b.bytes + cost ≤ limit := by
  rw [PendingBuffer.fits, saturatingAdd, Nat.min_eq_left (by omega), retains.limited]
  simp only [Bool.or_eq_true, decide_eq_true_eq]
  exact Decidable.or_iff_not_imp_left

theorem push {event : PendingEvent} (small : SumsFit limit (pushes ++ [event]))
    (room : b.fits event.cost = true) (kept : event.isStored = true → b.storedOverflowed = false) :
    Retains (b.push event) limit (pushes ++ [event]) drops := by
  have room := (retains.fits_iff (retains.bytes_add_lt small)).mp room
  have bytes : (b.push event).bytes = ((b.push event).events.map cost).sum := by
    simp [PendingBuffer.push, retains.bytes]
  have order := retains.order.append (List.Sublist.refl [event])
  cases event with
  | stored levId =>
    refine ⟨retains.limited, bytes, ?_, room, order, ?_, ?_, ?_⟩
    · simp [PendingBuffer.push, retains.counter, filter_cons]
    · simp [PendingBuffer.push, retains.stored, kept rfl]
    · simpa [PendingBuffer.push, fitsAlone] using retains.newest
    · simpa [PendingBuffer.push] using retains.drops
  | ephemeral event =>
    have alone : fitsAlone limit (.ephemeral event) = true := by
      simp only [fitsAlone, isStored_ephemeral, Bool.not_false, Bool.true_and, Bool.or_eq_true,
        decide_eq_true_eq]
      by_cases unbounded : limit = 0
      · exact .inl unbounded
      · exact .inr ((Nat.le_add_left _ _).trans (room unbounded))
    refine ⟨retains.limited, bytes, ?_, room, order, ?_, ?_, ?_⟩
    · simp [PendingBuffer.push, retains.counter]
    · simp [PendingBuffer.push, retains.stored]
    · obtain ⟨older, split⟩ := retains.newest
      refine ⟨older, ?_⟩
      simp [PendingBuffer.push, alone, ← split]
    · simp [PendingBuffer.push, ← retains.drops, Nat.add_assoc]

end Bytes

theorem sum_cost (events : List PendingEvent) : (events.map cost).sum
    = ((events.filter fun event => !event.isStored).map cost).sum
      + (events.filter isStored).length * storedEntryBytes := by
  induction events with
  | nil => rfl
  | cons event events ih =>
    cases event with
    | stored levId =>
      simp [cost, ih, filter_cons, Nat.add_mul]
      omega
    | ephemeral event =>
      simp [ih, Nat.add_assoc]

section Pushes

variable (retains : Retains b limit pushes drops)

include retains

theorem dropStored :
    ∃ b', b.dropStored = .ok b' ∧ Retains b' limit pushes drops ∧ b'.storedOverflowed = true := by
  have cost := sum_cost b.events
  rw [← retains.bytes, ← retains.counter] at cost
  have dropped : b.dropStored = .ok { b with
      events := b.events.filter fun event => !event.isStored
      bytes := b.bytes - b.stored * storedEntryBytes
      stored := 0
      storedOverflowed := true } := by
    rw [PendingBuffer.dropStored, checkedSub_of_le (by omega)]
    rfl
  have none' : (b.events.filter fun event => !event.isStored).filter isStored = [] := by
    simp [filter_filter]
  have same : (b.events.filter fun event => !event.isStored).filter (fun event => !event.isStored)
      = b.events.filter fun event => !event.isStored := by simp [filter_filter]
  refine ⟨_, dropped, ⟨retains.limited, ?_, ?_, ?_, ?_, none', ?_, ?_⟩, rfl⟩
  · exact (congrArg (· - _) cost).trans (Nat.add_sub_cancel ..)
  · exact (congrArg List.length none').symm
  · exact fun bound => (Nat.sub_le ..).trans (retains.bounded bound)
  · exact filter_sublist.trans retains.order
  · simp only [same]
    exact retains.newest
  · simp only [same]
    exact retains.drops

/-- The loop drops the oldest of ephemeral events until there is room. -/
theorem makeRoom {cost : Nat} (fitting : limit = 0 ∨ cost ≤ limit) (dropped : Nat)
    (none' : b.events.filter isStored = []) :
    ∃ b' more, PendingBuffer.makeRoom cost b.events b dropped = .ok (b', dropped + more) ∧
      Retains b' limit pushes (drops + more) ∧ b'.fits cost = true := by
  obtain ⟨events, held⟩ : ∃ events, b.events = events := ⟨_, rfl⟩
  rw [held]
  induction events generalizing b drops dropped with
  | nil =>
    have room : b.fits cost = true := by
      have empty : b.bytes = 0 := by rw [retains.bytes, held]; rfl
      rw [PendingBuffer.fits, empty, saturatingAdd, retains.limited]
      simp only [Bool.or_eq_true, decide_eq_true_eq]
      omega
    exact ⟨b, 0, by rw [PendingBuffer.makeRoom, if_pos room, Nat.add_zero], retains, room⟩
  | cons oldest rest ih =>
    by_cases room : b.fits cost = true
    · exact ⟨b, 0, by rw [PendingBuffer.makeRoom, if_pos room, Nat.add_zero], retains, room⟩
    have bytes : b.bytes = oldest.cost + (rest.map PendingEvent.cost).sum := by
      rw [retains.bytes, held]
      rfl
    rw [held] at none'
    have ephemeral : oldest.isStored = false := by
      simpa using filter_eq_nil_iff.mp none' oldest mem_cons_self
    have left : rest.filter isStored = [] := by simpa [ephemeral] using none'
    have shorter : Retains { b with events := rest, bytes := b.bytes - oldest.cost } limit pushes
        (drops + 1) := by
      have order := retains.order
      have stored := retains.stored
      have newest := retains.newest
      have balance := retains.drops
      have counter := retains.counter
      simp only [held, filter_cons, ephemeral, Bool.not_false, if_true, Bool.false_eq_true,
        if_false, length_cons] at order stored newest balance counter
      exact ⟨retains.limited, by rw [bytes, Nat.add_sub_cancel_left], counter,
        fun bound => (Nat.sub_le ..).trans (retains.bounded bound),
        (sublist_cons_self ..).trans order, stored, (suffix_cons ..).trans newest,
        (Nat.add_right_comm ..).trans balance⟩
    obtain ⟨b', more, run, retains', room'⟩ := ih shorter (dropped + 1) left rfl
    refine ⟨b', more + 1, ?_, ?_, room'⟩
    · rw [PendingBuffer.makeRoom, if_neg room, checkedSub_of_le (by omega), ok_bind]
      exact run.trans (by rw [Nat.add_assoc, Nat.add_comm 1])
    · rwa [Nat.add_assoc, Nat.add_comm 1] at retains'

theorem pushStored (levId : Nat) (small : SumsFit limit (pushes ++ [.stored levId])) :
    ∃ b', b.pushEvent (.stored levId) = .ok (b', 0) ∧
      Retains b' limit (pushes ++ [.stored levId]) drops := by
  -- A stored event that is not held changes nothing once the stored events have overflowed.
  have lost : ∀ {b : PendingBuffer}, Retains b limit pushes drops → b.storedOverflowed = true →
      Retains b limit (pushes ++ [.stored levId]) drops := by
    intro b retains dropped
    have stored := retains.stored
    rw [if_pos dropped] at stored
    exact ⟨retains.limited, retains.bytes, retains.counter, retains.bounded,
      retains.order.trans (sublist_append_left ..), by rw [if_pos dropped, stored],
      by simpa [fitsAlone] using retains.newest, by simpa using retains.drops⟩
  rw [PendingBuffer.pushEvent, PendingBuffer.pushStored]
  by_cases dropped : b.storedOverflowed = true
  · rw [if_pos dropped]
    exact ⟨b, rfl, lost retains dropped⟩
  rw [if_neg dropped]
  by_cases room : b.fits (PendingEvent.stored levId).cost = true
  · rw [if_pos room]
    exact ⟨_, rfl, retains.push small room fun _ => by simpa using dropped⟩
  · obtain ⟨b', run, retains', overflowed⟩ := retains.dropStored
    rw [if_neg room, run]
    exact ⟨b', rfl, lost retains' overflowed⟩

theorem pushEphemeral (event : HeldEvent) (small : SumsFit limit (pushes ++ [.ephemeral event])) :
    ∃ b' dropped, b.pushEvent (.ephemeral event) = .ok (b', dropped) ∧
      Retains b' limit (pushes ++ [.ephemeral event]) (drops + dropped) := by
  rw [PendingBuffer.pushEvent, PendingBuffer.pushEphemeral]
  by_cases huge : b.limit ≠ 0 ∧ b.limit < (PendingEvent.ephemeral event).cost
  · simp only [if_pos huge]
    have large : fitsAlone limit (.ephemeral event) = false := by
      rw [retains.limited] at huge
      simp [fitsAlone, huge.1, huge.2]
    refine ⟨b, 1, rfl, retains.limited, retains.bytes, retains.counter, retains.bounded,
      retains.order.trans (sublist_append_left ..), by simpa using retains.stored,
      by simpa [large] using retains.newest, ?_⟩
    have balance := retains.drops
    simp only [filter_append, length_append]
    simp
    omega
  simp only [if_neg huge]
  have fitting : limit = 0 ∨ (PendingEvent.ephemeral event).cost ≤ limit := by
    rw [retains.limited] at huge
    omega
  -- What is left of the push: the loop, which finds room without dropping a stored event.
  have rest : ∀ {b : PendingBuffer} (overflowed : Bool), Retains b limit pushes drops →
      (b.fits (PendingEvent.ephemeral event).cost = true ∨ b.events.filter isStored = []) →
      ∃ b' dropped, (do
        let (b, dropped) ← PendingBuffer.makeRoom (PendingEvent.ephemeral event).cost b.events b 0
        return (b.push (.ephemeral event), dropped, overflowed) :
          Except Panic (PendingBuffer × Nat × Bool)) = .ok (b', dropped, overflowed) ∧
        Retains b' limit (pushes ++ [.ephemeral event]) (drops + dropped) := by
    intro b overflowed retains ready
    obtain ⟨b', more, run, retains', room⟩ : ∃ b' more, PendingBuffer.makeRoom
        (PendingEvent.ephemeral event).cost b.events b 0 = .ok (b', more) ∧
        Retains b' limit pushes (drops + more) ∧
        b'.fits (PendingEvent.ephemeral event).cost = true := by
      rcases ready with room | none'
      · exact ⟨b, 0, by cases b.events <;> rw [PendingBuffer.makeRoom, if_pos room], retains, room⟩
      · obtain ⟨b', more, run, spec⟩ := retains.makeRoom fitting 0 none'
        exact ⟨b', more, run.trans (by rw [Nat.zero_add]), spec⟩
    exact ⟨_, more, by rw [run]; rfl, retains'.push small room (by simp)⟩
  cases full : (!b.fits (PendingEvent.ephemeral event).cost && b.stored != 0) with
  | true =>
    obtain ⟨b₁, run, retains₁, overflowed⟩ := retains.dropStored
    have stored := retains₁.stored
    rw [if_pos overflowed] at stored
    obtain ⟨b', dropped, made, retains'⟩ := rest true retains₁ (.inr stored)
    refine ⟨b', dropped, ?_, retains'⟩
    simp only [if_true, run, ok_bind]
    rw [made]
    rfl
  | false =>
    have ready : b.fits (PendingEvent.ephemeral event).cost = true ∨
        b.events.filter isStored = [] := by
      simp only [Bool.and_eq_false_iff, Bool.not_eq_false', bne_eq_false_iff_eq] at full
      refine full.imp id fun none' => eq_nil_of_length_eq_zero (retains.counter ▸ none')
    obtain ⟨b', dropped, made, retains'⟩ := rest false retains ready
    refine ⟨b', dropped, ?_, retains'⟩
    simp only [Bool.false_eq_true, if_false, ok_bind]
    rw [made]
    rfl

theorem pushAll (events : List PendingEvent) (small : SumsFit limit (pushes ++ events)) :
    ∃ b' drops', b.pushAll drops events = .ok (b', drops') ∧
      Retains b' limit (pushes ++ events) drops' := by
  induction events generalizing b pushes drops with
  | nil => exact ⟨b, drops, rfl, (append_nil pushes).symm ▸ retains⟩
  | cons event events ih =>
    rw [append_cons] at small ⊢
    obtain ⟨b₁, dropped, run, retains₁⟩ : ∃ b₁ dropped, b.pushEvent event = .ok (b₁, dropped) ∧
        Retains b₁ limit (pushes ++ [event]) (drops + dropped) := by
      cases event with
      | stored levId =>
        obtain ⟨b₁, run, retains₁⟩ := retains.pushStored levId small.front
        exact ⟨b₁, 0, run, retains₁⟩
      | ephemeral event => exact retains.pushEphemeral event small.front
    obtain ⟨b', drops', rest, retains'⟩ := ih retains₁ small
    exact ⟨b', drops', by rw [PendingBuffer.pushAll, run, ok_bind]; exact rest, retains'⟩

end Pushes

end Retains

/-- **The buffer is bounded and drops by its rules.** After every sequence of pushes whose sums fit in
64 bits, no push has failed, `bytes` is what is held costs, within the limit, the events held are
in order, the stored ones are all held or all dropped, the ephemeral ones are the newest of those that
fit, and the others have been counted. -/
theorem pending_buffer_bounded (liveFrom limit : Nat) (pushes : List PendingEvent)
    (small : SumsFit limit pushes) :
    ∃ b drops, (PendingBuffer.new liveFrom limit).pushAll 0 pushes = .ok (b, drops) ∧
      b.bytes = (b.events.map cost).sum ∧ b.bytes < 2 ^ 64 ∧ (limit ≠ 0 → b.bytes ≤ limit) ∧
      b.events.Sublist pushes ∧
      (b.storedOverflowed = false ∧ b.events.filter isStored = pushes.filter isStored ∨
        b.storedOverflowed = true ∧ b.events.filter isStored = []) ∧
      b.events.filter (fun event => !event.isStored) <:+ pushes.filter (fitsAlone limit) ∧
      drops + (b.events.filter fun event => !event.isStored).length
        = (pushes.filter fun event => !event.isStored).length := by
  obtain ⟨b, drops, run, retains⟩ := (Retains.new liveFrom limit).pushAll pushes small
  refine ⟨b, drops, run, retains.bytes, retains.bytes_lt small, retains.bounded, retains.order, ?_,
    retains.newest, retains.drops⟩
  have stored := retains.stored
  cases flag : b.storedOverflowed with
  | false => exact .inl ⟨rfl, by simpa [flag] using stored⟩
  | true => exact .inr ⟨rfl, by simpa [flag] using stored⟩

theorem pending_buffer_bounded_two : ∃ b drops,
    (PendingBuffer.new 5 100).pushAll 0 [.stored 6, .ephemeral ⟨[1], [2]⟩] = .ok (b, drops) ∧
      b.bytes ≤ 100 := by
  obtain ⟨b, drops, run, _, _, bounded, _⟩ :=
    pending_buffer_bounded 5 100 [.stored 6, .ephemeral ⟨[1], [2]⟩] (.inl (by decide))
  exact ⟨b, drops, run, bounded (by decide)⟩

end Wok.Query
