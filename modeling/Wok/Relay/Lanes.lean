/-
**One lane of an ingester.**

A message for a full queue is parked, and so is every later one for that worker, of whatever
connection. Whatever the queue answers, a lane keeps what it was sent in order, and drops a message
only with its connection.

* `Gates.Counts` — the gates count what is parked, and are closed while that is not 0.
* `Turn.Moves` — what a turn on a lane can do, besides dropping what a connection left behind.
* `Lane.Sound` — **what entered the queue, then what is parked, is what was sent**, less what was
  dropped with its connection, of which at most one `Close` is still to come.
* `Lane.Keeps` — nothing leaves a queue, and other connections are not touched.
-/

import Mathlib.Algebra.BigOperators.Fin
import Wok.Library.Tally
import Wok.Relay.Dispatch

namespace Wok.Relay

open Wok.Library Wok.Event Wok.Query List

/-! ### The gates -/

namespace Gates

/-- `n` messages of each connection are parked, and the gate of an open one is closed while one
is. -/
structure Counts (gates : Gates) (opened : Finset Nat) (n : Nat → Nat) : Prop where
  parked : ∀ c, gates.parked.lookup c = if n c = 0 then none else some (n c)
  gate : ∀ c, gates.open.lookup c = if c ∈ opened then some (decide (n c = 0)) else none

section Counts

variable {gates : Gates} {opened : Finset Nat} {n : Nat → Nat}

theorem Counts.congr {m : Nat → Nat} (counts : Counts gates opened n) (same : ∀ x, n x = m x) :
    Counts gates opened m := (funext same : n = m) ▸ counts

theorem lookup_setGate (gates : Gates) (c x : Nat) (value : Bool) :
    (gates.setGate c value).open.lookup x
      = if x = c then (gates.open.lookup c).map fun _ => value else gates.open.lookup x := by
  unfold setGate
  split_ifs with has same same
  · rw [same, AList.lookup_insert]
    obtain ⟨old, found⟩ := Option.isSome_iff_exists.mp has
    rw [found]
    rfl
  · exact AList.lookup_insert_ne same
  · rw [same, Option.not_isSome_iff_eq_none.mp has]
    rfl
  · rfl

@[simp] theorem parked_setGate (gates : Gates) (c : Nat) (value : Bool) :
    (gates.setGate c value).parked = gates.parked := by
  unfold setGate
  split_ifs <;> rfl

/-- One more message of a connection is parked. -/
theorem Counts.park (counts : Counts gates opened n) (c : Nat) :
    Counts (gates.park c) opened fun x => n x + if x = c then 1 else 0 := by
  have tallies : Tallies gates.parked n := counts.parked
  have stored : Tallies (gates.parked.insert c (n c + 1)) fun x => n x + if x = c then 1 else 0 :=
    tallies.insert (fun x other => by simp [other]) (by simp) (Nat.succ_ne_zero _)
  unfold Gates.park
  rw [tallies.getD]
  constructor
  · dsimp only
    split_ifs
    · rw [parked_setGate]
      exact stored
    · exact stored
  · intro x
    dsimp only
    by_cases same : x = c
    · subst same
      rw [if_pos rfl]
      by_cases first : n x + 1 = 1
      · rw [if_pos first, lookup_setGate, if_pos rfl, counts.gate]
        by_cases listed : x ∈ opened <;> simp [listed]
      · have more : n x ≠ 0 := fun zero => first (by omega)
        rw [if_neg first, counts.gate]
        simp [more]
    · have gate : gates.open.lookup x = if x ∈ opened then some (decide
          (n x + (if x = c then 1 else 0) = 0)) else none := by
        rw [counts.gate, if_neg same, Nat.add_zero]
      rw [← gate]
      split_ifs
      · rw [lookup_setGate, if_neg same]
      · rfl

/-- One message of a connection is parked no more. -/
theorem Counts.unpark {c : Nat}
    (counts : Counts gates opened fun x => n x + if x = c then 1 else 0) :
    Counts (gates.unpark c) opened n := by
  have before : gates.parked.lookup c = some (n c + 1) := by
    rw [counts.parked]
    simp
  have others : ∀ x, x ≠ c → n x = n x + if x = c then 1 else 0 := fun x other => by
    rw [if_neg other, Nat.add_zero]
  have tallies : Tallies gates.parked fun x => n x + if x = c then 1 else 0 := counts.parked
  have gate : ∀ x, x ≠ c → gates.open.lookup x
      = if x ∈ opened then some (decide (n x = 0)) else none := by
    intro x other
    rw [counts.gate, if_neg other, Nat.add_zero]
  unfold Gates.unpark
  rw [before]
  dsimp only
  rw [Nat.add_sub_cancel]
  split_ifs with last
  · constructor
    · rw [parked_setGate]
      exact tallies.erase others last
    · intro x
      rw [lookup_setGate]
      by_cases same : x = c
      · rw [if_pos same, same, counts.gate]
        by_cases listed : c ∈ opened <;> simp [listed, last]
      · rw [if_neg same]
        exact gate x same
  · constructor
    · exact tallies.insert others rfl last
    · intro x
      by_cases same : x = c
      · rw [counts.gate, same]
        simp [last]
      · exact gate x same

end Counts

end Gates

/-! ### Turns -/

section Turns

variable {T F : Type} [Routed T]

open Routed

/-- The entry is one of the connection. -/
def ofConn (c : Nat) (e : T × Option F) : Bool := connId e.1 = c

theorem countP_ofConn_cons (e : T × Option F) (list : List (T × Option F)) (c : Nat) :
    (e :: list).countP (ofConn c) = list.countP (ofConn c) + if c = connId e.1 then 1 else 0 := by
  rw [countP_cons]
  simp only [ofConn, decide_eq_true_eq, eq_comm (a := c)]

/-- What entered the queue, then what is parked. -/
def Lane.entries (lane : Lane T F) : List (T × Option F) := lane.passed ++ lane.parked

/-- How many messages of a connection are parked. -/
def Lane.count (lane : Lane T F) (c : Nat) : Nat := lane.parked.countP (ofConn c)

/-- The gates count what is parked here, and `rest` elsewhere. -/
def Turn.Counted (t : Turn T F) (opened : Finset Nat) (rest : Nat → Nat) : Prop :=
  t.gates.Counts opened fun c => t.lane.count c + rest c

/-- **What a turn does with one more message or none.** Some entries enter the queue, in order, and
release their follow-ups; the rest stays parked. -/
structure Turn.Moves (t t' : Turn T F) (new : List (T × Option F)) : Prop where
  entries : t'.lane.entries = t.lane.entries ++ new
  answers : t'.lane.tx.answers = t.lane.tx.answers
  moved : ∃ out, t'.lane.passed = t.lane.passed ++ out ∧
    t'.released = t.released ++ out.filterMap Prod.snd ∧
    ∀ c, c ∈ t'.lane.delivered ↔ c ∈ t.lane.delivered ∨
      ∃ e ∈ out, connId e.1 = c ∧ isClose e.1 = false
  counts : ∀ opened rest, t.Counted opened rest → t'.Counted opened rest

variable {t : Turn T F} {lane : Lane T F}
variable {list : List (T × Option F)}

theorem mem_delivered_pass (tx : Sender) (msg : T) (follow : Option F) (c : Nat) :
    c ∈ (lane.pass tx msg follow).delivered ↔
      c ∈ lane.delivered ∨ connId msg = c ∧ isClose msg = false := by
  unfold Lane.pass
  dsimp only
  split_ifs with close
  · simp [close]
  · rw [Finset.mem_insert, Bool.not_eq_true] at *
    simp [close, eq_comm, or_comm]

theorem flushLoop_full {msg : T} {follow : Option F}
    (answer : t.lane.tx.answers t.lane.tx.tries = .full) :
    Turn.flushLoop ((msg, follow) :: list) t = ({ t with lane := { t.lane with
      tx := t.lane.tx.trySend.2, parked := (msg, follow) :: list } }, false) := by
  simp only [Turn.flushLoop, Sender.trySend, answer]

theorem flushLoop_ok {msg : T} {follow : Option F}
    (answer : t.lane.tx.answers t.lane.tx.tries = .ok) :
    Turn.flushLoop ((msg, follow) :: list) t
      = Turn.flushLoop list ⟨t.lane.pass t.lane.tx.trySend.2 msg follow,
          t.gates.unpark (connId msg), t.released ++ follow.toList⟩ := by
  simp only [Turn.flushLoop, Sender.trySend, answer]

/-- The loop moves the front of the list into the queue, and takes from the gates what it moves. -/
theorem flushLoop_moves (connected : ∀ n, t.lane.tx.answers n ≠ .disconnected)
    (list : List (T × Option F)) :
    let t' := (Turn.flushLoop list t).1
    ∃ out, list = out ++ t'.lane.parked ∧ t'.lane.passed = t.lane.passed ++ out ∧
      t'.lane.tx.answers = t.lane.tx.answers ∧
      t'.released = t.released ++ out.filterMap Prod.snd ∧
      (∀ c, c ∈ t'.lane.delivered ↔ c ∈ t.lane.delivered ∨
        ∃ e ∈ out, connId e.1 = c ∧ isClose e.1 = false) ∧
      (∀ opened rest, t.gates.Counts opened (fun c => list.countP (ofConn c) + rest c) →
        t'.Counted opened rest) ∧
      ((Turn.flushLoop list t).2 = true ↔ t'.lane.parked = []) := by
  induction list generalizing t with
  | nil => exact ⟨[], rfl, by simp [Turn.flushLoop], rfl, by simp [Turn.flushLoop],
      by simp [Turn.flushLoop], fun _ _ => id, by simp [Turn.flushLoop]⟩
  | cons e list ih =>
    obtain ⟨msg, follow⟩ := e
    cases answer : t.lane.tx.answers t.lane.tx.tries with
    | disconnected => exact absurd answer (connected _)
    | full =>
      rw [flushLoop_full answer]
      exact ⟨[], rfl, by simp, rfl, by simp, by simp, fun _ _ => id, by simp⟩
    | ok =>
      rw [flushLoop_ok answer]
      let t₁ : Turn T F := ⟨t.lane.pass t.lane.tx.trySend.2 msg follow,
        t.gates.unpark (connId msg), t.released ++ follow.toList⟩
      have connected₁ : ∀ n, t₁.lane.tx.answers n ≠ .disconnected := connected
      obtain ⟨out, split, passed, answers, released, delivered, counts, done⟩ := ih connected₁
      refine ⟨(msg, follow) :: out, ?_, ?_, answers, ?_, fun c => ?_,
        fun opened rest before => counts opened rest (Gates.Counts.unpark (before.congr fun c => ?_)),
        done⟩
      · rw [cons_append, ← split]
      · rw [passed, append_cons]
        rfl
      · rw [released]
        show (t.released ++ follow.toList) ++ _ = _
        rw [append_assoc]
        cases follow with
        | none => rfl
        | some f => rfl
      · rw [delivered, mem_delivered_pass]
        simp only [mem_cons, exists_eq_or_imp, or_assoc]
      · rw [countP_ofConn_cons, Nat.add_right_comm]

/-- **A flush** sends nothing new. -/
theorem Turn.flush_moves (t : Turn T F) (connected : ∀ n, t.lane.tx.answers n ≠ .disconnected) :
    t.Moves t.flush.1 [] ∧ (t.flush.2 = true ↔ t.flush.1.lane.parked = []) := by
  obtain ⟨out, split, passed, answers, released, delivered, counts, done⟩ :=
    flushLoop_moves connected t.lane.parked
  refine ⟨⟨?_, answers, ⟨out, passed, released, delivered⟩, counts⟩, done⟩
  rw [append_nil, Lane.entries, Lane.entries]
  show (Turn.flushLoop _ t).1.lane.passed ++ _ = _
  rw [passed, append_assoc]
  exact congrArg (t.lane.passed ++ ·) split.symm

theorem Turn.Moves.trans {t t' t'' : Turn T F} {new new' : List (T × Option F)}
    (first : t.Moves t' new) (second : t'.Moves t'' new') : t.Moves t'' (new ++ new') where
  entries := by rw [second.entries, first.entries, append_assoc]
  answers := second.answers.trans first.answers
  moved := by
    obtain ⟨out, passed, released, delivered⟩ := first.moved
    obtain ⟨out', passed', released', delivered'⟩ := second.moved
    refine ⟨out ++ out', ?_, ?_, fun c => ?_⟩
    · rw [passed', passed, append_assoc]
    · rw [released', released, filterMap_append, append_assoc]
    · rw [delivered', delivered, or_assoc]
      simp only [mem_append, or_and_right, exists_or]
  counts opened rest counts := second.counts opened rest (first.counts opened rest counts)

theorem Turn.Moves.split {t t' : Turn T F} {new out : List (T × Option F)} (moves : t.Moves t' new)
    (passed : t'.lane.passed = t.lane.passed ++ out) :
    out ++ t'.lane.parked = t.lane.parked ++ new := by
  have all := moves.entries
  rwa [Lane.entries, passed, Lane.entries, append_assoc, append_assoc,
    append_cancel_left_eq] at all

theorem Turn.park_moves (t : Turn T F) (tx : Sender) (same : tx.answers = t.lane.tx.answers)
    (msg : T) (follow : Option F) :
    t.Moves ({ t with lane := { t.lane with tx := tx } }.park msg follow) [(msg, follow)] where
  entries := by
    show t.lane.passed ++ (t.lane.parked ++ [(msg, follow)]) = _
    rw [← append_assoc]
    rfl
  answers := same
  moved := ⟨[], by simp [Turn.park], by simp [Turn.park], by simp [Turn.park]⟩
  counts opened rest counts := by
    refine (Gates.Counts.park counts (connId msg)).congr fun c => ?_
    show _ = (t.lane.parked ++ [(msg, follow)]).countP (ofConn c) + rest c
    rw [countP_append, countP_ofConn_cons, Lane.count, countP_nil, Nat.zero_add,
      Nat.add_right_comm]

/-- A message enters the queue when nothing is parked. -/
theorem Turn.pass_moves (t : Turn T F) (tx : Sender) (same : tx.answers = t.lane.tx.answers)
    (empty : t.lane.parked = []) (msg : T) (follow : Option F) :
    t.Moves { t with lane := t.lane.pass tx msg follow, released := t.released ++ follow.toList }
      [(msg, follow)] where
  entries := by
    show t.lane.passed ++ [(msg, follow)] ++ t.lane.parked = t.lane.passed ++ t.lane.parked ++ _
    rw [empty, append_nil, append_nil]
  answers := same
  moved := by
    refine ⟨[(msg, follow)], rfl, ?_, fun c => ?_⟩
    · cases follow with
      | none => rfl
      | some f => rfl
    · rw [mem_delivered_pass]
      simp
  counts _ _ counts := counts

/-- **A message is sent.** -/
theorem Turn.sendThen_moves (t : Turn T F)
    (connected : ∀ n, t.lane.tx.answers n ≠ .disconnected) (msg : T) (follow : Option F) :
    t.Moves (t.sendThen msg follow) [(msg, follow)] := by
  obtain ⟨flushed, done⟩ := t.flush_moves connected
  have parks : ∀ tx : Sender, tx.answers = t.flush.1.lane.tx.answers →
      t.Moves ({ t.flush.1 with lane := { t.flush.1.lane with tx := tx } }.park msg follow)
        [(msg, follow)] := fun tx same =>
    flushed.trans (t.flush.1.park_moves tx same msg follow)
  unfold Turn.sendThen
  dsimp only
  split_ifs with emptied
  · cases answer : t.flush.1.lane.tx.answers t.flush.1.lane.tx.tries with
    | disconnected =>
      rw [flushed.answers] at answer
      exact absurd answer (connected _)
    | full =>
      simp only [Sender.trySend, answer]
      exact parks _ rfl
    | ok =>
      simp only [Sender.trySend, answer]
      exact flushed.trans (t.flush.1.pass_moves t.flush.1.lane.tx.trySend.2 rfl (done.mp emptied)
        msg follow)
  · exact parks _ rfl

end Turns

/-! ### One lane -/

section Lanes

variable {T F : Type} [Routed T] {close : Nat → T} {closed : Finset Nat} {known : Nat → Prop}

open Routed

variable {lane : Lane T F} {sent new : List (T × Option F)} {t : Turn T F} {c : Nat}
  {opened : Finset Nat} {rest : Nat → Nat}

/-- The entries of a connection. -/
def Lane.of (lane : Lane T F) (c : Nat) : List (T × Option F) := lane.entries.filter (ofConn c)

/-- **What a lane keeps** of what it was sent, with these connections closed and others than `known`
never heard of. -/
structure Lane.Sound (close : Nat → T) (closed : Finset Nat) (known : Nat → Prop)
    (sent : List (T × Option F)) (lane : Lane T F) : Prop where
  connected : ∀ n, lane.tx.answers n ≠ .disconnected
  known : ∀ e ∈ lane.entries, known (connId e.1)
  inOrder : lane.entries.Sublist sent
  complete : ∀ c ∉ closed, lane.of c = sent.filter (ofConn c)
  plain : ∀ e ∈ lane.entries, connId e.1 ∉ closed → isClose e.1 = false
  delivered : ∀ c, c ∈ lane.delivered ↔ c ∉ closed ∧ ∃ e ∈ lane.passed, connId e.1 = c
  last : ∀ c ∈ closed, ∃ before, before <+: lane.passed.filter (ofConn c) ∧
    (∀ e ∈ before, isClose e.1 = false) ∧
    lane.of c = before ++ if before = [] then [] else [(close c, none)]

theorem Lane.of_eq (lane : Lane T F) (c : Nat) :
    lane.of c = lane.passed.filter (ofConn c) ++ lane.parked.filter (ofConn c) := by
  rw [Lane.of, Lane.entries, filter_append]

/-- Of a closed connection only a `Close` can be parked. -/
theorem Lane.Sound.parked_closed (sound : lane.Sound close closed known sent) {e : T × Option F}
    (member : e ∈ lane.parked) (gone : connId e.1 ∈ closed) : e = (close (connId e.1), none) := by
  obtain ⟨before, ⟨more, passed⟩, _, all⟩ := sound.last _ gone
  rw [Lane.of_eq, ← passed, append_assoc, append_cancel_left_eq] at all
  have here : e ∈ more ++ lane.parked.filter (ofConn (connId e.1)) :=
    mem_append_right _ (mem_filter.mpr ⟨member, by simp [ofConn]⟩)
  rw [all] at here
  split_ifs at here
  · cases here
  · exact mem_singleton.mp here

theorem of_append (lane : Lane T F) (lane' : Lane T F)
    (entries : lane'.entries = lane.entries ++ new) (c : Nat) :
    lane'.of c = lane.of c ++ new.filter (ofConn c) := by
  rw [Lane.of, entries, filter_append, Lane.of]

/-- A parked message is a `Close` exactly when its connection is closed. -/
theorem Lane.Sound.parked_plain (sound : lane.Sound close closed known sent)
    (ends : ∀ c, isClose (close c) = true) {e : T × Option F} (member : e ∈ lane.parked) :
    isClose e.1 = false ↔ connId e.1 ∉ closed := by
  by_cases gone : connId e.1 ∈ closed
  · have is : isClose e.1 = true := by rw [sound.parked_closed member gone, ends]
    simp [is, gone]
  · exact iff_of_true (sound.plain e (mem_append_right _ member) gone) gone

/-- What enters the queue is noted for the connections still open. -/
theorem Turn.Moves.delivered {t' : Turn T F} (moves : t.Moves t' new)
    (plain : ∀ e ∈ t.lane.parked ++ new, isClose e.1 = false ↔ connId e.1 ∉ closed)
    (before : ∀ c, c ∈ t.lane.delivered ↔ c ∉ closed ∧ ∃ e ∈ t.lane.passed, connId e.1 = c)
    (c : Nat) : c ∈ t'.lane.delivered ↔ c ∉ closed ∧ ∃ e ∈ t'.lane.passed, connId e.1 = c := by
  obtain ⟨out, passed, _, delivered⟩ := moves.moved
  have entered : (∃ e ∈ out, connId e.1 = c ∧ isClose e.1 = false)
      ↔ c ∉ closed ∧ ∃ e ∈ out, connId e.1 = c := by
    rw [← exists_and_left]
    refine exists_congr fun e => Iff.trans (and_congr_right fun member => ?_) and_left_comm
    rw [plain e (moves.split passed ▸ mem_append_left _ member), and_comm]
    exact and_congr_left fun own => by rw [own]
  rw [delivered, before, entered, passed, ← and_or_left]
  simp only [mem_append, or_and_right, exists_or]

/-- **Sending and flushing** keep a lane in order. -/
theorem Lane.Sound.moves {t' : Turn T F} (sound : t.lane.Sound close closed known sent)
    (moves : t.Moves t' new) (ends : ∀ c, isClose (close c) = true)
    (fresh : ∀ e ∈ new, connId e.1 ∉ closed ∧ isClose e.1 = false)
    (heard : ∀ e ∈ new, known (connId e.1)) :
    t'.lane.Sound close closed known (sent ++ new) := by
  obtain ⟨out, passed, _⟩ := moves.moved
  have apart : ∀ c ∈ closed, new.filter (ofConn c) = [] := by
    intro c gone
    refine filter_eq_nil_iff.mpr fun e member own => (fresh e member).1 ?_
    rw [show connId e.1 = c by simpa [ofConn] using own]
    exact gone
  constructor
  · rw [moves.answers]
    exact sound.connected
  · rw [moves.entries]
    exact forall_mem_append.mpr ⟨sound.known, heard⟩
  · rw [moves.entries]
    exact sound.inOrder.append (List.Sublist.refl _)
  · intro c open'
    rw [of_append _ _ moves.entries, filter_append, sound.complete c open']
  · intro e member open'
    rw [moves.entries] at member
    rcases mem_append.mp member with old | new
    · exact sound.plain e old open'
    · exact (fresh e new).2
  · refine moves.delivered (forall_mem_append.mpr ⟨?_, ?_⟩) sound.delivered
    · exact fun e member => sound.parked_plain ends member
    · exact fun e member => iff_of_true (fresh e member).2 (fresh e member).1
  · intro c gone
    obtain ⟨before, inside, plain, all⟩ := sound.last c gone
    refine ⟨before, ?_, plain, ?_⟩
    · rw [passed, filter_append]
      exact inside.trans (prefix_append _ _)
    · rw [of_append _ _ moves.entries, apart c gone, append_nil, all]

/-- What is parked of a connection is dropped from the gates' count. -/
theorem counts_dropped {gates : Gates} (dropped : List (T × Option F))
    (own : ∀ e ∈ dropped, connId e.1 = c)
    (counts : gates.Counts opened fun x => rest x + dropped.countP (ofConn x)) :
    (dropped.foldl (fun gates _ => gates.unpark c) gates).Counts opened rest := by
  induction dropped generalizing gates with
  | nil => exact counts
  | cons e dropped ih =>
    obtain ⟨here, others⟩ := forall_mem_cons.mp own
    refine ih others (Gates.Counts.unpark (counts.congr fun x => ?_))
    rw [countP_ofConn_cons, here, Nat.add_assoc]

/-- What closing a connection does to a lane before a `Close` is sent. -/
def Turn.dropped (t : Turn T F) (c : Nat) : Turn T F :=
  { t with
    lane := { t.lane with parked := t.lane.parked.filter fun e => connId e.1 ≠ c }
    gates := (t.lane.parked.filter fun e => connId e.1 = c).foldl
      (fun gates _ => gates.unpark c) t.gates }

theorem Turn.dropped_counts (t : Turn T F) (c : Nat) (counts : t.Counted opened rest) :
    (t.dropped c).Counted opened rest := by
  refine counts_dropped _ (fun e member => by simpa using (mem_filter.mp member).2)
    (Gates.Counts.congr counts fun x => ?_)
  have split := countP_eq_countP_filter_add t.lane.parked (ofConn x)
    fun e => decide (connId e.1 = c)
  have rest' : (t.dropped c).lane.count x
      = (t.lane.parked.filter fun e => !decide (connId e.1 = c)).countP (ofConn x) := by
    simp only [Lane.count, Turn.dropped, ne_eq, decide_not]
  rw [rest', Lane.count]
  omega

theorem Turn.Moves.refl (t : Turn T F) : t.Moves t [] :=
  ⟨by simp, rfl, ⟨[], by simp, by simp, by simp⟩, fun _ _ => id⟩

/-- The turn after which a connection is closed on a lane. -/
def Turn.closing (t : Turn T F) (c : Nat) : Turn T F :=
  { t.dropped c with
    lane := { (t.dropped c).lane with delivered := t.lane.delivered.erase c } }

/-- **Closing a connection** drops what is parked of it and sends a `Close` if something of it had
entered the queue. -/
theorem Turn.close_moves (t : Turn T F) (connected : ∀ n, t.lane.tx.answers n ≠ .disconnected)
    (close : Nat → T) (c : Nat) :
    (t.closing c).Moves (t.close c (close c))
      (if c ∈ t.lane.delivered then [(close c, none)] else []) := by
  unfold Turn.close
  dsimp only
  split_ifs with handed
  · exact (t.closing c).sendThen_moves connected (close c) none
  · have same : t.closing c = t.dropped c := by
      unfold Turn.closing
      rw [Finset.erase_eq_of_notMem handed]
      rfl
    rw [same]
    exact .refl _

theorem entries_closing (t : Turn T F) (c : Nat) : (t.closing c).lane.entries
    = t.lane.passed ++ t.lane.parked.filter fun e => connId e.1 ≠ c := rfl

theorem of_closing (t : Turn T F) (c x : Nat) : (t.closing c).lane.of x
    = if x = c then t.lane.passed.filter (ofConn c) else t.lane.of x := by
  rw [Lane.of, entries_closing, filter_append, filter_filter]
  split_ifs with same
  · have none : t.lane.parked.filter (fun e => ofConn x e && decide (connId e.1 ≠ c)) = [] := by
      refine filter_eq_nil_iff.mpr fun e _ => ?_
      simp [ofConn, same]
    rw [none, append_nil, same]
  · rw [Lane.of_eq]
    congr 1
    refine filter_congr fun e _ => ?_
    by_cases own : connId e.1 = x
    · simp [ofConn, own, same]
    · simp [ofConn, own]

/-- Nothing leaves the queue, and nothing of these connections comes or goes. -/
structure Lane.Keeps (others : Nat → Prop) (lane lane' : Lane T F) : Prop where
  passed : lane.passed <+: lane'.passed
  of : ∀ c, others c → lane'.of c = lane.of c

theorem Lane.Keeps.refl (others : Nat → Prop) (lane : Lane T F) : lane.Keeps others lane :=
  ⟨prefix_refl _, fun _ _ => rfl⟩

theorem Lane.Keeps.trans {others : Nat → Prop} {lane lane' lane'' : Lane T F}
    (first : lane.Keeps others lane') (second : lane'.Keeps others lane'') :
    lane.Keeps others lane'' :=
  ⟨first.passed.trans second.passed, fun c other => (second.of c other).trans (first.of c other)⟩

theorem Turn.Moves.keeps {t' : Turn T F} (moves : t.Moves t' new) {others : Nat → Prop}
    (apart : ∀ e ∈ new, ¬others (connId e.1)) : t.lane.Keeps others t'.lane := by
  obtain ⟨out, passed, _⟩ := moves.moved
  refine ⟨⟨out, passed.symm⟩, fun x other => ?_⟩
  have none : new.filter (ofConn x) = [] := filter_eq_nil_iff.mpr fun e member own =>
    apart e member (by rwa [show connId e.1 = x by simpa [ofConn] using own])
  rw [of_append _ _ moves.entries, none, append_nil]

theorem Turn.close_keeps (t : Turn T F) (connected : ∀ n, t.lane.tx.answers n ≠ .disconnected)
    (own : ∀ c, connId (close c) = c) (c : Nat) :
    t.lane.Keeps (· ≠ c) (t.close c (close c)).lane := by
  have kept : (t.closing c).lane.Keeps (· ≠ c) (t.close c (close c)).lane := by
    refine (t.close_moves connected close c).keeps fun e member => ?_
    split_ifs at member
    · rw [mem_singleton.mp member, own, not_not]
    · cases member
  exact ⟨kept.passed, fun x other => by rw [kept.of x other, of_closing, if_neg other]⟩

theorem Turn.close_counts (t : Turn T F) (connected : ∀ n, t.lane.tx.answers n ≠ .disconnected)
    (close : Nat → T) (c : Nat) (counts : t.Counted opened rest) :
    (t.close c (close c)).Counted opened rest :=
  (t.close_moves connected close c).counts opened rest (t.dropped_counts c counts)

theorem Lane.Sound.closes (sound : t.lane.Sound close closed known sent)
    (own : ∀ c, connId (close c) = c) (ends : ∀ c, isClose (close c) = true) (opened : c ∉ closed)
    (here : known c) :
    (t.close c (close c)).lane.Sound close (insert c closed) known (sent ++ [(close c, none)]) := by
  have moves := t.close_moves sound.connected close c
  let new : List (T × Option F) := if c ∈ t.lane.delivered then [(close c, none)] else []
  have handed : t.lane.passed.filter (ofConn c) ≠ [] ↔ c ∈ t.lane.delivered := by
    rw [sound.delivered]
    constructor
    · intro some
      obtain ⟨e, member⟩ := exists_mem_of_ne_nil _ some
      obtain ⟨inside, is⟩ := mem_filter.mp member
      exact ⟨opened, e, inside, by simpa [ofConn] using is⟩
    · rintro ⟨_, e, inside, is⟩
      exact ne_nil_of_mem (mem_filter.mpr ⟨inside, by simpa [ofConn] using is⟩)
  have closes : ∀ e ∈ new, e = (close c, none) := by
    intro e member
    simp only [new] at member
    split_ifs at member
    · exact mem_singleton.mp member
    · cases member
  have apart : ∀ x, x ≠ c → new.filter (ofConn x) = [] := by
    intro x other
    refine filter_eq_nil_iff.mpr fun e member => ?_
    rw [closes e member]
    simp [ofConn, own, other.symm]
  have all : ∀ x, (t.close c (close c)).lane.of x
      = (if x = c then t.lane.passed.filter (ofConn c) else t.lane.of x) ++ new.filter (ofConn x) :=
    fun x => by rw [of_append _ _ moves.entries, of_closing]
  obtain ⟨out, passed, _⟩ := moves.moved
  have passed' : (t.close c (close c)).lane.passed = t.lane.passed ++ out := passed
  constructor
  · rw [moves.answers]
    exact sound.connected
  · rw [moves.entries]
    refine forall_mem_append.mpr ⟨fun e old => ?_, fun e fresh => ?_⟩
    · exact sound.known e ((filter_sublist.append_left _).subset old)
    · rw [closes e fresh, own]
      exact here
  · rw [moves.entries]
    refine ((filter_sublist.append_left _).trans sound.inOrder).append ?_
    split_ifs
    · exact List.Sublist.refl _
    · exact nil_sublist _
  · intro x outside
    have other : x ≠ c := fun same => outside (Finset.mem_insert.mpr (.inl same))
    have opened' : x ∉ closed := fun gone => outside (Finset.mem_insert_of_mem gone)
    rw [all, if_neg other, apart x other, append_nil, filter_append,
      sound.complete x opened']
    simp [ofConn, own, Ne.symm other]
  · intro e member outside
    have other : connId e.1 ≠ c := fun same => outside (Finset.mem_insert.mpr (.inl same))
    have opened' : connId e.1 ∉ closed := fun gone => outside (Finset.mem_insert_of_mem gone)
    rw [moves.entries] at member
    rcases mem_append.mp member with old | fresh
    · refine sound.plain e ?_ opened'
      exact (filter_sublist.append_left _).subset old
    · rw [closes e fresh] at other
      exact absurd (own c) other
  · refine moves.delivered (forall_mem_append.mpr ⟨fun e member => ?_, fun e member => ?_⟩)
      fun x => ?_
    · obtain ⟨parked, other⟩ := mem_filter.mp member
      rw [sound.parked_plain ends parked, Finset.mem_insert, not_or]
      exact (and_iff_right (of_decide_eq_true other)).symm
    · rw [closes e member, ends, own]
      simp
    · show x ∈ t.lane.delivered.erase c ↔ _
      rw [Finset.mem_erase, sound.delivered, Finset.mem_insert, not_or, and_assoc]
      rfl
  · intro x gone
    by_cases same : x = c
    · subst same
      refine ⟨t.lane.passed.filter (ofConn x), ?_, fun e member => ?_, ?_⟩
      · rw [passed', filter_append]
        exact prefix_append _ _
      · obtain ⟨inside, is⟩ := mem_filter.mp member
        refine sound.plain e (mem_append_left _ inside) ?_
        rw [show connId e.1 = x by simpa [ofConn] using is]
        exact opened
      · rw [all, if_pos rfl]
        congr 1
        simp only [new, ← handed]
        by_cases none : t.lane.passed.filter (ofConn x) = []
        · simp [none]
        · simp [none, ofConn, own]
    · have gone' : x ∈ closed := (Finset.mem_insert.mp gone).resolve_left same
      obtain ⟨before, inside, plain, is⟩ := sound.last x gone'
      refine ⟨before, ?_, plain, ?_⟩
      · rw [passed', filter_append]
        exact inside.trans (prefix_append _ _)
      · rw [all, if_neg same, apart x same, append_nil, is]

/-- Nothing is there of a connection the lane never heard of. -/
theorem Lane.Sound.of_unknown (sound : lane.Sound close closed known sent) (absent : ¬known c) :
    lane.of c = [] := by
  refine filter_eq_nil_iff.mpr fun e member own => absent ?_
  rw [← show connId e.1 = c by simpa [ofConn] using own]
  exact sound.known e member

theorem Lane.Sound.mono (sound : lane.Sound close closed known sent) {known' : Nat → Prop}
    (more : ∀ c, known c → known' c) : lane.Sound close closed known' sent :=
  ⟨sound.connected, fun e member => more _ (sound.known e member), sound.inOrder, sound.complete,
    sound.plain, sound.delivered, sound.last⟩

theorem Lane.Sound.count_unknown (sound : lane.Sound close closed known sent) (absent : ¬known c) :
    lane.count c = 0 := by
  have none := sound.of_unknown absent
  rw [Lane.of_eq, append_eq_nil_iff] at none
  rw [Lane.count, countP_eq_length_filter, none.2]
  rfl

theorem sum_count_update {ι : Type} [Fintype ι] [DecidableEq ι] {T F : ι → Type}
    [(i : ι) → Routed (T i)] (lanes : (i : ι) → Lane (T i) (F i)) (i : ι) (lane : Lane (T i) (F i))
    (c : Nat) : ∑ j, (Function.update lanes i lane j).count c
      = lane.count c + ∑ j ∈ Finset.univ.erase i, (lanes j).count c := by
  rw [← Finset.add_sum_erase _ _ (Finset.mem_univ i), Function.update_self]
  congr 1
  refine Finset.sum_congr rfl fun j member => ?_
  rw [Function.update_of_ne (Finset.ne_of_mem_erase member)]

end Lanes

end Wok.Relay
