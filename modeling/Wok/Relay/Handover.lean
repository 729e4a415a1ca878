/-
**What reaches the workers, and in which order.**

The lanes of an ingester share the gates, and a send on a monitor's lane first flushes the backlog of
other connections and may release their follow-ups into another lane.

* `Dispatch.Sound` — every lane is sound, the gates count what is parked on all of them, and every
  follow-up still to come is one of an open connection.
* `Dispatch.Logged` — what one call gives to the lanes: its own messages and, behind the monitor
  messages that entered their queues and in their order, the follow-ups of these.
* `Dispatch.Kept.step` — **one call** keeps this, and does not touch a connection that is closed.
* `dispatch_hands_over` — **after every sequence of calls**, whatever the queues answered.
-/

import Wok.Relay.Lanes

namespace Wok.Relay

open Wok.Library Wok.Event Wok.Query Routed List Function

variable {reqs monitors negs : Nat}

/-! ### What was sent -/

section Sent

variable [NeZero reqs] [NeZero monitors] [NeZero negs]

/-- The connections whose messages a worker gets. -/
def Worker.serves (w : Worker reqs monitors negs) (c : Nat) : Bool :=
  match w with
  | .writer => true
  | .req i => Dispatch.reqOf c = i
  | .mon i => Dispatch.monOf c = i
  | .neg i => Dispatch.negOf c = i

/-- The message has no follow-up, or one of the same connection that does not close it. -/
def Worker.Follows : (w : Worker reqs monitors negs) → w.Msg × Option w.Follow → Prop
  | .mon _, e => ∀ f : ReqMsg, e.2 = some f → connId f = connId e.1 ∧ isClose f = false
  | .writer, e => e.2 = none
  | .req _, e => e.2 = none
  | .neg _, e => e.2 = none

/-- The message that a worker's lane was given. -/
def Moment.entry (moment : Moment monitors) (w : Worker reqs monitors negs) :
    Option (w.Msg × Option w.Follow) :=
  match moment, w with
  | .writer msg, .writer => some (msg, none)
  | .req msg, .req i => if Dispatch.reqOf (connId msg) = i then some (msg, none) else none
  | .mon entry, .mon i => if Dispatch.monOf (connId entry.1) = i then some entry else none
  | .neg msg, .neg i => if Dispatch.negOf (connId msg) = i then some (msg, none) else none
  | _, _ => none

/-- **What a worker's lane was given**, in order. -/
def givenTo (log : List (Moment monitors)) (w : Worker reqs monitors negs) :
    List (w.Msg × Option w.Follow) := log.filterMap fun moment => moment.entry w

/-- The messages that entered the queue of a monitor. -/
def queuedAt (i : Fin monitors) (log : List (Moment monitors)) :
    List (MonitorMsg × Option ReqMsg) :=
  log.filterMap fun
    | .queued j entry => if j = i then some entry else none
    | _ => none

variable {w w' : Worker reqs monitors negs} {e : w.Msg × Option w.Follow}

theorem entry_moment_self (serves : w.serves (connId e.1)) (follows : w.Follows e) :
    (w.moment e).entry w = some e := by
  obtain ⟨msg, follow⟩ := e
  cases w with
  | mon i => exact if_pos (of_decide_eq_true serves)
  | writer | req | neg =>
    cases (follows : follow = none)
    first | rfl | exact if_pos (of_decide_eq_true serves)

theorem entry_moment_ne (serves : w.serves (connId e.1)) (ne : w' ≠ w) :
    (w.moment e).entry w' = none := by
  cases w <;> cases w' <;>
    first
    | rfl
    | exact absurd rfl ne
    | exact if_neg fun same => ne (congrArg _ (same.symm.trans (of_decide_eq_true serves)))

omit [NeZero reqs] [NeZero monitors] [NeZero negs] in
theorem connId_close (w : Worker reqs monitors negs) (c : Nat) : connId (w.close c) = c := by
  cases w <;> rfl

omit [NeZero reqs] [NeZero monitors] [NeZero negs] in
theorem close_isClose (w : Worker reqs monitors negs) (c : Nat) : isClose (w.close c) = true := by
  cases w <;> rfl

end Sent

namespace Dispatch

variable {d d' d'' : Dispatch reqs monitors negs} {w : Worker reqs monitors negs}
  {t : Turn w.Msg w.Follow} {new out : List (w.Msg × Option w.Follow)}

@[simp] theorem lanes_set (d : Dispatch reqs monitors negs) (w : Worker reqs monitors negs)
    (t : Turn w.Msg w.Follow) (new : List (w.Msg × Option w.Follow)) :
    (d.set w t new).lanes = update d.lanes w t.lane := by
  cases w <;> rfl

@[simp] theorem gates_set (d : Dispatch reqs monitors negs) (w : Worker reqs monitors negs)
    (t : Turn w.Msg w.Follow) (new : List (w.Msg × Option w.Follow)) :
    (d.set w t new).gates = t.gates := by
  cases w <;> rfl

/-! ### What stays -/

section Keeps

variable {others : Nat → Prop}

/-- Nothing leaves a queue, and nothing of these connections comes or goes. -/
def Keeps (others : Nat → Prop) (d d' : Dispatch reqs monitors negs) : Prop :=
  ∀ w, (d.lanes w).Keeps others (d'.lanes w)

theorem Keeps.refl (others : Nat → Prop) (d : Dispatch reqs monitors negs) : Keeps others d d :=
  fun _ => .refl ..

theorem Keeps.trans (first : Keeps others d d') (second : Keeps others d' d'') :
    Keeps others d d'' := fun w => (first w).trans (second w)

theorem Keeps.mono {fewer : Nat → Prop} (keeps : Keeps others d d')
    (weaker : ∀ c, fewer c → others c) : Keeps fewer d d' :=
  fun w => ⟨(keeps w).passed, fun c other => (keeps w).of c (weaker c other)⟩

theorem keeps_set (kept : (d.lanes w).Keeps others t.lane) : Keeps others d (d.set w t new) := by
  unfold Keeps
  rw [lanes_set]
  exact (forall_update_iff d.lanes fun w lane => (d.lanes w).Keeps others lane).mpr
    ⟨kept, fun _ _ => .refl ..⟩

end Keeps

/-! ### The order in which messages were given -/

section Log

/-- After `msgs` were given, monitor messages entered their queues, and their follow-ups are to be
handed over. -/
def Enters (d d' : Dispatch reqs monitors negs) (msgs : List (Moment monitors)) : Prop :=
  ∃ entered : List (Fin monitors × MonitorMsg × Option ReqMsg),
    d'.log = d.log ++ msgs ++ entered.map (fun e => .queued e.1 e.2) ∧
    d'.released = d.released ++ entered.filterMap fun e => e.2.2

/-- What a call gives to the lanes: `first`; when then some monitor messages entered their queues,
the follow-ups of these, in that order; and `last`. -/
def Logged (d d' : Dispatch reqs monitors negs) (first last : List (Moment monitors)) : Prop :=
  ∃ entered : List (Fin monitors × MonitorMsg × Option ReqMsg),
    d'.log = d.log ++ first ++ entered.map (fun e => .queued e.1 e.2) ++
      (entered.filterMap fun e => e.2.2).map .req ++ last

theorem Enters.refl (d : Dispatch reqs monitors negs) : Enters d d [] := ⟨[], by simp, by simp⟩

theorem Enters.trans (first : Enters d d' []) (second : Enters d' d'' []) : Enters d d'' [] := by
  obtain ⟨one, log, released⟩ := first
  obtain ⟨two, log', released'⟩ := second
  exact ⟨one ++ two, by simp [log', log], by simp [released', released]⟩

theorem enters_set_mon {i : Fin monitors} {t : Turn MonitorMsg ReqMsg}
    {new out : List (MonitorMsg × Option ReqMsg)}
    (passed : t.lane.passed = (d.lanes (.mon i)).passed ++ out)
    (releases : t.released = d.released ++ out.filterMap Prod.snd) :
    Enters d (d.set (.mon i) t new) (new.map .mon) := by
  refine ⟨out.map fun e => (i, e), ?_, ?_⟩
  · simp [Dispatch.set, passed, Function.comp_def]
  · show t.released = _
    rw [releases, filterMap_map]
    rfl

theorem log_set (other : ∀ i, w ≠ .mon i) : (d.set w t new).log = d.log ++ new.map w.moment ∧
    (d.set w t new).released = d.released := by
  cases w with
  | mon i => exact absurd rfl (other i)
  | writer | req | neg => exact ⟨rfl, rfl⟩

/-- What entered a monitor's queue stays what was recorded of it. -/
theorem queued_set (queued : ∀ i, queuedAt i d.log = (d.lanes (.mon i)).passed)
    (passed : t.lane.passed = (d.lanes w).passed ++ out) (i : Fin monitors) :
    queuedAt i (d.set w t new).log = ((d.set w t new).lanes (.mon i)).passed := by
  rw [lanes_set]
  cases w with
  | mon j =>
    have log : (d.set (.mon j) t new).log = d.log ++ new.map .mon ++ out.map (.queued j) := by
      simp [Dispatch.set, passed]
    rw [log, queuedAt, filterMap_append, filterMap_append, filterMap_map,
      filterMap_map]
    by_cases same : j = i
    · subst same
      rw [update_self, passed, ← queued]
      simp [queuedAt]
    · rw [update_of_ne (by simpa using Ne.symm same), ← queued]
      simp [queuedAt, same]
  | writer | req | neg =>
    rw [update_of_ne (by simp), ← queued]
    simp [queuedAt, Dispatch.set, Worker.moment, filterMap_map]

variable [NeZero reqs]

theorem log_foldl_sendReq (msgs : List ReqMsg) (d : Dispatch reqs monitors negs) :
    (msgs.foldl sendReq d).log = d.log ++ msgs.map .req ∧
      (msgs.foldl sendReq d).released = d.released := by
  induction msgs generalizing d with
  | nil => exact ⟨(append_nil _).symm, rfl⟩
  | cons msg msgs ih =>
    obtain ⟨log, released⟩ := ih (d.sendReq msg)
    exact ⟨log.trans (append_assoc ..), released⟩

theorem released_release (d : Dispatch reqs monitors negs) : d.release.released = [] :=
  (log_foldl_sendReq _ _).2

theorem Enters.release {msgs : List (Moment monitors)} (enters : Enters d d' msgs)
    (idle : d.released = []) : Logged d d'.release msgs [] := by
  obtain ⟨entered, log, released⟩ := enters
  refine ⟨entered, (log_foldl_sendReq _ _).1.trans ?_⟩
  rw [released, idle, nil_append, append_nil]
  exact congrArg (· ++ _) log

variable [NeZero monitors] [NeZero negs]

/-- What a lane is given is recorded for its worker alone. -/
theorem givenTo_set (own : ∀ e ∈ new, w.serves (connId e.1)) (follows : ∀ e ∈ new, w.Follows e) :
    givenTo (d.set w t new).log w = givenTo d.log w ++ new ∧
      ∀ w', w' ≠ w → givenTo (d.set w t new).log w' = givenTo d.log w' := by
  have log : ∀ w' : Worker reqs monitors negs, givenTo (d.set w t new).log w'
      = givenTo d.log w' ++ new.filterMap fun e => (w.moment e).entry w' := by
    intro w'
    cases w with
    | mon i =>
      simp [givenTo, Dispatch.set, Worker.moment, -map_drop, filterMap_map, Moment.entry]
    | writer | req | neg => simp [givenTo, Dispatch.set, filterMap_map]
  constructor
  · have all : new.filterMap (fun e => (w.moment e).entry w) = new.filterMap some :=
      filterMap_congr fun e member => entry_moment_self (own e member) (follows e member)
    rw [log, all, filterMap_some]
  · intro w' ne
    have none : new.filterMap (fun e => (w.moment e).entry w') = [] :=
      filterMap_eq_nil_iff.mpr fun e member => entry_moment_ne (own e member) ne
    rw [log, none, append_nil]

end Log

/-! ### All lanes -/

variable [NeZero reqs] [NeZero monitors] [NeZero negs]

/-- How many messages of a connection are parked. -/
def parked (d : Dispatch reqs monitors negs) (c : Nat) : Nat := ∑ w, (d.lanes w).count c

variable {opened seen : Finset Nat} {closed : Worker reqs monitors negs → Finset Nat}

/-- **What an ingester keeps**, with these connections open, these closed and only those of `seen`
heard of. -/
structure Sound (opened : Finset Nat) (closed : Worker reqs monitors negs → Finset Nat)
    (seen : Finset Nat) (d : Dispatch reqs monitors negs) : Prop where
  lanes : ∀ w, (d.lanes w).Sound w.close (closed w) (fun c => c ∈ seen ∧ w.serves c)
    (givenTo d.log w)
  counts : d.gates.Counts opened d.parked
  follows : ∀ w, ∀ e ∈ (d.lanes w).parked, w.Follows e
  released : ∀ f ∈ d.released, connId f ∈ seen ∧ connId f ∉ closed (.mon (monOf (connId f))) ∧
    isClose f = false
  queued : ∀ i, queuedAt i d.log = (d.lanes (.mon i)).passed
  earlier : ∀ c, c ∈ closed (.req (reqOf c)) → c ∈ closed (.mon (monOf c))

variable (sound : Sound opened closed seen d)

include sound

/-! #### A turn on one lane -/

/-- **A turn on one lane** after which these connections are closed on it. -/
theorem Sound.set {shut : Finset Nat}
    (lane : t.lane.Sound w.close shut (fun c => c ∈ seen ∧ w.serves c) (givenTo d.log w ++ new))
    (counts : ∀ rest, (d.turn w).Counted opened rest → t.Counted opened rest)
    (follows : ∀ e ∈ t.lane.parked, w.Follows e)
    (passed : t.lane.passed = (d.lanes w).passed ++ out)
    (own : ∀ e ∈ new, w.serves (connId e.1)) (follows' : ∀ e ∈ new, w.Follows e)
    (released : ∀ f ∈ (d.set w t new).released, connId f ∈ seen ∧
      connId f ∉ update closed w shut (.mon (monOf (connId f))) ∧ isClose f = false)
    (earlier : ∀ c, c ∈ update closed w shut (.req (reqOf c)) →
      c ∈ update closed w shut (.mon (monOf c))) :
    Sound opened (update closed w shut) seen (d.set w t new) := by
  obtain ⟨given, others⟩ := givenTo_set (d := d) (t := t) own follows'
  refine ⟨fun w' => ?_, ?_, ?_, released, queued_set sound.queued passed, earlier⟩
  · rw [lanes_set]
    by_cases same : w' = w
    · subst same
      rw [update_self, update_self, given]
      exact lane
    · rw [update_of_ne same, update_of_ne same, others w' same]
      exact sound.lanes w'
  · have rest : ∀ c, d.parked c
        = (d.turn w).lane.count c + ∑ w' ∈ Finset.univ.erase w, (d.lanes w').count c := fun c =>
      (Finset.add_sum_erase _ _ (Finset.mem_univ w)).symm
    have before := sound.counts
    rw [funext rest] at before
    rw [gates_set]
    refine (counts _ before).congr fun c => ?_
    rw [parked, lanes_set, sum_count_update]
  · rw [lanes_set]
    exact (forall_update_iff d.lanes fun w lane => ∀ e ∈ lane.parked, w.Follows e).mpr
      ⟨follows, fun w _ => sound.follows w⟩

/-- A follow-up waits only on a message of a connection that is open on the monitors' lanes. -/
theorem Sound.waiting {i : Fin monitors} {e : MonitorMsg × Option ReqMsg}
    (member : e ∈ (d.lanes (.mon i)).parked) {f : ReqMsg} (is : e.2 = some f) :
    connId f ∈ seen ∧ connId f ∉ closed (.mon (monOf (connId f))) ∧ connId f = connId e.1 ∧
      isClose f = false := by
  obtain ⟨same, plain⟩ := sound.follows (.mon i) e member f is
  obtain ⟨heard, serves⟩ := (sound.lanes (.mon i)).known e (mem_append_right _ member)
  have here : monOf (connId e.1) = i := of_decide_eq_true serves
  refine ⟨same ▸ heard, fun gone => ?_, same, plain⟩
  rw [same, here] at gone
  have closing := (sound.lanes (.mon i)).parked_closed member gone
  rw [closing] at is
  cases is

/-- **Sending and flushing**, with messages of open connections. -/
theorem Sound.move (moves : (d.turn w).Moves t new)
    (heard : ∀ e ∈ new, connId e.1 ∈ seen ∧ w.serves (connId e.1))
    (fresh : ∀ e ∈ new, connId e.1 ∉ closed w ∧ isClose e.1 = false)
    (follows : ∀ e ∈ new, w.Follows e) :
    Sound opened closed seen (d.set w t new) := by
  obtain ⟨out, passed, releases, _⟩ := moves.moved
  have split := moves.split passed
  have moved := sound.set ((sound.lanes w).moves moves (close_isClose w) fresh heard)
    (moves.counts opened) ?_ passed (fun e member => (heard e member).2) follows ?_ ?_
  · rwa [update_eq_self] at moved
  · intro e member
    rcases mem_append.mp (split ▸ mem_append_right out member) with old | added
    · exact sound.follows w e old
    · exact follows e added
  · rw [update_eq_self]
    cases w with
    | mon i =>
      show ∀ f ∈ t.released, _
      rw [releases]
      refine forall_mem_append.mpr ⟨sound.released, fun f member => ?_⟩
      obtain ⟨e, inside, is⟩ := mem_filterMap.mp member
      rcases mem_append.mp (split ▸ mem_append_left _ inside) with old | added
      · obtain ⟨known, alive, _, plain⟩ := sound.waiting old is
        exact ⟨known, alive, plain⟩
      · obtain ⟨same, plain⟩ := follows e added f is
        have here : monOf (connId e.1) = i := of_decide_eq_true (heard e added).2
        refine ⟨same ▸ (heard e added).1, ?_, plain⟩
        rw [same, here]
        exact (fresh e added).1
    | writer | req | neg => exact sound.released
  · rw [update_eq_self]
    exact sound.earlier

/-- **Closing a connection on one lane**, on the req lane after the monitor's. -/
theorem Sound.shut {c : Nat} (heard : c ∈ seen) (serves : w.serves c) (alive : c ∉ closed w)
    (idle : d.released = []) (after : ∀ i, w = .req i → c ∈ closed (.mon (monOf c))) :
    Sound opened (update closed w (insert c (closed w))) seen (d.closeLane w c) ∧
      Keeps (· ≠ c) d (d.closeLane w c) ∧
      ∀ i, w = .mon i → Enters d (d.closeLane w c) [.mon (.close c, none)] := by
  let t := d.turn w
  have moves := t.close_moves (sound.lanes w).connected w.close c
  obtain ⟨out, passed, releases, _⟩ := moves.moved
  have split := moves.split passed
  -- What is left, in the queue or parked, was parked of another connection or is the `Close`.
  have cases : ∀ e, e ∈ out ++ (t.close c (w.close c)).lane.parked →
      (e ∈ (d.lanes w).parked ∧ connId e.1 ≠ c) ∨ e = (w.close c, none) := by
    intro e member
    rw [split] at member
    rcases mem_append.mp member with old | added
    · exact .inl ⟨(mem_filter.mp old).1, by simpa using (mem_filter.mp old).2⟩
    · split_ifs at added
      · exact .inr (mem_singleton.mp added)
      · cases added
  have plain : w.Follows (w.close c, none) := by
    cases w <;> simp [Worker.Follows]
  refine ⟨sound.set ((sound.lanes w).closes (t := t) (connId_close w) (close_isClose w) alive
      ⟨heard, serves⟩) (fun _ counts => t.close_counts (sound.lanes w).connected w.close c counts)
    ?_ passed ?_ ?_ ?_ ?_, keeps_set (t.close_keeps (sound.lanes w).connected (connId_close w) c),
    ?_⟩
  · intro e member
    rcases cases e (mem_append_right out member) with ⟨old, _⟩ | rfl
    · exact sound.follows w e old
    · exact plain
  · simpa [connId_close] using serves
  · simpa using plain
  · cases w with
    | mon i =>
      show ∀ f ∈ (t.close c _).released, _
      rw [releases]
      show ∀ f ∈ d.released ++ _, _
      rw [idle, nil_append]
      intro f member
      obtain ⟨e, inside, is⟩ := mem_filterMap.mp member
      rcases cases e (mem_append_left _ inside) with ⟨old, other⟩ | rfl
      · obtain ⟨known, alive, same, plain⟩ := sound.waiting old is
        refine ⟨known, fun gone => ?_, plain⟩
        by_cases here : monOf (connId f) = i
        · rw [here, update_self, Finset.mem_insert] at gone
          exact gone.elim (fun is => other (same ▸ is)) (here ▸ alive)
        · rw [update_of_ne (by simpa using here)] at gone
          exact alive gone
      · cases is
    | writer | req | neg =>
      show ∀ f ∈ d.released, _
      simp [idle]
  · intro x gone
    cases w with
    | req i =>
      rw [update_of_ne (by simp)]
      by_cases here : reqOf x = i
      · subst here
        rw [update_self, Finset.mem_insert] at gone
        rcases gone with rfl | gone
        · exact after _ rfl
        · exact sound.earlier x gone
      · rw [update_of_ne (by simpa using here)] at gone
        exact sound.earlier x gone
    | mon i =>
      rw [update_of_ne (by simp)] at gone
      by_cases here : monOf x = i
      · subst here
        rw [update_self]
        exact Finset.mem_insert_of_mem (sound.earlier x gone)
      · rw [update_of_ne (by simpa using here)]
        exact sound.earlier x gone
    | writer | neg =>
      rw [update_of_ne (by simp)] at gone ⊢
      exact sound.earlier x gone
  · rintro i rfl
    exact enters_set_mon passed releases

/-! #### Sending -/

/-- **A message is sent.** -/
theorem Sound.send (w : Worker reqs monitors negs) (msg : w.Msg) (follow : Option w.Follow)
    (heard : connId msg ∈ seen) (serves : w.serves (connId msg)) (alive : connId msg ∉ closed w)
    (plain : isClose msg = false) (follows : w.Follows (msg, follow)) :
    Sound opened closed seen (d.send w msg follow) ∧
      Keeps (· ≠ connId msg) d (d.send w msg follow) := by
  have moves := (d.turn w).sendThen_moves (sound.lanes w).connected msg follow
  refine ⟨sound.move moves ?_ ?_ ?_, keeps_set (moves.keeps (by simp))⟩
  · simpa using ⟨heard, serves⟩
  · simpa using ⟨alive, plain⟩
  · simpa using follows

theorem Sound.foldl_sendReq (msgs : List ReqMsg) (fine : ∀ f ∈ msgs, connId f ∈ seen ∧
      connId f ∉ closed (.mon (monOf (connId f))) ∧ isClose f = false) :
    Sound opened closed seen (msgs.foldl Dispatch.sendReq d) ∧
      Keeps (fun c => c ∈ closed (.mon (monOf c))) d (msgs.foldl Dispatch.sendReq d) := by
  induction msgs generalizing d with
  | nil => exact ⟨sound, .refl _ _⟩
  | cons msg msgs ih =>
    obtain ⟨⟨heard, alive, plain⟩, rest⟩ := forall_mem_cons.mp fine
    obtain ⟨given, others⟩ := sound.send (.req (reqOf (connId msg))) msg none heard
      (by simp [Worker.serves]) (fun gone => alive (sound.earlier _ gone)) plain rfl
    obtain ⟨handed, keeps⟩ := ih given rest
    exact ⟨handed, (others.mono fun x gone same => alive (same ▸ gone)).trans keeps⟩

/-- **The follow-ups are handed over**, none of a connection closed on the monitors' lanes. -/
theorem Sound.release : Sound opened closed seen d.release ∧
    Keeps (fun c => c ∈ closed (.mon (monOf c))) d d.release := by
  have idle : Sound opened closed seen { d with released := [] } :=
    { sound with released := by simp }
  exact idle.foldl_sendReq d.released sound.released

/-- A message for a monitor, and its follow-up. -/
theorem Sound.monitorThen {msg : MonitorMsg} (idle : d.released = [])
    (follow : Option ReqMsg) (heard : connId msg ∈ seen)
    (alive : connId msg ∉ closed (.mon (monOf (connId msg)))) (plain : isClose msg = false)
    (follows : ∀ f, follow = some f → connId f = connId msg ∧ isClose f = false) :
    Sound opened closed seen (d.monitorThen msg follow) ∧
      Logged d (d.monitorThen msg follow) [.mon (msg, follow)] [] ∧
      Keeps (fun c => c ∈ closed (.mon (monOf c))) d (d.monitorThen msg follow) := by
  have moves := (d.turn (.mon (monOf (connId msg)))).sendThen_moves (sound.lanes _).connected msg
    follow
  obtain ⟨out, passed, releases, _⟩ := moves.moved
  obtain ⟨given, others⟩ := sound.send (.mon (monOf (connId msg))) msg follow heard
    (by simp [Worker.serves]) alive plain follows
  obtain ⟨handed, keeps⟩ := given.release
  exact ⟨handed, (enters_set_mon passed releases).release idle,
    (others.mono fun x gone same => alive (same ▸ gone)).trans keeps⟩

/-! #### Flushing -/

theorem Sound.flushLanes (others : Nat → Prop) (workers : List (Worker reqs monitors negs)) :
    Sound opened closed seen (d.flushLanes workers).1 ∧
      Keeps others d (d.flushLanes workers).1 ∧
      ((∀ w ∈ workers, ∃ i, w = .mon i) → Enters d (d.flushLanes workers).1 []) ∧
      ((∀ w ∈ workers, ∀ i, w ≠ .mon i) → (d.flushLanes workers).1.log = d.log ∧
        (d.flushLanes workers).1.released = d.released) := by
  unfold Dispatch.flushLanes
  generalize true = done
  induction workers generalizing d done with
  | nil => exact ⟨sound, .refl _ _, fun _ => .refl d, fun _ => ⟨rfl, rfl⟩⟩
  | cons w workers ih =>
    have moves := ((d.turn w).flush_moves (sound.lanes w).connected).1
    obtain ⟨rest, keeps, enters, quiet⟩ :=
      ih (sound.move moves (by simp) (by simp) (by simp)) (done && (d.turn w).flush.2)
    refine ⟨rest, (keeps_set (moves.keeps (by simp))).trans keeps, fun mons => ?_, fun none => ?_⟩
    · obtain ⟨⟨i, rfl⟩, later⟩ := forall_mem_cons.mp mons
      obtain ⟨out, passed, releases, _⟩ := moves.moved
      exact (enters_set_mon passed releases).trans (enters later)
    · obtain ⟨other, later⟩ := forall_mem_cons.mp none
      obtain ⟨log, released⟩ := quiet later
      obtain ⟨log', released'⟩ := log_set other
      exact ⟨log.trans (log'.trans (append_nil _)), released.trans released'⟩

theorem Sound.flush (idle : d.released = []) :
    Sound opened closed seen d.flush.1 ∧ d.flush.1.released = [] ∧ Logged d d.flush.1 [] [] ∧
      Keeps (fun c => c ∈ closed (.mon (monOf c))) d d.flush.1 := by
  obtain ⟨writer, keeps₁, _, quiet⟩ := sound.flushLanes (fun c => c ∈ closed (.mon (monOf c)))
    [.writer]
  obtain ⟨log₁, same₁⟩ := quiet (by simp)
  obtain ⟨mon, keeps₂, enters, _⟩ := writer.flushLanes (fun c => c ∈ closed (.mon (monOf c)))
    ((List.finRange monitors).map .mon)
  obtain ⟨entered, log₂⟩ := (enters (by simp)).release (same₁.trans idle)
  obtain ⟨handed, keeps₃⟩ := mon.release
  obtain ⟨req, keeps₄, _, quiet₄⟩ := handed.flushLanes (fun c => c ∈ closed (.mon (monOf c)))
    ((List.finRange reqs).map .req)
  obtain ⟨log₄, same₄⟩ := quiet₄ (by simp)
  obtain ⟨neg, keeps₅, _, quiet₅⟩ := req.flushLanes (fun c => c ∈ closed (.mon (monOf c)))
    ((List.finRange negs).map .neg)
  obtain ⟨log₅, same₅⟩ := quiet₅ (by simp)
  refine ⟨neg, same₅.trans (same₄.trans (released_release _)), ⟨entered, ?_⟩,
    keeps₁.trans (keeps₂.trans (keeps₃.trans (keeps₄.trans keeps₅)))⟩
  rw [← log₁]
  exact (log₅.trans log₄).trans log₂

/-! #### Opening and closing -/

section Closing

variable {c : Nat}

theorem Sound.mono {seen' : Finset Nat} (more : seen ⊆ seen') :
    Sound opened closed seen' d :=
  { sound with
    lanes := fun w => (sound.lanes w).mono fun _ heard => ⟨more heard.1, heard.2⟩
    released := fun f member => ⟨more (sound.released f member).1, (sound.released f member).2⟩ }

theorem Sound.congr {closed' : Worker reqs monitors negs → Finset Nat}
    (same : ∀ w, closed w = closed' w) : Sound opened closed' seen d := funext same ▸ sound

/-- Nothing is parked of a connection not heard of. -/
theorem Sound.parked_unknown (absent : c ∉ seen) : d.parked c = 0 :=
  Finset.sum_eq_zero fun w _ => (sound.lanes w).count_unknown fun heard => absent heard.1

/-- **A connection opens.** -/
theorem Sound.open (absent : c ∉ seen) :
    Sound (insert c opened) closed seen (d.open c) := by
  refine { sound with counts := ⟨sound.counts.parked, fun x => ?_⟩ }
  show (d.gates.open.insert c true).lookup x = if x ∈ insert c opened then
    some (decide (d.parked x = 0)) else none
  by_cases same : x = c
  · rw [same, AList.lookup_insert, if_pos (Finset.mem_insert_self c opened),
      sound.parked_unknown absent]
    rfl
  · rw [AList.lookup_insert_ne same, sound.counts.gate]
    simp only [Finset.mem_insert, same, false_or]

theorem Sound.ungate (c : Nat) :
    Sound (opened.erase c) closed seen
      { d with gates := { d.gates with «open» := d.gates.open.erase c } } := by
  refine { sound with counts := ⟨sound.counts.parked, fun x => ?_⟩ }
  show (d.gates.open.erase c).lookup x = if x ∈ opened.erase c then
    some (decide (d.parked x = 0)) else none
  by_cases same : x = c
  · rw [same, AList.lookup_erase, if_neg (Finset.notMem_erase c opened)]
  · rw [AList.lookup_erase_ne same, sound.counts.gate]
    simp only [Finset.mem_erase, ne_eq, same, not_false_eq_true, true_and]

/-- **A connection closes.** -/
theorem Sound.close (idle : d.released = []) (heard : c ∈ seen) (alive : ∀ w, c ∉ closed w) :
    Sound (opened.erase c) (fun w => if w.serves c then insert c (closed w) else closed w) seen
        (d.close c) ∧
      (d.close c).released = [] ∧
      Logged d (d.close c) [.mon (.close c, none)]
        [.req (.close c), .neg (.close c), .writer (.close c)] ∧
      Keeps (fun x => x ∈ closed (.mon (monOf x))) d (d.close c) := by
  obtain ⟨mon, keepsMon, enters⟩ := (sound.ungate c).shut (w := .mon (monOf c)) heard
    (by simp [Worker.serves]) (alive _) idle (by simp)
  obtain ⟨handed, keeps⟩ := mon.release
  obtain ⟨req, keepsReq, _⟩ := handed.shut (w := .req (reqOf c)) heard (by simp [Worker.serves])
    (by simpa using alive _) (released_release _) (by simp)
  obtain ⟨neg, keepsNeg, _⟩ := req.shut (w := .neg (negOf c)) heard (by simp [Worker.serves])
    (by simpa using alive _) (released_release _) (by simp)
  obtain ⟨writer, keepsWriter, _⟩ := neg.shut (w := .writer) heard rfl (by simpa using alive _)
    (released_release _) (by simp)
  refine ⟨writer.congr fun w => ?_, released_release _, ?_, ?_⟩
  · cases w with
    | writer => simp [Worker.serves]
    | req i =>
      by_cases here : i = reqOf c
      · simp [here, Worker.serves]
      · simp [Worker.serves, here, Ne.symm here]
    | mon i =>
      by_cases here : i = monOf c
      · simp [here, Worker.serves]
      · simp [Worker.serves, here, Ne.symm here]
    | neg i =>
      by_cases here : i = negOf c
      · simp [here, Worker.serves]
      · simp [Worker.serves, here, Ne.symm here]
  · obtain ⟨entered, log⟩ := (enters _ rfl).release idle
    refine ⟨entered, (congrArg (· ++ [.req (.close c)] ++ [.neg (.close c)] ++ [.writer (.close c)])
      log).trans ?_⟩
    simp
  · have other : ∀ x, x ∈ closed (.mon (monOf x)) → x ≠ c := fun x member same =>
      alive _ (same ▸ member)
    have ungate : Keeps (fun x => x ∈ closed (.mon (monOf x))) d
        { d with gates := { d.gates with «open» := d.gates.open.erase c } } := fun _ => .refl ..
    refine ungate.trans ((keepsMon.mono other).trans ((keeps.mono fun x gone => ?_).trans
      (((keepsReq.trans keepsNeg).trans keepsWriter).mono other)))
    rw [update_apply]
    split_ifs with same
    · exact Finset.mem_insert_of_mem (same ▸ gone)
    · exact gone

end Closing

end Dispatch

/-! ### Every sequence of calls -/

/-- No queue is disconnected. -/
def Connected (answers : Worker reqs monitors negs → Nat → Answer) : Prop :=
  ∀ w n, answers w n ≠ .disconnected

section Runs

/-- What is sent is no `Close`, and a follow-up is one of the same connection. -/
def DispatchCall.Plain : DispatchCall → Prop
  | .writer msg => isClose msg = false
  | .req msg => isClose msg = false
  | .monitor msg => isClose msg = false
  | .subscription msg follow =>
    isClose msg = false ∧ isClose follow = false ∧ connId follow = connId msg
  | .neg msg => isClose msg = false
  | .open _ | .flush | .close _ => True

/-- The calls an ingester makes: none about a connection it has closed, and one opens before
anything else is heard of it. -/
inductive Disciplined : List DispatchCall → Prop
  | nil : Disciplined []
  | snoc {calls : List DispatchCall} {call : DispatchCall} (earlier : Disciplined calls)
    (plain : call.Plain) (alive : ∀ c, call.conn = some c → .close c ∉ calls)
    (first : ∀ c, call = .open c → ∀ other ∈ calls, other.conn ≠ some c) :
    Disciplined (calls ++ [call])

variable {calls : List DispatchCall}

theorem Disciplined.last {call : DispatchCall} (disciplined : Disciplined (calls ++ [call])) :
    Disciplined calls ∧ call.Plain ∧
      (∀ c, call.conn = some c → .close c ∉ calls) ∧
      ∀ c, call = .open c → ∀ other ∈ calls, other.conn ≠ some c := by
  generalize all : calls ++ [call] = made at disciplined
  cases disciplined with
  | nil => simp at all
  | snoc earlier plain alive first =>
    obtain ⟨rfl, same⟩ := append_inj' all rfl
    cases same
    exact ⟨earlier, plain, alive, first⟩

theorem Disciplined.left {before after : List DispatchCall}
    (disciplined : Disciplined (before ++ after)) : Disciplined before := by
  induction after using List.reverseRecOn with
  | nil => rwa [append_nil] at disciplined
  | append_singleton after last ih =>
    rw [← append_assoc] at disciplined
    exact ih disciplined.last.1

def DispatchCall.closes : DispatchCall → Option Nat
  | .close conn => some conn
  | _ => none

def DispatchCall.opens : DispatchCall → Option Nat
  | .open conn => some conn
  | _ => none

/-- The connections heard of. -/
def heardBy (calls : List DispatchCall) : Finset Nat := (calls.filterMap DispatchCall.conn).toFinset

def closedBy (calls : List DispatchCall) : Finset Nat :=
  (calls.filterMap DispatchCall.closes).toFinset

/-- The connections that are open. -/
def openBy (calls : List DispatchCall) : Finset Nat :=
  (calls.filterMap DispatchCall.opens).toFinset \ closedBy calls

theorem mem_closedBy {c : Nat} : c ∈ closedBy calls ↔ .close c ∈ calls := by
  rw [closedBy, mem_toFinset, mem_filterMap]
  constructor
  · rintro ⟨call, member, is⟩
    cases call <;> cases is
    exact member
  · exact fun member => ⟨_, member, rfl⟩

theorem mem_openBy {c : Nat} : c ∈ openBy calls ↔ .open c ∈ calls ∧ .close c ∉ calls := by
  rw [openBy, Finset.mem_sdiff, mem_closedBy, mem_toFinset, mem_filterMap]
  refine and_congr_left fun _ => ⟨?_, fun member => ⟨_, member, rfl⟩⟩
  rintro ⟨call, member, is⟩
  cases call <;> cases is
  exact member

theorem heardBy_snoc (calls : List DispatchCall) (call : DispatchCall) :
    heardBy (calls ++ [call]) = heardBy calls ∪ call.conn.toFinset := by
  ext c
  simp only [heardBy, filterMap_append, toFinset_append, Finset.mem_union,
    mem_toFinset, mem_filterMap, mem_singleton, exists_eq_left, Option.mem_toFinset,
    Option.mem_def]

variable [NeZero reqs] [NeZero monitors] [NeZero negs]

/-- The messages a call gives to a monitor's lane, which it does first. -/
def DispatchCall.toMon : DispatchCall → List (Moment monitors)
  | .monitor msg => [.mon (msg, none)]
  | .subscription msg follow => [.mon (msg, some follow)]
  | .close conn => [.mon (.close conn, none)]
  | _ => []

/-- The messages a call gives to other lanes; a lane that was handed nothing of a connection is not
sent its `Close`. -/
def DispatchCall.toOthers : DispatchCall → List (Moment monitors)
  | .writer msg => [.writer msg]
  | .req msg => [.req msg]
  | .neg msg => [.neg msg]
  | .close conn => [.req (.close conn), .neg (.close conn), .writer (.close conn)]
  | _ => []

/-- The connections closed on a lane. -/
def closedOn (calls : List DispatchCall) (w : Worker reqs monitors negs) : Finset Nat :=
  (closedBy calls).filter fun c => w.serves c

namespace Dispatch

/-- What holds between two calls. -/
def Kept (calls : List DispatchCall) (d : Dispatch reqs monitors negs) : Prop :=
  Sound (openBy calls) (closedOn calls) (heardBy calls) d ∧ d.released = []

variable {d : Dispatch reqs monitors negs} {calls : List DispatchCall}
variable {answers : Worker reqs monitors negs → Nat → Answer}

/-- **One more call.** It gives the lanes what it sends and what it releases, and nothing comes or
goes of a connection already closed. -/
theorem Kept.step (kept : Kept calls d) {call : DispatchCall} (plain : call.Plain)
    (alive : ∀ c, call.conn = some c → .close c ∉ calls)
    (first : ∀ c, call = .open c → ∀ other ∈ calls, other.conn ≠ some c) :
    Kept (calls ++ [call]) (d.step call) ∧ Logged d (d.step call) call.toMon call.toOthers ∧
      Keeps (· ∈ closedBy calls) d (d.step call) := by
  obtain ⟨sound, idle⟩ := kept
  have more : heardBy calls ⊆ heardBy (calls ++ [call]) :=
    heardBy_snoc calls call ▸ Finset.subset_union_left
  have wide := sound.mono more
  have heard : ∀ c, call.conn = some c → c ∈ heardBy (calls ++ [call]) := fun c is => by
    rw [heardBy_snoc, is]
    exact Finset.mem_union_right _ (Finset.mem_singleton_self c)
  have open' : ∀ c, call.conn = some c → ∀ w : Worker reqs monitors negs, c ∉ closedOn calls w :=
    fun c is w gone => alive c is (mem_closedBy.mp (Finset.mem_filter.mp gone).1)
  have other : ∀ c, call.conn = some c → ∀ x, x ∈ closedBy calls → x ≠ c :=
    fun c is x gone same => alive c is (mem_closedBy.mp (same ▸ gone))
  have served : ∀ x, x ∈ closedBy calls →
      x ∈ closedOn calls (.mon (monOf x) : Worker reqs monitors negs) := fun x gone =>
    Finset.mem_filter.mpr ⟨gone, by simp [Worker.serves]⟩
  -- The calls that neither open nor close a connection.
  have same : call.opens = none → call.closes = none → openBy (calls ++ [call]) = openBy calls ∧
      closedBy (calls ++ [call]) = closedBy calls := by
    intro opens closes
    simp [openBy, closedBy, opens, closes]
  -- A call that gives one message to a lane other than a monitor's.
  have sends (w : Worker reqs monitors negs) (msg : w.Msg) (conn : call.conn = some (connId msg))
      (serves : w.serves (connId msg)) (plain : isClose msg = false)
      (follows : w.Follows (msg, none)) : Sound (openBy calls) (closedOn calls)
        (heardBy (calls ++ [call])) (d.send w msg none) ∧
        Keeps (· ∈ closedBy calls) d (d.send w msg none) := by
    obtain ⟨sent, keeps⟩ := wide.send w msg none (heard _ conn) serves (open' _ conn w) plain follows
    exact ⟨sent, keeps.mono (other _ conn)⟩
  have quiet {d' : Dispatch reqs monitors negs} {own : List (Moment monitors)}
      (log : d'.log = d.log ++ own) : Logged d d' [] own := ⟨[], by simp [log]⟩
  unfold Kept closedOn
  cases call with
  | «open» c =>
    have unheard : c ∉ heardBy calls := by
      simpa [heardBy] using first c rfl
    have opens : openBy (calls ++ [.open c]) = insert c (openBy calls) := by
      ext x
      have gone : x = c → .close x ∉ calls := fun is => is ▸ alive c rfl
      simp only [mem_openBy, mem_append, mem_singleton, Finset.mem_insert,
        DispatchCall.open.injEq, reduceCtorEq, or_false]
      tauto
    have closes : closedBy (calls ++ [.open c]) = closedBy calls := by
      ext x
      simp only [mem_closedBy, mem_append, mem_singleton, reduceCtorEq, or_false]
    rw [opens, closes]
    exact ⟨⟨(sound.open unheard).mono more, idle⟩, quiet (append_nil _).symm, fun _ => .refl ..⟩
  | close c =>
    have opens : openBy (calls ++ [.close c]) = (openBy calls).erase c := by
      ext x
      simp only [mem_openBy, mem_append, mem_singleton, Finset.mem_erase,
        DispatchCall.close.injEq, reduceCtorEq, or_false, not_or]
      tauto
    have closes : closedBy (calls ++ [.close c]) = insert c (closedBy calls) := by
      ext x
      simp only [mem_closedBy, mem_append, mem_singleton, Finset.mem_insert,
        DispatchCall.close.injEq, or_comm]
    rw [opens, closes]
    obtain ⟨closed, done, logged, keeps⟩ := wide.close idle (heard c rfl) (open' c rfl)
    refine ⟨⟨closed.congr fun w => ?_, done⟩, logged, keeps.mono served⟩
    rw [Finset.filter_insert]
    rfl
  | writer msg =>
    rw [(same rfl rfl).1, (same rfl rfl).2]
    obtain ⟨sent, keeps⟩ := sends .writer msg rfl rfl plain rfl
    exact ⟨⟨sent, idle⟩, quiet rfl, keeps⟩
  | req msg =>
    rw [(same rfl rfl).1, (same rfl rfl).2]
    obtain ⟨sent, keeps⟩ := sends (.req (reqOf (connId msg))) msg rfl (by simp [Worker.serves]) plain
      rfl
    exact ⟨⟨sent, idle⟩, quiet rfl, keeps⟩
  | neg msg =>
    rw [(same rfl rfl).1, (same rfl rfl).2]
    obtain ⟨sent, keeps⟩ := sends (.neg (negOf (connId msg))) msg rfl (by simp [Worker.serves]) plain
      rfl
    exact ⟨⟨sent, idle⟩, quiet rfl, keeps⟩
  | monitor msg =>
    rw [(same rfl rfl).1, (same rfl rfl).2]
    obtain ⟨sent, logged, keeps⟩ :=
      wide.monitorThen idle none (heard _ rfl) (open' _ rfl _) plain (by simp)
    exact ⟨⟨sent, released_release _⟩, logged, keeps.mono served⟩
  | subscription msg follow =>
    rw [(same rfl rfl).1, (same rfl rfl).2]
    obtain ⟨sent, logged, keeps⟩ := wide.monitorThen idle (some follow) (heard _ rfl)
      (open' _ rfl _) plain.1 (by simpa using ⟨plain.2.2, plain.2.1⟩)
    exact ⟨⟨sent, released_release _⟩, logged, keeps.mono served⟩
  | flush =>
    rw [(same rfl rfl).1, (same rfl rfl).2]
    obtain ⟨flushed, done, logged, keeps⟩ := wide.flush idle
    exact ⟨⟨flushed, done⟩, logged, keeps.mono served⟩

theorem Kept.new (connected : Connected answers) : Kept [] (new answers) := by
  have fresh : ∀ {T F : Type} [Routed T] {close : Nat → T} {known : Nat → Prop}
      {tries : Nat → Answer}, (∀ n, tries n ≠ .disconnected) →
      (Lane.new tries : Lane T F).Sound close ∅ known [] := fun connected =>
    ⟨connected, by simp [Lane.new, Lane.entries], List.Sublist.refl _, fun _ _ => rfl,
      by simp [Lane.new, Lane.entries], by simp [Lane.new], by simp⟩
  have none : (Dispatch.new answers).parked = fun _ => 0 := by
    funext c
    simp [parked, Dispatch.new, Lane.new, Lane.count]
  refine ⟨⟨fun w => ?_, ?_, ?_, ?_, fun _ => rfl, by simp [closedOn, closedBy]⟩, rfl⟩
  · cases w <;> exact fresh (connected _)
  · rw [none]
    exact ⟨fun _ => rfl, fun _ => rfl⟩
  · simp [Dispatch.new, Lane.new]
  · simp [Dispatch.new]

theorem run_snoc (answers : Worker reqs monitors negs → Nat → Answer) (calls : List DispatchCall)
    (call : DispatchCall) : run answers (calls ++ [call]) = (run answers calls).step call := by
  rw [run, foldl_append]
  rfl

/-- **Every sequence of calls.** -/
theorem Kept.run (connected : Connected answers) (disciplined : Disciplined calls) :
    Kept calls (run answers calls) := by
  induction disciplined with
  | nil => exact .new connected
  | snoc _ plain alive first ih =>
    rw [run_snoc]
    exact (ih.step plain alive first).1

theorem run_last (connected : Connected answers) {call : DispatchCall}
    (disciplined : Disciplined (calls ++ [call])) :
    let d := run answers calls
    let d' := run answers (calls ++ [call])
    Logged d d' call.toMon call.toOthers ∧ Keeps (· ∈ closedBy calls) d d' := by
  obtain ⟨earlier, plain, alive, first⟩ := disciplined.last
  rw [run_snoc]
  exact ((Kept.run connected earlier).step plain alive first).2

/-- Of a connection that is closed nothing more comes or goes. -/
theorem run_keeps (connected : Connected answers) {before after : List DispatchCall}
    (disciplined : Disciplined (before ++ after)) :
    Keeps (· ∈ closedBy before) (run answers before) (run answers (before ++ after)) := by
  induction after using List.reverseRecOn with
  | nil =>
    rw [append_nil]
    exact .refl _ _
  | append_singleton after last ih =>
    rw [← append_assoc] at disciplined ⊢
    refine (ih disciplined.last.1).trans ((run_last connected disciplined).2.mono fun x gone => ?_)
    exact mem_closedBy.mpr (mem_append_left _ (mem_closedBy.mp gone))

/-- Something of the connection is parked. -/
def Holds (d : Dispatch reqs monitors negs) (c : Nat) : Prop :=
  ∃ w, ∃ e ∈ (d.lanes w).parked, connId e.1 = c

end Dispatch

section Statement

variable {T F : Type} [Routed T]

/-- **Messages enter the queue in the order they were sent**, and one that is neither in the queue
nor parked was dropped with its connection. -/
structure Lane.InOrder (closed : Finset Nat) (sent : List (T × Option F)) (lane : Lane T F) :
    Prop where
  order : (lane.passed ++ lane.parked).Sublist sent
  dropped : ∀ c ∉ closed, (lane.passed ++ lane.parked).filter (ofConn c) = sent.filter (ofConn c)

/-- **What follows the closing of a connection.** `opened` and `closed` are the lane before and after
it closed, `lane` is the lane at any later time. Of the connection there is what had entered the queue
and, if that is something, one `Close`. -/
def Lane.TornDown (close : Nat → T) (c : Nat) (opened closed lane : Lane T F) : Prop :=
  ∃ before, opened.passed.filter (ofConn c) <+: before ∧
    before <+: closed.passed.filter (ofConn c) ∧ (∀ e ∈ before, isClose e.1 = false) ∧
    (lane.passed ++ lane.parked).filter (ofConn c)
      = before ++ if before = [] then [] else [(close c, none)]

variable {close : Nat → T} {gone gone' : Finset Nat} {known known' : Nat → Prop}
  {sent sent' : List (T × Option F)} {opened closed lane : Lane T F} {c : Nat}

theorem Lane.Sound.tornDown (sound : opened.Sound close gone known sent)
    (sound' : closed.Sound close gone' known' sent') (ends : ∀ c, isClose (close c) = true)
    (alive : c ∉ gone) (shut : c ∈ gone') {others others' : Nat → Prop}
    (first : opened.Keeps others closed) (later : closed.Keeps others' lane) (other : others' c) :
    Lane.TornDown close c opened closed lane := by
  obtain ⟨before, inside, plain, all⟩ := sound'.last c shut
  refine ⟨before, ?_, inside, plain, (later.of c other).trans all⟩
  -- what had entered is no `Close`, so it is part of `before`
  have entered : opened.passed.filter (ofConn c) <+: closed.of c := by
    rw [Lane.of_eq]
    exact (first.passed.filter _).trans (prefix_append ..)
  rw [all] at entered
  split_ifs at entered with empty
  · rwa [append_nil] at entered
  · refine (prefix_concat_iff.mp entered).resolve_left fun is => ?_
    have member : (close c, none) ∈ opened.passed.filter (ofConn c) := is ▸ by simp
    obtain ⟨member, own⟩ := mem_filter.mp member
    have plain := sound.plain _ (mem_append_left _ member) (by rwa [of_decide_eq_true own])
    rw [ends] at plain
    cases plain

theorem Lane.count_eq_zero (lane : Lane T F) (c : Nat) :
    lane.count c = 0 ↔ ¬ ∃ e ∈ lane.parked, connId e.1 = c := by
  simp [Lane.count, countP_eq_zero, ofConn]

end Statement

omit [NeZero reqs] [NeZero monitors] [NeZero negs] in
theorem Dispatch.parked_eq_zero (d : Dispatch reqs monitors negs) (c : Nat) :
    d.parked c = 0 ↔ ¬ d.Holds c := by
  simp [Dispatch.parked, Finset.sum_eq_zero_iff, Lane.count_eq_zero, Dispatch.Holds]

/-- **Every ingester hands over in order.** Whatever the queues answer: every lane keeps what it is
given in order and drops a message only with its connection. What the lanes are given is, call by
call, the call's own messages and, behind the monitor messages that entered their queues and in their
order, the follow-ups of these. After a connection closes, nothing of it but one `Close` enters a
queue, if something of it had. The gate of an open connection is closed exactly when something of it
is parked. -/
theorem dispatch_hands_over (answers : Worker reqs monitors negs → Nat → Answer)
    (connected : Connected answers) (calls : List DispatchCall) (disciplined : Disciplined calls) :
    let d := Dispatch.run answers calls
    (∀ w, (d.lanes w).InOrder (closedBy calls) (givenTo d.log w)) ∧
    (∀ i, queuedAt i d.log = (d.lanes (.mon i)).passed) ∧
    (∀ before call after, calls = before ++ call :: after →
      Dispatch.Logged (Dispatch.run answers before) (Dispatch.run answers (before ++ [call]))
        call.toMon call.toOthers) ∧
    (∀ before c after, calls = before ++ .close c :: after → ∀ w,
      Lane.TornDown w.close c ((Dispatch.run answers before).lanes w)
        ((Dispatch.run answers (before ++ [.close c])).lanes w) (d.lanes w)) ∧
    ∀ c, .open c ∈ calls → .close c ∉ calls →
      ∃ gate, d.gates.open.lookup c = some gate ∧ (gate = false ↔ d.Holds c) := by
  intro d
  obtain ⟨sound, _⟩ := Dispatch.Kept.run connected disciplined
  have part : ∀ {before call after}, calls = before ++ call :: after →
      calls = (before ++ [call]) ++ after := fun split => by rw [split, append_cons]
  refine ⟨fun w => ?_, sound.queued, ?_, ?_, ?_⟩
  · refine ⟨(sound.lanes w).inOrder, fun c alive => (sound.lanes w).complete c fun gone => ?_⟩
    exact alive (Finset.mem_filter.mp gone).1
  · intro before call after split
    exact (Dispatch.run_last connected (part split ▸ disciplined).left).1
  · intro before c after split w
    have disciplined' : Disciplined (before ++ [.close c]) := (part split ▸ disciplined).left
    have earlier := disciplined'.last
    have alive : c ∉ closedBy before := fun gone => earlier.2.2.1 c rfl (mem_closedBy.mp gone)
    have gone : c ∈ closedBy (before ++ [.close c]) := mem_closedBy.mpr (by simp)
    obtain ⟨sound₁, _⟩ := Dispatch.Kept.run connected earlier.1
    obtain ⟨sound₂, _⟩ := Dispatch.Kept.run connected disciplined'
    have first := (Dispatch.run_last connected disciplined').2 w
    have later := Dispatch.run_keeps connected (part split ▸ disciplined) w
    rw [← part split] at later
    by_cases serves : w.serves c
    · exact (sound₁.lanes w).tornDown (sound₂.lanes w) (close_isClose w)
        (fun gone => alive (Finset.mem_filter.mp gone).1) (Finset.mem_filter.mpr ⟨gone, serves⟩)
        first later gone
    · have none := (sound₁.lanes w).of_unknown fun known => serves known.2
      rw [Lane.of_eq, append_eq_nil_iff] at none
      refine ⟨[], none.1 ▸ prefix_refl _, nil_prefix, by simp, ?_⟩
      exact (sound.lanes w).of_unknown fun known => serves known.2
  · intro c opened alive
    refine ⟨_, (sound.counts.gate c).trans (if_pos (mem_openBy.mpr ⟨opened, alive⟩)), ?_⟩
    rw [decide_eq_false_iff_not, Dispatch.parked_eq_zero, not_not]

/-- A subscription whose monitor is full waits, and its connection with it. A later message overtakes
its follow-up, which is handed over when the monitor has room, and the `Close` comes last. -/
theorem dispatch_hands_over_full :
    let answers : Worker 1 1 1 → Nat → Answer
      | .mon _, 0 => .full
      | _, _ => .ok
    let parked : List DispatchCall :=
      [.open 7, .subscription (.setAuth 7 [] 0) (.setAuth 7 [] 1), .req (.setAuth 7 [] 2)]
    let calls := parked ++ [.flush] ++ [.close 7]
    let d := Dispatch.run answers parked
    let d' := Dispatch.run answers calls
    d.Holds 7 ∧ d.gates.open.lookup 7 = some false ∧
      (d'.lanes (.req 0)).passed
        = [(.setAuth 7 [] 2, none), (.setAuth 7 [] 1, none), (.close 7, none)] ∧
      ∀ w, (d'.lanes w).InOrder (closedBy calls) (givenTo d'.log w) := by
  intro answers parked calls d d'
  have connected : Connected answers := by
    intro w n
    simp only [answers]
    split <;> simp
  have opened : Disciplined [.open 7] :=
    @Disciplined.snoc [] (.open 7) .nil trivial (by simp) (by simp)
  have subscribed : Disciplined
      ([.open 7] ++ [.subscription (.setAuth 7 [] 0) (.setAuth 7 [] 1)]) :=
    opened.snoc ⟨rfl, rfl, rfl⟩ (by simp) (by simp)
  have waits : Disciplined parked := @Disciplined.snoc _ (.req (.setAuth 7 [] 2)) subscribed rfl
    (by simp) (by simp)
  have flushed : Disciplined (parked ++ [.flush]) := waits.snoc trivial nofun nofun
  have disciplined : Disciplined calls := flushed.snoc trivial (by simp [parked]) (by simp)
  have holds : d.Holds 7 := ⟨.mon 0, _, mem_singleton_self _, rfl⟩
  obtain ⟨gate, found, is⟩ := (dispatch_hands_over answers connected parked waits).2.2.2.2 7
    (by simp [parked]) (by simp [parked])
  refine ⟨holds, found.trans (congrArg some (is.mpr holds)), ?_,
    (dispatch_hands_over answers connected calls disciplined).1⟩
  simp only [d', calls, parked, answers]
  rfl

end Runs

end Wok.Relay
