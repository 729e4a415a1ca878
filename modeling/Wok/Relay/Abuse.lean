/-
**The rate limiter's token buckets.**

A bucket counts what was spent and not yet refilled, per principal and kind of budget. Every 4096th
check drops the buckets last used more than ten minutes before it. Amounts and instants are
rational numbers here, where the relay has `f64` and `Instant`.

* `owed_forgetStale` — a bucket is dropped only once it is full again, when ten minutes refill a
  whole burst;
* `log_within` — what one key is admitted from an instant on, against what it owes there;
* `admissions_within_window` — **in any window one key is admitted its burst and what is refilled
  in the window.**
* `spaced_admitted` — checks a token's time apart all pass.
-/

import Mathlib.Algebra.Order.Field.Rat
import Mathlib.Tactic.Linarith
import Mathlib.Tactic.NormNum.Ineq
import Mathlib.Tactic.Positivity.Basic
import Wok.Ws.IpRange

namespace Wok.Relay.Abuse

open List

open Wok.Ws (IpAddr leadingOnes)

inductive BudgetKind
  | connection
  | event
  | req
  | count
  | invalid
  deriving DecidableEq

/-- The outcome of a check: the first refusal since an admission is told apart. -/
inductive Admission
  | admitted
  | firstRefusal
  | refused
  deriving DecidableEq

/-- Whom a budget belongs to: an IPv4 address, an IPv6 network or a public key, by its bits. -/
inductive Principal
  | v4 (bits : BitVec 32)
  | v6 (network : BitVec 128)
  | pubkey (key : BitVec 256)
  deriving DecidableEq

/-- The principal of an address. -/
def Principal.address (ip : IpAddr) (ipv6PrefixLen : Nat) : Principal :=
  match ip with
  | .v4 bits => .v4 bits
  | .v6 bits => .v6 (bits &&& leadingOnes 128 (min ipv6PrefixLen 128))

/-! ### A bucket -/

structure Bucket where
  /-- Tokens taken and not yet refilled. -/
  spent : ℚ
  last : ℚ
  refusalReported : Bool

namespace Bucket

def new (now : ℚ) : Bucket := ⟨0, now, false⟩

/-- What is left of `spent` at `now`. The time since `last` saturates at zero. -/
def owed (bucket : Bucket) (now : ℚ) (ratePerSecond : Nat) : ℚ :=
  max (bucket.spent - max (now - bucket.last) 0 * ratePerSecond) 0

def refill (bucket : Bucket) (now : ℚ) (ratePerSecond : Nat) : Bucket :=
  { bucket with spent := bucket.owed now ratePerSecond, last := now }

def hasToken (bucket : Bucket) (burst : Nat) : Bool := bucket.spent + 1 ≤ burst

def take (bucket : Bucket) : Bucket :=
  { bucket with spent := bucket.spent + 1, refusalReported := false }

/-- `Bucket::admit`. -/
def admits (bucket : Bucket) (now : ℚ) (ratePerSecond burst : Nat) : Admission × Bucket :=
  let bucket := bucket.refill now ratePerSecond
  if !bucket.hasToken burst then
    if bucket.refusalReported then (.refused, bucket)
    else (.firstRefusal, { bucket with refusalReported := true })
  else (.admitted, bucket.take)

end Bucket

/-! ### The controller -/

abbrev Key := Principal × BudgetKind

structure State where
  buckets : Key → Option Bucket
  checks : Nat

def State.initial : State := ⟨fun _ => none, 0⟩

/-- `Instant::checked_sub`: no instant is before the clock's `origin`. -/
def checkedSub (origin now seconds : ℚ) : Option ℚ :=
  if origin ≤ now - seconds then some (now - seconds) else none

/-- The buckets a cleanup at `now` keeps. -/
def forgetStale (origin now : ℚ) (buckets : Key → Option Bucket) : Key → Option Bucket :=
  let staleBefore := (checkedSub origin now 600).getD now
  fun key => (buckets key).filter fun bucket => staleBefore ≤ bucket.last

/-- A check counted, with the cleanup of every 4096th. -/
def State.counted (origin now : ℚ) (state : State) : State :=
  let checks := (state.checks + 1) % 2 ^ 64
  ⟨if checks % 4096 = 0 then forgetStale origin now state.buckets else state.buckets, checks⟩

/-- A check of a key against its rate and burst at an instant. -/
structure Check where
  now : ℚ
  key : Key
  ratePerSecond : Nat
  burst : Nat

/-- `AbuseController::admit`. -/
def State.admits (origin : ℚ) (state : State) (check : Check) : Admission × State :=
  if check.ratePerSecond = 0 ∨ check.burst = 0 then (.admitted, state)
  else
    let state := state.counted origin check.now
    let bucket := (state.buckets check.key).getD (.new check.now)
    let (admission, bucket) := bucket.admits check.now check.ratePerSecond check.burst
    (admission, { state with buckets := Function.update state.buckets check.key (some bucket) })

/-- The checks with their outcomes. -/
def log (origin : ℚ) (state : State) : List Check → List (Check × Admission)
  | [] => []
  | check :: rest =>
    (check, (state.admits origin check).1) :: log origin (state.admits origin check).2 rest

/-- The admissions of `key` from `start` to `finish`. -/
def admissions (key : Key) (start finish : ℚ) (outcomes : List (Check × Admission)) : Nat :=
  outcomes.countP fun (check, admission) =>
    check.key = key ∧ admission = .admitted ∧ start ≤ check.now ∧ check.now ≤ finish

/-! ### What a key owes -/

namespace Bucket

variable {bucket : Bucket} {now later : ℚ} {rate burst : Nat}

theorem owed_nonneg (bucket : Bucket) (now : ℚ) (rate : Nat) : 0 ≤ bucket.owed now rate :=
  le_max_right _ _

theorem owed_new : (new now).owed later rate = 0 :=
  max_eq_right (by
    have : 0 ≤ max (later - now) 0 * (rate : ℚ) := by positivity
    show 0 - max (later - now) 0 * (rate : ℚ) ≤ 0
    linarith)

theorem owed_at_last (nonneg : 0 ≤ bucket.spent) (used : bucket.last = now) :
    bucket.owed now rate = bucket.spent := by
  simp [owed, used, nonneg]

theorem owed_le_spent (nonneg : 0 ≤ bucket.spent) : bucket.owed now rate ≤ bucket.spent := by
  have : 0 ≤ max (now - bucket.last) 0 * (rate : ℚ) := by positivity
  exact max_le (by linarith) nonneg

/-- What is owed falls by no more than the rate. -/
theorem owed_le_later (ordered : now ≤ later) :
    bucket.owed now rate ≤ bucket.owed later rate + rate * (later - now) := by
  have refilled : max (later - bucket.last) 0 ≤ max (now - bucket.last) 0 + (later - now) :=
    max_le (by linarith [le_max_left (now - bucket.last) 0])
      (by linarith [le_max_right (now - bucket.last) 0])
  have scaled := mul_le_mul_of_nonneg_right refilled (Nat.cast_nonneg (α := ℚ) rate)
  have window : 0 ≤ (rate : ℚ) * (later - now) :=
    mul_nonneg (Nat.cast_nonneg _) (by linarith)
  have kept := le_max_left (bucket.spent - max (later - bucket.last) 0 * rate) 0
  have nonneg := bucket.owed_nonneg later rate
  refine max_le ?_ (by linarith)
  unfold owed
  linarith

/-- Ten minutes refill what is at most a burst. -/
theorem owed_stale (refills : burst ≤ 600 * rate) (within : bucket.spent ≤ burst)
    (stale : bucket.last < now - 600) : bucket.owed now rate = 0 := by
  have elapsed : 600 ≤ max (now - bucket.last) 0 := le_max_of_le_left (by linarith)
  have scaled := mul_le_mul_of_nonneg_right elapsed (Nat.cast_nonneg (α := ℚ) rate)
  have whole : (burst : ℚ) ≤ 600 * rate := by exact_mod_cast refills
  exact max_eq_right (by linarith)

theorem admits_token (token : bucket.owed now rate + 1 ≤ burst) :
    bucket.admits now rate burst = (.admitted, ⟨bucket.owed now rate + 1, now, false⟩) := by
  simp [admits, hasToken, refill, take, token]

/-- A check adds one to what is owed exactly when it admits, within the burst. -/
theorem admits_spec (room : bucket.owed now rate ≤ burst) :
    (0 ≤ (bucket.admits now rate burst).2.spent ∧ (bucket.admits now rate burst).2.spent ≤ burst) ∧
      (bucket.admits now rate burst).2.owed now rate = bucket.owed now rate +
        if (bucket.admits now rate burst).1 = .admitted then 1 else 0 := by
  have nonneg := bucket.owed_nonneg now rate
  by_cases token : bucket.owed now rate + 1 ≤ burst
  · have more : 0 ≤ bucket.owed now rate + 1 := by linarith
    rw [admits_token token, if_pos rfl]
    exact ⟨⟨more, token⟩, owed_at_last more rfl⟩
  · have answer : (bucket.admits now rate burst).1 ≠ .admitted ∧
        (bucket.admits now rate burst).2.spent = bucket.owed now rate ∧
          (bucket.admits now rate burst).2.last = now := by
      cases reported : bucket.refusalReported <;> simp [admits, hasToken, refill, token, reported]
    obtain ⟨refused, spent, used⟩ := answer
    rw [if_neg refused, add_zero, owed_at_last (spent ▸ nonneg) used, spent]
    exact ⟨⟨nonneg, room⟩, rfl⟩

end Bucket

/-- What a key owes at `now`; nothing without a bucket. -/
def owed (buckets : Key → Option Bucket) (key : Key) (now : ℚ) (rate : Nat) : ℚ :=
  ((buckets key).map (·.owed now rate)).getD 0

/-- The bucket of `key` has spent at most `burst`. -/
def Within (key : Key) (burst : Nat) (buckets : Key → Option Bucket) : Prop :=
  ∀ bucket, buckets key = some bucket → 0 ≤ bucket.spent ∧ bucket.spent ≤ burst

section Checks

variable {origin : ℚ} {key : Key} {rate burst : Nat} {buckets : Key → Option Bucket}
  {now later : ℚ} {state : State} {check : Check}

theorem owed_getD : ((buckets key).getD (.new now)).owed now rate = owed buckets key now rate := by
  unfold owed
  cases buckets key with
  | none => exact Bucket.owed_new
  | some bucket => rfl

theorem owed_update (bucket : Bucket) :
    owed (Function.update buckets key (some bucket)) key now rate = bucket.owed now rate := by
  simp [owed]

theorem owed_le_later (ordered : now ≤ later) :
    owed buckets key now rate ≤ owed buckets key later rate + rate * (later - now) := by
  unfold owed
  cases buckets key with
  | none => simpa using mul_nonneg (Nat.cast_nonneg (α := ℚ) rate) (sub_nonneg.mpr ordered)
  | some bucket => exact Bucket.owed_le_later ordered

theorem owed_nonneg : 0 ≤ owed buckets key now rate :=
  owed_getD ▸ Bucket.owed_nonneg _ _ _

theorem Within.owed_le (within : Within key burst buckets) (now : ℚ) (rate : Nat) :
    owed buckets key now rate ≤ burst := by
  unfold owed
  cases found : buckets key with
  | none => exact Nat.cast_nonneg _
  | some bucket =>
    obtain ⟨nonneg, atMost⟩ := within bucket found
    exact (Bucket.owed_le_spent nonneg).trans atMost

theorem Within.update {bucket : Bucket} (bounds : 0 ≤ bucket.spent ∧ bucket.spent ≤ burst) :
    Within key burst (Function.update buckets key (some bucket)) := by
  intro found here
  rw [Function.update_self, Option.some.injEq] at here
  exact here ▸ bounds

theorem Within.forgetStale (within : Within key burst buckets) :
    Within key burst (forgetStale origin now buckets) :=
  fun bucket kept => within bucket (Option.eq_some_of_filter_eq_some kept)

/-- **A cleanup drops a bucket only once it is full again.** -/
theorem owed_forgetStale (refills : burst ≤ 600 * rate) (reaches : origin ≤ now - 600)
    (within : Within key burst buckets) :
    owed (forgetStale origin now buckets) key now rate = owed buckets key now rate := by
  unfold owed forgetStale
  rw [checkedSub, if_pos reaches, Option.getD_some]
  cases found : buckets key with
  | none => simp
  | some bucket =>
    by_cases kept : now - 600 ≤ bucket.last
    · simp only [Option.filter_some, decide_eq_true kept, if_true]
    · have full := Bucket.owed_stale refills (within bucket found).2 (not_le.mp kept)
      simp [Option.filter_some, decide_eq_false kept, full, -tsub_le_iff_right]

theorem counted_spec (refills : burst ≤ 600 * rate) (reaches : origin ≤ now - 600)
    (within : Within key burst state.buckets) :
    Within key burst (state.counted origin now).buckets ∧
      owed (state.counted origin now).buckets key now rate = owed state.buckets key now rate := by
  unfold State.counted
  dsimp only
  split_ifs with cleanup
  · exact ⟨within.forgetStale, owed_forgetStale refills reaches within⟩
  · exact ⟨within, rfl⟩

/-- A check of another key leaves what `key` owes. -/
theorem admits_other (refills : burst ≤ 600 * rate) (reaches : origin ≤ check.now - 600)
    (within : Within key burst state.buckets) (other : check.key ≠ key) :
    Within key burst (state.admits origin check).2.buckets ∧
      owed (state.admits origin check).2.buckets key check.now rate =
        owed state.buckets key check.now rate := by
  unfold State.admits
  split_ifs with unlimited
  · exact ⟨within, rfl⟩
  · obtain ⟨within', same⟩ := counted_spec refills reaches within
    rw [← same]
    simpa [Within, owed, Function.update_of_ne other.symm] using within'

/-- **A check of `key` that admits adds one to what it owes, within its burst.** -/
theorem admits_own (refills : burst ≤ 600 * rate) (reaches : origin ≤ check.now - 600)
    (rated : check.ratePerSecond = rate ∧ check.burst = burst) (positive : 1 ≤ rate ∧ 1 ≤ burst)
    (within : Within check.key burst state.buckets) :
    Within check.key burst (state.admits origin check).2.buckets ∧
      owed (state.admits origin check).2.buckets check.key check.now rate =
        owed state.buckets check.key check.now rate +
          if (state.admits origin check).1 = .admitted then 1 else 0 := by
  obtain ⟨rfl, rfl⟩ := rated
  obtain ⟨within', same⟩ := counted_spec refills reaches within
  have room := within'.owed_le check.now check.ratePerSecond
  rw [← owed_getD] at room same
  rw [← same]
  unfold State.admits
  rw [if_neg (by omega)]
  dsimp only
  obtain ⟨bounds, owes⟩ := Bucket.admits_spec room
  exact ⟨.update bounds, (owed_update _).trans owes⟩

end Checks

/-! ### Whole runs -/

/-- Checks in the order of their instants, those of `key` at its rate and burst. -/
structure Steady (key : Key) (rate burst : Nat) (checks : List Check) : Prop where
  ordered : checks.Pairwise fun earlier later => earlier.now ≤ later.now
  rated : ∀ check ∈ checks, check.key = key → check.ratePerSecond = rate ∧ check.burst = burst

/-- The clock reaches ten minutes back at every check. -/
def Reaches (origin : ℚ) (checks : List Check) : Prop :=
  ∀ check ∈ checks, origin ≤ check.now - 600

section Runs

variable {origin : ℚ} {key : Key} {rate burst : Nat} {start finish : ℚ}
variable {state : State}

theorem Steady.tail {check : Check} {rest : List Check}
    (steady : Steady key rate burst (check :: rest)) : Steady key rate burst rest :=
  ⟨(pairwise_cons.mp steady.ordered).2,
    fun c member => steady.rated c (.tail _ member)⟩

/-- One check: what it counts in a window that holds it is what `key` owes more after it. -/
theorem admits_step (refills : burst ≤ 600 * rate) (positive : 1 ≤ rate ∧ 1 ≤ burst) {check : Check}
    {rest : List Check} (steady : Steady key rate burst (check :: rest))
    (reaches : origin ≤ check.now - 600) (within : Within key burst state.buckets) :
    Within key burst (state.admits origin check).2.buckets ∧
      owed (state.admits origin check).2.buckets key check.now rate =
        owed state.buckets key check.now rate +
          if check.key = key ∧ (state.admits origin check).1 = .admitted then 1 else 0 := by
  by_cases own : check.key = key
  · subst own
    have rated := steady.rated check mem_cons_self rfl
    simpa using admits_own refills reaches rated positive within
  · simpa [own] using admits_other refills reaches within own

theorem admissions_cons (outcome : Check × Admission) (rest : List (Check × Admission)) :
    admissions key start finish (outcome :: rest) = admissions key start finish rest +
      if outcome.1.key = key ∧ outcome.2 = .admitted ∧ start ≤ outcome.1.now ∧
        outcome.1.now ≤ finish then 1 else 0 := by
  simp [admissions, countP_cons]

theorem admissions_late {checks : List Check} (late : ∀ check ∈ checks, finish < check.now) :
    admissions key start finish (log origin state checks) = 0 := by
  induction checks generalizing state with
  | nil => rfl
  | cons check rest ih =>
    obtain ⟨past, later⟩ := forall_mem_cons.mp late
    rw [log, admissions_cons, ih later, if_neg fun all => past.not_ge all.2.2.2]

theorem Within.room {buckets : Key → Option Bucket} (within : Within key burst buckets) {since : ℚ}
    (ordered : since ≤ finish) :
    0 ≤ burst - owed buckets key since rate + rate * (finish - since) := by
  have window := mul_nonneg (Nat.cast_nonneg (α := ℚ) rate) (sub_nonneg.mpr ordered)
  have owes := within.owed_le since rate
  linarith

/-- **From an instant on, `key` is admitted what its burst leaves beside what it owes, and what is
refilled.** -/
theorem log_within (start : ℚ) (refills : burst ≤ 600 * rate) (positive : 1 ≤ rate ∧ 1 ≤ burst)
    {checks : List Check} {since : ℚ} (ordered : since ≤ finish)
    (after : ∀ check ∈ checks, since ≤ check.now) (steady : Steady key rate burst checks)
    (reaches : Reaches origin checks) (within : Within key burst state.buckets) :
    (admissions key start finish (log origin state checks) : ℚ) ≤
      burst - owed state.buckets key since rate + rate * (finish - since) := by
  induction checks generalizing state since with
  | nil => exact within.room ordered
  | cons check rest ih =>
    have later := after check mem_cons_self
    have behind := (pairwise_cons.mp steady.ordered).1
    obtain ⟨here, reaches'⟩ := forall_mem_cons.mp reaches
    by_cases inside : check.now ≤ finish
    · obtain ⟨within', owes⟩ := admits_step refills positive steady here within
      have rest := ih inside behind steady.tail reaches' within'
      have refilled : owed state.buckets key since rate ≤ _ := owed_le_later later
      rw [owes] at rest
      rw [log, admissions_cons]
      -- what the check counts is at most what it adds to what is owed
      by_cases counts : check.key = key ∧ (state.admits origin check).1 = .admitted
      · rw [if_pos counts] at rest
        split_ifs <;> push_cast <;> linarith
      · rw [if_neg counts] at rest
        rw [if_neg fun all => counts ⟨all.1, all.2.1⟩]
        push_cast
        linarith
    · have past := not_le.mp inside
      have late : ∀ c ∈ check :: rest, finish < c.now :=
        forall_mem_cons.mpr ⟨past, fun c member => past.trans_le (behind c member)⟩
      rw [admissions_late late]
      exact within.room ordered

/-- **In any window one key is admitted its burst and what is refilled in the window.** -/
theorem admissions_within_window (origin : ℚ) (key : Key) (rate burst : Nat)
    (positive : 1 ≤ rate ∧ 1 ≤ burst) (refills : burst ≤ 600 * rate) (checks : List Check)
    (steady : Steady key rate burst checks) (reaches : Reaches origin checks) (start finish : ℚ)
    (ordered : start ≤ finish) :
    (admissions key start finish (log origin .initial checks) : ℚ) ≤
      burst + rate * (finish - start) := by
  have fresh : Within key burst State.initial.buckets := by
    intro bucket found
    cases found
  generalize State.initial = state at fresh ⊢
  -- the checks before the window only move the state
  induction checks generalizing state with
  | nil =>
    have window := mul_nonneg (Nat.cast_nonneg (α := ℚ) rate) (sub_nonneg.mpr ordered)
    exact add_nonneg (Nat.cast_nonneg burst) window
  | cons check rest ih =>
    by_cases before : check.now < start
    · obtain ⟨here, reaches'⟩ := forall_mem_cons.mp reaches
      have within := (admits_step refills positive steady here fresh).1
      rw [log, admissions_cons, if_neg fun all => before.not_ge all.2.2.1]
      exact ih steady.tail reaches' _ within
    · have from' := not_lt.mp before
      have after : ∀ c ∈ check :: rest, start ≤ c.now := forall_mem_cons.mpr
        ⟨from', fun c member => from'.trans ((pairwise_cons.mp steady.ordered).1 c member)⟩
      have bounded := log_within start refills positive ordered after steady reaches fresh
      have owes : 0 ≤ owed state.buckets key start rate := owed_nonneg
      linarith

theorem admissions_within_window_three :
    Steady (.v4 1, .req) 1 2 (List.replicate 3 ⟨700, (.v4 1, .req), 1, 2⟩) ∧
      (admissions (.v4 1, .req) 700 701
        (log 0 .initial (List.replicate 3 ⟨700, (.v4 1, .req), 1, 2⟩)) : ℚ) ≤
          (2 : Nat) + (1 : Nat) * (701 - 700) := by
  have steady : Steady (.v4 1, .req) 1 2 (List.replicate 3 ⟨700, (.v4 1, .req), 1, 2⟩) :=
    ⟨by simp, by simp⟩
  exact ⟨steady, admissions_within_window 0 _ 1 2 (by decide) (by decide) _ steady
    (by norm_num [Reaches]) 700 701 (by norm_num)⟩

theorem owed_counted_le (state : State) (origin now later : ℚ) (key : Key) (rate : Nat) :
    owed (state.counted origin now).buckets key later rate ≤ owed state.buckets key later rate := by
  unfold State.counted forgetStale
  dsimp only
  split_ifs
  · cases found : state.buckets key with
    | none => simp [owed, found]
    | some bucket =>
      by_cases kept : (checkedSub origin now 600).getD now ≤ bucket.last
      · simp [owed, found, Option.filter_some, kept]
      · simpa [owed, found, Option.filter_some, kept] using bucket.owed_nonneg later rate
  · exact le_rfl

/-- **A key that keeps to its rate is never refused**: checks of it that leave time to refill a token
are all admitted, whatever other keys ask for and whenever buckets are dropped. -/
theorem spaced_admitted (origin : ℚ) (key : Key) (rate burst : Nat) (checks : List Check)
    (steady : Steady key rate burst checks) (spaced : checks.Pairwise fun earlier later =>
      earlier.key = key → later.key = key → (1 : ℚ) ≤ (later.now - earlier.now) * rate) :
    ∀ outcome ∈ log origin .initial checks, outcome.1.key = key → outcome.2 = .admitted := by
  -- at its next checks the key owes nothing
  have idle : ∀ c ∈ checks, c.key = key → owed State.initial.buckets key c.now rate ≤ 0 :=
    fun _ _ _ => le_rfl
  generalize State.initial = state at idle ⊢
  induction checks generalizing state with
  | nil => simp [log]
  | cons check rest ih =>
    obtain ⟨gaps, spaced⟩ := pairwise_cons.mp spaced
    obtain ⟨here, idle⟩ := forall_mem_cons.mp idle
    have step : (check.key = key → (state.admits origin check).1 = .admitted) ∧ ∀ c ∈ rest,
        c.key = key → owed (state.admits origin check).2.buckets key c.now rate ≤ 0 := by
      have owes := fun later => owed_counted_le state origin check.now later key rate
      unfold State.admits
      split_ifs with unlimited
      · exact ⟨fun _ => rfl, idle⟩
      · by_cases own : check.key = key
        · obtain ⟨rfl, rfl⟩ := steady.rated check mem_cons_self own
          subst own
          have full := (owes check.now).trans (here rfl)
          rw [← owed_getD] at full
          have burst : (1 : ℚ) ≤ check.burst := by exact_mod_cast (by omega : 1 ≤ check.burst)
          simp only [Bucket.admits_token (by linarith : _ + 1 ≤ (check.burst : ℚ)), owed_update]
          refine ⟨fun _ => trivial, fun c member same => ?_⟩
          have gap := gaps c member rfl same
          have refilled := mul_le_mul_of_nonneg_right (le_max_left (c.now - check.now) 0)
            (Nat.cast_nonneg (α := ℚ) check.ratePerSecond)
          exact max_le (by linarith) le_rfl
        · refine ⟨fun same => absurd same own, fun c member same => ?_⟩
          have less := (owes c.now).trans (idle c member same)
          simpa [owed, Function.update_of_ne (Ne.symm own)] using less
    rw [log, forall_mem_cons]
    exact ⟨step.1, ih steady.tail spaced _ step.2⟩

theorem spaced_admitted_two :
    (log 0 .initial [⟨1, (.v4 1, .req), 1, 1⟩, ⟨2, (.v4 1, .req), 1, 1⟩]).Forall fun outcome =>
      outcome.1.key = (.v4 1, .req) → outcome.2 = .admitted :=
  forall_iff_forall_mem.mpr
    (spaced_admitted 0 _ 1 1 _ ⟨by norm_num, by simp⟩ (by norm_num))

end Runs

/-! ### What a cleanup forgets -/

section Forgets

variable {origin : ℚ} {state : State} {check : Check} {start finish : ℚ}

/-- A check at the instant its bucket was last used, or without a bucket. -/
theorem admits_next {spent : Nat} (limited : 1 ≤ check.ratePerSecond ∧ spent + 1 ≤ check.burst)
    (found : owed (state.counted origin check.now).buckets check.key check.now
      check.ratePerSecond = spent) :
    (state.admits origin check).1 = .admitted ∧
      (state.admits origin check).2.checks = (state.checks + 1) % 2 ^ 64 ∧
        (state.admits origin check).2.buckets check.key =
          some ⟨(spent + 1 : Nat), check.now, false⟩ := by
  rw [← owed_getD] at found
  have token : (spent : ℚ) + 1 ≤ check.burst := by exact_mod_cast limited.2
  rw [← found] at token
  unfold State.admits
  rw [if_neg (by omega)]
  simp only [Bucket.admits_token token, found, Function.update_self]
  exact ⟨trivial, rfl, by push_cast; rfl⟩

/-- Checks at one instant spend the burst, when no later one of them is a cleanup. -/
theorem log_spends {n spent : Nat}
    (limited : 1 ≤ check.ratePerSecond ∧ spent + (n + 1) ≤ check.burst)
    (found : owed (state.counted origin check.now).buckets check.key check.now
      check.ratePerSecond = spent) (quiet : (state.checks + 1) % 4096 + n < 4096)
    (small : state.checks + 1 + n < 2 ^ 64) (inside : start ≤ check.now ∧ check.now ≤ finish)
    (rest : List Check) :
    ∃ state' : State, state'.checks = state.checks + (n + 1) ∧
      state'.buckets check.key = some ⟨(spent + (n + 1) : Nat), check.now, false⟩ ∧
      admissions check.key start finish (log origin state (List.replicate (n + 1) check ++ rest)) =
        admissions check.key start finish (log origin state' rest) + (n + 1) := by
  obtain ⟨admitted, checks, bucket⟩ := admits_next ⟨limited.1, by omega⟩ found
  rw [Nat.mod_eq_of_lt (by omega)] at checks
  rw [replicate_succ, cons_append, log, admissions_cons, if_pos ⟨rfl, admitted, inside⟩]
  induction n generalizing state spent with
  | zero => exact ⟨_, checks, bucket, rfl⟩
  | succ n ih =>
    have plain : ((state.admits origin check).2.counted origin check.now).buckets =
        (state.admits origin check).2.buckets := by
      unfold State.counted
      exact if_neg (by omega)
    have found' : owed ((state.admits origin check).2.counted origin check.now).buckets check.key
        check.now check.ratePerSecond = (spent + 1 : Nat) := by
      unfold owed
      rw [plain, bucket]
      exact Bucket.owed_at_last (Nat.cast_nonneg _) rfl
    obtain ⟨admitted', checks', bucket'⟩ := admits_next ⟨limited.1, by omega⟩ found'
    rw [Nat.mod_eq_of_lt (by omega)] at checks'
    obtain ⟨state', total, last, count⟩ := ih ⟨limited.1, by omega⟩ found' (by omega) (by omega)
      admitted' checks' bucket'
    refine ⟨state', by omega, ?_, ?_⟩
    · rw [last]
      congr 3
      omega
    · rw [replicate_succ, cons_append, log, admissions_cons,
        if_pos ⟨rfl, admitted', inside⟩, count]
      omega

/-- Checks of `key` that spend the burst `n + 1` at `start` and again at `finish`. -/
def twice (key : Key) (rate n : Nat) (start finish : ℚ) : List Check :=
  List.replicate (n + 1) ⟨start, key, rate, n + 1⟩ ++
    (List.replicate (n + 1) ⟨finish, key, rate, n + 1⟩ ++ [])

variable {key : Key} {rate n : Nat}

theorem mem_twice {check : Check} : check ∈ twice key rate n start finish ↔
    check = ⟨start, key, rate, n + 1⟩ ∨ check = ⟨finish, key, rate, n + 1⟩ := by
  simp [twice]

theorem steady_twice (ordered : start ≤ finish) :
    Steady key rate (n + 1) (twice key rate n start finish) := by
  refine ⟨?_, fun check member _ => ?_⟩
  · simp [twice, pairwise_append, pairwise_replicate, ordered]
  · rcases mem_twice.mp member with rfl | rfl <;> exact ⟨rfl, rfl⟩

/-- A burst spent before a cleanup that drops its bucket can be spent again. -/
theorem admissions_twice (positive : 1 ≤ rate) (cleanup : n = 4094) (ordered : start ≤ finish)
    (stale : start < (checkedSub origin finish 600).getD finish) :
    admissions key start finish (log origin .initial (twice key rate n start finish)) =
      (n + 1) + (n + 1) := by
  obtain ⟨state, checks, bucket, count⟩ := @log_spends origin .initial ⟨start, key, rate, n + 1⟩
    start finish n 0 ⟨positive, by simp⟩ (by simp [State.counted, State.initial, owed])
    (by simp [State.initial, cleanup]) (by simp [State.initial, cleanup]) ⟨le_rfl, ordered⟩
    (List.replicate (n + 1) ⟨finish, key, rate, n + 1⟩ ++ [])
  replace checks : state.checks = 4095 := by rw [checks, cleanup]; rfl
  have dropped : owed (state.counted origin finish).buckets key finish rate = (0 : Nat) := by
    have gone : forgetStale origin finish state.buckets key = none := by
      show (state.buckets key).filter _ = none
      rw [bucket, Option.filter_some, decide_eq_false (not_le.mpr stale)]
      rfl
    unfold State.counted owed
    simp [checks, gone]
  obtain ⟨state', -, -, count'⟩ := @log_spends origin state ⟨finish, key, rate, n + 1⟩ start finish
    n 0 ⟨positive, by simp⟩ dropped (by omega) (by omega) ⟨ordered, le_rfl⟩ []
  rw [twice, count, count']
  exact congrArg (· + (n + 1)) (Nat.zero_add _)

/-- **A cleanup gives back what ten minutes do not refill, and on a clock that does not reach ten
minutes back it drops every bucket.** The clock of Linux always reaches back, so there only the first
part can happen. -/
theorem cleanup_forgets_spending :
    (∃ checks, Steady (.v4 1, .req) 1 4095 checks ∧ Reaches 0 checks ∧
      (4095 : Nat) + (1 : Nat) * ((1601 : ℚ) - 1000) <
        admissions (.v4 1, .req) 1000 1601 (log 0 .initial checks)) ∧
    (∃ checks, Steady (.v4 1, .req) 7 4095 checks ∧ 4095 ≤ 600 * 7 ∧
      (4095 : Nat) + (7 : Nat) * ((3 / 2 : ℚ) - 1) <
        admissions (.v4 1, .req) 1 (3 / 2) (log 0 .initial checks)) := by
  refine ⟨⟨twice (.v4 1, .req) 1 4094 1000 1601, steady_twice (by norm_num), ?_, ?_⟩,
    ⟨twice (.v4 1, .req) 7 4094 1 (3 / 2), steady_twice (by norm_num), by decide, ?_⟩⟩
  · intro check member
    rcases mem_twice.mp member with rfl | rfl <;> norm_num
  · rw [admissions_twice le_rfl rfl (by norm_num) (by norm_num [checkedSub])]
    norm_num
  · rw [admissions_twice (by decide) rfl (by norm_num) (by norm_num [checkedSub])]
    norm_num

end Forgets

end Wok.Relay.Abuse
