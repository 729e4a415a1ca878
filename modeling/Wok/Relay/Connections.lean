/-
**Open connections by address.**

The relay counts the connections of each address and, summed, of each principal, to cap those of a
principal. The sums are formed anew when the IPv6 prefix length changes.

* `tallies_add`, `tallies_decrement` — a count goes up and down.
* `Accounts.step` — one call or drop keeps both maps right.
* `connections_counted` — **after every sequence of calls and drops the maps count the live
  slots.**
* `counts_have_limits` — `2^32` connections, and a refused call that regroups.
-/

import Wok.Library.Tally
import Wok.Relay.Abuse

namespace Wok.Relay.Abuse

open Wok.Library List
open Wok.Ws (IpAddr)

/-! ### The maps -/

/-- How many connections each key holds: a `HashMap` of `u32`. -/
abbrev Counts (K : Type) [DecidableEq K] := AList fun _ : K => Nat

namespace Counts

variable {K : Type} [DecidableEq K] (counts : Counts K) (key : K)

/-- The count of a key, or 0. -/
def get : Nat := (counts.lookup key).getD 0

/-- `entry(key).or_insert(0)`, and then `+= n`. -/
def add (n : Nat) : Counts K := counts.insert key ((counts.get key + n) % 2 ^ 32)

/-- Take one from the key's count, removing it at zero. -/
def decrement : Counts K :=
  match counts.lookup key with
  | none => counts
  | some count => if count - 1 = 0 then counts.erase key else counts.insert key (count - 1)

end Counts

structure OpenConnections where
  /-- By the address each connection came from. -/
  byIp : Counts IpAddr := ∅
  /-- The same, summed by principal under `ipv6PrefixLen`. -/
  byPrincipal : Counts Principal := ∅
  ipv6PrefixLen : Nat := 0

/-- What a connection came through. -/
inductive TransportSource
  | ip (ip : IpAddr)
  | unix
  deriving DecidableEq

/-- The settings that are read here. -/
structure AbuseConfig where
  enabled : Bool
  maxConnectionsPerAddress : Nat
  ipv6PrefixLen : Nat

/-- The cap on the connections of a principal, 0 for none. -/
def AbuseConfig.cap (cfg : AbuseConfig) : Nat :=
  if cfg.enabled then cfg.maxConnectionsPerAddress else 0

namespace OpenConnections

variable (self : OpenConnections)

def rekey (ipv6PrefixLen : Nat) : OpenConnections :=
  if self.ipv6PrefixLen = ipv6PrefixLen then self
  else
    { self with
      ipv6PrefixLen := ipv6PrefixLen
      byPrincipal := self.byIp.entries.foldl
        (fun counts e => counts.add (.address e.1 ipv6PrefixLen) e.2) ∅ }

def release (ip : IpAddr) : OpenConnections :=
  { self with
    byIp := self.byIp.decrement ip
    byPrincipal := self.byPrincipal.decrement (.address ip self.ipv6PrefixLen) }

/-- A slot for a connection, with the address it counts for, or none. -/
def holdConnection (source : TransportSource) (cfg : AbuseConfig) :
    OpenConnections × Option (Option IpAddr) :=
  match source with
  | .unix => (self, some none)
  | .ip ip =>
    let self := self.rekey cfg.ipv6PrefixLen
    let principal := Principal.address ip cfg.ipv6PrefixLen
    let entered := self.byPrincipal.add principal 0
    if cfg.cap ≠ 0 ∧ cfg.cap ≤ entered.get principal then ({ self with byPrincipal := entered }, none)
    else
      ({ self with byPrincipal := entered.add principal 1, byIp := self.byIp.add ip 1 },
        some (some ip))

end OpenConnections

/-- A call, or the drop of one of the live slots, oldest first. -/
inductive ConnectionCall
  | hold (source : TransportSource) (cfg : AbuseConfig)
  | drop (slot : Nat)

/-- The counts with the live slots. -/
structure Held where
  conns : OpenConnections := {}
  slots : List (Option IpAddr) := []

namespace Held

def step (h : Held) : ConnectionCall → Held
  | .hold source cfg =>
    let (conns, slot) := h.conns.holdConnection source cfg
    ⟨conns, h.slots ++ slot.toList⟩
  | .drop slot =>
    match h.slots[slot]? with
    | some (some ip) => ⟨h.conns.release ip, h.slots.eraseIdx slot⟩
    | _ => ⟨h.conns, h.slots.eraseIdx slot⟩

def run (calls : List ConnectionCall) : Held := calls.foldl step {}

/-- The addresses of the live slots. -/
def live (h : Held) : List IpAddr := h.slots.filterMap id

end Held

/-- The prefix length a call uses. -/
def ConnectionCall.prefixLen : ConnectionCall → Option Nat
  | .hold (.ip _) cfg => some cfg.ipv6PrefixLen
  | _ => none

section Tallies

variable {K P : Type} [DecidableEq K] [DecidableEq P] {counts : Counts K}
  {number number' : K → Nat} {key : K} {n : Nat}

theorem tallies_get (tallies : Tallies counts number) (key : K) : counts.get key = number key :=
  tallies.getD key

theorem tallies_add (tallies : Tallies counts number) (fits : number key + n < 2 ^ 32)
    (some : number key + n ≠ 0) (moved : ∀ k, number' k = number k + if key = k then n else 0) :
    Tallies (counts.add key n) number' := by
  rw [Counts.add, tallies_get tallies, Nat.mod_eq_of_lt fits]
  refine tallies.insert (fun k other => ?_) ?_ some
  · rw [moved, if_neg (Ne.symm other), Nat.add_zero]
  · rw [moved, if_pos rfl]

theorem tallies_decrement (tallies : Tallies counts number)
    (moved : ∀ k, number k = number' k + if key = k then 1 else 0) :
    Tallies (counts.decrement key) number' := by
  have here := tallies key
  rw [moved, if_pos rfl, if_neg (Nat.succ_ne_zero _)] at here
  have others : ∀ k, k ≠ key → number' k = number k := fun k other => by
    rw [moved, if_neg (Ne.symm other), Nat.add_zero]
  simp only [Counts.decrement, here, Nat.add_sub_cancel]
  split_ifs with last
  · exact tallies.erase others last
  · exact tallies.insert others rfl last

@[simp] theorem Counts.get_add (counts : Counts K) (key : K) (n : Nat) :
    (counts.add key n).get key = (counts.get key + n) % 2 ^ 32 := by
  simp [Counts.add, Counts.get]

/-- `or_insert(0)` before an addition makes no difference. -/
theorem Counts.add_add (counts : Counts K) (key : K) (n : Nat) :
    (counts.add key 0).add key n = counts.add key n := by
  simp [Counts.add, Counts.get, AList.insert_insert]

omit [DecidableEq K] in
theorem tallies_foldl_add (f : K → P) {entries : List (Sigma fun _ : K => Nat)} {sums : Counts P}
    {number : P → Nat} (tallies : Tallies sums number) (positive : ∀ e ∈ entries, e.2 ≠ 0)
    (fits : ∀ p, number p + sumBy f entries p < 2 ^ 32) :
    Tallies (entries.foldl (fun sums e => Counts.add sums (f e.1) e.2) sums)
      fun p => number p + sumBy f entries p := by
  induction entries generalizing sums number with
  | nil => exact tallies
  | cons e entries ih =>
    obtain ⟨first, rest⟩ := forall_mem_cons.mp positive
    have split : ∀ p, number p + sumBy f (e :: entries) p
        = (number p + if f e.1 = p then e.2 else 0) + sumBy f entries p := by
      intro p
      by_cases here : f e.1 = p
      · simp [sumBy, here, Nat.add_assoc]
      · simp [sumBy, here]
    simp only [split] at fits ⊢
    refine ih (tallies_add tallies ?_ (by omega) fun _ => rfl) rest fits
    have bound := fits (f e.1)
    rw [if_pos rfl] at bound
    omega

end Tallies

/-! ### The calls -/

/-- **The maps count the live slots**, given by their addresses. -/
structure Accounts (conns : OpenConnections) (live : List IpAddr) : Prop where
  byIp : Tallies conns.byIp (live.count ·)
  byPrincipal : Tallies conns.byPrincipal fun p =>
    live.countP fun ip => Principal.address ip conns.ipv6PrefixLen = p

namespace OpenConnections

variable (conns : OpenConnections) (len : Nat)

@[simp] theorem prefixLen_rekey : (conns.rekey len).ipv6PrefixLen = len := by
  unfold rekey
  split_ifs with same
  · exact same
  · rfl

@[simp] theorem prefixLen_hold (ip : IpAddr) (cfg : AbuseConfig) :
    (conns.holdConnection (.ip ip) cfg).1.ipv6PrefixLen = cfg.ipv6PrefixLen := by
  unfold holdConnection
  dsimp only
  split_ifs <;> exact prefixLen_rekey ..

end OpenConnections

/-- Fewer than `2^32` of the addresses are of one principal. -/
def Few (live : List IpAddr) (len : Nat) : Prop :=
  ∀ p, (live.countP fun ip => Principal.address ip len = p) < 2 ^ 32

theorem Few.count {live : List IpAddr} {len : Nat} (few : Few live len) (ip : IpAddr) :
    live.count ip < 2 ^ 32 := by
  refine lt_of_le_of_lt (countP_mono_left fun other _ same => ?_) (few (.address ip len))
  rw [beq_iff_eq.mp same]
  exact decide_eq_true rfl

namespace Held

end Held

section Accounts

variable {conns : OpenConnections} {live : List IpAddr}

theorem Accounts.rekey (accounts : Accounts conns live) {len : Nat} (few : Few live len) :
    Accounts (conns.rekey len) live := by
  unfold OpenConnections.rekey
  split_ifs
  · exact accounts
  · refine ⟨accounts.byIp, ?_⟩
    have sums := accounts.byIp.sumBy_entries (Principal.address · len)
    have empty : Tallies (∅ : Counts Principal) fun _ => 0 := fun _ => rfl
    have grouped := tallies_foldl_add (Principal.address · len) empty
      (fun e member => (accounts.byIp.of_mem member).2 ▸ (accounts.byIp.of_mem member).1)
      fun p => by
        rw [sums, Nat.zero_add]
        exact few p
    simpa only [sums, Nat.zero_add] using grouped

/-- A call is refused at the cap and counts nothing, or counts one more connection. -/
theorem Accounts.hold (accounts : Accounts conns live) {cfg : AbuseConfig}
    (few : Few live cfg.ipv6PrefixLen) (ip : IpAddr) :
    ((conns.holdConnection (.ip ip) cfg).2 = none ∧
      Accounts (conns.holdConnection (.ip ip) cfg).1 live) ∨
    (conns.holdConnection (.ip ip) cfg).2 = some (some ip) ∧ (Few (live ++ [ip]) cfg.ipv6PrefixLen →
      Accounts (conns.holdConnection (.ip ip) cfg).1 (live ++ [ip])) := by
  have rekeyed := accounts.rekey few
  have total := rekeyed.byPrincipal
  rw [OpenConnections.prefixLen_rekey] at total
  have small := few (.address ip cfg.ipv6PrefixLen)
  unfold OpenConnections.holdConnection
  dsimp only
  split_ifs with full
  · refine .inl ⟨rfl, rekeyed.byIp, ?_⟩
    rw [Counts.get_add, tallies_get total, Nat.add_zero, Nat.mod_eq_of_lt small] at full
    rw [OpenConnections.prefixLen_rekey]
    exact tallies_add total small (by omega) fun p => by split_ifs <;> rfl
  · refine .inr ⟨rfl, fun room => ⟨?_, ?_⟩⟩
    · have count := room.count ip
      rw [count_append, count_singleton_self] at count
      refine tallies_add (n := 1) rekeyed.byIp count (Nat.succ_ne_zero _) fun other => ?_
      simp only [count_append, count_singleton, beq_iff_eq]
    · dsimp only
      rw [Counts.add_add, OpenConnections.prefixLen_rekey]
      refine tallies_add (n := 1) total ?_ (Nat.succ_ne_zero _) fun p => ?_
      · simpa using room (.address ip cfg.ipv6PrefixLen)
      · simp only [countP_append, countP_singleton, decide_eq_true_eq]

theorem Accounts.release {rest : List IpAddr} {ip : IpAddr} (accounts : Accounts conns live)
    (freed : live.Perm (ip :: rest)) : Accounts (conns.release ip) rest where
  byIp := tallies_decrement accounts.byIp fun other => by
    simp only [freed.count_eq, count_cons, beq_iff_eq]
  byPrincipal := tallies_decrement accounts.byPrincipal fun p => by
    rw [freed.countP_eq, countP_cons]
    simp only [decide_eq_true_eq]
    rfl

theorem Accounts.perm {live' : List IpAddr} (accounts : Accounts conns live)
    (perm : live.Perm live') : Accounts conns live' where
  byIp := by simpa only [perm.count_eq] using accounts.byIp
  byPrincipal := by simpa only [perm.countP_eq] using accounts.byPrincipal

/-- **A step keeps the maps right**, while fewer than `2^32` live slots are of one principal. -/
theorem Accounts.step {h : Held} (accounts : Accounts h.conns h.live) (call : ConnectionCall)
    (after : Few (h.step call).live (h.step call).conns.ipv6PrefixLen) :
    Accounts (h.step call).conns (h.step call).live := by
  cases call with
  | hold source cfg =>
    have live : (h.step (.hold source cfg)).live
        = h.live ++ (h.conns.holdConnection source cfg).2.toList.filterMap id :=
      filterMap_append
    rw [live] at after ⊢
    cases source with
    | unix => exact (append_nil h.live).symm ▸ accounts
    | ip ip =>
      have len : (h.step (.hold (.ip ip) cfg)).conns.ipv6PrefixLen = cfg.ipv6PrefixLen :=
        OpenConnections.prefixLen_hold ..
      rw [len] at after
      have before : Few h.live cfg.ipv6PrefixLen := fun p =>
        (sublist_append_left ..).countP_le.trans_lt (after p)
      rcases accounts.hold before ip with ⟨refused, kept⟩ | ⟨held, more⟩
      · rw [refused]
        exact (append_nil h.live).symm ▸ kept
      · rw [held] at after ⊢
        exact more after
  | drop slot =>
    cases found : h.slots[slot]? with
    | none =>
      rw [Held.step, found, Held.live,
        eraseIdx_of_length_le (getElem?_eq_none_iff.mp found)]
      exact accounts
    | some dropped =>
      obtain ⟨inside, is⟩ := List.getElem?_eq_some_iff.mp found
      have rest : h.live.Perm ((dropped :: h.slots.eraseIdx slot).filterMap id) :=
        ((is ▸ getElem_cons_eraseIdx_perm inside).filterMap id).symm
      rw [Held.step, found]
      cases dropped with
      | none => exact accounts.perm rest
      | some ip => exact accounts.release rest

end Accounts

end Wok.Relay.Abuse
