/-
**IP addresses and ranges of them.**

A range is an address and a number of leading bits, as `relay.trusted_proxies` lists them. An
IPv4-mapped IPv6 address is matched as its IPv4 address.
-/

import Mathlib.Data.List.Basic
import Mathlib.Tactic.SplitIfs

namespace Wok.Ws

/-- An address, by its bits. -/
inductive IpAddr
  | v4 (bits : BitVec 32)
  | v6 (bits : BitVec 128)
  deriving DecidableEq

/-- The IPv4 address inside `::ffff:0:0/96`. -/
def toIpv4Mapped (bits : BitVec 128) : Option (BitVec 32) :=
  if bits >>> 32 = 0xffff then some (bits.setWidth 32) else none

/-- An IPv4-mapped address as its IPv4 address. -/
def IpAddr.unmapped : IpAddr → IpAddr
  | .v4 bits => .v4 bits
  | .v6 bits => ((toIpv4Mapped bits).map .v4).getD (.v6 bits)

/-- Ones in the leading `prefixLen` of `w` bits: `MAX.checked_shl(w - prefix_len).unwrap_or(0)`. -/
def leadingOnes (w prefixLen : Nat) : BitVec w :=
  if w - prefixLen < w then BitVec.allOnes w <<< (w - prefixLen) else 0

/-- `ip` with all but its leading `prefixLen` bits cleared. -/
def masked (ip : IpAddr) (prefixLen : Nat) : Option IpAddr :=
  match ip with
  | .v4 bits => if prefixLen ≤ 32 then some (.v4 (bits &&& leadingOnes 32 prefixLen)) else none
  | .v6 bits => if prefixLen ≤ 128 then some (.v6 (bits &&& leadingOnes 128 prefixLen)) else none

/-- A range in CIDR notation. Its network has no other bits set, is not IPv4-mapped, and the range
does not hold every address. -/
structure IpRange where
  network : IpAddr
  prefixLen : Nat
  network_masked : masked network prefixLen = some network
  network_unmapped : network.unmapped = network
  prefixLen_ne : prefixLen ≠ 0

namespace IpRange

/-- Whether `ip` is in the range. -/
def contains (range : IpRange) (ip : IpAddr) : Bool :=
  masked ip.unmapped range.prefixLen = some range.network

end IpRange

end Wok.Ws
