/-
**Maps of counts.**

A map keeps the number of each key, and has no entry for a key that has none.

* `Tallies.insert`, `Tallies.erase` — the number of one key changes.
* `Tallies.sumBy_entries` — **the numbers of the keys, summed by a property, count the list they
  are the counts of.**
-/

import Mathlib.Algebra.BigOperators.Group.List.Lemmas
import Mathlib.Algebra.Ring.Nat
import Mathlib.Data.List.AList

namespace Wok.Library

variable {K P : Type} [DecidableEq K] [DecidableEq P]

/-- The map has each key with its number, where that is not 0. -/
def Tallies (counts : AList fun _ : K => Nat) (number : K → Nat) : Prop :=
  ∀ key, counts.lookup key = if number key = 0 then none else some (number key)

/-- The counts of the keys that `f` sends to `p`. -/
def sumBy (f : K → P) (entries : List (Sigma fun _ : K => Nat)) (p : P) : Nat :=
  ((entries.filter fun e => f e.1 = p).map Sigma.snd).sum

namespace Tallies

variable {counts : AList fun _ : K => Nat} {number number' : K → Nat} {key : K} {n : Nat}

section Entries

variable (tallies : Tallies counts number)

include tallies

theorem getD (key : K) : (counts.lookup key).getD 0 = number key := by
  rw [tallies]
  split_ifs with zero
  · exact zero.symm
  · rfl

theorem of_mem {e : Sigma fun _ : K => Nat} (member : e ∈ counts.entries) :
    number e.1 ≠ 0 ∧ number e.1 = e.2 := by
  have found : counts.lookup e.1 = some e.2 := AList.mem_lookup_iff.mpr member
  rw [tallies] at found
  split_ifs at found with zero
  exact ⟨zero, Option.some.inj found⟩

theorem insert (others : ∀ k, k ≠ key → number' k = number k) (is : number' key = n)
    (some : n ≠ 0) : Tallies (counts.insert key n) number' := by
  intro k
  by_cases same : k = key
  · rw [same, AList.lookup_insert, is, if_neg some]
  · rw [AList.lookup_insert_ne same, others k same, tallies]

theorem erase (others : ∀ k, k ≠ key → number' k = number k) (none : number' key = 0) :
    Tallies (counts.erase key) number' := by
  intro k
  by_cases same : k = key
  · rw [same, AList.lookup_erase, if_pos none]
  · rw [AList.lookup_erase_ne same, others k same, tallies]

end Entries

theorem sumBy_entries {list : List K} (tallies : Tallies counts (list.count ·)) (f : K → P)
    (p : P) : sumBy f counts.entries p = list.countP fun key => f key = p := by
  have keys : counts.keys.Perm list.dedup := by
    refine (List.perm_ext_iff_of_nodup counts.keys_nodup list.nodup_dedup).mpr fun key => ?_
    rw [List.mem_dedup, ← AList.mem_keys, ← AList.lookup_isSome, tallies]
    split_ifs with zero
    · simp [List.count_eq_zero.mp zero]
    · simpa using List.count_pos_iff.mp (Nat.pos_of_ne_zero zero)
  calc sumBy f counts.entries p
      = ((counts.keys.filter fun key => f key = p).map fun key => list.count key).sum := by
        rw [sumBy, AList.keys, List.keys, List.filter_map, List.map_map]
        exact congrArg List.sum (List.map_congr_left fun e member =>
          (tallies.of_mem (List.mem_of_mem_filter member)).2.symm)
    _ = list.countP fun key => f key = p := by
        rw [((keys.filter _).map _).sum_eq]
        exact List.sum_map_count_dedup_filter_eq_countP _ list

end Tallies

end Wok.Library
