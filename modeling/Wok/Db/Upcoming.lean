/-
**Reading ahead in chunks.**

A step that works through the events by local id reads them in chunks: a scan from the id after the
last one done hands rows over until the chunk is full. The step stops anywhere in a chunk, or goes
on with the next one; the scan that ends before its chunk is full has seen the newest event.

* `scanFold_chunk` — a scan that collects up to a limit takes a prefix, and says whether it ended.
* `ahead_eventsAfter` — **what a scan from the next id reads**: the events above the last one done.
-/

import Wok.Db.Keeps
import Wok.Library.Resumable

namespace Wok.Db

open Wok.Library Wok.Event List

/-! ### Chunks -/

/-- **A scan that collects up to a limit** takes a prefix, and says whether it ended before. -/
theorem scanFold_take {α σ : Type} {cb : σ → Bytes → Bytes → σ × Bool} {collected : List α → σ}
    {item : Kv → α} {limit : Nat} {rows : List Kv}
    (each : ∀ chunk, ∀ e ∈ rows, cb (collected chunk) e.1 e.2
      = (collected (chunk ++ [item e]), decide ((chunk ++ [item e]).length < limit)))
    {chunk : List α} (room : chunk.length < limit) :
    View.scanFold cb (collected chunk) rows
      = (collected (chunk ++ (rows.map item).take (limit - chunk.length)),
        decide (chunk.length + rows.length < limit)) := by
  induction rows generalizing chunk with
  | nil => simp [View.scanFold, room]
  | cons e rows ih =>
    obtain ⟨first, rest⟩ := forall_mem_cons.mp (fun e member chunk => each chunk e member)
    have left : limit - chunk.length = (limit - (chunk.length + 1)) + 1 := by omega
    rw [View.scanFold, first, map_cons, left, take_succ_cons]
    by_cases more : (chunk ++ [item e]).length < limit
    · simp only [more, decide_true, Bool.true_eq_false, if_false]
      rw [ih (fun chunk e member => rest e member chunk) more, append_assoc]
      have lengths : (chunk ++ [item e]).length = chunk.length + 1 := by simp
      rw [lengths, length_cons, Nat.add_right_comm, Nat.add_assoc]
      rfl
    · have full : limit - (chunk.length + 1) = 0 := by
        simp only [length_append, length_singleton] at more
        omega
      simp only [more, decide_false, if_true, full, take_zero, Prod.mk.injEq, true_and]
      simp only [length_append, length_singleton] at more
      exact (decide_eq_false (by simp only [length_cons]; omega)).symm

theorem scanFold_chunk {α σ : Type} {cb : σ → Bytes → Bytes → σ × Bool} (collected : List α → σ)
    {item : Kv → α} {limit : Nat} {rows : List Kv} (room : 0 < limit)
    (each : ∀ chunk, ∀ e ∈ rows, cb (collected chunk) e.1 e.2
      = (collected (chunk ++ [item e]), decide ((chunk ++ [item e]).length < limit))) :
    View.scanFold cb (collected []) rows
      = (collected ((rows.map item).take limit), decide ((rows.map item).length < limit)) := by
  have empty : ([] : List α).length < limit := room
  rw [scanFold_take each empty, nil_append, length_nil, Nat.sub_zero, Nat.zero_add,
    length_map]

/-! ### Events above a local id -/

/-- `saturating_add(1)`. -/
def nextId (lev : Nat) : Nat := min (lev + 1) (2 ^ 64 - 1)

/-- The records from the next local id on. -/
def eventsAfter (t : Tables) (done : Nat) : List Kv :=
  t.scan Dbis.event (u64NeBytes (nextId done)) [] false

/-- A stored event, with what is read of it. -/
def StoredWith {α : Type} (t : Tables) (read : PackedEvent → α) (x : Nat × α) : Prop :=
  ∃ p, Holds t x.1 p ∧ x.2 = read p

/-- At the greatest id of all, which has no next one, an event is read again. -/
def IsLastId (done : Nat) : Prop := done = 2 ^ 64 - 1

section Upcoming

variable {host : Host} {t : Tables} {α : Type} {read : PackedEvent → α} {done lev : Nat}

theorem nextId_le (above : done < lev) : nextId done ≤ lev := by
  unfold nextId
  omega

theorem lt_or_last (small : done < 2 ^ 64) (bound : lev < 2 ^ 64) (next : nextId done ≤ lev) :
    done < lev ∨ lev = done ∧ IsLastId done := by
  unfold nextId at next
  unfold IsLastId
  omega

/-- **What a scan from the next id reads.** -/
theorem ahead_eventsAfter (exact : Exact host t) (bound : done < 2 ^ 64) {item : Kv → Nat × α}
    (reads : ∀ lev p, Holds t lev p → item (u64NeBytes lev, p.buf) = (lev, read p)) :
    Ahead (StoredWith t read) Prod.fst IsLastId done ((eventsAfter t done).map item) := by
  have small : nextId done < 2 ^ 64 := by
    unfold nextId
    omega
  have row : ∀ {e}, e ∈ eventsAfter t done →
      ∃ lev p, Holds t lev p ∧ nextId done ≤ lev ∧ e = (u64NeBytes lev, p.buf) := by
    intro e member
    obtain ⟨stored, side⟩ := Tables.mem_scan.mp member
    obtain ⟨lev, p, held, rfl⟩ := exact.records e stored
    exact ⟨lev, p, held, (onSide_event held.1 small p.buf).mp side, rfl⟩
  refine ⟨pairwise_map.mpr ?_, ?_, ?_⟩
  · refine (Tables.scan_sorted t Dbis.event _ [] false).imp_of_mem fun {a b} first second less => ?_
    obtain ⟨m, p, held, _, rfl⟩ := row first
    obtain ⟨n, q, held', _, rfl⟩ := row second
    rw [if_neg (by decide), Tables.entryCode_plain (by decide), Tables.entryCode_plain (by decide),
      ← not_le, keyPrefix_event held'.1 held.1, not_le] at less
    rw [reads m p held, reads n q held']
    exact less
  · intro x member
    obtain ⟨e, scanned, rfl⟩ := mem_map.mp member
    obtain ⟨lev, p, held, above, rfl⟩ := row scanned
    rw [reads lev p held]
    exact ⟨⟨p, held, rfl⟩, lt_or_last bound held.1 above⟩
  · rintro ⟨lev, what⟩ ⟨p, held, rfl⟩ above
    refine mem_map.mpr ⟨(u64NeBytes lev, p.buf), Tables.mem_scan.mpr ⟨held.2, ?_⟩,
      reads lev p held⟩
    exact (onSide_event held.1 small p.buf).mpr (nextId_le above)

end Upcoming

end Wok.Db
