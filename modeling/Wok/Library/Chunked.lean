/-
**Loops that read ahead in chunks.**

Such a loop reads a bounded number of items, works on them one by one, and reads on from where it
is. It may stop after any item; a chunk that runs to the end of the items is its last one. After a
chunk the reader may meet the last item done once more, but never one before it.

* `Chunked.walk` — the loop; `Chunked.Sound` — what one read and one item have to do.
* `Chunked.Sound.walk` — **the loop ends: with every item done, or stopped after one.**
-/

import Mathlib.Logic.Basic
import Mathlib.Data.List.Basic
import Mathlib.Order.Nat
import Wok.Library.Result

namespace Wok.Library

/-- The parts of a loop over states `σ` and items `α`. -/
structure Chunked (σ α ε : Type) where
  /-- The next items, and whether they run to the end. -/
  read : σ → Except ε (σ × List α × Bool)
  work : σ → α → Except ε σ
  /-- Asked after each item. -/
  stops : σ → Bool
  exhausted : ε

namespace Chunked

variable {σ α ε : Type} (m : Chunked σ α ε)

/-- The items of a chunk; whether the loop stops in it. -/
def chunk : σ → List α → Except ε (σ × Bool)
  | s, [] => .ok (s, false)
  | s, a :: rest => do
    let s ← m.work s a
    if m.stops s then return (s, true) else chunk s rest

/-- Chunk after chunk, for at most so many turns; whether the loop came to the end. -/
def walk : Nat → σ → Except ε (σ × Bool)
  | 0, _ => .error m.exhausted
  | turns + 1, s => do
    let (s, items, atEnd) ← m.read s
    let (s, stopped) ← m.chunk s items
    if stopped then return (s, false)
    else if atEnd then return (s, true)
    else walk turns s

/-- What a read and the work on an item do: `Left` are the items from a state on, `Later` says that
a state is not before another one, and two items lower the rank. -/
structure Sound (limit : Nat) (Left : σ → List α → Prop) (Later : σ → σ → Prop) (rank : σ → Nat) :
    Prop where
  two : 2 ≤ limit
  refl : ∀ s, Later s s
  trans : ∀ {s s' s''}, Later s s' → Later s' s'' → Later s s''
  read : ∀ {s l}, Left s l → ∃ s' l', m.read s = .ok (s', l'.take limit, decide (l'.length < limit)) ∧
    Left s' l' ∧ Later s s' ∧ rank s' = rank s
  work : ∀ {s a l}, Left s (a :: l) → ∃ s', m.work s a = .ok s' ∧ Left s' l ∧ Later s s' ∧
    rank s' ≤ rank s
  falls : ∀ {s a b l s' s''}, Left s (a :: b :: l) → m.work s a = .ok s' → m.work s' b = .ok s'' →
    rank s'' < rank s

namespace Sound

variable {m} {limit : Nat} {Left : σ → List α → Prop} {Later : σ → σ → Prop} {rank : σ → Nat}
variable {items rest : List α} {s : σ}

section Chunks

variable (sound : m.Sound limit Left Later rank)

include sound

theorem chunk (left : Left s (items ++ rest)) :
    ∃ s' stopped l, m.chunk s items = .ok (s', stopped) ∧ Left s' l ∧ Later s s' ∧
      rank s' ≤ rank s ∧ (stopped = false → l = rest) ∧ (stopped = true → items ≠ []) := by
  induction items generalizing s with
  | nil => exact ⟨s, false, rest, rfl, left, sound.refl s, le_rfl, fun _ => rfl, by simp⟩
  | cons a items ih =>
    obtain ⟨s₁, worked, next, later, lower⟩ := sound.work left
    simp only [Chunked.chunk, worked, ok_bind]
    by_cases stop : m.stops s₁ = true
    · rw [if_pos stop]
      exact ⟨s₁, true, items ++ rest, rfl, next, later, lower, by simp, by simp⟩
    · rw [if_neg stop]
      obtain ⟨s', stopped, l, run, left', later', lower', whole, _⟩ := ih next
      exact ⟨s', stopped, l, run, left', sound.trans later later', lower'.trans lower, whole,
        by simp⟩

/-- The first item of a chunk is worked on. A loop that stops in the chunk stops there, or the rank
is lower in the end. -/
theorem first {a : α} {s' : σ} {stopped : Bool} (left : Left s (a :: items ++ rest))
    (run : m.chunk s (a :: items) = .ok (s', stopped)) :
    ∃ s₁, m.work s a = .ok s₁ ∧ Later s₁ s' ∧
      (stopped = true → m.stops s₁ = true ∨ rank s' < rank s) := by
  obtain ⟨s₁, worked, next, _⟩ := sound.work left
  refine ⟨s₁, worked, ?_⟩
  simp only [Chunked.chunk, worked, ok_bind] at run
  split_ifs at run with stop
  · cases run
    exact ⟨sound.refl _, fun _ => .inl stop⟩
  · obtain ⟨_, _, _, again, _, later, _⟩ := sound.chunk next
    rw [run] at again
    cases again
    refine ⟨later, fun inside => .inr ?_⟩
    subst inside
    cases items with
    | nil => cases run
    | cons b items =>
      obtain ⟨s₂, worked', next', _⟩ := sound.work next
      have falls := sound.falls left worked worked'
      simp only [Chunked.chunk, worked', ok_bind] at run
      split_ifs at run
      · cases run
        exact falls
      · obtain ⟨_, _, _, again, _, _, lower, _⟩ := sound.chunk next'
        rw [run] at again
        cases again
        exact lower.trans_lt falls

theorem chunk_falls {a b : α} {s' : σ} (left : Left s (a :: b :: items ++ rest))
    (run : m.chunk s (a :: b :: items) = .ok (s', false)) : rank s' < rank s := by
  obtain ⟨s₁, worked, next, _⟩ := sound.work left
  obtain ⟨s₂, worked', next', _⟩ := sound.work next
  simp only [Chunked.chunk, worked, worked', ok_bind] at run
  split_ifs at run
  · cases run
  · cases run
  · obtain ⟨_, _, _, again, _, _, lower, _⟩ := sound.chunk next'
    rw [run] at again
    cases again
    exact lower.trans_lt (sound.falls left worked worked')

/-- **The loop ends**: with no item left, or stopped after an item; then it stopped after the first
one, or its rank fell. -/
theorem walk {turns : Nat} {l : List α} (left : Left s l) (enough : rank s < turns) :
    ∃ s' walked l', m.walk turns s = .ok (s', walked) ∧ Left s' l' ∧ Later s s' ∧
      rank s' ≤ rank s ∧ (walked = true → l' = []) ∧
      (walked = false → ∃ s₀ a items atEnd rest s₁, m.read s = .ok (s₀, a :: items, atEnd) ∧
        Left s₀ (a :: rest) ∧ Later s s₀ ∧ m.work s₀ a = .ok s₁ ∧ Later s₁ s' ∧
        (m.stops s₁ = true ∨ rank s' < rank s)) := by
  induction turns generalizing s l with
  | zero => exact absurd enough (Nat.not_lt_zero _)
  | succ turns ih =>
    obtain ⟨s₀, l₀, read, left₀, later₀, same⟩ := sound.read left
    have split : l₀.take limit ++ l₀.drop limit = l₀ := List.take_append_drop _ _
    rw [← split] at left₀
    obtain ⟨s', stopped, l', run, left', later', lower, whole, worked⟩ := sound.chunk left₀
    simp only [Chunked.walk, read, run, ok_bind]
    cases stopped with
    | true =>
      obtain ⟨a, items, taken⟩ := List.exists_cons_of_ne_nil (worked rfl)
      rw [taken] at left₀ run
      obtain ⟨s₁, work, after, how⟩ := sound.first left₀ run
      refine ⟨s', false, l', rfl, left', sound.trans later₀ later', same ▸ lower, by simp,
        fun _ => ⟨s₀, a, items, _, _, s₁, by rw [taken], left₀, later₀, work, after, ?_⟩⟩
      rw [← same]
      exact how rfl
    | false =>
      obtain rfl := whole rfl
      by_cases atEnd : l₀.length < limit
      · refine ⟨s', true, _, by simp [atEnd], left', sound.trans later₀ later', same ▸ lower,
          fun _ => ?_, by simp⟩
        exact List.drop_eq_nil_of_le atEnd.le
      · have longer : ∃ a b items, l₀.take limit = a :: b :: items := by
          match taken : l₀.take limit with
          | [] | [_] =>
            have lengths := congrArg List.length taken
            have := sound.two
            simp only [List.length_take, List.length_nil, List.length_singleton] at lengths
            omega
          | a :: b :: items => exact ⟨a, b, items, rfl⟩
        obtain ⟨a, b, items, taken⟩ := longer
        rw [taken] at left₀ run
        have falls : rank s' < rank s := same ▸ sound.chunk_falls left₀ run
        obtain ⟨s₁, work, after, _⟩ := sound.first left₀ run
        obtain ⟨s'', walked, l'', next, left'', later'', lower'', reached, _⟩ := ih left' (by omega)
        refine ⟨s'', walked, l'', ?_, left'', sound.trans (sound.trans later₀ later') later'',
          lower''.trans falls.le, reached, fun _ => ?_⟩
        · simp only [Bool.false_eq_true, if_false, atEnd, decide_false, next]
        · exact ⟨s₀, a, _, _, _, s₁, by rw [taken], left₀, later₀, work, sound.trans after later'',
            .inr (lower''.trans_lt falls)⟩

end Chunks

end Sound

end Chunked

end Wok.Library
