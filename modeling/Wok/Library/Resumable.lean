/-
**Walks in the order of a key, from a position.**

A loop that reads ahead in chunks walks through its items in the order of their keys and remembers
the key of the last one done. It resumes after that position, whether or not its item is still
there. At some positions the reader cannot ask for what comes strictly after, and meets the item
there `again`.

* `Ahead` — what is left after a position; `Ahead.next` — one item done.
* `Walks` — what a read and the work on an item have to do.
* `Walks.walk` — **the loop ends, with no item after its position or with fewer than before.**
-/

import Mathlib.Order.Lattice
import Wok.Library.Chunked

namespace Wok.Library

variable {σ α ε K : Type} [LinearOrder K]

/-- Every item after the position, in order; where `again` holds, the one at it too. -/
structure Ahead (all : α → Prop) (key : α → K) (again : K → Prop) (position : K) (l : List α) :
    Prop where
  sorted : l.Pairwise fun a b => key a < key b
  sound : ∀ a ∈ l, all a ∧ (position < key a ∨ key a = position ∧ again position)
  complete : ∀ a, all a → position < key a → a ∈ l

section Ahead

variable {all : α → Prop} {key : α → K} {again : K → Prop} {position : K} {a b : α} {l : List α}

section Head

variable (ahead : Ahead all key again position (a :: l))

include ahead

theorem Ahead.head : all a :=
  (ahead.sound a (.head _)).1

theorem Ahead.head_le : position ≤ key a := by
  rcases (ahead.sound a (.head _)).2 with above | ⟨same, _⟩
  · exact above.le
  · exact same.ge

/-- No item is between the position and the next one. -/
theorem Ahead.next_le (item : all b) (above : position < key b) : key a ≤ key b := by
  rcases List.mem_cons.mp (ahead.complete b item above) with rfl | later
  · exact le_rfl
  · exact ((List.pairwise_cons.mp ahead.sorted).1 b later).le

/-- **The next item is done.** -/
theorem Ahead.next : Ahead all key again (key a) l := by
  obtain ⟨first, rest⟩ := List.pairwise_cons.mp ahead.sorted
  refine ⟨rest, fun b member => ?_, fun b item above => ?_⟩
  · exact ⟨(ahead.sound b (.tail _ member)).1, .inl (first b member)⟩
  · rcases List.mem_cons.mp (ahead.complete b item (ahead.head_le.trans_lt above)) with rfl | inside
    · exact absurd above (lt_irrefl _)
    · exact inside

end Head

theorem Ahead.nothing (ahead : Ahead all key again position []) (item : all a) :
    key a ≤ position := by
  by_contra above
  cases ahead.complete a item (not_le.mp above)

end Ahead

/-- What a read and the work on an item do, on the states that satisfy `Inv`. Every item after a
position lowers its rank. -/
structure Walks (m : Chunked σ α ε) (limit : Nat) (Inv : σ → Prop) (position : σ → K)
    (all : α → Prop) (key : α → K) (again : K → Prop) (rank : K → Nat) : Prop where
  two : 2 ≤ limit
  read : ∀ {s}, Inv s → ∃ s' l, m.read s = .ok (s', l.take limit, decide (l.length < limit)) ∧
    Inv s' ∧ position s' = position s ∧ Ahead all key again (position s) l
  work : ∀ {s a l}, Inv s → Ahead all key again (position s) (a :: l) →
    ∃ s', m.work s a = .ok s' ∧ Inv s' ∧ position s' = key a
  lower : ∀ {k k'}, k ≤ k' → rank k' ≤ rank k
  falls : ∀ {k a}, all a → k < key a → rank (key a) < rank k

section Walks

variable {m : Chunked σ α ε} {limit : Nat} {Inv : σ → Prop} {position : σ → K} {all : α → Prop}
  {key : α → K} {again : K → Prop} {rank : K → Nat}

theorem Walks.sound (walks : Walks m limit Inv position all key again rank) :
    m.Sound limit (fun s l => Inv s ∧ Ahead all key again (position s) l)
      (fun s s' => position s ≤ position s') (fun s => rank (position s)) where
  two := walks.two
  refl _ := le_rfl
  trans first second := first.trans second
  read := by
    rintro s _ ⟨inv, _⟩
    obtain ⟨s', l, read, inv', same, ahead⟩ := walks.read inv
    exact ⟨s', l, read, ⟨inv', same ▸ ahead⟩, same.ge, by rw [same]⟩
  work := by
    rintro s a l ⟨inv, ahead⟩
    obtain ⟨s', work, inv', at_⟩ := walks.work inv ahead
    refine ⟨s', work, ⟨inv', at_ ▸ ahead.next⟩, ?_, ?_⟩
    · rw [at_]
      exact ahead.head_le
    · rw [at_]
      exact walks.lower ahead.head_le
  falls := by
    rintro s a b l s' s'' ⟨inv, ahead⟩ first second
    obtain ⟨_, work, inv', at_⟩ := walks.work inv ahead
    rw [← Except.ok.inj (first.symm.trans work)] at inv' at_
    have next : Ahead all key again (position s') (b :: l) := at_ ▸ ahead.next
    obtain ⟨_, work', _, at_'⟩ := walks.work inv' next
    rw [← Except.ok.inj (second.symm.trans work')] at at_'
    have less : key a < key b := (List.pairwise_cons.mp ahead.sorted).1 b (.head _)
    rw [at_']
    exact walks.falls next.head (ahead.head_le.trans_lt less)

/-- **The loop ends**: with no item after its position, or stopped with fewer items left. Only where
the reader meets an item again may it stop after that one without having passed any. -/
theorem Walks.walk (walks : Walks m limit Inv position all key again rank) {turns : Nat} {s : σ}
    (inv : Inv s) (enough : rank (position s) < turns) :
    ∃ s' walked, m.walk turns s = .ok (s', walked) ∧ Inv s' ∧ position s ≤ position s' ∧
      (walked = true → ∀ a, all a → key a ≤ position s') ∧
      (walked = false → rank (position s') < rank (position s) ∨
        again (position s) ∧ ∃ s₀ a items atEnd s₁, m.read s = .ok (s₀, a :: items, atEnd) ∧
          m.work s₀ a = .ok s₁ ∧ m.stops s₁ = true) := by
  obtain ⟨_, l, _, _, _, ahead⟩ := walks.read inv
  obtain ⟨s', walked, l', run, ⟨inv', ahead'⟩, later, _, reached, progress⟩ :=
    walks.sound.walk ⟨inv, ahead⟩ enough
  refine ⟨s', walked, run, inv', later, fun whole a item => ?_, fun stopped => ?_⟩
  · have last := reached whole
    subst last
    exact ahead'.nothing item
  · obtain ⟨s₀, a, items, atEnd, rest, s₁, read, ⟨inv₀, ahead₀⟩, before, work, after, how⟩ :=
      progress stopped
    obtain ⟨_, worked, _, at_⟩ := walks.work inv₀ ahead₀
    rw [← Except.ok.inj (work.symm.trans worked)] at at_
    rw [at_] at after
    rcases how with stop | falls
    · rcases (before.trans ahead₀.head_le).lt_or_eq with less | equal
      · exact .inl ((walks.lower after).trans_lt (walks.falls ahead₀.head less))
      · -- the first item is the one at the position
        have same : position s₀ = position s := le_antisymm (equal ▸ ahead₀.head_le) before
        rcases (ahead₀.sound a (.head _)).2 with above | ⟨_, meets⟩
        · exact absurd above (not_lt.mpr (same ▸ equal.ge))
        · exact .inr ⟨same ▸ meets, s₀, a, items, atEnd, s₁, read, work, stop⟩
    · exact .inl falls

end Walks

end Wok.Library
