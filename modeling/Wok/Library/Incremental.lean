/-
**Machines that read their input in pieces.**

An `Incremental` machine takes a step when its buffer holds enough, waits when it does not, and
fails on what cannot become right. What it has decided must not change with more input: a failure
stays, and a step is the same step with the new input behind.

* `Steps` — several steps, with what they put out; `Steps.give` — **more input changes none of
  them**.
* `Ends` — the steps from a state until the machine waits or fails; `Ends.unique` — **there is one
  such end**.
* `Ends.of_later` — a failure before all input is there is the failure of all of it.
-/

import Mathlib.Logic.Basic
import Mathlib.Data.List.Basic

namespace Wok.Library

/-- A machine over states `σ` with input `α`, output `β` and failures `ε`. -/
structure Incremental (σ α β ε : Type) where
  /-- One step and its output, or nothing when the machine waits for input. -/
  step : σ → Except ε (Option (σ × List β))
  /-- Puts input behind what is buffered. -/
  give : σ → List α → σ
  /-- What a step uses up. -/
  size : σ → Nat
  give_append : ∀ s c d, give (give s c) d = give s (c ++ d)
  shrinks : ∀ {s s' out}, step s = .ok (some (s', out)) → size s' < size s
  failed : ∀ {s e} (c), step s = .error e → step (give s c) = .error e
  taken : ∀ {s s' out} (c), step s = .ok (some (s', out)) →
    step (give s c) = .ok (some (give s' c, out))

namespace Incremental

variable {σ α β ε : Type} (m : Incremental σ α β ε)

/-- Steps of the machine with their output. -/
inductive Steps : σ → List β → σ → Prop
  | refl (s : σ) : Steps s [] s
  | head {s s' s'' : σ} {out out' : List β} (first : m.step s = .ok (some (s', out)))
      (rest : Steps s' out' s'') : Steps s (out ++ out') s''

/-- Where the machine comes to without more input. -/
inductive Ends : σ → Except ε (σ × List β) → Prop
  | waits {s s' : σ} {out : List β} (steps : m.Steps s out s') (rest : m.step s' = .ok none) :
      Ends s (.ok (s', out))
  | fails {s s' : σ} {out : List β} {e : ε} (steps : m.Steps s out s')
      (failure : m.step s' = .error e) : Ends s (.error e)

variable {m}
variable {out : List β} {s s' : σ} {r : Except ε (σ × List β)}

theorem Steps.single (step : m.step s = .ok (some (s', out))) : m.Steps s out s' := by
  have steps := Steps.head step (.refl s')
  rwa [List.append_nil] at steps

theorem Steps.trans {s'' : σ} {out' : List β} (first : m.Steps s out s')
    (rest : m.Steps s' out' s'') : m.Steps s (out ++ out') s'' := by
  induction first with
  | refl s => exact rest
  | head step _ ih =>
    rw [List.append_assoc]
    exact .head step (ih rest)

/-- **More input changes no step.** -/
theorem Steps.give (steps : m.Steps s out s') (c : List α) :
    m.Steps (m.give s c) out (m.give s' c) := by
  induction steps with
  | refl s => exact .refl _
  | head step _ ih => exact .head (m.taken c step) ih

theorem Ends.of_steps (steps : m.Steps s out s') (ends : m.Ends s' r) :
    m.Ends s (r.map fun p => (p.1, out ++ p.2)) := by
  cases ends with
  | waits rest waiting => exact .waits (steps.trans rest) waiting
  | fails rest failure => exact .fails (steps.trans rest) failure

/-- A failure before all input is there is the failure of all of it. -/
theorem Ends.of_later {e : ε} (ends : m.Ends s (.error e)) (c : List α) :
    m.Ends (m.give s c) (.error e) := by
  cases ends with
  | fails steps failure => exact .fails (steps.give c) (m.failed c failure)

/-- From a state that takes a step the end is that of the next state. -/
theorem Ends.head (step : m.step s = .ok (some (s', out))) (ends : m.Ends s r) :
    ∃ r', m.Ends s' r' ∧ r = r'.map fun p => (p.1, out ++ p.2) := by
  cases ends with
  | waits steps waiting =>
    cases steps with
    | refl => simp [step] at waiting
    | head first rest =>
      obtain ⟨rfl, rfl⟩ : _ ∧ _ := by simpa [step] using first
      exact ⟨_, .waits rest waiting, rfl⟩
  | fails steps failure =>
    cases steps with
    | refl => simp [step] at failure
    | head first rest =>
      obtain ⟨rfl, rfl⟩ : _ ∧ _ := by simpa [step] using first
      exact ⟨_, .fails rest failure, rfl⟩

/-- **The end is one.** -/
theorem Ends.unique {r' : Except ε (σ × List β)} (ends : m.Ends s r) (ends' : m.Ends s r') :
    r = r' := by
  -- Induction on what is buffered: a step leads both to the ends of the next state.
  induction size : m.size s using Nat.strongRecOn generalizing s r r' with
  | _ n ih =>
    cases stepped : m.step s with
    | error e =>
      have failed : ∀ {r}, m.Ends s r → r = .error e := by
        intro r ends
        cases ends with
        | waits steps | fails steps => cases steps <;> simp_all
      rw [failed ends, failed ends']
    | ok next =>
      cases next with
      | none =>
        have waited : ∀ {r}, m.Ends s r → r = .ok (s, []) := by
          intro r ends
          cases ends with
          | waits steps | fails steps => cases steps <;> simp_all
        rw [waited ends, waited ends']
      | some next =>
        obtain ⟨r₁, after, rfl⟩ := ends.head stepped
        obtain ⟨r₂, after', rfl⟩ := ends'.head stepped
        rw [ih _ (size ▸ m.shrinks stepped) after after' rfl]

end Incremental

end Wok.Library
