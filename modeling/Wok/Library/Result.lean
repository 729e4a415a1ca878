/-
**Computations that can fail.**

`Except ε` programs are written with `okOr` (a missing value is an error), `ensure` (a check),
`onlyIf` (a check made in some cases) and bind. A successful run is taken apart with one rule for
each.

* `bind_eq_ok`, `okOr_eq_ok`, `ensure_eq_ok`, `onlyIf_eq_ok` — what a success says.
* `forM_eq_ok`, `mapM_eq_ok` — a loop succeeds when each of its calls does.
* `foldlM_preserves` — **an invariant of the step is an invariant of the loop.**
* `foldlM_total` — a loop whose steps all succeed succeeds.
* `foldlM_failed` — a loop that fails does so at one of its steps.
* `Avoids` — an error that does not occur, with a rule for each way to fail.
* `foldlM_component`, `foldlM_flag` — a part of the state that one element of the list sets, and a
  flag that any element may raise.
-/

import Mathlib.Logic.Basic
import Mathlib.Data.List.Basic

namespace Wok.Library

open List

variable {ε α β σ : Type}
variable {x : Except ε α} {a : α} {e : ε} {l : List α} {s s' : σ} {step : σ → α → Except ε σ}

/-- The value, or the error when there is none. -/
def okOr (o : Option α) (e : ε) : Except ε α :=
  match o with
  | some a => .ok a
  | none => .error e

/-- Fails with `e` unless the check holds. -/
def ensure (check : Prop) [Decidable check] (e : ε) : Except ε Unit :=
  if check then .ok () else .error e

/-- Runs a check only when it applies. -/
def onlyIf (applies : Prop) [Decidable applies] (check : Except ε Unit) : Except ε Unit :=
  if applies then check else .ok ()

@[simp] theorem bind_eq_ok {f : α → Except ε β} {b : β} :
    (x >>= f) = .ok b ↔ ∃ a, x = .ok a ∧ f a = .ok b := by
  cases x with
  | error e => simp [bind, Except.bind]
  | ok a => simp [bind, Except.bind]

@[simp] theorem pure_eq_ok {b : α} : (pure a : Except ε α) = .ok b ↔ a = b := by
  simp [pure, Except.pure]

@[simp] theorem ok_bind (a : α) (f : α → Except ε β) : (Except.ok a >>= f) = f a := rfl

@[simp] theorem okOr_eq_ok {o : Option α} : okOr o e = .ok a ↔ o = some a := by
  cases o <;> simp [okOr]

@[simp] theorem okOr_some (a : α) (e : ε) : okOr (some a) e = .ok a := rfl

@[simp] theorem ensure_eq_ok {check : Prop} [Decidable check] {u : Unit} :
    ensure check e = .ok u ↔ check := by
  unfold ensure
  split_ifs with holds <;> simp [holds]

@[simp] theorem onlyIf_eq_ok {applies : Prop} [Decidable applies] {check : Except ε Unit}
    {u : Unit} : onlyIf applies check = .ok u ↔ (applies → check = .ok ()) := by
  unfold onlyIf
  split_ifs with holds <;> simp [holds]

theorem ensure_of {check : Prop} [Decidable check] (holds : check) (e : ε) :
    ensure check e = .ok () := if_pos holds

@[simp] theorem map_eq_ok {f : α → β} {b : β} : x.map f = .ok b ↔ ∃ a, x = .ok a ∧ f a = b := by
  cases x <;> simp [Except.map]

theorem map_eq_error {f : α → β} : x.map f = .error e ↔ x = .error e := by
  cases x <;> simp [Except.map]

@[simp] theorem mapError_eq_ok {δ : Type} {f : ε → δ} : x.mapError f = .ok a ↔ x = .ok a := by
  cases x <;> simp [Except.mapError]

theorem forM_eq_ok {check : α → Except ε Unit} :
    l.forM check = .ok () ↔ ∀ a ∈ l, check a = .ok () := by
  induction l with
  | nil => simp [List.forM, pure, Except.pure]
  | cons a l ih =>
    show (check a >>= fun _ => l.forM check) = .ok () ↔ _
    rw [bind_eq_ok, forall_mem_cons, ← ih]
    constructor
    · rintro ⟨_, first, rest⟩
      exact ⟨first, rest⟩
    · rintro ⟨first, rest⟩
      exact ⟨(), first, rest⟩

/-- A mapped loop succeeds when each call does, with the results of the calls. -/
theorem mapM_eq_ok {f : α → Except ε β} {results : List β} (run : l.mapM f = .ok results) :
    (∀ a ∈ l, ∃ b, f a = .ok b) ∧
      ∀ b, b ∈ results ↔ ∃ a ∈ l, f a = .ok b := by
  induction l generalizing results with
  | nil =>
    rw [mapM_nil, pure_eq_ok] at run
    simp [← run]
  | cons a l ih =>
    rw [mapM_cons, bind_eq_ok] at run
    obtain ⟨first, made, run⟩ := run
    rw [bind_eq_ok] at run
    obtain ⟨rest, more, same⟩ := run
    rw [pure_eq_ok] at same
    obtain ⟨each, members⟩ := ih more
    refine ⟨forall_mem_cons.mpr ⟨⟨first, made⟩, each⟩, fun b => ?_⟩
    rw [← same, mem_cons, members, exists_mem_cons_iff, made, Except.ok.injEq, eq_comm]

/-- **An invariant of the step is an invariant of the loop.** -/
theorem foldlM_preserves (Inv : σ → Prop)
    (preserved : ∀ s a s', a ∈ l → Inv s → step s a = .ok s' → Inv s') (start : Inv s)
    (run : l.foldlM step s = .ok s') : Inv s' := by
  induction l generalizing s with
  | nil =>
    rw [foldlM_nil, pure_eq_ok] at run
    exact run ▸ start
  | cons a l ih =>
    rw [foldlM_cons, bind_eq_ok] at run
    obtain ⟨middle, first, rest⟩ := run
    exact ih (fun s b s' member => preserved s b s' (.tail a member))
      (preserved s a middle (.head _) start first) rest

/-- **A loop that fails** does so at the state it is in before some element. -/
theorem foldlM_failed {e : ε} (run : l.foldlM step s = .error e) :
    ∃ front a back middle, l = front ++ a :: back ∧ front.foldlM step s = .ok middle ∧
      step middle a = .error e := by
  induction l generalizing s with
  | nil => cases run
  | cons a l ih =>
    rw [foldlM_cons] at run
    cases first : step s a with
    | error other =>
      rw [first] at run
      exact ⟨[], a, l, s, rfl, rfl, first.trans run⟩
    | ok middle =>
      rw [first, ok_bind] at run
      obtain ⟨front, b, back, m, rfl, made, failed⟩ := ih run
      refine ⟨a :: front, b, back, m, rfl, ?_, failed⟩
      rw [foldlM_cons, first, ok_bind, made]

/-- A loop whose steps succeed from every state that keeps the invariant succeeds. -/
theorem foldlM_total (Inv : σ → Prop)
    (succeeds : ∀ s a, a ∈ l → Inv s → ∃ s', step s a = .ok s' ∧ Inv s') (start : Inv s) :
    ∃ s', l.foldlM step s = .ok s' ∧ Inv s' := by
  induction l generalizing s with
  | nil => exact ⟨s, rfl, start⟩
  | cons a l ih =>
    obtain ⟨middle, first, kept⟩ := succeeds s a (.head _) start
    obtain ⟨last, rest, final⟩ :=
      ih (fun s b member => succeeds s b (.tail a member)) kept
    refine ⟨last, ?_, final⟩
    rw [foldlM_cons, first, ok_bind, rest]

theorem foldlM_flatMap {expand : α → List β} {step : σ → β → Except ε σ}
    {outer : σ → α → Except ε σ} (each : ∀ s, ∀ a ∈ l, outer s a = (expand a).foldlM step s) (s : σ) :
    l.foldlM outer s = (l.flatMap expand).foldlM step s := by
  induction l generalizing s with
  | nil => rfl
  | cons a l ih =>
    rw [flatMap_cons, foldlM_append, foldlM_cons, each s a (.head _)]
    apply bind_congr
    exact fun s' => ih (fun s b member => each s b (.tail a member)) s'

/-- A component that only one element of the list can change. -/
theorem foldlM_component {γ : Type} (part : σ → γ) (relevant : α → Prop)
    (others : ∀ s a s', step s a = .ok s' → ¬relevant a → part s' = part s)
    (once : l.Pairwise fun a b => ¬(relevant a ∧ relevant b)) (run : l.foldlM step s = .ok s') :
    (∀ a ∈ l, ¬relevant a) ∧ part s' = part s ∨
      ∃ a ∈ l, relevant a ∧ ∃ before after, step before a = .ok after ∧ part before = part s ∧
        part s' = part after := by
  induction l generalizing s with
  | nil =>
    rw [foldlM_nil, pure_eq_ok] at run
    exact .inl ⟨by simp, run ▸ rfl⟩
  | cons a l ih =>
    rw [foldlM_cons, bind_eq_ok] at run
    obtain ⟨middle, first, rest⟩ := run
    obtain ⟨alone, later⟩ := pairwise_cons.mp once
    by_cases here : relevant a
    · refine .inr ⟨a, mem_cons_self .., here, s, middle, first, rfl, ?_⟩
      rcases ih later rest with ⟨_, same⟩ | ⟨b, member, again, _⟩
      · exact same
      · exact absurd ⟨here, again⟩ (alone b member)
    · have kept := others s a middle first here
      rcases ih later rest with ⟨none, same⟩ | ⟨b, member, found, before, after, made, was, same⟩
      · exact .inl ⟨forall_mem_cons.mpr ⟨here, none⟩, same.trans kept⟩
      · exact .inr ⟨b, mem_cons_of_mem a member, found, before, after, made,
          was.trans kept, same⟩

/-- A flag that some elements of the list raise. -/
theorem foldlM_flag (flag : σ → Bool) (raises : α → Prop)
    (each : ∀ s a s', step s a = .ok s' → (flag s' = true ↔ flag s = true ∨ raises a))
    (run : l.foldlM step s = .ok s') : flag s' = true ↔ flag s = true ∨ ∃ a ∈ l, raises a := by
  induction l generalizing s with
  | nil =>
    rw [foldlM_nil, pure_eq_ok] at run
    simp [run]
  | cons a l ih =>
    rw [foldlM_cons, bind_eq_ok] at run
    obtain ⟨middle, first, rest⟩ := run
    rw [ih rest, each s a middle first, exists_mem_cons_iff, or_assoc]

/-- A loop whose steps add elements collects what each of them adds. -/
theorem foldlM_collects {step : List β → α → Except ε (List β)} {adds : α → β → Prop}
    (each : ∀ s a, a ∈ l → ∃ s', step s a = .ok s' ∧ ∀ b, b ∈ s' ↔ b ∈ s ∨ adds a b) (s : List β) :
    ∃ s', l.foldlM step s = .ok s' ∧ ∀ b, b ∈ s' ↔ b ∈ s ∨ ∃ a ∈ l, adds a b := by
  induction l generalizing s with
  | nil => exact ⟨s, rfl, by simp⟩
  | cons a l ih =>
    obtain ⟨middle, first, added⟩ := each s a (.head _)
    obtain ⟨last, rest, collected⟩ :=
      ih (fun s b member => each s b (.tail a member)) middle
    refine ⟨last, by rw [foldlM_cons, first, ok_bind, rest], fun b => ?_⟩
    rw [collected, added, exists_mem_cons_iff, or_assoc]

/-! ### Errors that do not occur -/

/-- The computation does not fail with `e`. -/
def Avoids (e : ε) (x : Except ε α) : Prop := x ≠ .error e

section Avoids

variable {e other : ε} {x : Except ε α}

@[simp] theorem avoids_ok (e : ε) (a : α) : Avoids e (.ok a) := by
  intro fails
  cases fails

@[simp] theorem avoids_pure (e : ε) (a : α) : Avoids e (pure a : Except ε α) := avoids_ok e a

@[simp] theorem avoids_error : Avoids e (.error other : Except ε α) ↔ other ≠ e :=
  not_congr (by simp)

@[simp] theorem avoids_bind {f : α → Except ε β} :
    Avoids e (x >>= f) ↔ Avoids e x ∧ ∀ a, x = .ok a → Avoids e (f a) := by
  cases x with
  | error other => simp [Avoids, bind, Except.bind]
  | ok a => simp

@[simp] theorem avoids_map {f : α → β} : Avoids e (x.map f) ↔ Avoids e x := not_congr map_eq_error

@[simp] theorem avoids_fmap {f : α → β} : Avoids e (f <$> x) ↔ Avoids e x := avoids_map

@[simp] theorem avoids_mapError {δ : Type} {f : δ → ε} {x : Except δ α} (never : ∀ d, f d ≠ e) :
    Avoids e (x.mapError f) := by
  cases x with
  | error d => exact avoids_error.mpr (never d)
  | ok a => exact avoids_ok e a

@[simp] theorem avoids_ite {check : Prop} [Decidable check] {y : Except ε α} :
    Avoids e (if check then x else y) ↔ (check → Avoids e x) ∧ (¬check → Avoids e y) := by
  split_ifs with holds <;> simp [holds]

@[simp] theorem avoids_ensure {check : Prop} [Decidable check] :
    Avoids e (ensure check other) ↔ (¬check → other ≠ e) := by
  simp [ensure]

theorem avoids_okOr {o : Option α} (different : other ≠ e) : Avoids e (okOr o other) := by
  cases o with
  | some a => exact avoids_ok e a
  | none => exact avoids_error.mpr different

/-- A loop avoids an error that its steps avoid. -/
theorem avoids_foldlM (Inv : σ → Prop)
    (preserved : ∀ s a s', a ∈ l → Inv s → step s a = .ok s' → Inv s')
    (avoids : ∀ s a, a ∈ l → Inv s → Avoids e (step s a)) (start : Inv s) :
    Avoids e (l.foldlM step s) := by
  intro fails
  obtain ⟨front, a, back, middle, rfl, made, failed⟩ := foldlM_failed fails
  refine avoids middle a (by simp) (foldlM_preserves Inv ?_ start made) failed
  exact fun s b s' member => preserved s b s' (mem_append_left _ member)

end Avoids

end Wok.Library
