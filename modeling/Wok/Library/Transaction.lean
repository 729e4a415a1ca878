/-
**Runs of transactions.**

A store has a committed state and one open transaction on it. Calls change the transaction; a call
that fails drops it, and so does an abort; a commit makes it the committed state and the next
transaction begins there.

* `Transactional.run_invariant` — **what calls and commits keep holds in the open transaction of
  every run, and in the one that would begin on the committed state.**
* `Transactional.commits_reach` — a rank that every committed call lowers comes to 0.
-/

import Mathlib.Logic.Basic
import Mathlib.Data.List.Basic

namespace Wok.Library

/-- A transaction begins on a committed state, takes calls that may fail, and commits. -/
structure Transactional (Store Txn Op ε : Type) where
  begin : Store → Txn
  call : Op → Txn → Except ε Txn
  commit : Txn → Store

/-- A call on the open transaction, or its end. -/
inductive Act (Op : Type)
  | call (op : Op)
  | commit
  | abort

/-- The committed state and the open transaction. -/
structure Opened (Store Txn : Type) where
  committed : Store
  txn : Txn

namespace Transactional

variable {Store Txn Op ε : Type} (m : Transactional Store Txn Op ε)

/-- A new transaction on a committed state. -/
def start (store : Store) : Opened Store Txn := ⟨store, m.begin store⟩

def step (s : Opened Store Txn) : Act Op → Opened Store Txn
  | .call op =>
    match m.call op s.txn with
    | .ok txn => { s with txn := txn }
    | .error _ => m.start s.committed
  | .commit => m.start (m.commit s.txn)
  | .abort => m.start s.committed

def run (s : Opened Store Txn) (acts : List (Act Op)) : Opened Store Txn := acts.foldl m.step s

/-- Each call in a transaction of its own. -/
def alone (ops : List Op) : List (Act Op) := ops.flatMap fun op => [.call op, .commit]

variable {m}
variable {s : Opened Store Txn}

theorem step_ok {op : Op} {txn : Txn} (made : m.call op s.txn = .ok txn) :
    m.step s (.call op) = { s with txn := txn } := by
  simp only [step, made]

theorem step_error {op : Op} {e : ε} (failed : m.call op s.txn = .error e) :
    m.step s (.call op) = m.start s.committed := by
  simp only [step, failed]

/-- **The invariant rule.** -/
theorem run_invariant (Inv : Txn → Prop) (allowed : Op → Prop)
    (call : ∀ op, allowed op → ∀ txn txn', Inv txn → m.call op txn = .ok txn' → Inv txn')
    (commit : ∀ txn, Inv txn → Inv (m.begin (m.commit txn))) (begun : Inv (m.begin s.committed))
    (opened : Inv s.txn) {acts : List (Act Op)} (all : ∀ op, Act.call op ∈ acts → allowed op) :
    Inv (m.begin (m.run s acts).committed) ∧ Inv (m.run s acts).txn := by
  induction acts generalizing s with
  | nil => exact ⟨begun, opened⟩
  | cons act acts ih =>
    have later : ∀ op, Act.call op ∈ acts → allowed op := fun op member =>
      all op (.tail act member)
    have next : Inv (m.begin (m.step s act).committed) ∧ Inv (m.step s act).txn := by
      cases act with
      | call op =>
        cases made : m.call op s.txn with
        | ok txn =>
          rw [step_ok made]
          exact ⟨begun, call op (all op (.head _)) _ _ opened made⟩
        | error e =>
          rw [step_error made]
          exact ⟨begun, begun⟩
      | commit => exact ⟨commit _ opened, commit _ opened⟩
      | abort => exact ⟨begun, begun⟩
    exact ih next.1 next.2 later

theorem run_alone_cons (store : Store) (op : Op) (ops : List Op) {txn : Txn}
    (made : m.call op (m.begin store) = .ok txn) :
    m.run (m.start store) (alone (op :: ops)) = m.run (m.start (m.commit txn)) (alone ops) := by
  show m.run (m.step (m.step (m.start store) (.call op)) .commit) (alone ops) = _
  rw [step_ok (s := m.start store) made]
  rfl

/-- **Calls that each lower a rank bring it to 0** after as many of them as it says. -/
theorem commits_reach (Ranked : Nat → Txn → Prop) (allowed : Op → Prop)
    (advance : ∀ op, allowed op → ∀ n store, Ranked n (m.begin store) →
      ∃ txn n', m.call op (m.begin store) = .ok txn ∧ Ranked n' (m.begin (m.commit txn)) ∧
        (n' = 0 ∨ n' < n))
    {n : Nat} {store : Store} (start : Ranked n (m.begin store)) {ops : List Op}
    (all : ∀ op ∈ ops, allowed op) (enough : n ≤ ops.length) :
    Ranked 0 (m.begin (m.run (m.start store) (alone ops)).committed) := by
  induction ops generalizing n store with
  | nil =>
    rw [Nat.le_zero.mp enough] at start
    exact start
  | cons op ops ih =>
    obtain ⟨first, rest⟩ := List.forall_mem_cons.mp all
    obtain ⟨txn, n', made, next, progress⟩ := advance op first n store start
    rw [run_alone_cons store op ops made]
    rw [List.length_cons] at enough
    exact ih next rest (by omega)

end Transactional

end Wok.Library
