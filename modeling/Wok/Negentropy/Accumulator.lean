/-
**The accumulators of negentropy.**

A fingerprint is made from the sum of the ids of a range, as little-endian numbers modulo `2^256`.
The sum is kept in a 32-byte buffer and added limb by limb, with a carry from each 64-bit limb to the
next; a node of the tree keeps the sum of what is below it.

* `addLimbs_value` — the carry chain, by induction on the limbs.
* `sum_addBytes`, `sum_negate`, `sum_subBytes` — the operations in `ZMod (2^256)`.
* `accumLeftOf_eq` — a descent through the tree sums the items left of its offset.
* `accumulators_sum` — **the laws of the accumulator**, for all buffers, orders and ranges.
-/

import Wok.Library.Bytes
import Wok.Library.Result
import Mathlib.Data.ZMod.Basic

namespace Wok.Negentropy

open Wok.Library List

/-! ### Buffers -/

/-- `[u8; ID_SIZE]` -/
abbrev Buf := { s : Bytes // s.length = 32 }

structure Item where
  timestamp : Nat
  id : Buf

structure Accumulator where
  buf : Buf

namespace Accumulator

def zero : Accumulator := ⟨⟨List.replicate 32 0, rfl⟩⟩

/-- One limb: two overflowing additions, of the carry and of the other limb. -/
def addLimb (carry orig other : Nat) : Nat × Nat :=
  let n1 := (orig + carry) % 2 ^ 64
  let c1 := decide (2 ^ 64 ≤ orig + carry)
  let n2 := (n1 + other) % 2 ^ 64
  let c2 := decide (2 ^ 64 ≤ n1 + other)
  (n2, if c1 || c2 then 1 else 0)

/-- The loop over the limbs that are left. -/
def addLimbs : Nat → Nat → Bytes → Bytes → Bytes
  | 0, _, _, _ => []
  | n + 1, carry, s, t =>
    let (limb, carry) := addLimb carry (leVal (s.take 8)) (leVal (t.take 8))
    leBytes 8 limb ++ addLimbs n carry (s.drop 8) (t.drop 8)

theorem addLimbs_length (n carry : Nat) (s t : Bytes) : (addLimbs n carry s t).length = 8 * n := by
  induction n generalizing carry s t with
  | zero => rfl
  | succ n ih => simp [addLimbs, ih, Nat.mul_succ, Nat.add_comm]

def addBytes (self : Accumulator) (other : Buf) : Accumulator :=
  ⟨⟨addLimbs 4 0 self.buf.1 other.1, addLimbs_length 4 0 _ _⟩⟩

def addItem (self : Accumulator) (item : Item) : Accumulator := self.addBytes item.id

def addAcc (self other : Accumulator) : Accumulator := self.addBytes other.buf

theorem not_length (s : Buf) : (complement s.1).length = 32 := by simp [complement, s.2]

def negate (self : Accumulator) : Accumulator :=
  addBytes ⟨⟨complement self.buf.1, not_length self.buf⟩⟩ ⟨1 :: List.replicate 31 0, rfl⟩

def subBytes (self : Accumulator) (other : Buf) : Accumulator :=
  self.addBytes (negate ⟨other⟩).buf

def subItem (self : Accumulator) (item : Item) : Accumulator := self.subBytes item.id

/-! ### Their values -/

def value (self : Accumulator) : Nat := leVal self.buf.1

/-- The number a buffer stands for, modulo `2^256`. -/
def sum (self : Accumulator) : ZMod (2 ^ 256) := self.value

theorem value_lt (self : Accumulator) : self.value < 2 ^ 256 := by
  have below := leVal_lt self.buf.1
  rw [self.buf.2] at below
  exact below.trans_eq (by norm_num)

theorem value_eq_val (self : Accumulator) : self.value = self.sum.val := by
  rw [sum, ZMod.val_natCast, Nat.mod_eq_of_lt self.value_lt]

theorem value_of_sum {self : Accumulator} {n : ℤ} (is : self.sum = n) :
    (self.value : ℤ) = n % 2 ^ 256 := by
  rw [value_eq_val, is, ZMod.val_intCast]
  norm_num

theorem sum_injective : Function.Injective sum := by
  rintro ⟨⟨s, sized⟩⟩ ⟨⟨t, sized'⟩⟩ same
  have values : leVal s = leVal t := by
    have := congrArg ZMod.val same
    rwa [← value_eq_val, ← value_eq_val] at this
  have bytes : s = t := by rw [← leBytes_leVal s, ← leBytes_leVal t, values, sized, sized']
  subst bytes
  rfl

theorem sum_zero : zero.sum = 0 := by
  have nothing : ∀ n, leVal (List.replicate n 0) = 0 := by
    intro n
    induction n with
    | zero => rfl
    | succ n ih => simp [replicate_succ, leVal, ih]
  rw [sum, value, zero, nothing, Nat.cast_zero]

theorem addLimb_spec {carry orig other : Nat} (bit : carry ≤ 1) (small : orig < 2 ^ 64)
    (small' : other < 2 ^ 64) : (addLimb carry orig other).2 ≤ 1 ∧
    (addLimb carry orig other).1 < 2 ^ 64 ∧
    orig + other + carry = (addLimb carry orig other).1 + 2 ^ 64 * (addLimb carry orig other).2 := by
  simp only [addLimb, Bool.or_eq_true, decide_eq_true_eq]
  split_ifs <;> omega

/-- **The carry chain adds.** -/
theorem addLimbs_value {n carry : Nat} {s t : Bytes} (bit : carry ≤ 1) (sized : s.length = 8 * n)
    (sized' : t.length = 8 * n) :
    leVal (addLimbs n carry s t) = (leVal s + leVal t + carry) % (2 ^ 64) ^ n := by
  induction n generalizing carry s t with
  | zero =>
    rw [pow_zero, Nat.mod_one]
    rfl
  | succ n ih =>
    have limb : ∀ u : Bytes, u.length = 8 * (n + 1) → leVal (u.take 8) < 2 ^ 64 ∧
        leVal u = leVal (u.take 8) + 2 ^ 64 * leVal (u.drop 8) := by
      intro u sized
      have eight : (u.take 8).length = 8 := by rw [length_take]; omega
      have bound := leVal_lt (u.take 8)
      have parts := leVal_append (u.take 8) (u.drop 8)
      rw [take_append_drop, eight] at parts
      rw [eight] at bound
      exact ⟨bound.trans_eq (by norm_num), parts.trans (by norm_num)⟩
    obtain ⟨small, low⟩ := limb s sized
    obtain ⟨small', low'⟩ := limb t sized'
    obtain ⟨bit', below, kept⟩ := addLimb_spec bit small small'
    simp only [addLimbs]
    generalize addLimb carry (leVal (s.take 8)) (leVal (t.take 8)) = r at bit' below kept
    have rest := ih bit' (s := s.drop 8) (t := t.drop 8) (by simp [sized, Nat.mul_succ])
      (by simp [sized', Nat.mul_succ])
    have whole : leVal s + leVal t + carry
        = r.1 + 2 ^ 64 * (leVal (s.drop 8) + leVal (t.drop 8) + r.2) := by
      rw [low, low', Nat.mul_add, Nat.mul_add]
      omega
    have radix : 256 ^ 8 = 2 ^ 64 := by norm_num
    rw [leVal_append, leBytes_length, radix, leVal_leBytes (below.trans_eq radix.symm), rest, whole,
      pow_succ' (2 ^ 64) n, Nat.mod_mul, Nat.add_mul_mod_self_left, Nat.mod_eq_of_lt below,
      Nat.add_mul_div_left _ _ (by norm_num), Nat.div_eq_of_lt below, Nat.zero_add]

theorem sum_addBytes (self : Accumulator) (other : Buf) :
    (self.addBytes other).sum = self.sum + sum ⟨other⟩ := by
  have added : (self.addBytes other).value = (self.value + leVal other.1 + 0) % (2 ^ 64) ^ 4 :=
    addLimbs_value (Nat.zero_le 1) self.buf.2 other.2
  have modulus : (2 ^ 64) ^ 4 = 2 ^ 256 := by norm_num
  rw [sum, added, modulus, ZMod.natCast_mod, Nat.add_zero, Nat.cast_add]
  rfl

theorem leVal_complement (s : Bytes) : leVal s + leVal (complement s) + 1 = 256 ^ s.length := by
  induction s with
  | nil => rfl
  | cons b s ih =>
    have byte : (Byte.not b).val = 255 - b.val := by simp [Byte.not, Fin.rev]
    have small : b.val < 256 := b.isLt
    have step : leVal (complement (b :: s)) = (Byte.not b).val + 256 * leVal (complement s) := rfl
    rw [step, leVal, length_cons, pow_succ, byte]
    omega

theorem sum_negate (self : Accumulator) : self.negate.sum = -self.sum := by
  have flipped := leVal_complement self.buf.1
  rw [self.buf.2] at flipped
  have total : self.sum + sum ⟨⟨complement self.buf.1, not_length self.buf⟩⟩ + 1 = 0 := by
    have cast := congrArg (Nat.cast (R := ZMod (2 ^ 256))) flipped
    rw [Nat.cast_add, Nat.cast_add, Nat.cast_one] at cast
    refine cast.trans ?_
    rw [show (256 : ℕ) ^ 32 = 2 ^ 256 by norm_num]
    exact ZMod.natCast_self _
  have one : sum ⟨⟨1 :: List.replicate 31 0, rfl⟩⟩ = 1 := by
    have : leVal (1 :: List.replicate 31 0) = 1 := by decide
    rw [sum, value, this, Nat.cast_one]
  rw [negate, sum_addBytes, one, eq_neg_iff_add_eq_zero, ← total]
  ring

theorem sum_subBytes (self : Accumulator) (other : Buf) :
    (self.subBytes other).sum = self.sum - sum ⟨other⟩ := by
  rw [subBytes, sum_addBytes]
  exact (congrArg (self.sum + ·) (sum_negate ⟨other⟩)).trans (sub_eq_add_neg _ _).symm

/-! ### Runs -/

/-- One change of an accumulator. -/
inductive Change
  | add (item : Item)
  | sub (item : Item)

def apply (self : Accumulator) : Change → Accumulator
  | .add item => self.addItem item
  | .sub item => self.subItem item

def applyAll (self : Accumulator) (changes : List Change) : Accumulator := changes.foldl apply self

/-- What a change adds. -/
def Change.amount : Change → ZMod (2 ^ 256)
  | .add item => sum ⟨item.id⟩
  | .sub item => -sum ⟨item.id⟩

theorem sum_applyAll (self : Accumulator) (changes : List Change) :
    (self.applyAll changes).sum = self.sum + (changes.map Change.amount).sum := by
  induction changes generalizing self with
  | nil => simp [applyAll]
  | cons change changes ih =>
    have first : (self.apply change).sum = self.sum + change.amount := by
      cases change with
      | add item => exact sum_addBytes self item.id
      | sub item => exact (sum_subBytes self item.id).trans (sub_eq_add_neg _ _)
    rw [map_cons, sum_cons, ← add_assoc, ← first]
    exact ih (self.apply change)

/-- The accumulator of some items. -/
def ofItems (items : List Item) : Accumulator := items.foldl addItem zero

theorem sum_addItems (self : Accumulator) (items : List Item) :
    (items.foldl addItem self).sum = self.sum + (items.map fun item => sum ⟨item.id⟩).sum := by
  have same : items.foldl addItem self = self.applyAll (items.map .add) := by
    rw [applyAll, foldl_map]
    rfl
  rw [same, sum_applyAll, map_map]
  rfl

/-- Groups, each summed on its own. -/
def addGroups (self : Accumulator) (groups : List (List Change)) : Accumulator :=
  groups.foldl (fun acc group => acc.addAcc (zero.applyAll group)) self

theorem sum_addAccs (self : Accumulator) (accs : List Accumulator) :
    (accs.foldl addAcc self).sum = self.sum + (accs.map sum).sum := by
  induction accs generalizing self with
  | nil => simp
  | cons acc accs ih =>
    rw [foldl_cons, ih, map_cons, sum_cons, ← add_assoc]
    exact congrArg (· + _) (sum_addBytes self acc.buf)

/-- **The order and the grouping of changes do not matter.** -/
theorem addGroups_eq (self : Accumulator) {changes : List Change} {groups : List (List Change)}
    (same : changes.Perm groups.flatten) : self.addGroups groups = self.applyAll changes := by
  have grouped : self.addGroups groups = (groups.map zero.applyAll).foldl addAcc self :=
    (foldl_map ..).symm
  refine sum_injective ?_
  rw [grouped, sum_addAccs, sum_applyAll, (same.map Change.amount).sum_eq, map_flatten,
    sum_flatten, map_map, map_map]
  congr 2
  refine map_congr_left fun group _ => ?_
  show (zero.applyAll group).sum = _
  rw [sum_applyAll, sum_zero, zero_add]
  rfl

end Accumulator

/-! ### The tree -/

/-- A node: its keys, with the node below each, and the number and the sum of the items below. -/
structure Node where
  items : List (Item × Nat)
  accumCount : Nat
  accum : Accumulator

inductive NegError
  | msg (text : String)

section Tree

variable (getNode : Nat → Node)

/-- The loop over the children of a node. -/
def traverseChildren (descend : Nat → Node → Except NegError (List Accumulator × List Item)) :
    Nat → List Nat → Except NegError (List Accumulator × List Item)
  | _, [] => .ok ([], [])
  | index, child :: children =>
    if index < (getNode child).accumCount then descend index (getNode child)
    else (traverseChildren descend (index - (getNode child).accumCount) children).map fun rest =>
      ((getNode child).accum :: rest.1, rest.2)

/-- `traverse_aux`: the accumulators of the children passed, and the items passed in the leaf.
`fuel` bounds the descent. -/
def traverseAux : Nat → Nat → Node → Except NegError (List Accumulator × List Item)
  | 0, _, _ => .error (.msg "descent ran out of levels")
  | fuel + 1, index, node =>
    if node.items.length = node.accumCount then .ok ([], (node.items.take index).map Prod.fst)
    else traverseChildren getNode (traverseAux fuel) index (node.items.map Prod.snd)

def accumLeftOf (fuel : Nat) (root : Node) (index : Nat) : Except NegError Accumulator :=
  if root.accumCount < index then .error (.msg "out of range")
  else (traverseAux getNode fuel index root).map fun passed =>
    passed.2.foldl Accumulator.addItem (passed.1.foldl Accumulator.addAcc .zero)

/-- The accumulator that `fingerprint` hashes. -/
def rangeAccum (fuel : Nat) (root : Node) (first last : Nat) : Except NegError Accumulator := do
  if last < first ∨ root.accumCount < last then .error (.msg "bad range")
  let accum1 ← accumLeftOf getNode fuel root first
  let accum2 ← accumLeftOf getNode fuel root last
  return accum2.addAcc accum1.negate

/-- A node of a height holds these items: its own, or those of its children, whose number and sum it
knows. Where each child has one item, the keys, which are the first items of the children, are the
items. -/
def Holds : Nat → Node → List Item → Prop
  | 0, node, items => node.items.map Prod.fst = items ∧ node.accumCount = items.length
  | height + 1, node, items =>
    (node.items.length = node.accumCount → node.items.map Prod.fst = items) ∧
    ∃ groups : List (List Item),
      List.Forall₂ (fun key group => Holds height (getNode key.2) group ∧
        (getNode key.2).accum = .ofItems group) node.items groups ∧
      items = groups.flatten ∧ node.accumCount = items.length

variable {getNode}
variable {height fuel : Nat} {items : List Item} {node : Node}

theorem Holds.count (holds : Holds getNode height node items) : node.accumCount = items.length := by
  cases height with
  | zero => exact holds.2
  | succ height =>
    obtain ⟨_, groups, _, _, count⟩ := holds
    exact count

/-- The sum of what a descent passes. -/
def passedSum (passed : List Accumulator × List Item) : ZMod (2 ^ 256) :=
  (passed.1.map Accumulator.sum).sum + (passed.2.map fun item => Accumulator.sum ⟨item.id⟩).sum

theorem passedSum_append (items items' : List Item) :
    passedSum ([], items ++ items') = passedSum ([], items) + passedSum ([], items') := by
  simp [passedSum]

theorem sum_ofItems (items : List Item) :
    (Accumulator.ofItems items).sum = passedSum ([], items) := by
  rw [Accumulator.ofItems, Accumulator.sum_addItems, Accumulator.sum_zero]
  rfl

/-- **A descent passes the items left of its offset**: what it passes at a node sums up to them. -/
theorem traverseAux_sum {index : Nat} (holds : Holds getNode height node items)
    (enough : height < fuel) (inside : index ≤ items.length) :
    ∃ passed, traverseAux getNode fuel index node = .ok passed ∧
      passedSum passed = passedSum ([], items.take index) := by
  induction height generalizing fuel index node items with
  | zero =>
    obtain ⟨fuel, rfl⟩ := Nat.exists_eq_succ_of_ne_zero (n := fuel) (by omega)
    obtain ⟨keys, count⟩ := holds
    have leaf : node.items.length = node.accumCount := by rw [count, ← keys, length_map]
    exact ⟨_, if_pos leaf, by rw [← keys, map_take]⟩
  | succ height ih =>
    obtain ⟨fuel, rfl⟩ := Nat.exists_eq_succ_of_ne_zero (n := fuel) (by omega)
    obtain ⟨single, groups, children, rfl, -⟩ := holds
    -- A node with one item below each key is read as a leaf, whatever its height.
    by_cases leaf : node.items.length = node.accumCount
    · exact ⟨_, if_pos leaf, by rw [← single leaf, map_take]⟩
    rw [traverseAux, if_neg leaf]
    clear single leaf
    generalize node.items = keys at children
    induction children generalizing index with
    | nil => exact ⟨([], []), rfl, by simp⟩
    | @cons key group keys groups first _ rest =>
      obtain ⟨below, accum⟩ := first
      rw [map_cons, traverseChildren, below.count]
      rw [flatten_cons, length_append] at inside
      rw [flatten_cons]
      by_cases here : index < group.length
      · rw [if_pos here, take_append_of_le_length here.le]
        exact ih below (by omega) here.le
      · have inside : index - group.length ≤ groups.flatten.length := by omega
        obtain ⟨passed, walked, sums⟩ := rest inside
        rw [if_neg here, walked]
        refine ⟨_, rfl, ?_⟩
        have passes : passedSum ((getNode key.2).accum :: passed.1, passed.2)
            = (getNode key.2).accum.sum + passedSum passed := by
          simp [passedSum, add_assoc]
        rw [passes, accum, sum_ofItems, sums, take_append,
          take_of_length_le (not_lt.mp here), passedSum_append]

theorem accumLeftOf_eq {index : Nat} (holds : Holds getNode height node items)
    (enough : height < fuel) (inside : index ≤ items.length) :
    accumLeftOf getNode fuel node index = .ok (.ofItems (items.take index)) := by
  obtain ⟨passed, walked, sums⟩ := traverseAux_sum holds enough inside
  rw [accumLeftOf, if_neg (by rw [holds.count]; omega), walked]
  refine congrArg Except.ok (Accumulator.sum_injective ?_)
  rw [Accumulator.sum_addItems, Accumulator.sum_addAccs, Accumulator.sum_zero, zero_add, sum_ofItems,
    ← sums]
  rfl

theorem rangeAccum_eq {first last : Nat} {root : Node} (holds : Holds getNode height root items)
    (enough : height < fuel) (ordered : first ≤ last) (inside : last ≤ items.length) :
    rangeAccum getNode fuel root first last
      = .ok (.ofItems ((items.take last).drop first)) := by
  have bounds : ¬(last < first ∨ root.accumCount < last) := by
    rw [holds.count]
    omega
  simp only [rangeAccum, if_neg bounds, accumLeftOf_eq holds enough (ordered.trans inside),
    accumLeftOf_eq holds enough inside]
  refine congrArg Except.ok (Accumulator.sum_injective ?_)
  have split := take_append_drop first (items.take last)
  rw [take_take, Nat.min_eq_left ordered] at split
  have total := congrArg (fun items => passedSum ([], items)) split
  simp only [passedSum_append] at total
  show (Accumulator.addBytes _ _).sum = _
  rw [Accumulator.sum_addBytes]
  show _ + (Accumulator.negate _).sum = _
  rw [Accumulator.sum_negate, sum_ofItems, sum_ofItems, sum_ofItems, ← total]
  ring

end Tree

open Accumulator in
/-- **The laws of the accumulator.** Its operations are those of the integers modulo `2^256`. So the
order and the grouping of additions and removals do not matter, and the tree's accumulator of a range
is the sum of the range's items. -/
theorem accumulators_sum :
    (∀ x y : Accumulator, ((x.addBytes y.buf).value : ℤ) = (x.value + y.value) % 2 ^ 256 ∧
      (x.negate.value : ℤ) = -x.value % 2 ^ 256 ∧
      ((x.subBytes y.buf).value : ℤ) = (x.value - y.value) % 2 ^ 256) ∧
    (∀ (x : Accumulator) (changes : List Change) (groups : List (List Change)),
      changes.Perm groups.flatten → x.addGroups groups = x.applyAll changes) ∧
    (∀ (getNode : Nat → Node) (height fuel : Nat) (root : Node) (items : List Item)
      (first last : Nat), Holds getNode height root items → height < fuel → first ≤ last →
      last ≤ items.length → rangeAccum getNode fuel root first last
        = .ok (.ofItems ((items.take last).drop first))) := by
  refine ⟨fun x y => ⟨?_, ?_, ?_⟩, fun x changes groups same => addGroups_eq x same,
    fun _ _ _ _ _ _ _ holds enough ordered inside => rangeAccum_eq holds enough ordered inside⟩
  · exact value_of_sum (by rw [sum_addBytes, Int.cast_add, Int.cast_natCast, Int.cast_natCast]; rfl)
  · exact value_of_sum (by rw [sum_negate, Int.cast_neg, Int.cast_natCast]; rfl)
  · exact value_of_sum (by rw [sum_subBytes, Int.cast_sub, Int.cast_natCast, Int.cast_natCast]; rfl)

/-- Items, and a tree of two leaves below a root. -/
def sampleItem (n : Byte) : Item := ⟨n.val, ⟨List.replicate 32 n, rfl⟩⟩

def sampleLeaf (items : List Item) : Node := ⟨items.map (·, 0), items.length, .ofItems items⟩

def sampleTree (id : Nat) : Node :=
  if id = 1 then sampleLeaf [sampleItem 1] else sampleLeaf [sampleItem 2, sampleItem 3]

theorem accumulators_sum_three :
    Accumulator.zero.addGroups [[.add (sampleItem 1)], [.sub (sampleItem 2)]]
        = Accumulator.zero.applyAll [.sub (sampleItem 2), .add (sampleItem 1)] ∧
      rangeAccum sampleTree 2 ⟨[(sampleItem 1, 1), (sampleItem 2, 2)], 3, .zero⟩ 1 3
        = .ok (.ofItems [sampleItem 2, sampleItem 3]) := by
  obtain ⟨-, groups, ranges⟩ := accumulators_sum
  refine ⟨groups _ _ _ (List.Perm.swap ..), ranges sampleTree 1 2 _
    [sampleItem 1, sampleItem 2, sampleItem 3] 1 3
    ⟨fun same => absurd same (by decide), [[_], [_, _]], ?_, rfl, rfl⟩
    (by decide) (by decide) (by decide)⟩
  exact .cons ⟨⟨rfl, rfl⟩, rfl⟩ (.cons ⟨⟨rfl, rfl⟩, rfl⟩ .nil)

end Wok.Negentropy
