import Hvm.Dynamic.Fire

/-! A dynamic dup labelled `n` over a dynamic superposition labelled `m`: which of the two labels
are told apart once they are in the EXT field of a word. -/

namespace Hvm.Dynamic

open Machine Match

variable {book : BookTable} {rt rt1 rt2 : Rt} {stack : List Frame} {s t x y z a b w c0 c1 : Term}
  {n m v : Nat} {side : Bool}

/-- The dup cell `v` holds a dynamic superposition. -/
structure Shares (rt : Rt) (v : Nat) (s x a b : Term) : Prop where
  cell : Lies rt v [s]
  plain : s.sub = false
  node : IsNode rt .dsu s [x, a, b]

/-- Asked for the copy of one side, the cell `v` gives it, and keeps the other for later. -/
def Gives (book : BookTable) (rt : Rt) (stack : List Frame) (n : Nat) (side : Bool) (v : Nat)
    (rt2 : Rt) (c0 c1 : Term) : Prop :=
  Runs book ⟨rt, stack, .enter (copy n side v)⟩ ⟨rt2, stack, .enter (if side then c1 else c0)⟩ ∧
  ∀ later, turn book ⟨rt2, later, .enter (copy n (!side) v)⟩ =
    .next ⟨rt2, later, .enter (termSubSet (if side then c0 else c1) false)⟩

theorem Shares.kept (h : Shares rt v s x a b) {keep : Set Nat}
    (hr : Reduces book stack keep rt t rt1 w) : v < rt1.next := Nat.lt_of_lt_of_le h.cell.room hr.next

/-- The stack under the label of a superposition that a copy asks for. -/
def asking (n : Nat) (side : Bool) (v : Nat) (s : Term) (stack : List Frame) : List Frame :=
  .tm s :: .tm (copy n side v) :: stack

end Hvm.Dynamic
