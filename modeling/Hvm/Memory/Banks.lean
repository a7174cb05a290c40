import Hvm.Memory.Words
import Hvm.Parse.Interned

/-! The heap banks of the threads (`heap/init_slices.c`, `heap/alloc.c`): what `heap_alloc` hands
out, and what becomes of it in the words built on it. -/

namespace Hvm.Memory

/-- `HEAP_NEXT_AT(t)` and `HEAP_END_AT(t)`. -/
structure Bank where
  next : Nat
  stop : Nat

def Bank.cells (b : Bank) : Set Nat := Set.Ico b.next b.stop

abbrev Banks := Nat → Bank

/-- `heap_alloc` by thread `tid`, in `u64` arithmetic; it exits when the bank is too short. -/
def heapAlloc (banks : Banks) (tid : Nat) (size : Word) : Option (Nat × Banks) :=
  let start := (banks tid).next
  let next := (start + size.toNat) % 2 ^ 64
  if next ≤ (banks tid).stop ∧ start ≤ next then
    some (start, Function.update banks tid ⟨next, (banks tid).stop⟩)
  else none

/-- A block that a call handed out. -/
structure Block where
  tid : Nat
  loc : Nat
  size : Word

def Block.cells (b : Block) : Set Nat := Set.Ico b.loc (b.loc + b.size.toNat)

variable {threads words bankSz : Nat} {banks : Banks}

def loc (c : Nat) : Word := BitVec.ofNat 64 c

theorem loc_toNat {c : Nat} (h : c < 2 ^ 38) : (loc c).toNat = c := by
  rw [loc, BitVec.toNat_ofNat, Nat.mod_eq_of_lt (by omega)]

theorem loc_ne_zero {c : Nat} (h : c < 2 ^ 38) (hpos : 1 ≤ c) : loc c ≠ 0 := by
  intro hz
  have hc := loc_toNat h
  rw [hz] at hc
  change 0 = c at hc
  omega

end Hvm.Memory
