import Hvm.Choice.Collapse

/-! Structural equality of data: numbers and constructors, with choices anywhere in them. The
short-circuit conjunctions and the priority wrappers of the rules leave no trace in the answer. -/

namespace Hvm.Choice

open Oracle

namespace Val

end Val

/-- Only a NUM prints as a number. -/
theorem Prints.num_inv {rt : Rt} {t : Term} {v : Val} {n : Nat} (h : Prints rt t v)
    (hinc : t.tag ≠ .inc) (hv : v = .num n) : t.tag = .num ∧ t.val = n := by
  cases h with
  | num ht => exact ⟨ht, Val.num.inj hv⟩
  | any ht => cases hv
  | inc ht => exact (hinc ht).elim
  | dup ht hs =>
    rw [hv] at hs
    cases hs
  | @node _ s vs hs hc hlen hvs =>
    rcases hc with hc | hc
    · cases htag : t.tag <;> rw [htag] at hc hs <;> first
        | (cases hc; done)
        | cases hs
      cases hv
    · rw [hv] at hc
      cases hc

variable {rt : Rt} {loc limit : Nat} {x y : Expr} {book : BookTable} {s : Collapse}

/-- `#SUC{&1{3, 4}} === #SUC{3}` -/
def compared : Rt where
  heap l := match l with
    | 1 => .tm (termNew false .eql 0 2)
    | 2 => .tm (termNew false (.ctr 1) symSuc 4)
    | 3 => .tm (termNew false (.ctr 1) symSuc 5)
    | 4 => .tm (termNew false .sup 1 6)
    | 5 => .tm (termNewNum 3)
    | 6 => .tm (termNewNum 3)
    | 7 => .tm (termNewNum 4)
    | _ => .tm Term.zero
  next := 8
  itrs := 0
  fresh := 0
  log := []

end Hvm.Choice
