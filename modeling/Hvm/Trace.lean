import Mathlib

/-! Runs of a partial step function, computed. -/

namespace Hvm

variable {α : Type*} {next : α → Option α} {a b : α}

/-- `n` steps. -/
def trace (next : α → Option α) : Nat → α → Option α
  | 0, a => some a
  | n + 1, a => (next a).bind (trace next n)

theorem trace_reaches {n : Nat} (h : trace next n a = some b) :
    Relation.ReflTransGen (fun a b => next a = some b) a b := by
  induction n generalizing a with
  | zero => rw [Option.some.inj h]
  | succ n ih =>
    obtain ⟨c, hc, hn⟩ := Option.bind_eq_some_iff.mp h
    exact .head hc (ih hn)

end Hvm
