import Hvm.Infix.Table
import Hvm.Parse.Lists

/-! Sequences of operands with infix operators between them: `parse_term` groups them by the
precedence table. -/

namespace Hvm.Infix

open Effect Precedence Numeric

variable {p0 p : Parse} {d k : Nat} {t r b : Text} {is : List Infixed} {a : Operand} {w : Term}

theorem no_opr (h : Closes r) (ht : Stops r) : NoShort r ∧
    (oprTable.find? fun op => op.1.isPrefixOf r) = none ∧ byte '(' ∉ r.head? := by
  cases r with
  | nil =>
    rw [oprTable_bytes]
    exact ⟨noShort_nil, rfl, by decide⟩
  | cons c cs =>
    have hc : c ∉ [60, 61, 46] ∧ c ≠ byte '(' ∧ c ∉ [61, 33, 60, 62, 38, 124, 43, 45, 42, 47, 37, 94, 126] := by
      rcases close_cases (h c rfl) with rfl | rfl | rfl | rfl | rfl | rfl <;> decide
    refine ⟨noShort_cons hc.1, ?_, fun he => hc.2.1 (Option.some.inj he)⟩
    have hno := hc.2.2
    simp only [List.mem_cons, List.not_mem_nil, or_false, not_or] at hno
    obtain ⟨e1, e2, e3, e4, e5, e6, e7, e8, e9, e10, e11, e12, e13⟩ := hno
    rw [oprTable_bytes]
    simp [List.isPrefixOf, Ne.symm e1, Ne.symm e2, Ne.symm e3, Ne.symm e4, Ne.symm e5, Ne.symm e6, Ne.symm e7,
      Ne.symm e8, Ne.symm e9, Ne.symm e10, Ne.symm e11, Ne.symm e12, Ne.symm e13]

def comment : Text := byte '/' :: byte '/' :: ([byte 'c'] ++ byte '\n' :: [])

end Hvm.Infix
