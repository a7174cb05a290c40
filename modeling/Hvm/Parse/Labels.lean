import Hvm.Parse.Moves

/-! Labels taken from `PARSE_FRESH_LAB` against the static labels written by name. Both
live in one 18-bit space; the counter starts at `0x20000`, and a three-letter name that
starts with `F` or a later capital is a label from there on. -/

namespace Hvm

open Relation

namespace Parse

/-- The labels the parser made up, latest first. -/
def generated (p : Parse) : List Nat :=
  p.labels.filterMap fun
    | .generated lab => some lab
    | .written _ => none

/-- The labels read from names, latest first. -/
def written (p : Parse) : List Nat :=
  p.labels.filterMap fun
    | .written lab => some lab
    | .generated _ => none

/-- The generated labels are those from the first up to the counter, each taken once. -/
structure LabelInv (p : Parse) : Prop where
  base : parseFreshBase ≤ p.freshLab
  room : p.freshLab ≤ parseDynLab
  taken : p.generated = (List.range' parseFreshBase (p.freshLab - parseFreshBase)).reverse
  named : ∀ w ∈ p.written, w ≤ extMask

theorem generated_append_range (p : Parse) (n : Nat) :
    ({ p with
        freshLab := p.freshLab + n
        labels := ((List.range' p.freshLab n).map LabelUse.generated).reverse ++ p.labels }
      : Parse).generated = (List.range' p.freshLab n).reverse ++ p.generated := by
  have hmap (l : List Nat) : ((l.map LabelUse.generated).filterMap fun
      | .generated lab => some lab
      | .written _ => none) = l := by
    induction l with
    | nil => rfl
    | cons a l ih => simp [ih]
  simp only [generated, List.filterMap_append, List.filterMap_reverse, hmap]

theorem written_append_range (p : Parse) (n : Nat) :
    ({ p with
        freshLab := p.freshLab + n
        labels := ((List.range' p.freshLab n).map LabelUse.generated).reverse ++ p.labels }
      : Parse).written = p.written := by
  have hmap (l : List Nat) : ((l.map LabelUse.generated).filterMap fun
      | .written lab => some lab
      | .generated _ => none) = [] := by
    induction l with
    | nil => rfl
    | cons a l ih => simp [ih]
  simp only [written, List.filterMap_append, List.filterMap_reverse, hmap,
    List.reverse_nil, List.nil_append]

theorem LabelInv.move {p q : Parse} (h : p.LabelInv) (hm : p.Move q) : q.LabelInv := by
  cases hm with
  | cursor | intern | memory | binds | side | seen | define | fork =>
    exact ⟨h.base, h.room, h.taken, h.named⟩
  | written lab hlab =>
    refine ⟨h.base, h.room, h.taken, ?_⟩
    intro w hw
    rcases List.mem_cons.mp hw with rfl | hw
    · exact hlab
    · exact h.named w hw
  | generated n hroom =>
    have hbase := h.base
    have hlen : p.freshLab + n - parseFreshBase = p.freshLab - parseFreshBase + n := by omega
    have hstart : parseFreshBase + (p.freshLab - parseFreshBase) = p.freshLab := by omega
    have hsplit : List.range' parseFreshBase (p.freshLab + n - parseFreshBase) =
        List.range' parseFreshBase (p.freshLab - parseFreshBase) ++
          List.range' p.freshLab n := by
      rw [hlen, ← List.range'_append_1, hstart]
    refine ⟨Nat.le_add_right_of_le hbase, hroom, ?_, ?_⟩
    · rw [generated_append_range, h.taken, hsplit, List.reverse_append]
    · rw [written_append_range]
      exact h.named

theorem LabelInv.run {p q : Parse} (h : p.LabelInv) (hr : p.Moves q) : q.LabelInv := by
  induction hr with
  | refl => exact h
  | tail _ hm ih => exact ih.move hm

end Parse

end Hvm
