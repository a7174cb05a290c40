import Hvm.Match.Select
import Hvm.Parse.Fields

/-! Dynamic superpositions and dups (`wnf/dsu_*.c`, `wnf/ddu_*.c`): what the turns of `wnf` make of
them, once their label is a number, a priority wrapper or a superposition. -/

namespace Hvm.Dynamic

open Machine Match

/-! ### Fields -/

/-- The cells from `loc` on are taken, and hold `fs`. -/
structure Lies (rt : Rt) (loc : Nat) (fs : List Term) : Prop where
  room : loc + fs.length ≤ rt.next
  holds : ∀ i (h : i < fs.length), rt.heap (loc + i) = .tm fs[i]

/-- The cells of `n` fields from `loc` on. -/
abbrev cells (loc n : Nat) : Set Nat := Set.Ico loc (loc + n)

variable {rt rt' : Rt} {F : Set Nat} {loc ext : Nat} {fs : List Term} {tag : Tag}

theorem Lies.within (h : Lies rt loc fs) (hw : Within F rt rt')
    (hF : ∀ l ∈ cells loc fs.length, l ∉ F) : Lies rt' loc fs where
  room := Nat.le_trans h.room hw.1
  holds := by
    intro i hi
    have hroom := h.room
    rw [hw.2 (loc + i) (by omega) (hF _ ⟨Nat.le_add_right _ _, by omega⟩)]
    exact h.holds i hi

/-- Fresh cells do not meet fields that are there. -/
theorem Lies.later (h : Lies rt loc fs) (hw : Within ∅ rt rt') : Lies rt' loc fs :=
  h.within hw fun _ _ hl => hl

theorem Lies.read (h : Lies rt loc fs) {i : Nat} (hi : i < fs.length) :
    heapRead rt (loc + i) = fs[i] := by
  rw [heapRead, h.holds i hi]
  rfl

theorem Lies.tail {a : Term} (h : Lies rt loc (a :: fs)) : Lies rt (loc + 1) fs where
  room := by
    have hroom := h.room
    rw [List.length_cons] at hroom
    omega
  holds := by
    intro i hi
    have hnext := h.holds (i + 1) (Nat.succ_lt_succ hi)
    rw [Nat.add_assoc, Nat.add_comm 1, hnext, List.getElem_cons_succ]

theorem Lies.head {a : Term} (h : Lies rt loc (a :: fs)) : Lies rt loc [a] where
  room := by
    have hroom := h.room
    rw [List.length_cons] at hroom
    rw [List.length_singleton]
    omega
  holds := by
    intro i hi
    obtain rfl : i = 0 := Nat.lt_one_iff.mp hi
    exact h.holds 0 (Nat.succ_pos _)

theorem newAt_heap (rt : Rt) (loc : Nat) (args : List Term) (l : Nat) :
    (termNewAt.go rt loc args).heap l =
      if l ∈ Set.Ico loc (loc + args.length) then .tm (args.getD (l - loc) Term.zero)
      else rt.heap l := by
  induction args generalizing rt loc with
  | nil =>
    have hno : l ∉ Set.Ico loc (loc + ([] : List Term).length) := by
      rintro ⟨hle, hlt⟩
      rw [List.length_nil] at hlt
      omega
    rw [if_neg hno]
    rfl
  | cons a args ih =>
    rw [termNewAt.go, ih, heapSet, Rt.set_heap]
    simp only [Set.mem_Ico, List.length_cons]
    by_cases hl : l = loc
    · subst hl
      have hno : ¬ (l + 1 ≤ l ∧ l < l + 1 + args.length) := by omega
      have hyes : l ≤ l ∧ l < l + (args.length + 1) := by omega
      rw [if_neg hno, if_pos hyes, Function.update_self, Nat.sub_self]
      rfl
    · by_cases hin : loc + 1 ≤ l ∧ l < loc + 1 + args.length
      · have hyes : loc ≤ l ∧ l < loc + (args.length + 1) := by omega
        have hsub : l - loc = l - (loc + 1) + 1 := by omega
        rw [if_pos hin, if_pos hyes, hsub, List.getD_cons_succ]
      · have hno : ¬ (loc ≤ l ∧ l < loc + (args.length + 1)) := by omega
        rw [if_neg hin, if_neg hno, Function.update_of_ne hl]

theorem newAt_within (rt : Rt) (loc : Nat) (tag : Tag) (ext : Nat) (args : List Term) :
    Within (cells loc args.length) rt (termNewAt rt loc tag ext args).1 := by
  refine ⟨Nat.le_of_eq (termNewAt_go_next rt loc args).symm, fun l _ hl => ?_⟩
  rw [termNewAt, newAt_heap, if_neg hl]

theorem new_within (rt : Rt) (tag : Tag) (ext : Nat) (args : List Term) :
    Within ∅ rt (termNewNode rt tag ext args).1 := by
  refine ⟨?_, fun l hl _ => ?_⟩
  · rw [termNewNode_next]
    exact Nat.le_add_right _ _
  · have hno : l ∉ Set.Ico rt.next (rt.next + args.length) := fun hin => Nat.not_le.mpr hl hin.1
    rw [termNewNode, termNewAt, newAt_heap, if_neg hno]

theorem clone_within (rt : Rt) (lab : Nat) (a : Term) : Within ∅ rt (termClone rt lab a).1 :=
  new_within rt .inc 0 [a]

/-- A word with its fields. -/
def IsNode (rt : Rt) (tag : Tag) (t : Term) (fs : List Term) : Prop := t.tag = tag ∧ Lies rt t.val fs

theorem IsNode.later {t : Term} (h : IsNode rt tag t fs) (hw : Within ∅ rt rt') :
    IsNode rt' tag t fs := ⟨h.1, h.2.later hw⟩

/-! ### Labels -/

/-- Over `stack` the term `t` is reduced to `w`, and the cells in `keep` are left alone. -/
structure Reduces (book : BookTable) (stack : List Frame) (keep : Set Nat) (rt : Rt) (t : Term)
    (rt' : Rt) (w : Term) : Prop where
  runs : Runs book ⟨rt, stack, .enter t⟩ ⟨rt', stack, .apply w⟩
  next : rt.next ≤ rt'.next
  kept : ∀ l ∈ keep, rt'.heap l = rt.heap l

variable {book : BookTable} {rt1 : Rt} {stack : List Frame} {t x a b w : Term} {n : Nat}

/-- The fields of a dynamic node but its label. -/
def aside (t : Term) : Set Nat := cells (t.val + 1) 2

theorem Reduces.fields (h : IsNode rt tag t [x, a, b])
    (hr : Reduces book stack (aside t) rt x rt1 w) :
    heapRead rt1 (t.val + 1) = a ∧ heapRead rt1 (t.val + 2) = b := by
  have ha := h.2.read (i := 1) (by simp)
  have hb := h.2.read (i := 2) (by simp)
  have hka := hr.kept (t.val + 1) ⟨Nat.le_refl _, by omega⟩
  have hkb := hr.kept (t.val + 2) ⟨by omega, by omega⟩
  exact ⟨(congrArg Cell.toTerm hka).trans ha, (congrArg Cell.toTerm hkb).trans hb⟩

theorem set_within (rt : Rt) (loc : Nat) (a : Term) : Within (cells loc 1) rt (heapSet rt loc a) :=
  newAt_within rt loc .inc 0 [a]

theorem Lies.set {v : Nat} (h : Lies rt loc fs) (hne : v ∉ cells loc fs.length) (t : Term) :
    Lies (heapSet rt v t) loc fs := by
  refine h.within (set_within rt v t) ?_
  rintro l hl ⟨hle, hlt⟩
  obtain rfl : l = v := by omega
  exact hne hl

/-- A side of the dup cell `v` under the label `n`; true is the right one. -/
def copy (n : Nat) (side : Bool) (v : Nat) : Term := termNew false (if side then .dp1 else .dp0) n v

end Hvm.Dynamic
