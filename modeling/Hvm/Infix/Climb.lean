import Mathlib.Data.List.Basic
import Mathlib.Tactic.Common

/-! Precedence climbing. A sequence of operands with operators between them has one tree in which
every operator binds as its precedence says and operators of the same precedence associate to the
left, and climbing builds it. -/

namespace Precedence

inductive Tree (O A : Type) where
  | leaf (a : A)
  | node (o : O) (l r : Tree O A)

variable {O A : Type} {prec : O → Nat} {m : Nat} {t t' f r : Tree O A} {items mid rest : List (O × A)}

namespace Tree

/-- The first operand. -/
def first : Tree O A → A
  | leaf a => a
  | node _ l _ => l.first

/-- The operators, each with the operand after it. -/
def tail : Tree O A → List (O × A)
  | leaf _ => []
  | node o l r => l.tail ++ (o, r.first) :: r.tail

/-- The operator at the root binds at least as `m`. -/
def Above (prec : O → Nat) (m : Nat) : Tree O A → Prop
  | leaf _ => True
  | node o _ _ => m ≤ prec o

/-- Operators bind by precedence, and associate to the left. -/
def Grouped (prec : O → Nat) : Tree O A → Prop
  | leaf _ => True
  | node o l r => l.Above prec (prec o) ∧ r.Above prec (prec o + 1) ∧ l.Grouped prec ∧ r.Grouped prec

theorem Above.mono (h : t.Above prec m) {k : Nat} (hk : k ≤ m) : t.Above prec k := by
  cases t with
  | leaf a => trivial
  | node o l r => exact Nat.le_trans hk h

/-- Everything below the root binds at least as the root. -/
theorem Grouped.le_prec (hg : t.Grouped prec) (ha : t.Above prec m) : ∀ i ∈ t.tail, m ≤ prec i.1 := by
  induction t generalizing m with
  | leaf a =>
    intro i hi
    cases hi
  | node o l r ihl ihr =>
    obtain ⟨hl, hr, hgl, hgr⟩ := hg
    intro i hi
    rcases List.mem_append.mp hi with hi | hi
    · exact ihl hgl (hl.mono ha) i hi
    · rcases List.mem_cons.mp hi with rfl | hi
      · exact ha
      · exact ihr hgr (hr.mono (Nat.le_succ_of_le ha)) i hi

/-- The root of one tree is not an operator inside a side of the other. -/
theorem Grouped.no_overlap {o o' : O} {l l' r r' : Tree O A} (hg : (node o l r).Grouped prec)
    (hg' : (node o' l' r').Grouped prec) {ys : List (O × A)}
    (hl : l'.tail = l.tail ++ (o, r.first) :: ys) : r.tail ≠ ys ++ (o', r'.first) :: r'.tail := by
  intro hr
  have hin' : (o, r.first) ∈ l'.tail := by
    rw [hl]
    exact List.mem_append_right _ List.mem_cons_self
  have hin : (o', r'.first) ∈ r.tail := by
    rw [hr]
    exact List.mem_append_right _ List.mem_cons_self
  have hle := hg'.2.2.1.le_prec hg'.1 _ hin'
  have hlt := hg.2.2.2.le_prec hg.2.1 _ hin
  dsimp only at hle hlt
  omega

/-- A sequence has one tree. -/
theorem Grouped.unique (hg : t.Grouped prec) (hg' : t'.Grouped prec) (hf : t.first = t'.first)
    (ht : t.tail = t'.tail) : t = t' := by
  induction t generalizing t' with
  | leaf a =>
    cases t' with
    | leaf a' => exact congrArg leaf hf
    | node o' l' r' => simp [tail] at ht
  | node o l r ihl ihr =>
    cases t' with
    | leaf a' => simp [tail] at ht
    | node o' l' r' =>
      rcases List.append_eq_append_iff.mp ht with ⟨xs, hl, hr⟩ | ⟨xs, hl, hr⟩
      · cases xs with
        | nil =>
          rw [List.nil_append] at hr
          injection hr with hi hr
          injection hi with ho hrf
          rw [List.append_nil] at hl
          subst ho
          rw [ihl hg.2.2.1 hg'.2.2.1 hf hl.symm, ihr hg.2.2.2 hg'.2.2.2 hrf hr]
        | cons x ys =>
          injection hr with hx hr
          subst hx
          exact absurd hr (hg.no_overlap hg' hl)
      · cases xs with
        | nil =>
          rw [List.nil_append] at hr
          injection hr with hi hr
          injection hi with ho hrf
          rw [List.append_nil] at hl
          subst ho
          rw [ihl hg.2.2.1 hg'.2.2.1 hf hl, ihr hg.2.2.2 hg'.2.2.2 hrf.symm hr.symm]
        | cons x ys =>
          injection hr with hx hr
          subst hx
          exact absurd hr (hg'.no_overlap hg hl)

end Tree

open Tree

/-! ### Climbing -/

/-- From the tree `f` on, the operators that bind at least as `m` are taken: one takes its right
operand up to the next operator that does not bind tighter, and climbing goes on from there. -/
inductive Climb (prec : O → Nat) : Nat → Tree O A → List (O × A) → Tree O A → List (O × A) → Prop where
  | stop {m : Nat} {f : Tree O A} {items : List (O × A)} : (∀ i ∈ items.head?, prec i.1 < m) →
    Climb prec m f items f items
  | step {m : Nat} {f r t : Tree O A} {o : O} {a : A} {items mid rest : List (O × A)} :
    m ≤ prec o → Climb prec (prec o + 1) (leaf a) items r mid →
    Climb prec m (node o f r) mid t rest → Climb prec m f ((o, a) :: items) t rest

/-- Climbing groups by precedence. -/
theorem Climb.grouped (h : Climb prec m f items t rest) (hg : f.Grouped prec) (ha : f.Above prec m)
    (hhead : ∀ i ∈ items.head?, f.Above prec (prec i.1)) :
    t.Grouped prec ∧ t.Above prec m ∧ ∀ i ∈ rest.head?, prec i.1 < m := by
  induction h with
  | stop hstop => exact ⟨hg, ha, hstop⟩
  | step ho _ _ ihr iht =>
    obtain ⟨hgr, har, hmid⟩ := ihr trivial trivial fun _ _ => trivial
    exact iht ⟨hhead _ rfl, har, hg, hgr⟩ ho fun i hi => Nat.le_of_lt_succ (hmid i hi)

end Precedence
