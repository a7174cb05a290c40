import Hvm.Choice.Oracle
import Hvm.Numeric.Evaluate

/-! First-order terms and what they stand for: a value for every choice of a side at every
superposition met. A dup variable looks at the shared value from its own side. -/

namespace Hvm.Choice

open Oracle

/-- A value once all sides are chosen. The last three are operators stuck on an operand. -/
inductive Val where
  | num (n : Nat)
  | era
  | any
  | ctr (nam : Nat) (args : List Val)
  | op2 (opr : Nat) (x y : Val)
  | and (x y : Val)
  | or (x y : Val)

/-- The value for every choice of sides. -/
abbrev Den := Many Nat Val

namespace Val

def op2Of (opr : Nat) : Val → Val → Val
  | .era, _ => .era
  | .num _, .era => .era
  | .num a, .num b => .num (termOp2U32 opr a b)
  | x, y => .op2 opr x y

def andOf : Val → Val → Val
  | .era, _ => .era
  | .num n, y => if n = 0 then .num 0 else y
  | x, y => .and x y

def orOf : Val → Val → Val
  | .era, _ => .era
  | .num n, y => if n = 0 then y else .num 1
  | x, y => .or x y

mutual
/-- Structural equality; the fields of constructors are compared from the first to the last. -/
def eqlOf : Val → Val → Val
  | .era, _ => .era
  | .any, _ => .num 1
  | _, .era => .era
  | _, .any => .num 1
  | .num a, .num b => .num (if a = b then 1 else 0)
  | .ctr n as, .ctr m bs =>
    if n = m ∧ as.length = bs.length then
      match as, bs with
      | a :: as, b :: bs => eqlAll (eqlOf a b) as bs
      | _, _ => .num 1
    else .num 0
  | _, _ => .num 0

def eqlAll (acc : Val) : List Val → List Val → Val
  | a :: as, b :: bs => eqlAll (andOf acc (eqlOf a b)) as bs
  | _, _ => acc
end

section Eql

attribute [local simp] eqlOf

theorem eqlOf_era (y : Val) : eqlOf .era y = .era := by
  simp

theorem eqlOf_any (y : Val) : eqlOf .any y = .num 1 := by
  simp

theorem eqlOf_num (a b : Nat) : eqlOf (.num a) (.num b) = .num (if a = b then 1 else 0) := by
  simp

theorem eqlOf_nil (nam : Nat) : eqlOf (.ctr nam []) (.ctr nam []) = .num 1 := by
  simp

theorem eqlOf_cons {n m : Nat} {a b : Val} {as bs : List Val} (h : n = m ∧ as.length = bs.length) :
    eqlOf (.ctr n (a :: as)) (.ctr m (b :: bs)) = eqlAll (eqlOf a b) as bs := by
  have hlen : (a :: as).length = (b :: bs).length := by rw [List.length_cons, List.length_cons, h.2]
  rw [eqlOf, if_pos ⟨h.1, hlen⟩]

theorem eqlOf_ctr_ne {n m : Nat} {as bs : List Val} (h : ¬ (n = m ∧ as.length = bs.length)) :
    eqlOf (.ctr n as) (.ctr m bs) = .num 0 := by
  cases as with
  | nil =>
    cases bs with
    | nil =>
      simp only [List.length_nil, and_true] at h
      simpa using h
    | cons b bs => simp
  | cons a as =>
    cases bs with
    | nil => simp
    | cons b bs => rw [eqlOf, if_neg h]

end Eql

/-- An operator that waits for an operand. -/
inductive Stuck : Val → Prop
  | op2 (opr x y) : Stuck (.op2 opr x y)
  | and (x y) : Stuck (.and x y)
  | or (x y) : Stuck (.or x y)

mutual
/-- An erasure lies in the value. -/
def erased : Val → Bool
  | .num _ | .any => false
  | .era => true
  | .ctr _ args => erasedAll args
  | .op2 _ x y | .and x y | .or x y => x.erased || y.erased

def erasedAll : List Val → Bool
  | [] => false
  | v :: vs => v.erased || erasedAll vs
end

/-- A value on which an operator gets stuck. -/
inductive Firm : Val → Prop
  | any : Firm .any
  | ctr (nam args) : Firm (.ctr nam args)
  | stuck {v : Val} : Stuck v → Firm v

variable {x y : Val}

theorem Firm.op2Of (h : Firm x) (opr : Nat) (y : Val) : op2Of opr x y = .op2 opr x y := by
  cases h with
  | stuck h => cases h <;> rfl
  | _ => rfl

theorem Firm.op2Of_num (h : Firm y) (opr n : Nat) : Val.op2Of opr (.num n) y = .op2 opr (.num n) y := by
  cases h with
  | stuck h => cases h <;> rfl
  | _ => rfl

theorem Firm.andOf (h : Firm x) (y : Val) : andOf x y = .and x y := by
  cases h with
  | stuck h => cases h <;> rfl
  | _ => rfl

theorem Firm.orOf (h : Firm x) (y : Val) : orOf x y = .or x y := by
  cases h with
  | stuck h => cases h <;> rfl
  | _ => rfl

/-- Values in head normal form that compare by their heads. -/
inductive Compared : Val → Prop
  | num (n) : Compared (.num n)
  | ctr (nam args) : Compared (.ctr nam args)
  | stuck {v : Val} : Stuck v → Compared v

theorem Compared.eqlOf_era (h : Compared x) : eqlOf x .era = .era := by
  cases h with
  | stuck h => cases h <;> simp [Val.eqlOf]
  | _ => simp [Val.eqlOf]

theorem Compared.eqlOf_any (h : Compared x) : eqlOf x .any = .num 1 := by
  cases h with
  | stuck h => cases h <;> simp [Val.eqlOf]
  | _ => simp [Val.eqlOf]

theorem eqlOf_stuck_left (hx : Stuck x) (hy : Compared y) : eqlOf x y = .num 0 := by
  cases hx <;> cases hy with
  | stuck hy => cases hy <;> simp [eqlOf]
  | _ => simp [eqlOf]

theorem eqlOf_stuck_right (hx : Compared x) (hy : Stuck y) : eqlOf x y = .num 0 := by
  cases hx with
  | stuck hx => exact eqlOf_stuck_left hx (.stuck hy)
  | _ => cases hy <;> simp [eqlOf]

end Val

/-! ### Nodes -/

/-- The node constructors of first-order terms. -/
inductive Shape where
  | ctr (nam : Nat) (ari : Fin 17)
  | op2 (opr : Nat)
  | sup (lab : Nat)
  | inc
  | eql
  | and
  | or
  deriving DecidableEq

namespace Shape

/-- The node of a word, by its tag and its EXT field. -/
def ofTag : Tag → Nat → Option Shape
  | .ctr ari, nam => some (.ctr nam ari)
  | .op2, opr => some (.op2 opr)
  | .sup, lab => some (.sup lab)
  | .inc, _ => some .inc
  | .eql, _ => some .eql
  | .and, _ => some .and
  | .or, _ => some .or
  | _, _ => none

def arity : Shape → Nat
  | .ctr _ ari => ari
  | .inc => 1
  | _ => 2

/-- What a node makes of the values of its fields, a superposition apart. A priority wrapper
makes nothing of its field. -/
def val : Shape → List Val → Val
  | .ctr nam _, vs => .ctr nam vs
  | .op2 opr, [x, y] => .op2Of opr x y
  | .inc, [x] => x
  | .eql, [x, y] => .eqlOf x y
  | .and, [x, y] => .andOf x y
  | .or, [x, y] => .orOf x y
  | _, _ => .era

def isSup : Shape → Bool
  | .sup _ => true
  | _ => false

def den (s : Shape) (ds : List Den) : Den :=
  match s, ds with
  | .sup lab, [a, b] => choice lab a b
  | s, ds => gather s.val ds

theorem den_eq {s : Shape} (h : s.isSup = false) (ds : List Den) : s.den ds = gather s.val ds := by
  cases s <;> first | rfl | cases h

/-- A superposed operand: the other one is seen from both sides. -/
theorem den_sup_left {s : Shape} (h : s.isSup = false) (lab : Nat) (a b y : Den) :
    s.den [(Shape.sup lab).den [a, b], y] =
      (Shape.sup lab).den [s.den [a, side lab false y], s.den [b, side lab true y]] := by
  rw [den_eq h, den_eq h, den_eq h]
  exact gather_choice [] [y]

theorem den_sup_right {s : Shape} (h : s.isSup = false) (lab : Nat) (x a b : Den) :
    s.den [x, (Shape.sup lab).den [a, b]] =
      (Shape.sup lab).den [s.den [side lab false x, a], s.den [side lab true x, b]] := by
  rw [den_eq h, den_eq h, den_eq h]
  exact gather_choice [x] []

theorem side_den {s : Shape} (h : s.isSup = false) (lab : Nat) (right : Bool) (ds : List Den) :
    side lab right (s.den ds) = s.den (ds.map (side lab right)) := by
  rw [den_eq h, den_eq h]
  exact side_gather

theorem arity_of_ofTag {s : Shape} {tag : Tag} {e : Nat} (h : ofTag tag e = some s) :
    tagArity tag = s.arity := by
  unfold ofTag at h
  split at h <;> cases h <;> rfl

end Shape

/-! ### Expressions -/

/-- Closed under `dup`, which binds one level more: levels count from the outermost binder. -/
inductive Expr where
  | num (n : Nat)
  | era
  | any
  | node (s : Shape) (args : List Expr)
  | dup (lab : Nat) (val body : Expr)
  | cop (right : Bool) (lab lvl : Nat)

mutual
/-- The meaning under `len` binders, whose shared values are `ρ`. -/
def Expr.den (len : Nat) (ρ : Nat → Den) : Expr → Den
  | .num n => fun _ => .num n
  | .era => fun _ => .era
  | .any => fun _ => .any
  | .node s args => s.den (denAll len ρ args)
  | .dup _ val body => body.den (len + 1) (Function.update ρ (len + 1) (val.den len ρ))
  | .cop right lab lvl => side lab right (ρ lvl)

def denAll (len : Nat) (ρ : Nat → Den) : List Expr → List Den
  | [] => []
  | e :: es => e.den len ρ :: denAll len ρ es
end

/-- The meaning of a closed expression. -/
def Expr.value (e : Expr) : Den := e.den 0 fun _ _ => .era

mutual
/-- Binders on the deepest path. -/
def Expr.nesting : Expr → Nat
  | .node _ args => nestingAll args
  | .dup _ val body => max val.nesting (body.nesting + 1)
  | _ => 0

def nestingAll : List Expr → Nat
  | [] => 0
  | e :: es => max e.nesting (nestingAll es)
end

theorem denAll_eq (len : Nat) (ρ : Nat → Den) (es : List Expr) :
    denAll len ρ es = es.map (·.den len ρ) := by
  induction es with
  | nil => rfl
  | cons e es ih => rw [denAll, ih, List.map_cons]

theorem nesting_le_of_mem {e : Expr} {es : List Expr} (h : e ∈ es) : e.nesting ≤ nestingAll es := by
  induction es with
  | nil => cases h
  | cons x xs ih =>
    rw [nestingAll]
    rcases List.mem_cons.mp h with rfl | h
    · exact Nat.le_max_left _ _
    · exact (ih h).trans (Nat.le_max_right _ _)

/-- Operators give numbers of 32 bits. -/
theorem termOp2U32_lt {opr a b : Nat} (ha : a < 2 ^ 32) (hb : b < 2 ^ 32) :
    termOp2U32 opr a b < 2 ^ 32 := by
  have hpos : 0 < 2 ^ 32 := Nat.two_pow_pos 32
  have hbit (p : Bool) : (if p = true then 1 else 0) < 2 ^ 32 := by cases p <;> decide
  delta termOp2U32
  dsimp only
  split
  · exact Nat.mod_lt _ hpos
  · exact Nat.mod_lt _ hpos
  · exact Nat.mod_lt _ hpos
  · split
    · exact (Nat.div_le_self a b).trans_lt ha
    · exact hpos
  · split
    · exact (Nat.mod_le a b).trans_lt ha
    · exact hpos
  · exact Nat.and_lt_two_pow _ hb
  · exact Nat.or_lt_two_pow ha hb
  · exact Nat.xor_lt_two_pow ha hb
  · exact Nat.mod_lt _ hpos
  · exact Nat.lt_of_le_of_lt (by rw [Nat.shiftRight_eq_div_pow]; exact Nat.div_le_self _ _) ha
  · omega
  · exact hbit _
  · exact hbit _
  · exact hbit _
  · exact hbit _
  · exact hbit _
  · exact hbit _
  · exact hpos

end Hvm.Choice
