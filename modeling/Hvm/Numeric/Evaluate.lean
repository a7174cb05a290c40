import Hvm.Machine

/-! Trees of OP2 nodes over numbers (`term/op2_u32.c`, the OP2 and F_OP2_NUM frames of `wnf`):
what they evaluate to, and which C operations are executed on the way. -/

namespace Hvm.Numeric

open Machine Relation

/-! ### Reference semantics -/

/-- The operator codes `OP_ADD .. OP_GE`. -/
inductive Opr where
  | add | sub | mul | div | mod | and | or | xor | lsh | rsh | not | eq | ne | lt | le | gt | ge
  deriving DecidableEq, Repr

def Opr.code : Opr → Nat
  | add => 0 | sub => 1 | mul => 2 | div => 3 | mod => 4 | and => 5 | or => 6 | xor => 7
  | lsh => 8 | rsh => 9 | not => 10 | eq => 11 | ne => 12 | lt => 13 | le => 14 | gt => 15
  | ge => 16

def Opr.isShift : Opr → Bool
  | lsh | rsh => true
  | _ => false

def ofBool (p : Bool) : BitVec 32 := if p then 1 else 0

/-- Arithmetic modulo `2^32`, 0 for a division or remainder by zero, comparisons give 0 or 1,
NOT uses its right operand only. -/
def Opr.eval (o : Opr) (a b : BitVec 32) : BitVec 32 :=
  match o with
  | add => a + b
  | sub => a - b
  | mul => a * b
  | div => if b = 0 then 0 else a / b
  | mod => if b = 0 then 0 else a % b
  | and => a &&& b
  | or => a ||| b
  | xor => a ^^^ b
  | lsh => a <<< b
  | rsh => a >>> b
  | not => ~~~b
  | eq => ofBool (a == b)
  | ne => ofBool (a != b)
  | lt => ofBool (a.ult b)
  | le => ofBool (a.ule b)
  | gt => ofBool (b.ult a)
  | ge => ofBool (b.ule a)

inductive Expr where
  | num (n : BitVec 32)
  | op2 (o : Opr) (l r : Expr)
  deriving DecidableEq, Repr

namespace Expr

def value : Expr → BitVec 32
  | num n => n
  | op2 o l r => o.eval l.value r.value

/-- Every shift in the tree is by less than 32. -/
def ShiftsFit : Expr → Prop
  | num _ => True
  | op2 o l r => l.ShiftsFit ∧ r.ShiftsFit ∧ (o.isShift = true → r.value.toNat < 32)

def decShiftsFit : (e : Expr) → Decidable e.ShiftsFit
  | num _ => .isTrue trivial
  | op2 _ l r =>
    have := decShiftsFit l
    have := decShiftsFit r
    inferInstanceAs (Decidable (_ ∧ _ ∧ _))

instance (e : Expr) : Decidable e.ShiftsFit := decShiftsFit e

end Expr

/-! ### The C operations -/

/-- A C shift of 32 bits: undefined by 32 or more. -/
def shiftU32 (shift : Nat → Nat → Nat) (a b : Nat) : Option Nat :=
  if b < 32 then some (shift a b % 2 ^ 32) else none

/-- A C division or remainder: undefined by zero. -/
def divideU32 (divide : Nat → Nat → Nat) (a b : Nat) : Option Nat :=
  if b = 0 then none else some (divide a b)

/-- `term_op2_u32`, undefined where a C operation it executes is. -/
def termOp2Checked (opr a b : Nat) : Option Nat :=
  if opr = 3 then if b ≠ 0 then divideU32 (· / ·) a b else some 0
  else if opr = 4 then if b ≠ 0 then divideU32 (· % ·) a b else some 0
  else if opr = 8 then shiftU32 (· <<< ·) a b
  else if opr = 9 then shiftU32 (· >>> ·) a b
  else some (termOp2U32 opr a b)

theorem toNat_ofBool (p : Bool) : (ofBool p).toNat = if p then 1 else 0 := by
  cases p <;> rfl

theorem toNat_beq (a b : BitVec 32) : (a.toNat == b.toNat) = (a == b) := by
  by_cases h : a = b
  · rw [h, beq_self_eq_true, beq_self_eq_true]
  · have hn : a.toNat ≠ b.toNat := fun hn => h (BitVec.eq_of_toNat_eq hn)
    rw [beq_false_of_ne h, beq_false_of_ne hn]

theorem termOp2U32_sub (a b : Nat) : termOp2U32 1 a b = (a + 2 ^ 32 - b) % 2 ^ 32 := by
  delta termOp2U32
  simp only

/-- The value of `term_op2_u32` is the reference value, where it is defined. -/
theorem termOp2U32_eval (o : Opr) (a b : BitVec 32) (h : o.isShift = true → b.toNat < 32) :
    termOp2U32 o.code a.toNat b.toNat = (o.eval a b).toNat := by
  have ha := a.isLt
  have hb := b.isLt
  cases o with
  | add => exact (BitVec.toNat_add a b).symm
  | sub =>
    have hdiff : 2 ^ 32 - b.toNat + a.toNat = a.toNat + 2 ^ 32 - b.toNat := by omega
    rw [Opr.code, Opr.eval, termOp2U32_sub, BitVec.toNat_sub, hdiff]
  | mul => exact (BitVec.toNat_mul a b).symm
  | div =>
    change (if b.toNat ≠ 0 then a.toNat / b.toNat else 0) = (if b = 0 then 0 else a / b).toNat
    by_cases hz : b = 0
    · subst hz
      rfl
    · have hn : b.toNat ≠ 0 := fun h => hz (BitVec.eq_of_toNat_eq h)
      rw [if_pos hn, if_neg hz, BitVec.toNat_udiv]
  | mod =>
    change (if b.toNat ≠ 0 then a.toNat % b.toNat else 0) = (if b = 0 then 0 else a % b).toNat
    by_cases hz : b = 0
    · subst hz
      rfl
    · have hn : b.toNat ≠ 0 := fun h => hz (BitVec.eq_of_toNat_eq h)
      rw [if_pos hn, if_neg hz, BitVec.toNat_umod]
  | and => exact (BitVec.toNat_and a b).symm
  | or => exact (BitVec.toNat_or a b).symm
  | xor => exact (BitVec.toNat_xor a b).symm
  | lsh =>
    change a.toNat <<< (b.toNat % 32) % 2 ^ 32 = (a <<< b).toNat
    rw [Nat.mod_eq_of_lt (h rfl), BitVec.shiftLeft_eq', BitVec.toNat_shiftLeft]
  | rsh =>
    change a.toNat >>> (b.toNat % 32) = (a >>> b).toNat
    rw [Nat.mod_eq_of_lt (h rfl), BitVec.ushiftRight_eq', BitVec.toNat_ushiftRight]
  | not => exact (BitVec.toNat_not).symm
  | eq =>
    change (if (a.toNat == b.toNat) = true then 1 else 0) = (ofBool (a == b)).toNat
    rw [toNat_ofBool, toNat_beq]
  | ne =>
    change (if (a.toNat != b.toNat) = true then 1 else 0) = (ofBool (a != b)).toNat
    rw [toNat_ofBool, bne, bne, toNat_beq]
  | lt => exact (toNat_ofBool _).symm
  | le => exact (toNat_ofBool _).symm
  | gt => exact (toNat_ofBool _).symm
  | ge => exact (toNat_ofBool _).symm

/-- The divisions are guarded, the shifts are not. -/
theorem termOp2Checked_none (o : Opr) (a b : Nat) :
    termOp2Checked o.code a b = none ↔ o.isShift = true ∧ 32 ≤ b := by
  by_cases hb : b = 0
  · cases o <;> simp [termOp2Checked, Opr.code, Opr.isShift, shiftU32, hb]
  · cases o <;> simp [termOp2Checked, Opr.code, Opr.isShift, shiftU32, divideU32, hb]

/-! ### The machine -/

/-- The heap holds the tree `e` behind `t`. -/
inductive Holds (rt : Rt) : Term → Expr → Prop where
  | num (n : BitVec 32) : Holds rt (termNewNum n.toNat) (.num n)
  | op2 {t : Term} {o : Opr} {l r : Expr} : t.tag = .op2 → t.ext = o.code →
    Holds rt (heapRead rt t.val) l → Holds rt (heapRead rt (t.val + 1)) r →
    Holds rt t (.op2 o l r)

/-- The arguments of `term_op2_u32`, when the turn calls it. -/
def op2Call (m : Machine) : Option (Nat × Nat × Nat) :=
  match m.mode, m.stack with
  | .apply whnf, .tm frame :: _ =>
    let y := heapRead m.rt (frame.val + 1)
    if whnf.tag = .num ∧ frame.tag = .op2 ∧ y.tag = .num then
      some (frame.ext, u32 whnf.val, u32 y.val)
    else if whnf.tag = .num ∧ frame.tag = .fOp2Num then some (frame.ext, u32 frame.val, u32 whnf.val)
    else none
  | _, _ => none

/-- The next turn executes an undefined C operation. -/
def Undefined (m : Machine) : Prop :=
  ∃ opr a b, op2Call m = some (opr, a, b) ∧ termOp2Checked opr a b = none

/-- `wnf` returns the number `v`, and no turn on the way executes an undefined operation. -/
structure Evaluates (book : BookTable) (rt : Rt) (t : Term) (v : BitVec 32) : Prop where
  returns : ∃ fuel rt', run book fuel (start rt t) = some (.done rt' (termNewNum v.toNat))
  defined : ∀ m, ReflTransGen (Step book) (start rt t) m → ¬ Undefined m

theorem op2Call_turn (book : BookTable) {m : Machine} {opr a b : Nat}
    (h : op2Call m = some (opr, a, b)) :
    ∃ frame stack, m.stack = frame :: stack ∧
      turn book m = goApply stack (wnfOp2NumNumRaw m.rt opr a b) := by
  obtain ⟨rt, stack, mode⟩ := m
  cases mode with
  | enter next => cases h
  | apply whnf =>
    cases stack with
    | nil => cases h
    | cons frame stack =>
      cases frame with
      | native k => cases h
      | tm frame =>
        refine ⟨_, _, rfl, ?_⟩
        simp only [op2Call] at h
        by_cases hleft : whnf.tag = .num ∧ frame.tag = .op2 ∧
            (heapRead rt (frame.val + 1)).tag = .num
        · obtain ⟨hw, hf, hy⟩ := hleft
          rw [if_pos ⟨hw, hf, hy⟩] at h
          cases h
          simp only [turn, applyFrame, hf, applyOp2, hw, hy, if_true]
        · rw [if_neg hleft] at h
          by_cases hright : whnf.tag = .num ∧ frame.tag = .fOp2Num
          · obtain ⟨hw, hf⟩ := hright
            rw [if_pos ⟨hw, hf⟩] at h
            cases h
            simp only [turn, applyFrame, hf, applyOp2Num, hw]
          · rw [if_neg hright] at h
            cases h

theorem Opr.code_lt (o : Opr) : o.code < 2 ^ 18 := by
  cases o <;> decide

theorem u32_toNat (n : BitVec 32) : u32 n.toNat = n.toNat := Nat.mod_eq_of_lt n.isLt

section Run

variable {book : BookTable} {rt rt' : Rt} {stack : List Frame} {t : Term} {e : Expr}

/-- The tags of a tree tell a literal from a node. -/
theorem Holds.tag (h : Holds rt t e) :
    (∃ n, e = .num n ∧ t = termNewNum n.toNat) ∨ (∃ o l r, e = .op2 o l r) ∧ t.tag = .op2 := by
  cases h with
  | num n => exact .inl ⟨n, rfl, rfl⟩
  | op2 htag => exact .inr ⟨⟨_, _, _, rfl⟩, htag⟩

theorem step_of_turn {m m' : Machine} (h : turn book m = .next m') (hroom : m'.rt.next ≤ heapCap) :
    Step book m m' := by
  rw [Step, step, h, checkHeap, if_pos hroom]

/-- A turn that executes no undefined operation. -/
def Clean (book : BookTable) (m m' : Machine) : Prop := Step book m m' ∧ ¬ Undefined m

theorem Clean.step {m m' : Machine} (h : ReflTransGen (Clean book) m m') :
    ReflTransGen (Step book) m m' :=
  ReflTransGen.mono (fun _ _ h => h.1) m m' h

theorem clean_of_turn {m m' : Machine} (h : turn book m = .next m') (hroom : m'.rt.next ≤ heapCap)
    (hcall : op2Call m = none) : Clean book m m' := by
  refine ⟨step_of_turn h hroom, ?_⟩
  rintro ⟨opr, a, b, hsome, -⟩
  rw [hcall] at hsome
  cases hsome

/-- The same heap up to interactions. -/
def Same (rt rt' : Rt) : Prop := rt'.heap = rt.heap ∧ rt'.next = rt.next

theorem Same.refl (rt : Rt) : Same rt rt := ⟨rfl, rfl⟩

theorem Same.trans {rt'' : Rt} (h : Same rt rt') (h' : Same rt' rt'') : Same rt rt'' :=
  ⟨h'.1.trans h.1, h'.2.trans h.2⟩

/-- The run of a tree: to its value, without an undefined operation, when its shifts fit, and to
an undefined operation when one does not. -/
def Runs (book : BookTable) (rt : Rt) (stack : List Frame) (t : Term) (e : Expr) : Prop :=
  (e.ShiftsFit → ∃ rt', Same rt rt' ∧ ReflTransGen (Clean book) ⟨rt, stack, .enter t⟩
    ⟨rt', stack, .apply (termNewNum e.value.toNat)⟩) ∧
  (¬ e.ShiftsFit → ∃ m, ReflTransGen (Step book) ⟨rt, stack, .enter t⟩ m ∧ Undefined m)

/-- With both operands reduced, the operator is executed. -/
theorem runs_call {o : Opr} {l r : Expr} {m : Machine} (hl : l.ShiftsFit) (hr : r.ShiftsFit)
    (hroom : rt.next ≤ heapCap) (hsame : Same rt m.rt)
    (hrun : ReflTransGen (Clean book) ⟨rt, stack, .enter t⟩ m)
    (hcall : op2Call m = some (o.code, l.value.toNat, r.value.toNat))
    (hstack : m.stack.tail = stack) : Runs book rt stack t (.op2 o l r) := by
  obtain ⟨frame, stack', hm, hturn⟩ := op2Call_turn book hcall
  rw [hm, List.tail_cons] at hstack
  subst hstack
  constructor
  · rintro ⟨-, -, hfit⟩
    have hstep : Clean book m ⟨m.rt.tick, stack', .apply (termNewNum
        (termOp2U32 o.code l.value.toNat r.value.toNat))⟩ := by
      refine ⟨step_of_turn hturn (Nat.le_trans (Nat.le_of_eq hsame.2) hroom), ?_⟩
      rintro ⟨opr, a, b, hsome, hnone⟩
      rw [hcall] at hsome
      cases hsome
      obtain ⟨hshift, hbig⟩ := (termOp2Checked_none o _ _).mp hnone
      have hlt := hfit hshift
      omega
    rw [termOp2U32_eval o _ _ hfit] at hstep
    exact ⟨m.rt.tick, hsame.trans ⟨rfl, rfl⟩, hrun.tail hstep⟩
  · intro hunfit
    refine ⟨m, Clean.step hrun, _, _, _, hcall, (termOp2Checked_none o _ _).mpr ?_⟩
    by_contra hfit
    refine hunfit ⟨hl, hr, fun hshift => ?_⟩
    by_contra hbig
    exact hfit ⟨hshift, by omega⟩

theorem Holds.runs (book : BookTable) (h : Holds rt t e) (hroom : rt.next ≤ heapCap) {rt' : Rt} (hsame : Same rt rt')
    (stack : List Frame) : Runs book rt' stack t e := by
  induction h generalizing rt' stack with
  | num n =>
    have hroom' : rt'.next ≤ heapCap := Nat.le_trans (Nat.le_of_eq hsame.2) hroom
    refine ⟨fun _ => ⟨rt', .refl rt', .single (clean_of_turn rfl hroom' rfl)⟩, fun hunfit => ?_⟩
    exact absurd trivial hunfit
  | @op2 t o l r htag hext hl hr ihl ihr =>
    have hroom' : rt'.next ≤ heapCap := Nat.le_trans (Nat.le_of_eq hsame.2) hroom
    have hread (rt1 : Rt) (h1 : Same rt rt1) (c : Nat) : heapRead rt1 c = heapRead rt c := by
      rw [heapRead, h1.1, heapRead]
    have henter : Clean book ⟨rt', stack, .enter t⟩
        ⟨rt', .tm t :: stack, .enter (heapRead rt t.val)⟩ := by
      refine clean_of_turn ?_ hroom' rfl
      simp only [turn, enter, htag, hread rt' hsame]
    obtain ⟨hlfit, hlunfit⟩ := ihl hsame (.tm t :: stack)
    by_cases hfl : l.ShiftsFit
    · obtain ⟨rt1, hsame1, hrunl⟩ := hlfit hfl
      have hroom1 : rt1.next ≤ heapCap := Nat.le_trans (Nat.le_of_eq hsame1.2) hroom'
      have hleft := ReflTransGen.head henter hrunl
      have hy := hread rt1 (hsame.trans hsame1) (t.val + 1)
      rcases hr.tag with ⟨n, rfl, hn⟩ | ⟨⟨o', l', r', rfl⟩, hrtag⟩
      · -- both operands are numbers
        have hcall : op2Call ⟨rt1, .tm t :: stack, .apply (termNewNum l.value.toNat)⟩ =
            some (o.code, l.value.toNat, n.toNat) := by
          rw [hn] at hy
          simp only [op2Call, hy, htag, termNewNum, termNew, and_self, if_true, hext]
          rw [u32_toNat, u32_toNat]
        exact runs_call hfl trivial hroom' hsame1 hleft hcall rfl
      · -- the right operand is reduced under F_OP2_NUM
        have hne : ¬ (heapRead rt (t.val + 1)).tag = .num := by
          rw [hrtag]
          decide
        have hswap : Clean book ⟨rt1, .tm t :: stack, .apply (termNewNum l.value.toNat)⟩
            ⟨rt1, .tm (termNew false .fOp2Num o.code l.value.toNat) :: stack,
              .enter (heapRead rt (t.val + 1))⟩ := by
          refine clean_of_turn ?_ hroom1 ?_
          · simp only [turn, applyFrame, htag, applyOp2, termNewNum, termNew, hne, if_false, hext, hy]
          · simp only [op2Call, htag, hy, hne, and_false, if_false, termNewNum, termNew, reduceCtorEq]
        have hleft := hleft.tail hswap
        obtain ⟨hrfit, hrunfit⟩ := ihr (hsame.trans hsame1)
          (.tm (termNew false .fOp2Num o.code l.value.toNat) :: stack)
        by_cases hfr : (Expr.op2 o' l' r').ShiftsFit
        · obtain ⟨rt2, hsame2, hrunr⟩ := hrfit hfr
          have hmod : o.code % (extMask + 1) = o.code := Nat.mod_eq_of_lt o.code_lt
          have hcall : op2Call ⟨rt2, .tm (termNew false .fOp2Num o.code l.value.toNat) :: stack,
              .apply (termNewNum (Expr.op2 o' l' r').value.toNat)⟩ =
              some (o.code, l.value.toNat, (Expr.op2 o' l' r').value.toNat) := by
            simp only [op2Call, termNewNum, termNew, reduceCtorEq, false_and, and_false, and_self,
              if_true, if_false, hmod]
            rw [u32_toNat, u32_toNat]
          exact runs_call hfl hfr hroom' (hsame1.trans hsame2) (hleft.trans hrunr) hcall rfl
        · obtain ⟨m, hm, hbad⟩ := hrunfit hfr
          refine ⟨fun hfit => absurd hfit.2.1 hfr, fun _ => ⟨m, (Clean.step hleft).trans hm, hbad⟩⟩
    · obtain ⟨m, hm, hbad⟩ := hlunfit hfl
      exact ⟨fun hfit => absurd hfit.1 hfl, fun _ => ⟨m, .head henter.1 hm, hbad⟩⟩

theorem run_of_steps {m : Machine} {rt' : Rt} {w : Term}
    (h : ReflTransGen (Step book) m ⟨rt', [], .apply w⟩) :
    ∃ fuel, run book fuel m = some (.done rt' w) := by
  induction h using ReflTransGen.head_induction_on with
  | refl => exact ⟨1, rfl⟩
  | head hstep _ ih =>
    obtain ⟨fuel, hrun⟩ := ih
    refine ⟨fuel + 1, ?_⟩
    rw [run, show step book _ = _ from hstep]
    exact hrun

/-- On the way to a state where `wnf` returns, no turn is undefined. -/
theorem clean_path {m m' : Machine} {rt' : Rt} {w : Term}
    (h : ReflTransGen (Clean book) m ⟨rt', [], .apply w⟩) (hm : ReflTransGen (Step book) m m') :
    ¬ Undefined m' := by
  induction h using ReflTransGen.head_induction_on with
  | refl =>
    cases hm using ReflTransGen.head_induction_on with
    | refl =>
      rintro ⟨opr, a, b, hcall, -⟩
      cases hcall
    | head hstep _ => cases hstep
  | head hclean _ ih =>
    rcases ReflTransGen.cases_head hm with rfl | ⟨m1, hstep, hrest⟩
    · exact hclean.2
    · have heq := Outcome.next.inj (hclean.1.symm.trans hstep)
      exact ih (heq ▸ hrest)

/-- A tree evaluates to its reference value without an undefined operation if and only if every
shift in it is by less than 32. -/
theorem evaluates_iff (book : BookTable) (hroom : rt.next ≤ heapCap) (h : Holds rt t e) :
    Evaluates book rt t e.value ↔ e.ShiftsFit := by
  obtain ⟨hfit, hunfit⟩ := h.runs book hroom (.refl rt) []
  constructor
  · intro heval
    by_contra hno
    obtain ⟨m, hm, hbad⟩ := hunfit hno
    exact heval.defined m hm hbad
  · intro hyes
    obtain ⟨rt', -, hrun⟩ := hfit hyes
    obtain ⟨fuel, hdone⟩ := run_of_steps (Clean.step hrun)
    exact ⟨⟨fuel, rt', hdone⟩, fun m hm => clean_path hrun hm⟩

end Run

/-- `(a << b)` over two numbers, in the heap from cell 1 on. -/
def shiftRt (a b : BitVec 32) : Rt :=
  (termNewOp2 ⟨fun _ => .tm Term.zero, 1, 0, 0, []⟩ Opr.lsh.code (termNewNum a.toNat)
    (termNewNum b.toNat)).1

theorem shift_holds (a b : BitVec 32) :
    Holds (shiftRt a b) (termNew false .op2 Opr.lsh.code 1) (.op2 .lsh (.num a) (.num b)) :=
  .op2 rfl rfl (.num a) (.num b)

theorem shift_evaluates :
    Evaluates (fun _ => 0) (shiftRt 3 31) (termNew false .op2 Opr.lsh.code 1) 0x80000000 :=
  (evaluates_iff _ (by decide) (shift_holds 3 31)).mpr (by decide)

/-- `(1 << 32)` is executed as it stands. -/
theorem shift_undefined :
    Holds (shiftRt 1 32) (termNew false .op2 Opr.lsh.code 1) (.op2 .lsh (.num 1) (.num 32)) ∧
      ¬ Evaluates (fun _ => 0) (shiftRt 1 32) (termNew false .op2 Opr.lsh.code 1)
        (Expr.op2 .lsh (.num 1) (.num 32)).value := by
  have hholds := shift_holds 1 32
  obtain ⟨-, hunfit⟩ := hholds.runs (fun _ => 0) (by decide) (.refl _) []
  obtain ⟨m, hm, hbad⟩ := hunfit (by decide)
  exact ⟨hholds, fun heval => heval.defined m hm hbad⟩

end Hvm.Numeric
