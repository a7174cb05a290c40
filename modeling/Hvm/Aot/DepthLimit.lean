import Hvm.AppSpine
import Hvm.Aot.Exec

/-! What happens to the stack when a compiled call falls back to the plain reference. The
frames of an activation split into the pending arguments, which are the APP frames on
top, and the frames beneath them. Compiled code moves the first part only. -/

namespace Hvm

theorem bind_eq_ok {ε α β : Type} {x : Except ε α} {f : α → Except ε β} {r : β} :
    (x >>= f) = .ok r ↔ ∃ a, x = .ok a ∧ f a = .ok r := by
  cases x <;> simp [bind, Except.bind]

theorem pure_eq_ok {ε α : Type} {a r : α} : (pure a : Except ε α) = .ok r ↔ a = r := by
  simp [pure, Except.pure]

/-- The frames beneath the pending arguments. -/
def beneath (stack : List Term) : List Term := stack.dropWhile (·.tag = .app)

/-- The pending arguments, the next one first. -/
def pendingArgs (rt : Rt) (stack : List Term) : List Term :=
  (stack.takeWhile (·.tag = .app)).map fun frm => heapRead rt (frm.val + 1)

theorem beneath_eq_nil {stack : List Term} :
    beneath stack = [] ↔ ∀ frm ∈ stack, frm.tag = .app := by
  induction stack with
  | nil => simp [beneath]
  | cons frm stack ih =>
    by_cases h : frm.tag = .app
    · have hh : beneath (frm :: stack) = beneath stack := by simp [beneath, h]
      rw [hh, ih]
      simp [h]
    · simp [beneath, h]

theorem beneath_cons {frm : Term} {stack : List Term} (h : frm.tag = .app) :
    beneath (frm :: stack) = beneath stack := by
  simp [beneath, h]

theorem beneath_append {frames stack : List Term} (h : beneath frames = []) :
    beneath (frames ++ stack) = beneath stack := by
  induction frames with
  | nil => rfl
  | cons frm frames ih =>
    have hh := beneath_eq_nil.mp h
    rw [List.cons_append, beneath_cons (hh frm (by simp))]
    exact ih (beneath_eq_nil.mpr fun x hx => hh x (by simp [hx]))

/-! Stack operations -/

theorem aotPopAppArg_beneath (rt : Rt) (stack : List Term) :
    beneath (aotPopAppArg rt stack).2 = beneath stack := by
  cases stack with
  | nil => rfl
  | cons frm stack =>
    by_cases h : frm.tag = .app
    · simp [aotPopAppArg, h, beneath_cons h]
    · simp [aotPopAppArg, h]

theorem aotPushAppArg_beneath (rt : Rt) (stack : List Term) (arg : Term) :
    beneath (aotPushAppArg rt stack arg).2 = beneath stack :=
  beneath_cons rfl

theorem aotPushFieldsFrom_beneath (rt : Rt) (stack : List Term) (loc n : Nat) :
    beneath (aotPushFieldsFrom rt stack loc n).2 = beneath stack := by
  induction n generalizing rt stack with
  | zero => rfl
  | succ n ih =>
    rw [aotPushFieldsFrom, ih]
    exact aotPushAppArg_beneath _ _ _

theorem aotPushFields_beneath (rt : Rt) (stack : List Term) (ctr : Term) :
    beneath (aotPushFields rt stack ctr).2 = beneath stack :=
  aotPushFieldsFrom_beneath _ _ _ _

theorem matDispatch_beneath (key : Nat) (reuse : Bool) (rt : Rt) (stack : List Term) (ctr : Term) :
    beneath (matDispatch key reuse rt stack ctr).2.2 = beneath stack := by
  unfold matDispatch
  split
  · exact aotPushFields_beneath _ _ _
  · cases reuse
    · rfl
    · exact aotPushAppArg_beneath _ _ _

theorem swiDispatch_beneath (key : Nat) (reuse : Bool) (rt : Rt) (stack : List Term) (num : Term) :
    beneath (swiDispatch key reuse rt stack num).2.2 = beneath stack := by
  unfold swiDispatch
  split
  · rfl
  · cases reuse
    · rfl
    · exact aotPushAppArg_beneath _ _ _

/-- The unwinding loops return only over a stack of APP frames. -/
theorem aotUnwind_ok {stop : Stop} {rt : Rt} {out : Term} {stack : List Term} {r : Rt × Term}
    (h : aotUnwind stop rt out stack = .ok r) : beneath stack = [] := by
  induction stack generalizing rt out with
  | nil => rfl
  | cons frm stack ih =>
    by_cases ht : frm.tag = .app
    · rw [beneath_cons ht]
      simp only [aotUnwind, ht] at h
      exact ih h
    · simp [aotUnwind, ht] at h

def SpineOut.stack : SpineOut → List Term
  | .ret _ stack _ | .tail _ _ _ _ stack => stack

/-- Every way of running compiled code with `fuel`, from a given stack to the one it
leaves, keeps the frames beneath. -/
structure KeepsBeneath (A : Aot) (fuel : Nat) : Prop where
  expr : ∀ {depth locals rt stack e r},
    evalExpr A fuel depth locals rt stack e = .ok r → beneath r.2.1 = beneath stack
  spine : ∀ {depth argIn locals rt stack s r},
    execSpine A fuel depth argIn locals rt stack s = .ok r → beneath r.stack = beneath stack
  fn : ∀ {depth fn rt stack r},
    execFn A fuel depth fn rt stack = .ok r → beneath r.2.1 = beneath stack
  call : ∀ {depth direct id tok rt stack r},
    aotCall A fuel depth direct id tok rt stack = .ok r → beneath r.2.1 = beneath stack
  callExpr1 : ∀ {depth id tok arg rt stack r},
    aotCallExpr1 A fuel depth id tok arg rt stack = .ok r → beneath stack = [] →
      beneath r.2.1 = []

theorem evalSeq_beneath
    {eval : Rt → List Term → Expr → Except Stop (Rt × List Term × Term)}
    (heval : ∀ rt stack e r, eval rt stack e = .ok r → beneath r.2.1 = beneath stack)
    {es : List Expr} {rt : Rt} {stack : List Term} {r : Rt × List Term × List Term}
    (h : evalSeq eval es rt stack = .ok r) : beneath r.2.1 = beneath stack := by
  induction es generalizing rt stack r with
  | nil =>
    cases h
    rfl
  | cons e es ih =>
    simp only [evalSeq, bind_eq_ok, pure_eq_ok] at h
    obtain ⟨a, ha, b, hb, rfl⟩ := h
    exact (ih hb).trans (heval _ _ _ _ ha)

theorem evalPush_beneath
    {eval : Rt → List Term → Expr → Except Stop (Rt × List Term × Term)}
    (heval : ∀ rt stack e r, eval rt stack e = .ok r → beneath r.2.1 = beneath stack)
    {es : List Expr} {rt : Rt} {stack : List Term} {r : Rt × List Term}
    (h : evalPush eval es rt stack = .ok r) : beneath r.2 = beneath stack := by
  induction es generalizing rt stack r with
  | nil =>
    cases h
    rfl
  | cons e es ih =>
    simp only [evalPush, bind_eq_ok] at h
    obtain ⟨a, ha, hb⟩ := h
    rw [← heval _ _ _ _ ha, ih hb]
    exact aotPushAppArg_beneath _ _ _

theorem aotLoopFn2_beneath {loop : AotLoop} {zeroTok succTok fuel : Nat}
    {hit two : Rt → Term → Term → Except Stop (Rt × Term)} {rt : Rt} {stack : List Term}
    {r : Rt × List Term × Term}
    (h : aotLoopFn2 loop zeroTok succTok fuel hit two rt stack = .ok r) :
    beneath r.2.1 = beneath stack := by
  have hp := aotPopAppArg_beneath rt stack
  simp only [aotLoopFn2] at h
  split at h
  · simp only [pure_eq_ok] at h
    rw [← h]
    exact hp
  · simp only [bind_eq_ok] at h
    obtain ⟨a, -, h⟩ := h
    have hp2 := (aotPopAppArg_beneath a.1 (aotPopAppArg rt stack).2).trans hp
    split at h
    · split at h
      · split at h
        · simp only [pure_eq_ok] at h
          rw [← h]
          exact hp2
        · simp only [bind_eq_ok, pure_eq_ok] at h
          obtain ⟨b, -, rfl⟩ := h
          exact hp2
      · split at h
        · split at h
          · simp only [pure_eq_ok] at h
            rw [← h]
            exact hp2
          · simp only [bind_eq_ok, pure_eq_ok] at h
            obtain ⟨b, -, rfl⟩ := h
            exact hp2
        · simp only [pure_eq_ok] at h
          rw [← h]
          exact hp
    · simp only [pure_eq_ok] at h
      rw [← h]
      exact hp

theorem aotLoopU32_beneath {loop : AotLoop} {zeroTok succTok fuel : Nat} {rt : Rt}
    {stack : List Term} {r : Rt × List Term × Term}
    (h : aotLoopU32 loop zeroTok succTok fuel rt stack = .ok r) :
    beneath r.2.1 = beneath stack := by
  have hp := aotPopAppArg_beneath rt stack
  simp only [aotLoopU32] at h
  split at h
  · exact aotLoopFn2_beneath h
  · split at h
    · simp only [pure_eq_ok] at h
      rw [← h]
      exact hp
    · simp only [bind_eq_ok, pure_eq_ok] at h
      obtain ⟨b, -, rfl⟩ := h
      exact hp

theorem KeepsBeneath.zero (A : Aot) : KeepsBeneath A 0 := by
  constructor <;> intros <;> simp_all [evalExpr, execSpine, execFn, aotCall, aotCallExpr1]

theorem KeepsBeneath.expr_succ {A : Aot} {fuel : Nat} (ih : KeepsBeneath A fuel) {depth : Nat}
    {locals : List Local} {rt : Rt} {stack : List Term} {e : Expr} {r : Rt × List Term × Term}
    (h : evalExpr A (fuel + 1) depth locals rt stack e = .ok r) :
    beneath r.2.1 = beneath stack := by
  cases e with
  | num | era | any | nam | ref | var | dp0 | dp1 | fallback =>
    simp only [evalExpr, Except.ok.injEq] at h
    rw [← h]
  | ctr id args =>
    simp only [evalExpr, bind_eq_ok, pure_eq_ok] at h
    obtain ⟨a, ha, rfl⟩ := h
    exact evalSeq_beneath (fun _ _ _ _ => ih.expr) ha
  | wrapCtr1 _ _ x | use x =>
    simp only [evalExpr, bind_eq_ok, pure_eq_ok] at h
    obtain ⟨a, ha, rfl⟩ := h
    have hh := ih.expr ha
    exact hh
  | app x y | sup _ x y =>
    simp only [evalExpr, bind_eq_ok, pure_eq_ok] at h
    obtain ⟨a, ha, b, hb, rfl⟩ := h
    exact (ih.expr hb).trans (ih.expr ha)
  | op2 _ x y =>
    simp only [evalExpr, bind_eq_ok] at h
    obtain ⟨a, ha, b, hb, h⟩ := h
    have hh := (ih.expr hb).trans (ih.expr ha)
    split at h <;> (cases h; exact hh)
  | call =>
    simp only [evalExpr, bind_eq_ok, pure_eq_ok] at h
    obtain ⟨a, -, b, -, rfl⟩ := h
    rfl
  | call1 id tok arg =>
    simp only [evalExpr, bind_eq_ok, pure_eq_ok] at h
    obtain ⟨a, ha, b, hb, rfl⟩ := h
    exact beneath_append (ih.callExpr1 hb (ih.expr ha))

theorem KeepsBeneath.spine_succ {A : Aot} {fuel : Nat} (ih : KeepsBeneath A fuel) {depth : Nat}
    {argIn : Term} {locals : List Local} {rt : Rt} {stack : List Term} {s : Spine} {r : SpineOut}
    (h : execSpine A (fuel + 1) depth argIn locals rt stack s = .ok r) :
    beneath r.stack = beneath stack := by
  cases s with
  | retFallback loc len =>
    simp only [execSpine, Except.ok.injEq] at h
    rw [← h]
    rfl
  | ref direct id tok alt =>
    simp only [execSpine, Except.ok.injEq] at h
    rw [← h]
    rfl
  | ret e =>
    simp only [execSpine, bind_eq_ok, pure_eq_ok] at h
    obtain ⟨a, ha, rfl⟩ := h
    exact (ih.expr ha :)
  | direct id e0 e1 rest =>
    simp only [execSpine, bind_eq_ok] at h
    obtain ⟨b, hb, a, ha, h⟩ := h
    have hh := (ih.expr ha).trans (ih.expr hb)
    split at h
    · simp only [bind_eq_ok, pure_eq_ok] at h
      obtain ⟨c, -, rfl⟩ := h
      exact hh
    · exact (ih.spine h).trans hh
  | app arg rest =>
    simp only [execSpine, bind_eq_ok] at h
    obtain ⟨a, ha, h⟩ := h
    rw [ih.spine h, aotPushAppArg_beneath]
    exact (ih.expr ha :)
  | lam loc len rest =>
    simp only [execSpine] at h
    have hp := aotPopAppArg_beneath rt stack
    split at h
    · simp only [Except.ok.injEq] at h
      rw [← h]
      exact hp
    · exact (ih.spine h).trans hp
  | mat isArgIn loc len key hit reuse mis =>
    simp only [execSpine] at h
    have hp : beneath (if isArgIn then (argIn, stack) else aotPopAppArg rt stack).2 =
        beneath stack := by
      cases isArgIn
      · exact aotPopAppArg_beneath rt stack
      · rfl
    generalize (if isArgIn then (argIn, stack) else aotPopAppArg rt stack) = pop at h hp
    split at h
    · simp only [Except.ok.injEq] at h
      rw [← h]
      exact hp
    · simp only [bind_eq_ok] at h
      obtain ⟨a, -, h⟩ := h
      split at h
      · rw [ih.spine h, matDispatch_beneath, hp]
      · simp only [Except.ok.injEq] at h
        rw [← h]
        exact hp
  | swi loc len key hit reuse mis =>
    simp only [execSpine] at h
    have hp := aotPopAppArg_beneath rt stack
    split at h
    · simp only [Except.ok.injEq] at h
      rw [← h]
      exact hp
    · simp only [bind_eq_ok] at h
      obtain ⟨a, -, h⟩ := h
      split at h
      · simp only [Except.ok.injEq] at h
        rw [← h]
        exact hp
      · rw [ih.spine h, swiDispatch_beneath, hp]
  | use loc len rest =>
    simp only [execSpine] at h
    have hp := aotPopAppArg_beneath rt stack
    split at h
    · simp only [Except.ok.injEq] at h
      rw [← h]
      exact hp
    · simp only [bind_eq_ok] at h
      obtain ⟨a, -, h⟩ := h
      split at h
      · simp only [pure_eq_ok] at h
        rw [← h]
        exact hp
      · simp only [Except.ok.injEq] at h
        rw [← h]
        exact hp
      · simp only [Except.ok.injEq] at h
        rw [← h]
        exact hp
      · rw [ih.spine h, ← hp]
        exact aotPushAppArg_beneath _ _ _
  | dup lab val rest =>
    simp only [execSpine, bind_eq_ok] at h
    obtain ⟨a, ha, h⟩ := h
    exact (ih.spine h).trans (ih.expr ha)

theorem KeepsBeneath.fn_succ {A : Aot} {fuel : Nat} (ih : KeepsBeneath A fuel) {depth : Nat}
    {fn : Fn} {rt : Rt} {stack : List Term} {r : Rt × List Term × Term}
    (h : execFn A (fuel + 1) depth fn rt stack = .ok r) : beneath r.2.1 = beneath stack := by
  cases fn with
  | loopAdd loop zeroTok succTok => exact aotLoopFn2_beneath (by simpa only [execFn, aotLoopAdd] using h)
  | loopU32 loop zeroTok succTok => exact aotLoopU32_beneath (by simpa only [execFn] using h)
  | spine body =>
    simp only [execFn, bind_eq_ok] at h
    obtain ⟨out, ho, h⟩ := h
    cases out with
    | ret rt' stack' t =>
      simp only [pure_eq_ok] at h
      rw [← h]
      exact ih.spine ho
    | tail direct id tok rt' stack' => exact (ih.call h).trans (ih.spine ho)

theorem KeepsBeneath.call_succ {A : Aot} {fuel : Nat} (ih : KeepsBeneath A fuel) {depth : Nat}
    {direct : Bool} {id tok : Nat} {rt : Rt} {stack : List Term} {r : Rt × List Term × Term}
    (h : aotCall A (fuel + 1) depth direct id tok rt stack = .ok r) :
    beneath r.2.1 = beneath stack := by
  have hf : ∀ {a : Rt × Term}, aotFallbackRef rt tok stack = Except.ok a →
      beneath [] = beneath stack := fun ha => (aotUnwind_ok ha).symm
  simp only [aotCall] at h
  split at h
  · simp only [bind_eq_ok, pure_eq_ok] at h
    obtain ⟨a, ha, rfl⟩ := h
    exact hf ha
  · split at h
    · simp only [bind_eq_ok, pure_eq_ok] at h
      obtain ⟨a, ha, rfl⟩ := h
      exact hf ha
    · exact ih.fn h

theorem KeepsBeneath.callExpr1_succ {A : Aot} {fuel : Nat} (ih : KeepsBeneath A fuel)
    {depth id tok : Nat} {arg : Term} {rt : Rt} {stack : List Term} {r : Rt × List Term × Term}
    (h : aotCallExpr1 A (fuel + 1) depth id tok arg rt stack = .ok r) (hs : beneath stack = []) :
    beneath r.2.1 = [] := by
  simp only [aotCallExpr1] at h
  split at h
  · simp only [bind_eq_ok, pure_eq_ok] at h
    obtain ⟨a, -, rfl⟩ := h
    rfl
  · split at h
    · cases h
    · simp only [bind_eq_ok] at h
      obtain ⟨out, ho, h⟩ := h
      cases out with
      | ret rt' stack' t =>
        simp only [pure_eq_ok] at h
        rw [← h]
        exact (ih.spine ho).trans hs
      | tail direct id tok rt' stack' => exact ((ih.call h).trans (ih.spine ho)).trans hs

theorem keepsBeneath (A : Aot) (fuel : Nat) : KeepsBeneath A fuel := by
  induction fuel with
  | zero => exact KeepsBeneath.zero A
  | succ fuel ih => exact ⟨ih.expr_succ, ih.spine_succ, ih.fn_succ, ih.call_succ, ih.callExpr1_succ⟩

/-! The calls that fall back -/

/-- A call about to be made: by `aot_call_direct` when `direct`, else by `aot_call_ref`. -/
structure Call where
  depth : Nat
  direct : Bool
  id : Nat
  tok : Nat
  rt : Rt
  stack : List Term

/-- The called function runs and ends in the call `c'`. -/
def TailStep (A : Aot) (c c' : Call) : Prop :=
  c.depth < aotMaxDepth ∧ ∃ body fuel,
    A.fns (if c.direct then c.id else c.tok) = some (.spine body) ∧
    execSpine A fuel (c.depth + 1) Term.zero [] c.rt c.stack body =
      .ok (.tail c'.direct c'.id c'.tok c'.rt c'.stack) ∧
    c'.depth = c.depth + 1

/-- `c` is the pending call after a chain of compiled tail calls of any length. `entry` is
the stack above the base where the chain was entered: by `aot_try_call` under the frames
of an activation of `wnf`, by `aot_call_expr` under the arguments it pushed, or by a unary
helper. -/
inductive Chain (A : Aot) (entry : List Term) : Call → Prop where
  | call {c : Call} : c.stack = entry → Chain A entry c
  | helper {depth id fuel : Nat} {arg : Term} {rt : Rt} {body : Spine} {c : Call} :
      A.mat1 id = some body →
      execSpine A fuel depth arg [] rt entry body = .ok (.tail c.direct c.id c.tok c.rt c.stack) →
      c.depth = depth → Chain A entry c
  | tail {c c' : Call} : Chain A entry c → TailStep A c c' → Chain A entry c'

theorem Chain.beneath {A : Aot} {entry : List Term} {c : Call} (h : Chain A entry c) :
    beneath c.stack = beneath entry := by
  induction h with
  | call hs => rw [hs]
  | helper _ he _ => exact (keepsBeneath A _).spine he
  | tail _ hs ih =>
    obtain ⟨-, body, fuel, -, he, -⟩ := hs
    exact ((keepsBeneath A _).spine he).trans ih

/-- The pending APP frames are nodes of the heap. -/
def Allocated (rt : Rt) (stack : List Term) : Prop :=
  ∀ frm ∈ stack, frm.tag = .app → frm.val + 1 < rt.next

/-- `aot_push_app_arg` before a call. -/
def Call.push (c : Call) (arg : Term) : Call :=
  { c with rt := (aotPushAppArg c.rt c.stack arg).1, stack := (aotPushAppArg c.rt c.stack arg).2 }

end Hvm
