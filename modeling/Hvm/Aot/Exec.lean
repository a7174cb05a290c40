import Hvm.Aot.Emit

/-! Running compiled programs: generated functions, the calls between them
(`aot_call_direct`, `aot_call_ref`, `aot_call_expr`, `aot_call_expr1`), and `wnf` with the
generated functions registered. Compiled code runs with `STEPS_ITRS_LIM` zero only
(`aot_try_call`), so the other branch of its tests is never taken. All functions are
indexed by fuel; `depth` is `AOT_CALL_DEPTH`. -/

namespace Hvm

/-- A generated program: `FN_id` (and `AOT_FNS[id]`), with `FN2_id` in its loop forms, and
the unary helpers `FN1_id`. -/
structure Aot where
  book : BookTable
  fns : Nat → Option Fn
  mat1 : Nat → Option Spine

/-- `FN2_id` of an add loop with an accumulator. -/
def aotLoopAdd2Acc (loop : AotLoop) (zeroTok succTok : Nat) :
    Nat → Rt → Term → Term → Except Stop (Rt × Term)
  | 0, _, _, _ => .error .fuel
  | fuel + 1, rt, a, b => do
    let (rt, a) ← aotForce fuel rt a
    match a.tag with
    | .ctr _ =>
      if a.ext = zeroTok then .ok (aotItrsAdd rt 2, b)
      else if a.ext = succTok then
        let rt := aotItrsAdd rt 4
        let a := heapRead rt a.val
        let (rt, b) := aotWrapCtr1 rt succTok 1 b
        aotLoopAdd2Acc loop zeroTok succTok fuel rt a b
      else .ok (termNewApp (aotItrsAdd rt 2) (termNewNum 0) b)
    | _ =>
      let (rt, fn) := aotFallbackAloLs rt loop.rootLoc 0 0
      let (rt, app) := termNewApp rt fn a
      .ok (termNewApp rt app b)

/-- `add_loop_2` of `FN2_id` for an add loop without accumulator; `n` successors are
already passed. -/
def aotLoopAdd2Chain (loop : AotLoop) (zeroTok succTok : Nat) :
    Nat → Rt → Term → Term → Nat → Except Stop (Rt × Term)
  | 0, _, _, _, _ => .error .fuel
  | fuel + 1, rt, a, b, n => do
    let (rt, a) ← aotForce fuel rt a
    match a.tag with
    | .ctr _ =>
      if a.ext = zeroTok then .ok (aotWrapCtr1 (aotItrsAdd rt (4 * n + 2)) succTok n b)
      else if a.ext = succTok then
        aotLoopAdd2Chain loop zeroTok succTok fuel rt (heapRead rt a.val) b (u32 (n + 1))
      else
        let (rt, ret) := termNewApp (aotItrsAdd rt (4 * n + 2)) (termNewNum 0) b
        .ok (aotWrapCtr1 rt succTok n ret)
    | _ =>
      let (rt, fn) := aotFallbackAloLs (aotItrsAdd rt (4 * n)) loop.rootLoc 0 0
      let (rt, app) := termNewApp rt fn a
      let (rt, ret) := termNewApp rt app b
      .ok (aotWrapCtr1 rt succTok n ret)

/-- `FN2_id` of an add loop without accumulator. -/
def aotLoopAdd2Plain (loop : AotLoop) (zeroTok succTok fuel : Nat) (rt : Rt) (a b : Term) :
    Except Stop (Rt × Term) := do
  let (rt, a) ← aotForce fuel rt a
  match a.tag with
  | .ctr _ =>
    if a.ext = zeroTok then .ok (aotItrsAdd rt 2, b)
    else if a.ext = succTok then
      aotLoopAdd2Chain loop zeroTok succTok fuel rt (heapRead rt a.val) b 1
    else .ok (termNewApp (aotItrsAdd rt 2) (termNewNum 0) b)
  | _ =>
    let (rt, fn) := aotFallbackAloLs rt loop.rootLoc 0 0
    let (rt, app) := termNewApp rt fn a
    .ok (termNewApp rt app b)

def aotLoopAdd2 (loop : AotLoop) (zeroTok succTok fuel : Nat) (rt : Rt) (a b : Term) :
    Except Stop (Rt × Term) :=
  if loop.tailAcc then aotLoopAdd2Acc loop zeroTok succTok fuel rt a b
  else aotLoopAdd2Plain loop zeroTok succTok fuel rt a b

/-- `FN2_id` of a u32 loop with an accumulator. -/
def aotLoopU322 (loop : AotLoop) (zeroTok succTok : Nat) :
    Nat → Rt → Term → Term → Except Stop (Rt × Term)
  | 0, _, _, _ => .error .fuel
  | fuel + 1, rt, a, b => do
    let (rt, a) ← aotForce fuel rt a
    match a.tag with
    | .ctr _ =>
      if a.ext = zeroTok then .ok (aotItrsAdd rt 2, b)
      else if a.ext = succTok then
        let rt := aotItrsAdd rt 4
        let (rt, b) :=
          if b.tag = .num then (aotItrsInc rt, termNewNum (termOp2U32 0 1 (u32 b.val)))
          else termNewOp2 rt 0 (termNewNum 1) b
        aotLoopU322 loop zeroTok succTok fuel rt (heapRead rt a.val) b
      else .ok (termNewApp (aotItrsAdd rt 2) (termNewNum 0) b)
    | _ =>
      let (rt, fn) := aotFallbackAloLs rt loop.rootLoc 0 0
      let (rt, app) := termNewApp rt fn a
      .ok (termNewApp rt app b)

/-- `u32_loop` of `FN_id` for a u32 loop without accumulator. -/
def aotLoopU32Chain (loop : AotLoop) (zeroTok succTok : Nat) :
    Nat → Rt → Term → Nat → Except Stop (Rt × Term)
  | 0, _, _, _ => .error .fuel
  | fuel + 1, rt, a, n => do
    let (rt, a) ← aotForce fuel rt a
    match a.tag with
    | .ctr _ =>
      if a.ext = zeroTok then .ok (aotItrsAdd rt (4 * n + 1), termNewNum n)
      else if a.ext = succTok then
        aotLoopU32Chain loop zeroTok succTok fuel rt (heapRead rt a.val) (u32 (n + 1))
      else .ok (aotItrsAdd rt (4 * n + 2), termNewNum n)
    | _ =>
      let (rt, fn) := aotFallbackAloLs (aotItrsAdd rt (3 * n)) loop.rootLoc 0 0
      let (rt, ret) := termNewApp rt fn a
      .ok (aotWrapOp2NumLhs rt 0 1 ret n)

/-- `FN_id` of the two loop forms that take an accumulator or a second summand: `two` is
`FN2_id`, and `hit` what a full zero case does. -/
def aotLoopFn2 (loop : AotLoop) (zeroTok succTok fuel : Nat)
    (hit : Rt → Term → Term → Except Stop (Rt × Term))
    (two : Rt → Term → Term → Except Stop (Rt × Term)) (rt : Rt) (stack : List Term) :
    Except Stop (Rt × List Term × Term) := do
  let (a, stack) := aotPopAppArg rt stack
  if a = Term.zero then
    let (rt, ret) := aotFallbackAloLs rt loop.rootLoc 0 0
    return (rt, stack, ret)
  let (rt, a) ← aotForce fuel rt a
  match a.tag with
  | .ctr _ =>
    if a.ext = zeroTok then do
      let (b, stack) := aotPopAppArg rt stack
      if b = Term.zero then
        let (rt, ret) := aotFallbackAloLs (aotItrsInc rt) loop.zeroLamLoc 0 0
        return (rt, stack, ret)
      let (rt, ret) ← hit rt a b
      return (rt, stack, ret)
    else if a.ext = succTok then do
      let a1 := heapRead rt a.val
      let (b, stack) := aotPopAppArg rt stack
      if b = Term.zero then
        let (ls0, rt) := heapAlloc (aotItrsAdd rt 3) 2
        let rt := heapSet rt ls0 (termSubSet a1 true)
        let rt := heapSet rt (ls0 + 1) (termNew false .num 0 0)
        let (rt, ret) := aotFallbackAloLs rt loop.succLamLoc 1 ls0
        return (rt, stack, ret)
      let (rt, ret) ← two rt a b
      return (rt, stack, ret)
    else return (aotItrsAdd rt 2, stack, termNewNum 0)
  | _ =>
    let (rt, fn) := aotFallbackAloLs rt loop.rootLoc 0 0
    let (rt, ret) := termNewApp rt fn a
    return (rt, stack, ret)

/-- `FN_id` of an add loop. -/
def aotLoopAdd (loop : AotLoop) (zeroTok succTok fuel : Nat) (rt : Rt) (stack : List Term) :
    Except Stop (Rt × List Term × Term) :=
  let two := aotLoopAdd2 loop zeroTok succTok fuel
  let hit (rt : Rt) (a b : Term) : Except Stop (Rt × Term) :=
    if loop.tailAcc then .ok (aotItrsAdd rt 2, b) else two rt a b
  aotLoopFn2 loop zeroTok succTok fuel hit two rt stack

/-- `FN_id` of a u32 loop. -/
def aotLoopU32 (loop : AotLoop) (zeroTok succTok fuel : Nat) (rt : Rt) (stack : List Term) :
    Except Stop (Rt × List Term × Term) :=
  if loop.tailAcc then
    aotLoopFn2 loop zeroTok succTok fuel (fun rt _ b => .ok (aotItrsAdd rt 2, b))
      (aotLoopU322 loop zeroTok succTok fuel) rt stack
  else do
    let (a, stack) := aotPopAppArg rt stack
    if a = Term.zero then
      let (rt, ret) := aotFallbackAloLs rt loop.rootLoc 0 0
      return (rt, stack, ret)
    let (rt, ret) ← aotLoopU32Chain loop zeroTok succTok fuel rt a 0
    return (rt, stack, ret)

/-! Straight-line code -/

/-- The locals of one binder: `x`, `ls` and, for a dup, the label of `d`. -/
structure Local where
  val : Term
  ls : Nat
  lab : Nat
  deriving DecidableEq, Repr

/-- The bind list the bail-outs use: `ls(len-1)`, or 0. -/
def lastLs (locals : List Local) : Nat :=
  match locals.getLast? with
  | some l => l.ls
  | none => 0

/-- `aot_emit_subst_entry`: a new bind-list link on top of the last one. -/
def aotSubstEntry (rt : Rt) (locals : List Local) (val : Term) : Rt × Nat :=
  let (ls, rt) := heapAlloc rt 2
  let rt := heapSet rt ls val
  let rt := heapSet rt (ls + 1) (termNew false .num 0 (lastLs locals))
  (rt, ls)

def evalSeq (eval : Rt → List Term → Expr → Except Stop (Rt × List Term × Term)) :
    List Expr → Rt → List Term → Except Stop (Rt × List Term × List Term)
  | [], rt, stack => .ok (rt, stack, [])
  | e :: es, rt, stack => do
    let (rt, stack, t) ← eval rt stack e
    let (rt, stack, ts) ← evalSeq eval es rt stack
    return (rt, stack, t :: ts)

/-- Each argument of a call is pushed as soon as it is computed. -/
def evalPush (eval : Rt → List Term → Expr → Except Stop (Rt × List Term × Term)) :
    List Expr → Rt → List Term → Except Stop (Rt × List Term)
  | [], rt, stack => .ok (rt, stack)
  | e :: es, rt, stack => do
    let (rt, stack, t) ← eval rt stack e
    let (rt, stack) := aotPushAppArg rt stack t
    evalPush eval es rt stack

/-- How a compiled function ends: with a term, or in a call that replaces it. -/
inductive SpineOut where
  | ret (rt : Rt) (stack : List Term) (t : Term)
  | tail (direct : Bool) (id tok : Nat) (rt : Rt) (stack : List Term)

/-- The frames of the current activation of `wnf`, and the rest of the stack. -/
def splitBase : List Frame → List Term × List Frame
  | .tm t :: stack => let (frames, rest) := splitBase stack; (t :: frames, rest)
  | rest => ([], rest)

/-- The switch of an emitted MAT over a constructor: whether its default branch is
entered, and the runtime and stack there. -/
def matDispatch (key : Nat) (reuse : Bool) (rt : Rt) (stack : List Term) (ctr : Term) :
    Bool × Rt × List Term :=
  let rt := aotItrsInc rt
  if ctr.ext = key then (false, aotPushFields rt stack ctr)
  else (true, if reuse then aotPushAppArg rt stack ctr else (rt, stack))

/-- The test of an emitted SWI on a number. -/
def swiDispatch (key : Nat) (reuse : Bool) (rt : Rt) (stack : List Term) (num : Term) :
    Bool × Rt × List Term :=
  let rt := aotItrsInc rt
  if u32 num.val = key then (false, rt, stack)
  else (true, if reuse then aotPushAppArg rt stack num else (rt, stack))

def localVal (locals : List Local) (idx : Nat) : Term :=
  match locals[idx]? with
  | some l => l.val
  | none => Term.zero

/-- `d_idx.dp0` or `d_idx.dp1`. -/
def localDup (locals : List Local) (idx : Nat) (side : Bool) : Term :=
  match locals[idx]? with
  | some l => if side then termNewDp1 l.lab l.ls else termNewDp0 l.lab l.ls
  | none => Term.zero

mutual

/-- The value of an emitted expression. -/
def evalExpr (A : Aot) : Nat → Nat → List Local → Rt → List Term → Expr →
    Except Stop (Rt × List Term × Term)
  | 0, _, _, _, _, _ => .error .fuel
  | fuel + 1, depth, locals, rt, stack, e =>
    let eval := evalExpr A fuel depth locals
    match e with
    | .num n => .ok (rt, stack, termNewNum n)
    | .era => .ok (rt, stack, termNewEra)
    | .any => .ok (rt, stack, termNewAny)
    | .nam id => .ok (rt, stack, termNewNam id)
    | .ref id => .ok (rt, stack, termNewRef id)
    | .ctr id args => do
      let (rt, stack, ts) ← evalSeq eval args rt stack
      let (rt, t) := termNewCtr rt id ts
      return (rt, stack, t)
    | .wrapCtr1 id reps bod => do
      let (rt, stack, t) ← eval rt stack bod
      let (rt, t) := aotWrapCtr1 rt id reps t
      return (rt, stack, t)
    | .app fn arg => do
      let (rt, stack, f) ← eval rt stack fn
      let (rt, stack, x) ← eval rt stack arg
      let (rt, t) := termNewApp rt f x
      return (rt, stack, t)
    | .call id tok args _ _ => do
      let (rt, frames) ← evalPush eval args rt []
      let (rt, t) ← aotCallExpr A fuel depth id tok rt frames
      return (rt, stack, t)
    | .call1 id tok arg _ _ => do
      let (rt, frames, x) ← eval rt [] arg
      let (rt, frames, t) ← aotCallExpr1 A fuel depth id tok x rt frames
      return (rt, frames ++ stack, t)
    | .op2 opr x y => do
      let (rt, stack, x) ← eval rt stack x
      let (rt, stack, y) ← eval rt stack y
      if x.tag = .num ∧ y.tag = .num then
        return (aotItrsInc rt, stack, termNewNum (termOp2U32 opr (u32 x.val) (u32 y.val)))
      let (rt, t) := termNewOp2 rt opr x y
      return (rt, stack, t)
    | .sup lab a b => do
      let (rt, stack, a) ← eval rt stack a
      let (rt, stack, b) ← eval rt stack b
      let (rt, t) := termNewSup rt lab a b
      return (rt, stack, t)
    | .use fn => do
      let (rt, stack, f) ← eval rt stack fn
      let (rt, t) := termNewUse rt f
      return (rt, stack, t)
    | .var idx => .ok (rt, stack, localVal locals idx)
    | .dp0 idx => .ok (rt, stack, localDup locals idx false)
    | .dp1 idx => .ok (rt, stack, localDup locals idx true)
    | .fallback loc len =>
      let (rt, t) := aotFallbackAloLs rt loc len (lastLs locals)
      .ok (rt, stack, t)
termination_by structural fuel => fuel

/-- The body of a compiled function, up to its return or its tail call. `argIn` is the
parameter of a unary helper. -/
def execSpine (A : Aot) : Nat → Nat → Term → List Local → Rt → List Term → Spine →
    Except Stop SpineOut
  | 0, _, _, _, _, _, _ => .error .fuel
  | fuel + 1, depth, argIn, locals, rt, stack, s =>
    let eval := evalExpr A fuel depth locals
    let bail (rt : Rt) (stack : List Term) (loc len : Nat) : Except Stop SpineOut :=
      let (rt, t) := aotFallbackAloLs rt loc len (lastLs locals)
      .ok (.ret rt stack t)
    let bailApp (rt : Rt) (stack : List Term) (loc len : Nat) (arg : Term) :
        Except Stop SpineOut :=
      let (rt, fn) := aotFallbackAloLs rt loc len (lastLs locals)
      let (rt, t) := termNewApp rt fn arg
      .ok (.ret rt stack t)
    match s with
    | .retFallback loc len => bail rt stack loc len
    | .ret e => do
      let (rt, stack, t) ← eval rt stack e
      return .ret rt stack t
    | .direct id e0 e1 rest => do
      let (rt, stack, b) ← eval rt stack e0
      let (rt, stack, a) ← eval rt stack e1
      match A.fns id with
      | some (.loopAdd loop zeroTok succTok) => do
        let (rt, t) ← aotLoopAdd2 loop zeroTok succTok fuel rt a b
        return .ret rt stack t
      | _ => execSpine A fuel depth argIn locals rt stack rest
    | .app arg rest => do
      let (rt, stack, x) ← eval rt stack arg
      let (rt, stack) := aotPushAppArg rt stack x
      execSpine A fuel depth argIn locals rt stack rest
    | .lam loc len rest =>
      let (x, stack) := aotPopAppArg rt stack
      if x = Term.zero then bail rt stack loc len
      else
        let (rt, ls) := aotSubstEntry (aotItrsInc rt) locals (termSubSet x true)
        execSpine A fuel depth argIn (locals ++ [⟨x, ls, 0⟩]) rt stack rest
    | .mat isArgIn loc len key hit reuse mis =>
      let (arg, stack) := if isArgIn then (argIn, stack) else aotPopAppArg rt stack
      if !isArgIn ∧ arg = Term.zero then bail rt stack loc len
      else do
        let (rt, arg) ← aotForce fuel rt arg
        match arg.tag with
        | .ctr _ =>
          let (miss, rt, stack) := matDispatch key reuse rt stack arg
          execSpine A fuel depth argIn locals rt stack (if miss then mis else hit)
        | _ => bailApp rt stack loc len arg
    | .swi loc len key hit reuse mis =>
      let (arg, stack) := aotPopAppArg rt stack
      if arg = Term.zero then bail rt stack loc len
      else do
        let (rt, arg) ← aotForce fuel rt arg
        if arg.tag ≠ .num then bailApp rt stack loc len arg
        else
          let (miss, rt, stack) := swiDispatch key reuse rt stack arg
          execSpine A fuel depth argIn locals rt stack (if miss then mis else hit)
    | .use loc len rest =>
      let (arg, stack) := aotPopAppArg rt stack
      if arg = Term.zero then bail rt stack loc len
      else do
        -- `aot_eval`
        let (rt, arg) ← wnfAot A fuel depth ⟨rt, [], .enter arg⟩
        match arg.tag with
        | .era => return .ret (aotItrsInc rt) stack termNewEra
        | .sup | .inc => bailApp rt stack loc len arg
        | _ =>
          let (rt, stack) := aotPushAppArg (aotItrsInc rt) stack arg
          execSpine A fuel depth argIn locals rt stack rest
    | .dup lab val rest => do
      let (rt, stack, x) ← eval rt stack val
      let (rt, ls) := aotSubstEntry rt locals x
      execSpine A fuel depth argIn (locals ++ [⟨x, ls, lab⟩]) rt stack rest
    | .ref direct id tok _ => .ok (.tail direct id tok rt stack)
termination_by structural fuel => fuel

/-- A compiled function, already counted in `depth`. -/
def execFn (A : Aot) : Nat → Nat → Fn → Rt → List Term → Except Stop (Rt × List Term × Term)
  | 0, _, _, _, _ => .error .fuel
  | fuel + 1, depth, fn, rt, stack =>
    match fn with
    | .loopAdd loop zeroTok succTok => aotLoopAdd loop zeroTok succTok fuel rt stack
    | .loopU32 loop zeroTok succTok => aotLoopU32 loop zeroTok succTok fuel rt stack
    | .spine body => do
      match ← execSpine A fuel depth Term.zero [] rt stack body with
      | .ret rt stack t => return (rt, stack, t)
      | .tail direct id tok rt stack => aotCall A fuel depth direct id tok rt stack
termination_by structural fuel => fuel

/-- `aot_call_direct`, which names `FN_id`, and `aot_call_ref`, which looks its id up in
`AOT_FNS`. -/
def aotCall (A : Aot) : Nat → Nat → Bool → Nat → Nat → Rt → List Term →
    Except Stop (Rt × List Term × Term)
  | 0, _, _, _, _, _, _ => .error .fuel
  | fuel + 1, depth, direct, id, tok, rt, stack =>
    let fallback : Except Stop (Rt × List Term × Term) := do
      let (rt, t) ← aotFallbackRef rt tok stack
      return (rt, [], t)
    if depth ≥ aotMaxDepth then fallback
    else
      match A.fns (if direct then id else tok) with
      | none => fallback
      | some fn => execFn A fuel (depth + 1) fn rt stack
termination_by structural fuel => fuel

/-- `aot_call_expr`. -/
def aotCallExpr (A : Aot) : Nat → Nat → Nat → Nat → Rt → List Term → Except Stop (Rt × Term)
  | 0, _, _, _, _, _ => .error .fuel
  | fuel + 1, depth, id, tok, rt, stack => do
    let (rt, stack, t) ← aotCall A fuel depth true id tok rt stack
    aotCloseApps rt t stack
termination_by structural fuel => fuel

/-- `aot_call_expr1`. A helper's result is returned as it is: the frames the helper
leaves above its base stay on the stack. -/
def aotCallExpr1 (A : Aot) : Nat → Nat → Nat → Nat → Term → Rt → List Term →
    Except Stop (Rt × List Term × Term)
  | 0, _, _, _, _, _, _ => .error .fuel
  | fuel + 1, depth, id, tok, arg, rt, stack =>
    if depth ≥ aotMaxHelperDepth then do
      let (rt, stack) := aotPushAppArg rt stack arg
      let (rt, t) ← aotCallExpr A fuel depth id tok rt stack
      return (rt, [], t)
    else
      match A.mat1 id with
      | none => .error .fuel
      | some body => do
        match ← execSpine A fuel (depth + 1) arg [] rt stack body with
        | .ret rt stack t => return (rt, stack, t)
        | .tail direct id tok rt stack => aotCall A fuel (depth + 1) direct id tok rt stack
termination_by structural fuel => fuel

/-- `wnf` with the generated functions registered, from any state of its loop. -/
def wnfAot (A : Aot) : Nat → Nat → Machine → Except Stop (Rt × Term)
  | 0, _, _ => .error .fuel
  | fuel + 1, depth, m =>
    let plain : Except Stop (Rt × Term) :=
      match step A.book m with
      | .next m => wnfAot A fuel depth m
      | .done rt t => .ok (rt, t)
      | .exit f => .error (.fault f)
    match m.mode with
    | .enter next =>
      -- `aot_try_call`
      match if next.tag = .ref ∧ depth < aotMaxDepth then A.fns next.ext else none with
      | none => plain
      | some fn => do
        let (frames, rest) := splitBase m.stack
        let (rt, frames, t) ← execFn A fuel (depth + 1) fn m.rt frames
        wnfAot A fuel depth ⟨rt, frames.map .tm ++ rest, .enter t⟩
    | .apply _ => plain
termination_by structural fuel => fuel

end

end Hvm
