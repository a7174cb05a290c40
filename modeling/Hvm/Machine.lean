import Hvm.Rules

/-! The evaluator `wnf`: an explicit stack of frames, an entering phase that walks to
the head and an applying phase that pops frames. A primitive calls `wnf` again on the
same stack array, so the C call stack shows up as return frames between the frames of
two activations. No generated function is registered here (`AOT_FNS` is empty). -/

namespace Hvm

/-- Where a built-in primitive continues once its nested `wnf` call returns. -/
inductive Native where
  /-- The C function returns the result of the call. -/
  | back
  | logGo0 (acc : Term)
  | logGo1 (acc tail : Term)
  | logGo2 (acc tail : Term)
  /-- `log_print`: `cur` is being reduced. -/
  | logPrint
  | logPrintHead (tail : Term)
  | logPrintCode (tail : Term)
  deriving DecidableEq, Repr

inductive Frame where
  | tm (t : Term)
  | native (k : Native)
  deriving DecidableEq, Repr

/-- Ways the process ends before `wnf` returns. -/
inductive Fault where
  | outOfHeap
  | applyNumber
  | applyCtr
  | unknownPrim (id : Nat)
  | takeZero (loc : Nat)
  | logStringList
  | logChrHead
  | logCodepoint
  deriving DecidableEq, Repr

inductive Mode where
  | enter (next : Term)
  | apply (whnf : Term)
  deriving DecidableEq, Repr

structure Machine where
  rt : Rt
  stack : List Frame
  mode : Mode

inductive Outcome where
  | next (m : Machine)
  | done (rt : Rt) (whnf : Term)
  | exit (f : Fault)

namespace Machine

def goEnter (stack : List Frame) (r : Rt × Term) : Outcome := .next ⟨r.1, stack, .enter r.2⟩
def goApply (stack : List Frame) (r : Rt × Term) : Outcome := .next ⟨r.1, stack, .apply r.2⟩

end Machine

open Machine

/-- `prim_log` and the `log_go` family up to their first nested `wnf` call. -/
def wnfPri (rt : Rt) (stack : List Frame) (pri : Term) : Outcome :=
  let id := pri.ext
  let arg (i : Nat) := heapRead rt (pri.val + i)
  if id = primLog then
    let (loc, rt') := heapAlloc rt 1
    let var := termNewVar loc
    let (rt', acc) := termNewLamAt rt' loc var
    let (rt', t) := termNewPri rt' primLogGo0 [acc, arg 0]
    .next ⟨rt', .native .back :: stack, .enter t⟩
  else if id = primLogGo0 then .next ⟨rt, .native (.logGo0 (arg 0)) :: stack, .enter (arg 1)⟩
  else if id = primLogGo1 then
    .next ⟨rt, .native (.logGo1 (arg 0) (arg 2)) :: stack, .enter (arg 1)⟩
  else if id = primLogGo2 then
    .next ⟨rt, .native (.logGo2 (arg 0) (arg 2)) :: stack, .enter (arg 1)⟩
  else .exit (.unknownPrim id)

/-- `%log(acc(x))` stored under the INC that was met. -/
def logInc (rt : Rt) (inc acc x : Term) : Rt × Term :=
  let (rt, app) := termNewApp rt acc x
  let (rt, log) := termNewPri rt primLog [app]
  (heapSet rt inc.val log, termNew false .inc 0 inc.val)

/-- `#CON{#CHR{x}, tail}`. -/
def logCon (rt : Rt) (x tail : Term) : Rt × Term :=
  let (rt, chr) := termNewCtr rt symChr [x]
  termNewCtr rt symCon [chr, tail]

def logGo0Sup (rt : Rt) (sup acc : Term) : Rt × Term :=
  let lab := sup.ext
  let x := heapRead rt sup.val
  let y := heapRead rt (sup.val + 1)
  let (rt, A) := termClone rt lab acc
  let (rt, app0) := termNewApp rt A.k0 x
  let (rt, log0) := termNewPri rt primLog [app0]
  let (rt, app1) := termNewApp rt A.k1 y
  let (rt, log1) := termNewPri rt primLog [app1]
  termNewSup rt lab log0 log1

/-- The SUP case of `log_go_1` and `log_go_2`. -/
def logGoCharSup (rt : Rt) (sup acc tail : Term) : Rt × Term :=
  let lab := sup.ext
  let x := heapRead rt sup.val
  let y := heapRead rt (sup.val + 1)
  let (rt, A) := termClone rt lab acc
  let (rt, T) := termClone rt lab tail
  let (rt, chr0) := termNewCtr rt symChr [x]
  let (rt, chr1) := termNewCtr rt symChr [y]
  let (rt, con0) := termNewCtr rt symCon [chr0, T.k0]
  let (rt, con1) := termNewCtr rt symCon [chr1, T.k1]
  let (rt, app0) := termNewApp rt A.k0 con0
  let (rt, log0) := termNewPri rt primLog [app0]
  let (rt, app1) := termNewApp rt A.k1 con1
  let (rt, log1) := termNewPri rt primLog [app1]
  termNewSup rt lab log0 log1

/-- The INC case of `log_go_1` and `log_go_2`. -/
def logGoCharInc (rt : Rt) (inc acc tail : Term) : Rt × Term :=
  let x := heapRead rt inc.val
  let (rt, con) := logCon rt x tail
  logInc rt inc acc con

/-- `log_acc_cons`: `λx. acc(#CON{#CHR{code}, x})`. -/
def logAccCons (rt : Rt) (acc code : Term) : Rt × Term :=
  let (loc, rt) := heapAlloc rt 1
  let var := termNewVar loc
  let (rt, con) := logCon rt code var
  let (rt, bod) := termNewApp rt acc con
  termNewLamAt rt loc bod

/-- A nested `wnf` call of a primitive has returned `whnf`: the C code after it, up to
the next nested call or the primitive's own return. -/
def nativeReturn (rt : Rt) (stack : List Frame) (whnf : Term) : Native → Outcome
  | .back => .next ⟨rt, stack, .enter whnf⟩
  | .logGo0 acc =>
    match whnf.tag with
    | .era => goEnter stack (rt, termNewEra)
    | .inc => goEnter stack (logInc rt whnf acc (heapRead rt whnf.val))
    | .sup => goEnter stack (logGo0Sup rt whnf acc)
    | .ctr n =>
      if n = 0 ∧ whnf.ext = symNil then
        let (rt, cur) := termNewApp rt acc (termNew false (.ctr 0) symNil 0)
        .next ⟨rt, .native .logPrint :: stack, .enter cur⟩
      else if n = 2 ∧ whnf.ext = symCon then
        let head := heapRead rt whnf.val
        let tail := heapRead rt (whnf.val + 1)
        let (rt, t) := termNewPri rt primLogGo1 [acc, head, tail]
        .next ⟨rt, .native .back :: stack, .enter t⟩
      else .exit .logStringList
    | _ => .exit .logStringList
  | .logGo1 acc tail =>
    match whnf.tag with
    | .era => goEnter stack (rt, termNewEra)
    | .inc => goEnter stack (logGoCharInc rt whnf acc tail)
    | .sup => goEnter stack (logGoCharSup rt whnf acc tail)
    | .ctr n =>
      if n = 1 ∧ whnf.ext = symChr then
        let code := heapRead rt whnf.val
        let (rt, t) := termNewPri rt primLogGo2 [acc, code, tail]
        .next ⟨rt, .native .back :: stack, .enter t⟩
      else .exit .logChrHead
    | _ => .exit .logChrHead
  | .logGo2 acc tail =>
    match whnf.tag with
    | .era => goEnter stack (rt, termNewEra)
    | .inc => goEnter stack (logGoCharInc rt whnf acc tail)
    | .sup => goEnter stack (logGoCharSup rt whnf acc tail)
    | .num =>
      let (rt, accNext) := logAccCons rt acc whnf
      let (rt, t) := termNewPri rt primLogGo0 [accNext, tail]
      .next ⟨rt, .native .back :: stack, .enter t⟩
    | _ => .exit .logCodepoint
  | .logPrint =>
    match whnf.tag with
    | .ctr n =>
      if n = 0 ∧ whnf.ext = symNil then
        goEnter stack ({ rt with log := 10 :: rt.log }, termNew false (.ctr 0) symNil 0)
      else if n = 2 ∧ whnf.ext = symCon then
        let head := heapRead rt whnf.val
        let tail := heapRead rt (whnf.val + 1)
        .next ⟨rt, .native (.logPrintHead tail) :: stack, .enter head⟩
      else .exit .logStringList
    | _ => .exit .logStringList
  | .logPrintHead tail =>
    if whnf.tag = .ctr 1 ∧ whnf.ext = symChr then
      .next ⟨rt, .native (.logPrintCode tail) :: stack, .enter (heapRead rt whnf.val)⟩
    else .exit .logChrHead
  | .logPrintCode tail =>
    if whnf.tag = .num then
      .next ⟨{ rt with log := whnf.val :: rt.log }, .native .logPrint :: stack, .enter tail⟩
    else .exit .logCodepoint

/-- The static contents of `BOOK`: the location of each definition, 0 when undefined. -/
abbrev BookTable := Nat → Nat

/-- The packed cell of an ALO, the head of its bind list and its book location. -/
def aloRead (rt : Rt) (alo : Term) : Nat × Nat × Nat :=
  if alo.ext = 0 then (0, 0, alo.val)
  else match rt.heap alo.val with
    | .alo ls tm => (alo.val, ls, tm)
    | .tm _ => (alo.val, 0, 0)

/-- `ALO`: reads the bind list and the book term, and instantiates one layer of it. -/
def enterAlo (rt : Rt) (stack : List Frame) (alo : Term) : Outcome :=
  let len := alo.ext
  let (aloLoc, lsLoc, tmLoc) := aloRead rt alo
  let book := heapRead rt tmLoc
  match book.tag with
  | .var | .bjv => goEnter stack (rt, wnfAloVar rt lsLoc len book)
  | .dp0 | .dp1 | .bj0 | .bj1 => goEnter stack (rt, wnfAloCop rt lsLoc len book)
  | .lam => goEnter stack (wnfAloLam rt aloLoc lsLoc len book)
  | .dup => goEnter stack (wnfAloDup rt aloLoc lsLoc len book)
  | .nam | .num | .ref | .era | .any => goEnter stack (rt, book)
  | .app | .dry | .sup | .mat | .swi | .use | .uns | .inc | .ctr _ | .pri | .op2 | .eql
  | .and | .or | .dsu | .ddu => goEnter stack (wnfAloNod rt aloLoc lsLoc len book)
  -- no case of the inner switch: control falls through to `case OP2`
  | .alo | .fOp2Num | .fEqlR =>
    .next ⟨rt, .tm alo :: stack, .enter (heapRead rt alo.val)⟩

/-- The entering phase. -/
def enter (book : BookTable) (rt : Rt) (stack : List Frame) (next : Term) : Outcome :=
  let loc := next.val
  match next.tag with
  | .var =>
    let cell := heapRead rt loc
    if cell.sub then .next ⟨rt, stack, .enter (termSubSet cell false)⟩
    else .next ⟨rt, stack, .apply next⟩
  | .dp0 | .dp1 =>
    let cell := heapRead rt loc
    if cell = Term.zero then .exit (.takeZero loc)
    else if cell.sub then .next ⟨rt, stack, .enter (termSubSet cell false)⟩
    else .next ⟨rt, .tm next :: stack, .enter cell⟩
  | .app | .op2 | .eql | .and | .or | .dsu | .ddu =>
    .next ⟨rt, .tm next :: stack, .enter (heapRead rt loc)⟩
  | .dup => .next ⟨rt, stack, .enter (heapRead rt (loc + 1))⟩
  | .uns => goEnter stack (wnfUns rt next)
  | .ref =>
    if book next.ext ≠ 0 then .next ⟨rt, stack, .enter (termNew false .alo 0 (book next.ext))⟩
    else .next ⟨rt, stack, .apply next⟩
  | .pri => wnfPri rt stack next
  | .alo => enterAlo rt stack next
  | .nam | .bjv | .bj0 | .bj1 | .dry | .era | .sup | .lam | .num | .mat | .swi | .use
  | .inc | .ctr _ | .any | .fOp2Num | .fEqlR => .next ⟨rt, stack, .apply next⟩

/-- `(□ x)`: the function is reduced. -/
def applyApp (rt : Rt) (stack : List Frame) (frame whnf : Term) : Outcome :=
  let app := frame.val
  let arg := heapRead rt (app + 1)
  match whnf.tag with
  | .era => goApply stack (wnfAppEra rt)
  | .nam | .bjv | .bj0 | .bj1 => goApply stack (wnfAppNam rt app whnf)
  | .dry => goApply stack (wnfAppDry rt app whnf)
  | .lam => goEnter stack (wnfAppLam rt whnf arg)
  | .sup => goApply stack (wnfAppSup rt app whnf arg)
  | .inc => goApply stack (wnfAppInc rt frame whnf)
  | .mat | .swi | .use => .next ⟨rt, .tm whnf :: stack, .enter arg⟩
  | .num => .exit .applyNumber
  | .ctr _ => .exit .applyCtr
  | _ => goApply stack (heapSet rt app whnf, frame)

/-- `(mat □)`: the scrutinee is reduced. -/
def applyMat (rt : Rt) (stack : List Frame) (mat whnf : Term) : Outcome :=
  match whnf.tag with
  | .era => goApply stack (wnfAppEra rt)
  | .sup => goApply stack (wnfAppMatSup rt mat whnf)
  | .inc => goApply stack (wnfMatInc rt mat whnf)
  | .ctr _ => goEnter stack (wnfAppMatCtr rt mat whnf)
  | .num => goEnter stack (wnfAppMatNum rt mat whnf)
  | .nam | .bjv | .bj0 | .bj1 | .dry => goApply stack (termNewDry rt mat whnf)
  | _ => goApply stack (termNewApp rt mat whnf)

/-- `(use □)`: the argument is reduced. -/
def applyUse (rt : Rt) (stack : List Frame) (use whnf : Term) : Outcome :=
  match whnf.tag with
  | .era => goApply stack (wnfUseEra rt)
  | .sup => goApply stack (wnfUseSup rt use whnf)
  | .inc => goApply stack (wnfUseInc rt use whnf)
  | _ => goEnter stack (wnfUseVal rt use whnf)

/-- DP0 or DP1: the shared expression is reduced. -/
def applyDup (rt : Rt) (stack : List Frame) (frame whnf : Term) : Outcome :=
  let side := frame.tag == .dp1
  let loc := frame.val
  let lab := frame.ext
  match whnf.tag with
  | .nam | .bjv | .bj0 | .bj1 => goApply stack (wnfDupNam rt loc whnf)
  | .lam => goApply stack (wnfDupLam rt lab loc side whnf)
  | .sup => goEnter stack (wnfDupSup rt lab loc side whnf)
  | .era | .any | .pri | .num => goApply stack (wnfDupNod rt lab loc side whnf)
  | .dry | .mat | .swi | .use | .inc | .op2 | .dsu | .ddu | .ctr _ =>
    goEnter stack (wnfDupNod rt lab loc side whnf)
  | _ => goApply stack (heapSet rt loc whnf, frame)

/-- `(□ op y)`: the left operand is reduced. -/
def applyOp2 (rt : Rt) (stack : List Frame) (frame whnf : Term) : Outcome :=
  let opr := frame.ext
  let loc := frame.val
  let y := heapRead rt (loc + 1)
  match whnf.tag with
  | .era => goApply stack (wnfOp2Era rt)
  | .num =>
    if y.tag = .num then goApply stack (wnfOp2NumNumRaw rt opr (u32 whnf.val) (u32 y.val))
    else .next ⟨rt, .tm (termNew false .fOp2Num opr whnf.val) :: stack, .enter y⟩
  | .sup => goApply stack (wnfOp2Sup rt loc opr whnf y)
  | .inc => goApply stack (wnfOp2IncX rt opr whnf y)
  | _ => goApply stack (heapSet rt loc whnf, frame)

/-- `(x op □)`: the left operand is a number, the right one is reduced. -/
def applyOp2Num (rt : Rt) (stack : List Frame) (frame whnf : Term) : Outcome :=
  let opr := frame.ext
  let x := u32 frame.val
  match whnf.tag with
  | .era => goApply stack (wnfOp2NumEra rt)
  | .num => goApply stack (wnfOp2NumNumRaw rt opr x (u32 whnf.val))
  | .sup => goApply stack (wnfOp2NumSup rt opr (termNewNum x) whnf)
  | .inc => goApply stack (wnfOp2IncY rt opr (termNewNum x) whnf)
  | _ => goApply stack (termNewOp2 rt opr (termNewNum x) whnf)

/-- `(□ === b)`: the left side is reduced, and kept in its own cell. -/
def applyEql (rt : Rt) (stack : List Frame) (frame whnf : Term) : Outcome :=
  let loc := frame.val
  let b := heapRead rt (loc + 1)
  match whnf.tag with
  | .era => goApply stack (wnfEqlEraL rt)
  | .any => goApply stack (wnfEqlAny rt)
  | .sup => goApply stack (wnfEqlSupL rt loc whnf b)
  | .inc => goApply stack (wnfEqlIncL rt loc whnf b)
  | _ => .next ⟨heapSet rt loc whnf, .tm (termNew false .fEqlR 0 loc) :: stack, .enter b⟩

def Tag.isNam : Tag → Bool
  | .nam | .bjv | .bj0 | .bj1 => true
  | _ => false

def Tag.isCtr : Tag → Bool
  | .ctr _ => true
  | _ => false

def Tag.isMat : Tag → Bool
  | .mat | .swi => true
  | _ => false

/-- `(a === □)`: both sides are reduced. -/
def applyEqlR (rt : Rt) (stack : List Frame) (frame whnf : Term) : Outcome :=
  let loc := frame.val
  let a := heapRead rt loc
  match whnf.tag with
  | .era => goApply stack (wnfEqlEraR rt)
  | .any => goApply stack (wnfEqlAny rt)
  | .sup => goApply stack (wnfEqlSupR rt loc a whnf)
  | .inc => goApply stack (wnfEqlIncR rt loc a whnf)
  | b =>
    if a.tag = .any then goApply stack (wnfEqlAny rt)
    else if a.tag = .num ∧ b = .num then goApply stack (wnfEqlNum rt a whnf)
    else if a.tag = .lam ∧ b = .lam then goEnter stack (wnfEqlLam rt a whnf)
    else if a.tag.isCtr ∧ b.isCtr then goEnter stack (wnfEqlCtr rt loc a whnf)
    else if a.tag.isMat ∧ b.isMat then goEnter stack (wnfEqlMat rt loc a whnf)
    else if a.tag = .use ∧ b = .use then goEnter stack (wnfEqlUse rt loc a whnf)
    else if a.tag.isNam ∧ b.isNam then goApply stack (wnfEqlNam rt a whnf)
    else if a.tag = .dry ∧ b = .dry then goEnter stack (wnfEqlDry rt loc a whnf)
    else goApply stack (rt.tick, termNewNum 0)

/-- `&(□){a,b}`: the label is reduced. -/
def applyDsu (rt : Rt) (stack : List Frame) (frame whnf : Term) : Outcome :=
  let loc := frame.val
  let a := heapRead rt (loc + 1)
  let b := heapRead rt (loc + 2)
  match whnf.tag with
  | .era => goApply stack (wnfDsuEra rt)
  | .num => goApply stack (wnfDsuNum rt whnf a b)
  | .sup => goApply stack (wnfDsuSup rt whnf a b)
  | .inc => goApply stack (wnfDsuInc rt whnf a b)
  | _ => goApply stack (heapSet rt loc whnf, frame)

/-- `! x &(□) = val; bod`: the label is reduced. -/
def applyDdu (rt : Rt) (stack : List Frame) (frame whnf : Term) : Outcome :=
  let loc := frame.val
  let val := heapRead rt (loc + 1)
  let bod := heapRead rt (loc + 2)
  match whnf.tag with
  | .era => goApply stack (wnfDduEra rt)
  | .num => goEnter stack (wnfDduNum rt whnf val bod)
  | .sup => goApply stack (wnfDduSup rt whnf val bod)
  | .inc => goApply stack (wnfDduInc rt whnf val bod)
  | _ => goApply stack (heapSet rt loc whnf, frame)

/-- `(□ .&. b)`: the left side is reduced. -/
def applyAnd (rt : Rt) (stack : List Frame) (frame whnf : Term) : Outcome :=
  let loc := frame.val
  let b := heapRead rt (loc + 1)
  match whnf.tag with
  | .era => goApply stack (wnfAndEra rt)
  | .sup => goApply stack (wnfAndSup rt loc whnf b)
  | .inc => goApply stack (wnfAndInc rt loc whnf b)
  | .num => goEnter stack (wnfAndNum rt whnf b)
  | _ => goApply stack (heapSet rt loc whnf, frame)

/-- `(□ .|. b)`: the left side is reduced. -/
def applyOr (rt : Rt) (stack : List Frame) (frame whnf : Term) : Outcome :=
  let loc := frame.val
  let b := heapRead rt (loc + 1)
  match whnf.tag with
  | .era => goApply stack (wnfOrEra rt)
  | .sup => goApply stack (wnfOrSup rt loc whnf b)
  | .inc => goApply stack (wnfOrInc rt loc whnf b)
  | .num => goEnter stack (wnfOrNum rt whnf b)
  | _ => goApply stack (heapSet rt loc whnf, frame)

/-- The applying phase pops one frame; with the activation's frames used up, `wnf`
returns to the primitive that called it, or to the outside. -/
def applyFrame (rt : Rt) (whnf : Term) : List Frame → Outcome
  | [] => .done rt whnf
  | .native k :: stack => nativeReturn rt stack whnf k
  | .tm frame :: stack =>
    match frame.tag with
    | .app => applyApp rt stack frame whnf
    | .mat | .swi => applyMat rt stack frame whnf
    | .use => applyUse rt stack frame whnf
    | .dp0 | .dp1 => applyDup rt stack frame whnf
    | .op2 => applyOp2 rt stack frame whnf
    | .fOp2Num => applyOp2Num rt stack frame whnf
    | .eql => applyEql rt stack frame whnf
    | .fEqlR => applyEqlR rt stack frame whnf
    | .dsu => applyDsu rt stack frame whnf
    | .ddu => applyDdu rt stack frame whnf
    | .and => applyAnd rt stack frame whnf
    | .or => applyOr rt stack frame whnf
    | _ => .next ⟨rt, stack, .apply whnf⟩

/-- The exit of `heap_alloc`: the bank of thread 0 ends at `heapCap`. -/
def checkHeap : Outcome → Outcome
  | .next m => if m.rt.next ≤ heapCap then .next m else .exit .outOfHeap
  | o => o

/-- One turn of `enter` or of the `apply` loop. -/
def turn (book : BookTable) (m : Machine) : Outcome :=
  match m.mode with
  | .enter next => enter book m.rt m.stack next
  | .apply whnf => applyFrame m.rt whnf m.stack

def step (book : BookTable) (m : Machine) : Outcome := checkHeap (turn book m)

theorem checkHeap_next {o : Outcome} {m : Machine} (h : checkHeap o = .next m) : o = .next m := by
  cases o with
  | next m' =>
    unfold checkHeap at h
    dsimp only at h
    split_ifs at h
    exact h
  | done rt w => cases h
  | exit f => cases h

theorem checkHeap_done {o : Outcome} {rt : Rt} {w : Term} (h : checkHeap o = .done rt w) :
    o = .done rt w := by
  cases o with
  | next m =>
    unfold checkHeap at h
    dsimp only at h
    split_ifs at h
  | done rt' w' => exact h
  | exit f => cases h

/-- `wnf` started on `term` over an empty stack. -/
def start (rt : Rt) (term : Term) : Machine := ⟨rt, [], .enter term⟩

def Step (book : BookTable) (m m' : Machine) : Prop := step book m = .next m'

/-- At most `fuel` turns of the machine. -/
def run (book : BookTable) : Nat → Machine → Option Outcome
  | 0, _ => none
  | fuel + 1, m =>
    match step book m with
    | .next m' => run book fuel m'
    | o => some o

end Hvm
