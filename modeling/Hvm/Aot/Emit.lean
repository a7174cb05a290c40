import Hvm.Aot.Runtime

/-! The emitter (`aot/emit.c`). Its output is kept as a syntax tree, one constructor for
each piece of C it prints. Locals `x0, ls0, d0, ..` are named by their index. A token such
as `C_FOO` is already replaced by the value the preprocessor gives it. -/

namespace Hvm

def aotEmitTmpLim : Nat := 8192
def aotCallArgCap : Nat := 64

/-- What the emitter reads: the static heap, `BOOK` and the name table. -/
structure Source where
  heap : Nat → Cell
  next : Nat
  book : BookTable
  table : List (List Char)

namespace Source

def read (p : Source) (loc : Nat) : Term := (p.heap loc).toTerm

end Source

/-! Constant names -/

/-- `aot_emit_upper_ident` into a buffer of 256 bytes. -/
def aotEmitUpperIdent (name : List Char) : List Char :=
  let up := (name.map fun c => if c.isAlphanum then c.toUpper else '_').take 255
  if up = [] then ['_'] else up

def aotEmitConstName (p : Source) (pre : Char) (id : Nat) : List Char :=
  match p.table[id]? with
  | none | some [] => pre :: '_' :: Nat.toDigits 10 id
  | some name => pre :: '_' :: aotEmitUpperIdent name

/-- `aot_emit_mark_ctr_ids`: the ids of the constructors and MATs below `loc`. -/
def aotEmitMarkCtrIds (p : Source) : Nat → Nat → List Nat
  | 0, _ => []
  | fuel + 1, loc =>
    let tm := p.read loc
    let here := match tm.tag with
      | .ctr _ | .mat => [tm.ext]
      | _ => []
    here ++ (List.range (termArity tm)).flatMap fun i => aotEmitMarkCtrIds p fuel (tm.val + i)

def aotCtrUsed (p : Source) : List Nat :=
  ((List.range p.table.length).filter (p.book · ≠ 0)).flatMap fun id =>
    aotEmitMarkCtrIds p p.next (p.book id)

/-- `aot_emit_named_consts`: the `#define` lines in order. -/
def aotEmitNamedConsts (p : Source) : List (List Char × Nat) :=
  let used := aotCtrUsed p
  let ids := List.range p.table.length
  (ids.filter (· ∈ used)).map (fun id => (aotEmitConstName p 'C' id, id)) ++
    (ids.filter (p.book · ≠ 0)).map (fun id => (aotEmitConstName p 'F' id, id))

/-- The value of a macro: its last `#define` counts, the compiler only warns about
the ones before. -/
def aotMacro (p : Source) (tok : List Char) : Option Nat :=
  ((aotEmitNamedConsts p).reverse.find? (·.1 = tok)).map (·.2)

/-- The id that `aot_emit_ctr_id`'s token stands for. -/
def aotEmitCtrId (p : Source) (id : Nat) : Nat :=
  if id ≥ p.table.length then id
  else (aotMacro p (aotEmitConstName p 'C' id)).getD id

/-- The id that `aot_emit_ref_id`'s token stands for. -/
def aotEmitRefId (p : Source) (id : Nat) : Nat :=
  if id ≥ p.table.length ∨ p.book id = 0 then id
  else (aotMacro p (aotEmitConstName p 'F' id)).getD id

/-! Shapes the emitter looks for -/

/-- `aot_emit_reuse_arg`. -/
def aotEmitReuseArg (p : Source) (loc : Nat) : Bool :=
  match (p.read loc).tag with
  | .lam | .mat | .swi | .use => true
  | _ => false

def aotTermIsVarLvl (term : Term) (lvl : Nat) : Bool :=
  match term.tag with
  | .var | .bjv => u32 term.val == lvl
  | _ => false

def aotTermIsNumVal (term : Term) (val : Nat) : Bool :=
  term.tag == .num && u32 term.val == val

/-- The loop of `aot_collect_ctr1_chain`: how many cells are `#id{..}`, and the body. -/
def aotCtr1Chain (p : Source) (id : Nat) : Nat → Nat → Nat × Nat
  | 0, cur => (0, cur)
  | fuel + 1, cur =>
    let term := p.read cur
    if term.tag ≠ .ctr 1 ∨ term.ext ≠ id then (0, cur)
    else
      let (len, bod) := aotCtr1Chain p id fuel term.val
      (len + 1, bod)

def aotCollectCtr1Chain (p : Source) (loc : Nat) : Option (Nat × Nat × Nat) :=
  let term := p.read loc
  if term.tag ≠ .ctr 1 then none
  else some (term.ext, aotCtr1Chain p term.ext p.next loc)

/-- `aot_match_self_app1`, `self(x)`. -/
def aotMatchSelfApp1 (p : Source) (loc selfId xLvl : Nat) : Bool :=
  let app := p.read loc
  let fn := p.read app.val
  let arg := p.read (app.val + 1)
  app.tag == .app && aotTermIsVarLvl arg xLvl && (fn.tag == .ref && fn.ext == selfId)

/-- `self(x, y)` with a test on the second argument: `aot_match_self_app2` and its two
siblings. -/
def aotMatchSelfApp2With (p : Source) (loc selfId xLvl : Nat) (isY : Term → Bool) : Bool :=
  let app1 := p.read loc
  let app0 := p.read app1.val
  let arg1 := p.read (app1.val + 1)
  let fun0 := p.read app0.val
  let arg0 := p.read (app0.val + 1)
  app1.tag == .app && isY arg1 && app0.tag == .app && aotTermIsVarLvl arg0 xLvl &&
    (fun0.tag == .ref && fun0.ext == selfId)

def aotMatchSelfApp2 (p : Source) (loc selfId xLvl yLvl : Nat) : Bool :=
  aotMatchSelfApp2With p loc selfId xLvl fun y => aotTermIsVarLvl y yLvl

def aotTermIsCtr1Var (p : Source) (term : Term) (ctrId lvl : Nat) : Bool :=
  term.tag == .ctr 1 && term.ext == ctrId && aotTermIsVarLvl (p.read term.val) lvl

def aotTermIsOp2NumVar (p : Source) (term : Term) (opr num lvl : Nat) : Bool :=
  term.tag == .op2 && term.ext == opr && aotTermIsNumVal (p.read term.val) num &&
    aotTermIsVarLvl (p.read (term.val + 1)) lvl

def aotMatchSelfApp2Ctr1 (p : Source) (loc selfId xLvl yLvl ctrId : Nat) : Bool :=
  aotMatchSelfApp2With p loc selfId xLvl fun y => aotTermIsCtr1Var p y ctrId yLvl

def aotMatchSelfApp2Op2NumVar (p : Source) (loc selfId xLvl yLvl opr num : Nat) : Bool :=
  aotMatchSelfApp2With p loc selfId xLvl fun y => aotTermIsOp2NumVar p y opr num yLvl

/-- `AotLoopAdd` and `AotLoopU32`. -/
structure AotLoop where
  rootLoc : Nat
  zeroLamLoc : Nat
  succLamLoc : Nat
  zeroId : Nat
  succId : Nat
  tailAcc : Bool
  deriving DecidableEq, Repr

def aotMatchLoopAdd (p : Source) (root selfId : Nat) : Option AotLoop :=
  let rootTm := p.read root
  let hit0 := rootTm.val
  let hit0Tm := p.read hit0
  let mis0Tm := p.read (rootTm.val + 1)
  let hit1 := mis0Tm.val
  let hit1Tm := p.read hit1
  let lam1 := hit1Tm.val
  let lam1Tm := p.read lam1
  let body := lam1Tm.val
  let bodTm := p.read body
  if rootTm.tag ≠ .mat then none
  else if hit0Tm.tag ≠ .lam then none
  else if !aotTermIsVarLvl (p.read hit0Tm.val) 1 then none
  else if mis0Tm.tag ≠ .mat then none
  else if !aotTermIsNumVal (p.read (mis0Tm.val + 1)) 0 then none
  else if hit1Tm.tag ≠ .lam then none
  else if lam1Tm.tag ≠ .lam then none
  else
    let out : AotLoop := ⟨root, hit0, lam1, rootTm.ext, mis0Tm.ext, false⟩
    if bodTm.tag = .ctr 1 ∧ bodTm.ext = out.succId ∧ aotMatchSelfApp2 p bodTm.val selfId 1 2 then
      some out
    else if aotMatchSelfApp2Ctr1 p body selfId 1 2 out.succId then some { out with tailAcc := true }
    else none

def aotMatchLoopU32 (p : Source) (root selfId : Nat) : Option AotLoop :=
  let rootTm := p.read root
  let hit0 := rootTm.val
  let hit0Tm := p.read hit0
  let mis0Tm := p.read (rootTm.val + 1)
  let hit1 := mis0Tm.val
  let hit1Tm := p.read hit1
  if rootTm.tag ≠ .mat then none
  else if mis0Tm.tag ≠ .mat then none
  else if !aotTermIsNumVal (p.read (mis0Tm.val + 1)) 0 then none
  else if hit1Tm.tag ≠ .lam then none
  else
    let out : AotLoop := ⟨root, 0, 0, rootTm.ext, mis0Tm.ext, false⟩
    if aotTermIsNumVal hit0Tm 0 then
      let bodTm := p.read hit1Tm.val
      if bodTm.tag ≠ .op2 ∨ bodTm.ext ≠ 0 then none
      else if !aotTermIsNumVal (p.read bodTm.val) 1 then none
      else if !aotMatchSelfApp1 p (bodTm.val + 1) selfId 1 then none
      else some out
    else if hit0Tm.tag ≠ .lam then none
    else if !aotTermIsVarLvl (p.read hit0Tm.val) 1 then none
    else
      let lam1 := hit1Tm.val
      let lam1Tm := p.read lam1
      if lam1Tm.tag ≠ .lam then none
      else if !aotMatchSelfApp2Op2NumVar p lam1Tm.val selfId 1 2 0 1 then none
      else some { out with zeroLamLoc := hit0, succLamLoc := lam1, tailAcc := true }

/-- `aot_emit_has_direct_mat1`. -/
def aotEmitHasDirectMat1 (p : Source) (refId : Nat) : Bool :=
  let root := p.book refId
  root != 0 && (aotMatchLoopAdd p root refId).isNone && (aotMatchLoopU32 p root refId).isNone &&
    (p.read root).tag == .mat

/-- `aot_emit_get_fun_name` succeeds. -/
def aotEmitHasFun (p : Source) (refId : Nat) : Bool :=
  refId < p.table.length && p.book refId != 0

/-- `aot_emit_get_direct_name` succeeds. -/
def aotEmitHasDirect (p : Source) (refId argc : Nat) : Bool :=
  argc == 2 && p.book refId != 0 && (aotMatchLoopAdd p (p.book refId) refId).isSome

/-- `aot_emit_collect_ref_app`: the head of an APP chain and its arguments, the last one
first. -/
def aotEmitCollectRefApp (p : Source) : Nat → Nat → Option (Nat × List Nat)
  | 0, cur =>
    let term := p.read cur
    if term.tag = .ref then some (term.ext, []) else none
  | room + 1, cur =>
    let term := p.read cur
    match term.tag with
    | .app =>
      match aotEmitCollectRefApp p room term.val with
      | some (refId, args) => some (refId, (term.val + 1) :: args)
      | none => none
    | .ref => some (term.ext, [])
    | _ => none

/-! Emitted code -/

/-- Code that computes one term into a local. -/
inductive Expr where
  | num (n : Nat)
  | era
  | any
  | nam (id : Nat)
  | ref (id : Nat)
  | ctr (id : Nat) (args : List Expr)
  | wrapCtr1 (id reps : Nat) (bod : Expr)
  | app (fn arg : Expr)
  /-- Pushes the arguments and calls `FN_id`; `altFun` and `altArg` are the residual
  application of the branch for a set step limit. -/
  | call (id tok : Nat) (args : List Expr) (altFun altArg : Expr)
  /-- Calls `FN1_id`. -/
  | call1 (id tok : Nat) (arg : Expr) (altFun altArg : Expr)
  | op2 (opr : Nat) (x y : Expr)
  | sup (lab : Nat) (a b : Expr)
  | use (fn : Expr)
  | var (idx : Nat)
  | dp0 (idx : Nat)
  | dp1 (idx : Nat)
  | fallback (loc len : Nat)

/-- Code in tail position. `loc` and `len` are what its bail-outs rebuild. -/
inductive Spine where
  | retFallback (loc len : Nat)
  | ret (e : Expr)
  /-- `return FN2_id(e1, e0)` under the test of the step limit, then `rest`. -/
  | direct (id : Nat) (e0 e1 : Expr) (rest : Spine)
  | app (arg : Expr) (rest : Spine)
  | lam (loc len : Nat) (rest : Spine)
  | mat (argIn : Bool) (loc len key : Nat) (hit : Spine) (reuse : Bool) (mis : Spine)
  | swi (loc len key : Nat) (hit : Spine) (reuse : Bool) (mis : Spine)
  | use (loc len : Nat) (rest : Spine)
  | dup (lab : Nat) (val : Expr) (rest : Spine)
  /-- `direct` tells `aot_call_direct` from `aot_call_ref`. -/
  | ref (direct : Bool) (id tok : Nat) (alt : Expr)

inductive AotSub where
  | lam
  | dup (lab : Nat)
  deriving DecidableEq, Repr

/-- `AotSubst`: `kind` lists the binders from the outermost in. -/
structure AotSubst where
  selfId : Nat
  kind : List AotSub
  deriving DecidableEq, Repr

namespace AotSubst

def len (sub : AotSubst) : Nat := sub.kind.length

def push (sub : AotSubst) (k : AotSub) : AotSubst := { sub with kind := sub.kind ++ [k] }

end AotSubst

/-- Emits expressions in order, with one fresh temporary before each. -/
def aotEmitSeq (emit : Nat → Nat → Option (Expr × Nat)) :
    List Nat → Nat → Option (List Expr × Nat)
  | [], tmp => some ([], tmp)
  | loc :: locs, tmp => do
    let (e, tmp) ← emit loc (tmp + 1)
    let (es, tmp) ← aotEmitSeq emit locs tmp
    some (e :: es, tmp)

/-- A variable occurrence. Copies of a binder that is no dup fall back. -/
def aotEmitVar (term : Term) (loc : Nat) (sub : AotSubst) : Expr :=
  let lvl := u32 term.val
  if lvl = 0 ∨ lvl > sub.len then .fallback loc sub.len
  else
    let idx := lvl - 1
    match term.tag with
    | .var | .bjv => .var idx
    | tag =>
      match sub.kind[idx]? with
      | some (.dup _) => if tag = .dp0 ∨ tag = .bj0 then .dp0 idx else .dp1 idx
      | _ => .fallback loc sub.len

/-- `aot_emit_expr`. -/
def aotEmitExpr (p : Source) : Nat → Nat → AotSubst → Nat → Option (Expr × Nat)
  | 0, _, _, _ => none
  | fuel + 1, loc, sub, tmp =>
    let emit (loc tmp : Nat) := aotEmitExpr p fuel loc sub tmp
    if tmp ≥ aotEmitTmpLim then some (.fallback loc sub.len, tmp)
    else
      let term := p.read loc
      match term.tag with
      | .num => some (.num (u32 term.val), tmp)
      | .era => some (.era, tmp)
      | .any => some (.any, tmp)
      | .nam => some (.nam term.ext, tmp)
      | .ref => some (.ref (aotEmitRefId p term.ext), tmp)
      | .ctr n =>
        if n = 0 then some (.ctr (aotEmitCtrId p term.ext) [], tmp)
        else
          match aotCollectCtr1Chain p loc with
          | some (id, reps + 2, bodLoc) => do
            let (bod, tmp) ← emit bodLoc (tmp + 1)
            some (.wrapCtr1 (aotEmitCtrId p id) (reps + 2) bod, tmp)
          | _ => do
            let (args, tmp) ← aotEmitSeq emit ((List.range n).map (term.val + ·)) (tmp + 1)
            some (.ctr (aotEmitCtrId p term.ext) args, tmp)
      -- `aot_emit_expr_call`
      | .app =>
        let raw (tmp : Nat) : Option (Expr × Expr × Nat) := do
          let (fn, tmp) ← emit term.val (tmp + 2)
          let (arg, tmp) ← emit (term.val + 1) tmp
          some (fn, arg, tmp)
        match aotEmitCollectRefApp p aotCallArgCap loc with
        | none => do
          let (fn, arg, tmp) ← raw tmp
          some (.app fn arg, tmp)
        | some (refId, args) =>
          if !aotEmitHasFun p refId then do
            let (fn, arg, tmp) ← raw tmp
            some (.app fn arg, tmp)
          else do
            let (es, tmp) ← aotEmitSeq emit args (tmp + 1)
            let (fn, arg, tmp) ← raw tmp
            match es with
            | [e] =>
              if refId = sub.selfId ∧ aotEmitHasDirectMat1 p refId then
                some (.call1 refId (aotEmitRefId p refId) e fn arg, tmp)
              else some (.call refId (aotEmitRefId p refId) es fn arg, tmp)
            | _ => some (.call refId (aotEmitRefId p refId) es fn arg, tmp)
      | .op2 => do
        let (x, tmp) ← emit term.val (tmp + 2)
        let (y, tmp) ← emit (term.val + 1) tmp
        some (.op2 term.ext x y, tmp)
      | .sup => do
        let (a, tmp) ← emit term.val (tmp + 2)
        let (b, tmp) ← emit (term.val + 1) tmp
        some (.sup term.ext a b, tmp)
      | .use => do
        let (fn, tmp) ← emit term.val (tmp + 1)
        some (.use fn, tmp)
      | .var | .bjv | .dp0 | .bj0 | .dp1 | .bj1 => some (aotEmitVar term loc sub, tmp)
      | _ => some (.fallback loc sub.len, tmp)

/-- `aot_emit_spine_direct`: the two argument expressions of a saturated call of an add
loop, when the application is one. -/
def aotEmitSpineDirect (p : Source) (emit : Nat → Nat → Option (Expr × Nat)) (loc tmp : Nat) :
    Option (Option (Nat × Expr × Expr) × Nat) :=
  match aotEmitCollectRefApp p aotCallArgCap loc with
  | some (refId, args) =>
    if aotEmitHasDirect p refId args.length then do
      let (es, tmp) ← aotEmitSeq emit args tmp
      match es with
      | [e0, e1] => some (some (refId, e0, e1), tmp)
      | _ => some (none, tmp)
    else some (none, tmp)
  | none => some (none, tmp)

/-- `aot_emit_spine`, with `aot_emit_spine_mat_arg`'s `arg_in` for the root MAT of a
unary helper. -/
def aotEmitSpine (p : Source) : Nat → Bool → Nat → AotSubst → Nat → Option (Spine × Nat)
  | 0, _, _, _, _ => none
  | fuel + 1, argIn, loc, sub, tmp =>
    let spine (loc : Nat) (sub : AotSubst) (tmp : Nat) := aotEmitSpine p fuel false loc sub tmp
    let expr (loc tmp : Nat) := aotEmitExpr p fuel loc sub tmp
    if tmp ≥ aotEmitTmpLim then some (.retFallback loc sub.len, tmp)
    else
      let term := p.read loc
      match term.tag with
      | .app => do
        let (direct, tmp) ← aotEmitSpineDirect p expr loc tmp
        let (arg, tmp) ← expr (term.val + 1) (tmp + 1)
        let (rest, tmp) ← spine term.val sub tmp
        match direct with
        | some (refId, e0, e1) => some (.direct refId e0 e1 (.app arg rest), tmp)
        | none => some (.app arg rest, tmp)
      | .lam =>
        if sub.len ≥ aotSubCap then some (.retFallback loc sub.len, tmp)
        else do
          let (rest, tmp) ← spine term.val (sub.push .lam) tmp
          some (.lam loc sub.len rest, tmp)
      | .mat => do
        let (hit, tmp) ← spine term.val sub (tmp + 2)
        let (mis, tmp) ← spine (term.val + 1) sub tmp
        let reuse := aotEmitReuseArg p (term.val + 1)
        some (.mat argIn loc sub.len (aotEmitCtrId p term.ext) hit reuse mis, tmp)
      | .swi => do
        let (hit, tmp) ← spine term.val sub (tmp + 1)
        let (mis, tmp) ← spine (term.val + 1) sub tmp
        let reuse := aotEmitReuseArg p (term.val + 1)
        some (.swi loc sub.len term.ext hit reuse mis, tmp)
      | .use => do
        let (rest, tmp) ← spine term.val sub (tmp + 1)
        some (.use loc sub.len rest, tmp)
      | .dup =>
        if sub.len ≥ aotSubCap then some (.retFallback loc sub.len, tmp)
        else do
          let (val, tmp) ← expr term.val tmp
          let (rest, tmp) ← spine (term.val + 1) (sub.push (.dup term.ext)) tmp
          some (.dup term.ext val rest, tmp)
      | .ref => do
        let (alt, tmp) ← expr loc (tmp + 1)
        some (.ref (aotEmitHasFun p term.ext) term.ext (aotEmitRefId p term.ext) alt, tmp)
      | _ => do
        let (e, tmp) ← expr loc (tmp + 1)
        some (.ret e, tmp)

/-- The compiled function of a definition. The loop forms keep the values of their two
case tokens. -/
inductive Fn where
  | spine (body : Spine)
  | loopAdd (loop : AotLoop) (zeroTok succTok : Nat)
  | loopU32 (loop : AotLoop) (zeroTok succTok : Nat)

end Hvm
