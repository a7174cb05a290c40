import Hvm.Term

/-! The interaction rules of `wnf/`, one definition for each C function. Every rule
takes the runtime, returns it updated, and the word the C function returns. -/

namespace Hvm

/-- The erasure rules (`wnf_app_era`, `wnf_use_era`, `wnf_op2_era`, ...) differ in the
name they report only. -/
def wnfEra (rt : Rt) : Rt × Term := (rt.tick, termNewEra)

def wnfAppEra := wnfEra
def wnfUseEra := wnfEra
def wnfOp2Era := wnfEra
def wnfOp2NumEra := wnfEra
def wnfDsuEra := wnfEra
def wnfDduEra := wnfEra
def wnfEqlEraL := wnfEra
def wnfEqlEraR := wnfEra
def wnfAndEra := wnfEra
def wnfOrEra := wnfEra

/-! Application -/

/-- `(name a)`: no interaction is counted. -/
def wnfAppNam (rt : Rt) (app : Nat) (nam : Term) : Rt × Term :=
  (heapSet rt app nam, termNew false .dry 0 app)

def wnfAppDry (rt : Rt) (app : Nat) (dry : Term) : Rt × Term :=
  (heapSet rt app dry, termNew false .dry 0 app)

def isEraLam (ext : Nat) : Bool := ext &&& lamEraMask != 0

def wnfAppLam (rt : Rt) (lam arg : Term) : Rt × Term :=
  let rt := rt.tick
  let loc := lam.val
  let body := heapRead rt loc
  if isEraLam lam.ext then (rt, body)
  else (heapSubstVar rt loc arg, body)

def wnfAppSup (rt : Rt) (app : Nat) (sup arg : Term) : Rt × Term :=
  let rt := rt.tick
  let loc := sup.val
  let lab := sup.ext
  let tm1 := heapRead rt (loc + 1)
  let (rt, D) := termClone rt lab arg
  let rt := heapSet rt (loc + 1) D.k0
  let ap0 := termNew false .app 0 loc
  let (rt, ap1) := termNewApp rt tm1 D.k1
  termNewSupAt rt app lab ap0 ap1

def wnfAppInc (rt : Rt) (app inc : Term) : Rt × Term :=
  let rt := rt.tick
  let f := heapRead rt inc.val
  let rt := heapSet rt app.val f
  (heapSet rt inc.val (termNew false .app 0 app.val), inc)

/-! Matchers -/

def wnfAppMatSup (rt : Rt) (mat sup : Term) : Rt × Term :=
  let rt := rt.tick
  let lab := sup.ext
  let (rt, M) := termClone rt lab mat
  let loc := sup.val
  let a := heapRead rt loc
  let b := heapRead rt (loc + 1)
  let (rt, x) := termNewApp rt M.k0 a
  let (rt, y) := termNewApp rt M.k1 b
  termNewSupAt rt loc lab x y

/-- `wnf_mat_inc` and `wnf_use_inc`. -/
def wnfMatInc (rt : Rt) (mat inc : Term) : Rt × Term :=
  let rt := rt.tick
  let loc := inc.val
  let x := heapRead rt loc
  let (rt, app) := termNewApp rt mat x
  (heapSet rt loc app, termNew false .inc 0 loc)

def wnfUseInc := wnfMatInc

/-- The APPs of fields `2, 3, ..` of a matched constructor, in the cells at `apps`. -/
def wnfAppMatCtrRest (rt : Rt) (ctr apps : Nat) (res : Term) (i : Nat) : Nat → Rt × Term
  | 0 => (rt, res)
  | n + 1 =>
    let (rt, res) := termNewAppAt rt (apps + 2 * (i - 2)) res (heapRead rt (ctr + i))
    wnfAppMatCtrRest rt ctr apps res (i + 1) n

/-- The matched branch applied to the fields: the MAT node becomes the first APP, the
CTR node the second, and further ones are fresh. -/
def wnfAppMatCtrHit (rt : Rt) (mat ctr ari : Nat) : Rt × Term :=
  let res := heapRead rt mat
  if ari = 0 then (rt, res)
  else
    let arg0 := heapRead rt ctr
    let (rt, res) := termNewAppAt rt mat res arg0
    if ari = 1 then (rt, res)
    else
      let arg1 := heapRead rt (ctr + 1)
      let (rt, res) := termNewAppAt rt ctr res arg1
      if ari = 2 then (rt, res)
      else
        let (apps, rt) := heapAlloc rt (2 * (ari - 2))
        wnfAppMatCtrRest rt ctr apps res 2 (ari - 2)

def wnfAppMatMis (rt : Rt) (mat : Nat) (arg : Term) : Rt × Term :=
  let g := heapRead rt (mat + 1)
  termNewAppAt rt mat g arg

def wnfAppMatCtr (rt : Rt) (mat ctr : Term) : Rt × Term :=
  let rt := rt.tick
  if mat.ext = ctr.ext then wnfAppMatCtrHit rt mat.val ctr.val (tagArity ctr.tag)
  else wnfAppMatMis rt mat.val ctr

def wnfAppMatNum (rt : Rt) (mat num : Term) : Rt × Term :=
  let rt := rt.tick
  if mat.ext = num.val then (rt, heapRead rt mat.val)
  else wnfAppMatMis rt mat.val num

def wnfUseSup (rt : Rt) (use sup : Term) : Rt × Term :=
  let rt := rt.tick
  let lab := sup.ext
  let loc := sup.val
  let F := termCloneAt use.val lab
  let (rt, use0) := termNewUse rt F.k0
  let (rt, use1) := termNewUse rt F.k1
  let (rt, app0) := termNewApp rt use0 (heapRead rt loc)
  let (rt, app1) := termNewApp rt use1 (heapRead rt (loc + 1))
  termNewSupAt rt loc lab app0 app1

def wnfUseVal (rt : Rt) (use val : Term) : Rt × Term :=
  let rt := rt.tick
  termNewApp rt (heapRead rt use.val) val

/-! Duplication -/

def wnfDupNam (rt : Rt) (loc : Nat) (nam : Term) : Rt × Term :=
  (heapSubstVarDup rt.tick loc nam, nam)

def wnfDupLam (rt : Rt) (lab loc : Nat) (side : Bool) (lam : Term) : Rt × Term :=
  let rt := rt.tick
  let bod := heapRead rt lam.val
  if isEraLam lam.ext then
    let (a, rt) := heapAlloc rt 3
    let rt := heapSet rt (a + 2) bod
    let B := termCloneAt (a + 2) lab
    let rt := heapSet rt a B.k0
    let rt := heapSet rt (a + 1) B.k1
    heapSubstCop rt side loc (termNew false .lam lam.ext a) (termNew false .lam lam.ext (a + 1))
  else
    let (a, rt) := heapAlloc rt 5
    let rt := heapSet rt (a + 4) bod
    let B := termCloneAt (a + 4) lab
    let rt := heapSet rt a B.k0
    let rt := heapSet rt (a + 1) B.k1
    let rt := heapSet rt (a + 2) (termNew false .var 0 a)
    let rt := heapSet rt (a + 3) (termNew false .var 0 (a + 1))
    let su := termNew false .sup lab (a + 2)
    let rt := heapSubstVar rt lam.val su
    heapSubstCop rt side loc (termNew false .lam lam.ext a) (termNew false .lam lam.ext (a + 1))

def wnfDupSup (rt : Rt) (lab loc : Nat) (side : Bool) (sup : Term) : Rt × Term :=
  let rt := rt.tick
  let supLoc := sup.val
  let supLab := sup.ext
  if lab = supLab then
    heapSubstCop rt side loc (heapRead rt supLoc) (heapRead rt (supLoc + 1))
  else
    let (at_, rt) := heapAlloc rt 4
    let A := termCloneAt supLoc lab
    let B := termCloneAt (supLoc + 1) lab
    let (rt, s0) := termNewSupAt rt at_ supLab A.k0 B.k0
    let (rt, s1) := termNewSupAt rt (at_ + 2) supLab A.k1 B.k1
    heapSubstCop rt side loc s0 s1

/-- The two field blocks of `wnf_dup_nod`: field `i` of the node becomes a dup cell in
place, and its two sides go to `r0 + i` and `r1 + i`. -/
def wnfDupNodFields (rt : Rt) (lab t r0 r1 i : Nat) : Nat → Rt
  | 0 => rt
  | n + 1 =>
    let A := termCloneAt (t + i) lab
    let rt := heapSet rt (r0 + i) A.k0
    let rt := heapSet rt (r1 + i) A.k1
    wnfDupNodFields rt lab t r0 r1 (i + 1) n

def wnfDupNod (rt : Rt) (lab loc : Nat) (side : Bool) (term : Term) : Rt × Term :=
  let rt := rt.tick
  let ari := termArity term
  if ari = 0 then (heapSubstVarDup rt loc term, term)
  else
    let (block, rt) := heapAlloc rt (2 * ari)
    let rt := wnfDupNodFields rt lab term.val block (block + ari) 0 ari
    heapSubstCop rt side loc (termNew false term.tag term.ext block)
      (termNew false term.tag term.ext (block + ari))

/-! Numeric operators -/

/-- `term_op2_u32` on the operator codes `OP_ADD = 0 .. OP_GE = 16`. A shift amount of
32 or more is cut to its low five bits, as x86 and ARM shift instructions do. -/
def termOp2U32 (opr a b : Nat) : Nat :=
  let u := 2 ^ 32
  let bit (p : Bool) := if p then 1 else 0
  match opr with
  | 0 => (a + b) % u
  | 1 => (a + u - b) % u
  | 2 => (a * b) % u
  | 3 => if b ≠ 0 then a / b else 0
  | 4 => if b ≠ 0 then a % b else 0
  | 5 => a &&& b
  | 6 => a ||| b
  | 7 => a ^^^ b
  | 8 => (a <<< (b % 32)) % u
  | 9 => a >>> (b % 32)
  | 10 => u - 1 - b
  | 11 => bit (a == b)
  | 12 => bit (a != b)
  | 13 => bit (a < b)
  | 14 => bit (a ≤ b)
  | 15 => bit (b < a)
  | 16 => bit (b ≤ a)
  | _ => 0

def u32 (n : Nat) : Nat := n % 2 ^ 32

def wnfOp2NumNumRaw (rt : Rt) (opr a b : Nat) : Rt × Term :=
  (rt.tick, termNewNum (termOp2U32 opr a b))

def wnfOp2Sup (rt : Rt) (loc opr : Nat) (sup y : Term) : Rt × Term :=
  let rt := rt.tick
  let lab := sup.ext
  let supLoc := sup.val
  let (rt, Y) := termClone rt lab y
  let (rt, op0) := termNewOp2At rt loc opr (heapRead rt supLoc) Y.k0
  let (rt, op1) := termNewOp2 rt opr (heapRead rt (supLoc + 1)) Y.k1
  termNewSupAt rt supLoc lab op0 op1

def wnfOp2NumSup (rt : Rt) (opr : Nat) (x sup : Term) : Rt × Term :=
  let rt := rt.tick
  let lab := sup.ext
  let supLoc := sup.val
  let (rt, op0) := termNewOp2 rt opr x (heapRead rt supLoc)
  let (rt, op1) := termNewOp2 rt opr x (heapRead rt (supLoc + 1))
  termNewSupAt rt supLoc lab op0 op1

def wnfOp2IncX (rt : Rt) (opr : Nat) (inc y : Term) : Rt × Term :=
  let rt := rt.tick
  let x := heapRead rt inc.val
  let (rt, op) := termNewOp2 rt opr x y
  (heapSet rt inc.val op, inc)

def wnfOp2IncY (rt : Rt) (opr : Nat) (x inc : Term) : Rt × Term :=
  let rt := rt.tick
  let y := heapRead rt inc.val
  let (rt, op) := termNewOp2 rt opr x y
  (heapSet rt inc.val op, inc)

/-! Dynamic labels -/

def wnfDsuNum (rt : Rt) (labNum a b : Term) : Rt × Term :=
  termNewSup rt.tick (u32 labNum.val) a b

def wnfDsuSup (rt : Rt) (labSup a b : Term) : Rt × Term :=
  let rt := rt.tick
  let lab := labSup.ext
  let supLoc := labSup.val
  let (rt, A, B) := termClone2 rt lab a b
  let (rt, ds0) := termNewDsu rt (heapRead rt supLoc) A.k0 B.k0
  let (rt, ds1) := termNewDsu rt (heapRead rt (supLoc + 1)) A.k1 B.k1
  termNewSupAt rt supLoc lab ds0 ds1

def wnfDsuInc (rt : Rt) (inc a b : Term) : Rt × Term :=
  let rt := rt.tick
  let x := heapRead rt inc.val
  let (rt, dsu) := termNewDsu rt x a b
  (heapSet rt inc.val dsu, inc)

def wnfDduNum (rt : Rt) (labNum val bod : Term) : Rt × Term :=
  let rt := rt.tick
  let (rt, V) := termClone rt (u32 labNum.val) val
  let (rt, app0) := termNewApp rt bod V.k0
  termNewApp rt app0 V.k1

def wnfDduSup (rt : Rt) (labSup val bod : Term) : Rt × Term :=
  let rt := rt.tick
  let lab := labSup.ext
  let supLoc := labSup.val
  let (rt, V, B) := termClone2 rt lab val bod
  let (rt, dd0) := termNewDdu rt (heapRead rt supLoc) V.k0 B.k0
  let (rt, dd1) := termNewDdu rt (heapRead rt (supLoc + 1)) V.k1 B.k1
  termNewSupAt rt supLoc lab dd0 dd1

def wnfDduInc (rt : Rt) (inc val bod : Term) : Rt × Term :=
  let rt := rt.tick
  let x := heapRead rt inc.val
  let (rt, ddu) := termNewDdu rt x val bod
  (heapSet rt inc.val ddu, inc)

/-! Equality -/

/-- `wnf_eql_any_l` and `wnf_eql_any_r`. -/
def wnfEqlAny (rt : Rt) : Rt × Term := (rt.tick, termNewNum 1)

def wnfEqlSupL (rt : Rt) (eql : Nat) (sup b : Term) : Rt × Term :=
  let rt := rt.tick
  let supLoc := sup.val
  let lab := sup.ext
  let a0 := heapRead rt supLoc
  let a1 := heapRead rt (supLoc + 1)
  let (rt, B) := termClone rt lab b
  let (rt, eq0) := termNewEqlAt rt eql a0 B.k0
  let (rt, eq1) := termNewEql rt a1 B.k1
  termNewSupAt rt supLoc lab eq0 eq1

def wnfEqlSupR (rt : Rt) (eql : Nat) (a sup : Term) : Rt × Term :=
  let rt := rt.tick
  let supLoc := sup.val
  let lab := sup.ext
  let b0 := heapRead rt supLoc
  let b1 := heapRead rt (supLoc + 1)
  let (rt, A) := termClone rt lab a
  let (rt, eq0) := termNewEqlAt rt eql A.k0 b0
  let (rt, eq1) := termNewEql rt A.k1 b1
  termNewSupAt rt supLoc lab eq0 eq1

def wnfEqlIncL (rt : Rt) (loc : Nat) (inc b : Term) : Rt × Term :=
  let rt := rt.tick
  let a := heapRead rt inc.val
  let (rt, eql) := termNewEqlAt rt loc a b
  (heapSet rt inc.val eql, inc)

def wnfEqlIncR (rt : Rt) (loc : Nat) (a inc : Term) : Rt × Term :=
  let rt := rt.tick
  let b := heapRead rt inc.val
  let (rt, eql) := termNewEqlAt rt loc a b
  (heapSet rt inc.val eql, inc)

def wnfEqlNum (rt : Rt) (a b : Term) : Rt × Term :=
  (rt.tick, termNewNum (if u32 a.val = u32 b.val then 1 else 0))

def wnfEqlNam (rt : Rt) (a b : Term) : Rt × Term :=
  (rt.tick, termNewNum (if a.tag = b.tag ∧ a.ext = b.ext ∧ a.val = b.val then 1 else 0))

def wnfEqlLam (rt : Rt) (a b : Term) : Rt × Term :=
  let rt := rt.tick
  let af := heapRead rt a.val
  let bf := heapRead rt b.val
  let nam := termNewNam rt.fresh
  let rt := { rt with fresh := u32 (rt.fresh + 1) }
  let rt := heapSubstVar rt a.val nam
  let rt := heapSubstVar rt b.val nam
  termNewEql rt af bf

/-- The conjunction of the field equalities `i, i + 1, ..` of `wnf_eql_ctr`. -/
def wnfEqlCtrRest (rt : Rt) (a b : Nat) (res : Term) (i : Nat) : Nat → Rt × Term
  | 0 => (rt, res)
  | n + 1 =>
    let (rt, eq) := termNewEql rt (heapRead rt (a + i)) (heapRead rt (b + i))
    let (rt, res) := termNewAnd rt res eq
    wnfEqlCtrRest rt a b res (i + 1) n

def wnfEqlCtr (rt : Rt) (eql : Nat) (a b : Term) : Rt × Term :=
  let rt := rt.tick
  if a.tag ≠ b.tag ∨ a.ext ≠ b.ext then (rt, termNewNum 0)
  else
    let arity := tagArity a.tag
    if arity = 0 then (rt, termNewNum 1)
    else if a.ext = symSuc ∧ arity = 1 then
      let (rt, eq) := termNewEqlAt rt eql (heapRead rt a.val) (heapRead rt b.val)
      termNewInc rt eq
    else if a.ext = symCon ∧ arity = 2 then
      let (rt, eqH) := termNewEqlAt rt eql (heapRead rt a.val) (heapRead rt b.val)
      let (rt, eqT) := termNewEql rt (heapRead rt (a.val + 1)) (heapRead rt (b.val + 1))
      let (rt, incT) := termNewInc rt eqT
      let (rt, res) := termNewAnd rt eqH incT
      termNewInc rt res
    else
      let (rt, res) := termNewEqlAt rt eql (heapRead rt a.val) (heapRead rt b.val)
      wnfEqlCtrRest rt a.val b.val res 1 (arity - 1)

/-- The two-field comparison shared by `wnf_eql_mat` and `wnf_eql_dry`. -/
def wnfEqlPair (rt : Rt) (eql : Nat) (a b : Term) : Rt × Term :=
  let ah := heapRead rt a.val
  let am := heapRead rt (a.val + 1)
  let bh := heapRead rt b.val
  let bm := heapRead rt (b.val + 1)
  let (rt, eqH) := termNewEql rt ah bh
  let (rt, eqM) := termNewEql rt am bm
  termNewAndAt rt eql eqH eqM

def wnfEqlMat (rt : Rt) (eql : Nat) (a b : Term) : Rt × Term :=
  let rt := rt.tick
  if a.ext ≠ b.ext then (rt, termNewNum 0) else wnfEqlPair rt eql a b

def wnfEqlDry (rt : Rt) (eql : Nat) (a b : Term) : Rt × Term :=
  wnfEqlPair rt.tick eql a b

def wnfEqlUse (rt : Rt) (eql : Nat) (a b : Term) : Rt × Term :=
  let rt := rt.tick
  termNewEqlAt rt eql (heapRead rt a.val) (heapRead rt b.val)

/-! Short-circuit conjunction and disjunction -/

def wnfAndSup (rt : Rt) (loc : Nat) (sup b : Term) : Rt × Term :=
  let rt := rt.tick
  let lab := sup.ext
  let supLoc := sup.val
  let (rt, B) := termClone rt lab b
  let a0 := heapRead rt supLoc
  let a1 := heapRead rt (supLoc + 1)
  let (rt, r0) := termNewAndAt rt loc a0 B.k0
  let (rt, r1) := termNewAnd rt a1 B.k1
  termNewSupAt rt supLoc lab r0 r1

def wnfAndInc (rt : Rt) (loc : Nat) (inc b : Term) : Rt × Term :=
  let rt := rt.tick
  let a := heapRead rt inc.val
  let rt := heapSet rt loc a
  (heapSet rt inc.val (termNew false .and 0 loc), inc)

def wnfAndNum (rt : Rt) (num b : Term) : Rt × Term :=
  (rt.tick, if num.val = 0 then termNewNum 0 else b)

def wnfOrSup (rt : Rt) (loc : Nat) (sup b : Term) : Rt × Term :=
  let rt := rt.tick
  let supLoc := sup.val
  let lab := sup.ext
  let a0 := heapRead rt supLoc
  let a1 := heapRead rt (supLoc + 1)
  let (rt, B) := termClone rt lab b
  let (rt, r0) := termNewOrAt rt loc a0 B.k0
  let (rt, r1) := termNewOr rt a1 B.k1
  termNewSupAt rt supLoc lab r0 r1

def wnfOrInc (rt : Rt) (loc : Nat) (inc b : Term) : Rt × Term :=
  let rt := rt.tick
  let a := heapRead rt inc.val
  let (rt, or) := termNewOrAt rt loc a b
  (heapSet rt inc.val or, inc)

def wnfOrNum (rt : Rt) (num b : Term) : Rt × Term :=
  (rt.tick, if num.val = 0 then b else termNewNum 1)

/-! Unscoped binders -/

def wnfUns (rt : Rt) (uns : Term) : Rt × Term :=
  let rt := rt.tick
  let bod := heapRead rt uns.val
  let (loc, rt) := heapAlloc rt 2
  let xVar := termNewVar loc
  let yVar := termNewVar (loc + 1)
  let (rt, xLam) := termNewLamAt rt loc yVar
  let (rt, yLam) := termNewLamAt rt (loc + 1) xLam
  let (rt, app) := termNewApp rt bod yLam
  termNewApp rt app xVar

/-! Instantiation of book terms (ALO) -/

/-- The cell of the `idx`-th entry of a bind list: link `it + 1` holds the next one. -/
def aloWalk (rt : Rt) (it : Nat) : Nat → Nat
  | 0 => it
  | idx + 1 => if it = 0 then it else aloWalk rt (heapRead rt (it + 1)).val idx

def wnfAloVar (rt : Rt) (ls len : Nat) (book : Term) : Term :=
  let lvl := u32 book.val
  if lvl = 0 ∨ lvl > len then termNew false book.tag book.ext lvl
  else
    let it := aloWalk rt ls (len - lvl)
    if it ≠ 0 then termNewVar it else termNew false book.tag book.ext lvl

def wnfAloCop (rt : Rt) (ls len : Nat) (book : Term) : Term :=
  let lvl := u32 book.val
  let lab := book.ext
  let rtag := if book.tag = .dp0 ∨ book.tag = .bj0 then Tag.dp0 else Tag.dp1
  if lvl = 0 ∨ lvl > len then termNew false book.tag lab lvl
  else
    let it := aloWalk rt ls (len - lvl)
    if it ≠ 0 then termNew false rtag lab it else termNew false book.tag lab lvl

def wnfAloLam (rt : Rt) (alo ls len : Nat) (book : Term) : Rt × Term :=
  let (bind, rt) := heapAlloc rt 2
  let (loc, rt) := if len > 0 then (alo, rt) else heapAlloc rt 1
  let (rt, a) := termNewAloAt rt loc bind (len + 1) book.val
  let rt := heapSet rt bind a
  let rt := heapSet rt (bind + 1) (termNew false .num 0 ls)
  (rt, termNew false .lam book.ext bind)

/-- `wnf_alo_dup`. Its parameter `len` is a `u16`, where the callers and the other
ALO rules have a `u32`. -/
def wnfAloDup (rt : Rt) (alo ls len : Nat) (book : Term) : Rt × Term :=
  let len := len % 2 ^ 16
  let (bind, rt) := heapAlloc rt 2
  let (rt, v) := termNewAloAt rt alo ls len book.val
  let rt := heapSet rt bind v
  let rt := heapSet rt (bind + 1) (termNew false .num 0 ls)
  termNewAlo rt bind (len + 1) (book.val + 1)

/-- Fields `i, i + 1, ..` of a book node, each a fresh ALO. -/
def wnfAloNodArgs (rt : Rt) (ls len loc i : Nat) : Nat → Rt × List Term
  | 0 => (rt, [])
  | n + 1 =>
    let (rt, a) := termNewAlo rt ls len (loc + i)
    let (rt, as) := wnfAloNodArgs rt ls len loc (i + 1) n
    (rt, a :: as)

def wnfAloNod (rt : Rt) (alo ls len : Nat) (book : Term) : Rt × Term :=
  let ari := termArity book
  if ari = 0 then (rt, book)
  else
    let (rt, a) := termNewAloAt rt alo ls len book.val
    let (rt, as) := wnfAloNodArgs rt ls len book.val 1 (ari - 1)
    termNewNode rt book.tag book.ext (a :: as)

end Hvm
