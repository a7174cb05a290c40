import Mathlib

/-! Runtime words, the heap and the term constructors of the single-threaded
runtime (`term/`, `heap/`). A word is kept unpacked: the four bit fields of the
C `u64` are the four fields of `Term`. -/

namespace Hvm

/-- Term tags. `ctr n` is the C tag `C00 + n`. The last two are the frame tags
internal to `wnf`. -/
inductive Tag where
  | app | var | lam | dp0 | dp1 | sup | dup | alo | ref | nam | dry | era | mat
  | ctr (ari : Fin 17)
  | num | swi | use | op2 | dsu | ddu | eql | and | or | uns | any | inc
  | bjv | bj0 | bj1 | pri
  | fOp2Num | fEqlR
  deriving DecidableEq, Repr

instance instNeZeroArity : NeZero 17 := ⟨by decide⟩

/-- Tags of words; the others are those of frames. -/
def Tag.isWord : Tag → Bool
  | .fOp2Num | .fEqlR => false
  | _ => true

structure Term where
  sub : Bool
  tag : Tag
  ext : Nat
  val : Nat
  deriving DecidableEq, Repr

def extMask : Nat := 0x3FFFF
def lamEraMask : Nat := 0x20000
def heapCap : Nat := 2 ^ 38

/-- `term_new`. The EXT field is cut to 18 bits. VAL is never cut: a location is
below `heapCap` and an immediate is a `u32`. -/
def termNew (sub : Bool) (tag : Tag) (ext val : Nat) : Term :=
  ⟨sub, tag, ext % (extMask + 1), val⟩

def Term.zero : Term := ⟨false, .app, 0, 0⟩

def termSubSet (t : Term) (sub : Bool) : Term := { t with sub := sub }

/-- One heap word: a term, or a packed ALO pair (bind-list head, book location). -/
inductive Cell where
  | tm (t : Term)
  | alo (ls tm : Nat)
  deriving DecidableEq, Repr

/-- The runtime globals a rule can touch: `HEAP`, `HEAP_NEXT` of thread 0, `ITRS`,
`FRESH` and the text printed by `%log` (latest code point first). -/
structure Rt where
  heap : Nat → Cell
  next : Nat
  itrs : Nat
  fresh : Nat
  log : List Nat

/-- Ids handed out by `table_find`: `symbols_init` and then `prim_init` are the
first to intern names. -/
def symZer : Nat := 0
def symSuc : Nat := 1
def symNil : Nat := 2
def symCon : Nat := 3
def symChr : Nat := 4
def primLog : Nat := 5
def primLogGo0 : Nat := 6
def primLogGo1 : Nat := 7
def primLogGo2 : Nat := 8

/-- `prim_arity`, with no FFI library loaded. -/
def primArity (id : Nat) : Nat :=
  if id = primLog then 1
  else if id = primLogGo0 then 2
  else if id = primLogGo1 then 3
  else if id = primLogGo2 then 3
  else 0

/-- The table `TERM_ARITY`. -/
def tagArity : Tag → Nat
  | .app | .sup | .dup | .dry | .mat | .swi | .op2 | .eql | .and | .or => 2
  | .lam | .use | .uns | .inc => 1
  | .dsu | .ddu => 3
  | .ctr n => n
  | _ => 0

def termArity (t : Term) : Nat :=
  if t.tag = .pri then primArity t.ext else tagArity t.tag

namespace Rt

/-- Counts one interaction (`ITRS_INC`). -/
def tick (rt : Rt) : Rt := { rt with itrs := rt.itrs + 1 }

def set (rt : Rt) (loc : Nat) (c : Cell) : Rt :=
  { rt with heap := Function.update rt.heap loc c }

@[simp] theorem tick_heap (rt : Rt) : rt.tick.heap = rt.heap := rfl
@[simp] theorem tick_next (rt : Rt) : rt.tick.next = rt.next := rfl
@[simp] theorem set_next (rt : Rt) (l : Nat) (c : Cell) : (rt.set l c).next = rt.next := rfl
@[simp] theorem set_heap (rt : Rt) (l : Nat) (c : Cell) :
    (rt.set l c).heap = Function.update rt.heap l c := rfl

end Rt

def Cell.toTerm : Cell → Term
  | .tm t => t
  | .alo _ _ => Term.zero

def heapRead (rt : Rt) (loc : Nat) : Term := (rt.heap loc).toTerm

def heapSet (rt : Rt) (loc : Nat) (t : Term) : Rt := rt.set loc (.tm t)

/-- `heap_alloc`. Running past the bank's end is checked once a machine step is over
(`step`), which is where the C program has already exited. -/
def heapAlloc (rt : Rt) (size : Nat) : Nat × Rt :=
  (rt.next, { rt with next := rt.next + size })

def heapSubstVar (rt : Rt) (loc : Nat) (val : Term) : Rt :=
  heapSet rt loc (termSubSet val true)

def heapSubstVarDup (rt : Rt) (loc : Nat) (val : Term) : Rt :=
  heapSet rt loc (termSubSet val true)

/-- `heap_subst_cop`: the side asked for is returned, its twin stored in the dup cell.
`side` is true for DP1. -/
def heapSubstCop (rt : Rt) (side : Bool) (loc : Nat) (r0 r1 : Term) : Rt × Term :=
  (heapSet rt loc (termSubSet (if side then r0 else r1) true), if side then r1 else r0)

/-- `term_new_at`: writes the fields at `loc, loc+1, ..`. -/
def termNewAt (rt : Rt) (loc : Nat) (tag : Tag) (ext : Nat) (args : List Term) : Rt × Term :=
  (go rt loc args, termNew false tag ext loc)
where
  go (rt : Rt) (loc : Nat) : List Term → Rt
    | [] => rt
    | a :: as => go (heapSet rt loc a) (loc + 1) as

def termNewNode (rt : Rt) (tag : Tag) (ext : Nat) (args : List Term) : Rt × Term :=
  termNewAt { rt with next := rt.next + args.length } rt.next tag ext args

def termNewVar (loc : Nat) : Term := termNew false .var 0 loc
def termNewDp0 (lab loc : Nat) : Term := termNew false .dp0 lab loc
def termNewDp1 (lab loc : Nat) : Term := termNew false .dp1 lab loc
def termNewEra : Term := termNew false .era 0 0
def termNewAny : Term := termNew false .any 0 0
def termNewNum (n : Nat) : Term := termNew false .num 0 n
def termNewNam (nam : Nat) : Term := termNew false .nam nam 0
def termNewRef (nam : Nat) : Term := termNew false .ref nam 0

def termNewLamAt (rt : Rt) (loc : Nat) (bod : Term) : Rt × Term :=
  termNewAt rt loc .lam 0 [bod]

def termNewAppAt (rt : Rt) (loc : Nat) (fn arg : Term) : Rt × Term :=
  termNewAt rt loc .app 0 [fn, arg]

def termNewApp (rt : Rt) (fn arg : Term) : Rt × Term :=
  termNewNode rt .app 0 [fn, arg]

def termNewSupAt (rt : Rt) (loc lab : Nat) (tm0 tm1 : Term) : Rt × Term :=
  termNewAt rt loc .sup lab [tm0, tm1]

def termNewSup (rt : Rt) (lab : Nat) (tm0 tm1 : Term) : Rt × Term :=
  termNewNode rt .sup lab [tm0, tm1]

def termNewDup (rt : Rt) (lab : Nat) (val bod : Term) : Rt × Term :=
  termNewNode rt .dup lab [val, bod]

def termNewUns (rt : Rt) (bod : Term) : Rt × Term :=
  termNewNode rt .uns 0 [bod]

def termNewDry (rt : Rt) (fn arg : Term) : Rt × Term :=
  termNewNode rt .dry 0 [fn, arg]

def termNewUse (rt : Rt) (f : Term) : Rt × Term :=
  termNewNode rt .use 0 [f]

def termNewOp2At (rt : Rt) (loc opr : Nat) (x y : Term) : Rt × Term :=
  termNewAt rt loc .op2 opr [x, y]

def termNewOp2 (rt : Rt) (opr : Nat) (x y : Term) : Rt × Term :=
  termNewNode rt .op2 opr [x, y]

def termNewDsu (rt : Rt) (lab a b : Term) : Rt × Term :=
  termNewNode rt .dsu 0 [lab, a, b]

def termNewDdu (rt : Rt) (lab val bod : Term) : Rt × Term :=
  termNewNode rt .ddu 0 [lab, val, bod]

def termNewEqlAt (rt : Rt) (loc : Nat) (a b : Term) : Rt × Term :=
  termNewAt rt loc .eql 0 [a, b]

def termNewEql (rt : Rt) (a b : Term) : Rt × Term :=
  termNewNode rt .eql 0 [a, b]

def termNewAndAt (rt : Rt) (loc : Nat) (a b : Term) : Rt × Term :=
  termNewAt rt loc .and 0 [a, b]

def termNewAnd (rt : Rt) (a b : Term) : Rt × Term :=
  termNewNode rt .and 0 [a, b]

def termNewOrAt (rt : Rt) (loc : Nat) (a b : Term) : Rt × Term :=
  termNewAt rt loc .or 0 [a, b]

def termNewOr (rt : Rt) (a b : Term) : Rt × Term :=
  termNewNode rt .or 0 [a, b]

def termNewInc (rt : Rt) (x : Term) : Rt × Term :=
  termNewNode rt .inc 0 [x]

def termNewPri (rt : Rt) (prim : Nat) (args : List Term) : Rt × Term :=
  termNewNode rt .pri prim args

/-- `term_new_ctr`: a constructor without fields is an immediate. -/
def termNewCtr (rt : Rt) (nam : Nat) (args : List Term) : Rt × Term :=
  if args.length = 0 then (rt, termNew false (.ctr 0) nam 0)
  else termNewNode rt (.ctr (Fin.ofNat 17 args.length)) nam args

structure Copy where
  k0 : Term
  k1 : Term

def termCloneAt (loc lab : Nat) : Copy := ⟨termNewDp0 lab loc, termNewDp1 lab loc⟩

def termClone (rt : Rt) (lab : Nat) (val : Term) : Rt × Copy :=
  (heapSet { rt with next := rt.next + 1 } rt.next val, termCloneAt rt.next lab)

def termClone2 (rt : Rt) (lab : Nat) (a b : Term) : Rt × Copy × Copy :=
  (heapSet (heapSet { rt with next := rt.next + 2 } rt.next a) (rt.next + 1) b,
    termCloneAt rt.next lab, termCloneAt (rt.next + 1) lab)

/-- `term_new_alo`: the closed book term at `tm` when the bind list is empty, else a
fresh packed pair. -/
def termNewAlo (rt : Rt) (ls len tm : Nat) : Rt × Term :=
  if len = 0 then (rt, termNew false .alo 0 tm)
  else ({ rt with next := rt.next + 1 }.set rt.next (.alo ls tm), termNew false .alo len rt.next)

def termNewAloAt (rt : Rt) (alo ls len tm : Nat) : Rt × Term :=
  if len = 0 then (rt, termNew false .alo 0 tm)
  else (rt.set alo (.alo ls tm), termNew false .alo len alo)

end Hvm
