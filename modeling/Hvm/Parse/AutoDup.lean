import Hvm.Parse.Source

/-! Counting the uses of a binder (`parse/count_uses.c`) and rewriting a cloned binder
into a chain of dups (`parse/auto_dup.c`). Both walk the book term just parsed, child by
child, and keep a location in a `u32`. Levels stay far below `2 ^ 32`. -/

namespace Hvm

/-- What a walk looks for: the tag, level and label of a bound variable. -/
structure DupTarget where
  tgt : Tag
  lvl : Nat
  ext : Nat
  deriving DecidableEq, Repr

def DupTarget.hits (d : DupTarget) (t : Term) : Bool :=
  t.tag = d.tgt ∧ t.val = d.lvl ∧ (d.tgt = .bjv ∨ t.ext = d.ext)

/-- The cells of a node's children, as the walks compute them. The cases for LAM and DUP
in `auto_dup.c` are the general one at arities 1 and 2. -/
def kidLocs (t : Term) : List Nat :=
  (List.range (termArity t)).map fun i => u32 (t.val + i)

/-! ### `count_uses` -/

def countUsesCap : Nat := 1024

/-- The loop of `count_uses`, the stack with its top first. -/
def countUsesLoop (rt : Rt) (d : DupTarget) : Nat → List Term → Nat → Except ParseStop Nat
  | _, [], uses => .ok uses
  | 0, _ :: _, _ => .error .fuel
  | fuel + 1, t :: ts, uses =>
    let ts := ((kidLocs t).map (heapRead rt)).reverse ++ ts
    if countUsesCap < ts.length then .error .overrun
    else countUsesLoop rt d fuel ts (if d.hits t then uses + 1 else uses)

def countUses (fuel : Nat) (t : Term) (d : DupTarget) : Parser Nat := do
  countUsesLoop (← get).rt d fuel [t] 0

/-! ### `parse_auto_dup` -/

/-- The parameters `auto_dup_go` hands down. -/
structure DupChain extends DupTarget where
  base : Nat
  n : Nat
  lab : Nat
  deriving DecidableEq, Repr

/-- The variable that takes the place of the `i`-th use. -/
def DupChain.link (d : DupChain) (i : Nat) : Term :=
  if i < d.n then termNew false .bj0 (d.lab + i) (d.base + 1 + i)
  else termNew false .bj1 (d.lab + d.n - 1) (d.base + d.n)

def isQuoted (t : Term) : Bool := t.tag = .bjv ∨ t.tag = .bj0 ∨ t.tag = .bj1

/-- `auto_dup_go`. The number carried along is `*use`. -/
def autoDupGo (d : DupChain) : Nat → Rt × Nat → Nat → Option (Rt × Nat)
  | 0, _, _ => none
  | fuel + 1, (rt, use), loc =>
    let t := heapRead rt loc
    if d.hits t then
      some (heapSet rt loc (d.link use), use + 1)
    else if isQuoted t ∧ d.base < t.val then
      some (heapSet rt loc (termNew false t.tag t.ext (t.val + d.n)), use)
    else
      (kidLocs t).foldlM (autoDupGo d fuel) (rt, use)

/-- What the `i`-th dup of the chain duplicates. -/
def DupChain.value (d : DupChain) (i : Nat) : Term :=
  if i = 0 then termNew false d.tgt d.ext d.lvl
  else termNew false .bj1 (d.lab + i - 1) (d.base + i)

/-- The loop that builds the chain, from its last dup to its first. -/
def autoDupChain (d : DupChain) : Nat → Term → Parser Term
  | 0, result => return result
  | i + 1, result => do
    let result ← build fun rt => termNewDup rt (d.lab + i) (d.value i) result
    autoDupChain d i result

/-- The walk over the body's children. -/
def autoDupKids (d : DupChain) (fuel : Nat) (body : Term) : Parser Unit := do
  match (kidLocs body).foldlM (autoDupGo d fuel) ((← get).rt, 0) with
  | none => throw .fuel
  | some (rt, _) => modify fun p => { p with rt := rt }

def parseAutoDup (fuel : Nat) (body : Term) (d : DupTarget) (base uses : Nat) :
    Parser Term := do
  if uses ≤ 1 then
    return body
  else
    let n := uses - 1
    let fresh := (← get).freshLab
    stopIf (parseDynLab ≤ fresh ∨ parseDynLab < fresh + n) fun _ => .autoDupLabels
    let lab ← takeLabels n
    let d : DupChain := { d with base := base, n := n, lab := lab }
    autoDupKids d fuel body
    autoDupChain d n body

end Hvm
