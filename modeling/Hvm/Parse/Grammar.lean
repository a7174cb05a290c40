import Hvm.Parse.Binders

/-! Superpositions and forks (`parse/term/sup.c`, `parse/term/fork.c`), and the knot of the
term grammar: `calls n` is tied `n` levels deep. -/

namespace Hvm

/-- The names of a fork's binders, up to the brace. -/
def parseForkNames (n : Nat) : Parser (List Nat) := do
  let nam ← parseName
  parseSkip
  loopM (fun names => do
    if (← parsePeek) = byte '{' then
      return .inr names
    let _ ← parseMatch (tok ',')
    parseSkip
    if (← parsePeek) = byte '{' then
      return .inr names
    stopIf (16 ≤ names.length) (parseError (utf8 "at most 16 fork binders"))
    let nam ← parseName
    parseSkip
    return .inl (names ++ [nam])) n [nam]

/-- The loops of a fork over its binders push them, pop them, check their uses and wrap
the body; `i` is the binder's index. -/
def pushForkBinds (depth d lab : Nat) : Nat → List Nat → Parser Unit
  | _, [] => return
  | i, nam :: names => do
    parseBindPush nam (depth + i * d + 1) lab true false
    pushForkBinds depth d lab (i + 1) names

def popForkBinds : List Nat → Parser Unit
  | [] => return
  | _ :: names => do
    parseBindPop
    popForkBinds names

def checkForkUses (n depth : Nat) (dyn : Bool) (lab : Nat) (left right : Term) :
    Nat → List Nat → Parser Unit
  | _, [] => return
  | i, nam :: names => do
    let lvl := depth + i * (if dyn then 3 else 2) + 1
    let uses0 ← countUses n left (if dyn then ⟨.bjv, lvl, 0⟩ else ⟨.bj0, lvl, lab⟩)
    let uses1 ← countUses n right (if dyn then ⟨.bjv, lvl + 1, 0⟩ else ⟨.bj1, lvl, lab⟩)
    checkAffine nam (some false) uses0
    checkAffine nam (some true) uses1
    checkForkUses n depth dyn lab left right (i + 1) names

def wrapFork (depth : Nat) (dyn : Bool) (labTerm : Term) (lab : Nat) :
    Nat → Term → Parser Term
  | 0, body => return body
  | i + 1, body => do
    let dd := depth + i * (if dyn then 3 else 2)
    let body ← do
      if dyn then
        let lam1 ← newLam (dd + 3) body
        let lam0 ← newLam (dd + 2) lam1
        let ddu ← build fun rt =>
          termNewDdu rt labTerm (termNew false .bjv 0 (dd + 1)) lam0
        newLam (dd + 1) ddu
      else
        let dup ← build fun rt =>
          termNewDup rt lab (termNew false .bjv 0 (dd + 1)) body
        newLam (dd + 1) dup
    wrapFork depth dyn labTerm lab i body

/-- The optional marker before a branch of a fork. -/
def parseForkMark (mark : Text) : Parser Unit := do
  if ← parseMatch mark then
    parseSkip
    parseConsume (tok ':')
  else
    return

def setForkSide (side : Option Bool) : Parser Unit :=
  modify fun p => { p with forkSide := side }

/-- The two branches of a fork, up to the closing brace. -/
def parseForkBranches (r : Calls) (depth : Nat) : Parser (Term × Term) := do
  parseForkMark (utf8 "&₀")
  setForkSide (some false)
  let left ← r.term depth
  parseSkip
  let _ ← parseMatch (tok ';')
  parseSkip
  parseForkMark (utf8 "&₁")
  setForkSide (some true)
  let right ← r.term depth
  setForkSide none
  parseSkip
  let _ ← parseMatch (tok ';')
  parseConsume (tok '}')
  return (left, right)

/-- Records the fork; the program itself has no such step. -/
def noteFork (site : Rt → ForkSite) : Parser Unit :=
  modify fun p => { p with forks := site p.rt :: p.forks }

def parseTermFork (r : Calls) (n : Nat) (dyn : Bool) (labTerm : Term) (lab depth : Nat) :
    Parser Term := do
  let side := (← get).forkSide
  stopIf side.isSome .nestedForks
  let names ← parseForkNames n
  parseConsume (tok '{')
  let d := if dyn then 3 else 2
  pushForkBinds depth d (if dyn then parseDynLab else lab) 0 names
  let (left, right) ← parseForkBranches r (depth + names.length * d)
  popForkBinds names
  noteFork fun rt => ⟨rt, depth, dyn, labTerm, lab, names.length, left, right⟩
  checkForkUses n depth dyn lab left right 0 names
  let body ← build fun rt =>
    if dyn then termNewDsu rt labTerm left right else termNewSup rt lab left right
  wrapFork depth dyn labTerm lab names.length body

/-- The label of a superposition or fork: whether it is dynamic, its term and its number. -/
def parseSupLabel (r : Calls) (depth : Nat) : Parser (Bool × Term × Nat) := do
  if (← parsePeek) = byte '(' then
    parseConsume (tok '(')
    let labTerm ← r.term depth
    parseConsume (tok ')')
    return (true, labTerm, 0)
  else
    return (false, Term.zero, ← writtenLabel)

def parseTermSup (r : Calls) (n depth : Nat) : Parser Term := do
  parseSkip
  if (← parsePeek) = byte '{' then
    parseConsume (tok '{')
    parseConsume (tok '}')
    return termNewEra
  let (dyn, labTerm, lab) ← parseSupLabel r depth
  parseSkip
  if ← parseMatch (utf8 "λ") then
    parseTermFork r n dyn labTerm lab depth
  else
    parseConsume (tok '{')
    let tm0 ← r.term depth
    parseSkip
    let _ ← parseMatch (tok ',')
    let tm1 ← r.term depth
    parseSkip
    let _ ← parseMatch (tok ',')
    parseConsume (tok '}')
    build fun rt => if dyn then termNewDsu rt labTerm tm0 tm1 else termNewSup rt lab tm0 tm1

/-! ### Terms -/

def orNum : Option Term → Parser Term
  | some t => return t
  | none => parseTermNum

/-- The atoms told by a character that is not taken first. -/
def parseTermPlain (r : Calls) (n depth : Nat) : Parser Term := do
  let c ← parsePeek
  if c = byte '[' then parseTermLst r n depth
  else if c = byte '\'' then parseTermChr
  else if c = byte '"' ∨ c = 96 then parseTermStr n
  else if isDigit c then
    let t ← parseTermNat r depth
    orNum t
  else parseTermVar

def parseTermAtom (r : Calls) (n depth : Nat) : Parser Term := do
  parseSkip
  if ← parseMatch (utf8 "λ") then parseTermLam r n depth
  else if ← parseMatch (tok '!') then parseTermDup r n depth
  else if ← parseMatch (tok '&') then parseTermSup r n depth
  else if ← parseMatch (tok '#') then parseTermCtr r n depth
  else if ← parseMatch (tok '@') then parseTermRef
  else if ← parseMatch (tok '%') then parseTermPri r depth
  else if ← parseMatch (tok '^') then parseTermNam r depth
  else if ← parseMatch (utf8 "↑") then parseTermInc r depth
  else if ← parseMatch (tok '*') then return termNewAny
  else if ← parseMatch (tok '(') then parseTermPar r depth
  else parseTermPlain r n depth

def parseTerm (r : Calls) (depth : Nat) : Parser Term := do
  r.app (← r.atom depth) depth 0

def calls : Nat → Calls
  | 0 =>
    { term := fun _ => throw .fuel
      atom := fun _ => throw .fuel
      lam := fun _ => throw .fuel
      app := fun _ _ _ => throw .fuel }
  | n + 1 =>
    { term := parseTerm (calls n)
      atom := parseTermAtom (calls n) n
      lam := parseTermLam (calls n) n
      app := parseTermAppPrec (calls n) n }

end Hvm
