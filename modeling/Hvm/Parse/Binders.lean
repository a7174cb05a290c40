import Hvm.Parse.Atoms

/-! The binder forms: lambdas and matches (`parse/term/lam.c`), lets and dups
(`parse/term/dup.c`). -/

namespace Hvm

/-- `term_new(0, LAM, ext, loc)` on a fresh cell that holds `body`. -/
def newLam (ext : Nat) (body : Term) : Parser Term :=
  build fun rt => termNewNode rt .lam ext [body]

/-- The EXT field of a LAM: its level, and whether its variable is unused. -/
def lamExt (level uses : Nat) : Nat := if uses = 0 then level ||| lamEraMask else level

def checkAffine (nam : Nat) (side : Option Bool) (uses : Nat) : Parser Unit :=
  stopIf (1 < uses) (.affine · nam side uses)

/-- The checks of a binder with two sides; a cloned one may be used at will. -/
def checkSides (cloned : Bool) (nam uses0 uses1 : Nat) : Parser Unit :=
  if cloned then
    return
  else do
    checkAffine nam (some false) uses0
    checkAffine nam (some true) uses1

def checkPlain (cloned : Bool) (nam uses : Nat) : Parser Unit :=
  if cloned then return else checkAffine nam none uses

/-- What follows a binder of `λ`: more binders after a comma, or the body. -/
def lamBody (r : Calls) (depth : Nat) : Parser Term := do
  if ← parseMatch (tok ',') then
    r.lam depth
  else
    parseConsume (tok '.')
    r.term depth

/-- The pattern of a match case, `none` when there is none at the cursor. -/
def parseCase : Parser (Option (Tag × Nat)) := do
  let c ← parsePeek
  let c1 ← parsePeekAt 1
  if c = byte '\'' then
    let code ← parseCharLit
    parseSkip
    return some (.swi, code)
  else if isDigit c then
    let ext := decimal (← takeDigits)
    parseSkip
    let c ← parsePeek
    let c1 ← parsePeekAt 1
    if c = byte ':' then
      return some (.swi, ext)
    else if c = byte 'n' ∧ ext = 0 ∧ c1 ≠ byte '+' then
      parseAdvance
      return some (.mat, symZer)
    else if c = byte 'n' ∧ ext = 1 ∧ c1 = byte '+' then
      parseAdvance
      parseAdvance
      return some (.mat, symSuc)
    else
      return none
  else if c = byte '#' then
    parseAdvance
    return some (.mat, ← parseName)
  else if c = byte '[' ∧ c1 = byte ']' then
    parseAdvance
    parseAdvance
    return some (.mat, symNil)
  else if c = byte '<' ∧ c1 = byte '>' then
    parseAdvance
    parseAdvance
    return some (.mat, symCon)
  else
    return none

/-- A pending match: the term so far, and the cell its tail goes to (`none` when `tip`
still points at `term` itself). -/
structure Match where
  term : Term
  tip : Option Nat

/-- `*tip = t`. -/
def Match.put (m : Match) (t : Term) : Parser Term := do
  match m.tip with
  | none => return t
  | some loc =>
    heapStore loc t
    return m.term

/-- The optional `_:` before a default case. -/
def parseDefaultMark : Parser Unit := do
  if (← parsePeek) = byte '_' then
    parseAdvance
    parseSkip
    parseConsume (tok ':')
  else
    return

/-- A match case, from its colon on. -/
def parseMatchCase (r : Calls) (depth : Nat) (m : Match) (tag : Tag) (ext : Nat) :
    Parser Match := do
  parseSkip
  parseConsume (tok ':')
  let val ← r.term depth
  parseSkip
  let _ ← parseMatch (tok ';')
  let node ← build fun rt => termNewNode rt tag ext [val, termNewNum 0]
  let term ← m.put node
  return ⟨term, some (node.val + 1)⟩

/-- What ends `λ{..}` where no case starts: `λ{f}`, no default, or a default. -/
def parseMatchEnd (r : Calls) (depth : Nat) (m : Match) : Parser Term := do
  if m.term = termNewNum 0 then
    let f ← r.term depth
    parseSkip
    parseConsume (tok '}')
    build fun rt => termNewUse rt f
  else if (← parsePeek) = byte '}' then
    parseConsume (tok '}')
    return m.term
  else
    parseDefaultMark
    let d ← r.term depth
    let term ← m.put d
    parseSkip
    parseConsume (tok '}')
    return term

/-- One turn of the loop over the cases. -/
def parseMatchTurn (r : Calls) (depth : Nat) (m : Match) : Parser (Match ⊕ Term) := do
  parseSkip
  let save := (← get).s
  let pattern ← parseCase
  match pattern with
  | some (tag, ext) => return .inl (← parseMatchCase r depth m tag ext)
  | none =>
    moveTo fun _ => save
    return .inr (← parseMatchEnd r depth m)

/-- `λ{}`, `λ{f}` and `λ{A: f; B: g; ...; d}`. -/
def parseLamMatch (r : Calls) (n depth : Nat) : Parser Term := do
  parseConsume (tok '{')
  parseSkip
  if (← parsePeek) = byte '}' then
    parseConsume (tok '}')
    return termNewEra
  else
    loopM (parseMatchTurn r depth) n ⟨termNewNum 0, none⟩

/-- `λ$x. body`. -/
def parseLamUnscoped (r : Calls) (n depth : Nat) : Parser Term := do
  parseAdvance
  let nam ← parseName
  parseSkip
  parseBindPush nam (depth + 1) 0 false false
  let body ← lamBody r (depth + 2)
  parseBindPop
  let uses ← countUses n body ⟨.bjv, depth + 2, 0⟩
  checkAffine nam none uses
  let app ← build fun rt => termNewApp rt (termNew false .bjv 0 (depth + 1)) body
  let lamX ← newLam (lamExt (depth + 2) uses) app
  let lamF ← newLam (depth + 1) lamX
  build fun rt => termNewUns rt lamF

/-- `λx&(L). body`, from the label's parenthesis on. -/
def parseLamDyn (r : Calls) (n depth nam : Nat) (cloned : Bool) : Parser Term := do
  parseConsume (tok '(')
  let labTerm ← r.term (depth + 1)
  parseConsume (tok ')')
  parseSkip
  parseBindPush nam (depth + 1) parseDynLab false cloned
  let body ← lamBody r (depth + 3)
  parseBindPop
  let uses0 ← countUses n body ⟨.bjv, depth + 2, 0⟩
  let uses1 ← countUses n body ⟨.bjv, depth + 3, 0⟩
  let body ← do
    if cloned then
      let body ← parseAutoDup n body ⟨.bjv, depth + 2, 0⟩ (depth + 3) uses0
      parseAutoDup n body ⟨.bjv, depth + 3, 0⟩ (depth + 3) uses1
    else pure body
  checkSides cloned nam uses0 uses1
  let lam1 ← newLam (depth + 3) body
  let lam0 ← newLam (depth + 2) lam1
  let ddu ← build fun rt => termNewDdu rt labTerm (termNew false .bjv 0 (depth + 1)) lam0
  newLam (lamExt (depth + 1) (uses0 + uses1)) ddu

/-- A fresh label when the text omits it. -/
def autoLabel : Parser Nat := do
  let fresh := (← get).freshLab
  stopIf (parseDynLab ≤ fresh) (parseError (utf8 "available auto-dup label (< 0x3FFFF)"))
  takeLabels 1

/-- `λx&L. body` and `λx&. body`, from the label on. -/
def parseLamDup (r : Calls) (n depth nam : Nat) (cloned : Bool) : Parser Term := do
  let c ← parsePeek
  let lab ← if c = byte ',' ∨ c = byte '.' then autoLabel else writtenLabel
  parseSkip
  parseBindPush nam (depth + 1) lab false cloned
  let body ← lamBody r (depth + 2)
  parseBindPop
  let uses0 ← countUses n body ⟨.bj0, depth + 2, lab⟩
  let uses1 ← countUses n body ⟨.bj1, depth + 2, lab⟩
  let body ← do
    if cloned then
      let body ← parseAutoDup n body ⟨.bj1, depth + 2, lab⟩ (depth + 2) uses1
      parseAutoDup n body ⟨.bj0, depth + 2, lab⟩ (depth + 2) uses0
    else pure body
  checkSides cloned nam uses0 uses1
  let dup ← build fun rt => termNewDup rt lab (termNew false .bjv 0 (depth + 1)) body
  newLam (lamExt (depth + 1) (uses0 + uses1)) dup

/-- `λx. body`. -/
def parseLamPlain (r : Calls) (n depth nam : Nat) (cloned : Bool) : Parser Term := do
  parseBindPush nam depth 0 false cloned
  let body ← lamBody r (depth + 1)
  parseBindPop
  let uses ← countUses n body ⟨.bjv, depth + 1, 0⟩
  let body ← if cloned then parseAutoDup n body ⟨.bjv, depth + 1, 0⟩ (depth + 1) uses
    else pure body
  checkPlain cloned nam uses
  newLam (lamExt (depth + 1) uses) body

def parseTermLam (r : Calls) (n depth : Nat) : Parser Term := do
  parseSkip
  if (← parsePeek) = byte '{' then
    parseLamMatch r n depth
  else if (← parsePeek) = byte '$' then
    parseLamUnscoped r n depth
  else
    let cloned ← parseMatch (tok '&')
    let nam ← parseName
    parseSkip
    if (← parsePeek) = byte '&' then
      parseAdvance
      parseSkip
      if (← parsePeek) = byte '(' then
        parseLamDyn r n depth nam cloned
      else
        parseLamDup r n depth nam cloned
    else
      parseLamPlain r n depth nam cloned

/-- `! f = λ v; body`, once the lookahead has seen the semicolon. -/
def parseDupUnscoped (r : Calls) (n depth nam namV : Nat) : Parser Term := do
  parseSkip
  parseBindPush nam depth 0 false false
  parseBindPush namV (depth + 1) 0 false false
  let locF ← build fun rt => (heapAlloc rt 1).swap
  let locV ← build fun rt => (heapAlloc rt 1).swap
  let body ← r.term (depth + 2)
  parseBindPop
  parseBindPop
  let usesF ← countUses n body ⟨.bjv, depth + 1, 0⟩
  let usesV ← countUses n body ⟨.bjv, depth + 2, 0⟩
  checkAffine nam none usesF
  checkAffine namV none usesV
  heapStore locV body
  heapStore locF (termNew false .lam (depth + 2) locV)
  build fun rt => termNewUns rt (termNew false .lam (depth + 1) locF)

/-- `! x = val; body`. -/
def parseLet (r : Calls) (n depth nam : Nat) (strict cloned : Bool) : Parser Term := do
  let val ← r.term depth
  parseSkip
  let _ ← parseMatch (tok ';')
  parseBindPush nam depth 0 false cloned
  let loc ← build fun rt => (heapAlloc rt 1).swap
  let body ← r.term (depth + 1)
  parseBindPop
  let uses ← countUses n body ⟨.bjv, depth + 1, 0⟩
  let body ← if cloned then parseAutoDup n body ⟨.bjv, depth + 1, 0⟩ (depth + 1) uses
    else pure body
  checkPlain cloned nam uses
  heapStore loc body
  let lam := termNew false .lam (depth + 1) loc
  let lam ← if strict then build fun rt => termNewUse rt lam else pure lam
  build fun rt => termNewApp rt lam val

/-- `! x &(lab) = val; body`, from the label's parenthesis on. -/
def parseDupDyn (r : Calls) (n depth nam : Nat) (cloned : Bool) : Parser Term := do
  parseConsume (tok '(')
  let labTerm ← r.term depth
  parseConsume (tok ')')
  parseConsume (tok '=')
  let val ← r.term depth
  parseSkip
  let _ ← parseMatch (tok ';')
  parseSkip
  parseBindPush nam depth parseDynLab false cloned
  let body ← r.term (depth + 2)
  parseBindPop
  let uses0 ← countUses n body ⟨.bjv, depth + 1, 0⟩
  let uses1 ← countUses n body ⟨.bjv, depth + 2, 0⟩
  let body ← do
    if cloned then
      let body ← parseAutoDup n body ⟨.bjv, depth + 1, 0⟩ (depth + 2) uses0
      parseAutoDup n body ⟨.bjv, depth + 2, 0⟩ (depth + 2) uses1
    else pure body
  checkSides cloned nam uses0 uses1
  let loc0 ← build fun rt => (heapAlloc rt 1).swap
  let loc1 ← build fun rt => (heapAlloc rt 1).swap
  heapStore loc1 body
  heapStore loc0 (termNew false .lam (depth + 2) loc1)
  build fun rt => termNewDdu rt labTerm val (termNew false .lam (depth + 1) loc0)

/-- `! x &L = val; body` and `! x & = val; body`, from the label on. -/
def parseDupStatic (r : Calls) (n depth nam : Nat) (cloned : Bool) : Parser Term := do
  let lab ← if (← parsePeek) = byte '=' then autoLabel else writtenLabel
  let loc ← build fun rt => (heapAlloc rt 2).swap
  parseConsume (tok '=')
  let val ← r.term depth
  heapStore loc val
  parseSkip
  let _ ← parseMatch (tok ';')
  parseSkip
  parseBindPush nam depth lab false cloned
  let body ← r.term (depth + 1)
  parseBindPop
  let uses0 ← countUses n body ⟨.bj0, depth + 1, lab⟩
  let uses1 ← countUses n body ⟨.bj1, depth + 1, lab⟩
  let body ← do
    if cloned then
      let body ← parseAutoDup n body ⟨.bj1, depth + 1, lab⟩ (depth + 1) uses1
      parseAutoDup n body ⟨.bj0, depth + 1, lab⟩ (depth + 1) uses0
    else pure body
  checkSides cloned nam uses0 uses1
  heapStore (loc + 1) body
  return termNew false .dup lab loc

/-- The `&` before the name of a cloned binder of `!`. -/
def parseClonedMark : Parser Bool := do
  if (← parsePeek) = byte '&' then
    parseAdvance
    parseSkip
    return true
  else
    return false

/-- The lookahead for `λ v ;` after `! f =`: the name of `v`. -/
def parseUnscopedMark : Parser (Option Nat) := do
  if ← parseMatch (utf8 "λ") then
    parseSkip
    let namV ← parseName
    parseSkip
    if ← parseMatch (tok ';') then return some namV else return none
  else
    return none

/-- What follows `! x =`, once the lookahead is over. -/
def parseLetForm (r : Calls) (n depth nam : Nat) (strict cloned : Bool) (save : PState) :
    Option Nat → Parser Term
  | some namV => parseDupUnscoped r n depth nam namV
  | none => do
    moveTo fun _ => save
    parseLet r n depth nam strict cloned

def parseTermDup (r : Calls) (n depth : Nat) : Parser Term := do
  parseSkip
  let strict ← parseMatch (tok '!')
  parseSkip
  let cloned ← parseClonedMark
  let nam ← parseName
  parseSkip
  if (← parsePeek) = byte '=' then
    parseAdvance
    parseSkip
    let save := (← get).s
    let namV ← parseUnscopedMark
    parseLetForm r n depth nam strict cloned save namV
  else
    parseConsume (tok '&')
    parseSkip
    if (← parsePeek) = byte '(' then
      parseDupDyn r n depth nam cloned
    else
      parseDupStatic r n depth nam cloned

end Hvm
