import Hvm.Parse.AutoDup

/-! Terms without binders: literals, nodes, operators and variables (`parse/term/`). The
functions call each other through a record of the ones that recur, and a loop turns at
most `n` times. -/

namespace Hvm

def tok (c : Char) : Text := [byte c]

/-- The functions of the grammar that others call back. -/
structure Calls where
  term (depth : Nat) : Parser Term
  atom (depth : Nat) : Parser Term
  lam (depth : Nat) : Parser Term
  /-- `parse_term_app_prec`. -/
  app (f : Term) (depth minPrec : Nat) : Parser Term

/-- A `while (1)` loop: a turn goes on with a new state or leaves with a result. -/
def loopM {σ β : Type} (turn : σ → Parser (σ ⊕ β)) : Nat → σ → Parser β
  | 0, _ => throw .fuel
  | n + 1, x => do
    match ← turn x with
    | .inl x => loopM turn n x
    | .inr b => return b

/-- A counted loop that collects what its turns give. -/
def repeatM {β : Type} (turn : Parser β) : Nat → Parser (List β)
  | 0 => return []
  | n + 1 => do
    let b ← turn
    return b :: (← repeatM turn n)

/-! ### Literals -/

def takeDigits : Parser Text := do
  let ds := (← get).s.rest.takeWhile isDigit
  moveTo (·.advanceBy ds.length)
  return ds

/-- A decimal literal, read with `u32` arithmetic. -/
def decimal (ds : Text) : Nat := ds.foldl (fun n c => u32 (n * 10 + digitVal c)) 0

/-- `t` under `num` constructors `#SUC`. -/
def sucs : Nat → Term → Parser Term
  | 0, t => return t
  | num + 1, t => do
    let t ← build fun rt => termNewCtr rt symSuc [t]
    sucs num t

/-- `parse_term_nat`; going back restores `pos` and neither line nor column. -/
def parseTermNat (r : Calls) (depth : Nat) : Parser (Option Term) := do
  let sav := (← get).s.rest
  let num := decimal (← takeDigits)
  if (← parsePeek) ≠ byte 'n' then
    moveTo fun s => { s with rest := sav }
    return none
  parseAdvance
  let t ← if ← parseMatch (tok '+') then r.term depth
    else build fun rt => termNewCtr rt symZer []
  return some (← sucs num t)

def parseTermNum : Parser Term := do
  parseSkip
  let ds ← takeDigits
  stopIf ds.isEmpty (parseError (utf8 "number"))
  parseSkip
  return termNewNum (decimal ds)

/-- `parse_utf8`. The tests on `pos` are made after the first byte is taken. -/
def parseUtf8 : Parser Nat := do
  let b0 := (← parsePeek).toNat
  parseAdvance
  let left := (← get).s.rest.length
  let next : Parser Nat := do
    let b := (← parsePeek).toNat
    parseAdvance
    return b &&& 0x3F
  if b0 < 0x80 then
    return b0
  else if b0 &&& 0xE0 = 0xC0 ∧ 0 < left then
    let b1 ← next
    return (b0 &&& 0x1F) <<< 6 ||| b1
  else if b0 &&& 0xF0 = 0xE0 ∧ 1 < left then
    let b1 ← next
    let b2 ← next
    return (b0 &&& 0x0F) <<< 12 ||| b1 <<< 6 ||| b2
  else if b0 &&& 0xF8 = 0xF0 ∧ 2 < left then
    let b1 ← next
    let b2 ← next
    let b3 ← next
    return (b0 &&& 0x07) <<< 18 ||| b1 <<< 12 ||| b2 <<< 6 ||| b3
  else
    return b0

/-- The escapes of `parse_char_esc` that stand for another character. -/
def charEsc (c : UInt8) : Nat :=
  if c = byte 'n' then 10
  else if c = byte 't' then 9
  else if c = byte 'r' then 13
  else if c = byte '0' then 0
  else c.toNat

def parseCharEsc : Parser Nat := do
  let c ← parsePeek
  stopIf (c == 0) (.expected · (utf8 "character") 0)
  if c = byte '\\' then
    parseAdvance
    let c ← parsePeek
    stopIf (c == 0) (.expected · (utf8 "character") 0)
    parseAdvance
    return charEsc c
  else
    parseUtf8

def parseCharLit : Parser Nat := do
  parseAdvance
  let c ← parseCharEsc
  let quote ← parsePeek
  stopIf (quote != byte '\'') (parseError (tok '\''))
  parseAdvance
  return c

def parseTermChr : Parser Term := do
  let c ← parseCharLit
  build fun rt => termNewCtr rt symChr [termNewNum c]

/-- The length of the arrays of `parse_term_lst` and `parse_term_str`. -/
def literalCap : Nat := 4096

def parseTermStr (n : Nat) : Parser Term := do
  let fence ← parsePeek
  parseAdvance
  let cs ← loopM (fun cs => do
    if (← parsePeek) = fence then
      return .inr cs
    let c ← parseCharEsc
    stopIf (literalCap ≤ cs.length) fun _ => .overrun
    return .inl (cs ++ [c])) n []
  parseAdvance
  let nil ← build fun rt => termNewCtr rt symNil []
  cs.foldrM (fun c t => do
    let h ← build fun rt => termNewCtr rt symChr [termNewNum c]
    build fun rt => termNewCtr rt symCon [h, t]) nil

/-- The loop over the elements of a list; an element is stored once it is parsed. -/
def parseElements (r : Calls) (n depth : Nat) : Parser (List Term) :=
  loopM (fun es => do
    if (← parsePeek) = byte ']' then
      return .inr es
    let e ← r.term depth
    stopIf (literalCap ≤ es.length) fun _ => .overrun
    parseSkip
    let _ ← parseMatch (tok ',')
    parseSkip
    return .inl (es ++ [e])) n []

def parseTermLst (r : Calls) (n depth : Nat) : Parser Term := do
  parseAdvance
  parseSkip
  if (← parsePeek) = byte ']' then
    parseAdvance
    build fun rt => termNewCtr rt symNil []
  else
    let es ← parseElements r n depth
    parseConsume (tok ']')
    let nil ← build fun rt => termNewCtr rt symNil []
    es.foldrM (fun e t => build fun rt => termNewCtr rt symCon [e, t]) nil

/-! ### Nodes -/

/-- The loop over the fields of a constructor; a field is parsed once there is room for it. -/
def parseFields (r : Calls) (n depth : Nat) : Parser (List Term) :=
  loopM (fun ts => do
    if (← parsePeek) = byte '\x7d' then
      return .inr ts
    stopIf (16 ≤ ts.length) (parseError (utf8 "at most 16 constructor fields"))
    let t ← r.term depth
    parseSkip
    let _ ← parseMatch (tok ',')
    parseSkip
    return .inl (ts ++ [t])) n []

def parseTermCtr (r : Calls) (n depth : Nat) : Parser Term := do
  let nam ← parseName
  parseSkip
  if ← parseMatch (tok '{') then
    parseSkip
    let args ← parseFields r n depth
    parseConsume (tok '}')
    build fun rt => termNewCtr rt nam args
  else
    build fun rt => termNewCtr rt nam []

def parseTermRef : Parser Term := do
  return termNewRef (← parseName)

def parseTermPri (r : Calls) (depth : Nat) : Parser Term := do
  let id ← parseName
  let arity := primArity id
  stopIf (arity == 0) (parseError (utf8 "known primitive"))
  parseSkip
  let c ← parsePeek
  stopIf (c != byte '(') (parseError (utf8 "primitive application"))
  parseConsume (tok '(')
  let args ← repeatM (do
    parseSkip
    let c ← parsePeek
    stopIf (c == byte ')') (parseError (utf8 "argument"))
    let arg ← r.term depth
    parseSkip
    let _ ← parseMatch (tok ',')
    return arg) arity
  parseSkip
  let c ← parsePeek
  stopIf (c != byte ')') (parseError (utf8 "end of argument list"))
  parseConsume (tok ')')
  build fun rt => termNewPri rt id args

def parseTermNam (r : Calls) (depth : Nat) : Parser Term := do
  parseSkip
  if (← parsePeek) = byte '(' then
    parseConsume (tok '(')
    let f ← r.term depth
    let x ← r.term depth
    parseConsume (tok ')')
    build fun rt => termNewDry rt f x
  else
    return termNewNam (← parseNameNum)

def parseTermInc (r : Calls) (depth : Nat) : Parser Term := do
  let x ← r.atom depth
  build fun rt => termNewInc rt x

def parseTermPar (r : Calls) (depth : Nat) : Parser Term := do
  let term ← r.term depth
  parseConsume (tok ')')
  return term

/-! ### Operators -/

/-- `parse_term_opr_prec` on the codes `OP_ADD = 0 .. OP_GE = 16`. -/
def parseTermOprPrec (op : Nat) : Nat :=
  match op with
  | 6 => 1
  | 5 => 2
  | 11 | 12 => 3
  | 13 | 14 | 15 | 16 => 4
  | 8 | 9 => 5
  | 0 | 1 => 6
  | 2 | 3 | 4 => 7
  | 7 => 8
  | _ => 0

/-- The infix operators, those of two characters first. -/
def oprTable : List (Text × Nat) :=
  [(utf8 "==", 11), (utf8 "!=", 12), (utf8 "<=", 14), (utf8 ">=", 16), (utf8 "<<", 8),
   (utf8 ">>", 9), (utf8 "&&", 5), (utf8 "||", 6),
   (tok '+', 0), (tok '-', 1), (tok '*', 2), (tok '/', 3), (tok '%', 4), (tok '^', 7),
   (tok '~', 10), (tok '<', 13), (tok '>', 15)]

def parseTermOprPeek : Parser (Option (Text × Nat)) := do
  parseSkip
  let rest := (← get).s.rest
  return oprTable.find? fun op => op.1.isPrefixOf rest

def parseTermOprConsume (op : Text) : Parser Unit := do
  parseSkip
  moveTo (·.advanceBy op.length)

/-- `parse_term_app_prec`. -/
def parseTermAppPrec (r : Calls) (n : Nat) (f : Term) (depth minPrec : Nat) :
    Parser Term := do
  let short (new : Rt → Term → Term → Rt × Term) (prec : Nat) : Parser Term := do
    let rhs ← r.atom depth
    let rhs ← r.app rhs depth prec
    let f ← build fun rt => new rt f rhs
    r.app f depth minPrec
  parseSkip
  if ← parseMatch (utf8 "<>") then
    let t ← r.term depth
    let f ← build fun rt => termNewCtr rt symCon [f, t]
    r.app f depth minPrec
  else if ← parseMatch (utf8 "===") then
    short termNewEql 4
  else if ← parseMatch (utf8 ".&.") then
    short termNewAnd 2
  else if ← parseMatch (utf8 ".|.") then
    short termNewOr 1
  else
    let op ← parseTermOprPeek
    opr op
where
  /-- The rest of the function, once the next operator is known. -/
  opr : Option (Text × Nat) → Parser Term
    | some (str, op) => do
      if minPrec ≤ parseTermOprPrec op then
        parseTermOprConsume str
        let rhs ← r.atom depth
        let rhs ← r.app rhs depth (parseTermOprPrec op + 1)
        let f ← build fun rt => termNewOp2 rt op f rhs
        r.app f depth minPrec
      else
        call
    | none => call
  /-- No operator: maybe an argument list. -/
  call : Parser Term := do
    if (← parsePeek) ≠ byte '(' then
      return f
    parseConsume (tok '(')
    if (← parsePeek) = byte ')' then
      parseConsume (tok ')')
      r.app f depth minPrec
    else
      let f ← loopM (fun f => do
        let arg ← r.term depth
        let f ← build fun rt => termNewApp rt f arg
        parseSkip
        let _ ← parseMatch (tok ',')
        parseSkip
        if (← parsePeek) = byte ')' then
          parseConsume (tok ')')
          return .inr f
        else
          return .inl f) n f
      r.app f depth minPrec

/-! ### Variables -/

def parseSide : Parser (Option Bool) := do
  if ← parseMatch (utf8 "₀") then return some false
  else if ← parseMatch (utf8 "₁") then return some true
  else return none

/-- The reference to a binder; a dynamic dup's sides are two nested lambdas. -/
def varTerm (bind : PBind) (side : Option Bool) : Term :=
  if bind.lab = parseDynLab then
    termNew false .bjv 0 (bind.lvl + if side = some true then 1 else 0)
  else
    match side with
    | some false => termNew false .bj0 bind.lab bind.lvl
    | some true => termNew false .bj1 bind.lab bind.lvl
    | none => termNew false .bjv bind.lab bind.lvl

def parseTermVar : Parser Term := do
  parseSkip
  let nam ← parseName
  parseSkip
  let side ← parseSide
  parseSkip
  let p ← get
  let (bind, skipped) := parseBindLookup nam side false p.binds
  let bind ← orStop bind (.var · nam side.isNone skipped)
  return varTerm bind (if side = none ∧ bind.forked then p.forkSide else side)

end Hvm
