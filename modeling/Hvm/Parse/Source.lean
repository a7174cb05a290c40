import Hvm.Effect
import Hvm.Machine

/-! The text cursor of the parser, its globals and its token functions (`parse/`,
`nick/`, `table/find.c`). A text is its bytes; `exit(1)` is an error that carries what
the message prints. -/

namespace Hvm

abbrev Text := List UInt8

instance Text.lawfulBEq : LawfulBEq Text := inferInstance

def utf8 (s : String) : Text := s.toUTF8.toList

def byte (c : Char) : UInt8 := c.toNat.toUInt8

/-- `PState`. The unread part of `src` stands for `src`, `pos` and `len`. -/
structure PState where
  file : Text
  rest : Text
  line : Nat
  col : Nat
  deriving DecidableEq, Repr

structure PBind where
  name : Nat
  lvl : Nat
  lab : Nat
  forked : Bool
  cloned : Bool
  deriving DecidableEq, Repr

/-- Where a label came from: a name in the text, or `PARSE_FRESH_LAB`. -/
inductive LabelUse where
  | written (lab : Nat)
  | generated (lab : Nat)
  deriving DecidableEq, Repr

/-- Ways the process ends while it parses. A side is `none` where C has -1. -/
inductive ParseStop where
  | expected (s : PState) (expected : Text) (detected : UInt8)
  | affine (s : PState) (nam : Nat) (side : Option Bool) (uses : Nat)
  | var (s : PState) (nam : Nat) (isDup skipped : Bool)
  | nameTooLong (s : PState) (k : Nat)
  | nestedForks (s : PState)
  | autoDupLabels
  | noFile (path : Text)
  | sysError (msg : Text)
  | outOfHeap
  /-- A write past the end of a C array. -/
  | overrun
  /-- Not an exit of the program: the bound on loops and recursion was reached. -/
  | fuel
  deriving DecidableEq, Repr

/-- A fork where the uses of its binders are checked: the heap, and the parameters and
branches of `parse_term_fork`. -/
structure ForkSite where
  rt : Rt
  depth : Nat
  dyn : Bool
  labTerm : Term
  lab : Nat
  binders : Nat
  left : Term
  right : Term

/-- The parser's state: the cursor, the name table, the heap and the book, and the
`PARSE_*` globals. `binds` has the innermost binder first. `labels` and `forks` are records
the program does not keep: the static labels taken and the forks met so far, latest first. -/
structure Parse where
  s : PState
  table : List Text
  rt : Rt
  book : BookTable
  binds : List PBind
  freshLab : Nat
  forkSide : Option Bool
  seenFiles : List Text
  labels : List LabelUse
  forks : List ForkSite

abbrev Parser := StateT Parse (Except ParseStop)

def parseDynLab : Nat := extMask
def parseFreshBase : Nat := 0x20000
def bookCap : Nat := 2 ^ 24

/-- The length of the array `PARSE_BINDS`. -/
def parseBindsCap : Nat := 16384

/-! ### Nick alphabet -/

def nickLetterToB64 (c : UInt8) : Option Nat :=
  if c = byte '_' then some 0
  else if byte 'a' ≤ c ∧ c ≤ byte 'z' then some (1 + (c - byte 'a').toNat)
  else if byte 'A' ≤ c ∧ c ≤ byte 'Z' then some (27 + (c - byte 'A').toNat)
  else if byte '0' ≤ c ∧ c ≤ byte '9' then some (53 + (c - byte '0').toNat)
  else if c = byte '$' then some 63
  else none

def nickIsChar (c : UInt8) : Bool := (nickLetterToB64 c).isSome

def nickIsInit (c : UInt8) : Bool :=
  (byte 'a' ≤ c && c ≤ byte 'z') || (byte 'A' ≤ c && c ≤ byte 'Z')

def isDigit (c : UInt8) : Bool := byte '0' ≤ c && c ≤ byte '9'

def digitVal (c : UInt8) : Nat := (c - byte '0').toNat

/-! ### Cursor -/

namespace PState

def atEnd (s : PState) : Bool := s.rest.isEmpty

/-- `parse_peek_at`: NUL past the end. -/
def peekAt (s : PState) (offset : Nat) : UInt8 := s.rest.getD offset 0

def peek (s : PState) : UInt8 := s.peekAt 0

def advance (s : PState) : PState :=
  match s.rest with
  | [] => s
  | c :: rest =>
    if c = byte '\n' then { s with rest := rest, line := s.line + 1, col := 1 }
    else { s with rest := rest, col := s.col + 1 }

def advanceBy (s : PState) : Nat → PState
  | 0 => s
  | n + 1 => s.advance.advanceBy n

def startsWith (s : PState) (str : Text) : Bool := str.isPrefixOf s.rest

def isSpace (c : UInt8) : Bool :=
  c = byte ' ' || c = byte '\t' || c = byte '\n' || c = byte '\r'

def skipComment (s : PState) : PState :=
  s.advanceBy (s.rest.takeWhile (· != byte '\n')).length

/-- The loop of `parse_skip`; every turn takes at least one byte. -/
def skipLoop : Nat → PState → PState
  | 0, s => s
  | n + 1, s =>
    if s.atEnd then s
    else if isSpace s.peek then skipLoop n s.advance
    else if s.startsWith (utf8 "//") then skipLoop n s.skipComment
    else s

def skip (s : PState) : PState := skipLoop s.rest.length s

end PState

def parsePeekAt (offset : Nat) : Parser UInt8 := do return (← get).s.peekAt offset

def parsePeek : Parser UInt8 := parsePeekAt 0

/-- Moves the cursor. -/
def moveTo (f : PState → PState) : Parser Unit := modify fun p => { p with s := f p.s }

def parseAdvance : Parser Unit := moveTo PState.advance

def parseSkip : Parser Unit := moveTo PState.skip

def parseMatch (str : Text) : Parser Bool := do
  if (← get).s.startsWith str then
    moveTo (·.advanceBy str.length)
    return true
  else
    return false

/-- What `parse_error` exits with. -/
def parseError (expected : Text) (s : PState) : ParseStop := .expected s expected s.peek

/-- `if (bad) { exit(1); }`, with the message made at the cursor. -/
def stopIf (bad : Bool) (e : PState → ParseStop) : Parser Unit := do
  let s := (← get).s
  if bad then throw (e s) else return

def orStop {α : Type} (a : Option α) (e : PState → ParseStop) : Parser α := do
  let s := (← get).s
  match a with
  | some a => return a
  | none => throw (e s)

def parseConsume (str : Text) : Parser Unit := do
  parseSkip
  let found ← parseMatch str
  stopIf (!found) (parseError str)
  parseSkip

/-! ### Names -/

def tableFind (name : Text) : Parser Nat := do
  let table := (← get).table
  if name ∈ table then
    return table.idxOf name
  else
    stopIf (bookCap ≤ table.length) fun _ => .sysError (utf8 "name table overflow")
    modify fun p => { p with table := table ++ [name] }
    return table.length

/-- `parse_name` and `parse_name_ref`, which have the same body. -/
def parseName : Parser Nat := do
  parseSkip
  let c ← parsePeek
  stopIf (!nickIsInit c) (parseError (utf8 "name"))
  let name := (← get).s.rest.takeWhile nickIsChar
  moveTo (·.advanceBy name.length)
  let id ← tableFind name
  parseSkip
  return id

/-- One turn of the loop of `parse_name_num`. -/
def nameNumChar (k : Nat) (c : UInt8) : Parser Nat := do
  let k := (k <<< 6) ||| (nickLetterToB64 c).getD 0
  stopIf (extMask < k) (.nameTooLong · k)
  parseAdvance
  return k

/-- `parse_name_num`: a name read as a base-64 number of at most 18 bits. -/
def parseNameNum : Parser Nat := do
  parseSkip
  let c ← parsePeek
  stopIf (!nickIsInit c) (parseError (utf8 "name"))
  let k ← ((← get).s.rest.takeWhile nickIsChar).foldlM nameNumChar 0
  parseSkip
  return k

/-! ### Heap and labels -/

/-- Runs a term constructor, then `heap_alloc`'s own check. -/
def build {α : Type} (f : Rt → Rt × α) : Parser α := do
  let (rt, a) := f (← get).rt
  stopIf (heapCap < rt.next) fun _ => .outOfHeap
  modify fun p => { p with rt := rt }
  return a

def heapStore (loc : Nat) (t : Term) : Parser Unit :=
  modify fun p => { p with rt := heapSet p.rt loc t }

/-- A static label written by name. -/
def writtenLabel : Parser Nat := do
  let lab ← parseNameNum
  modify fun p => { p with labels := .written lab :: p.labels }
  return lab

/-- Takes `n` labels from `PARSE_FRESH_LAB` and returns the first. -/
def takeLabels (n : Nat) : Parser Nat := do
  let lab := (← get).freshLab
  modify fun p => { p with
    freshLab := lab + n
    labels := ((List.range' lab n).map LabelUse.generated).reverse ++ p.labels }
  return lab

/-! ### Binders -/

def parseBindPush (name depth lab : Nat) (forked cloned : Bool) : Parser Unit := do
  let binds := (← get).binds
  stopIf (parseBindsCap ≤ binds.length) fun _ => .overrun
  modify fun p => { p with binds := ⟨name, depth + 1, lab, forked, cloned⟩ :: binds }

def parseBindPop : Parser Unit := modify fun p => { p with binds := p.binds.tail }

/-- `parse_bind_lookup`: the innermost binder of that name whose kind fits the use, and
whether one was passed over. -/
def parseBindLookup (name : Nat) (side : Option Bool) (skipped : Bool) :
    List PBind → Option PBind × Bool
  | [] => (none, skipped)
  | bind :: binds =>
    if bind.name = name then
      if side = none ∧ bind.lab ≠ 0 ∧ ¬ bind.forked then
        parseBindLookup name side true binds
      else if side ≠ none ∧ bind.lab = 0 then
        parseBindLookup name side true binds
      else (some bind, skipped)
    else parseBindLookup name side skipped binds

/-! ### Successful runs -/

open Effect

theorem stopIf_ok {bad : Bool} {e : PState → ParseStop} {p p' : Parse} {u : Unit} :
    stopIf bad e p = .ok (u, p') ↔ bad = false ∧ p = p' := by
  simp only [stopIf, bind_ok, get_ok, ite_ok, pure_ok, throw_ok]
  cases bad <;> simp

theorem build_ok {α : Type} {f : Rt → Rt × α} {p p' : Parse} {a : α} :
    build f p = .ok (a, p') ↔
      (f p.rt).1.next ≤ heapCap ∧ a = (f p.rt).2 ∧ p' = { p with rt := (f p.rt).1 } := by
  simp only [build, bind_ok, get_ok, pure_ok, stopIf_ok, modify_ok]
  constructor
  · rintro ⟨q, q', ⟨rfl, rfl⟩, u, q, ⟨hcap, rfl⟩, v, q', rfl, rfl, rfl⟩
    exact ⟨by simpa using hcap, rfl, rfl⟩
  · rintro ⟨hcap, rfl, rfl⟩
    exact ⟨p, p, ⟨rfl, rfl⟩, (), p, ⟨by simpa using hcap, rfl⟩, (), _, rfl, rfl, rfl⟩

end Hvm
