import Hvm.Parse.Grammar

/-! Definitions, includes and the program entry (`parse/def.c`, `parse/include.c`,
`parse/program.c`). The files that can be opened are a function from paths to texts. -/

namespace Hvm

/-- `sys_path_join` into a buffer of 1024 bytes. -/
def sysPathJoin (base rel : Text) : Text :=
  let path :=
    if rel.head? = some (byte '/') then rel
    else if byte '/' ∈ base then
      (base.reverse.dropWhile (· != byte '/')).reverse ++ rel
    else rel
  path.take 1023

def maxIncludes : Nat := 1024

/-- What `parse_include` does before it reads the file: the path, `none` when that file
was parsed before. -/
def includePath : Parser (Option Text) := do
  parseSkip
  parseConsume (tok '"')
  let filename := (← get).s.rest.takeWhile (· != byte '"')
  moveTo (·.advanceBy filename.length)
  parseConsume (tok '"')
  stopIf (256 ≤ filename.length) fun _ =>
    .sysError (utf8 "include path exceeds parser buffer (255 chars)")
  let p ← get
  let path := sysPathJoin p.s.file filename
  if path ∈ p.seenFiles then
    return none
  else
    stopIf (maxIncludes ≤ p.seenFiles.length) fun _ => .sysError (utf8 "MAX_INCLUDES")
    modify fun p => { p with seenFiles := p.seenFiles ++ [path] }
    return some path

/-- `parse_include`; `def_` is `parse_def`. -/
def parseInclude (files : Text → Option Text) (def_ : Parser Unit) : Parser Unit := do
  match ← includePath with
  | none => return
  | some path =>
    match files path with
    | none => throw (.noFile path)
    | some src =>
      let s := (← get).s
      moveTo fun _ => ⟨path, src, 1, 1⟩
      def_
      moveTo fun _ => s

/-- One definition, from its name on. -/
def parseDefBody (r : Calls) : Parser Unit := do
  let id ← parseName
  parseConsume (tok '=')
  modify fun p => { p with binds := [] }
  let val ← r.term 0
  let loc ← build fun rt => (heapAlloc rt 1).swap
  heapStore loc val
  modify fun p => { p with book := Function.update p.book id loc }

def parseDef (files : Text → Option Text) : Nat → Parser Unit
  | 0 => throw .fuel
  | n + 1 => do
    parseSkip
    if (← get).s.atEnd then
      return
    else if ← parseMatch (utf8 "#include") then
      parseInclude files (parseDef files n)
      parseDef files n
    else if ← parseMatch (tok '@') then
      parseDefBody (calls n)
      parseDef files n
    else
      stopIf true (parseError (utf8 "definition or #include"))

/-- The process before it parses: the names interned by `symbols_init` and `prim_init`,
an empty book and thread 0's heap bank. -/
def parseInit : Parse where
  s := ⟨[], [], 1, 1⟩
  table := [utf8 "ZER", utf8 "SUC", utf8 "NIL", utf8 "CON", utf8 "CHR", utf8 "log",
    utf8 "log_go_0", utf8 "log_go_1", utf8 "log_go_2"]
  rt := { heap := fun _ => .tm Term.zero, next := 1, itrs := 0, fresh := 1, log := [] }
  book := fun _ => 0
  binds := []
  freshLab := parseFreshBase
  forkSide := none
  seenFiles := []
  labels := []
  forks := []

/-- `parse_program` on a fresh process. -/
def parseProgram (files : Text → Option Text) (n : Nat) (path src : Text) :
    Except ParseStop Parse :=
  match (parseDef files n).run
      { parseInit with s := ⟨path, src, 1, 1⟩, seenFiles := [path] } with
  | .ok (_, p) => .ok p
  | .error e => .error e

end Hvm
