import Hvm.Print.Utf8

/-! Printing data (`print/term.c`): numbers and constructors, with the sugars for naturals,
characters, strings and lists. The printer reads the heap as it goes; a `while` loop turns and
`print_term_at` recurs at most as often as the fuel says. -/

namespace Hvm

/-- Ways the printer stops. -/
inductive PrintStop where
  /-- `assert(!term_sub_get(term))`. -/
  | assertion
  /-- Not an exit of the program: the bound on loops and recursion was reached. -/
  | fuel
  deriving DecidableEq, Repr

/-- `%u`. -/
def printDecimal (n : Nat) : Text := (Nat.toDigits 10 n).map byte

/-- The letter of the nick alphabet with this code. -/
def nickAlphabet (n : Nat) : UInt8 :=
  if n = 0 then byte '_'
  else if n ≤ 26 then UInt8.ofNat (96 + n)
  else if n ≤ 52 then UInt8.ofNat (64 + (n - 26))
  else if n ≤ 62 then UInt8.ofNat (48 + (n - 53))
  else byte '$'

/-- `print_name`. -/
def printName (n : Nat) : Text :=
  if n < 64 then [nickAlphabet n] else printName (n / 64) ++ [nickAlphabet (n % 64)]
termination_by n

/-- `print_sym_name`. -/
def printSymName (table : List Text) (nam : Nat) : Text := (table[nam]?).getD (printName nam)

/-! ### The loops of `print_ctr` -/

/-- Counts the `#SUC`s, up to the term under them. -/
def sucSpine (rt : Rt) : Nat → Nat → Term → Except PrintStop (Nat × Term)
  | 0, _, _ => .error .fuel
  | fuel + 1, n, t =>
    if t.tag = .ctr 1 ∧ t.ext = symSuc then sucSpine rt fuel (u32 (n + 1)) (heapRead rt t.val)
    else .ok (n, t)

/-- The code point of a character. -/
def chrCode (rt : Rt) (h : Term) : Nat := u32 (heapRead rt h.val).val

/-- Whether every element of the chain is a character that can be printed in a string. -/
def isStr (rt : Rt) : Nat → Term → Except PrintStop Bool
  | 0, _ => .error .fuel
  | fuel + 1, x =>
    if x.tag = .ctr 2 ∧ x.ext = symCon then
      let h := heapRead rt x.val
      if ¬ (h.tag = .ctr 1 ∧ h.ext = symChr) then .ok false
      else if (heapRead rt h.val).tag ≠ .num then .ok false
      else if !printUtf8CanEscape (chrCode rt h) .str then .ok false
      else isStr rt fuel (heapRead rt (x.val + 1))
    else .ok true

/-- The end of the chain. -/
def conEnd (rt : Rt) : Nat → Term → Except PrintStop Term
  | 0, _ => .error .fuel
  | fuel + 1, x =>
    if x.tag = .ctr 2 ∧ x.ext = symCon then conEnd rt fuel (heapRead rt (x.val + 1)) else .ok x

/-- The characters of a string. -/
def printStr (rt : Rt) : Nat → Term → Except PrintStop Text
  | 0, _ => .error .fuel
  | fuel + 1, x =>
    if x.tag = .ctr 2 then do
      let rest ← printStr rt fuel (heapRead rt (x.val + 1))
      return (printUtf8Escape (chrCode rt (heapRead rt x.val)) .str).getD [] ++ rest
    else return []

/-- The elements of a list from `x` on; `first` is `x == t`. -/
def printList (at_ : Term → Except PrintStop Text) (rt : Rt) :
    Nat → Bool → Term → Except PrintStop Text
  | 0, _, _ => .error .fuel
  | fuel + 1, first, x =>
    if x.tag = .ctr 2 then do
      let e ← at_ (heapRead rt x.val)
      let rest ← printList at_ rt fuel false (heapRead rt (x.val + 1))
      return (if first then [] else tok ',') ++ e ++ rest
    else return []

/-- The fields `i, .., i + k - 1`, separated by commas. -/
def printFields (at_ : Term → Except PrintStop Text) (rt : Rt) (loc : Nat) :
    Nat → Nat → Except PrintStop Text
  | _, 0 => return []
  | i, k + 1 => do
    let e ← at_ (heapRead rt (loc + i))
    let rest ← printFields at_ rt loc (i + 1) k
    return (if i = 0 then [] else tok ',') ++ e ++ rest

/-! ### Terms -/

def isZer (t : Term) : Bool := t.tag = .ctr 0 ∧ t.ext = symZer

def isNil (t : Term) : Bool := t.tag = .ctr 0 ∧ t.ext = symNil

/-- `#NAM{..}`. -/
def printPlain (at_ : Term → Except PrintStop Text) (table : List Text) (rt : Rt) (t : Term)
    (ari : Nat) : Except PrintStop Text := do
  let args ← printFields at_ rt t.val 0 ari
  return tok '#' ++ printSymName table t.ext ++ tok '\x7b' ++ args ++ tok '\x7d'

/-- Naturals: `n` and what is under the `#SUC`s. -/
def printNat (at_ : Term → Except PrintStop Text) (rt : Rt) (fuel : Nat) (t : Term) :
    Except PrintStop Text := do
  let (n, t) ← sucSpine rt fuel 0 t
  if isZer t then
    return printDecimal n ++ tok 'n'
  else do
    let x ← at_ t
    return printDecimal n ++ tok 'n' ++ tok '+' ++ x

/-- Strings, lists and pairs, `none` where none of the sugars is taken. -/
def printCon (at_ : Term → Except PrintStop Text) (rt : Rt) (fuel : Nat) (t : Term) :
    Except PrintStop (Option Text) := do
  let str ← if t.ext = symCon then isStr rt fuel t else .ok false
  let last ← conEnd rt fuel t
  if str ∧ isNil last then
    let cs ← printStr rt fuel t
    return some (tok '"' ++ cs ++ tok '"')
  else if isNil last then
    let es ← printList at_ rt fuel true t
    return some (tok '[' ++ es ++ tok ']')
  else if t.ext = symCon then
    let h ← at_ (heapRead rt t.val)
    let x ← at_ (heapRead rt (t.val + 1))
    return some (h ++ tok '<' ++ tok '>' ++ x)
  else
    return none

/-- The literal of a character, where it has one. -/
def printChr (rt : Rt) (t : Term) (ari : Nat) : Option Text :=
  if t.ext = symChr ∧ ari = 1 ∧ (heapRead rt t.val).tag = .num ∧
      printUtf8CanEscape (chrCode rt t) .char then
    some (tok '\'' ++ (printUtf8Escape (chrCode rt t) .char).getD [] ++ tok '\'')
  else none

/-- `print_ctr`. -/
def printCtr (at_ : Term → Except PrintStop Text) (table : List Text) (rt : Rt) (fuel : Nat)
    (t : Term) (ari : Nat) : Except PrintStop Text := do
  if t.ext = symZer ∨ t.ext = symSuc then
    printNat at_ rt fuel t
  else
    match printChr rt t ari with
    | some c => return c
    | none => do
      let sugar ← if t.ext = symNil ∨ t.ext = symCon then printCon at_ rt fuel t else .ok none
      match sugar with
      | some s => return s
      | none => printPlain at_ table rt t ari

/-- `print_term_at`; `other` prints the terms that are no data. -/
def printTermAt (other : Term → Text) (table : List Text) (rt : Rt) :
    Nat → Term → Except PrintStop Text
  | 0, _ => .error .fuel
  | fuel + 1, t =>
    if t.sub then .error .assertion
    else match t.tag with
      | .num => return printDecimal (u32 t.val)
      | .ctr ari => printCtr (printTermAt other table rt fuel) table rt fuel t ari
      | _ => return other t

end Hvm
