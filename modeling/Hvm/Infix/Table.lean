import Hvm.Infix.Atom
import Hvm.Infix.Climb
import Hvm.Numeric.Evaluate

/-! The precedence table of the infix operators (`docs/hvm/syntax.md`), and what
`parse_term_app_prec` makes of a sequence of operands. -/

namespace Hvm.Infix

open Effect Precedence Numeric

/-! ### Operators -/

/-- The infix operators as they are written. -/
def oprText : Opr → Text
  | .or => utf8 "||"
  | .and => utf8 "&&"
  | .eq => utf8 "=="
  | .ne => utf8 "!="
  | .lt => tok '<'
  | .le => utf8 "<="
  | .gt => tok '>'
  | .ge => utf8 ">="
  | .lsh => utf8 "<<"
  | .rsh => utf8 ">>"
  | .add => tok '+'
  | .sub => tok '-'
  | .mul => tok '*'
  | .div => tok '/'
  | .mod => tok '%'
  | .xor => tok '^'
  | .not => tok '~'

theorem longer_bytes : utf8 "=<>&|" = [61, 60, 62, 38, 124] := by
  simp [utf8_eq, String.utf8EncodeChar]

variable {o : Opr} {after rest more : Text} {p0 p : Parse} {d : Nat}

/-- An operand: an atom and the argument lists behind it. -/
structure Operand where
  txt : Text
  sense : Sense
  lists : List Call

def listsText (cs : List Call) : Text := cs.flatMap Call.text

def Operand.text (a : Operand) : Text := a.txt ++ listsText a.lists

structure Operand.Fine (p0 : Parse) (d : Nat) (a : Operand) : Prop where
  atom : Atom p0 d a.txt a.sense
  lists : ∀ c ∈ a.lists, c.Fine p0 d

/-- An operator, the blanks around it, and the operand behind it. -/
structure Infixed where
  opr : Opr
  pre : Text
  post : Text
  operand : Operand

def Infixed.text (i : Infixed) : Text := i.pre ++ (oprText i.opr ++ (i.post ++ i.operand.text))

def Infixed.item (i : Infixed) : Opr × Operand := (i.opr, i.operand)

/-- The operator is in the table, and has blanks around it. -/
structure Infixed.Spaced (p0 : Parse) (d : Nat) (i : Infixed) : Prop where
  opr : i.opr ≠ .not
  pre : Blank i.pre
  post : Blank i.post
  operand : i.operand.Fine p0 d

/-- And no comment starts right behind `/`. -/
structure Infixed.Fine (p0 : Parse) (d : Nat) (i : Infixed) : Prop extends i.Spaced p0 d where
  slash : i.opr = .div → byte '/' ∉ i.post.head?

variable {t r : Text} {cs : List Call} {is : List Infixed} {S : Sense} {f : Term} {k : Nat}

theorem Atom.head {txt : Text} (h : Atom p0 d txt S) :
    ∃ c cs, txt = c :: cs ∧ (nickIsChar c = true ∨ c = byte '@' ∨ c = byte '(') := by
  cases h with
  | num hne hds =>
    obtain ⟨c, cs, rfl⟩ := List.exists_cons_of_ne_nil hne
    exact ⟨c, cs, rfl, .inl (char_of_digit (hds c List.mem_cons_self))⟩
  | ref => exact ⟨_, _, rfl, .inr (.inl rfl)⟩
  | var hn =>
    obtain ⟨c, cs, rfl, hinit, -⟩ := hn
    exact ⟨c, _, rfl, .inl (char_of_init hinit)⟩
  | par => exact ⟨_, _, rfl, .inr (.inr rfl)⟩

theorem Operand.Fine.head {a : Operand} (h : a.Fine p0 d) :
    ∃ c cs, a.text = c :: cs ∧ c ∉ utf8 "=<>&|" ∧ c ≠ byte '/' ∧ PState.isSpace c = false := by
  obtain ⟨c, cs, htxt, hc⟩ := h.atom.head
  refine ⟨c, cs ++ listsText a.lists, by rw [Operand.text, htxt]; rfl, ?_⟩
  rw [longer_bytes]
  rcases hc with hchar | rfl | rfl
  · exact ⟨notMem_of_char hchar (by decide), ne_of_char hchar (by decide), no_space_of_char hchar⟩
  · decide
  · decide

end Hvm.Infix
