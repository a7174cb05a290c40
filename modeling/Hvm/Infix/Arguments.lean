import Hvm.Infix.Operand

/-! Argument lists behind an operand: `f(x, y)(z)`. -/

namespace Hvm.Infix

open Effect

/-- An argument, the blanks behind it, and those behind the comma after it. -/
structure Arg where
  txt : Text
  sense : Sense
  post : Text
  next : Text

/-- The arguments of one list, separated by commas. -/
def argsText : Arg → List Arg → Text
  | a, [] => a.txt ++ a.post
  | a, a' :: as => a.txt ++ (a.post ++ byte ',' :: (a.next ++ argsText a' as))

/-- The arguments are terms in the scope of `p0`, with blanks around them. -/
structure Arg.Fine (p0 : Parse) (d : Nat) (a : Arg) : Prop where
  reads : Reads Closes p0 (fun n => (calls n).term d) a.txt a.sense
  post : Blank a.post
  next : Blank a.next

variable {p0 p : Parse} {S : Sense} {f : Term} {d : Nat} {a : Arg} {as : List Arg} {b more rest cs : Text}

theorem closes_cons {c : UInt8} (h : c ∈ utf8 "),;\x7d]@") : Closes (c :: cs) := by
  intro c' hc'
  obtain rfl := Option.some.inj hc'
  exact h

theorem close_bytes : utf8 "),;\x7d]@" = [41, 44, 59, 125, 93, 64] := by
  simp [utf8_eq, String.utf8EncodeChar]

theorem close_cases {c : UInt8} (h : c ∈ utf8 "),;\x7d]@") :
    c = 41 ∨ c = 44 ∨ c = 59 ∨ c = 125 ∨ c = 93 ∨ c = 64 := by
  simpa [close_bytes] using h

theorem mem_closes : byte ')' ∈ utf8 "),;\x7d]@" ∧ byte ',' ∈ utf8 "),;\x7d]@" := by
  rw [close_bytes]
  decide

theorem skips_byte {c : UInt8} (hb : Blank b) (hsp : PState.isSpace c = false) (hc : c ≠ byte '/') :
    Skips (b ++ c :: cs) (c :: cs) := ⟨b, hb, rfl, stops_cons hsp hc⟩

/-- An argument list: the blanks in front of it and behind its parenthesis, and the arguments. -/
structure Call where
  pre : Text
  inner : Text
  args : List Arg

def Call.argText (c : Call) : Text :=
  match c.args with
  | [] => []
  | a :: as => argsText a as

def Call.text (c : Call) : Text :=
  c.pre ++ byte '(' :: (c.inner ++ (c.argText ++ [byte ')']))

structure Call.Fine (p0 : Parse) (d : Nat) (c : Call) : Prop where
  pre : Blank c.pre
  inner : Blank c.inner
  args : ∀ a ∈ c.args, a.Fine p0 d

theorem oprTable_bytes : oprTable = [([61, 61], 11), ([33, 61], 12), ([60, 61], 14), ([62, 61], 16),
    ([60, 60], 8), ([62, 62], 9), ([38, 38], 5), ([124, 124], 6), ([43], 0), ([45], 1), ([42], 2),
    ([47], 3), ([37], 4), ([94], 7), ([126], 10), ([60], 13), ([62], 15)] := by
  simp [oprTable, tok, byte, utf8_eq, String.utf8EncodeChar]

theorem short_bytes : utf8 "<>" = [60, 62] ∧ utf8 "===" = [61, 61, 61] ∧ utf8 ".&." = [46, 38, 46] ∧
    utf8 ".|." = [46, 124, 46] := by
  simp [utf8_eq, String.utf8EncodeChar]

theorem noShort_nil : NoShort [] := by
  obtain ⟨h1, h2, h3, h4⟩ := short_bytes
  constructor <;> simp [h1, h2, h3, h4]

theorem noShort_cons {c : UInt8} (h : c ∉ [60, 61, 46]) : NoShort (c :: cs) := by
  obtain ⟨h1, h2, h3, h4⟩ := short_bytes
  simp only [List.mem_cons, List.not_mem_nil, or_false, not_or] at h
  obtain ⟨e1, e2, e3⟩ := h
  have hne {x : UInt8} (hx : ¬ c = x) : (x == c) = false := by simpa using Ne.symm hx
  exact ⟨by rw [h1, List.isPrefixOf_cons_cons, hne e1, Bool.false_and],
    by rw [h2, List.isPrefixOf_cons_cons, hne e2, Bool.false_and],
    by rw [h3, List.isPrefixOf_cons_cons, hne e3, Bool.false_and],
    by rw [h4, List.isPrefixOf_cons_cons, hne e3, Bool.false_and]⟩

end Hvm.Infix
