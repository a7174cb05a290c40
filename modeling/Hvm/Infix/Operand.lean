import Hvm.Infix.Blank
import Hvm.Parse.Grammar

/-! Operands of infix expressions: an atom and the argument lists after it. A text is read by the
parser as something in the heap that later parsing leaves alone. -/

namespace Hvm.Infix

open Effect

/-! ### What a term stands for -/

/-- The binders are the same, and heap and name table only got longer. -/
structure Kept (p q : Parse) : Prop extends Retains p q where
  table : p.table <+: q.table

theorem Kept.refl (p : Parse) : Kept p p := ⟨Retains.refl p, List.prefix_rfl⟩

theorem Kept.trans {p q r : Parse} (h : Kept p q) (h' : Kept q r) : Kept p r :=
  ⟨h.toRetains.trans h'.toRetains, h.table.trans h'.table⟩

theorem Kept.moved (p : Parse) (s : PState) : Kept p { p with s := s } :=
  ⟨⟨⟨rfl, rfl, rfl, Nat.le_refl _⟩, Nat.le_refl _, fun _ _ => rfl⟩, List.prefix_rfl⟩

/-- What a word of the heap stands for, as far as later parsing does not touch it. -/
structure Sense where
  Is : Parse → Term → Prop
  kept : ∀ {p q : Parse} {t : Term}, Kept p q → Is p t → Is q t

variable {p0 p q : Parse} {S A : Sense} {f x t : Term} {tag : Tag} {ext d k n : Nat}
  {b txt more rest : Text} {Next : Text → Prop} {m : Nat → Parser Term}

/-- A node of two fields. -/
def Sense.pair (tag : Tag) (ext : Nat) (S A : Sense) : Sense where
  Is := fun p t => ∃ v f x, t = termNew false tag ext v ∧ v + 1 < p.rt.next ∧ heapRead p.rt v = f ∧
    heapRead p.rt (v + 1) = x ∧ S.Is p f ∧ A.Is p x
  kept := by
    rintro p q t hk ⟨v, f, x, rfl, hv, hf, hx, hS, hA⟩
    have hnext := hk.next
    exact ⟨v, f, x, rfl, by omega, (hk.keep v (by omega)).trans hf,
      (hk.keep (v + 1) (by omega)).trans hx, S.kept hk hS, A.kept hk hA⟩

/-- A text that starts with neither a blank nor a closing parenthesis. -/
def Solid (txt : Text) : Prop :=
  ∃ c cs, txt = c :: cs ∧ PState.isSpace c = false ∧ c ≠ byte '/' ∧ c ≠ byte ')'

theorem Solid.stops (h : Solid txt) (more : Text) : Stops (txt ++ more) := by
  obtain ⟨c, cs, rfl, hsp, hc, -⟩ := h
  exact stops_cons hsp hc

/-- In the scope of `p0` the text `txt` is read as what `S` says, where `Next` may follow. -/
structure Reads (Next : Text → Prop) (p0 : Parse) (m : Nat → Parser Term) (txt : Text) (S : Sense) :
    Prop where
  solid : Solid txt
  run : ∀ p b more rest, Kept p0 p → Blank b → p.s.rest = b ++ (txt ++ more) → Skips more rest →
    Next rest → Ends m p fun t q => Kept p q ∧ S.Is q t ∧ Skips q.s.rest rest

/-- What may stand behind an operand: an operator, an argument list, or what may stand behind a
whole expression. -/
def Follows (rest : Text) : Prop := ∀ c ∈ rest.head?, c ∈ utf8 "=!<>&|+-*/%^(),;\x7d]@"

/-- What may stand behind an expression. -/
def Closes (rest : Text) : Prop := ∀ c ∈ rest.head?, c ∈ utf8 "),;\x7d]@"

/-! ### The cursor -/

/-- The state with its cursor behind blanks. -/
def skipped (p : Parse) : Parse := { p with s := p.s.skip }

theorem kept_skipped (p : Parse) : Kept p (skipped p) := Kept.moved p _

theorem skip_bind {α : Type} (f : Unit → Parser α) (p : Parse) :
    (parseSkip >>= f) p = f () (skipped p) := run_bind rfl

theorem peek_bind {α : Type} (f : UInt8 → Parser α) (p : Parse) :
    (parsePeek >>= f) p = f p.s.peek p := run_bind rfl

theorem match_bind {α : Type} (str : Text) (f : Bool → Parser α) (p : Parse) :
    (parseMatch str >>= f) p = f (p.s.startsWith str)
      (if p.s.startsWith str then { p with s := p.s.advanceBy str.length } else p) :=
  run_bind (parseMatch_run str p)

theorem match_no {α : Type} {str : Text} (f : Bool → Parser α) {p : Parse}
    (h : p.s.startsWith str = false) : (parseMatch str >>= f) p = f false p := by
  rw [match_bind, h]
  rfl

theorem match_yes {α : Type} {str : Text} (f : Bool → Parser α) {p : Parse}
    (h : p.s.startsWith str = true) :
    (parseMatch str >>= f) p = f true { p with s := p.s.advanceBy str.length } := by
  rw [match_bind, h]
  rfl

theorem skipped_stops (h : Stops p.s.rest) : skipped p = p := by
  rw [skipped, skip_stops h]

theorem Skips.skipped (h : Skips p.s.rest rest) : (skipped p).s.rest = rest := h.rest_skip

/-- No operator of its own case is next. -/
structure NoShort (rest : Text) : Prop where
  con : (utf8 "<>").isPrefixOf rest = false
  eql : (utf8 "===").isPrefixOf rest = false
  and : (utf8 ".&.").isPrefixOf rest = false
  or : (utf8 ".|.").isPrefixOf rest = false

theorem app_run (h : Skips p.s.rest rest) (hno : NoShort rest) (f : Term) (d k n : Nat) :
    (calls (n + 1)).app f d k p = parseTermAppPrec.opr (calls n) n f d k
      (oprTable.find? fun op => op.1.isPrefixOf rest) (skipped p) := by
  have hrest := h.skipped
  have hskip : skipped (skipped p) = skipped p :=
    skipped_stops (by rw [hrest]; exact h.stops)
  have hcon : (skipped p).s.startsWith (utf8 "<>") = false := by rw [PState.startsWith, hrest, hno.con]
  have heql : (skipped p).s.startsWith (utf8 "===") = false := by rw [PState.startsWith, hrest, hno.eql]
  have hand : (skipped p).s.startsWith (utf8 ".&.") = false := by rw [PState.startsWith, hrest, hno.and]
  have hor : (skipped p).s.startsWith (utf8 ".|.") = false := by rw [PState.startsWith, hrest, hno.or]
  change parseTermAppPrec (calls n) n f d k p = _
  rw [parseTermAppPrec]
  simp only []
  rw [skip_bind, match_no _ hcon, if_neg Bool.false_ne_true, match_no _ heql,
    if_neg Bool.false_ne_true, match_no _ hand, if_neg Bool.false_ne_true, match_no _ hor,
    if_neg Bool.false_ne_true]
  have hpeek : parseTermOprPeek (skipped p) =
      .ok (oprTable.find? fun op => op.1.isPrefixOf rest, skipped p) := by
    rw [parseTermOprPeek, skip_bind, hskip, ← hrest]
    rfl
  rw [run_bind hpeek]

/-- No operator is taken, and no argument list follows. -/
theorem app_stop (h : Skips p.s.rest rest) (hno : NoShort rest)
    (hop : ∀ op ∈ oprTable.find? fun op => op.1.isPrefixOf rest, parseTermOprPrec op.2 < k)
    (hpar : byte '(' ∉ rest.head?) (f : Term) (d n : Nat) :
    (calls (n + 1)).app f d k p = .ok (f, skipped p) := by
  have hpeek : (skipped p).s.peek ≠ byte '(' := by
    have hrest := h.skipped
    intro he
    cases rest with
    | nil =>
      rw [PState.peek, PState.peekAt, hrest] at he
      revert he
      decide
    | cons c cs =>
      rw [peek_cons hrest] at he
      exact hpar (congrArg some he)
  have hcall : parseTermAppPrec.call (calls n) n f d k (skipped p) = .ok (f, skipped p) := by
    rw [parseTermAppPrec.call, peek_bind, if_pos hpeek]
    rfl
  rw [app_run h hno]
  cases hf : oprTable.find? fun op => op.1.isPrefixOf rest with
  | none => exact hcall
  | some op =>
    have hlt := hop op hf
    obtain ⟨str, op⟩ := op
    rw [parseTermAppPrec.opr, if_neg (Nat.not_le_of_lt hlt), hcall]

/-- A turn of a loop: it goes on with one turn less, or leaves. -/
theorem Ends.loop {σ β : Type} {turn : Nat → σ → Parser (σ ⊕ β)} {x : σ} {j : Nat}
    {T : σ ⊕ β → Parse → Prop} {Q : β → Parse → Prop} (h : Ends (fun n => turn n x) p T)
    (hgo : ∀ y q, T (.inl y) q → Ends (fun n => loopM (turn n) (n - (j + 1)) y) q Q)
    (hout : ∀ y q, T (.inr y) q → Q y q) : Ends (fun n => loopM (turn n) (n - j) x) p Q := by
  have hall : Ends (fun n => turn n x >>= Sum.elim (loopM (turn n) (n - (j + 1))) pure) p Q := by
    refine h.bind fun r q hr => ?_
    cases r with
    | inl y => exact hgo y q hr
    | inr y => exact .ok (fun _ => rfl) (hout y q hr)
  refine hall.congr_ge (j + 1) fun n hn => ?_
  have hpred : n - j = n - (j + 1) + 1 := by omega
  rw [hpred]
  have hturn : loopM (turn n) (n - (j + 1) + 1) x =
      turn n x >>= Sum.elim (loopM (turn n) (n - (j + 1))) pure := by
    refine bind_congr fun r => ?_
    cases r <;> rfl
  rw [hturn]

/-! ### Argument lists -/

/-- The state behind the next character and the blanks after it. -/
def opened (p : Parse) : Parse := { p with s := p.s.skip.advance.skip }

theorem kept_opened (p : Parse) : Kept p (opened p) := Kept.moved p _

theorem rest_opened {c : UInt8} {cs : Text} (h : Skips p.s.rest (c :: cs)) (hcs : Skips cs rest) :
    (opened p).s.rest = rest := by
  have hadv : p.s.skip.advance.rest = cs := by
    rw [rest_advance, h.rest_skip]
    rfl
  exact Skips.rest_skip (hadv.symm ▸ hcs)

end Hvm.Infix
