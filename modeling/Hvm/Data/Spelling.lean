import Hvm.Data.Datum
import Hvm.Parse.Lists
import Hvm.Print.Term

/-! The texts of data: what the printer writes for a term, and the term such a text is read as. -/

namespace Hvm.Data

/-- A text, by the sugars it is made of. -/
inductive Expr where
  | num (n : Nat)
  /-- `3n`. -/
  | nat (n : Nat)
  /-- `3n+x`. -/
  | suc (n : Nat) (x : Expr)
  | list (es : List Expr)
  | plain (nam : Nat) (es : List Expr)
  /-- `h<>t`. -/
  | cons (h t : Expr)

@[induction_eliminator]
theorem Expr.induct {motive : Expr → Prop} (num : ∀ n, motive (.num n)) (nat : ∀ n, motive (.nat n))
    (suc : ∀ n x, motive x → motive (.suc n x))
    (list : ∀ es, (∀ e ∈ es, motive e) → motive (.list es))
    (plain : ∀ nam es, (∀ e ∈ es, motive e) → motive (.plain nam es))
    (cons : ∀ h t, motive h → motive t → motive (.cons h t)) (e : Expr) : motive e :=
  Expr.rec (motive_1 := motive) (motive_2 := fun es => ∀ e ∈ es, motive e) num nat suc list plain cons
    (fun _ he => absurd he List.not_mem_nil)
    (fun _ _ hx hxs _ he => (List.mem_cons.mp he).elim (fun h => h ▸ hx) (hxs _)) e

mutual
def Expr.text (table : List Text) : Expr → Text
  | .num n => printDecimal n
  | .nat n => printDecimal n ++ tok 'n'
  | .suc n x => printDecimal n ++ tok 'n' ++ tok '+' ++ x.text table
  | .list es => tok '[' ++ textAll table true es ++ tok ']'
  | .plain nam es =>
    tok '#' ++ printSymName table nam ++ tok '\x7b' ++ textAll table true es ++ tok '\x7d'
  | .cons h t => h.text table ++ tok '<' ++ tok '>' ++ t.text table

/-- The texts of a list, separated by commas. -/
def textAll (table : List Text) : Bool → List Expr → Text
  | _, [] => []
  | first, e :: es => (if first then [] else tok ',') ++ e.text table ++ textAll table false es
end

mutual
/-- The term a text is read as. -/
def Expr.value : Expr → Datum
  | .num n => .num n
  | .nat n => peano n zero
  | .suc n x => peano n x.value
  | .list es => chain (valueAll es)
  | .plain nam es => .ctr nam (valueAll es)
  | .cons h t => .ctr symCon [h.value, t.value]

def valueAll : List Expr → List Datum
  | [] => []
  | e :: es => e.value :: valueAll es
end

theorem valueAll_eq (es : List Expr) : valueAll es = es.map Expr.value := by
  induction es with
  | nil => rfl
  | cons e es ih => rw [valueAll, ih, List.map_cons]

theorem length_valueAll (es : List Expr) : (valueAll es).length = es.length := by
  rw [valueAll_eq, List.length_map]

theorem getElem_valueAll {es : List Expr} {i : Nat} (h : i < (valueAll es).length) (h' : i < es.length) :
    (valueAll es)[i] = es[i].value := by
  simp only [valueAll_eq, List.getElem_map]

/-- A text that ends by itself: an infix `<>` behind it belongs to the whole of it. -/
def Expr.Closed : Expr → Prop
  | .suc _ _ => False
  | .cons _ _ => False
  | _ => True

/-- What `e<>t` is read as: `<>` and `3n+` take everything behind them. -/
def graft : Expr → Expr → Expr
  | .suc n x, t => .suc n (graft x t)
  | .cons h x, t => .cons h (graft x t)
  | e, t => .cons e t

theorem graft_closed {e : Expr} (h : e.Closed) (t : Expr) : graft e t = .cons e t := by
  cases e with
  | suc => cases h
  | cons => cases h
  | _ => rfl

theorem graft_text (table : List Text) (e t : Expr) :
    (graft e t).text table = e.text table ++ tok '<' ++ tok '>' ++ t.text table := by
  induction e with
  | suc n x ih => simp only [graft, Expr.text, ih, List.append_assoc]
  | cons h x _ ih => simp only [graft, Expr.text, ih, List.append_assoc]
  | _ =>
    rw [graft_closed]
    · rfl
    · exact trivial

theorem cells_pair (nam : Nat) (d d' : Datum) :
    (Datum.ctr nam [d, d']).cells = d.cells + d'.cells + 2 := by
  rw [Datum.cells, cellsAll, cellsAll, cellsAll]
  omega

theorem graft_cells (e t : Expr) :
    (graft e t).value.cells = e.value.cells + t.value.cells + 2 := by
  induction e with
  | suc n x ih =>
    rw [graft, Expr.value, cells_peano, ih, Expr.value, cells_peano]
    omega
  | cons h x _ ih =>
    rw [graft, Expr.value, cells_pair, ih, Expr.value, cells_pair]
    omega
  | _ =>
    rw [graft_closed]
    · exact cells_pair symCon _ _
    · exact trivial

/-- The names, numbers and arities of a text are those of words, and no `<>` or `3n+` stands left
of a `<>`. -/
inductive Good (table : List Text) : Expr → Prop where
  | num {n : Nat} : n < 2 ^ 32 → Good table (.num n)
  | nat {n : Nat} : n < 2 ^ 32 → Good table (.nat n)
  | suc {n : Nat} {x : Expr} : n < 2 ^ 32 → Good table x → Good table (.suc n x)
  | list {es : List Expr} : (∀ e ∈ es, Good table e) → Good table (.list es)
  | plain {nam : Nat} {es : List Expr} : nam < table.length → nam ≤ extMask → es.length ≤ 16 →
    (∀ e ∈ es, Good table e) → Good table (.plain nam es)
  | cons {h t : Expr} : h.Closed → Good table h → Good table t → Good table (.cons h t)

/-- Every list fits the array its elements are collected in. -/
inductive Short : Expr → Prop where
  | num (n : Nat) : Short (.num n)
  | nat (n : Nat) : Short (.nat n)
  | suc (n : Nat) {x : Expr} : Short x → Short (.suc n x)
  | list {es : List Expr} : es.length ≤ literalCap → (∀ e ∈ es, Short e) → Short (.list es)
  | plain (nam : Nat) {es : List Expr} : (∀ e ∈ es, Short e) → Short (.plain nam es)
  | cons {h t : Expr} : Short h → Short t → Short (.cons h t)

theorem Good.graft {table : List Text} {e t : Expr} (he : Good table e) (ht : Good table t) :
    Good table (graft e t) := by
  induction he with
  | suc hn _ ih => exact .suc hn ih
  | cons hc hh _ _ ih => exact .cons hc hh ih
  | num hn => exact .cons trivial (.num hn) ht
  | nat hn => exact .cons trivial (.nat hn) ht
  | list hes => exact .cons trivial (.list hes) ht
  | plain hnam hext hlen hes => exact .cons trivial (.plain hnam hext hlen hes) ht

/-! ### What the printer writes -/

/-- The printer's text of a term. -/
inductive Spells : Datum → Expr → Prop where
  | num (n : Nat) : Spells (.num n) (.num n)
  | nat (k : Nat) : Spells (peano k zero) (.nat (u32 k))
  | suc {k : Nat} {d : Datum} {e : Expr} : 0 < k → d.Based → d ≠ zero → Spells d e →
    Spells (peano k d) (.suc (u32 k) e)
  | list {ds : List Datum} {es : List Expr} : ds.length = es.length →
    (∀ i (h : i < ds.length) (h' : i < es.length), Spells ds[i] es[i]) → Spells (chain ds) (.list es)
  | con {h t : Datum} {ds : List Datum} {e f : Expr} : ¬ (Datum.ctr symCon (h :: t :: ds)).Proper →
    Spells h e → Spells t f → Spells (.ctr symCon (h :: t :: ds)) (graft e f)
  | plain {nam : Nat} {ds : List Datum} {es : List Expr} : nam ≠ symZer → nam ≠ symSuc → nam ≠ symCon →
    (nam = symNil → ds ≠ []) → ds.length = es.length →
    (∀ i (h : i < ds.length) (h' : i < es.length), Spells ds[i] es[i]) →
    Spells (.ctr nam ds) (.plain nam es)

theorem u32_le (n : Nat) : u32 n ≤ n := Nat.mod_le _ _

theorem valueAll_cells_le {ds : List Datum} {es : List Expr} (hlen : ds.length = es.length)
    (h : ∀ i (hi : i < ds.length) (hi' : i < es.length), es[i].value.cells ≤ ds[i].cells) :
    cellsAll (valueAll es) ≤ cellsAll ds := by
  refine cellsAll_le ((length_valueAll es).trans hlen.symm) fun i hi hi' => ?_
  have hes : i < es.length := (length_valueAll es) ▸ hi
  rw [getElem_valueAll hi hes]
  exact h i hi' hes

/-- The term that is read back is not larger. -/
theorem Spells.cells_le {d : Datum} {e : Expr} (h : Spells d e) : e.value.cells ≤ d.cells := by
  induction h with
  | num n => exact Nat.le_refl _
  | nat k =>
    have hk := u32_le k
    rw [Expr.value, cells_peano, cells_peano]
    omega
  | @suc k d e _ _ _ _ ih =>
    have hk := u32_le k
    rw [Expr.value, cells_peano, cells_peano]
    omega
  | list hlen _ ih =>
    have hle := valueAll_cells_le hlen ih
    rw [Expr.value, cells_chain, cells_chain, length_valueAll, hlen]
    omega
  | con _ _ _ ihh iht =>
    rw [graft_cells, Datum.cells, cellsAll, cellsAll]
    omega
  | plain _ _ _ _ hlen _ ih =>
    rw [Expr.value, Datum.cells, Datum.cells]
    exact valueAll_cells_le hlen ih

end Hvm.Data
