import Hvm.Linear.Heap
import Hvm.Machine

/-! Book terms whose binders are used linearly, and the tokens of a book term that is
not instantiated yet: its free levels, looked up in its bind list. -/

namespace Hvm

open LinearHeap

/-- What a reference claims about a cell: a plain term, a term shared under a label, or
the pair of a packed ALO with the length of its bind list. -/
inductive Attr where
  | term
  | lab (n : Nat)
  | pack (len : Nat)
  deriving DecidableEq

abbrev Tok := LinearHeap.Tok Attr Cell
abbrev Toks := LinearHeap.Toks Attr Cell
abbrev Statics := LinearHeap.Frozen Cell

/-- A reference from a book term to one of its binders. -/
inductive Occ where
  | var (lvl : Nat)
  | cop (side : Bool) (lab lvl : Nat)
  deriving DecidableEq

def Occ.lvl : Occ → Nat
  | .var lvl | .cop _ _ lvl => lvl

def Tag.isVar : Tag → Bool
  | .var | .bjv => true
  | _ => false

/-- The side of a dup variable; true is DP1. -/
def Tag.copSide : Tag → Option Bool
  | .dp0 | .bj0 => some false
  | .dp1 | .bj1 => some true
  | _ => none

/-- The book tags `enterAlo` copies as they are. -/
def Tag.isLeaf : Tag → Bool
  | .nam | .num | .ref | .era | .any => true
  | _ => false

/-- The book tags that go through `wnfAloNod`. -/
def Tag.isNode : Tag → Bool
  | .app | .dry | .sup | .mat | .swi | .use | .uns | .inc | .ctr _ | .pri | .op2 | .eql
  | .and | .or | .dsu | .ddu => true
  | _ => false

/-- The fields of a word fit its C bit fields. -/
def Term.Plain (w : Term) : Prop := w.sub = false ∧ w.ext ≤ extMask

instance (w : Term) : Decidable w.Plain := inferInstanceAs (Decidable (_ ∧ _))

/-- `BookTm K len w O`: the static cells `K` hold, at the word `w`, a book term under
`len` binders whose free references are `O`. Every reference has a binder of its kind,
and every binder at most one reference a side. -/
inductive BookTm (K : Statics) : Nat → Term → Multiset Occ → Prop
  | var {len w} (hp : w.Plain) (ht : w.tag.isVar) (h1 : 1 ≤ u32 w.val) (hl : u32 w.val ≤ len) :
      BookTm K len w {.var (u32 w.val)}
  | cop {len w side} (hp : w.Plain) (ht : w.tag.copSide = some side) (h1 : 1 ≤ u32 w.val)
      (hl : u32 w.val ≤ len) : BookTm K len w {.cop side w.ext (u32 w.val)}
  | lam {len w b O} (hp : w.Plain) (ht : w.tag = .lam) (hb : K w.val = some (.tm b))
      (hbody : BookTm K (len + 1) b O)
      (haff : O.filter (·.lvl = len + 1) ≤ {.var (len + 1)}) :
      BookTm K len w (O.filter (·.lvl ≤ len))
  | dup {len w v b Ov Ob} (hp : w.Plain) (ht : w.tag = .dup) (hv : K w.val = some (.tm v))
      (hb : K (w.val + 1) = some (.tm b)) (hval : BookTm K len v Ov)
      (hbody : BookTm K (len + 1) b Ob)
      (haff : Ob.filter (·.lvl = len + 1) ≤
        {.cop false w.ext (len + 1)} + {.cop true w.ext (len + 1)}) :
      BookTm K len w (Ov + Ob.filter (·.lvl ≤ len))
  | node {len w} (hp : w.Plain) (ht : w.tag.isNode) (f : Nat → Term) (O : Nat → Multiset Occ)
      (hf : ∀ i, i < termArity w → K (w.val + i) = some (.tm (f i)))
      (hargs : ∀ i, i < termArity w → BookTm K len (f i) (O i)) :
      BookTm K len w (∑ i ∈ Finset.range (termArity w), O i)
  | leaf {len w} (hp : w.Plain) (ht : w.tag.isLeaf) : BookTm K len w 0

variable {K K' : Statics} {len : Nat} {w : Term} {O : Multiset Occ}

theorem BookTm.plain (h : BookTm K len w O) : w.Plain := by
  cases h <;> assumption

theorem BookTm.mono (hK : K.Le K') (h : BookTm K len w O) : BookTm K' len w O := by
  induction h with
  | var hp ht h1 hl => exact .var hp ht h1 hl
  | cop hp ht h1 hl => exact .cop hp ht h1 hl
  | lam hp ht hb _ haff ih => exact .lam hp ht (hK _ _ hb) ih haff
  | dup hp ht hv hb _ _ haff ihv ihb => exact .dup hp ht (hK _ _ hv) (hK _ _ hb) ihv ihb haff
  | node hp ht f O hf _ ih => exact .node hp ht f O (fun i hi => hK _ _ (hf i hi)) ih
  | leaf hp ht => exact .leaf hp ht

theorem BookTm.lvl_bounds (h : BookTm K len w O) : ∀ o ∈ O, 1 ≤ o.lvl ∧ o.lvl ≤ len := by
  induction h with
  | var _ _ h1 hl =>
    intro o ho
    rw [Multiset.mem_singleton] at ho
    subst ho
    exact ⟨h1, hl⟩
  | cop _ _ h1 hl =>
    intro o ho
    rw [Multiset.mem_singleton] at ho
    subst ho
    exact ⟨h1, hl⟩
  | lam _ _ _ _ _ ih =>
    intro o ho
    obtain ⟨hm, hle⟩ := Multiset.mem_filter.mp ho
    exact ⟨(ih o hm).1, hle⟩
  | dup _ _ _ _ _ _ _ ihv ihb =>
    intro o ho
    rcases Multiset.mem_add.mp ho with hm | hm
    · exact ihv o hm
    · obtain ⟨hm, hle⟩ := Multiset.mem_filter.mp hm
      exact ⟨(ihb o hm).1, hle⟩
  | node _ _ f O _ _ ih =>
    intro o ho
    obtain ⟨i, hi, hm⟩ := Multiset.mem_sum.mp ho
    exact ih i (Finset.mem_range.mp hi) o hm
  | leaf => simp

/-- A closed book term has no free reference. -/
theorem BookTm.closed (h : BookTm K 0 w O) : O = 0 := by
  refine Multiset.eq_zero_of_forall_notMem fun o ho => ?_
  have hb := h.lvl_bounds o ho
  omega

/-- A node with two fields. -/
theorem BookTm.pair {a b : Term} {Oa Ob : Multiset Occ} (hp : w.Plain) (ht : w.tag.isNode)
    (hn : termArity w = 2) (ha : K w.val = some (.tm a)) (hb : K (w.val + 1) = some (.tm b))
    (hta : BookTm K len a Oa) (htb : BookTm K len b Ob) : BookTm K len w (Oa + Ob) := by
  have hh : BookTm K len w (∑ i ∈ Finset.range (termArity w), if i = 0 then Oa else Ob) := by
    refine BookTm.node hp ht (fun i => if i = 0 then a else b) _ (fun i hi => ?_) (fun i hi => ?_)
    · obtain rfl | rfl : i = 0 ∨ i = 1 := by omega
      · exact ha
      · exact hb
    · obtain rfl | rfl : i = 0 ∨ i = 1 := by omega
      · exact hta
      · exact htb
  simpa [hn, Finset.sum_range_succ] using hh

/-! Bind lists -/

/-- `BindList K ls bs`: the chain of links that starts at `ls` runs through the binder
cells `bs`, the innermost one first. The link of the cell `b` lies at `b + 1`. -/
def BindList (K : Statics) : Nat → List Nat → Prop
  | _, [] => True
  | ls, b :: bs => ls = b ∧ b ≠ 0 ∧
    ∃ ls', K (b + 1) = some (.tm (termNewNum ls')) ∧ BindList K ls' bs

theorem BindList.mono (hK : K.Le K') {bs : List Nat} {ls : Nat} (h : BindList K ls bs) :
    BindList K' ls bs := by
  induction bs generalizing ls with
  | nil => trivial
  | cons b bs ih =>
    obtain ⟨he, hb, ls', hk, hr⟩ := h
    exact ⟨he, hb, ls', hK _ _ hk, ih hr⟩

/-- The binder cell of a level: levels are counted from the outermost binder. -/
def bindAt (bs : List Nat) (lvl : Nat) : Nat := bs.getD (bs.length - lvl) 0

theorem bindAt_cons_outer {bs : List Nat} {b lvl : Nat} (hl : lvl ≤ bs.length) :
    bindAt (b :: bs) lvl = bindAt bs lvl := by
  have he : (b :: bs).length - lvl = bs.length - lvl + 1 := by
    rw [List.length_cons]
    omega
  rw [bindAt, bindAt, he, List.getD_cons_succ]

@[simp] theorem bindAt_cons_self (b : Nat) (bs : List Nat) : bindAt (b :: bs) (bs.length + 1) = b := by
  simp [bindAt]

theorem aloWalk_eq {rt : Rt} (hK : ∀ l c, K l = some c → rt.heap l = c) {bs : List Nat}
    {ls idx : Nat} (hb : BindList K ls bs) (hi : idx < bs.length) :
    aloWalk rt ls idx = bs.getD idx 0 ∧ bs.getD idx 0 ≠ 0 := by
  induction bs generalizing ls idx with
  | nil => simp at hi
  | cons b bs ih =>
    obtain ⟨rfl, hne, ls', hk, hr⟩ := hb
    cases idx with
    | zero => exact ⟨rfl, hne⟩
    | succ idx =>
      have hread : (heapRead rt (ls + 1)).val = ls' := by
        simp [heapRead, hK _ _ hk, Cell.toTerm, termNewNum, termNew]
      rw [aloWalk, if_neg hne, hread, List.getD_cons_succ]
      exact ih hr (by simpa using hi)

/-! Tokens of the free references -/

def labelOf (lab : Nat) : Nat := lab % (extMask + 1)

/-- The token a reference stands for under the bind list `bs`. -/
def occTok (bs : List Nat) : Occ → Tok
  | .var lvl => .use (bindAt bs lvl) .term
  | .cop side lab lvl => .share (bindAt bs lvl) (.lab (labelOf lab)) side

def occToks (bs : List Nat) (O : Multiset Occ) : Toks := O.map (occTok bs)

theorem occToks_not_pins {bs : List Nat} {t : Tok} (h : t ∈ occToks bs O) : ¬ t.Pins := by
  obtain ⟨o, -, rfl⟩ := Multiset.mem_map.mp h
  cases o <;> exact id

theorem occToks_cons_outer {bs : List Nat} {b : Nat} (h : ∀ o ∈ O, o.lvl ≤ bs.length) :
    occToks (b :: bs) O = occToks bs O := by
  refine Multiset.map_congr rfl fun o ho => ?_
  have hl := h o ho
  cases o with
  | var lvl => rw [occTok, occTok, bindAt_cons_outer (show lvl ≤ bs.length from hl)]
  | cop side lab lvl => rw [occTok, occTok, bindAt_cons_outer (show lvl ≤ bs.length from hl)]

/-- Under one more binder `b` a body holds the tokens of its outer references, and those
of `b` among `P`. -/
theorem occToks_cons_le (bs : List Nat) (b : Nat) {P : Multiset Occ}
    (h : ∀ o ∈ O, o.lvl ≤ bs.length + 1)
    (haff : O.filter (·.lvl = bs.length + 1) ≤ P) :
    occToks (b :: bs) O ≤ occToks (b :: bs) P + occToks bs (O.filter (·.lvl ≤ bs.length)) := by
  have hsplit : O = O.filter (·.lvl = bs.length + 1) + O.filter (·.lvl ≤ bs.length) := by
    have hh := Multiset.filter_add_not (fun o : Occ => o.lvl = bs.length + 1) O
    have hc : O.filter (fun o => ¬ o.lvl = bs.length + 1) = O.filter (·.lvl ≤ bs.length) := by
      refine Multiset.filter_congr fun o ho => ?_
      have := h o ho
      omega
    rw [hc] at hh
    exact hh.symm
  have hout : occToks (b :: bs) (O.filter (·.lvl ≤ bs.length)) =
      occToks bs (O.filter (·.lvl ≤ bs.length)) := by
    refine occToks_cons_outer fun o ho => ?_
    exact (Multiset.mem_filter.mp ho).2
  conv_lhs => rw [hsplit]
  rw [occToks, Multiset.map_add, ← hout]
  exact add_le_add (Multiset.map_le_map haff) le_rfl

end Hvm
