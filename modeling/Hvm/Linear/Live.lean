import Hvm.Linear.Machine

/-! The live words of a machine state, and what it means that they own the heap linearly. -/

namespace Hvm

/-- `BookSub rt w path u`: in the book term `w`, `path` leads to the word `u`. -/
inductive BookSub (rt : Rt) : Term → List Nat → Term → Prop
  | here (w) : BookSub rt w [] w
  | lam {w u path} (ht : w.tag = .lam) (h : BookSub rt (heapRead rt w.val) path u) :
      BookSub rt w (0 :: path) u
  | dup {w u path i} (ht : w.tag = .dup) (hi : i < 2)
      (h : BookSub rt (heapRead rt (w.val + i)) path u) : BookSub rt w (i :: path) u
  | node {w u path i} (ht : w.tag.isNode) (hi : i < termArity w)
      (h : BookSub rt (heapRead rt (w.val + i)) path u) : BookSub rt w (i :: path) u

def Tag.isRef (tag : Tag) : Bool := tag.isVar || tag.copSide.isSome

/-- The reference to a binder that a word of a book term is. -/
def occOf (u : Term) : Occ :=
  if u.tag.isVar then .var (u32 u.val) else .cop (u.tag.copSide.getD false) u.ext (u32 u.val)

open LinearHeap

variable {K : Statics} {rt : Rt} {w u u' : Term} {path path' : List Nat} {len : Nat} {O : Multiset Occ}

/-! The free references of a book term, by their paths -/

theorem Tag.flat_of_isRef {tag : Tag} (h : tag.isRef = true) :
    tag ≠ .lam ∧ tag ≠ .dup ∧ tag.isNode = false := by
  cases tag <;> first | (cases h; done) | decide

theorem Tag.flat_of_isLeaf {tag : Tag} (h : tag.isLeaf = true) :
    tag ≠ .lam ∧ tag ≠ .dup ∧ tag.isNode = false := by
  cases tag <;> first | (cases h; done) | decide

theorem BookSub.of_lam (h : BookSub rt w path u) (ht : w.tag = .lam) (hu : u.tag.isRef = true) :
    ∃ rest, path = 0 :: rest ∧ BookSub rt (heapRead rt w.val) rest u := by
  cases h with
  | here => exact absurd ht (Tag.flat_of_isRef hu).1
  | lam _ h => exact ⟨_, rfl, h⟩
  | dup hd => rw [ht] at hd; cases hd
  | node hn => rw [ht] at hn; cases hn

theorem BookSub.of_dup (h : BookSub rt w path u) (ht : w.tag = .dup) (hu : u.tag.isRef = true) :
    ∃ i rest, path = i :: rest ∧ i < 2 ∧ BookSub rt (heapRead rt (w.val + i)) rest u := by
  cases h with
  | here => exact absurd ht (Tag.flat_of_isRef hu).2.1
  | lam hl => rw [ht] at hl; cases hl
  | dup _ hi h => exact ⟨_, _, rfl, hi, h⟩
  | node hn => rw [ht] at hn; cases hn

theorem BookSub.of_node (h : BookSub rt w path u) (ht : w.tag.isNode = true)
    (hu : u.tag.isRef = true) : ∃ i rest, path = i :: rest ∧ i < termArity w ∧
      BookSub rt (heapRead rt (w.val + i)) rest u := by
  cases h with
  | here => rw [(Tag.flat_of_isRef hu).2.2] at ht; cases ht
  | lam hl => rw [hl] at ht; cases ht
  | dup hd => rw [hd] at ht; cases ht
  | node _ hi h => exact ⟨_, _, rfl, hi, h⟩

/-- Words without fields are their only subterm. -/
theorem BookSub.of_flat (h : BookSub rt w path u)
    (ht : w.tag ≠ .lam ∧ w.tag ≠ .dup ∧ w.tag.isNode = false) : path = [] ∧ u = w := by
  cases h with
  | here => exact ⟨rfl, rfl⟩
  | lam hl => exact (ht.1 hl).elim
  | dup hd => exact (ht.2.1 hd).elim
  | node hn => rw [ht.2.2] at hn; cases hn

theorem Tag.isRef_of_isVar {tag : Tag} (h : tag.isVar = true) : tag.isRef = true := by
  simp [Tag.isRef, h]

theorem Tag.isRef_of_copSide {tag : Tag} {side : Bool} (h : tag.copSide = some side) :
    tag.isRef = true := by
  simp [Tag.isRef, h]

theorem Tag.isVar_of_copSide {tag : Tag} {side : Bool} (h : tag.copSide = some side) :
    tag.isVar = false := by
  cases tag <;> first | (cases h; done) | rfl

theorem occOf_var (h : w.tag.isVar = true) : occOf w = .var (u32 w.val) := by
  rw [occOf, if_pos h]

theorem occOf_cop {side : Bool} (h : w.tag.copSide = some side) :
    occOf w = .cop side w.ext (u32 w.val) := by
  simp [occOf, Tag.isVar_of_copSide h, h]

@[simp] theorem occOf_lvl (u : Term) : (occOf u).lvl = u32 u.val := by
  unfold occOf
  split <;> rfl

theorem heapRead_static (hK : ∀ l c, K l = some c → rt.heap l = c) {l : Nat} {b : Term}
    (hb : K l = some (.tm b)) : heapRead rt l = b := by
  rw [heapRead, hK _ _ hb]
  rfl

/-- A path to a free reference accounts for one of the references `O`. -/
theorem BookTm.path_mem (hK : ∀ l c, K l = some c → rt.heap l = c) (h : BookTm K len w O)
    (hp : BookSub rt w path u) (hu : u.tag.isRef = true) (hl : u32 u.val ≤ len) : occOf u ∈ O := by
  induction h generalizing path with
  | var _ ht =>
    obtain ⟨-, rfl⟩ := hp.of_flat (Tag.flat_of_isRef (Tag.isRef_of_isVar ht))
    rw [occOf_var ht]
    exact Multiset.mem_singleton_self _
  | cop _ ht =>
    obtain ⟨-, rfl⟩ := hp.of_flat (Tag.flat_of_isRef (Tag.isRef_of_copSide ht))
    rw [occOf_cop ht]
    exact Multiset.mem_singleton_self _
  | lam _ ht hb _ _ ih =>
    obtain ⟨rest, rfl, hs⟩ := hp.of_lam ht hu
    rw [heapRead_static hK hb] at hs
    exact Multiset.mem_filter.mpr ⟨ih hs (by omega), by simpa using hl⟩
  | dup _ ht hv hb _ _ _ ihv ihb =>
    obtain ⟨i, rest, rfl, hi, hs⟩ := hp.of_dup ht hu
    rw [Multiset.mem_add]
    by_cases h0 : i = 0
    · subst h0
      rw [Nat.add_zero, heapRead_static hK hv] at hs
      exact .inl (ihv hs hl)
    · obtain rfl : i = 1 := by omega
      rw [heapRead_static hK hb] at hs
      exact .inr (Multiset.mem_filter.mpr ⟨ihb hs (by omega), by simpa using hl⟩)
  | node _ ht f O hf _ ih =>
    obtain ⟨i, rest, rfl, hi, hs⟩ := hp.of_node ht hu
    rw [heapRead_static hK (hf i hi)] at hs
    exact Multiset.mem_sum.mpr ⟨i, Finset.mem_range.mpr hi, ih i hi hs hl⟩
  | leaf _ ht =>
    obtain ⟨-, rfl⟩ := hp.of_flat (Tag.flat_of_isLeaf ht)
    cases htag : u.tag <;> rw [htag] at ht hu <;> first | (cases ht; done) | cases hu

theorem pair_le_filter {a b : Occ} {P : Multiset Occ} {len : Nat} (h : {a} + {b} ≤ P)
    (ha : a.lvl ≤ len) (hb : b.lvl ≤ len) : {a} + {b} ≤ P.filter (·.lvl ≤ len) := by
  refine Multiset.le_filter.mpr ⟨h, fun o ho => ?_⟩
  rcases Multiset.mem_add.mp ho with hm | hm <;> rw [Multiset.mem_singleton.mp hm] <;> assumption

/-- Two paths to free references account for two of the references `O`. -/
theorem BookTm.paths_le (hK : ∀ l c, K l = some c → rt.heap l = c) (h : BookTm K len w O)
    (hp : BookSub rt w path u) (hp' : BookSub rt w path' u') (hne : path ≠ path')
    (hu : u.tag.isRef = true) (hu' : u'.tag.isRef = true) (hl : u32 u.val ≤ len)
    (hl' : u32 u'.val ≤ len) : {occOf u} + {occOf u'} ≤ O := by
  induction h generalizing path path' with
  | var _ ht =>
    have hflat := Tag.flat_of_isRef (Tag.isRef_of_isVar ht)
    exact (hne ((hp.of_flat hflat).1.trans (hp'.of_flat hflat).1.symm)).elim
  | cop _ ht =>
    have hflat := Tag.flat_of_isRef (Tag.isRef_of_copSide ht)
    exact (hne ((hp.of_flat hflat).1.trans (hp'.of_flat hflat).1.symm)).elim
  | lam _ ht hb _ _ ih =>
    obtain ⟨rest, rfl, hs⟩ := hp.of_lam ht hu
    obtain ⟨rest', rfl, hs'⟩ := hp'.of_lam ht hu'
    rw [heapRead_static hK hb] at hs hs'
    have hh := ih hs hs' (fun he => hne (by rw [he])) (by omega) (by omega)
    exact pair_le_filter hh (by simpa using hl) (by simpa using hl')
  | dup _ ht hv hb hval hbody _ ihv ihb =>
    obtain ⟨i, rest, rfl, hi, hs⟩ := hp.of_dup ht hu
    obtain ⟨j, rest', rfl, hj, hs'⟩ := hp'.of_dup ht hu'
    have hval0 : ∀ {k : Nat}, k = 0 → heapRead rt (_ + k) = _ := fun hk => by
      subst hk
      exact heapRead_static hK hv
    have hbod1 : ∀ {k : Nat}, k < 2 → k ≠ 0 → heapRead rt (_ + k) = _ := fun {k} hk h0 => by
      obtain rfl : k = 1 := by omega
      exact heapRead_static hK hb
    have hbodMem : ∀ {p : List Nat} {x : Term}, BookSub rt _ p x → x.tag.isRef = true →
        u32 x.val ≤ _ → occOf x ∈ Multiset.filter (·.lvl ≤ _) _ := fun hx hxr hxl =>
      Multiset.mem_filter.mpr ⟨hbody.path_mem hK hx hxr (Nat.le_succ_of_le hxl), by simpa using hxl⟩
    by_cases h0 : i = 0 <;> by_cases h0' : j = 0
    · rw [hval0 h0] at hs
      rw [hval0 h0'] at hs'
      have hrest : rest ≠ rest' := fun he => hne (by rw [h0, h0', he])
      exact (ihv hs hs' hrest hl hl').trans (Multiset.le_add_right _ _)
    · rw [hval0 h0] at hs
      rw [hbod1 hj h0'] at hs'
      exact add_le_add (Multiset.singleton_le.mpr (hval.path_mem hK hs hu hl))
        (Multiset.singleton_le.mpr (hbodMem hs' hu' hl'))
    · rw [hbod1 hi h0] at hs
      rw [hval0 h0'] at hs'
      rw [add_comm]
      exact add_le_add (Multiset.singleton_le.mpr (hval.path_mem hK hs' hu' hl'))
        (Multiset.singleton_le.mpr (hbodMem hs hu hl))
    · rw [hbod1 hi h0] at hs
      rw [hbod1 hj h0'] at hs'
      have hrest : rest ≠ rest' := fun he => hne (by rw [he]; congr 1; omega)
      have hh := ihb hs hs' hrest (by omega) (by omega)
      exact (pair_le_filter hh (by simpa using hl) (by simpa using hl')).trans
        (Multiset.le_add_left _ _)
  | node _ ht f O hf hargs ih =>
    obtain ⟨i, rest, rfl, hi, hs⟩ := hp.of_node ht hu
    obtain ⟨j, rest', rfl, hj, hs'⟩ := hp'.of_node ht hu'
    rw [heapRead_static hK (hf i hi)] at hs
    rw [heapRead_static hK (hf j hj)] at hs'
    by_cases hij : i = j
    · subst hij
      have hrest : rest ≠ rest' := fun he => hne (by rw [he])
      exact (ih i hi hs hs' hrest hl hl').trans
        (Finset.single_le_sum (fun _ _ => Multiset.zero_le _) (Finset.mem_range.mpr hi))
    · have hmem := (hargs i hi).path_mem hK hs hu hl
      have hmem' := (hargs j hj).path_mem hK hs' hu' hl'
      have hsum := Finset.add_sum_erase _ O (Finset.mem_range.mpr hi)
      have hj' : j ∈ (Finset.range (termArity _)).erase i :=
        Finset.mem_erase.mpr ⟨fun he => hij he.symm, Finset.mem_range.mpr hj⟩
      rw [← hsum]
      exact add_le_add (Multiset.singleton_le.mpr hmem)
        ((Multiset.singleton_le.mpr hmem').trans
          (Finset.single_le_sum (fun _ _ => Multiset.zero_le _) hj'))
  | leaf _ ht =>
    have hflat := Tag.flat_of_isLeaf ht
    exact (hne ((hp.of_flat hflat).1.trans (hp'.of_flat hflat).1.symm)).elim

/-! Live words -/

/-- Where a live word stands: at hand, on the stack, in a cell, or as a free reference of
the book term of an unexpanded ALO. -/
inductive Place where
  | cur
  | frame (i j : Nat)
  | cell (l : Nat)
  | under (p : Place) (path : List Nat)
  deriving DecidableEq

/-- The cells a word refers to. -/
def refCells (w : Term) : List Nat :=
  match w.tag with
  | .lam | .var | .dp0 | .dp1 => [w.val]
  | .alo => if w.ext = 0 then [] else [w.val]
  | _ => List.range' w.val (termArity w)

/-- The words of a frame. `F_EQL_R` stands for the EQL node whose right side is reduced,
`F_OP2_NUM` for the number that is left of an OP2 node. -/
def frameWords : Frame → List Term
  | .native k => k.words
  | .tm t =>
    match t.tag with
    | .fEqlR => [{ t with tag := .eql }]
    | .fOp2Num => [{ t with tag := .num }]
    | _ => [t]

/-- The cell whose content a frame waits for. -/
def frameHole : Frame → Option Nat
  | .native _ => none
  | .tm t =>
    match t.tag with
    | .app | .op2 | .eql | .and | .or | .dsu | .ddu | .dp0 | .dp1 => some t.val
    | .fEqlR => some (t.val + 1)
    | _ => none

/-- The cells through which a word reaches others. A variable without a substitution
reaches none: its cell is the body of its binder. -/
def nextCells (rt : Rt) (w : Term) : List Nat :=
  if w.tag = .var ∧ (heapRead rt w.val).sub = false then [] else refCells w

/-- What a reference of a book term stands for under a bind list. -/
def aloRef (rt : Rt) (ls len : Nat) (u : Term) : Term :=
  if u.tag.isVar then wnfAloVar rt ls len u else wnfAloCop rt ls len u

/-- The live words of a machine state. -/
inductive Live (m : Machine) : Place → Term → Prop
  | cur : Live m .cur m.mode.word
  | frame {i j f w} (hf : m.stack[i]? = some f) (hw : (frameWords f)[j]? = some w) :
      Live m (.frame i j) w
  | cell {p v l t} (h : Live m p v) (hl : l ∈ nextCells m.rt v)
      (hhole : ∀ f ∈ m.stack, frameHole f ≠ some l) (ht : m.rt.heap l = .tm t) :
      Live m (.cell l) (termSubSet t false)
  | under {p v loc ls tm path u} (h : Live m p v) (hv : v.tag = .alo)
      (hr : aloRead m.rt v = (loc, ls, tm)) (hu : BookSub m.rt (heapRead m.rt tm) path u)
      (hk : u.tag.isRef = true) (hl : u32 u.val ≤ v.ext) :
      Live m (.under p path) (aloRef m.rt ls v.ext u)

/-- The node a word owns. -/
def nodeLoc (w : Term) : Option Nat :=
  match w.tag with
  | .lam | .var | .dp0 | .dp1 => none
  | _ => (refCells w).head?

/-- The live words own the heap linearly. -/
structure OwnsLinearly (m : Machine) : Prop where
  /-- (1) No two live words own the same node. -/
  nodes : ∀ p q v w l, Live m p v → Live m q w → nodeLoc v = some l → nodeLoc w = some l → p = q
  /-- (2) A binder cell has at most one live VAR. -/
  vars : ∀ p q v w, Live m p v → Live m q w → v.tag = .var → w.tag = .var → v.val = w.val → p = q
  /-- (3) A dup cell has at most one live DP0 and one live DP1, under one label. -/
  dups : ∀ p q v w s r, Live m p v → Live m q w → v.tag = dupTag s → w.tag = dupTag r →
    v.val = w.val → (s = r → p = q) ∧ v.ext = w.ext
  /-- (4) No cell of a node belongs to another node as well: what an in-place rule has
  recycled is not referred to under its former role. -/
  cells : ∀ p q v w l, Live m p v → Live m q w → p ≠ q → l ∈ refCells v → l ∈ refCells w →
    v.val = l ∧ w.val = l ∧ (v.tag = .lam ∧ w.tag = .var ∨ v.tag = .var ∧ w.tag = .lam ∨
      ∃ s, v.tag = dupTag s ∧ w.tag = dupTag (!s))

end Hvm
