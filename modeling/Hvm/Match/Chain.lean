import Hvm.Aot.Dispatch

/-! Chains of MAT and SWI nodes as the heap holds them. Part of a chain may still be book
terms behind an ALO, which `wnf` instantiates one node at a time. -/

namespace Hvm.Match

inductive Kind where
  | ctr | num
  deriving DecidableEq, Repr

def Kind.tag : Kind → Tag
  | .ctr => .mat
  | .num => .swi

/-- A branch or the rest of a chain: a word of the graph, or the book term at `loc` under
the bind list `ls` of length `len`. -/
inductive Arm where
  | word (t : Term)
  | book (ls len loc : Nat)

/-- In heap `h`, the word `t` stands for the arm. -/
inductive Arm.Is (h : Nat → Cell) : Arm → Term → Prop where
  | word (t : Term) : Arm.Is h (.word t) t
  | closed (loc : Nat) : Arm.Is h (.book 0 0 loc) (termNew false .alo 0 loc)
  | under {ls len loc l : Nat} : 0 < len → len < 2 ^ 18 → h l = .alo ls loc →
    Arm.Is h (.book ls len loc) (termNew false .alo len l)

/-- The packed cell of an arm that is under binders. -/
def Arm.cells : Arm → Term → Set Nat
  | .word _, _ => ∅
  | .book _ len _, t => {l | 0 < len ∧ l = t.val}

structure Case where
  kind : Kind
  key : Nat
  branch : Arm

/-- The kind and the key of a case. -/
def Case.pattern (c : Case) : Kind × Nat := (c.kind, c.key)

/-- `a` is a chain of the cases `cs` in front of the default `d`, held in the cells `F`. -/
inductive Chain (h : Nat → Cell) : Arm → List Case → Arm → Set Nat → Prop where
  | default (d : Arm) : Chain h d [] d ∅
  | node {t hit mis : Term} {c : Case} {rest d : Arm} {cs : List Case} {F : Set Nat} :
    t.tag = c.kind.tag → t.ext = c.key →
    h t.val = .tm hit → c.branch.Is h hit → h (t.val + 1) = .tm mis → rest.Is h mis →
    Chain h rest cs d F →
    (∀ l ∈ c.branch.cells hit ∪ rest.cells mis ∪ F, l ≠ t.val ∧ l ≠ t.val + 1) →
    (∀ l ∈ rest.cells mis, l ∉ F) →
    Chain h (.word t) (c :: cs) d
      ({t.val, t.val + 1} ∪ (c.branch.cells hit ∪ rest.cells mis ∪ F))
  | book {ls len loc : Nat} {b : Term} {c : Case} {cs : List Case} {d : Arm} {F : Set Nat} :
    h loc = .tm b → b.tag = c.kind.tag → b.ext = c.key → b.ext < 2 ^ 18 →
    c.branch = .book ls len b.val → Chain h (.book ls len (b.val + 1)) cs d F →
    Chain h (.book ls len loc) (c :: cs) d ({loc} ∪ F)

variable {h h' : Nat → Cell} {a d : Arm} {t w : Term} {cs : List Case} {F : Set Nat}

theorem Arm.Is.congr (hi : a.Is h t) (hk : ∀ l ∈ a.cells t, h' l = h l) : a.Is h' t := by
  cases hi with
  | word t => exact .word t
  | closed loc => exact .closed loc
  | @under ls len loc l hpos hlen hl =>
    refine .under hpos hlen ?_
    rw [hk l ⟨hpos, rfl⟩, hl]

theorem Chain.congr (hc : Chain h a cs d F) (hk : ∀ l ∈ F, h' l = h l) : Chain h' a cs d F := by
  induction hc with
  | default d => exact .default d
  | @node t hit mis c rest d cs F htag hext hhit hb hmis hr hc hne hapart ih =>
    have h0 : h' t.val = h t.val := hk _ (.inl (.inl rfl))
    have h1 : h' (t.val + 1) = h (t.val + 1) := hk _ (.inl (.inr rfl))
    have hb' := hb.congr fun l hl => hk l (.inr (.inl (.inl hl)))
    have hr' := hr.congr fun l hl => hk l (.inr (.inl (.inr hl)))
    exact .node htag hext (h0.trans hhit) hb' (h1.trans hmis) hr'
      (ih fun l hl => hk l (.inr (.inr hl))) hne hapart
  | @book ls len loc b c cs d F hloc htag hext hlt hb hc ih =>
    have h0 : h' loc = h loc := hk _ (.inl rfl)
    exact .book (h0.trans hloc) htag hext hlt hb (ih fun l hl => hk l (.inr hl))

/-- The heap changes outside `F` and above `n` only, `n` being the end of the heap before. -/
def Within (F : Set Nat) (rt rt' : Rt) : Prop :=
  rt.next ≤ rt'.next ∧ ∀ l < rt.next, l ∉ F → rt'.heap l = rt.heap l

theorem Within.refl (F : Set Nat) (rt : Rt) : Within F rt rt := ⟨Nat.le_refl _, fun _ _ _ => rfl⟩

theorem Within.trans {F G : Set Nat} {rt rt' rt'' : Rt} (h : Within F rt rt')
    (h' : Within G rt' rt'') (hs : ∀ l ∈ G, l < rt.next → l ∈ F) : Within F rt rt'' := by
  constructor
  · exact h.1.trans h'.1
  · intro l hl hF
    have hG : l ∉ G := fun hg => hF (hs l hg hl)
    rw [h'.2 l (by have := h.1; omega) hG, h.2 l hl hF]

theorem Within.mono {F G : Set Nat} {rt rt' : Rt} (h : Within F rt rt') (hs : F ⊆ G) :
    Within G rt rt' :=
  ⟨h.1, fun l hl hG => h.2 l hl fun hF => hG (hs hF)⟩

end Hvm.Match
