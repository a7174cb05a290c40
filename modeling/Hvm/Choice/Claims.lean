import Hvm.Choice.Values
import Hvm.Linear.Ledger
import Hvm.Linear.Sided
import Hvm.Linear.Alo

/-! What a reference claims about a cell: the value of its content for every choice of sides.
A word's value is made from the claims of the references it holds. Claims have ranks that grow
from the inside out, so that no term holds a reference to itself. -/

namespace Hvm.Choice

open Oracle

/-- A cell holds a term with the value `den`, whose own references have ranks below `rank`. -/
structure Claim where
  den : Den
  rank : ℚ

/-- What a reference says about its cell: a plain term, a term shared under a label, or the
packed pair of an ALO under `len` binders. -/
inductive Mark where
  | cell (c : Claim)
  | lab (n : Nat) (d : Den) (r : ℚ)
  | pack (len : Nat) (d : Den) (r : ℚ)

abbrev Tok := LinearHeap.Tok Mark Cell
abbrev Toks := LinearHeap.Toks Mark Cell

/-- The references of a node to its fields. -/
def nodeToks (v : Nat) : List Claim → Toks
  | [] => 0
  | c :: cs => {.own v (.cell c)} + nodeToks (v + 1) cs

/-! ### Book terms -/

/-- The static cells hold the expression behind a book word. -/
inductive Reads (K : Statics) : Term → Expr → Prop
  | num {w : Term} : w.tag = .num → w.val < 2 ^ 32 → Reads K w (.num w.val)
  | era {w : Term} : w.tag = .era → Reads K w .era
  | any {w : Term} : w.tag = .any → Reads K w .any
  | node {w : Term} {s : Shape} {f : Nat → Term} {es : List Expr} :
    Shape.ofTag w.tag w.ext = some s → es.length = s.arity → (∀ i, i < es.length → K (w.val + i) = some (.tm (f i))) →
    (∀ i (h : i < es.length), Reads K (f i) es[i]) → Reads K w (.node s es)
  | dup {w v b : Term} {ev eb : Expr} : w.tag = .dup → K w.val = some (.tm v) →
    K (w.val + 1) = some (.tm b) → Reads K v ev → Reads K b eb → Reads K w (.dup w.ext ev eb)
  | cop {w : Term} {right : Bool} : w.tag.copSide = some right →
    Reads K w (.cop right w.ext (u32 w.val))

/-- The values shared by the binders of each level, and their ranks. -/
abbrev Env := Nat → Den × ℚ

/-- The reference that a dup variable of a book term stands for. -/
def occTok (bs : List Nat) (ρ : Env) : Occ → Tok
  | .var lvl => .use (bindAt bs lvl) (.cell ⟨fun _ => .era, 0⟩)
  | .cop right lab lvl => .share (bindAt bs lvl) (.lab lab (ρ lvl).1 (ρ lvl).2) right

def occToks (bs : List Nat) (ρ : Env) (O : Multiset Occ) : Toks := O.map (occTok bs ρ)

/-- What `ls`, `tm` of an ALO stand for: the expression `e` under the binders `bs`. -/
structure Suspends (K : Statics) (ls tm : Nat) (bs : List Nat) (ρ : Env) (O : Multiset Occ)
    (e : Expr) (m : ℚ) : Prop where
  binds : BindList K ls bs
  book : ∃ w, K tm = some (.tm w) ∧ BookTm K bs.length w O ∧ Reads K w e
  nesting : bs.length + e.nesting ≤ 2 ^ 16
  ranks : ∀ o ∈ O, (ρ o.lvl).2 ≤ m

/-! ### Words -/

/-- The word `w` has the value `d` by the references `σ` it holds, all of rank below `r`. -/
inductive Word (K : Statics) : Term → Den → ℚ → Toks → Prop
  | num {w : Term} {r : ℚ} (hp : w.Plain) (ht : w.tag = .num) (hn : w.val < 2 ^ 32) :
    Word K w (fun _ => .num w.val) r 0
  | era {w : Term} {r : ℚ} (hp : w.Plain) (ht : w.tag = .era) : Word K w (fun _ => .era) r 0
  | any {w : Term} {r : ℚ} (hp : w.Plain) (ht : w.tag = .any) : Word K w (fun _ => .any) r 0
  | node {w : Term} {s : Shape} {cs : List Claim} {r : ℚ} (hp : w.Plain)
    (hs : Shape.ofTag w.tag w.ext = some s) (hlen : cs.length = s.arity)
    (hb : ∀ c ∈ cs, c.rank < r) :
    Word K w (s.den (cs.map Claim.den)) r (nodeToks w.val cs)
  | cop {w : Term} {right : Bool} {d : Den} {k r : ℚ} (hp : w.Plain) (ht : w.tag = dupTag right)
    (hk : k < r) : Word K w (side w.ext right d) r {.share w.val (.lab w.ext d k) right}
  | book {w b : Term} {e : Expr} {ρ : Nat → Den} {r : ℚ} (hp : w.Plain) (ht : w.tag = .alo)
    (h0 : w.ext = 0) (hb : K w.val = some (.tm b)) (hbook : BookTm K 0 b 0) (he : Reads K b e)
    (hn : e.nesting ≤ 2 ^ 16) : Word K w (e.den 0 ρ) r 0
  | pack {w : Term} {d : Den} {k r : ℚ} (hp : w.Plain) (ht : w.tag = .alo) (h0 : w.ext ≠ 0)
    (hk : k < r) : Word K w d r {.own w.val (.pack w.ext d k)}

/-- What a cell holds. Shared cells are described by `Shared` and `Left`. -/
def Holds (K : Statics) : Mark → Cell → Toks → Prop
  | .cell c, .tm t, σ => Word K t c.den c.rank σ
  | .lab .., _, _ => True
  | .pack len d r, .alo ls tm, σ =>
    ∃ bs ρ O e, bs.length = len ∧ Suspends K ls tm bs ρ O e r ∧
      d = e.den len (fun lvl => (ρ lvl).1) ∧ σ = occToks bs ρ O
  | _, _, _ => False

/-- The value in a dup cell. -/
def Shared (K : Statics) : Mark → Cell → Toks → Prop
  | .lab _ d r, .tm t, σ => Word K t d r σ
  | _, _, _ => False

/-- What a dup cell keeps for one of its sides: the value as seen from there. -/
def Left (K : Statics) : Mark → Bool → Cell → Toks → Prop
  | .lab n d r, right, .tm t, σ => Word K t (side n right d) r σ
  | _, _, _, _ => False

variable {K K' : Statics} {w : Term} {d : Den} {e : Expr} {m r : ℚ} {σ : Toks}

theorem Reads.mono (hK : K.Le K') (h : Reads K w e) : Reads K' w e := by
  induction h with
  | num ht hn => exact .num ht hn
  | era ht => exact .era ht
  | any ht => exact .any ht
  | node hs hlen hf _ ih => exact .node hs hlen (fun i hi => hK _ _ (hf i hi)) ih
  | dup ht hv hb _ _ ihv ihb => exact .dup ht (hK _ _ hv) (hK _ _ hb) ihv ihb
  | cop ht => exact .cop ht

theorem Suspends.mono (hK : K.Le K') {ls tm : Nat} {bs : List Nat} {ρ : Env} {O : Multiset Occ}
    (h : Suspends K ls tm bs ρ O e m) (hm : m ≤ r) : Suspends K' ls tm bs ρ O e r := by
  obtain ⟨b, hb, hbook, hread⟩ := h.book
  exact ⟨h.binds.mono hK, ⟨b, hK _ _ hb, hbook.mono hK, hread.mono hK⟩, h.nesting,
    fun o ho => (h.ranks o ho).trans hm⟩

theorem Word.mono (hK : K.Le K') (h : Word K w d m σ) (hm : m ≤ r) : Word K' w d r σ := by
  cases h with
  | num hp ht hn => exact .num hp ht hn
  | era hp ht => exact .era hp ht
  | any hp ht => exact .any hp ht
  | node hp hs hlen hb => exact .node hp hs hlen fun c hc => lt_of_lt_of_le (hb c hc) hm
  | cop hp ht hk => exact .cop hp ht (lt_of_lt_of_le hk hm)
  | book hp ht h0 hb hbook he hn => exact .book hp ht h0 (hK _ _ hb) (hbook.mono hK) (he.mono hK) hn
  | pack hp ht h0 hk => exact .pack hp ht h0 (lt_of_lt_of_le hk hm)

theorem Word.plain (h : Word K w d r σ) : w.Plain := by
  cases h <;> assumption

theorem Word.weaken (h : Word K w d m σ) (hm : m ≤ r) : Word K w d r σ :=
  h.mono (LinearHeap.Frozen.Le.refl K) hm

/-- The fields of a node word. -/
theorem Word.node_inv {s : Shape} (h : Word K w d r σ) (hs : Shape.ofTag w.tag w.ext = some s) :
    ∃ cs, cs.length = s.arity ∧ (∀ c ∈ cs, c.rank < r) ∧ d = s.den (cs.map Claim.den) ∧
      σ = nodeToks w.val cs := by
  cases h with
  | @node s' cs _ hp hs' hlen hb =>
    rw [hs'] at hs
    obtain rfl := Option.some.inj hs
    exact ⟨cs, hlen, hb, rfl, rfl⟩
  | num _ ht _ | era _ ht | any _ ht | book _ ht _ _ _ _ | pack _ ht _ _ =>
    rw [ht] at hs
    cases hs
  | @cop right d k _ hp ht hk =>
    rw [ht] at hs
    cases right <;> cases hs

/-- The cell of a dup variable. -/
theorem Word.cop_inv {right : Bool} (h : Word K w d r σ) (ht : w.tag = dupTag right) :
    ∃ e k, k < r ∧ d = side w.ext right e ∧ σ = {.share w.val (.lab w.ext e k) right} := by
  cases h with
  | @cop right' e k _ hp ht' hk =>
    have hside : right' = right := by
      rw [ht'] at ht
      cases right <;> cases right' <;> first | rfl | cases ht
    subst hside
    exact ⟨e, k, hk, rfl, rfl⟩
  | node _ hs _ _ =>
    rw [ht] at hs
    cases right <;> cases hs
  | num _ ht' _ | era _ ht' | any _ ht' | book _ ht' _ _ _ _ | pack _ ht' _ _ =>
    rw [ht'] at ht
    cases right <;> cases ht

/-- What an ALO word suspends. -/
theorem Word.alo_inv (h : Word K w d r σ) (ht : w.tag = .alo) :
    (w.ext = 0 ∧ σ = 0 ∧ ∃ b e ρ, K w.val = some (.tm b) ∧ BookTm K 0 b 0 ∧ Reads K b e ∧
        e.nesting ≤ 2 ^ 16 ∧ d = e.den 0 ρ) ∨
      (w.ext ≠ 0 ∧ ∃ k, k < r ∧ σ = {.own w.val (.pack w.ext d k)}) := by
  cases h with
  | @book b e ρ _ hp ht' h0 hb hbook he hn =>
    exact .inl ⟨h0, rfl, b, e, ρ, hb, hbook, he, hn, rfl⟩
  | pack _ _ h0 hk => exact .inr ⟨h0, _, hk, rfl⟩
  | node _ hs _ _ =>
    rw [ht] at hs
    cases hs
  | @cop right _ _ _ _ ht' _ =>
    rw [ht'] at ht
    cases right <;> cases ht
  | num _ ht' _ | era _ ht' | any _ ht' =>
    rw [ht'] at ht
    cases ht

theorem Claim.exists_bound {cs : List Claim} (h : ∀ c ∈ cs, c.rank < r) :
    ∃ m, m < r ∧ ∀ c ∈ cs, c.rank ≤ m := by
  induction cs with
  | nil =>
    refine ⟨r - 1, sub_one_lt r, ?_⟩
    intro c hc
    cases hc
  | cons c cs ih =>
    obtain ⟨m, hm, hcs⟩ := ih fun c hc => h c (List.mem_cons_of_mem _ hc)
    refine ⟨max c.rank m, max_lt (h c List.mem_cons_self) hm, ?_⟩
    intro x hx
    rcases List.mem_cons.mp hx with rfl | hx
    · exact le_max_left _ _
    · exact (hcs x hx).trans (le_max_right _ _)

theorem Holds.mono (hK : K.Le K') {a : Mark} {c : Cell} (h : Holds K a c σ) : Holds K' a c σ := by
  cases a with
  | cell c' =>
    cases c with
    | tm t => exact Word.mono hK h le_rfl
    | alo ls tm => exact h.elim
  | lab n d r => trivial
  | pack len d r =>
    cases c with
    | tm t => exact h.elim
    | alo ls tm =>
      obtain ⟨bs, ρ, O, e, hlen, hs, hd, hσ⟩ := h
      exact ⟨bs, ρ, O, e, hlen, hs.mono hK le_rfl, hd, hσ⟩

/-- Cells hold terms that mean what the references to them claim. -/
def discipline : LinearHeap.Discipline Mark Cell where
  marked := Hvm.discipline.marked
  unmark := Hvm.discipline.unmark
  Holds := Holds
  mono hK h := Holds.mono hK h

theorem Shared.exists_word {a : Mark} {c : Cell} (h : Shared K a c σ) :
    ∃ n d r t, a = .lab n d r ∧ c = .tm t ∧ Word K t d r σ := by
  cases a <;> cases c <;> first
    | exact h.elim
    | exact ⟨_, _, _, _, rfl, rfl, h⟩

theorem Left.exists_word {a : Mark} {c : Cell} {right : Bool} (h : Left K a right c σ) :
    ∃ n d r t, a = .lab n d r ∧ c = .tm t ∧ Word K t (side n right d) r σ := by
  cases a <;> cases c <;> first
    | exact h.elim
    | exact ⟨_, _, _, _, rfl, rfl, h⟩

def meaning : LinearHeap.Meaning discipline where
  Shared := Shared
  Left := Left
  shared_mono := by
    intro K K' a c σ hK h
    obtain ⟨n, d, r, t, rfl, rfl, hw⟩ := h.exists_word
    exact Word.mono hK hw le_rfl
  left_mono := by
    intro K K' a right c σ hK h
    obtain ⟨n, d, r, t, rfl, rfl, hw⟩ := h.exists_word
    exact Word.mono hK hw le_rfl
  shared_holds := by
    intro K a c σ h
    obtain ⟨n, d, r, t, rfl, rfl, -⟩ := h.exists_word
    trivial
  left_holds := by
    intro K a right c σ h
    obtain ⟨n, d, r, t, rfl, rfl, -⟩ := h.exists_word
    trivial

theorem nodeToks_not_pins {l : Nat} {cs : List Claim} : ∀ t ∈ nodeToks l cs, ¬ t.Pins := by
  induction cs generalizing l with
  | nil =>
    intro t ht
    cases ht
  | cons c cs ih =>
    intro t ht
    rw [nodeToks, Multiset.mem_add, Multiset.mem_singleton] at ht
    rcases ht with rfl | ht
    · exact id
    · exact ih t ht

theorem occToks_not_pins {bs : List Nat} {ρ : Env} {O : Multiset Occ} :
    ∀ t ∈ occToks bs ρ O, ¬ t.Pins := by
  intro t ht
  obtain ⟨o, -, rfl⟩ := Multiset.mem_map.mp ht
  cases o <;> exact id

theorem Word.not_pins (h : Word K w d r σ) : ∀ t ∈ σ, ¬ t.Pins := by
  have hzero : ∀ t ∈ (0 : Toks), ¬ t.Pins := by
    intro t ht
    cases ht
  cases h with
  | num | era | any | book => exact hzero
  | node => exact nodeToks_not_pins
  | cop | pack =>
    intro t ht
    rw [Multiset.mem_singleton.mp ht]
    exact id

end Hvm.Choice
