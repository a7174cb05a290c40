import Hvm.Choice.Machine
import Hvm.Cnf.Machine

/-! Collapsed first-order terms: what they print, and how their cells are held with their content
until the whole term is printed or taken apart again. -/

namespace Hvm.Choice

open Oracle

/-- The words `cnf_at` returns as they are, the roots it hands on to its caller apart. -/
def isCnfLeaf : Tag → Bool
  | .num | .any | .inc | .dp0 | .dp1 => true
  | .ctr n => n == 0
  | _ => false

/-- The printed term stands for the value. A dup variable stands for a stuck operator. What lies
under a priority wrapper inside a term has not been evaluated. -/
inductive Prints (rt : Rt) : Term → Val → Prop
  | num {t} (ht : t.tag = .num) : Prints rt t (.num t.val)
  | any {t} (ht : t.tag = .any) : Prints rt t .any
  | inc {t v} (ht : t.tag = .inc) : Prints rt t v
  | dup {t v} (ht : t.tag = .dp0 ∨ t.tag = .dp1) (hv : v.Stuck) : Prints rt t v
  | node {t s vs} (hs : Shape.ofTag t.tag t.ext = some s)
    (hc : t.tag.isCtr = true ∨ (s.val vs).Stuck) (hlen : vs.length = s.arity)
    (hvs : ∀ i v, vs[i]? = some v → Prints rt (heapRead rt (t.val + i)) v) : Prints rt t (s.val vs)

/-- A field of a node in hand: its cell holds `term`, which stands for `den` by the tokens
`toks`. -/
structure Field where
  term : Term
  den : Den
  toks : Toks

/-- The cells of the fields, from `l` on, and what the fields hold. -/
def fieldToks (l : Nat) : List Field → Toks
  | [] => 0
  | f :: fs => {.held l (some (.tm f.term))} + f.toks + fieldToks (l + 1) fs

/-- A collapsed term with the value `d`: all cells of its nodes are in hand. -/
inductive Done (K : Statics) : Term → Den → ℚ → Toks → Prop
  | leaf {t d r σ} (hw : Word K t d r σ) (ht : isCnfLeaf t.tag = true) (hs : Settled t d) :
    Done K t d r σ
  | node {t s m r} {fs : List Field} (hp : t.Plain) (hs : Shape.ofTag t.tag t.ext = some s)
    (hc : t.tag.collapses = true) (hlen : fs.length = s.arity)
    (hset : Settled t (s.den (fs.map Field.den))) (hm : m < r)
    (hfs : ∀ f ∈ fs, Done K f.term f.den m f.toks) :
    Done K t (s.den (fs.map Field.den)) r (fieldToks t.val fs)

/-- What a call of `cnf_at` hands to its caller, an erasure apart. -/
def Part (K : Statics) (t : Term) (d : Den) (m : ℚ) (σ : Toks) : Prop :=
  Done K t d m σ ∨ t.tag = .sup ∧ Word K t d m σ

/-- What a call of `cnf_at` returns on a term with the value `d`. -/
def Returns (K : Statics) (t : Term) (d : Den) (m : ℚ) (σ : Toks) : Prop :=
  Part K t d m σ ∨ t.tag = .era ∧ (∀ s, (d s).erased = true) ∧ σ = 0

variable {K K' : Statics} {rt : Rt} {t : Term} {d : Den} {m r : ℚ} {σ τ : Toks} {l : Nat}
  {fs gs : List Field}

/-- The nodes with collapsed fields are no superpositions. -/
theorem isSup_of_collapses {s : Shape} (hs : Shape.ofTag t.tag t.ext = some s)
    (hc : t.tag.collapses = true) : s.isSup = false := by
  cases htag : t.tag <;> rw [htag] at hs hc <;> first
    | (cases hc; done)
    | (cases hs; rfl)
    | cases hs

theorem fieldToks_append (l : Nat) (fs gs : List Field) :
    fieldToks l (fs ++ gs) = fieldToks l fs + fieldToks (l + fs.length) gs := by
  induction fs generalizing l with
  | nil => simp [fieldToks]
  | cons f fs ih =>
    have he : l + (f :: fs).length = l + 1 + fs.length := by
      rw [List.length_cons]
      omega
    rw [List.cons_append, fieldToks, fieldToks, ih, he]
    abel

theorem mem_fieldToks (l : Nat) {i : Nat} {f : Field} (h : fs[i]? = some f) :
    LinearHeap.Tok.held (l + i) (some (.tm f.term)) ∈ fieldToks l fs ∧ f.toks ≤ fieldToks l fs := by
  induction fs generalizing l i with
  | nil => cases h
  | cons g fs ih =>
    cases i with
    | zero =>
      obtain rfl := Option.some.inj h
      refine ⟨by simp [fieldToks], ?_⟩
      rw [fieldToks, add_right_comm]
      exact Multiset.le_add_left _ _
    | succ i =>
      obtain ⟨hm, hle⟩ := @ih (l + 1) i h
      have he : l + (i + 1) = l + 1 + i := by omega
      rw [fieldToks, he]
      exact ⟨Multiset.mem_add.mpr (.inr hm), hle.trans (Multiset.le_add_left _ _)⟩

theorem fieldToks_not_pins (h : ∀ f ∈ fs, ∀ t ∈ f.toks, ¬ t.Pins) :
    ∀ t ∈ fieldToks l fs, ¬ t.Pins := by
  induction fs generalizing l with
  | nil =>
    intro t ht
    cases ht
  | cons f fs ih =>
    intro t ht
    rw [fieldToks] at ht
    rcases Multiset.mem_add.mp ht with hm | hm
    · rcases Multiset.mem_add.mp hm with hm | hm
      · rw [Multiset.mem_singleton.mp hm]
        exact id
      · exact h f List.mem_cons_self t hm
    · exact ih (fun g hg => h g (List.mem_cons_of_mem _ hg)) t hm

theorem Done.not_pins (h : Done K t d m σ) : ∀ t ∈ σ, ¬ t.Pins := by
  induction h with
  | leaf hw => exact hw.not_pins
  | node _ _ _ _ _ _ _ ih => exact fieldToks_not_pins ih

theorem Done.mono (hK : K.Le K') (h : Done K t d m σ) : Done K' t d m σ := by
  induction h with
  | leaf hw ht hs => exact .leaf (hw.mono hK le_rfl) ht hs
  | node hp hs hc hlen hset hm _ ih => exact .node hp hs hc hlen hset hm ih

theorem Part.mono (hK : K.Le K') (h : Part K t d m σ) : Part K' t d m σ :=
  h.imp (Done.mono hK) fun h => ⟨h.1, h.2.mono hK le_rfl⟩

theorem Part.not_pins (h : Part K t d m σ) : ∀ t ∈ σ, ¬ t.Pins :=
  h.elim Done.not_pins fun h => h.2.not_pins

/-! ### What a collapsed term prints -/

theorem Linear.filled {l : Nat} {c : Cell} (hl : Linear K rt τ)
    (hm : LinearHeap.Tok.held l (some c) ∈ τ) : rt.heap l = c :=
  LinearHeap.Inv.held_eq (LinearHeap.Meaning.Inv.plain hl) hm

theorem Done.prints (hl : Linear K rt τ) (h : Done K t d m σ) (hle : σ ≤ τ) (s : Sides Nat) :
    Prints rt t (d s) := by
  induction h with
  | @leaf t d r σ hw ht hs =>
    cases htag : t.tag <;> rw [htag] at ht <;> first | (cases ht; done) | skip
    case num =>
      rw [(hw.num_inv htag).2]
      exact .num htag
    case any =>
      rw [hw.any_inv htag]
      exact .any htag
    case inc => exact .inc htag
    case dp0 => exact .dup (.inl htag) (hs.stuck (by rw [htag]; rfl) s)
    case dp1 => exact .dup (.inr htag) (hs.stuck (by rw [htag]; rfl) s)
    case ctr n =>
      have hn : n = 0 := by simpa [isCnfLeaf] using ht
      obtain ⟨ds, hlen, hd⟩ := hw.ctr_inv htag
      rw [hn] at hlen
      obtain rfl := List.eq_nil_of_length_eq_zero hlen
      have hsh : Shape.ofTag t.tag t.ext = some (.ctr t.ext n) := by rw [htag]; rfl
      rw [hd, List.map_nil]
      have hlen : ([] : List Val).length = (Shape.ctr t.ext n).arity := by
        rw [hn]
        rfl
      exact .node hsh (.inl (by rw [htag]; rfl)) hlen fun i v hi => by cases hi
  | @node t s' m r fs hp hs hc hlen hset hm hfs ih =>
    have hsup := isSup_of_collapses hs hc
    have hden : s'.den (fs.map Field.den) s = s'.val ((fs.map Field.den).map (· s)) := by
      rw [Shape.den_eq hsup]
      rfl
    rw [hden]
    refine .node hs ?_ (by rw [List.length_map, List.length_map, hlen]) ?_
    · by_cases hctr : t.tag.isCtr = true
      · exact .inl hctr
      · right
        rw [← hden]
        refine hset.stuck ?_ s
        cases htag : t.tag <;> rw [htag] at hc hctr <;> first
          | rfl
          | cases hc
          | exact absurd rfl hctr
    · intro i v hi
      rw [List.getElem?_map, List.getElem?_map] at hi
      obtain ⟨x, hx, rfl⟩ := Option.map_eq_some_iff.mp hi
      obtain ⟨f, hf, rfl⟩ := Option.map_eq_some_iff.mp hx
      obtain ⟨hheld, hsub⟩ := mem_fieldToks t.val hf
      have hread : heapRead rt (t.val + i) = f.term := by
        rw [heapRead, hl.filled (Multiset.mem_of_le hle hheld)]
        rfl
      rw [hread]
      exact ih f (List.mem_of_getElem? hf) (hsub.trans hle)

/-! ### Collapsed terms taken apart -/

/-- A cell in hand that holds a term is owned as it is. -/
theorem Linear.close (hl : Linear K rt ({.held l (some (.tm t))} + (σ + τ))) (hw : Word K t d m σ) :
    Linear K rt ({.own l (.cell ⟨d, m⟩)} + τ) := by
  have hc := hl.filled (Multiset.mem_add.mpr (.inl (Multiset.mem_singleton_self _)))
  have hmark : discipline.marked (.tm t) = false := hw.plain.1
  have hs := LinearHeap.Meaning.Inv.store hl (.cell ⟨d, m⟩) hmark hw hw.not_pins
  have hself : Function.update rt.heap l (.tm t) = rt.heap := by
    rw [← hc]
    exact Function.update_eq_self l rt.heap
  rwa [hself] at hs

theorem fields_close (h : ∀ f ∈ fs, ∀ τ, Linear K rt (f.toks + τ) →
      ∃ σ, Word K f.term f.den m σ ∧ Linear K rt (σ + τ))
    (hl : Linear K rt (fieldToks l fs + τ)) : ∃ cs : List Claim, cs.map Claim.den = fs.map Field.den ∧
      (∀ c ∈ cs, c.rank = m) ∧ Linear K rt (nodeToks l cs + τ) := by
  induction fs generalizing l τ with
  | nil => exact ⟨[], rfl, fun c hc => (by cases hc), hl⟩
  | cons f fs ih =>
    have he : fieldToks l (f :: fs) + τ =
        f.toks + ({.held l (some (.tm f.term))} + (fieldToks (l + 1) fs + τ)) := by
      rw [fieldToks]
      abel
    rw [he] at hl
    obtain ⟨σ, hw, hl⟩ := h f List.mem_cons_self _ hl
    rw [add_left_comm] at hl
    have hl := hl.close hw
    rw [add_left_comm] at hl
    obtain ⟨cs, hcs, hrank, hl⟩ := ih (fun g hg => h g (List.mem_cons_of_mem _ hg)) hl
    refine ⟨⟨f.den, m⟩ :: cs, ?_, ?_, ?_⟩
    · rw [List.map_cons, hcs, List.map_cons]
    · intro c hc
      rcases List.mem_cons.mp hc with rfl | hc
      · rfl
      · exact hrank c hc
    · rw [nodeToks, add_assoc, add_left_comm]
      exact hl

/-- The cells of a collapsed term are given up; what is left is its root word. -/
theorem Done.release (h : Done K t d m σ) (hl : Linear K rt (σ + τ)) :
    ∃ σ', Word K t d m σ' ∧ Linear K rt (σ' + τ) := by
  induction h generalizing τ with
  | leaf hw => exact ⟨_, hw, hl⟩
  | @node t s m r fs hp hs hc hlen hset hm _ ih =>
    obtain ⟨cs, hcs, hrank, hl⟩ := fields_close (fun f hf τ hl => ih f hf hl) hl
    have hn : cs.length = fs.length := by
      rw [← List.length_map (f := Claim.den), hcs, List.length_map]
    have hw := Word.node (K := K) hp hs (hn.trans hlen) fun c hc => by rw [hrank c hc]; exact hm
    rw [hcs] at hw
    exact ⟨_, hw, hl⟩

theorem Part.release (h : Part K t d m σ) (hl : Linear K rt (σ + τ)) :
    ∃ σ', Word K t d m σ' ∧ Linear K rt (σ' + τ) := by
  rcases h with h | ⟨-, h⟩
  · exact h.release hl
  · exact ⟨σ, h, hl⟩

/-- The fields of a node are taken out of their cells. -/
theorem fields_open (h : ∀ f ∈ fs, Part K f.term f.den m f.toks)
    (hl : Linear K rt (fieldToks l fs + τ)) : ∃ σs : List Toks,
      List.Forall₂ (fun f σ => Word K f.term f.den m σ) fs σs ∧
        Linear K rt (holeToks l fs.length + (σs.sum + τ)) := by
  induction fs generalizing l τ with
  | nil => exact ⟨[], .nil, by simpa [fieldToks, holeToks] using hl⟩
  | cons f fs ih =>
    have he : fieldToks l (f :: fs) + τ =
        f.toks + ({.held l (some (.tm f.term))} + (fieldToks (l + 1) fs + τ)) := by
      rw [fieldToks]
      abel
    rw [he] at hl
    obtain ⟨σ, hw, hl⟩ := (h f List.mem_cons_self).release hl
    rw [add_left_comm] at hl
    have hl := LinearHeap.Meaning.Inv.forget hl
    have he' : ({.held l none} + (σ + (fieldToks (l + 1) fs + τ)) : Toks) =
        fieldToks (l + 1) fs + ({.held l none} + (σ + τ)) := by abel
    rw [he'] at hl
    obtain ⟨σs, hws, hl⟩ := ih (fun g hg => h g (List.mem_cons_of_mem _ hg)) hl
    refine ⟨σ :: σs, .cons hw hws, ?_⟩
    have he'' : holeToks l (f :: fs).length + ((σ :: σs).sum + τ) =
        holeToks (l + 1) fs.length + (σs.sum + ({.held l none} + (σ + τ))) := by
      rw [List.length_cons, holeToks, List.sum_cons]
      abel
    rw [he'']
    exact hl

end Hvm.Choice
