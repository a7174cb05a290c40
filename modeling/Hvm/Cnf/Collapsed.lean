import Hvm.Cnf.Machine
import Hvm.Linear.Machine
import Hvm.Whnf

/-! Collapsed terms: the output contract of `cnf`, and the tokens of a collapsed term,
whose cells are all held with their content, so that no later evaluation can change it. -/

namespace Hvm

open LinearHeap

/-- The roots that `cnf_at` hands to its caller at once. -/
def Tag.lifts : Tag → Bool
  | .sup | .era | .inc => true
  | _ => false

/-- `Below rt t u`: the word `u` stands at some position of the term `t`, under lambdas
and in the fields of nodes. -/
inductive Below (rt : Rt) : Term → Term → Prop
  | here (t) : Below rt t t
  | lam {t u} (ht : t.tag = .lam) (h : Below rt (heapRead rt t.val) u) : Below rt t u
  | field {t u i} (ht : t.tag.collapses = true) (hi : i < termArity t)
      (h : Below rt (heapRead rt (t.val + i)) u) : Below rt t u

/-- The output contract of `cnf`: a root SUP, ERA or INC, or none at any position. -/
def Contract (rt : Rt) (t : Term) : Prop :=
  t.tag.lifts = true ∨ ∀ u, Below rt t u → u.tag.lifts = false

/-- The weak normal forms `cnf_at` returns as they are. -/
def Tag.isCnfLeaf (tag : Tag) : Bool :=
  tag.isWhnf && tag != .lam && !tag.collapses && !tag.lifts

/-- The cells from `loc` on hold the terms `fs`, each with its own tokens. -/
def fieldToks (loc : Nat) : List (Term × Toks) → Toks
  | [] => 0
  | f :: fs => {.held loc (some (.tm f.1))} + f.2 + fieldToks (loc + 1) fs

/-- `Collapsed P t ρ`: the term `t` is collapsed down to leaves in `P`, and its cells and
leaves are the tokens `ρ`. -/
inductive Collapsed (P : Term → Prop) : Term → Toks → Prop
  | leaf {t} (hp : t.Plain) (ht : t.tag.isCnfLeaf = true) (hP : P t) : Collapsed P t (wordToks t)
  | lam {t b ρ} (hp : t.Plain) (ht : t.tag = .lam) (hb : Collapsed P b ρ) :
      Collapsed P t ({.held t.val (some (.tm b))} + ρ)
  | node {t fs} (hp : t.Plain) (ht : t.tag.collapses = true) (hw : t.tag.isWhnf = true)
      (hlen : fs.length = termArity t) (hfs : ∀ f ∈ fs, Collapsed P f.1 f.2) :
      Collapsed P t (fieldToks t.val fs)

variable {K K' : Statics} {P : Term → Prop} {rt : Rt} {t u : Term} {ρ τ : Toks}
  {fs : List (Term × Toks)} {loc : Nat}

theorem fieldToks_append (loc : Nat) (fs gs : List (Term × Toks)) :
    fieldToks loc (fs ++ gs) = fieldToks loc fs + fieldToks (loc + fs.length) gs := by
  induction fs generalizing loc with
  | nil => simp [fieldToks]
  | cons f fs ih =>
    have he : loc + (f :: fs).length = loc + 1 + fs.length := by
      rw [List.length_cons]
      omega
    rw [List.cons_append, fieldToks, fieldToks, ih, he]
    abel

theorem Tag.owns_of_collapses {tag : Tag} (h : tag.collapses = true) : tag.owns = true := by
  cases tag <;> first | rfl | cases h

/-! Positions of a collapsed term -/

theorem Linear.filled {l : Nat} {c : Cell} (hl : Linear K rt τ) (hm : Tok.held l (some c) ∈ τ) :
    rt.heap l = c := LinearHeap.Inv.held_eq hl hm

theorem mem_fieldToks (loc : Nat) {i : Nat} {f : Term × Toks} (h : fs[i]? = some f) :
    Tok.held (loc + i) (some (.tm f.1)) ∈ fieldToks loc fs ∧ f.2 ≤ fieldToks loc fs := by
  induction fs generalizing loc i with
  | nil => simp at h
  | cons g fs ih =>
    cases i with
    | zero =>
      obtain rfl : g = f := by simpa using h
      refine ⟨by simp [fieldToks], ?_⟩
      rw [fieldToks, add_right_comm]
      exact Multiset.le_add_left _ _
    | succ i =>
      obtain ⟨hm, hle⟩ := @ih (loc + 1) i (by simpa using h)
      have he : loc + (i + 1) = loc + 1 + i := by omega
      rw [fieldToks, he]
      exact ⟨Multiset.mem_add.mpr (.inr hm), hle.trans (Multiset.le_add_left _ _)⟩

/-- What stands at a position of a collapsed term: a lambda or node of the term, whose cells
are held, or one of its leaves. -/
theorem Collapsed.at_position (hl : Linear K rt τ) (h : Collapsed P t ρ) (hle : ρ ≤ τ) (hb : Below rt t u) :
    (u.tag = .lam ∧ ∃ o, .held u.val o ∈ ρ) ∨ (u.tag.collapses = true ∧ u.tag.isWhnf = true) ∨
      (u.tag.isCnfLeaf = true ∧ P u ∧ wordToks u ≤ ρ) := by
  induction h with
  | @leaf t hp ht hP =>
    simp only [Tag.isCnfLeaf, Bool.and_eq_true, bne_iff_ne, Bool.not_eq_true'] at ht
    cases hb with
    | here => exact .inr (.inr ⟨by simp [Tag.isCnfLeaf, ht], hP, le_rfl⟩)
    | lam hlam => exact (ht.1.1.2 hlam).elim
    | field hc =>
      rw [ht.1.2] at hc
      cases hc
  | @lam t b ρ hp ht _ ih =>
    cases hb with
    | here => exact .inl ⟨ht, some (.tm b), by simp⟩
    | lam _ hb =>
      have hc := hl.filled (Multiset.mem_of_le hle (by simp : Tok.held t.val (some (.tm b)) ∈ _))
      have hρ : ρ ≤ {.held t.val (some (.tm b))} + ρ := Multiset.le_add_left _ _
      rw [heapRead, hc] at hb
      rcases ih (hρ.trans hle) hb with ⟨hlam, o, ho⟩ | hnode | ⟨hleaf, hP, hw⟩
      · exact .inl ⟨hlam, o, Multiset.mem_of_le hρ ho⟩
      · exact .inr (.inl hnode)
      · exact .inr (.inr ⟨hleaf, hP, hw.trans hρ⟩)
    | field hc =>
      rw [ht] at hc
      cases hc
  | @node t fs hp ht hw hlen _ ih =>
    cases hb with
    | here => exact .inr (.inl ⟨ht, hw⟩)
    | lam hlam =>
      rw [hlam] at ht
      cases ht
    | @field _ _ i _ hi hb =>
      have hfi : fs[i]? = some fs[i] := List.getElem?_eq_getElem (by omega)
      obtain ⟨hm, hρ⟩ := mem_fieldToks t.val hfi
      have hc := hl.filled (Multiset.mem_of_le hle hm)
      rw [heapRead, hc] at hb
      rcases ih _ (List.mem_of_getElem? hfi) (hρ.trans hle) hb with ⟨hlam, o, ho⟩ | hnode |
        ⟨hleaf, hP, hw⟩
      · exact .inl ⟨hlam, o, Multiset.mem_of_le hρ ho⟩
      · exact .inr (.inl hnode)
      · exact .inr (.inr ⟨hleaf, hP, hw.trans hρ⟩)

theorem Collapsed.contract (hl : Linear K rt τ) (h : Collapsed P t ρ) (hle : ρ ≤ τ) :
    ∀ u, Below rt t u → u.tag.lifts = false := by
  intro u hb
  rcases h.at_position hl hle hb with ⟨ht, -⟩ | ⟨ht, -⟩ | ⟨ht, -⟩
  · rw [ht]
    rfl
  · cases htag : u.tag <;> rw [htag] at ht <;> first | rfl | cases ht
  · simp only [Tag.isCnfLeaf, Bool.and_eq_true, Bool.not_eq_true'] at ht
    exact ht.2

theorem Linear.loadFilled {l : Nat} (hl : Linear K rt ({.own l .term} + τ)) :
    WordOk K (heapRead rt l) ∧ rt.heap l = .tm (heapRead rt l) ∧
      Linear K rt ({.held l (some (.tm (heapRead rt l)))} + (wordToks (heapRead rt l) + τ)) := by
  obtain ⟨σ, -, hh, hl'⟩ := LinearHeap.Inv.load hl
  obtain ⟨w, hc, hw, rfl⟩ := hh.word (by simp)
  have hr : heapRead rt l = w := by
    rw [heapRead, hc]
    rfl
  rw [hr]
  have hrec := LinearHeap.Inv.record hl'
  rw [hc] at hrec
  exact ⟨hw, hc, hrec⟩

theorem Linear.filledStore {l : Nat} {w : Term} (hw : WordOk K w)
    (hl : Linear K rt ({.held l (some (.tm w))} + (wordToks w + τ))) :
    Linear K rt ({.own l .term} + τ) := by
  have hc := hl.filled (by simp : Tok.held l (some (.tm w)) ∈ _)
  have hs := hl.store hw
  rwa [heapSet, set_eq_self hc] at hs

theorem Linear.filledBind {l : Nat} {w : Term} (hw : WordOk K w)
    (hl : Linear K rt ({.held l (some (.tm w))} + (wordToks w + τ))) :
    Linear K rt ({.bind l .term} + τ) := by
  have hc := hl.filled (by simp : Tok.held l (some (.tm w)) ∈ _)
  have hn := LinearHeap.Inv.bindNew hl .term
  have he : ({.bindHeld l .term} + ({.use l .term} + (wordToks w + τ)) : Toks) =
      {.bindHeld l .term} + (wordToks w + ({.use l .term} + τ)) := by abel
  rw [he] at hn
  have hf := LinearHeap.Inv.bindFill (d := .tm w) hn hw.plain.1 ⟨hw, rfl⟩ fun _ => wordToks_not_pins
  have hself : Function.update rt.heap l (.tm w) = rt.heap := by
    rw [← hc]
    exact Function.update_eq_self l rt.heap
  rw [hself, add_left_comm] at hf
  exact LinearHeap.Inv.drop hf fun t ht => by
    rw [Multiset.mem_singleton.mp ht]
    exact id

theorem WordOk.of_leaf (hp : t.Plain) (ht : t.tag.isCnfLeaf = true) : WordOk K t := by
  refine .of_word hp ?_
  cases htag : t.tag <;> rw [htag] at ht <;> first | (cases ht; done) | exact ⟨nofun, rfl⟩

/-- Fields whose tokens are those of their words. -/
def wordFields (ts : List Term) : List (Term × Toks) := ts.map fun t => (t, wordToks t)

theorem fields_release (h : ∀ f ∈ fs, ∀ τ, Linear K rt (f.2 + τ) →
      WordOk K f.1 ∧ Linear K rt (wordToks f.1 + τ))
    (hl : Linear K rt (fieldToks loc fs + τ)) : (∀ t ∈ fs.map Prod.fst, WordOk K t) ∧
      Linear K rt (fieldToks loc (wordFields (fs.map Prod.fst)) + τ) := by
  induction fs generalizing loc τ with
  | nil => exact ⟨by simp, hl⟩
  | cons f fs ih =>
    have he : fieldToks loc (f :: fs) + τ =
        f.2 + ({.held loc (some (.tm f.1))} + (fieldToks (loc + 1) fs + τ)) := by
      rw [fieldToks]
      abel
    rw [he] at hl
    obtain ⟨hw, hl⟩ := h f (by simp) _ hl
    have he' : wordToks f.1 + ({.held loc (some (.tm f.1))} + (fieldToks (loc + 1) fs + τ)) =
        fieldToks (loc + 1) fs + ({.held loc (some (.tm f.1))} + wordToks f.1 + τ) := by abel
    rw [he'] at hl
    obtain ⟨hws, hl⟩ := ih (fun g hg => h g (by simp [hg])) hl
    refine ⟨by simpa using ⟨hw, by simpa using hws⟩, ?_⟩
    have he'' : fieldToks loc (wordFields ((f :: fs).map Prod.fst)) + τ =
        fieldToks (loc + 1) (wordFields (fs.map Prod.fst)) +
          ({.held loc (some (.tm f.1))} + wordToks f.1 + τ) := by
      simp only [wordFields, List.map_cons, fieldToks]
      abel
    rw [he'']
    exact hl

theorem wordFields_close {ts : List Term} (hts : ∀ t ∈ ts, WordOk K t)
    (hl : Linear K rt (fieldToks loc (wordFields ts) + τ)) :
    Linear K rt (cellToks loc ts.length + τ) := by
  induction ts generalizing loc τ with
  | nil => simpa [wordFields, fieldToks, cellToks] using hl
  | cons t ts ih =>
    have he : fieldToks loc (wordFields (t :: ts)) + τ =
        {.held loc (some (.tm t))} + (wordToks t + (fieldToks (loc + 1) (wordFields ts) + τ)) := by
      simp only [wordFields, List.map_cons, fieldToks]
      abel
    rw [he] at hl
    have hl := hl.filledStore (hts t (by simp))
    rw [add_left_comm] at hl
    have hl := ih (fun x hx => hts x (by simp [hx])) hl
    rw [List.length_cons, cellToks_succ, add_assoc, add_left_comm]
    exact hl

theorem wordFields_empty {ts : List Term} (hl : Linear K rt (fieldToks loc (wordFields ts) + τ)) :
    Linear K rt ((Res.holes loc ts.length).toks + ((ts.map wordToks).sum + τ)) := by
  induction ts generalizing loc τ with
  | nil => simpa [wordFields, fieldToks, Res.toks] using hl
  | cons t ts ih =>
    have he : fieldToks loc (wordFields (t :: ts)) + τ =
        {.held loc (some (.tm t))} + (wordToks t + (fieldToks (loc + 1) (wordFields ts) + τ)) := by
      simp only [wordFields, List.map_cons, fieldToks]
      abel
    rw [he] at hl
    have hl := LinearHeap.Inv.forget hl
    have he' : ({.held loc none} + (wordToks t + (fieldToks (loc + 1) (wordFields ts) + τ)) : Toks) =
        fieldToks (loc + 1) (wordFields ts) + ({.held loc none} + wordToks t + τ) := by abel
    rw [he'] at hl
    have hl := ih hl
    have he'' : (Res.holes loc (t :: ts).length).toks + (((t :: ts).map wordToks).sum + τ) =
        (Res.holes (loc + 1) ts.length).toks +
          ((ts.map wordToks).sum + ({.held loc none} + wordToks t + τ)) := by
      rw [List.length_cons, holes_succ, List.map_cons, List.sum_cons]
      abel
    rw [he'']
    exact hl

/-- The tokens of a collapsed term, seen as those of its root word again. -/
theorem Collapsed.release (h : Collapsed P t ρ) (hl : Linear K rt (ρ + τ)) :
    WordOk K t ∧ Linear K rt (wordToks t + τ) := by
  induction h generalizing τ with
  | leaf hp ht => exact ⟨.of_leaf hp ht, hl⟩
  | @lam t b ρ hp ht _ ih =>
    have he : {.held t.val (some (.tm b))} + ρ + τ =
        ρ + ({.held t.val (some (.tm b))} + τ) := by abel
    rw [he] at hl
    obtain ⟨hw, hl⟩ := ih hl
    rw [add_left_comm] at hl
    have hb : wordToks t = {.bind t.val .term} := by
      unfold wordToks
      rw [ht]
    rw [hb]
    exact ⟨.of_word hp (ht ▸ by decide), hl.filledBind hw⟩
  | @node t fs hp ht hw hlen _ ih =>
    have ho := Tag.owns_of_collapses ht
    obtain ⟨hws, hl⟩ := fields_release (fun f hf τ hl => ih f hf hl) hl
    have hc := wordFields_close hws hl
    rw [List.length_map, hlen] at hc
    rw [wordToks_of_owns ho]
    exact ⟨.of_word hp (Tag.word_of_owns ho), hc⟩

theorem fieldToks_not_pins (h : ∀ f ∈ fs, ∀ t ∈ f.2, ¬ t.Pins) : ∀ t ∈ fieldToks loc fs, ¬ t.Pins := by
  induction fs generalizing loc with
  | nil => simp [fieldToks]
  | cons f fs ih =>
    intro t ht
    rw [fieldToks] at ht
    rcases Multiset.mem_add.mp ht with hm | hm
    · rcases Multiset.mem_add.mp hm with hm | hm
      · rw [Multiset.mem_singleton.mp hm]
        exact id
      · exact h f (by simp) t hm
    · exact ih (fun g hg => h g (by simp [hg])) t hm

theorem Collapsed.not_pins (h : Collapsed P t ρ) : ∀ t ∈ ρ, ¬ t.Pins := by
  induction h with
  | leaf => exact fun _ => wordToks_not_pins
  | lam _ _ _ ih =>
    intro x hx
    rcases Multiset.mem_add.mp hx with hm | hm
    · rw [Multiset.mem_singleton.mp hm]
      exact id
    · exact ih x hm
  | node _ _ _ _ _ ih => exact fieldToks_not_pins ih

end Hvm
