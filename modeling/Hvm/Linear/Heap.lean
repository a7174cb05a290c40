import Mathlib

/-! Linear ownership of a mutable heap. A heap cell is referred to through tokens: one
owner of a plain cell, one binder and one use of a binder cell, two shares of a shared
cell. Tokens lie in a working set (the registers of a program) or inside cells. The
invariant `Inv` says that no token occurs twice and that every token fits the state of
its cell; each move below is one thing a program may do with the tokens it holds. -/

namespace LinearHeap

/-- References to a cell; `a` is what the reference claims about the content. The `held`
forms belong to a cell whose content has been taken out; a held plain cell may record
what lies in it. -/
inductive Tok (A C : Type) where
  | own (l : Nat) (a : A)
  | held (l : Nat) (o : Option C)
  | bind (l : Nat) (a : A)
  | bindHeld (l : Nat) (a : A)
  | use (l : Nat) (a : A)
  | share (l : Nat) (a : A) (right : Bool)
  | shareHeld (l : Nat) (a : A) (right : Bool)

abbrev Toks (A C : Type) := Multiset (Tok A C)

variable {A C : Type}

def Tok.loc : Tok A C → Nat
  | .own l _ | .held l _ | .bind l _ | .bindHeld l _ | .use l _
  | .share l _ _ | .shareHeld l _ _ => l

/-- Tokens that record an unfinished operation: they may be moved, not forgotten. -/
def Tok.Pins : Tok A C → Prop
  | .bindHeld _ _ | .shareHeld _ _ _ => True
  | _ => False

/-- Cells that never change again, with their content. -/
abbrev Frozen (C : Type) := Nat → Option C

def Frozen.Le (K K' : Frozen C) : Prop := ∀ l c, K l = some c → K' l = some c

theorem Frozen.Le.refl (K : Frozen C) : K.Le K := fun _ _ h => h

theorem Frozen.Le.trans {K K' K'' : Frozen C} (h : K.Le K') (h' : K'.Le K'') : K.Le K'' :=
  fun l c hc => h' l c (h l c hc)

/-- How contents are read: whether a content is marked as a substitution, and which
tokens it holds. -/
structure Discipline (A C : Type) where
  marked : C → Bool
  unmark : C → C
  Holds : Frozen C → A → C → Toks A C → Prop
  mono : ∀ {K K' a c σ}, K.Le K' → Holds K a c σ → Holds K' a c σ

/-- State of one cell, with the tokens stored in it. -/
inductive CellSt (A C : Type) where
  | free
  | owned (a : A) (σ : Toks A C)
  | held (o : Option C)
  | bound (a : A) (σ : Toks A C)
  | bodyHeld (a : A)
  | subst (a : A) (σ : Toks A C)
  | dead (a : A)
  | shared (a : A) (σ : Toks A C)
  | taken (a : A) (right : Bool)
  | fired (a : A) (right : Bool) (σ : Toks A C)

def CellSt.content : CellSt A C → Toks A C
  | .owned _ σ | .bound _ σ | .subst _ σ | .shared _ σ | .fired _ _ σ => σ
  | _ => 0

/-- The tokens a cell may be referred to by. -/
def CellSt.Fits (l : Nat) : CellSt A C → Tok A C → Prop
  | .free, _ => False
  | .owned a _, t => t = .own l a
  | .held o, t => t = .held l o
  | .bound a _, t => t = .bind l a ∨ t = .use l a
  | .bodyHeld a, t => t = .bindHeld l a ∨ t = .use l a
  | .subst a _, t => t = .use l a
  | .dead a, t => t = .use l a
  | .shared a _, t => t = .share l a false ∨ t = .share l a true
  | .taken a r, t => t = .shareHeld l a r ∨ t = .share l a (!r)
  | .fired a r _, t => t = .share l a r

/-- What the shares of a cell claim. -/
def CellSt.label : CellSt A C → Option A
  | .shared a _ | .taken a _ | .fired a _ _ => some a
  | _ => none

/-- The content of a cell is what its state says. -/
def CellSt.Ok (D : Discipline A C) (K : Frozen C) (c : C) : CellSt A C → Prop
  | .free => True
  | .owned a σ => D.marked c = false ∧ D.Holds K a c σ
  | .held o => o = none ∨ o = some c
  | .bound a σ => D.marked c = false ∧ D.Holds K a c σ
  | .bodyHeld _ => True
  | .subst a σ => D.marked c = true ∧ D.Holds K a (D.unmark c) σ
  | .dead _ => D.marked c = false
  | .shared a σ => D.marked c = false ∧ D.Holds K a c σ
  | .taken _ _ => True
  | .fired a _ σ => D.marked c = true ∧ D.Holds K a (D.unmark c) σ

/-- The token that must be in the working set as long as the cell is in this state. -/
def CellSt.pin (l : Nat) : CellSt A C → Option (Tok A C)
  | .bodyHeld a => some (.bindHeld l a)
  | .taken a r => some (.shareHeld l a r)
  | _ => none

theorem CellSt.Ok.mono {D : Discipline A C} {K K' : Frozen C} {c : C} {s : CellSt A C}
    (hK : K.Le K') (h : s.Ok D K c) : s.Ok D K' c := by
  cases s <;> first | exact h | exact ⟨h.1, D.mono hK h.2⟩

theorem CellSt.Fits.loc {l : Nat} {s : CellSt A C} {t : Tok A C} (h : s.Fits l t) : t.loc = l := by
  cases s <;> simp only [CellSt.Fits] at h <;> first
    | exact h.elim
    | (rcases h with rfl | rfl <;> rfl)

theorem CellSt.Fits.label {l : Nat} {s : CellSt A C} {t : Tok A C} {a : A} {r : Bool}
    (h : s.Fits l t) (ht : t = .share l a r ∨ t = .shareHeld l a r) : s.label = some a := by
  cases s <;> rcases ht with rfl | rfl <;> simp [CellSt.Fits] at h <;> simp [CellSt.label] <;>
    first
      | exact h.1.symm
      | exact (h.elim And.left And.left).symm

/-- All tokens: the working set and the contents of the allocated cells. -/
def total (n : Nat) (st : Nat → CellSt A C) (τ : Toks A C) : Toks A C :=
  τ + ∑ l ∈ Finset.range n, (st l).content

structure InvSt (D : Discipline A C) (K : Frozen C) (h : Nat → C) (n : Nat)
    (st : Nat → CellSt A C) (τ : Toks A C) : Prop where
  nodup : (total n st τ).Nodup
  fits : ∀ t ∈ total n st τ, (st t.loc).Fits t.loc t
  ok : ∀ l, (st l).Ok D K (h l)
  fresh : ∀ l, n ≤ l → st l = .free
  frozen : ∀ l c, K l = some c → st l = .free ∧ h l = c ∧ l < n
  pinned : ∀ l t, (st l).pin l = some t → t ∈ τ

/-- The linear ownership invariant: some assignment of states to the cells explains
the tokens of the working set `τ`. -/
def Inv (D : Discipline A C) (K : Frozen C) (h : Nat → C) (n : Nat) (τ : Toks A C) : Prop :=
  ∃ st, InvSt D K h n st τ

variable {D : Discipline A C} {K : Frozen C} {h : Nat → C} {n : Nat}
  {st : Nat → CellSt A C} {τ τ' σ : Toks A C} {l : Nat} {a b : A} {c : C} {o : Option C}

/-- The contents of all cells but `l`. -/
def rest (n l : Nat) (st : Nat → CellSt A C) : Toks A C :=
  ∑ x ∈ (Finset.range n).erase l, (st x).content

theorem total_eq_rest (hl : l < n) : total n st τ = τ + (st l).content + rest n l st := by
  have hh := Finset.add_sum_erase (Finset.range n) (fun x => (st x).content)
    (Finset.mem_range.mpr hl)
  rw [total, rest, add_assoc, hh]

theorem rest_update (s : CellSt A C) :
    rest n l (Function.update st l s) = rest n l st := by
  refine Finset.sum_congr rfl fun x hx => ?_
  rw [Function.update_of_ne (Finset.ne_of_mem_erase hx)]

theorem InvSt.fits_of_mem (hI : InvSt D K h n st τ) {t : Tok A C} (ht : t ∈ τ) :
    (st t.loc).Fits t.loc t :=
  hI.fits t (Multiset.mem_add.mpr (.inl ht))

theorem InvSt.lt_of_ne_free (hI : InvSt D K h n st τ) (hs : st l ≠ .free) : l < n := by
  by_contra hn
  exact hs (hI.fresh l (by omega))

theorem InvSt.unfrozen (hI : InvSt D K h n st τ) (hs : st l ≠ .free) : K l = none := by
  cases hK : K l with
  | none => rfl
  | some c => exact (hs (hI.frozen l c hK).1).elim

/-- One cell changes its state. The tokens `G` for this cell are given up, the tokens
`P` for it are produced, every other token is kept or dropped. -/
theorem InvSt.update (hI : InvSt D K h n st τ) (hs : st l ≠ .free) (s' : CellSt A C)
    {h' : Nat → C} (G U P : Toks A C)
    (hold : τ + (st l).content = G + U) (hnew : τ' + s'.content ≤ U + P)
    (hP : P.Nodup) (hPfits : ∀ t ∈ P, s'.Fits l t)
    (hkeep : ∀ t, (st l).Fits l t → t ∉ G → s'.Fits l t ∧ t ∉ P)
    (hoff : ∀ x, x ≠ l → h' x = h x) (hok : s'.Ok D K (h' l))
    (hpins : ∀ t, t.Pins → t.loc ≠ l → t ∈ τ → t ∈ τ')
    (hpin : ∀ t, s'.pin l = some t → t ∈ τ') :
    InvSt D K h' n (Function.update st l s') τ' := by
  have hl := hI.lt_of_ne_free hs
  have hM : total n st τ = G + (U + rest n l st) := by
    rw [total_eq_rest hl, hold, add_assoc]
  have hle : total n (Function.update st l s') τ' ≤ (U + rest n l st) + P := by
    rw [total_eq_rest hl, rest_update, Function.update_self]
    calc τ' + s'.content + rest n l st ≤ U + P + rest n l st := by gcongr
      _ = U + rest n l st + P := by abel
  have hnd := hI.nodup
  rw [hM, Multiset.nodup_add] at hnd
  obtain ⟨-, hU, hdis⟩ := hnd
  have hold' : ∀ t ∈ U + rest n l st, t.loc = l → s'.Fits l t ∧ t ∉ P := by
    intro t ht htl
    have hf := hI.fits t (by rw [hM]; exact Multiset.mem_add.mpr (.inr ht))
    rw [htl] at hf
    exact hkeep t hf fun hG => Multiset.disjoint_left.mp hdis hG ht
  have hall : ((U + rest n l st) + P).Nodup := by
    rw [Multiset.nodup_add]
    refine ⟨hU, hP, Multiset.disjoint_left.mpr ?_⟩
    intro t ht htP
    exact (hold' t ht (hPfits t htP).loc).2 htP
  refine ⟨Multiset.nodup_of_le hle hall, ?_, ?_, ?_, ?_, ?_⟩
  · intro t ht
    rcases Multiset.mem_add.mp (Multiset.mem_of_le hle ht) with hm | hm
    · by_cases htl : t.loc = l
      · rw [htl, Function.update_self]
        exact (hold' t hm htl).1
      · rw [Function.update_of_ne htl]
        exact hI.fits t (by rw [hM]; exact Multiset.mem_add.mpr (.inr hm))
    · have hf := hPfits t hm
      rw [hf.loc, Function.update_self]
      exact hf
  · intro x
    by_cases hx : x = l
    · subst hx
      rw [Function.update_self]
      exact hok
    · rw [Function.update_of_ne hx, hoff x hx]
      exact hI.ok x
  · intro x hx
    rw [Function.update_of_ne (by omega)]
    exact hI.fresh x hx
  · intro x k hk
    obtain ⟨hf, hc, hlt⟩ := hI.frozen x k hk
    have hx : x ≠ l := fun he => hs (he ▸ hf)
    rw [Function.update_of_ne hx, hoff x hx]
    exact ⟨hf, hc, hlt⟩
  · intro x t hx
    by_cases he : x = l
    · subst he
      rw [Function.update_self] at hx
      exact hpin t hx
    · rw [Function.update_of_ne he] at hx
      have ht := hI.pinned x t hx
      have hloc : t.loc = x ∧ t.Pins := by
        cases hs : st x <;> simp [hs, CellSt.pin] at hx <;> (subst hx; exact ⟨rfl, trivial⟩)
      exact hpins t hloc.2 (by rw [hloc.1]; exact he) ht

/-! Moves on the working set as a whole -/

/-- Tokens may be forgotten, unless they pin a cell. -/
theorem Inv.drop (hI : Inv D K h n (σ + τ)) (hσ : ∀ t ∈ σ, ¬ t.Pins) : Inv D K h n τ := by
  obtain ⟨st, hI⟩ := hI
  have hle : total n st τ ≤ total n st (σ + τ) := by
    unfold total
    gcongr
    exact Multiset.le_add_left τ σ
  refine ⟨st, Multiset.nodup_of_le hle hI.nodup, fun t ht => hI.fits t (Multiset.mem_of_le hle ht),
    hI.ok, hI.fresh, hI.frozen, fun x t hx => ?_⟩
  rcases Multiset.mem_add.mp (hI.pinned x t hx) with hm | hm
  · refine (hσ _ hm ?_).elim
    cases hs : st x <;> simp [hs, CellSt.pin] at hx <;> (subst hx; trivial)
  · exact hm

/-- A fresh cell is handed out. -/
theorem Inv.alloc (hI : Inv D K h n τ) : Inv D K h (n + 1) ({.held n none} + τ) := by
  obtain ⟨st, hI⟩ := hI
  have hfree := hI.fresh n le_rfl
  have htot : total (n + 1) (Function.update st n (.held none)) ({.held n none} + τ) =
      {.held n none} + total n st τ := by
    have hs : ∑ x ∈ Finset.range n, (Function.update st n (CellSt.held none) x).content =
        ∑ x ∈ Finset.range n, (st x).content := by
      refine Finset.sum_congr rfl fun x hx => ?_
      rw [Function.update_of_ne (Finset.mem_range.mp hx).ne]
    have hz : (CellSt.held none : CellSt A C).content = 0 := rfl
    rw [total, total, Finset.sum_range_succ, hs, Function.update_self, hz]
    abel
  have hloc : ∀ t ∈ total n st τ, t.loc ≠ n := by
    intro t ht he
    have hf := hI.fits t ht
    rw [he, hfree] at hf
    exact hf
  refine ⟨Function.update st n (.held none), ?_, ?_, ?_, ?_, ?_, ?_⟩
  · rw [htot, Multiset.singleton_add, Multiset.nodup_cons]
    exact ⟨fun hm => hloc _ hm rfl, hI.nodup⟩
  · intro t ht
    rw [htot, Multiset.singleton_add, Multiset.mem_cons] at ht
    rcases ht with rfl | ht
    · simp [Tok.loc, CellSt.Fits]
    · rw [Function.update_of_ne (hloc t ht)]
      exact hI.fits t ht
  · intro x
    by_cases hx : x = n
    · subst hx
      rw [Function.update_self]
      exact .inl rfl
    · rw [Function.update_of_ne hx]
      exact hI.ok x
  · intro x hx
    rw [Function.update_of_ne (by omega)]
    exact hI.fresh x (by omega)
  · intro x k hk
    obtain ⟨hf, hc, hlt⟩ := hI.frozen x k hk
    rw [Function.update_of_ne hlt.ne]
    exact ⟨hf, hc, by omega⟩
  · intro x t hx
    have hxn : x ≠ n := by
      rintro rfl
      simp [CellSt.pin] at hx
    rw [Function.update_of_ne hxn] at hx
    exact Multiset.mem_add.mpr (.inr (hI.pinned x t hx))

/-! Plain cells -/

theorem InvSt.owned_of_mem (hI : InvSt D K h n st τ) (hm : Tok.own l a ∈ τ) :
    ∃ σ, st l = .owned a σ := by
  have hf := hI.fits_of_mem hm
  simp only [Tok.loc] at hf
  cases hs : st l <;> simp [hs, CellSt.Fits] at hf
  exact ⟨_, by rw [hf]⟩

theorem InvSt.held_of_mem (hI : InvSt D K h n st τ) (hm : Tok.held l o ∈ τ) :
    st l = .held o := by
  have hf := hI.fits_of_mem hm
  simp only [Tok.loc] at hf
  cases hs : st l <;> simp [hs, CellSt.Fits] at hf
  rw [hf]

/-- A held cell contains what its token says. -/
theorem Inv.held_eq (hI : Inv D K h n τ) (hm : Tok.held l (some c) ∈ τ) : h l = c := by
  obtain ⟨st, hI⟩ := hI
  have hok := hI.ok l
  rw [hI.held_of_mem hm] at hok
  simpa [CellSt.Ok, eq_comm] using hok

/-- The token `g` of a cell is exchanged for others of that cell. -/
theorem InvSt.exchange (hI : InvSt D K h n st τ) {g : Tok A C} {P : Toks A C} (s' : CellSt A C)
    {h' : Nat → C} (hold : τ + (st l).content = {g} + (τ' + s'.content)) (hgl : g.loc = l)
    (hs : st l ≠ .free) (hkeep : ∀ t, (st l).Fits l t → t = g ∨ s'.Fits l t ∧ t ∉ P)
    (hP : P.Nodup) (hPfits : ∀ t ∈ P, s'.Fits l t)
    (hoff : ∀ x, x ≠ l → h' x = h x) (hok : s'.Ok D K (h' l))
    (hσ : ∀ t ∈ s'.content, ¬ t.Pins) (hpin : ∀ t, s'.pin l = some t → t ∈ P) :
    InvSt D K h' n (Function.update st l s') (P + τ') := by
  refine hI.update hs s' {g} (τ' + s'.content) P hold (le_of_eq (by abel)) hP hPfits ?_ hoff hok ?_
    fun t ht => Multiset.mem_add.mpr (.inl (hpin t ht))
  · intro t ht hG
    rcases hkeep t ht with he | hh
    · exact (hG (by simpa using he)).elim
    · exact hh
  · intro t ht htl hm
    have hm' : t ∈ {g} + (τ' + s'.content) := hold ▸ Multiset.mem_add.mpr (.inl hm)
    simp only [Multiset.singleton_add, Multiset.mem_cons, Multiset.mem_add] at hm' ⊢
    rcases hm' with rfl | hm' | hm'
    · exact (htl hgl).elim
    · exact .inr hm'
    · exact (hσ t hm' ht).elim

/-- The content of an owned cell is taken out. -/
theorem Inv.load (hI : Inv D K h n ({.own l a} + τ)) :
    ∃ σ, D.marked (h l) = false ∧ D.Holds K a (h l) σ ∧
      Inv D K h n ({.held l none} + (σ + τ)) := by
  obtain ⟨st, hI⟩ := hI
  obtain ⟨σ, hs⟩ := hI.owned_of_mem (a := a) (l := l) (by simp)
  have hok := hI.ok l
  rw [hs] at hok
  refine ⟨σ, hok.1, hok.2, _, hI.exchange (l := l) (g := .own l a) (.held none) ?_ rfl (by simp [hs])
    (by simp [hs, CellSt.Fits]) (by simp) (by simp [CellSt.Fits]) (fun _ _ => rfl) (.inl rfl)
    (by simp [CellSt.content]) (by simp [CellSt.pin])⟩
  simp only [hs, CellSt.content]
  abel

/-- A held cell is filled and owned again. -/
theorem Inv.store (hI : Inv D K h n ({.held l o} + (σ + τ))) (a : A) {c' : C}
    (hmark : D.marked c' = false) (hσ : D.Holds K a c' σ) (hns : ∀ t ∈ σ, ¬ t.Pins) :
    Inv D K (Function.update h l c') n ({.own l a} + τ) := by
  obtain ⟨st, hI⟩ := hI
  have hs := hI.held_of_mem (o := o) (l := l) (by simp)
  refine ⟨_, hI.exchange (l := l) (g := .held l o) (.owned a σ) ?_ rfl (by simp [hs])
    (by simp [hs, CellSt.Fits]) (by simp) (by simp [CellSt.Fits])
    (fun x hx => Function.update_of_ne hx _ _) ?_ hns (by simp [CellSt.pin])⟩
  · simp only [hs, CellSt.content]
    abel
  · rw [Function.update_self]
    exact ⟨hmark, hσ⟩

/-- A held cell is overwritten and stays held. -/
theorem Inv.write (hI : Inv D K h n ({.held l o} + τ)) (c' : C) :
    Inv D K (Function.update h l c') n ({.held l (some c')} + τ) := by
  obtain ⟨st, hI⟩ := hI
  have hs := hI.held_of_mem (o := o) (l := l) (by simp)
  refine ⟨_, hI.exchange (l := l) (g := .held l o) (.held (some c')) ?_ rfl (by simp [hs])
    (by simp [hs, CellSt.Fits]) (by simp) (by simp [CellSt.Fits])
    (fun x hx => Function.update_of_ne hx _ _) ?_ (by simp [CellSt.content]) (by simp [CellSt.pin])⟩
  · simp only [hs, CellSt.content]
    abel
  · rw [Function.update_self]
    exact .inr rfl

/-- What lies in a held cell may be recorded. -/
theorem Inv.record (hI : Inv D K h n ({.held l o} + τ)) : Inv D K h n ({.held l (some (h l))} + τ) := by
  have hw := hI.write (h l)
  rwa [Function.update_eq_self] at hw

/-- The record of what lies in a held cell may be forgotten. -/
theorem Inv.forget (hI : Inv D K h n ({.held l o} + τ)) : Inv D K h n ({.held l none} + τ) := by
  obtain ⟨st, hI⟩ := hI
  have hs := hI.held_of_mem (o := o) (l := l) (by simp)
  refine ⟨_, hI.exchange (l := l) (g := .held l o) (.held none) ?_ rfl (by simp [hs])
    (by simp [hs, CellSt.Fits]) (by simp) (by simp [CellSt.Fits]) (fun _ _ => rfl) ?_
    (by simp [CellSt.content]) (by simp [CellSt.pin])⟩
  · simp only [hs, CellSt.content]
    abel
  · exact .inl rfl

/-- A held cell is given up for good and its content frozen. -/
theorem Inv.freeze (hI : Inv D K h n ({.held l (some c)} + τ)) :
    Inv D (Function.update K l (some c)) h n τ ∧ K.Le (Function.update K l (some c)) := by
  have hlc := hI.held_eq (c := c) (l := l) (by simp)
  obtain ⟨st, hI⟩ := hI
  have hs := hI.held_of_mem (o := some c) (l := l) (by simp)
  have hne : st l ≠ .free := by simp [hs]
  have hK := hI.unfrozen hne
  have hle : K.Le (Function.update K l (some c)) := by
    intro x k hk
    have hx : x ≠ l := by
      rintro rfl
      simp [hK] at hk
    rw [Function.update_of_ne hx]
    exact hk
  have hI' : InvSt D K h n (Function.update st l .free) (0 + τ) :=
    hI.exchange (l := l) (g := .held l (some c)) .free
      (by simp [hs, CellSt.content]) rfl hne (by simp [hs, CellSt.Fits]) (by simp) (by simp)
      (fun _ _ => rfl) trivial (by simp [CellSt.content]) (by simp [CellSt.pin])
  rw [zero_add] at hI'
  refine ⟨⟨_, hI'.nodup, hI'.fits, fun x => (hI'.ok x).mono hle, hI'.fresh, ?_, hI'.pinned⟩, hle⟩
  intro x k hk
  by_cases hx : x = l
  · subst hx
    rw [Function.update_self] at hk
    exact ⟨by simp, hlc.trans (Option.some.inj hk), hI.lt_of_ne_free hne⟩
  · rw [Function.update_of_ne hx] at hk
    exact hI'.frozen x k hk

/-! Binder cells -/

theorem InvSt.bindHeld_of_mem (hI : InvSt D K h n st τ) (hm : Tok.bindHeld l a ∈ τ) :
    st l = .bodyHeld a := by
  have hf := hI.fits_of_mem hm
  simp only [Tok.loc] at hf
  cases hs : st l <;> simp [hs, CellSt.Fits] at hf
  rw [hf]

/-- A held cell becomes a binder, still without its body. -/
theorem Inv.bindNew (hI : Inv D K h n ({.held l o} + τ)) (a : A) :
    Inv D K h n ({.bindHeld l a} + ({.use l a} + τ)) := by
  obtain ⟨st, hI⟩ := hI
  have hs := hI.held_of_mem (o := o) (l := l) (by simp)
  rw [← add_assoc]
  refine ⟨_, hI.exchange (l := l) (g := .held l o) (.bodyHeld a) ?_ rfl (by simp [hs])
    (by simp [hs, CellSt.Fits]) (by simp) (by simp [CellSt.Fits]) (fun _ _ => rfl) trivial
    (by simp [CellSt.content]) (by simp [CellSt.pin])⟩
  simp only [hs, CellSt.content]
  abel

/-- The body of a binder is put in place. -/
theorem Inv.bindFill (hI : Inv D K h n ({.bindHeld l a} + (σ + τ))) {d : C}
    (hmark : D.marked d = false) (hσ : D.Holds K a d σ) (hns : ∀ t ∈ σ, ¬ t.Pins) :
    Inv D K (Function.update h l d) n ({.bind l a} + τ) := by
  obtain ⟨st, hI⟩ := hI
  have hs := hI.bindHeld_of_mem (a := a) (l := l) (by simp)
  refine ⟨_, hI.exchange (l := l) (g := .bindHeld l a) (.bound a σ) ?_ rfl (by simp [hs])
    (by simp [hs, CellSt.Fits]) (by simp) (by simp [CellSt.Fits])
    (fun x hx => Function.update_of_ne hx _ _) ?_ hns (by simp [CellSt.pin])⟩
  · simp only [hs, CellSt.content]
    abel
  · rw [Function.update_self]
    exact ⟨hmark, hσ⟩

/-- The body of a binder is taken out. -/
theorem Inv.bindLoad (hI : Inv D K h n ({.bind l a} + τ)) :
    ∃ σ, D.marked (h l) = false ∧ D.Holds K a (h l) σ ∧
      Inv D K h n ({.bindHeld l a} + (σ + τ)) := by
  obtain ⟨st, hI⟩ := hI
  obtain ⟨σ, hs⟩ : ∃ σ, st l = .bound a σ := by
    have hf := hI.fits_of_mem (t := .bind l a) (by simp)
    simp only [Tok.loc] at hf
    cases hs : st l <;> simp [hs, CellSt.Fits] at hf
    exact ⟨_, by rw [hf]⟩
  have hok := hI.ok l
  rw [hs] at hok
  refine ⟨σ, hok.1, hok.2, _, hI.exchange (l := l) (g := .bind l a) (.bodyHeld a) ?_ rfl (by simp [hs])
    (by simp [hs, CellSt.Fits]) (by simp) (by simp [CellSt.Fits]) (fun _ _ => rfl) trivial
    (by simp [CellSt.content]) (by simp [CellSt.pin])⟩
  simp only [hs, CellSt.content]
  abel

/-- A binder whose body is out gets the substitution for its use. -/
theorem Inv.bindSubst (hI : Inv D K h n ({.bindHeld l a} + (σ + τ))) {c' : C}
    (hmark : D.marked c' = true) (hσ : D.Holds K a (D.unmark c') σ) (hns : ∀ t ∈ σ, ¬ t.Pins) :
    Inv D K (Function.update h l c') n τ := by
  obtain ⟨st, hI⟩ := hI
  have hs := hI.bindHeld_of_mem (a := a) (l := l) (by simp)
  rw [← zero_add τ]
  refine ⟨_, hI.exchange (l := l) (g := .bindHeld l a) (.subst a σ) ?_ rfl (by simp [hs])
    (by simp [hs, CellSt.Fits]) (by simp) (by simp)
    (fun x hx => Function.update_of_ne hx _ _) ?_ hns (by simp [CellSt.pin])⟩
  · simp only [hs, CellSt.content]
    abel
  · rw [Function.update_self]
    exact ⟨hmark, hσ⟩

/-- A binder whose body is out is given up; its cell keeps an unmarked content. -/
theorem Inv.bindDie (hI : Inv D K h n ({.bindHeld l a} + τ)) (hmark : D.marked (h l) = false) :
    Inv D K h n τ := by
  obtain ⟨st, hI⟩ := hI
  have hs := hI.bindHeld_of_mem (a := a) (l := l) (by simp)
  rw [← zero_add τ]
  refine ⟨_, hI.exchange (l := l) (g := .bindHeld l a) (.dead a) ?_ rfl (by simp [hs])
    (by simp [hs, CellSt.Fits]) (by simp) (by simp) (fun _ _ => rfl) hmark
    (by simp [CellSt.content]) (by simp [CellSt.pin])⟩
  simp only [hs, CellSt.content]
  abel

/-- A use either takes the substitution of its binder, or finds none. -/
theorem Inv.use (hI : Inv D K h n ({.use l a} + τ)) (hb : ∀ a, Tok.bindHeld l a ∉ τ) :
    (D.marked (h l) = true ∧ ∃ σ, D.Holds K a (D.unmark (h l)) σ ∧ Inv D K h n (σ + τ)) ∨
      D.marked (h l) = false := by
  obtain ⟨st, hI⟩ := hI
  have hf := hI.fits_of_mem (t := .use l a) (by simp)
  simp only [Tok.loc] at hf
  have hok := hI.ok l
  cases hs : st l with
  | subst b σ =>
    rw [hs] at hf hok
    have hab : b = a := by simpa [CellSt.Fits, eq_comm] using hf
    subst hab
    refine .inl ⟨hok.1, σ, hok.2, ?_⟩
    rw [← zero_add (σ + τ)]
    refine ⟨_, hI.exchange (l := l) (g := .use l b) .free ?_ rfl (by simp [hs]) (by simp [hs, CellSt.Fits])
      (by simp) (by simp) (fun _ _ => rfl) trivial (by simp [CellSt.content]) (by simp [CellSt.pin])⟩
    simp only [hs, CellSt.content]
    abel
  | bound b σ =>
    rw [hs] at hok
    exact .inr hok.1
  | dead b =>
    rw [hs] at hok
    exact .inr hok
  | bodyHeld b =>
    have hm := hI.pinned l (.bindHeld l b) (by simp [hs, CellSt.pin])
    simp at hm
    exact (hb b hm).elim
  | _ => simp [hs, CellSt.Fits] at hf

/-! Shared cells -/

/-- An owned cell is shared in place. -/
theorem Inv.share (hI : Inv D K h n ({.own l a} + τ)) (b : A)
    (hab : ∀ c σ, D.Holds K a c σ → D.Holds K b c σ ∧ ∀ t ∈ σ, ¬ t.Pins) :
    Inv D K h n ({.share l b false} + ({.share l b true} + τ)) := by
  obtain ⟨st, hI⟩ := hI
  obtain ⟨σ, hs⟩ := hI.owned_of_mem (a := a) (l := l) (by simp)
  have hok := hI.ok l
  rw [hs] at hok
  rw [← add_assoc]
  refine ⟨_, hI.exchange (l := l) (g := .own l a) (.shared b σ) ?_ rfl (by simp [hs])
    (by simp [hs, CellSt.Fits]) (by simp) (by simp [CellSt.Fits]) (fun _ _ => rfl)
    ⟨hok.1, (hab _ _ hok.2).1⟩ (hab _ _ hok.2).2 (by simp [CellSt.pin])⟩
  simp only [hs, CellSt.content]
  abel

/-- A share takes the result its twin has left, or else the shared content, which is then
out until the share puts something back. -/
theorem Inv.takeShare {r : Bool} (hI : Inv D K h n ({.share l a r} + τ))
    (hn : ∀ a r, Tok.shareHeld l a r ∉ τ) :
    (D.marked (h l) = true ∧ ∃ σ, D.Holds K a (D.unmark (h l)) σ ∧ Inv D K h n (σ + τ)) ∨
      (D.marked (h l) = false ∧
        ∃ σ, D.Holds K a (h l) σ ∧ Inv D K h n ({.shareHeld l a r} + (σ + τ))) := by
  obtain ⟨st, hI⟩ := hI
  have hf := hI.fits_of_mem (t := .share l a r) (by simp)
  simp only [Tok.loc] at hf
  have hok := hI.ok l
  cases hs : st l with
  | fired b r' σ =>
    rw [hs] at hf hok
    obtain ⟨rfl, rfl⟩ : a = b ∧ r = r' := by simpa [CellSt.Fits] using hf
    refine .inl ⟨hok.1, σ, hok.2, ?_⟩
    rw [← zero_add (σ + τ)]
    refine ⟨_, hI.exchange (l := l) (g := .share l a r) .free ?_ rfl (by simp [hs])
      (by simp [hs, CellSt.Fits]) (by simp) (by simp) (fun _ _ => rfl) trivial
      (by simp [CellSt.content]) (by simp [CellSt.pin])⟩
    simp only [hs, CellSt.content]
    abel
  | shared b σ =>
    rw [hs] at hf hok
    have hab : a = b := by
      rcases hf with hf | hf
      · exact (by simpa using hf : a = b ∧ _).1
      · exact (by simpa using hf : a = b ∧ _).1
    subst hab
    refine .inr ⟨hok.1, σ, hok.2, ?_⟩
    refine ⟨_, hI.exchange (l := l) (g := .share l a r) (.taken a r) ?_ rfl (by simp [hs]) ?_ (by simp)
      (by simp [CellSt.Fits]) (fun _ _ => rfl) trivial (by simp [CellSt.content])
      (by simp [CellSt.pin])⟩
    · simp only [hs, CellSt.content]
      abel
    · intro t ht
      rw [hs] at ht
      cases r <;> rcases ht with rfl | rfl <;> simp [CellSt.Fits]
  | taken b r' =>
    have hm := hI.pinned l (.shareHeld l b r') (by simp [hs, CellSt.pin])
    simp at hm
    exact (hn b r' hm).elim
  | _ => simp [hs, CellSt.Fits] at hf

theorem InvSt.taken_of_mem {r : Bool} (hI : InvSt D K h n st τ) (hm : Tok.shareHeld l a r ∈ τ) :
    st l = .taken a r := by
  have hf := hI.fits_of_mem hm
  simp only [Tok.loc] at hf
  cases hs : st l <;> simp [hs, CellSt.Fits] at hf
  obtain ⟨rfl, rfl⟩ := hf
  rfl

/-- The result for the twin is left in the cell of a taken share. -/
theorem Inv.fireShare {r : Bool} (hI : Inv D K h n ({.shareHeld l a r} + (σ + τ))) {c' : C}
    (hmark : D.marked c' = true) (hσ : D.Holds K a (D.unmark c') σ) (hns : ∀ t ∈ σ, ¬ t.Pins) :
    Inv D K (Function.update h l c') n τ := by
  obtain ⟨st, hI⟩ := hI
  have hs := hI.taken_of_mem (l := l) (a := a) (r := r) (by simp)
  rw [← zero_add τ]
  refine ⟨_, hI.exchange (l := l) (g := .shareHeld l a r) (.fired a (!r) σ) ?_ rfl (by simp [hs])
    (by simp [hs, CellSt.Fits]) (by simp) (by simp) (fun x hx => Function.update_of_ne hx _ _) ?_ hns
    (by simp [CellSt.pin])⟩
  · simp only [hs, CellSt.content]
    abel
  · rw [Function.update_self]
    exact ⟨hmark, hσ⟩

/-- A taken share puts a content back. -/
theorem Inv.putBack {r : Bool} (hI : Inv D K h n ({.shareHeld l a r} + (σ + τ))) {c' : C}
    (hmark : D.marked c' = false) (hσ : D.Holds K a c' σ) (hns : ∀ t ∈ σ, ¬ t.Pins) :
    Inv D K (Function.update h l c') n ({.share l a r} + τ) := by
  obtain ⟨st, hI⟩ := hI
  have hs := hI.taken_of_mem (l := l) (a := a) (r := r) (by simp)
  refine ⟨_, hI.exchange (l := l) (g := .shareHeld l a r) (.shared a σ) ?_ rfl (by simp [hs]) ?_ (by simp)
    (by cases r <;> simp [CellSt.Fits]) (fun x hx => Function.update_of_ne hx _ _) ?_ hns
    (by simp [CellSt.pin])⟩
  · simp only [hs, CellSt.content]
    abel
  · intro t ht
    rw [hs] at ht
    cases r <;> rcases ht with rfl | rfl <;> simp [CellSt.Fits]
  · rw [Function.update_self]
    exact ⟨hmark, hσ⟩

end LinearHeap
