import Hvm.Linear.Heap

/-! Linear heaps whose shared cells say more: what the content of a shared cell means, and
what the result left for one of its two sides means. The discipline of the heap knows no
sides, so these meanings are a condition on the cells beside it. -/

namespace LinearHeap

variable {A C : Type}

/-- What a shared cell under the claim `a` holds, and what is left in it for one side. -/
structure Meaning (D : Discipline A C) where
  Shared : Frozen C → A → C → Toks A C → Prop
  Left : Frozen C → A → Bool → C → Toks A C → Prop
  shared_mono : ∀ {K K' a c σ}, K.Le K' → Shared K a c σ → Shared K' a c σ
  left_mono : ∀ {K K' a r c σ}, K.Le K' → Left K a r c σ → Left K' a r c σ
  shared_holds : ∀ {K a c σ}, Shared K a c σ → D.Holds K a c σ
  left_holds : ∀ {K a r c σ}, Left K a r c σ → D.Holds K a c σ

variable {D : Discipline A C} {M : Meaning D} {K K' : Frozen C} {h : Nat → C} {n : Nat}
  {st : Nat → CellSt A C} {τ τ' σ : Toks A C} {l : Nat} {a b : A} {c c' : C} {o : Option C}
  {r : Bool}

namespace Meaning

def Fits (M : Meaning D) (K : Frozen C) (c : C) : CellSt A C → Prop
  | .shared a σ => M.Shared K a c σ
  | .fired a r σ => M.Left K a r (D.unmark c) σ
  | _ => True

theorem Fits.mono {s : CellSt A C} (hK : K.Le K') (hs : M.Fits K c s) : M.Fits K' c s := by
  cases s <;> first
    | trivial
    | exact M.shared_mono hK hs
    | exact M.left_mono hK hs

/-- The linear ownership invariant, with what the shared cells mean. -/
def Inv (M : Meaning D) (K : Frozen C) (h : Nat → C) (n : Nat) (τ : Toks A C) : Prop :=
  ∃ st, InvSt D K h n st τ ∧ ∀ l, M.Fits K (h l) (st l)

/-- The state of one cell changes, and what it means with it. -/
theorem fits_update {h' : Nat → C} (hM : ∀ l, M.Fits K (h l) (st l)) {s : CellSt A C}
    (hoff : ∀ x, x ≠ l → h' x = h x) (hs : M.Fits K (h' l) s) :
    ∀ x, M.Fits K (h' x) (Function.update st l s x) := by
  intro x
  by_cases hx : x = l
  · rw [hx, Function.update_self]
    exact hs
  · rw [Function.update_of_ne hx, hoff x hx]
    exact hM x

namespace Inv

theorem plain (hI : M.Inv K h n τ) : LinearHeap.Inv D K h n τ := by
  obtain ⟨st, hI, -⟩ := hI
  exact ⟨st, hI⟩

/-- Tokens may be forgotten, unless they pin a cell. -/
theorem drop (hI : M.Inv K h n (σ + τ)) (hσ : ∀ t ∈ σ, ¬ t.Pins) : M.Inv K h n τ := by
  obtain ⟨st, hI, hM⟩ := hI
  have hle : total n st τ ≤ total n st (σ + τ) := by
    unfold total
    gcongr
    exact Multiset.le_add_left τ σ
  refine ⟨st, ⟨Multiset.nodup_of_le hle hI.nodup, fun t ht => hI.fits t (Multiset.mem_of_le hle ht),
    hI.ok, hI.fresh, hI.frozen, fun x t hx => ?_⟩, hM⟩
  rcases Multiset.mem_add.mp (hI.pinned x t hx) with hm | hm
  · refine (hσ _ hm ?_).elim
    cases hs : st x <;> simp [hs, CellSt.pin] at hx <;> (subst hx; trivial)
  · exact hm

/-- A fresh cell is handed out. -/
theorem alloc (hI : M.Inv K h n τ) : M.Inv K h (n + 1) ({.held n none} + τ) := by
  obtain ⟨st, hI, hM⟩ := hI
  have hfree := hI.fresh n le_rfl
  have htot : total (n + 1) (Function.update st n (.held none)) ({.held n none} + τ) =
      {.held n none} + total n st τ := by
    have hs : ∑ x ∈ Finset.range n, (Function.update st n (CellSt.held none) x).content =
        ∑ x ∈ Finset.range n, (st x).content := by
      refine Finset.sum_congr rfl fun x hx => ?_
      rw [Function.update_of_ne (Finset.mem_range.mp hx).ne]
    have hz : (CellSt.held none : CellSt A C).content = 0 := rfl
    rw [total, total, Finset.sum_range_succ, hs, Function.update_self, hz]
    abel
  have hloc : ∀ t ∈ total n st τ, t.loc ≠ n := by
    intro t ht he
    have hf := hI.fits t ht
    rw [he, hfree] at hf
    exact hf
  refine ⟨Function.update st n (.held none), ⟨?_, ?_, ?_, ?_, ?_, ?_⟩, ?_⟩
  · rw [htot, Multiset.singleton_add, Multiset.nodup_cons]
    exact ⟨fun hm => hloc _ hm rfl, hI.nodup⟩
  · intro t ht
    rw [htot, Multiset.singleton_add, Multiset.mem_cons] at ht
    rcases ht with rfl | ht
    · simp [Tok.loc, CellSt.Fits]
    · rw [Function.update_of_ne (hloc t ht)]
      exact hI.fits t ht
  · intro x
    by_cases hx : x = n
    · rw [hx, Function.update_self]
      exact .inl rfl
    · rw [Function.update_of_ne hx]
      exact hI.ok x
  · intro x hx
    rw [Function.update_of_ne (by omega)]
    exact hI.fresh x (by omega)
  · intro x k hk
    obtain ⟨hf, hc, hlt⟩ := hI.frozen x k hk
    rw [Function.update_of_ne hlt.ne]
    exact ⟨hf, hc, by omega⟩
  · intro x t hx
    have hxn : x ≠ n := by
      rintro rfl
      simp [CellSt.pin] at hx
    rw [Function.update_of_ne hxn] at hx
    exact Multiset.mem_add.mpr (.inr (hI.pinned x t hx))
  · exact fits_update hM (fun _ _ => rfl) trivial

/-- The content of an owned cell is taken out. -/
theorem load (hI : M.Inv K h n ({.own l a} + τ)) :
    ∃ σ, D.marked (h l) = false ∧ D.Holds K a (h l) σ ∧
      M.Inv K h n ({.held l none} + (σ + τ)) := by
  obtain ⟨st, hI, hM⟩ := hI
  obtain ⟨σ, hs⟩ := hI.owned_of_mem (a := a) (l := l) (by simp)
  have hok := hI.ok l
  rw [hs] at hok
  refine ⟨σ, hok.1, hok.2, _, hI.exchange (l := l) (g := .own l a) (.held none) ?_ rfl (by simp [hs])
    (by simp [hs, CellSt.Fits]) (by simp) (by simp [CellSt.Fits]) (fun _ _ => rfl) (.inl rfl)
    (by simp [CellSt.content]) (by simp [CellSt.pin]), fits_update hM (fun _ _ => rfl) trivial⟩
  simp only [hs, CellSt.content]
  abel

/-- A held cell is filled and owned again. -/
theorem store (hI : M.Inv K h n ({.held l o} + (σ + τ))) (a : A) (hmark : D.marked c' = false)
    (hσ : D.Holds K a c' σ) (hns : ∀ t ∈ σ, ¬ t.Pins) :
    M.Inv K (Function.update h l c') n ({.own l a} + τ) := by
  obtain ⟨st, hI, hM⟩ := hI
  have hs := hI.held_of_mem (o := o) (l := l) (by simp)
  have hoff : ∀ x, x ≠ l → Function.update h l c' x = h x := fun x hx => Function.update_of_ne hx _ _
  refine ⟨_, hI.exchange (l := l) (g := .held l o) (.owned a σ) ?_ rfl (by simp [hs])
    (by simp [hs, CellSt.Fits]) (by simp) (by simp [CellSt.Fits]) hoff ?_ hns (by simp [CellSt.pin]),
    fits_update hM hoff trivial⟩
  · simp only [hs, CellSt.content]
    abel
  · rw [Function.update_self]
    exact ⟨hmark, hσ⟩

/-- A held cell is overwritten and stays held. -/
theorem write (hI : M.Inv K h n ({.held l o} + τ)) (c' : C) :
    M.Inv K (Function.update h l c') n ({.held l (some c')} + τ) := by
  obtain ⟨st, hI, hM⟩ := hI
  have hs := hI.held_of_mem (o := o) (l := l) (by simp)
  have hoff : ∀ x, x ≠ l → Function.update h l c' x = h x := fun x hx => Function.update_of_ne hx _ _
  refine ⟨_, hI.exchange (l := l) (g := .held l o) (.held (some c')) ?_ rfl (by simp [hs])
    (by simp [hs, CellSt.Fits]) (by simp) (by simp [CellSt.Fits]) hoff ?_ (by simp [CellSt.content])
    (by simp [CellSt.pin]), fits_update hM hoff trivial⟩
  · simp only [hs, CellSt.content]
    abel
  · rw [Function.update_self]
    exact .inr rfl

/-- The record of what lies in a held cell may be forgotten. -/
theorem forget (hI : M.Inv K h n ({.held l o} + τ)) : M.Inv K h n ({.held l none} + τ) := by
  obtain ⟨st, hI, hM⟩ := hI
  have hs := hI.held_of_mem (o := o) (l := l) (by simp)
  refine ⟨_, hI.exchange (l := l) (g := .held l o) (.held none) ?_ rfl (by simp [hs])
    (by simp [hs, CellSt.Fits]) (by simp) (by simp [CellSt.Fits]) (fun _ _ => rfl) (.inl rfl)
    (by simp [CellSt.content]) (by simp [CellSt.pin]), fits_update hM (fun _ _ => rfl) trivial⟩
  simp only [hs, CellSt.content]
  abel

/-- A held cell is given up for good and its content frozen. -/
theorem freeze (hI : M.Inv K h n ({.held l (some c)} + τ)) :
    M.Inv (Function.update K l (some c)) h n τ ∧ K.Le (Function.update K l (some c)) := by
  have hlc := hI.plain.held_eq (c := c) (l := l) (by simp)
  obtain ⟨st, hI, hM⟩ := hI
  have hs := hI.held_of_mem (o := some c) (l := l) (by simp)
  have hne : st l ≠ .free := by simp [hs]
  have hle : K.Le (Function.update K l (some c)) := by
    intro x k hk
    have hx : x ≠ l := by
      rintro rfl
      simp [hI.unfrozen hne] at hk
    rw [Function.update_of_ne hx]
    exact hk
  have hI' : InvSt D K h n (Function.update st l .free) (0 + τ) :=
    hI.exchange (l := l) (g := .held l (some c)) .free
      (by simp [hs, CellSt.content]) rfl hne (by simp [hs, CellSt.Fits]) (by simp) (by simp)
      (fun _ _ => rfl) trivial (by simp [CellSt.content]) (by simp [CellSt.pin])
  rw [zero_add] at hI'
  have hoff : ∀ x, x ≠ l → h x = h x := fun _ _ => rfl
  have hM' := fits_update (l := l) (s := .free) hM hoff trivial
  refine ⟨⟨_, ⟨hI'.nodup, hI'.fits, fun x => (hI'.ok x).mono hle, hI'.fresh, ?_, hI'.pinned⟩,
    fun x => (hM' x).mono hle⟩, hle⟩
  intro x k hk
  by_cases hx : x = l
  · subst hx
    rw [Function.update_self] at hk
    exact ⟨by simp, hlc.trans (Option.some.inj hk), hI.lt_of_ne_free hne⟩
  · rw [Function.update_of_ne hx] at hk
    exact hI'.frozen x k hk

/-! Shared cells -/

/-- An owned cell is shared in place. -/
theorem share (hI : M.Inv K h n ({.own l a} + τ)) (b : A)
    (hab : ∀ c σ, D.Holds K a c σ → M.Shared K b c σ ∧ ∀ t ∈ σ, ¬ t.Pins) :
    M.Inv K h n ({.share l b false} + ({.share l b true} + τ)) := by
  obtain ⟨st, hI, hM⟩ := hI
  obtain ⟨σ, hs⟩ := hI.owned_of_mem (a := a) (l := l) (by simp)
  have hok := hI.ok l
  rw [hs] at hok
  obtain ⟨hshared, hns⟩ := hab _ _ hok.2
  rw [← add_assoc]
  refine ⟨_, hI.exchange (l := l) (g := .own l a) (.shared b σ) ?_ rfl (by simp [hs])
    (by simp [hs, CellSt.Fits]) (by simp) (by simp [CellSt.Fits]) (fun _ _ => rfl)
    ⟨hok.1, M.shared_holds hshared⟩ hns (by simp [CellSt.pin]), fits_update hM (fun _ _ => rfl) hshared⟩
  simp only [hs, CellSt.content]
  abel

/-- A share takes the result its twin has left, or else the shared content, which is then
out until the share puts something back. -/
theorem takeShare (hI : M.Inv K h n ({.share l a r} + τ)) (hn : ∀ a r, Tok.shareHeld l a r ∉ τ) :
    (D.marked (h l) = true ∧ ∃ σ, M.Left K a r (D.unmark (h l)) σ ∧ M.Inv K h n (σ + τ)) ∨
      (D.marked (h l) = false ∧
        ∃ σ, M.Shared K a (h l) σ ∧ M.Inv K h n ({.shareHeld l a r} + (σ + τ))) := by
  obtain ⟨st, hI, hM⟩ := hI
  have hf := hI.fits_of_mem (t := .share l a r) (by simp)
  simp only [Tok.loc] at hf
  have hok := hI.ok l
  have hfits := hM l
  cases hs : st l with
  | fired b r' σ =>
    rw [hs] at hf hok hfits
    obtain ⟨rfl, rfl⟩ : a = b ∧ r = r' := by simpa [CellSt.Fits] using hf
    refine .inl ⟨hok.1, σ, hfits, ?_⟩
    rw [← zero_add (σ + τ)]
    refine ⟨_, hI.exchange (l := l) (g := .share l a r) .free ?_ rfl (by simp [hs])
      (by simp [hs, CellSt.Fits]) (by simp) (by simp) (fun _ _ => rfl) trivial
      (by simp [CellSt.content]) (by simp [CellSt.pin]), fits_update hM (fun _ _ => rfl) trivial⟩
    simp only [hs, CellSt.content]
    abel
  | shared b σ =>
    rw [hs] at hf hok hfits
    have hab : a = b := by
      rcases hf with hf | hf
      · exact (by simpa using hf : a = b ∧ _).1
      · exact (by simpa using hf : a = b ∧ _).1
    subst hab
    refine .inr ⟨hok.1, σ, hfits, ?_⟩
    refine ⟨_, hI.exchange (l := l) (g := .share l a r) (.taken a r) ?_ rfl (by simp [hs]) ?_ (by simp)
      (by simp [CellSt.Fits]) (fun _ _ => rfl) trivial (by simp [CellSt.content])
      (by simp [CellSt.pin]), fits_update hM (fun _ _ => rfl) trivial⟩
    · simp only [hs, CellSt.content]
      abel
    · intro t ht
      rw [hs] at ht
      cases r <;> rcases ht with rfl | rfl <;> simp [CellSt.Fits]
  | taken b r' =>
    have hm := hI.pinned l (.shareHeld l b r') (by simp [hs, CellSt.pin])
    simp at hm
    exact (hn b r' hm).elim
  | _ => simp [hs, CellSt.Fits] at hf

/-- The claim of a share is that of the side that is out. -/
theorem share_claim (hI : M.Inv K h n τ) {r r' : Bool} (hs : Tok.share l a r ∈ τ)
    (ht : Tok.shareHeld l b r' ∈ τ) : a = b := by
  obtain ⟨st, hI, -⟩ := hI
  have hf := hI.fits_of_mem hs
  rw [Tok.loc, hI.taken_of_mem ht] at hf
  rcases hf with hf | hf
  · cases hf
  · exact (Tok.share.inj hf).2.1

/-- The result for the twin is left in the cell of a taken share. -/
theorem fireShare (hI : M.Inv K h n ({.shareHeld l a r} + (σ + τ))) (hmark : D.marked c' = true)
    (hσ : M.Left K a (!r) (D.unmark c') σ) (hns : ∀ t ∈ σ, ¬ t.Pins) :
    M.Inv K (Function.update h l c') n τ := by
  obtain ⟨st, hI, hM⟩ := hI
  have hs := hI.taken_of_mem (l := l) (a := a) (r := r) (by simp)
  have hoff : ∀ x, x ≠ l → Function.update h l c' x = h x := fun x hx => Function.update_of_ne hx _ _
  rw [← zero_add τ]
  refine ⟨_, hI.exchange (l := l) (g := .shareHeld l a r) (.fired a (!r) σ) ?_ rfl (by simp [hs])
    (by simp [hs, CellSt.Fits]) (by simp) (by simp) hoff ?_ hns (by simp [CellSt.pin]),
    fits_update hM hoff ?_⟩
  · simp only [hs, CellSt.content]
    abel
  · rw [Function.update_self]
    exact ⟨hmark, M.left_holds hσ⟩
  · rw [Function.update_self]
    exact hσ

/-- A taken share puts a content back. -/
theorem putBack (hI : M.Inv K h n ({.shareHeld l a r} + (σ + τ))) (hmark : D.marked c' = false)
    (hσ : M.Shared K a c' σ) (hns : ∀ t ∈ σ, ¬ t.Pins) :
    M.Inv K (Function.update h l c') n ({.share l a r} + τ) := by
  obtain ⟨st, hI, hM⟩ := hI
  have hs := hI.taken_of_mem (l := l) (a := a) (r := r) (by simp)
  have hoff : ∀ x, x ≠ l → Function.update h l c' x = h x := fun x hx => Function.update_of_ne hx _ _
  refine ⟨_, hI.exchange (l := l) (g := .shareHeld l a r) (.shared a σ) ?_ rfl (by simp [hs]) ?_ (by simp)
    (by cases r <;> simp [CellSt.Fits]) hoff ?_ hns (by simp [CellSt.pin]), fits_update hM hoff ?_⟩
  · simp only [hs, CellSt.content]
    abel
  · intro t ht
    rw [hs] at ht
    cases r <;> rcases ht with rfl | rfl <;> simp [CellSt.Fits]
  · rw [Function.update_self]
    exact ⟨hmark, M.shared_holds hσ⟩
  · rw [Function.update_self]
    exact hσ

end Inv

end Meaning

end LinearHeap
