import Hvm.Linear.Heap

/-! Registers over a linear heap. A register stands for some of the tokens in hand, and what
it says about them is up to its kind; an operation consumes registers and appends its results,
so that the other registers keep their numbers. -/

namespace LinearHeap

variable {A C R X : Type}

/-- Registers by number. -/
abbrev Slots (X : Type) := Nat → X

namespace Slots

def set (f : Slots X) (k : Nat) (x : X) : Slots X := fun i => bif Nat.beq i k then x else f i

/-- The slots `is` get `z`. -/
def clear (z : X) (f : Slots X) : List Nat → Slots X
  | [] => f
  | i :: is => clear z (f.set i z) is

/-- `xs` is put into the slots `n, n + 1, ..`. -/
def add (f : Slots X) (n : Nat) : List X → Slots X
  | [] => f
  | x :: xs => add (f.set n x) (n + 1) xs

def ofList (z : X) (xs : List X) : Slots X := fun i => xs.getD i z

variable {f : Slots X} {x z : X} {i k n : Nat}

@[simp] theorem set_self : f.set k x k = x := by simp [set]

theorem set_of_ne (h : i ≠ k) : f.set k x i = f i := by
  cases hb : Nat.beq i k with
  | false => simp [set, hb]
  | true => exact (h (Nat.eq_of_beq_eq_true hb)).elim

theorem map_set_of_notMem {is : List Nat} (hk : k ∉ is) : is.map (f.set k x) = is.map f := by
  refine List.map_congr_left fun i hi => set_of_ne ?_
  rintro rfl
  exact hk hi

variable {M : Type} [AddCommMonoid M] {s : Slots M}

/-- A slot outside the range holds nothing. -/
def Within (s : Slots M) (n : Nat) : Prop := ∀ i, n ≤ i → s i = 0

theorem Within.set_zero (hs : Within s n) (k : Nat) : Within (s.set k 0) n := by
  intro i hi
  by_cases h : i = k
  · rw [h, set_self]
  · rw [set_of_ne h, hs i hi]

theorem Within.clear (hs : Within s n) (is : List Nat) : Within (clear 0 s is) n := by
  induction is generalizing s with
  | nil => exact hs
  | cons i is ih => exact ih (hs.set_zero i)

theorem Within.set_last (hs : Within s n) (x : M) : Within (s.set n x) (n + 1) := by
  intro i hi
  rw [set_of_ne (by omega), hs i (by omega)]

theorem Within.add (hs : Within s n) (xs : List M) : Within (s.add n xs) (n + xs.length) := by
  induction xs generalizing s n with
  | nil => exact hs
  | cons x xs ih =>
    rw [List.length_cons, Nat.add_comm xs.length 1, ← Nat.add_assoc]
    exact ih (hs.set_last x)

theorem sum_set (hs : Within s n) (k : Nat) :
    ∑ i ∈ Finset.range n, s i = s k + ∑ i ∈ Finset.range n, s.set k 0 i := by
  by_cases hk : k < n
  · have hrest : ∑ i ∈ (Finset.range n).erase k, s.set k 0 i = ∑ i ∈ (Finset.range n).erase k, s i :=
      Finset.sum_congr rfl fun i hi => set_of_ne (Finset.ne_of_mem_erase hi)
    rw [← Finset.add_sum_erase _ s (Finset.mem_range.mpr hk),
      ← Finset.add_sum_erase _ (s.set k 0) (Finset.mem_range.mpr hk), hrest, set_self, zero_add]
  · have hrest : ∑ i ∈ Finset.range n, s.set k 0 i = ∑ i ∈ Finset.range n, s i := by
      refine Finset.sum_congr rfl fun i hi => set_of_ne ?_
      have hlt := Finset.mem_range.mp hi
      omega
    rw [hrest, hs k (by omega), zero_add]

theorem sum_clear (hs : Within s n) {is : List Nat} (hn : is.Nodup) :
    ∑ i ∈ Finset.range n, s i = (is.map s).sum + ∑ i ∈ Finset.range n, clear 0 s is i := by
  induction is generalizing s with
  | nil => rw [List.map_nil, List.sum_nil, zero_add, clear]
  | cons k is ih =>
    obtain ⟨hk, hn⟩ := List.nodup_cons.mp hn
    rw [sum_set hs k, ih (hs.set_zero k) hn, map_set_of_notMem hk, List.map_cons, List.sum_cons,
      clear, add_assoc]

theorem sum_add (xs : List M) :
    ∑ i ∈ Finset.range (n + xs.length), s.add n xs i = ∑ i ∈ Finset.range n, s i + xs.sum := by
  induction xs generalizing s n with
  | nil => rw [List.sum_nil, add_zero, List.length_nil, Nat.add_zero, add]
  | cons x xs ih =>
    have hlast : ∑ i ∈ Finset.range (n + 1), s.set n x i = ∑ i ∈ Finset.range n, s i + x := by
      rw [Finset.sum_range_succ, set_self]
      congr 1
      exact Finset.sum_congr rfl fun i hi => set_of_ne (Finset.mem_range.mp hi).ne
    rw [List.length_cons, Nat.add_comm xs.length 1, ← Nat.add_assoc, add, ih, hlast, List.sum_cons,
      add_assoc]

theorem sum_ofList (xs : List M) :
    ∑ i ∈ Finset.range xs.length, ofList 0 xs i = xs.sum := by
  induction xs with
  | nil => rfl
  | cons x xs ih =>
    rw [List.length_cons, Finset.sum_range_succ', List.sum_cons, ← ih, add_comm]
    rfl

end Slots

open Slots

/-- What the registers of a program say about the tokens they stand for. -/
structure RegisterKind (A C R : Type) where
  empty : R
  Holds : Frozen C → R → Toks A C → Prop
  empty_iff : ∀ {K σ}, Holds K empty σ ↔ σ = 0
  mono : ∀ {K K' r σ}, K.Le K' → Holds K r σ → Holds K' r σ
  pins : R → Bool
  unpinned : ∀ {K r σ}, pins r = false → Holds K r σ → ∀ t ∈ σ, ¬ t.Pins

/-- The tokens of the registers below `n` of `F` and the further tokens `τ` are those of a
good heap. -/
def Ledger (G : RegisterKind A C R) (K : Frozen C) (good : Toks A C → Prop) (n : Nat)
    (F : Slots R) (τ : Toks A C) : Prop :=
  ∃ s : Slots (Toks A C), (∀ i, G.Holds K (F i) (s i)) ∧ Within s n ∧
    good (∑ i ∈ Finset.range n, s i + τ)

namespace Ledger

variable {G : RegisterKind A C R} {K K' : Frozen C} {good good' : Toks A C → Prop} {n : Nat}
  {F : Slots R} {τ : Toks A C} {s : Slots (Toks A C)} {S : List R}

theorem holds_set (hF : ∀ i, G.Holds K (F i) (s i)) {r : R} {σ : Toks A C} (hr : G.Holds K r σ)
    (k i : Nat) : G.Holds K (F.set k r i) (s.set k σ i) := by
  by_cases h : i = k
  · rw [h, set_self, set_self]
    exact hr
  · rw [set_of_ne h, set_of_ne h]
    exact hF i

theorem holds_clear (hF : ∀ i, G.Holds K (F i) (s i)) (is : List Nat) (i : Nat) :
    G.Holds K (clear G.empty F is i) (clear 0 s is i) := by
  induction is generalizing F s with
  | nil => exact hF i
  | cons k is ih => exact ih (holds_set hF (G.empty_iff.mpr rfl) k)

theorem holds_add (hF : ∀ i, G.Holds K (F i) (s i)) {P : List R} {σs : List (Toks A C)}
    (hP : List.Forall₂ (G.Holds K) P σs) (n i : Nat) : G.Holds K (F.add n P i) (s.add n σs i) := by
  induction hP generalizing F s n with
  | nil => exact hF i
  | cons hr _ ih => exact ih (holds_set hF hr n) (n + 1)

theorem holds_map (hF : ∀ i, G.Holds K (F i) (s i)) (is : List Nat) :
    List.Forall₂ (G.Holds K) (is.map F) (is.map s) := by
  induction is with
  | nil => exact .nil
  | cons i is ih => exact .cons (hF i) ih

/-- The registers `is` are exchanged for new ones at the end, of which `Q` is known. -/
theorem replace {ι : Type} (hl : Ledger G K good n F τ) (is : List Nat) (hn : is.Nodup)
    {gs : List R} {k : Nat} (P : ι → List R) (Q : ι → Prop) (hgs : is.map F = gs)
    (hk : ∀ x, (P x).length = k) (hK : K.Le K')
    (hmove : ∀ σs ρ, List.Forall₂ (G.Holds K) gs σs → good (σs.sum + ρ) →
      ∃ x σs', Q x ∧ List.Forall₂ (G.Holds K') (P x) σs' ∧ good' (σs'.sum + ρ)) :
    ∃ x, Q x ∧ Ledger G K' good' (n + k) ((clear G.empty F is).add n (P x)) τ := by
  subst hgs
  obtain ⟨s, hF, hs, hI⟩ := hl
  rw [sum_clear hs hn, add_assoc] at hI
  obtain ⟨x, σs, hQ, hP, hI⟩ := hmove _ _ (holds_map hF is) hI
  have hlen : σs.length = k := by rw [← hk x, hP.length_eq]
  refine ⟨x, hQ, (clear 0 s is).add n σs, ?_, ?_, ?_⟩
  · exact holds_add (fun i => G.mono hK (holds_clear hF is i)) hP n
  · rw [← hlen]
    exact (hs.clear is).add σs
  · rw [← hlen, sum_add, add_comm (Finset.sum _ _) σs.sum, add_assoc]
    exact hI

/-- The tokens of one register are among those in hand. -/
theorem holding (hl : Ledger G K good n F τ) (i : Nat) :
    ∃ σ ρ, G.Holds K (F i) σ ∧ good (σ + ρ) := by
  obtain ⟨s, hF, hs, hI⟩ := hl
  rw [sum_set hs i, add_assoc] at hI
  exact ⟨s i, _, hF i, hI⟩

/-- Registers as a list, numbered from 0. -/
theorem list_iff :
    Ledger G K good S.length (ofList G.empty S) τ ↔
      ∃ σs, List.Forall₂ (G.Holds K) S σs ∧ good (σs.sum + τ) := by
  constructor
  · rintro ⟨s, hF, hs, hI⟩
    have hS : (List.range S.length).map (ofList G.empty S) = S := by
      refine List.ext_getElem (by simp) fun i h₁ h₂ => ?_
      rw [List.getElem_map, List.getElem_range]
      exact List.getD_eq_getElem S G.empty h₂
    refine ⟨(List.range S.length).map s, ?_, ?_⟩
    · have hh := holds_map hF (List.range S.length)
      rwa [hS] at hh
    · exact hI
  · rintro ⟨σs, hS, hI⟩
    refine ⟨ofList 0 σs, ?_, ?_, ?_⟩
    · intro i
      clear hI
      induction hS generalizing i with
      | nil => exact G.empty_iff.mpr rfl
      | cons hr _ ih =>
        cases i with
        | zero => exact hr
        | succ i => exact ih i
    · intro i hi
      exact List.getD_eq_default _ _ (hS.length_eq ▸ hi)
    · rw [hS.length_eq, sum_ofList]
      exact hI

/-- Some registers are kept, in the given order; the others are forgotten. -/
theorem keep (hl : Ledger G K good n F τ)
    (hdrop : ∀ σ ρ, good (σ + ρ) → (∀ t ∈ σ, ¬ t.Pins) → good ρ) (is : List Nat) (hn : is.Nodup)
    (hp : (List.range n).all (fun i => !G.pins (clear G.empty F is i)) = true) :
    Ledger G K good (is.map F).length (ofList G.empty (is.map F)) τ := by
  obtain ⟨s, hF, hs, hI⟩ := hl
  rw [list_iff]
  refine ⟨is.map s, holds_map hF is, ?_⟩
  rw [sum_clear hs hn, add_comm (List.sum _), add_assoc] at hI
  refine hdrop _ _ hI fun t ht => ?_
  obtain ⟨i, hi, ht⟩ := Multiset.mem_sum.mp ht
  have hpin := List.all_eq_true.mp hp i (List.mem_range.mpr (Finset.mem_range.mp hi))
  exact G.unpinned (by simpa using hpin) (holds_clear hF is i) t ht

theorem unpinned {σs : List (Toks A C)} (hS : List.Forall₂ (G.Holds K) S σs)
    (hp : S.all (fun r => !G.pins r) = true) : ∀ t ∈ σs.sum, ¬ t.Pins := by
  induction hS with
  | nil =>
    intro t ht
    cases ht
  | cons hr _ ih =>
    intro t ht
    rw [List.all_cons, Bool.and_eq_true] at hp
    rw [List.sum_cons, Multiset.mem_add] at ht
    rcases ht with ht | ht
    · exact G.unpinned (by simpa using hp.1) hr t ht
    · exact ih hp.2 t ht

theorem forall₂_append {X Y : Type} {Q : X → Y → Prop} {xs xs' : List X} {ys : List Y}
    (h : List.Forall₂ Q (xs ++ xs') ys) :
    ∃ zs zs', List.Forall₂ Q xs zs ∧ List.Forall₂ Q xs' zs' ∧ ys = zs ++ zs' := by
  induction xs generalizing ys with
  | nil => exact ⟨[], ys, .nil, h, rfl⟩
  | cons x xs ih =>
    obtain ⟨z, ys, hz, hrest, rfl⟩ := List.forall₂_cons_left_iff.mp h
    obtain ⟨zs, zs', hzs, hzs', rfl⟩ := ih hrest
    exact ⟨z :: zs, zs', .cons hz hzs, hzs', rfl⟩

/-- The order of the registers is of no account. -/
theorem perm {S' : List R} (hp : S'.Perm S) (hl : Ledger G K good S.length (ofList G.empty S) τ) :
    Ledger G K good S'.length (ofList G.empty S') τ := by
  rw [list_iff] at hl ⊢
  obtain ⟨σs, hS, hI⟩ := hl
  obtain ⟨σs', hS', hperm⟩ := List.perm_comp_forall₂ hp hS
  exact ⟨σs', hS', by rwa [hperm.sum_eq]⟩

/-- Leading registers are handed over as tokens. -/
theorem release {P : List R}
    (hl : Ledger G K good (P ++ S).length (ofList G.empty (P ++ S)) τ) :
    ∃ σs, List.Forall₂ (G.Holds K) P σs ∧
      Ledger G K good S.length (ofList G.empty S) (σs.sum + τ) := by
  rw [list_iff] at hl
  obtain ⟨σs, hS, hI⟩ := hl
  obtain ⟨σp, σr, hP, hrest, rfl⟩ := forall₂_append hS
  refine ⟨σp, hP, ?_⟩
  rw [list_iff]
  refine ⟨σr, hrest, ?_⟩
  rw [List.sum_append, add_comm σp.sum, add_assoc] at hI
  exact hI

/-- Tokens come back as leading registers. -/
theorem restore {P : List R} {σs : List (Toks A C)} (hP : List.Forall₂ (G.Holds K) P σs)
    (hl : Ledger G K good S.length (ofList G.empty S) (σs.sum + τ)) :
    Ledger G K good (P ++ S).length (ofList G.empty (P ++ S)) τ := by
  rw [list_iff] at hl ⊢
  obtain ⟨σr, hS, hI⟩ := hl
  refine ⟨σs ++ σr, List.rel_append hP hS, ?_⟩
  rw [List.sum_append, add_comm σs.sum, add_assoc]
  exact hI

end Ledger

end LinearHeap
