import Hvm.Term

/-! Ground data, numbers and constructors, and how the heap holds it. -/

namespace Hvm.Data

inductive Datum where
  | num (n : Nat)
  | ctr (nam : Nat) (args : List Datum)

@[induction_eliminator]
theorem Datum.induct {motive : Datum → Prop} (num : ∀ n, motive (.num n))
    (ctr : ∀ nam args, (∀ a ∈ args, motive a) → motive (.ctr nam args)) (d : Datum) : motive d :=
  Datum.rec (motive_1 := motive) (motive_2 := fun args => ∀ a ∈ args, motive a) num ctr
    (fun _ ha => absurd ha List.not_mem_nil)
    (fun _ _ hd hds _ ha => (List.mem_cons.mp ha).elim (fun h => h ▸ hd) (hds _)) d

/-! ### Cells -/

mutual
/-- The cells of the heap a term takes. -/
def Datum.cells : Datum → Nat
  | .num _ => 0
  | .ctr _ args => cellsAll args

def cellsAll : List Datum → Nat
  | [] => 0
  | d :: ds => d.cells + 1 + cellsAll ds
end

theorem cells_lt_of_mem {d : Datum} {ds : List Datum} (h : d ∈ ds) : d.cells < cellsAll ds := by
  induction ds with
  | nil => cases h
  | cons x xs ih =>
    rw [cellsAll]
    rcases List.mem_cons.mp h with rfl | h
    · omega
    · have := ih h
      omega

/-- No list has more cells than one that is as long and has more of them at each place. -/
theorem cellsAll_le {ds es : List Datum} (hlen : ds.length = es.length)
    (h : ∀ i (hi : i < ds.length) (hi' : i < es.length), ds[i].cells ≤ es[i].cells) :
    cellsAll ds ≤ cellsAll es := by
  induction ds generalizing es with
  | nil => exact Nat.zero_le _
  | cons d ds ih =>
    cases es with
    | nil => cases hlen
    | cons e es =>
      have h0 : d.cells ≤ e.cells := h 0 (Nat.succ_pos _) (Nat.succ_pos _)
      have hrest := ih (Nat.succ.inj hlen) fun i hi hi' =>
        h (i + 1) (Nat.succ_lt_succ hi) (Nat.succ_lt_succ hi')
      rw [cellsAll, cellsAll]
      omega

/-! ### Lists and naturals -/

/-- `#CON{d0, #CON{d1, .. #NIL}}`. -/
def chain : List Datum → Datum
  | [] => .ctr symNil []
  | d :: ds => .ctr symCon [d, chain ds]

/-- `k` constructors `#SUC` over `d`. -/
def peano : Nat → Datum → Datum
  | 0, d => d
  | k + 1, d => .ctr symSuc [peano k d]

def zero : Datum := .ctr symZer []

theorem chain_inj {ds es : List Datum} (h : chain ds = chain es) : ds = es := by
  induction ds generalizing es with
  | nil =>
    cases es with
    | nil => rfl
    | cons e es => cases h
  | cons d ds ih =>
    cases es with
    | nil => cases h
    | cons e es =>
      injection h with _ h
      injection h with hd h
      injection h with ht _
      rw [hd, ih ht]

theorem peano_add (k l : Nat) (d : Datum) : peano (k + l) d = peano k (peano l d) := by
  induction k with
  | zero => rw [Nat.zero_add, peano]
  | succ k ih => rw [Nat.succ_add, peano, ih, peano]

theorem cells_peano (k : Nat) (d : Datum) : (peano k d).cells = k + d.cells := by
  induction k with
  | zero => rw [peano, Nat.zero_add]
  | succ k ih =>
    rw [peano, Datum.cells, cellsAll, cellsAll, ih]
    omega

theorem peano_inj {k : Nat} {d e : Datum} (h : peano k d = peano k e) : d = e := by
  induction k with
  | zero => exact h
  | succ k ih =>
    injection h with _ h
    injection h with h _
    exact ih h

theorem cells_chain (ds : List Datum) : (chain ds).cells = cellsAll ds + ds.length := by
  induction ds with
  | nil => rfl
  | cons d ds ih =>
    rw [chain, Datum.cells, cellsAll, cellsAll, cellsAll, cellsAll, ih, List.length_cons]
    omega

/-- A chain of `#CON` that ends in `#NIL`. -/
def Datum.Proper (d : Datum) : Prop := ∃ ds, d = chain ds

/-- A chain of `#SUC` that ends in `#ZER`. -/
def Datum.Numeral (d : Datum) : Prop := ∃ k, d = peano k zero

/-- Not under one more `#SUC`. -/
def Datum.Based (d : Datum) : Prop := ∀ x, d ≠ .ctr symSuc [x]

theorem exists_peano (d : Datum) : ∃ k y, d = peano k y ∧ y.Based := by
  induction d with
  | num n => exact ⟨0, .num n, rfl, fun x h => by cases h⟩
  | ctr nam args ih =>
    by_cases h : ∃ x, Datum.ctr nam args = .ctr symSuc [x]
    · obtain ⟨x, hx⟩ := h
      injection hx with hnam hargs
      obtain ⟨k, y, hy, hbase⟩ := ih x (by rw [hargs]; exact List.mem_singleton_self x)
      exact ⟨k + 1, y, by rw [peano, ← hy, hnam, hargs], hbase⟩
    · exact ⟨0, _, rfl, fun x hx => h ⟨x, hx⟩⟩

theorem zero_based : zero.Based := by
  intro x h
  cases h

theorem peano_unique {k l : Nat} {x y : Datum} (hx : x.Based) (hy : y.Based)
    (h : peano k x = peano l y) : k = l ∧ x = y := by
  induction k generalizing l with
  | zero =>
    cases l with
    | zero => exact ⟨rfl, h⟩
    | succ l => exact absurd h (hx _)
  | succ k ih =>
    cases l with
    | zero => exact absurd h.symm (hy _)
    | succ l =>
      injection h with _ h
      injection h with h _
      obtain ⟨rfl, hxy⟩ := ih h
      exact ⟨rfl, hxy⟩

/-! ### Data in the heap -/

/-- The word `t` stands for the term `d`: its cells are allocated and hold the fields. -/
inductive Holds (rt : Rt) : Term → Datum → Prop where
  | num {n : Nat} : n < 2 ^ 32 → Holds rt (termNewNum n) (.num n)
  | ctr {nam v : Nat} {ari : Fin 17} {args : List Datum} : nam ≤ extMask → args.length = ari →
    (args ≠ [] → v + args.length ≤ rt.next) →
    (∀ i (h : i < args.length), Holds rt (heapRead rt (v + i)) args[i]) →
    Holds rt ⟨false, .ctr ari, nam, v⟩ (.ctr nam args)

variable {rt rt' : Rt} {t : Term} {d d' : Datum}

/-- A word stands for one term only. -/
theorem Holds.inj (h : Holds rt t d) (h' : Holds rt t d') : d = d' := by
  induction h generalizing d' with
  | num =>
    cases h' with
    | num => rfl
  | @ctr nam v ari args _ hari _ _ ih =>
    cases h' with
    | @ctr _ _ _ args' _ hari' _ hargs' =>
      have hlen : args.length = args'.length := by rw [hari, hari']
      have hargs : args = args' := List.ext_getElem hlen fun i hi hi' => ih i hi (hargs' i hi')
      rw [hargs]

theorem Holds.keep (h : Holds rt t d) (hnext : rt.next ≤ rt'.next)
    (hkeep : ∀ c < rt.next, heapRead rt' c = heapRead rt c) : Holds rt' t d := by
  induction h with
  | num hn => exact .num hn
  | @ctr nam v ari args hnam hari hin _ ih =>
    refine .ctr hnam hari (fun hne => (hin hne).trans hnext) fun i hi => ?_
    have hv := hin (List.ne_nil_of_length_pos (Nat.zero_lt_of_lt hi))
    rw [hkeep (v + i) (by omega)]
    exact ih i hi

end Hvm.Data
