import Hvm.Data.Spelling

/-! Which terms are read back from their text. -/

namespace Hvm.Data

/-- Numbers and constructors other than `#CHR`, with the ranges and arities of words, and names in
the table. -/
inductive Named (table : List Text) : Datum → Prop where
  | num {n : Nat} : n < 2 ^ 32 → Named table (.num n)
  | ctr {nam : Nat} {args : List Datum} : nam < table.length → nam ≤ extMask → nam ≠ symChr →
    args.length ≤ 16 → (∀ a ∈ args, Named table a) → Named table (.ctr nam args)

/-- A pair that is no list, or a chain of `#SUC` that is no number. -/
def Datum.Opens : Datum → Prop
  | .num _ => False
  | .ctr nam args => (nam = symCon ∧ ¬ (Datum.ctr nam args).Proper) ∨
      (nam = symSuc ∧ ¬ (Datum.ctr nam args).Numeral)

/-- `#ZER`, `#SUC` and `#CON` have the arities of naturals and pairs, fewer than `2^32` `#SUC`s
stand over each other, no list is longer than the array of `parse_term_lst`, and what stands left
in a pair that is no list closes by itself. -/
inductive Fine : Datum → Prop where
  | num (n : Nat) : Fine (.num n)
  | ctr {nam : Nat} {args : List Datum} : (∀ a ∈ args, Fine a) → (nam = symZer → args = []) →
    (nam = symSuc → args.length = 1) → (nam = symCon → args.length = 2) →
    (∀ k d, Datum.ctr nam args = peano k d → k < 2 ^ 32) →
    (∀ ds, Datum.ctr nam args = chain ds → ds.length ≤ literalCap) →
    (∀ h t, Datum.ctr nam args = .ctr symCon [h, t] → (Datum.ctr nam args).Proper ∨ ¬ h.Opens) →
    Fine (.ctr nam args)

variable {table : List Text} {d h t : Datum} {ds : List Datum} {e f : Expr} {k : Nat}

/-! ### Parts of lists and naturals -/

theorem Named.base (hd : Named table (peano k d)) : Named table d := by
  induction k with
  | zero => exact hd
  | succ k ih =>
    cases hd with
    | ctr _ _ _ _ hargs => exact ih (hargs _ (List.mem_singleton_self _))

theorem Named.element (hd : Named table (chain ds)) : ∀ x ∈ ds, Named table x := by
  induction ds with
  | nil =>
    intro x hx
    cases hx
  | cons y ys ih =>
    cases hd with
    | ctr _ _ _ _ hargs =>
      intro x hx
      rcases List.mem_cons.mp hx with rfl | hx
      · exact hargs _ List.mem_cons_self
      · exact ih (hargs _ (List.mem_cons_of_mem _ List.mem_cons_self)) x hx

theorem Fine.base (hd : Fine (peano k d)) : Fine d := by
  induction k with
  | zero => exact hd
  | succ k ih =>
    cases hd with
    | ctr hargs => exact ih (hargs _ (List.mem_singleton_self _))

theorem Fine.element (hd : Fine (chain ds)) : ∀ x ∈ ds, Fine x := by
  induction ds with
  | nil =>
    intro x hx
    cases hx
  | cons y ys ih =>
    cases hd with
    | ctr hargs =>
      intro x hx
      rcases List.mem_cons.mp hx with rfl | hx
      · exact hargs _ List.mem_cons_self
      · exact ih (hargs _ (List.mem_cons_of_mem _ List.mem_cons_self)) x hx

theorem peano_ctr {nam : Nat} {args : List Datum} (hnam : nam ≠ symSuc)
    (heq : Datum.ctr nam args = peano k d) : k = 0 := by
  cases k with
  | zero => rfl
  | succ k =>
    injection heq with hs _
    exact absurd hs hnam

theorem chain_ctr {nam : Nat} {args : List Datum} (hnam : nam ≠ symCon)
    (heq : Datum.ctr nam args = chain ds) : ds = [] ∧ nam = symNil ∧ args = [] := by
  cases ds with
  | nil =>
    injection heq with hn ha
    exact ⟨rfl, hn, ha⟩
  | cons x xs =>
    injection heq with hs _
    exact absurd hs hnam

theorem peano_le {l : Nat} (hd : d.Based) (heq : peano k d = peano l h) : l ≤ k := by
  induction k generalizing l with
  | zero =>
    cases l with
    | zero => exact Nat.le_refl _
    | succ l => exact absurd heq (hd _)
  | succ k ih =>
    cases l with
    | zero => exact Nat.zero_le _
    | succ l =>
      injection heq with _ heq
      injection heq with heq _
      exact Nat.succ_le_succ (ih heq)

theorem fine_zero : Fine zero := by
  refine .ctr (fun a ha => absurd ha List.not_mem_nil) (fun _ => rfl) (fun hs => ?_) (fun hs => ?_)
    (fun k d heq => ?_) (fun ds heq => ?_) (fun h t heq => ?_)
  · cases hs
  · cases hs
  · rw [peano_ctr (by decide) heq]
    decide
  · rw [(chain_ctr (by decide) heq).1]
    exact Nat.zero_le _
  · cases heq

theorem fine_peano (hfine : Fine d) (hd : d.Based) (hk : k < 2 ^ 32) : Fine (peano k d) := by
  induction k with
  | zero => exact hfine
  | succ k ih =>
    have hx := ih (by omega)
    refine .ctr (fun a ha => ?_) (fun hs => ?_) (fun _ => rfl) (fun hs => ?_) (fun l y heq => ?_)
      (fun ds heq => ?_) (fun h t heq => ?_)
    · rw [List.mem_singleton.mp ha]
      exact hx
    · cases hs
    · cases hs
    · have hle := peano_le (k := k + 1) hd heq
      omega
    · rw [(chain_ctr (by decide) heq).1]
      exact Nat.zero_le _
    · cases heq

theorem fine_chain (hfine : ∀ x ∈ ds, Fine x) (hlen : ds.length ≤ literalCap) : Fine (chain ds) := by
  induction ds with
  | nil =>
    refine .ctr (fun a ha => absurd ha List.not_mem_nil) (fun hs => ?_) (fun hs => ?_) (fun hs => ?_)
      (fun k d heq => ?_) (fun ds heq => ?_) (fun h t heq => ?_)
    · cases hs
    · cases hs
    · cases hs
    · rw [peano_ctr (by decide) heq]
      decide
    · rw [(chain_ctr (by decide) heq).1]
      exact Nat.zero_le _
    · cases heq
  | cons x xs ih =>
    rw [List.length_cons] at hlen
    have hxs := ih (fun y hy => hfine y (List.mem_cons_of_mem _ hy)) (by omega)
    refine .ctr (fun a ha => ?_) (fun hs => ?_) (fun hs => ?_) (fun _ => rfl)
      (fun k d heq => ?_) (fun ds heq => ?_) (fun h t heq => .inl ⟨x :: xs, rfl⟩)
    · rcases List.mem_cons.mp ha with rfl | ha
      · exact hfine _ List.mem_cons_self
      · rw [List.mem_singleton.mp ha]
        exact hxs
    · cases hs
    · cases hs
    · rw [peano_ctr (by decide) heq]
      decide
    · have hchain : chain (x :: xs) = chain ds := heq
      have hds : x :: xs = ds := chain_inj hchain
      rw [← hds, List.length_cons]
      exact hlen

/-! ### Texts of terms -/

theorem Spells.good (hs : Spells d e) (hd : Named table d) : Good table e := by
  induction hs with
  | num n =>
    cases hd with
    | num hn => exact .num hn
  | nat k => exact .nat (Nat.mod_lt _ (by decide))
  | suc _ _ _ _ ih => exact .suc (Nat.mod_lt _ (by decide)) (ih hd.base)
  | @list ds es hlen _ ih =>
    refine .list fun e he => ?_
    obtain ⟨i, hi, rfl⟩ := List.getElem_of_mem he
    exact ih i (hlen ▸ hi) hi (hd.element _ (List.getElem_mem _))
  | con _ _ _ ihh iht =>
    cases hd with
    | ctr _ _ _ _ hargs =>
      exact (ihh (hargs _ List.mem_cons_self)).graft
        (iht (hargs _ (List.mem_cons_of_mem _ List.mem_cons_self)))
  | plain _ _ _ _ hlen _ ih =>
    cases hd with
    | ctr hnam hext _ hari hargs =>
      refine .plain hnam hext (hlen ▸ hari) fun e he => ?_
      obtain ⟨i, hi, rfl⟩ := List.getElem_of_mem he
      exact ih i (hlen ▸ hi) hi (hargs _ (List.getElem_mem _))

theorem graft_opens (e f : Expr) : ¬ (graft e f).Closed := by
  cases e <;> exact fun h => h

theorem Spells.closed_iff (hs : Spells d e) : e.Closed ↔ ¬ d.Opens := by
  cases hs with
  | num n => exact ⟨fun _ h => h, fun _ => trivial⟩
  | nat k =>
    refine ⟨fun _ h => ?_, fun _ => trivial⟩
    cases k with
    | zero =>
      rcases h with ⟨h, -⟩ | ⟨h, -⟩
      · cases h
      · cases h
    | succ k =>
      rcases h with ⟨h, -⟩ | ⟨-, h⟩
      · cases h
      · exact h ⟨k + 1, rfl⟩
  | @suc k d e hk hd hne _ =>
    refine ⟨fun h => absurd h id, fun h => absurd ?_ h⟩
    obtain ⟨k, rfl⟩ : ∃ l, k = l + 1 := ⟨k - 1, by omega⟩
    refine .inr ⟨rfl, fun hnum => ?_⟩
    obtain ⟨l, hl⟩ := hnum
    exact hne (peano_unique (k := k + 1) hd zero_based hl).2
  | @list ds es _ _ =>
    refine ⟨fun _ h => ?_, fun _ => trivial⟩
    cases ds with
    | nil =>
      rcases h with ⟨h, -⟩ | ⟨h, -⟩
      · cases h
      · cases h
    | cons x xs =>
      rcases h with ⟨-, h⟩ | ⟨h, -⟩
      · exact h ⟨x :: xs, rfl⟩
      · cases h
  | con hno _ _ => exact ⟨fun h => absurd h (graft_opens _ _), fun h => absurd (.inl ⟨rfl, hno⟩) h⟩
  | plain _ hsuc hcon _ _ _ =>
    refine ⟨fun _ h => ?_, fun _ => trivial⟩
    rcases h with ⟨h, -⟩ | ⟨h, -⟩
    · exact hcon h
    · exact hsuc h

/-- Only a text that is smaller than its term starts with `0n+`. -/
theorem Spells.suc_pos (hs : Spells d e) (hcells : e.value.cells = d.cells) {n : Nat} {x : Expr}
    (he : e = .suc n x) : 0 < n := by
  induction hs generalizing n x with
  | @suc k d e hk _ _ hde _ =>
    injection he with hn hx
    have hle := hde.cells_le
    have hk' := u32_le k
    rw [Expr.value, cells_peano, cells_peano] at hcells
    omega
  | @con h t ds e f _ hh ht ihh _ =>
    cases e with
    | suc m y =>
      injection he with hn _
      have hle := hh.cells_le
      have hle' := ht.cells_le
      rw [graft_cells, Datum.cells, cellsAll, cellsAll] at hcells
      rw [← hn]
      exact ihh (by omega) rfl
    | _ => cases he
  | _ => cases he

/-- What is read back as itself is fine: by induction on the text. -/
theorem Spells.fine (hs : Spells d e) (hv : e.value = d) (hshort : Short e) : Fine d := by
  induction hs with
  | num n => exact .num n
  | nat k =>
    have hc : (peano (u32 k) zero).cells = (peano k zero).cells := congrArg Datum.cells hv
    rw [cells_peano, cells_peano] at hc
    have hk : u32 k < 2 ^ 32 := Nat.mod_lt _ (by decide)
    exact fine_peano fine_zero zero_based (by omega)
  | @suc k d e _ hd _ hde ih =>
    have hc : (peano (u32 k) e.value).cells = (peano k d).cells := congrArg Datum.cells hv
    rw [cells_peano, cells_peano] at hc
    have hle := hde.cells_le
    have hk : u32 k < 2 ^ 32 := Nat.mod_lt _ (by decide)
    have hk' := u32_le k
    have heq : u32 k = k := by omega
    have hval : peano (u32 k) e.value = peano k d := hv
    rw [heq] at hval
    cases hshort with
    | suc _ hx => exact fine_peano (ih (peano_inj hval) hx) hd (by omega)
  | @list ds es hlen _ ih =>
    have hval : valueAll es = ds := chain_inj hv
    cases hshort with
    | list hcap hes =>
      refine fine_chain (fun x hx => ?_) (hlen ▸ hcap)
      obtain ⟨i, hi, rfl⟩ := List.getElem_of_mem hx
      have hi' : i < es.length := hlen ▸ hi
      refine ih i hi hi' ?_ (hes _ (List.getElem_mem _))
      rw [← getElem_valueAll ((length_valueAll es).symm ▸ hi') hi']
      exact List.getElem_of_eq hval _
  | @con h t ds e f hno hh ht ihh iht =>
    have hc := congrArg Datum.cells hv
    have hle := hh.cells_le
    have hle' := ht.cells_le
    rw [graft_cells, Datum.cells, cellsAll, cellsAll] at hc
    have hds : ds = [] := by
      cases ds with
      | nil => rfl
      | cons x xs =>
        rw [cellsAll] at hc
        omega
    have hclosed : e.Closed := by
      cases e with
      | suc n x =>
        have hn := hh.suc_pos (by omega) rfl
        obtain ⟨n, rfl⟩ : ∃ m, n = m + 1 := ⟨n - 1, by omega⟩
        cases hv
      | cons a x =>
        have ha : a.value = h := by
          injection hv with _ hv
          injection hv
        have hx : (Expr.cons a x).value.cells = a.value.cells + x.value.cells + 2 := cells_pair symCon _ _
        rw [ha] at hx
        omega
      | _ => trivial
    rw [graft_closed hclosed] at hv hshort
    subst hds
    injection hv with _ hv
    injection hv with hhv hv
    injection hv with htv _
    cases hshort with
    | cons hsh hst =>
      have hfine : ∀ a ∈ [h, t], Fine a := by
        intro a ha
        rcases List.mem_cons.mp ha with rfl | ha
        · exact ihh hhv hsh
        · rw [List.mem_singleton.mp ha]
          exact iht htv hst
      refine .ctr hfine (fun hs => ?_) (fun hs => ?_) (fun _ => rfl) (fun k d heq => ?_) (fun ds heq => ?_)
        (fun h' t' heq => .inr ?_)
      · cases hs
      · cases hs
      · rw [peano_ctr (by decide) heq]
        decide
      · exact absurd ⟨ds, heq⟩ hno
      · injection heq with _ heq
        injection heq with heq _
        rw [← heq]
        exact hh.closed_iff.mp hclosed
  | @plain nam ds es hzer hsuc hcon hnil hlen _ ih =>
    have hval : valueAll es = ds := by
      injection hv
    cases hshort with
    | plain _ hes =>
      refine .ctr (fun x hx => ?_) (fun hs => absurd hs hzer) (fun hs => absurd hs hsuc)
        (fun hs => absurd hs hcon) (fun k d heq => ?_) (fun ds heq => ?_) (fun h t heq => ?_)
      · obtain ⟨i, hi, rfl⟩ := List.getElem_of_mem hx
        have hi' : i < es.length := hlen ▸ hi
        refine ih i hi hi' ?_ (hes _ (List.getElem_mem _))
        rw [← getElem_valueAll ((length_valueAll es).symm ▸ hi') hi']
        exact List.getElem_of_eq hval _
      · rw [peano_ctr hsuc heq]
        decide
      · rw [(chain_ctr hcon heq).1]
        exact Nat.zero_le _
      · injection heq with heq _
        exact absurd heq hcon

/-- The fields of a constructor, each with its text. -/
theorem texts_of_fields {args : List Datum}
    (h : ∀ a ∈ args, ∃ e, Spells a e ∧ e.value = a ∧ Short e) :
    ∃ es : List Expr, args.length = es.length ∧
      (∀ i (hi : i < args.length) (hi' : i < es.length), Spells args[i] es[i]) ∧
      valueAll es = args ∧ ∀ e ∈ es, Short e := by
  induction args with
  | nil => exact ⟨[], rfl, fun i hi => absurd hi (Nat.not_lt_zero i), rfl, fun e he => absurd he List.not_mem_nil⟩
  | cons a args ih =>
    obtain ⟨e, hs, hv, hshort⟩ := h a List.mem_cons_self
    obtain ⟨es, hlen, hes, hvs, hshorts⟩ := ih fun x hx => h x (List.mem_cons_of_mem _ hx)
    refine ⟨e :: es, congrArg Nat.succ hlen, fun i hi hi' => ?_, ?_, fun x hx => ?_⟩
    · cases i with
      | zero => exact hs
      | succ i => exact hes i (Nat.lt_of_succ_lt_succ hi) (Nat.lt_of_succ_lt_succ hi')
    · rw [valueAll, hv, hvs]
    · rcases List.mem_cons.mp hx with rfl | hx
      · exact hshort
      · exact hshorts x hx

/-- A fine term has a text that is read back as it. -/
theorem Fine.spells (hfine : Fine d) : ∃ e, Spells d e ∧ e.value = d ∧ Short e := by
  induction hn : d.cells using Nat.strong_induction_on generalizing d with
  | _ n ih =>
    obtain ⟨k, y, rfl, hy⟩ := exists_peano d
    have hbase := hfine.base
    have hk : k < 2 ^ 32 := by
      cases k with
      | zero => decide
      | succ k =>
        cases hfine with
        | ctr _ _ _ _ hk _ _ => exact hk (k + 1) y rfl
    have hu : u32 k = k := Nat.mod_eq_of_lt hk
    by_cases hzero : y = zero
    · subst hzero
      exact ⟨.nat (u32 k), .nat k, by rw [Expr.value, hu], .nat _⟩
    by_cases hpos : 0 < k
    · have hlt : y.cells < n := by
        rw [cells_peano] at hn
        omega
      obtain ⟨e, hs, hv, hshort⟩ := ih _ hlt hbase rfl
      exact ⟨.suc (u32 k) e, .suc hpos hy hzero hs, by rw [Expr.value, hu, hv], .suc _ hshort⟩
    obtain rfl : k = 0 := by omega
    change Fine y at hfine
    change y.cells = n at hn
    change ∃ e, Spells y e ∧ e.value = y ∧ Short e
    by_cases hproper : y.Proper
    · obtain ⟨ds, rfl⟩ := hproper
      have helem := hfine.element
      have hcap : ds.length ≤ literalCap := by
        cases ds with
        | nil => exact Nat.zero_le _
        | cons x xs =>
          cases hfine with
          | ctr _ _ _ _ _ hcap _ => exact hcap (x :: xs) rfl
      have hall : ∀ x ∈ ds, ∃ e, Spells x e ∧ e.value = x ∧ Short e := fun x hx => by
        have hlt := cells_lt_of_mem hx
        rw [cells_chain] at hn
        exact ih x.cells (by omega) (helem x hx) rfl
      obtain ⟨es, hlen, hes, hvs, hshort⟩ := texts_of_fields hall
      exact ⟨.list es, .list hlen hes, by rw [Expr.value, hvs], .list (hlen ▸ hcap) hshort⟩
    · cases hfine with
      | num m => exact ⟨.num m, .num m, rfl, .num m⟩
      | @ctr nam args hargs hzer hsuc hcon _ _ hpair =>
        have hfields : ∀ a ∈ args, ∃ e, Spells a e ∧ e.value = a ∧ Short e := fun a ha => by
          have hlt := cells_lt_of_mem ha
          rw [Datum.cells] at hn
          exact ih a.cells (by omega) (hargs a ha) rfl
        have hzer' : nam ≠ symZer := fun h => by
          rw [h, hzer h] at hzero
          exact hzero rfl
        have hsuc' : nam ≠ symSuc := fun h => by
          obtain ⟨x, hx⟩ := List.length_eq_one_iff.mp (hsuc h)
          rw [h, hx] at hy
          exact hy x rfl
        by_cases hc : nam = symCon
        · obtain ⟨a, b, hab⟩ := List.length_eq_two.mp (hcon hc)
          subst hc hab
          obtain ⟨e, hes, hev, hesh⟩ := hfields a List.mem_cons_self
          obtain ⟨f, hfs, hfv, hfsh⟩ := hfields b (List.mem_cons_of_mem _ List.mem_cons_self)
          have hopen : ¬ a.Opens := (hpair a b rfl).resolve_left hproper
          have hclosed := hes.closed_iff.mpr hopen
          refine ⟨graft e f, .con hproper hes hfs, ?_, ?_⟩
          · rw [graft_closed hclosed, Expr.value, hev, hfv]
          · rw [graft_closed hclosed]
            exact .cons hesh hfsh
        · obtain ⟨es, hlen, hes, hvs, hshort⟩ := texts_of_fields hfields
          refine ⟨.plain nam es, .plain hzer' hsuc' hc (fun hnil hempty => ?_) hlen hes, ?_, .plain nam hshort⟩
          · exact hproper ⟨[], by rw [hnil, hempty, chain]⟩
          · rw [Expr.value, hvs]

end Hvm.Data
