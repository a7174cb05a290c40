import Hvm.Effect
import Hvm.Parse.Fields

/-! Auto-dup as a linearisation. The walk of `auto_dup_go` visits the cells of the body
one after another, and a visit rewrites a cell for good only when it is the only one to
that cell. -/

namespace Hvm

open Effect

/-- A word that the walk rewrites: the target, or a reference to a binder of the body. -/
def DupChain.affects (d : DupChain) (t : Term) : Prop :=
  d.hits t ∨ isQuoted t ∧ d.base < t.val

instance (d : DupChain) (t : Term) : Decidable (d.affects t) :=
  inferInstanceAs (Decidable (_ ∨ _))

/-- What the parser promises of a target: a bound variable at or below the base level. -/
structure DupChain.Ok (d : DupChain) : Prop where
  tgt : d.tgt = .bjv ∨ d.tgt = .bj0 ∨ d.tgt = .bj1
  lvl : d.lvl ≤ d.base
  ext : d.ext ≤ extMask
  bjv : d.tgt = .bjv → d.ext = 0
  labs : d.lab + d.n ≤ extMask
  pos : 0 < d.n

/-- A reference into the body, moved up past the chain. -/
def DupChain.shift (d : DupChain) (w : Term) : Term := termNew false w.tag w.ext (w.val + d.n)

/-- One visit of `auto_dup_go`, without what it goes on to visit. -/
def DupChain.visit (d : DupChain) (st : Rt × Nat) (c : Nat) : Rt × Nat :=
  let t := heapRead st.1 c
  if d.hits t then (heapSet st.1 c (d.link st.2), st.2 + 1)
  else if isQuoted t ∧ d.base < t.val then
    (heapSet st.1 c (d.shift t), st.2)
  else st

variable {d : DupChain}

theorem isQuoted_of_hits (hd : d.Ok) {t : Term} (h : d.hits t) : isQuoted t := by
  simp only [DupTarget.hits, decide_eq_true_eq] at h
  simp only [isQuoted, h.1, decide_eq_true_eq]
  exact hd.tgt

theorem termArity_of_isQuoted {t : Term} (h : isQuoted t) : termArity t = 0 := by
  simp only [isQuoted, decide_eq_true_eq] at h
  rcases h with h | h | h <;> simp [termArity, tagArity, h]

theorem isQuoted_termNew (t : Term) (ext val : Nat) :
    isQuoted (termNew false t.tag ext val) = isQuoted t := rfl

theorem isQuoted_link (i : Nat) : isQuoted (d.link i) := by
  unfold DupChain.link
  split <;> simp [isQuoted, termNew]

theorem link_val (hd : d.Ok) (i : Nat) : d.base < (d.link i).val ∧
    (d.link i).val ≤ d.base + d.n := by
  have hpos := hd.pos
  unfold DupChain.link
  split
  · simp only [termNew]
    omega
  · simp only [termNew]
    omega

/-! ### The walk is a list of visits -/

/-- Heaps that differ at most in the variables some cells hold. -/
def Drift (rt rt' : Rt) : Prop :=
  ∀ c, heapRead rt' c = heapRead rt c ∨ isQuoted (heapRead rt c) ∧ isQuoted (heapRead rt' c)

theorem Drift.visit (hd : d.Ok) {rt : Rt} {st : Rt × Nat} (h : Drift rt st.1) (c : Nat) :
    Drift rt (d.visit st c).1 := by
  have hold (t : Term) (hq : isQuoted (heapRead st.1 c)) (ht : isQuoted t) :
      Drift rt (heapSet st.1 c t) := by
    intro c'
    by_cases hc : c' = c
    · subst hc
      refine Or.inr ⟨?_, by simpa using ht⟩
      rcases h c' with he | he
      · rwa [he] at hq
      · exact he.1
    · simpa [hc] using h c'
  simp only [DupChain.visit]
  split
  · exact hold _ (isQuoted_of_hits hd ‹_›) (isQuoted_link _)
  · split
    · rename_i hq
      exact hold _ hq.1 ((isQuoted_termNew _ _ _).trans hq.1)
    · exact h

theorem kidLocs_eq_range {w : Term} {F : Fields} (hlen : F.length = termArity w)
    (hsmall : ∀ c ∈ F.cells w.val, c < 2 ^ 32) : kidLocs w = List.range' w.val F.length := by
  rw [kidLocs, ← hlen, List.range'_eq_map_range]
  refine List.map_congr_left fun i hi => ?_
  have hlt := hsmall _ (Fields.mem_cells_of_lt i (List.mem_range.mp hi))
  exact Nat.mod_eq_of_lt hlt

/-- The recursive walk over stored fields visits their cells in order. -/
theorem autoDupGo_fold (hd : d.Ok) {rt : Rt} {F : Fields} {fuel loc : Nat} {st st' : Rt × Nat}
    (hstored : F.Stored rt loc) (hdrift : Drift rt st.1)
    (hsmall : ∀ c ∈ F.cells loc, c < 2 ^ 32)
    (h : (List.range' loc F.length).foldlM (autoDupGo d fuel) st = some st') :
    st' = (F.cells loc).foldl d.visit st ∧ Drift rt st'.1 := by
  induction F generalizing fuel loc st st' with
  | nil =>
    simp only [Fields.length, List.range'_zero, List.foldlM_nil, Option.pure_def,
      Option.some.injEq] at h
    subst h
    exact ⟨rfl, hdrift⟩
  | cons w sub rest ihs ihr =>
    obtain ⟨hw, hlen, hsub, hrest⟩ := hstored
    simp only [Fields.length, List.range'_succ, List.foldlM_cons, Option.bind_eq_bind,
      Option.bind_eq_some_iff] at h
    obtain ⟨st1, hgo, h⟩ := h
    have hsmallSub : ∀ c ∈ sub.cells w.val, c < 2 ^ 32 := fun c hc =>
      hsmall c (List.mem_cons_of_mem _ (List.mem_append_left _ hc))
    have hsmallRest : ∀ c ∈ rest.cells (loc + 1), c < 2 ^ 32 := fun c hc =>
      hsmall c (List.mem_cons_of_mem _ (List.mem_append_right _ hc))
    have hone : st1 = (sub.cells w.val).foldl d.visit (d.visit st loc) ∧ Drift rt st1.1 := by
      cases fuel with
      | zero => cases hgo
      | succ fuel =>
        have hdv := hdrift.visit hd loc
        simp only [autoDupGo] at hgo
        have hleaf (hq : isQuoted (heapRead st.1 loc)) : sub = .nil := by
          refine Fields.eq_nil_of_length (hlen.trans (termArity_of_isQuoted ?_))
          rcases hdrift loc with he | he
          · rwa [he, hw] at hq
          · rw [← hw]
            exact he.1
        split at hgo
        · rename_i hh
          cases hgo
          rw [hleaf (isQuoted_of_hits hd hh)]
          simp only [DupChain.visit, hh, if_true] at hdv ⊢
          exact ⟨rfl, hdv⟩
        · rename_i hh
          split at hgo
          · rename_i hq
            cases hgo
            rw [hleaf hq.1]
            simp only [DupChain.visit, hh, hq, and_self, if_true] at hdv ⊢
            exact ⟨rfl, hdv⟩
          · rename_i hq
            have hvisit : d.visit st loc = st := by simp only [DupChain.visit, hh, hq, if_false]; rfl
            rw [hvisit]
            rcases hdrift loc with he | he
            · rw [he, hw, kidLocs_eq_range hlen hsmallSub] at hgo
              exact ihs hsub hdrift hsmallSub hgo
            · rw [hleaf he.2]
              have hk : kidLocs (heapRead st.1 loc) = [] := by
                rw [kidLocs, termArity_of_isQuoted he.2]
                rfl
              rw [hk] at hgo
              cases hgo
              exact ⟨rfl, hdrift⟩
    obtain ⟨he1, hd1⟩ := hone
    have hfin := ihr hrest hd1 hsmallRest h
    rw [he1] at hfin
    simpa only [Fields.cells, List.foldl_cons, List.foldl_append] using hfin

/-! ### Cells visited once and cells visited again -/

theorem visit_of_ne {st : Rt × Nat} {c c' : Nat} (h : c' ≠ c) :
    heapRead (d.visit st c).1 c' = heapRead st.1 c' := by
  simp only [DupChain.visit]
  split
  · simp [h]
  · split
    · simp [h]
    · rfl

theorem visit_of_not_affects {st : Rt × Nat} {c : Nat} (h : ¬ d.affects (heapRead st.1 c)) :
    d.visit st c = st := by
  simp only [DupChain.affects, not_or] at h
  simp only [DupChain.visit, h.1, h.2, if_false]
  rfl

theorem visits_of_notMem {st : Rt × Nat} {cs : List Nat} {c : Nat} (h : c ∉ cs) :
    heapRead (cs.foldl d.visit st).1 c = heapRead st.1 c := by
  induction cs generalizing st with
  | nil => rfl
  | cons c' cs ih =>
    have hne : c ≠ c' := fun he => h (he ▸ List.mem_cons_self)
    rw [List.foldl_cons, ih fun hm => h (List.mem_cons_of_mem _ hm), visit_of_ne hne]

theorem visits_of_not_affects {st : Rt × Nat} {cs : List Nat} {c : Nat}
    (h : ¬ d.affects (heapRead st.1 c)) :
    heapRead (cs.foldl d.visit st).1 c = heapRead st.1 c := by
  induction cs generalizing st with
  | nil => rfl
  | cons c' cs ih =>
    have hone : heapRead (d.visit st c').1 c = heapRead st.1 c := by
      by_cases hc : c = c'
      · subst hc
        rw [visit_of_not_affects h]
      · exact visit_of_ne hc
    rw [List.foldl_cons, ih (by rwa [hone]), hone]

/-- The words after the walk: the targets become the links in order from `use` on, and the
references into the body move up. -/
def DupChain.relink (d : DupChain) : Nat → List Term → List Term
  | _, [] => []
  | use, w :: ws =>
    if d.hits w then d.link use :: d.relink (use + 1) ws
    else if isQuoted w ∧ d.base < w.val then
      d.shift w :: d.relink use ws
    else w :: d.relink use ws

/-- No cell that is visited again holds a word the walk rewrites. -/
def DupChain.VisitsOnce (d : DupChain) (rt : Rt) (cs : List Nat) : Prop :=
  ∀ c, d.affects (heapRead rt c) → cs.count c ≤ 1

/-- When every rewritten cell is visited once, the walk relinks the words. -/
theorem visits_relink (st : Rt × Nat) {cs : List Nat} (h : d.VisitsOnce st.1 cs) :
    cs.map (heapRead (cs.foldl d.visit st).1) = d.relink st.2 (cs.map (heapRead st.1)) := by
  induction cs generalizing st with
  | nil => rfl
  | cons c cs ih =>
    simp only [List.map_cons, List.foldl_cons]
    by_cases ha : d.affects (heapRead st.1 c)
    · have hnot : c ∉ cs := by
        intro hm
        have hcount := h c ha
        rw [List.count_cons_self] at hcount
        have hpos := List.count_pos_iff.mpr hm
        omega
      have hsame : cs.map (heapRead (d.visit st c).1) = cs.map (heapRead st.1) :=
        List.map_congr_left fun c' hc' => visit_of_ne fun he => hnot (he ▸ hc')
      have honce : d.VisitsOnce (d.visit st c).1 cs := by
        intro c' hc'
        by_cases he : c' = c
        · subst he
          rw [List.count_eq_zero_of_not_mem hnot]
          exact Nat.zero_le 1
        · rw [visit_of_ne he] at hc'
          have hcount := h c' hc'
          rwa [List.count_cons_of_ne (Ne.symm he)] at hcount
      rw [visits_of_notMem hnot, ih _ honce, hsame]
      simp only [DupChain.visit, DupChain.relink]
      by_cases hh : d.hits (heapRead st.1 c)
      · simp [hh]
      · have hq := ha.resolve_left hh
        simp [hh, hq]
    · have hnh : ¬ d.hits (heapRead st.1 c) := fun hh => ha (Or.inl hh)
      have hnq : ¬ (isQuoted (heapRead st.1 c) ∧ d.base < (heapRead st.1 c).val) :=
        fun hq => ha (Or.inr hq)
      have honce : d.VisitsOnce st.1 cs := by
        intro c' hc'
        have hcount := h c' hc'
        have hle := List.count_le_count_cons (a := c') (b := c) (l := cs)
        omega
      rw [visit_of_not_affects ha, ih _ honce, visits_of_not_affects ha]
      simp only [DupChain.relink, hnh, hnq, if_false]
      rfl

/-- A variable above the base level moves at every visit. -/
theorem visits_moved (hd : d.Ok) {st : Rt × Nat} (cs : List Nat) {c : Nat}
    (hq : isQuoted (heapRead st.1 c)) (hb : d.base < (heapRead st.1 c).val) :
    (heapRead (cs.foldl d.visit st).1 c).val =
      (heapRead st.1 c).val + cs.count c * d.n := by
  induction cs generalizing st with
  | nil => simp
  | cons c' cs ih =>
    rw [List.foldl_cons]
    by_cases hc : c' = c
    · subst hc
      have hnh : ¬ d.hits (heapRead st.1 c') := by
        intro hh
        have hl := hd.lvl
        simp only [DupTarget.hits, decide_eq_true_eq] at hh
        omega
      have hone : heapRead (d.visit st c').1 c' = d.shift (heapRead st.1 c') := by
        simp [DupChain.visit, hnh, hq, hb]
      have hq1 : isQuoted (heapRead (d.visit st c').1 c') := by
        rw [hone]
        exact (isQuoted_termNew _ _ _).trans hq
      have hv1 : (heapRead (d.visit st c').1 c').val = (heapRead st.1 c').val + d.n := by
        rw [hone]
        rfl
      rw [ih hq1 (by omega), hv1, List.count_cons_self, Nat.succ_mul]
      omega
    · have hone := @visit_of_ne d st _ _ (Ne.symm hc)
      rw [ih (by rwa [hone]) (by rwa [hone]), hone, List.count_cons_of_ne hc]

/-- A target visited again is moved past the chain. -/
theorem visits_target (hd : d.Ok) {st : Rt × Nat} {cs : List Nat} {c : Nat}
    (hh : d.hits (heapRead st.1 c)) (hcount : 2 ≤ cs.count c) :
    d.base + d.n < (heapRead (cs.foldl d.visit st).1 c).val := by
  induction cs generalizing st with
  | nil => simp at hcount
  | cons c' cs ih =>
    rw [List.foldl_cons]
    by_cases hc : c' = c
    · subst hc
      have hone : heapRead (d.visit st c').1 c' = d.link st.2 := by
        simp [DupChain.visit, hh]
      have hv := link_val hd st.2
      rw [List.count_cons_self] at hcount
      rw [visits_moved hd cs (by rw [hone]; exact isQuoted_link _) (by rw [hone]; exact hv.1),
        hone]
      have hmul : 1 * d.n ≤ cs.count c' * d.n := Nat.mul_le_mul_right _ (by omega)
      omega
    · have hone := @visit_of_ne d st _ _ (Ne.symm hc)
      rw [List.count_cons_of_ne hc] at hcount
      exact ih (by rwa [hone]) hcount

/-! ### The words after the walk -/

/-- A reference as `parse_term_var` makes it. -/
def RefPlain (t : Term) : Prop :=
  isQuoted t → t.sub = false ∧ t.ext ≤ extMask ∧ (t.tag = .bjv → t.ext = 0)

instance (t : Term) : Decidable (RefPlain t) := inferInstanceAs (Decidable (_ → _))

def DupChain.target (d : DupChain) : Term := termNew false d.tgt d.ext d.lvl

theorem target_eq (hd : d.Ok) : d.target = ⟨false, d.tgt, d.ext, d.lvl⟩ := by
  have hext := hd.ext
  simp only [DupChain.target, termNew, Nat.mod_eq_of_lt (Nat.lt_succ_of_le hext)]

theorem eq_target_of_hits (hd : d.Ok) {w : Term} (hw : RefPlain w) (h : d.hits w) :
    w = d.target := by
  obtain ⟨hsub, -, hbjv⟩ := hw (isQuoted_of_hits hd h)
  simp only [DupTarget.hits, decide_eq_true_eq] at h
  obtain ⟨htag, hval, hext⟩ := h
  have he : w.ext = d.ext := by
    rcases hext with ht | he
    · rw [hbjv (htag.trans ht), hd.bjv ht]
    · exact he
  rw [target_eq hd, ← htag, ← hval, ← he, ← hsub]

theorem hits_target (hd : d.Ok) : d.hits d.target := by
  rw [target_eq hd]
  simp [DupTarget.hits]

theorem not_hits_of_base_lt (hd : d.Ok) {w : Term} (h : d.base < w.val) : d.hits w = false := by
  have hl := hd.lvl
  refine Bool.eq_false_iff.mpr fun hh => ?_
  simp only [DupTarget.hits, decide_eq_true_eq] at hh
  omega

theorem link_injective (hd : d.Ok) {i j : Nat} (hi : i ≤ d.n) (hj : j ≤ d.n)
    (h : d.link i = d.link j) : i = j := by
  have hpos := hd.pos
  unfold DupChain.link at h
  split at h <;> split at h
  · have hval := congrArg Term.val h
    simp only [termNew] at hval
    omega
  · cases congrArg Term.tag h
  · cases congrArg Term.tag h
  · omega

/-- What becomes of one word. -/
def DupChain.Step (d : DupChain) (w w' : Term) : Prop :=
  if d.hits w then ∃ i ≤ d.n, w' = d.link i
  else if isQuoted w ∧ d.base < w.val then w' = d.shift w
  else w' = w

theorem relink_step (use : Nat) (ws : List Term)
    (h : use + ws.countP d.hits ≤ d.n + 1) : List.Forall₂ d.Step ws (d.relink use ws) := by
  induction ws generalizing use with
  | nil => exact .nil
  | cons w ws ih =>
    unfold DupChain.relink
    by_cases hh : d.hits w
    · rw [List.countP_cons_of_pos hh] at h
      rw [if_pos hh]
      refine .cons ?_ (ih _ (by omega))
      rw [DupChain.Step, if_pos hh]
      exact ⟨use, by omega, rfl⟩
    · rw [List.countP_cons_of_neg hh] at h
      rw [if_neg hh]
      by_cases hq : isQuoted w ∧ d.base < w.val
      · rw [if_pos hq]
        refine .cons ?_ (ih _ h)
        rw [DupChain.Step, if_neg hh, if_pos hq]
      · rw [if_neg hq]
        refine .cons ?_ (ih _ h)
        rw [DupChain.Step, if_neg hh, if_neg hq]

/-- Each link up to the last one used occurs once. -/
theorem relink_count_link (hd : d.Ok) {use i : Nat} {ws : List Term} (hi : i ≤ d.n)
    (h : use + ws.countP d.hits ≤ d.n + 1) :
    (d.relink use ws).count (d.link i) =
      if use ≤ i ∧ i < use + ws.countP d.hits then 1 else 0 := by
  have hlink := link_val hd i
  induction ws generalizing use with
  | nil =>
    rw [DupChain.relink, List.count_nil, List.countP_nil, if_neg (by omega)]
  | cons w ws ih =>
    unfold DupChain.relink
    by_cases hh : d.hits w
    · rw [List.countP_cons_of_pos hh] at h ⊢
      rw [if_pos hh, List.count_cons, ih (by omega)]
      by_cases hui : use = i
      · subst hui
        rw [if_neg (by omega), if_pos (by simp), if_pos (by omega)]
      · have hne : (d.link use == d.link i) = false := by
          refine beq_eq_false_iff_ne.mpr fun he => hui (link_injective hd (by omega) hi he)
        rw [hne, if_neg Bool.false_ne_true]
        have hiff : use + 1 ≤ i ∧ i < use + 1 + ws.countP d.hits ↔
            use ≤ i ∧ i < use + (ws.countP d.hits + 1) := by omega
        simp only [hiff, Nat.add_zero]
    · rw [List.countP_cons_of_neg hh] at h ⊢
      rw [if_neg hh]
      by_cases hq : isQuoted w ∧ d.base < w.val
      · have hne : d.shift w ≠ d.link i := by
          intro he
          have hv : w.val + d.n = (d.link i).val := congrArg Term.val he
          omega
        rw [if_pos hq, List.count_cons_of_ne hne, ih h]
      · have hne : w ≠ d.link i := by
          rintro rfl
          exact hq ⟨isQuoted_link i, hlink.1⟩
        rw [if_neg hq, List.count_cons_of_ne hne, ih h]

/-- The walk neither adds nor removes variables at or below the base level, the target
apart. -/
theorem relink_countP (hd : d.Ok) {use : Nat} {ws : List Term} {P : Term → Bool}
    (hP : ∀ w, isQuoted w → d.base < w.val → P w = false) :
    (d.relink use ws).countP P = ws.countP fun w => P w && !d.hits w := by
  induction ws generalizing use with
  | nil => rfl
  | cons w ws ih =>
    unfold DupChain.relink
    by_cases hh : d.hits w
    · have hl := hP (d.link use) (isQuoted_link use) (link_val hd use).1
      rw [if_pos hh, List.countP_cons_of_neg (by simp [hl]), ih,
        List.countP_cons_of_neg (by simp [hh])]
    · rw [if_neg hh]
      by_cases hq : isQuoted w ∧ d.base < w.val
      · have hs : P (d.shift w) = false := by
          refine hP _ ((isQuoted_termNew w _ _).trans hq.1) ?_
          show d.base < w.val + d.n
          omega
        have hw := hP w hq.1 hq.2
        rw [if_pos hq, List.countP_cons_of_neg (by simp [hs]), ih,
          List.countP_cons_of_neg (by simp [hw])]
      · rw [if_neg hq, List.countP_cons, ih, List.countP_cons]
        simp [hh]

/-- Puts the target back for the links, and moves the other references down again. -/
def DupChain.restore (d : DupChain) (w : Term) : Term :=
  if w ∈ (List.range (d.n + 1)).map d.link then d.target
  else if isQuoted w ∧ d.base < w.val then termNew false w.tag w.ext (w.val - d.n)
  else w

theorem restore_step (hd : d.Ok) {w w' : Term} (hw : RefPlain w) (h : d.Step w w') :
    d.restore w' = w := by
  unfold DupChain.Step at h
  unfold DupChain.restore
  by_cases hh : d.hits w
  · rw [if_pos hh] at h
    obtain ⟨i, hi, rfl⟩ := h
    have hmem : d.link i ∈ (List.range (d.n + 1)).map d.link :=
      List.mem_map_of_mem (List.mem_range.mpr (by omega))
    rw [if_pos hmem, eq_target_of_hits hd hw hh]
  · rw [if_neg hh] at h
    by_cases hq : isQuoted w ∧ d.base < w.val
    · rw [if_pos hq] at h
      subst h
      have hnot : d.shift w ∉ (List.range (d.n + 1)).map d.link := by
        intro hm
        obtain ⟨i, -, he⟩ := List.mem_map.mp hm
        have hl := link_val hd i
        have hv : (d.link i).val = w.val + d.n := congrArg Term.val he
        omega
      have hquoted : isQuoted (d.shift w) ∧ d.base < (d.shift w).val := by
        refine ⟨(isQuoted_termNew w _ _).trans hq.1, ?_⟩
        show d.base < w.val + d.n
        omega
      obtain ⟨hsub, hext, -⟩ := hw hq.1
      have hmod : w.ext % (extMask + 1) = w.ext := Nat.mod_eq_of_lt (Nat.lt_succ_of_le hext)
      rw [if_neg hnot, if_pos hquoted]
      simp only [DupChain.shift, termNew, hmod, Nat.add_sub_cancel]
      rw [← hsub]
    · rw [if_neg hq] at h
      subst h
      have hnot : w' ∉ (List.range (d.n + 1)).map d.link := by
        intro hm
        obtain ⟨i, -, rfl⟩ := List.mem_map.mp hm
        exact hq ⟨isQuoted_link i, (link_val hd i).1⟩
      rw [if_neg hnot, if_neg hq]

end Hvm
