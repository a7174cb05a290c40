import Hvm.Parse.AffineBinders

/-! Lambdas: every form of binder, and the matches whose cases are chained through the last
field of each. -/

namespace Hvm

open Effect

set_option synthInstance.maxSize 100000
set_option synthInstance.maxHeartbeats 200000

/-! ### Lambdas -/

section Lambdas

variable {r : Calls} [r.Walk] {env : List Term} {p : Parse}

omit [r.Walk] in
theorem lamBody_gives (hr : r.Good) (hs : Scope env p) {depth : Nat} (hd : depth = env.length) :
    Gives p (lamBody r depth) (Yield p.rt.next env p) := by
  subst hd
  unfold lamBody
  refine (Stack.start env p).still_bind fun found q s => ?_
  have hsq := hs.aside s.retains.toAside
  refine Ensures.ite (fun _ => ?_) fun _ => ?_
  · refine (hr.lam env q hsq).mono fun t q' _ hy => ?_
    obtain ⟨F, hF⟩ := s.push hy
    exact hF.yield
  · refine s.still_bind fun _ q1 s1 => ?_
    refine (hr.term env q1 (hs.aside s1.retains.toAside)).mono fun t q' _ hy => ?_
    obtain ⟨F, hF⟩ := s1.push hy
    exact hF.yield

omit [r.Walk] in
theorem parseLamPlain_gives (hr : r.Good) (hs : Scope env p) {n nam : Nat} {cloned : Bool} :
    Gives p (parseLamPlain r n env.length nam cloned) (Yield p.rt.next env p) := by
  unfold parseLamPlain
  dsimp only
  have hat := binderAt_length env lamBinder []
  refine push_bind ?_
  refine Gives.bind (lamBody_gives hr (hs.push (bindIn_lam hat rfl) nofun) (by simp))
    fun body q hl ⟨hk, F, hF⟩ => pop_bind ?_
  refine countUses_bind hF hl.small ?_
  refine plainUses_gives (by simp) (target_lam hat rfl) hF hk.next ⟨hl.small, hl.forks⟩ rfl
    fun res G q1 hspent => ?_
  refine (newLam_gives hspent.parsed (Nat.le_trans hk.next hspent.next) (fits_lam _)
    (hspent.once _ (List.mem_singleton.mpr rfl))).mono fun t q2 _ ⟨hk2, _, hG⟩ => ?_
  exact ⟨(hspent.retains hk.pop (Nat.le_refl _)).trans hk2, _, hG⟩

theorem label_bind {β : Type} {c : Prop} [Decidable c] {k : Nat → Parser β}
    {Q : β → Parse → Prop} [∀ a, Walks (k a)] (hfresh : 0 < p.freshLab)
    (h : ∀ lab q, Still p q → 0 < lab ∧ lab < parseDynLab → Gives q (k lab) Q) :
    Gives p (if c then autoLabel >>= k else writtenLabel >>= k) Q :=
  Ensures.ite (fun _ => Gives.bind (autoLabel_gives hfresh) fun lab q _ hq => h lab q hq.1 hq.2)
    fun _ => Gives.bind writtenLabel_gives fun lab q _ hq => h lab q hq.1 hq.2

theorem parseLamDup_gives (hr : r.Good) (hs : Scope env p) {n nam : Nat} {cloned : Bool} :
    Gives p (parseLamDup r n env.length nam cloned) (Yield p.rt.next env p) := by
  unfold parseLamDup
  dsimp only
  refine Gives.still fun c q hq => ?_
  refine label_bind (hs.aside hq.toAside).fresh fun lab q0 hq0 hlab => ?_
  refine Gives.still fun _ q1 hq1 => push_bind ?_
  have hstart : Retains p q1 := hq.retains.trans (hq0.retains.trans hq1.retains)
  have hlen : (env ++ [hiddenBinder] ++ [dupBinder lab]).length = env.length + 2 := by simp
  have hat : binderAt (env ++ [hiddenBinder] ++ [dupBinder lab]) (env.length + 2) =
      some (dupBinder lab) := by
    simpa using binderAt_length (env ++ [hiddenBinder]) (dupBinder lab) []
  have hscope : Scope (env ++ [hiddenBinder] ++ [dupBinder lab])
      { q1 with binds := ⟨nam, env.length + 1 + 1, lab, false, cloned⟩ :: q1.binds } :=
    ((hs.aside hstart.toAside).append [hiddenBinder]).push (bindIn_dup hlab hat) nofun
  refine Gives.bind (lamBody_gives hr hscope hlen.symm)
    fun body q2 hl ⟨hk, F, hF⟩ => pop_bind ?_
  refine countUses_bind hF hl.small (countUses_bind hF hl.small ?_)
  refine sidesUses_gives hlen.symm (target_side true hlab hat) (target_side false hlab hat) rfl rfl
    hF hk.next ⟨hl.small, hl.forks⟩ rfl rfl (Or.inr ⟨rfl, rfl⟩) fun res G q3 hspent => ?_
  have hk3 : Retains p q3 := hstart.trans (hspent.retains hk.pop (Nat.le_refl _))
  refine (lamOverDup_gives _ (hspent.parsed.mono hstart.next (Nat.le_refl _)) hk3.next hlab
    fun side => ?_).mono fun t q4 _ ⟨hk4, G', hG', _⟩ => ⟨hk3.trans hk4, G', hG'⟩
  cases side
  · exact hspent.once _ (List.mem_cons_of_mem _ List.mem_cons_self)
  · exact hspent.once _ List.mem_cons_self

theorem parseLamDyn_gives (hr : r.Good) (hs : Scope env p) {n nam : Nat} {cloned : Bool} :
    Gives p (parseLamDyn r n env.length nam cloned) (Yield p.rt.next env p) := by
  unfold parseLamDyn
  dsimp only
  refine Gives.still fun _ q0 hq0 => ?_
  have hlen1 : (env ++ [hiddenBinder]).length = env.length + 1 := by simp
  have hlen3 : (env ++ [hiddenBinder] ++ [lamBinder] ++ [lamBinder]).length = env.length + 3 := by
    simp
  have hterm := hr.term _ _ ((hs.aside hq0.toAside).append [hiddenBinder])
  rw [hlen1] at hterm
  refine Gives.bind hterm fun labTerm q1 _ ⟨hk1, L, hL⟩ => ?_
  refine Gives.still fun _ q2 hq2 => Gives.still fun _ q3 hq3 => push_bind ?_
  have hk3 : Retains q1 q3 := hq2.retains.trans hq3.retains
  have hstart : Retains p q3 := hq0.retains.trans (hk1.trans hk3)
  have hat : binderAt (env ++ [hiddenBinder] ++ [lamBinder] ++ [lamBinder]) (env.length + 2) =
      some lamBinder := by
    simpa using binderAt_length (env ++ [hiddenBinder]) lamBinder [lamBinder]
  have hat' : binderAt (env ++ [hiddenBinder] ++ [lamBinder] ++ [lamBinder]) (env.length + 3) =
      some lamBinder := by
    simpa using binderAt_length (env ++ [hiddenBinder] ++ [lamBinder]) lamBinder []
  have hscope : Scope (env ++ [hiddenBinder] ++ [lamBinder] ++ [lamBinder])
      { q3 with binds := ⟨nam, env.length + 1 + 1, parseDynLab, false, cloned⟩ :: q3.binds } :=
    (((hs.aside hstart.toAside).append [hiddenBinder]).append [lamBinder]).push
      (bindIn_dyn hat rfl hat' rfl) nofun
  refine Gives.bind (lamBody_gives hr hscope hlen3.symm)
    fun body q4 hl ⟨hk4, F, hF⟩ => pop_bind ?_
  refine countUses_bind hF hl.small (countUses_bind hF hl.small ?_)
  refine sidesUses_gives hlen3.symm (target_lam hat rfl) (target_lam hat' rfl) ?_ ?_
    hF hk4.next ⟨hl.small, hl.forks⟩ rfl rfl (Or.inl ⟨rfl, rfl⟩) fun res G q5 hspent => ?_
  · exact hits_bjv (by simp)
  · exact hits_bjv (by simp)
  have hk5 : Retains q3 q5 := hspent.retains hk4.pop (Nat.le_refl _)
  rw [← bind_assoc]
  refine Gives.bind (twoLams_gives hspent.parsed hk5.next ?_ ?_)
    fun lam0 q6 _ ⟨hk6, M, hM, _⟩ => ?_
  · rw [hlen1]
    exact hspent.once _ List.mem_cons_self
  · rw [hlen1]
    exact hspent.once _ (List.mem_cons_of_mem _ List.mem_cons_self)
  have hk7 : Retains q1 q6 := hk3.trans (hk5.trans hk6)
  have hparts : Parts (env ++ [hiddenBinder]) q6.rt p.rt.next q6.rt.next
      [(labTerm, L), (lam0, M)] :=
    (Parts.push (hL.retains hk7 (Nat.le_refl _)) (.one (hM.mono hk3.next (Nat.le_refl _)))
      hk1.next hk7.next).mono hq0.retains.next (Nat.le_refl _)
  have hk : Retains p q6 := hstart.trans (hk5.trans hk6)
  exact (lamOverDdu_gives _ hparts hk.next).mono fun t q8 _ ⟨hk8, G', hG', _⟩ =>
    ⟨hk.trans hk8, G', hG'⟩

omit [r.Walk] in
theorem parseLamUnscoped_gives (hr : r.Good) (hs : Scope env p) {n : Nat} :
    Gives p (parseLamUnscoped r n env.length) (Yield p.rt.next env p) := by
  unfold parseLamUnscoped
  refine Gives.still fun _ q0 hq0 => Gives.still fun nam q1 hq1 => Gives.still fun _ q2 hq2 =>
    push_bind ?_
  have hstart : Retains p q2 := hq0.retains.trans (hq1.retains.trans hq2.retains)
  have hlen : (env ++ [hiddenBinder] ++ [lamBinder]).length = env.length + 2 := by simp
  have hat : binderAt (env ++ [hiddenBinder] ++ [lamBinder]) (env.length + 2) =
      some lamBinder := by
    simpa using binderAt_length (env ++ [hiddenBinder]) lamBinder []
  have hat1 : binderAt (env ++ [hiddenBinder] ++ [lamBinder]) (env.length + 1) =
      some hiddenBinder := by
    rw [List.append_assoc]
    exact binderAt_length env hiddenBinder [lamBinder]
  have hat2 : binderAt (env ++ [lamBinder] ++ [lamBinder]) (env.length + 1) = some lamBinder := by
    rw [List.append_assoc]
    exact binderAt_length env lamBinder [lamBinder]
  have hscope : Scope (env ++ [hiddenBinder] ++ [lamBinder])
      { q2 with binds := ⟨nam, env.length + 1 + 1, 0, false, false⟩ :: q2.binds } :=
    ((hs.aside hstart.toAside).append [hiddenBinder]).push (bindIn_lam hat rfl) nofun
  refine Gives.bind (lamBody_gives hr hscope hlen.symm)
    fun body q3 hl ⟨hk3, F, hF⟩ => pop_bind ?_
  have hzero : uses body F ⟨.bjv, env.length + 1, 0⟩ = 0 :=
    hF.countP_hidden hat1 (hides_hidden (Or.inl rfl))
  refine countUses_bind hF hl.small (checkAffine_bind fun hone => ?_)
  have hfits : List.Forall₂ Fits (env ++ [hiddenBinder] ++ [lamBinder])
      (env ++ [lamBinder] ++ [lamBinder]) :=
    List.rel_append (Fits.last (fits_hidden _)) (forall₂_fits_refl _)
  have hbody := hF.fits hfits
  have hk : Retains p { q3 with binds := q3.binds.tail } := hstart.trans hk3.pop
  have hparts : Parts (env ++ [lamBinder] ++ [lamBinder]) q3.rt p.rt.next q3.rt.next
      [(termNew false .bjv 0 (env.length + 1), .nil), (body, F)] :=
    Parts.push (parsed_bjv hat2 rfl) (.one (hbody.mono hstart.next (Nat.le_refl _)))
      (Nat.le_refl _) hk.next
  have hnode := termNewNode_parsed (q := { q3 with binds := q3.binds.tail }) .app 0 _ hparts
    hk.next (by decide) rfl
  refine Gives.bind hnode fun app q4 _ ⟨hk4, hG, hcount⟩ => ?_
  simp only [List.map_cons, List.map_nil, List.sum_cons, List.sum_nil] at hcount
  rw [← bind_assoc]
  refine Gives.bind (twoLams_gives hG (hk.trans hk4).next ?_ ?_) fun lamF q5 _ ⟨hk5, M, hM, _⟩ => ?_
  · rw [hcount _ (Or.inl rfl), hzero, uses_bjv]
    split <;> omega
  · rw [hcount _ (Or.inl rfl), uses_bjv, hits_bjv (by simp)]
    have hbody : uses body F ⟨.bjv, env.length + 2, 0⟩ ≤ 1 := hone
    simpa using hbody
  · have hkall : Retains p q5 := hk.trans (hk4.trans hk5)
    have s : Stack p.rt.next env [(lamF, M)] p q5 := ⟨hkall, hkall.next, .one hM⟩
    exact s.node_end [(lamF, M)] .uns 0 rfl (by decide) fun _ => rfl

/-! ### Matches -/

/-- A term but for the cell `loc`: any later term there completes it. -/
def Open (env : List Term) (lo : Nat) (rt : Rt) (t : Term) (loc : Nat) : Prop :=
  ∀ (rt' : Rt) (hi : Nat) (d : Term) (D : Fields),
    (∀ c, lo ≤ c → c < rt.next → c ≠ loc → heapRead rt' c = heapRead rt c) →
      heapRead rt' loc = d → Parsed env rt' rt.next hi d D → rt.next ≤ hi →
      ∃ F, Parsed env rt' lo hi t F

theorem Open.frame {rt rt' : Rt} {lo loc : Nat} {t : Term} (h : Open env lo rt t loc)
    (hn : rt.next ≤ rt'.next)
    (hk : ∀ c, lo ≤ c → c < rt.next → heapRead rt' c = heapRead rt c) :
    Open env lo rt' t loc := by
  intro rt'' hi d D hkeep hd hD hhi
  refine h rt'' hi d D (fun c hlo hc hne => ?_) hd (hD.mono hn (Nat.le_refl _))
    (Nat.le_trans hn hhi)
  rw [hkeep c hlo (Nat.lt_of_lt_of_le hc hn) hne, hk c hlo hc]

theorem Open.mono {rt : Rt} {lo lo' loc : Nat} {t : Term} (h : Open env lo rt t loc)
    (hlo : lo' ≤ lo) : Open env lo' rt t loc := by
  intro rt' hi d D hkeep hd hD hhi
  obtain ⟨F, hF⟩ := h rt' hi d D (fun c hc => hkeep c (Nat.le_trans hlo hc)) hd hD hhi
  exact ⟨F, hF.mono hlo (Nat.le_refl _)⟩

/-- An open term that completes an open term. -/
theorem Open.trans {rt rt' : Rt} {lo loc loc' : Nat} {t d : Term} (h : Open env lo rt t loc)
    (h' : Open env rt.next rt' d loc') (hn : rt.next ≤ loc') (hlo : lo ≤ loc)
    (hl : loc < rt.next) (hn' : rt.next ≤ rt'.next) (hd : heapRead rt' loc = d)
    (hk : ∀ c < rt.next, c ≠ loc → heapRead rt' c = heapRead rt c) : Open env lo rt' t loc' := by
  intro rt'' hi e E hkeep he hE hhi
  have hle : lo ≤ rt.next := Nat.le_trans hlo (Nat.le_of_lt hl)
  obtain ⟨D, hD⟩ := h' rt'' hi e E (fun c hc => hkeep c (Nat.le_trans hle hc)) he hE hhi
  refine h rt'' hi d D (fun c hlc hc hne => ?_) ?_ hD (Nat.le_trans hn' hhi)
  · rw [hkeep c hlc (Nat.lt_of_lt_of_le hc hn') (by omega), hk c hc hne]
  · rw [hkeep loc hlo (Nat.lt_of_lt_of_le hl hn') (by omega), hd]

/-- A case before the cell of its default. -/
theorem Open.case {rt : Rt} {lo : Nat} {tag : Tag} {v : Term} {V : Fields} (ext : Nat)
    (hv : Parsed env rt lo rt.next v V) (hlo : lo ≤ rt.next) (ht : tag = .swi ∨ tag = .mat) :
    let r := termNewNode rt tag ext [v, termNewNum 0]
    Open env lo r.1 r.2 (rt.next + 1) := by
  intro r rt' hi d D hkeep hd hD hhi
  have hnext : r.1.next = rt.next + 2 := termNewNode_next _ _ _ _
  rw [hnext] at hkeep hD hhi
  have hread : heapRead rt' rt.next = v := by
    rw [hkeep _ (by omega) (by omega) (by omega)]
    exact termNewNode_read rt tag ext [v, termNewNum 0] (i := 0) (by simp)
  have hkeepV (c : Nat) (hc : c ∈ V.cells v.val) : heapRead rt' c = heapRead rt c := by
    obtain ⟨hge, hlt⟩ := hv.block.bound c hc
    rw [hkeep c hge (by omega) (by omega)]
    exact termNewNode_frame rt tag ext _ hlt
  have hV : Parsed env rt' lo rt.next v V := { hv with block := hv.block.frame hkeepV }
  have hDcell {c : Nat} (hc : c ∈ D.cells d.val) : rt.next + 2 ≤ c := (hD.block.bound c hc).1
  have hVcell {c : Nat} (hc : c ∈ V.cells v.val) : c < rt.next := (hV.block.bound c hc).2
  have hrest : Block (fun _ => env) rt' lo hi (rt.next + 1) (.cons d D .nil) := by
    refine .cons hd (by omega) (hD.mono (by omega) (Nat.le_refl _)) .nil (fun hm => ?_)
      fun c _ _ => List.not_mem_nil
    rcases List.mem_append.mp hm with hm | hm
    · have hge := hDcell hm
      omega
    · exact List.not_mem_nil hm
  have hcells : Fields.cells (rt.next + 1) (.cons d D .nil) = (rt.next + 1) :: D.cells d.val := by
    simp [Fields.cells]
  refine ⟨.cons v V (.cons d D .nil), Parsed.of_block (t := termNew false tag ext rt.next) ?_ ?_
    (.cons hread (by show lo ≤ rt.next ∧ rt.next < hi; omega)
      (hV.mono (Nat.le_refl _) (by omega)) hrest ?_ ?_)⟩
  · show Inert tag
    rcases ht with rfl | rfl <;> decide
  · rcases ht with rfl | rfl <;> rfl
  · intro hm
    show False
    rcases List.mem_append.mp hm with hm | hm
    · exact absurd (hVcell hm) (Nat.lt_irrefl _)
    · rw [show (termNew false tag ext rt.next).val = rt.next from rfl, hcells] at hm
      rcases List.mem_cons.mp hm with he | hm
      · omega
      · have hge := hDcell hm
        omega
  · intro c hc _ hm
    rw [show (termNew false tag ext rt.next).val = rt.next from rfl, hcells] at hm
    have hlt := hVcell hc
    rcases List.mem_cons.mp hm with he | hm
    · omega
    · have hge := hDcell hm
      omega

/-- A pending match: no case yet, or a last case without a default. -/
def Pending (env : List Term) (lo : Nat) (rt : Rt) (m : Match) : Prop :=
  match m.tip with
  | none => m.term = termNewNum 0
  | some loc => lo ≤ loc ∧ loc < rt.next ∧ heapRead rt loc = termNewNum 0 ∧
      Open env lo rt m.term loc

theorem Pending.retains {lo : Nat} {m : Match} {q q' : Parse} (h : Pending env lo q.rt m)
    (hk : Retains q q') : Pending env lo q'.rt m := by
  obtain ⟨t, tip⟩ := m
  cases tip with
  | none => exact h
  | some loc =>
    obtain ⟨hlo, hlt, hzero, ho⟩ := h
    exact ⟨hlo, Nat.lt_of_lt_of_le hlt hk.next, (hk.keep loc hlt).trans hzero,
      ho.frame hk.next fun c _ => hk.keep c⟩

theorem parsed_num {rt : Rt} {lo hi n : Nat} : Parsed env rt lo hi (termNewNum n) .nil :=
  .leaf (fun hq => by cases hq) rfl (.of_not_quoted fun hq => by cases hq)

/-- A pending match without a default. -/
theorem Pending.close {lo : Nat} {m : Match} {rt : Rt} (h : Pending env lo rt m) :
    ∃ F, Parsed env rt lo rt.next m.term F := by
  obtain ⟨t, tip⟩ := m
  cases tip with
  | none =>
    rw [show t = termNewNum 0 from h]
    exact ⟨.nil, parsed_num⟩
  | some loc =>
    obtain ⟨-, -, hzero, ho⟩ := h
    exact ho rt rt.next _ .nil (fun _ _ _ _ => rfl) hzero parsed_num (Nat.le_refl _)

/-- A pending match that gets its default. -/
theorem Pending.put {lo : Nat} {m : Match} {q q' : Parse} {d : Term} {D : Fields}
    (h : Pending env lo q.rt m) (hk : Retains q q') (hlo : lo ≤ q.rt.next)
    (hp : p.rt.next ≤ lo)
    (hD : Parsed env q'.rt q.rt.next q'.rt.next d D) :
    Gives q' (m.put d) fun t r => Retains p q' → Yield lo env p t r := by
  obtain ⟨t, tip⟩ := m
  cases tip with
  | none => exact Ensures.pure fun hk' => ⟨hk', D, hD.mono hlo (Nat.le_refl _)⟩
  | some loc =>
    obtain ⟨hloc, hlt, -, ho⟩ := h
    refine Ensures.modify_bind (Ensures.pure fun hk' => ⟨hk'.store (Nat.le_trans hp hloc), ?_⟩)
    have hcells (c : Nat) (hc : c ∈ D.cells d.val) :
        heapRead (heapSet q'.rt loc d) c = heapRead q'.rt c := by
      have hge := (hD.block.bound c hc).1
      rw [heapRead_heapSet, if_neg (by omega)]
    have hframe : Parsed env (heapSet q'.rt loc d) q.rt.next q'.rt.next d D :=
      { hD with block := hD.block.frame hcells }
    refine ho (heapSet q'.rt loc d) q'.rt.next d D (fun c _ hc hne => ?_) ?_ hframe hk.next
    · rw [heapRead_heapSet, if_neg hne]
      exact hk.keep c hc
    · rw [heapRead_heapSet, if_pos rfl]

theorem parseCase_gives : Gives p parseCase fun c q =>
    Still p q ∧ ∀ x ∈ c, x.1 = .swi ∨ x.1 = .mat := by
  have hgive {q : Parse} {c : Option (Tag × Nat)} (hc : ∀ x ∈ c, x.1 = .swi ∨ x.1 = .mat) :
      Gives q (pure c) fun c _ => ∀ x ∈ c, x.1 = .swi ∨ x.1 = .mat := Ensures.pure hc
  have hswi (ext : Nat) : ∀ x ∈ some (Tag.swi, ext), x.1 = Tag.swi ∨ x.1 = Tag.mat := by simp
  have hmat (ext : Nat) : ∀ x ∈ some (Tag.mat, ext), x.1 = Tag.swi ∨ x.1 = Tag.mat := by simp
  have hnone : ∀ x ∈ (none : Option (Tag × Nat)), x.1 = Tag.swi ∨ x.1 = Tag.mat := by simp
  suffices htag : Gives p parseCase fun c _ => ∀ x ∈ c, x.1 = .swi ∨ x.1 = .mat from
    fun c q h hl => ⟨parseCase_within.run p c q h, htag c q h hl⟩
  unfold parseCase
  refine Gives.still fun c _ _ => Gives.still fun c1 _ _ => ?_
  refine Ensures.ite (fun _ => Gives.still fun code _ _ => Gives.still fun _ _ _ =>
    hgive (hswi code)) fun _ => ?_
  refine Ensures.ite (fun _ => ?_) fun _ => ?_
  · refine Gives.still fun ds _ _ => Gives.still fun _ _ _ => Gives.still fun c _ _ =>
      Gives.still fun c1 _ _ => ?_
    refine Ensures.ite (fun _ => hgive (hswi _)) fun _ => ?_
    refine Ensures.ite (fun _ => Gives.still fun _ _ _ => hgive (hmat _)) fun _ => ?_
    exact Ensures.ite (fun _ => Gives.still fun _ _ _ => Gives.still fun _ _ _ => hgive (hmat _))
      fun _ => hgive hnone
  refine Ensures.ite (fun _ => Gives.still fun _ _ _ => Gives.still fun nam _ _ =>
    hgive (hmat nam)) fun _ => ?_
  refine Ensures.ite (fun _ => Gives.still fun _ _ _ => Gives.still fun _ _ _ => hgive (hmat _))
    fun _ => ?_
  exact Ensures.ite (fun _ => Gives.still fun _ _ _ => Gives.still fun _ _ _ => hgive (hmat _))
    fun _ => hgive hnone

/-- What the loop over the cases keeps. -/
structure Casing (env : List Term) (p : Parse) (m : Match) (q : Parse) : Prop where
  retains : Retains p q
  pending : Pending env p.rt.next q.rt m

theorem Casing.after {m : Match} {q q' : Parse} (h : Casing env p m q) (hk : Retains q q') :
    Casing env p m q' :=
  ⟨h.retains.trans hk, h.pending.retains hk⟩

/-- The node of a case takes the place of the pending default. -/
theorem Casing.case {m : Match} {q q' : Parse} {v : Term} {V : Fields} {tag : Tag} {ext : Nat}
    (h : Casing env p m q) (hk : Retains q q') (hv : Parsed env q'.rt q.rt.next q'.rt.next v V)
    (ht : tag = .swi ∨ tag = .mat) :
    Gives q' (do
      let node ← build fun rt => termNewNode rt tag ext [v, termNewNum 0]
      let term ← m.put node
      return (⟨term, some (node.val + 1)⟩ : Match)) (Casing env p) := by
  have hbuild := build_gives (p := q') (fun rt => termNewNode rt tag ext [v, termNewNum 0])
    ((termNewNode_grows tag ext [v, termNewNum 0]).le q'.rt)
    fun c hc => termNewNode_frame _ _ _ _ hc
  have hcase := Open.case ext hv hk.next ht
  dsimp only at hcase
  refine Gives.bind hbuild fun node q1 _ ⟨hnode, hrt, hk1⟩ => ?_
  rw [← hrt, ← hnode] at hcase
  have hval : node.val = q'.rt.next := by rw [hnode]; rfl
  have hnext : q1.rt.next = q'.rt.next + 2 := by rw [hrt]; exact termNewNode_next _ _ _ _
  have hzero : heapRead q1.rt (q'.rt.next + 1) = termNewNum 0 := by
    rw [hrt]
    exact termNewNode_read q'.rt tag ext [v, termNewNum 0] (i := 1) (by simp)
  have hle := h.retains.next
  have hle' := hk.next
  have hkeep : Retains p q1 := h.retains.trans (hk.trans hk1)
  obtain ⟨t, tip⟩ := m
  unfold Match.put
  cases tip with
  | none =>
    refine Ensures.pure ⟨hkeep, ?_⟩
    rw [hval]
    exact ⟨by omega, by omega, hzero, hcase.mono hle⟩
  | some loc =>
    obtain ⟨hlo, hlt, -, ho⟩ := h.pending
    simp only [bind_assoc, pure_bind]
    refine Ensures.modify_bind (Ensures.pure (Casing.mk (hkeep.store hlo) ?_))
    rw [hval]
    have hother {c : Nat} (hc : c ≠ loc) : heapRead (heapSet q1.rt loc node) c = heapRead q1.rt c := by
      rw [heapRead_heapSet, if_neg hc]
    refine ⟨by omega, by show q'.rt.next + 1 < q1.rt.next; omega, ?_, ?_⟩
    · rw [hother (by omega)]
      exact hzero
    · refine ho.trans (d := node) (hcase.frame (Nat.le_refl _) fun c hc _ => hother (by omega))
        (by omega) hlo hlt ?_ ?_ fun c hc hne => ?_
      · show q.rt.next ≤ q1.rt.next
        omega
      · rw [heapRead_heapSet, if_pos rfl]
      · rw [hother hne]
        exact (hk.trans hk1).keep c hc

omit [r.Walk] in
theorem parseMatchCase_gives (hr : r.Good) (hs : Scope env p) {m : Match} {q : Parse} {tag : Tag}
    {ext : Nat} (h : Casing env p m q) (ht : tag = .swi ∨ tag = .mat) :
    Gives q (parseMatchCase r env.length m tag ext) (Casing env p) := by
  unfold parseMatchCase
  refine Gives.still fun _ q1 h1 => Gives.still fun _ q2 h2 => ?_
  have hk2 : Retains q q2 := h1.retains.trans h2.retains
  have hscope := hs.aside (h.retains.trans hk2).toAside
  refine Gives.bind (hr.term env q2 hscope) fun v q3 _ ⟨hk3, V, hV⟩ => ?_
  refine Gives.still fun _ q4 h4 => Gives.still fun _ q5 h5 => ?_
  have hk5 : Retains q3 q5 := h4.retains.trans h5.retains
  have hv : Parsed env q5.rt q2.rt.next q5.rt.next v V :=
    (hV.retains hk5 (Nat.le_refl _)).mono (Nat.le_refl _) hk5.next
  exact (h.after hk2).case (hk3.trans hk5) hv ht

omit [r.Walk] in
theorem parseMatchEnd_gives (hr : r.Good) (hs : Scope env p) {m : Match} {q : Parse}
    (h : Casing env p m q) :
    Gives q (parseMatchEnd r env.length m) (Yield p.rt.next env p) := by
  have hclose {q' : Parse} (hk : Retains q q') :
      Gives q' (pure m.term) (Yield p.rt.next env p) :=
    Ensures.pure ⟨h.retains.trans hk, (h.pending.retains hk).close⟩
  unfold parseMatchEnd
  refine Ensures.ite (fun _ => ?_) fun _ => ?_
  · have s : Stack p.rt.next env [] p q := ⟨h.retains, h.retains.next, .nil⟩
    refine s.term_bind hr hs fun f F q1 s1 => ?_
    refine s1.still_bind fun _ q2 s2 => s2.still_bind fun _ q3 s3 => ?_
    exact s3.node_end [(f, F)] .use 0 rfl (by decide) fun _ => rfl
  refine Gives.still fun c q1 h1 => ?_
  refine Ensures.ite (fun _ => ?_) fun _ => ?_
  · exact Gives.still fun _ q2 h2 => hclose (h1.retains.trans h2.retains)
  refine Gives.still fun _ q2 h2 => ?_
  have hk2 : Retains q q2 := h1.retains.trans h2.retains
  have hp2 := (h.after hk2).retains
  refine Gives.bind (hr.term env q2 (hs.aside hp2.toAside)) fun d q3 _ ⟨hk3, D, hD⟩ => ?_
  have hput := (h.after hk2).pending.put hk3 hp2.next (Nat.le_refl _) hD
  refine Gives.bind hput fun t q4 _ hy => ?_
  have hy4 := hy (hp2.trans hk3)
  refine Gives.still fun _ q5 h5 => Gives.still fun _ q6 h6 => Ensures.pure ?_
  obtain ⟨F, hF⟩ := hy4.parsed
  have hk6 : Retains q4 q6 := h5.retains.trans h6.retains
  exact ⟨hy4.retains.trans hk6, F, (hF.retains hk6 (Nat.le_refl _)).mono (Nat.le_refl _) hk6.next⟩

theorem parseLamMatch_gives (hr : r.Good) (hs : Scope env p) {n : Nat} :
    Gives p (parseLamMatch r n env.length) (Yield p.rt.next env p) := by
  unfold parseLamMatch
  refine Gives.still fun _ q1 h1 => Gives.still fun _ q2 h2 => Gives.still fun c q3 h3 => ?_
  have hk3 : Retains p q3 := h1.retains.trans (h2.retains.trans h3.retains)
  refine Ensures.ite (fun _ => ?_) fun _ => ?_
  · exact Gives.still fun _ q4 h4 =>
      pure_leaf (hk3.trans h4.retains) (fun hq => by cases hq) rfl
  refine loopM_gives (I := fun m q => Casing env p m q) (fun m q hm => ?_) ⟨hk3, rfl⟩
  unfold parseMatchTurn
  refine Gives.still fun _ q4 h4 => Ensures.get_bind ?_
  refine Gives.bind_walks (fun c => ?_) parseCase_gives fun c q5 _ ⟨h5, htag⟩ => ?_
  · cases c <;> infer_instance
  have hm5 := hm.after (h4.retains.trans h5.retains)
  cases c with
  | none =>
    refine Gives.still fun _ q6 h6 => ?_
    exact Gives.bind (parseMatchEnd_gives hr hs (hm5.after h6.retains)) fun t q7 _ hy =>
      Ensures.pure hy
  | some x =>
    obtain ⟨tag, ext⟩ := x
    exact Gives.bind (parseMatchCase_gives hr hs hm5 (htag _ rfl)) fun m' q6 _ hm6 =>
      Ensures.pure hm6

/-! ### Any lambda -/

theorem parseTermLam_gives (hr : r.Good) (hs : Scope env p) {n : Nat} :
    Gives p (parseTermLam r n env.length) (Yield p.rt.next env p) := by
  unfold parseTermLam
  refine Gives.still fun _ q1 h1 => Gives.still fun c q2 h2 => ?_
  have hk2 : Retains p q2 := h1.retains.trans h2.retains
  refine Ensures.ite (fun _ => hs.after hk2 fun hs => parseLamMatch_gives hr hs) fun _ => ?_
  refine Gives.still fun c q3 h3 => ?_
  have hk3 : Retains p q3 := hk2.trans h3.retains
  refine Ensures.ite (fun _ => hs.after hk3 fun hs => parseLamUnscoped_gives hr hs) fun _ => ?_
  refine Gives.still fun cloned q4 h4 => Gives.still fun nam q5 h5 => Gives.still fun _ q6 h6 =>
    Gives.still fun c q7 h7 => ?_
  have hk7 : Retains p q7 :=
    hk3.trans (h4.retains.trans (h5.retains.trans (h6.retains.trans h7.retains)))
  refine Ensures.ite (fun _ => ?_) fun _ => hs.after hk7 fun hs => parseLamPlain_gives hr hs
  refine Gives.still fun _ q8 h8 => Gives.still fun _ q9 h9 => Gives.still fun c q10 h10 => ?_
  have hk10 : Retains p q10 := hk7.trans (h8.retains.trans (h9.retains.trans h10.retains))
  exact Ensures.ite (fun _ => hs.after hk10 fun hs => parseLamDyn_gives hr hs)
    fun _ => hs.after hk10 fun hs => parseLamDup_gives hr hs

end Lambdas

end Hvm
