import Hvm.Parse.AffineDups

/-! Superpositions and forks: the two branches of a fork are read under all of its binders,
which are then wrapped around the node one by one. -/

namespace Hvm

open Effect

set_option synthInstance.maxSize 100000
set_option synthInstance.maxHeartbeats 200000

/-! ### The environment of the branches -/

/-- The levels of one binder of a fork. -/
def forkBlock (dyn : Bool) (lab : Nat) : List Term :=
  if dyn then [hiddenBinder, lamBinder, lamBinder] else [hiddenBinder, dupBinder lab]

/-- The environment under the first `k` binders of a fork. -/
def forkEnv (env : List Term) (dyn : Bool) (lab : Nat) : Nat → List Term
  | 0 => env
  | k + 1 => forkEnv env dyn lab k ++ forkBlock dyn lab

def forkStep (dyn : Bool) : Nat := if dyn then 3 else 2

section Env

variable (env : List Term) (dyn : Bool) (lab : Nat)

theorem forkEnv_length (k : Nat) :
    (forkEnv env dyn lab k).length = env.length + k * forkStep dyn := by
  induction k with
  | zero => simp [forkEnv]
  | succ k ih =>
    have hblock : (forkBlock dyn lab).length = forkStep dyn := by cases dyn <;> rfl
    rw [forkEnv, List.length_append, ih, hblock, Nat.succ_mul]
    omega

theorem forkEnv_append (i j : Nat) : ∃ inner, forkEnv env dyn lab (i + j) =
    forkEnv env dyn lab i ++ inner := by
  induction j with
  | zero => exact ⟨[], by simp⟩
  | succ j ih =>
    obtain ⟨inner, h⟩ := ih
    refine ⟨inner ++ forkBlock dyn lab, ?_⟩
    rw [← Nat.add_assoc, forkEnv, h, List.append_assoc]

/-- What stands at the levels of the `i`-th binder. -/
theorem binderAt_forkEnv {i k j : Nat} (hi : i < k) {b : Term}
    (hb : (forkBlock dyn lab)[j]? = some b) :
    binderAt (forkEnv env dyn lab k) (env.length + i * forkStep dyn + 1 + j) = some b := by
  obtain ⟨inner, h⟩ := forkEnv_append env dyn lab (i + 1) (k - (i + 1))
  rw [show i + 1 + (k - (i + 1)) = k by omega] at h
  rw [h]
  refine binderAt_append ?_ inner
  rw [forkEnv, binderAt_high (by rw [forkEnv_length]; omega), forkEnv_length]
  rw [show env.length + i * forkStep dyn + 1 + j - (env.length + i * forkStep dyn) - 1 = j by omega]
  exact hb

end Env

/-! ### Pushing and popping -/

/-- The binders a fork pushes, the last one first. -/
def forkBinds (depth d lab : Nat) : Nat → List Nat → List PBind → List PBind
  | _, [], binds => binds
  | i, nam :: names, binds =>
    forkBinds depth d lab (i + 1) names (⟨nam, depth + i * d + 1 + 1, lab, true, false⟩ :: binds)

theorem pushForkBinds_bind {β : Type} {p : Parse} {Q : β → Parse → Prop} {depth d lab i : Nat}
    {names : List Nat} {k : Unit → Parser β}
    (h : Gives { p with binds := forkBinds depth d lab i names p.binds } (k ()) Q) :
    Gives p (pushForkBinds depth d lab i names >>= k) Q := by
  induction names generalizing i p with
  | nil => exact h
  | cons nam names ih =>
    unfold pushForkBinds
    rw [bind_assoc]
    exact push_bind (ih h)

theorem popForkBinds_bind {β : Type} {p : Parse} {Q : β → Parse → Prop} {names : List Nat}
    {k : Unit → Parser β}
    (h : Gives { p with binds := p.binds.drop names.length } (k ()) Q) :
    Gives p (popForkBinds names >>= k) Q := by
  induction names generalizing p with
  | nil => exact h
  | cons nam names ih =>
    unfold popForkBinds
    rw [bind_assoc]
    refine pop_bind (ih ?_)
    rw [List.length_cons, ← List.drop_tail] at h
    exact h

theorem drop_forkBinds (depth d lab i : Nat) (names : List Nat) (binds : List PBind) :
    (forkBinds depth d lab i names binds).drop names.length = binds := by
  induction names generalizing i binds with
  | nil => rfl
  | cons nam names ih =>
    rw [List.length_cons, forkBinds, ← List.drop_drop, ih]
    rfl

theorem mem_forkBinds {depth d lab i : Nat} {names : List Nat} {binds : List PBind} {b : PBind}
    (h : b ∈ forkBinds depth d lab i names binds) :
    b ∈ binds ∨ ∃ j nam, i ≤ j ∧ j < i + names.length ∧
      b = ⟨nam, depth + j * d + 1 + 1, lab, true, false⟩ := by
  induction names generalizing i binds with
  | nil => exact Or.inl h
  | cons nam names ih =>
    rw [List.length_cons]
    rcases ih h with hm | ⟨j, nam', hij, hj, hb⟩
    · rcases List.mem_cons.mp hm with rfl | hm
      · exact Or.inr ⟨i, nam, Nat.le_refl i, by omega, rfl⟩
      · exact Or.inl hm
    · exact Or.inr ⟨j, nam', by omega, by omega, hb⟩

/-! ### The branches -/

section Forks

variable {r : Calls} [r.Walk] {env : List Term} {p : Parse}

/-- The side of the fork, which the branches set, is no part of what is kept. -/
theorem Retains.sided {q : Parse} (h : Retains p q) (side : Option Bool) :
    Retains { p with forkSide := side } { q with forkSide := side } where
  binds := h.binds
  side := rfl
  book := h.book
  fresh := h.fresh
  next := h.next
  keep := h.keep

theorem parseForkBranches_gives (hr : r.Good) (hs : ∀ side, Scope env { p with forkSide := some side })
    (hside : p.forkSide = none) :
    Gives p (parseForkBranches r env.length) fun lr q => Retains p q ∧ ∃ L R,
      Parts env q.rt p.rt.next q.rt.next [(lr.1, L), (lr.2, R)] := by
  unfold parseForkBranches
  refine Gives.still fun _ q1 h1 => Ensures.modify_bind ?_
  have hk1 := h1.retains
  have hs1 : Scope env { q1 with forkSide := some false } :=
    (hs false).aside (hk1.sided (some false)).toAside
  refine Gives.bind (hr.term env _ hs1) fun left q2 _ ⟨hk2, L, hL⟩ => ?_
  refine Gives.still fun _ q3 h3 => Gives.still fun _ q4 h4 => Gives.still fun _ q5 h5 =>
    Gives.still fun _ q6 h6 => Ensures.modify_bind ?_
  have hk6 : Retains q2 q6 := (h3.trans (h4.trans (h5.trans h6))).retains
  have hk16 : Retains q1 { q6 with forkSide := q1.forkSide } :=
    (hk2.trans hk6).sided q1.forkSide
  have hs6 : Scope env { q6 with forkSide := some true } :=
    (hs true).aside ((hk1.trans hk16).sided (some true)).toAside
  refine Gives.bind (hr.term env _ hs6) fun right q7 _ ⟨hk7, R, hR⟩ => Ensures.modify_bind ?_
  refine Gives.still fun _ q8 h8 => Gives.still fun _ q9 h9 => Gives.still fun _ q10 h10 => ?_
  have hk10 := (h8.trans (h9.trans h10)).retains
  have hnone : q1.forkSide = none := h1.side.trans hside
  have hk67 : Retains { q6 with forkSide := q1.forkSide } { q7 with forkSide := none } := by
    rw [hnone]
    exact hk7.sided none
  have hL6 : Parsed env q6.rt q1.rt.next q6.rt.next left L :=
    (hL.retains hk6 (Nat.le_refl _)).mono (Nat.le_refl _) hk6.next
  have hparts : Parts env q7.rt q1.rt.next q7.rt.next [(left, L), (right, R)] :=
    Parts.push (hL6.frame hk7.keep) (.one hR) (hk16.next) hk67.next
  have hparts10 := (hparts.frame hk10.keep).mono hk1.next hk10.next
  exact Ensures.pure ⟨hk1.trans (hk16.trans (hk67.trans hk10)), L, R, hparts10⟩

/-! ### The node and its binders -/

/-- A term without references below its root, under more binders. -/
theorem Parsed.lift {rt : Rt} {lo hi : Nat} {t : Term} {F : Fields}
    (h : Parsed env rt lo hi t F) (hF : F.Free) (inner : List Term) :
    Parsed (env ++ inner) rt lo hi t F where
  arity := h.arity
  plain := h.plain
  ref := h.ref.append inner
  binds := by
    intro _ side
    refine le_of_eq_of_le (List.countP_eq_zero.mpr fun x hx hhit => ?_) (Nat.zero_le 1)
    exact hF x (Fields.words_scope_subset t F x hx) (hits_quoted (sideOf_tgt _ _ _) hhit)
  block := { h.block with sound := hF.sound _ }

/-- Its root does not reach binders further in. -/
theorem Parsed.uses_free {rt : Rt} {lo hi : Nat} {t : Term} {F : Fields}
    (h : Parsed env rt lo hi t F) (hF : F.Free) {d : DupTarget}
    (hd : d.tgt = .bjv ∨ d.tgt = .bj0 ∨ d.tgt = .bj1) (hlvl : env.length < d.lvl) :
    uses t F d = 0 := by
  refine List.countP_eq_zero.mpr fun x hx hhit => ?_
  rcases List.mem_cons.mp hx with rfl | hx
  · have hq := hits_quoted hd hhit
    obtain ⟨-, hval, -⟩ := of_decide_eq_true hhit
    have hle : x.val ≤ env.length := by
      simp only [isQuoted, decide_eq_true_eq] at hq
      rcases hq with hq | hq
      · obtain ⟨b, hb, -⟩ := h.ref.lam hq
        exact le_of_binderAt hb
      · obtain ⟨b, hb, -⟩ := h.ref.dup hq
        exact le_of_binderAt hb
    omega
  · exact hF x hx (hits_quoted hd hhit)

theorem ForkSite.side_tgt (f : ForkSite) (i : Nat) (side : Bool) :
    (f.side i side).tgt = .bjv ∨ (f.side i side).tgt = .bj0 ∨ (f.side i side).tgt = .bj1 := by
  unfold ForkSite.side
  cases f.dyn <;> cases side <;> simp

theorem ForkSite.side_lvl (f : ForkSite) {i k : Nat} (hi : i < k) (side : Bool) :
    f.depth < (f.side i side).lvl ∧ (f.side i side).lvl ≤ f.depth + k * forkStep f.dyn := by
  have hmul : (i + 1) * forkStep f.dyn ≤ k * forkStep f.dyn := Nat.mul_le_mul_right _ hi
  unfold ForkSite.side
  cases hdyn : f.dyn <;> cases side <;> simp [forkStep, hdyn] at hmul ⊢ <;> omega

/-- The binders of a fork that a term is still to be wrapped in. -/
structure Wrapping (env : List Term) (f : ForkSite) (L : Fields) (lo i : Nat) (t : Term)
    (F : Fields) (q : Parse) : Prop where
  depth : f.depth = env.length
  lab : f.dyn = false → 0 < f.lab ∧ f.lab < parseDynLab
  label : f.dyn → Parsed env q.rt lo q.rt.next f.labTerm L ∧ L.Free
  low : lo ≤ q.rt.next
  parsed : Parsed (forkEnv env f.dyn f.lab i) q.rt lo q.rt.next t F
  once : ∀ j < i, ∀ side, uses t F (f.side j side) ≤ 1

omit [r.Walk] in
theorem Wrapping.dup {f : ForkSite} {L F : Fields} {lo i : Nat} {t : Term} {q : Parse}
    (h : Wrapping env f L lo (i + 1) t F q) (hdyn : f.dyn = false) :
    Gives q (build (fun rt => termNewDup rt f.lab (termNew false .bjv 0 (f.depth + i * 2 + 1)) t) >>=
        fun dup => newLam (f.depth + i * 2 + 1) dup) fun t' r => Retains q r ∧
      ∃ F', Wrapping env f L lo i t' F' r := by
  have hlen : (forkEnv env f.dyn f.lab i).length = f.depth + i * 2 := by
    rw [forkEnv_length, h.depth, hdyn]
    rfl
  have hF := h.parsed
  rw [forkEnv, forkBlock, if_neg (by simp [hdyn]), List.append_cons] at hF
  have hside (side : Bool) : f.side i side =
      ⟨if side then .bj1 else .bj0, (forkEnv env f.dyn f.lab i).length + 2, f.lab⟩ := by
    rw [hlen, ForkSite.side, if_neg (by simp [hdyn])]
  have hwrap := lamOverDup_gives (f.depth + i * 2 + 1) hF h.low (h.lab hdyn) fun side => by
    rw [← hside]
    exact h.once i (Nat.lt_succ_self i) side
  rw [hlen] at hwrap
  refine hwrap.mono fun t' q' _ ⟨hk, F', hF', hsame⟩ => ⟨hk, F', h.depth, h.lab, ?_, ?_, hF', ?_⟩
  · exact fun hd => absurd hd (by simp [hdyn])
  · exact Nat.le_trans h.low hk.next
  · intro j hj side
    have hlvl := (f.side_lvl hj side).2
    rw [hdyn] at hlvl
    rw [hsame _ (f.side_tgt j side) hlvl]
    exact h.once j (Nat.lt_succ_of_lt hj) side

omit [r.Walk] in
theorem Wrapping.ddu {f : ForkSite} {L F : Fields} {lo i : Nat} {t : Term} {q : Parse}
    (h : Wrapping env f L lo (i + 1) t F q) (hdyn : f.dyn = true) :
    Gives q (newLam (f.depth + i * 3 + 3) t >>= fun lam1 =>
      newLam (f.depth + i * 3 + 2) lam1 >>= fun lam0 =>
        build (fun rt => termNewDdu rt f.labTerm (termNew false .bjv 0 (f.depth + i * 3 + 1)) lam0) >>=
          fun ddu => newLam (f.depth + i * 3 + 1) ddu) fun t' r => Retains q r ∧
      ∃ F', Wrapping env f L lo i t' F' r := by
  have hlen : (forkEnv env f.dyn f.lab i).length = f.depth + i * 3 := by
    rw [forkEnv_length, h.depth, hdyn]
    rfl
  have hlen1 : (forkEnv env f.dyn f.lab i ++ [hiddenBinder]).length + 1 = f.depth + i * 3 + 2 := by
    rw [List.length_append, hlen]
    rfl
  have hF := h.parsed
  rw [forkEnv, forkBlock, if_pos hdyn, List.append_cons, List.append_cons] at hF
  have hside (side : Bool) : f.side i side =
      ⟨.bjv, f.depth + i * 3 + 2 + (if side then 1 else 0), 0⟩ := by
    rw [ForkSite.side, if_pos hdyn]
  have huse (side : Bool) : uses t F ⟨.bjv, f.depth + i * 3 + 2 + (if side then 1 else 0), 0⟩ ≤ 1 := by
    rw [← hside]
    exact h.once i (Nat.lt_succ_self i) side
  rw [← bind_assoc]
  refine Gives.bind (twoLams_gives hF h.low ?_ ?_) fun lam0 q1 _ ⟨hk1, M, hM, hsame⟩ => ?_
  · rw [hlen1]
    exact huse false
  · rw [show (forkEnv env f.dyn f.lab i ++ [hiddenBinder]).length + 2 = f.depth + i * 3 + 2 + 1 by omega]
    exact huse true
  obtain ⟨hL, hfree⟩ := h.label hdyn
  have hL1 : Parsed env q1.rt lo q1.rt.next f.labTerm L :=
    (hL.retains hk1 (Nat.le_refl _)).mono (Nat.le_refl _) hk1.next
  obtain ⟨inner, hinner⟩ := forkEnv_append env f.dyn f.lab 0 i
  rw [Nat.zero_add] at hinner
  have hlift : Parsed (forkEnv env f.dyn f.lab i ++ [hiddenBinder]) q1.rt lo q1.rt.next
      f.labTerm L := by
    rw [hinner, forkEnv, List.append_assoc]
    exact hL1.lift hfree _
  have hlow := Nat.le_trans h.low hk1.next
  have hwrap := lamOverDdu_gives (f.depth + i * 3 + 1)
    (Parts.push_free hlift hfree (.one hM)) hlow
  rw [hlen] at hwrap
  refine hwrap.mono fun t' q2 _ ⟨hk2, F', hF', hcount⟩ =>
    ⟨hk1.trans hk2, F', h.depth, h.lab, fun _ => ⟨?_, hfree⟩, Nat.le_trans hlow hk2.next, hF', ?_⟩
  · exact (hL1.retains hk2 (Nat.le_refl _)).mono (Nat.le_refl _) hk2.next
  · intro j hj side
    have htgt := f.side_tgt j side
    obtain ⟨hgt, hle⟩ := f.side_lvl hj side
    rw [hdyn] at hle
    have hlab := hL.uses_free hfree htgt (h.depth ▸ hgt)
    rw [hcount _ htgt hle, hlab, Nat.zero_add, hsame _ htgt ?_]
    · exact h.once j (Nat.lt_succ_of_lt hj) side
    · rw [List.length_append, hlen]
      exact Nat.le_succ_of_le hle

theorem wrapFork_gives {f : ForkSite} {L F : Fields} {lo i : Nat} {t : Term} {q : Parse}
    (h : Wrapping env f L lo i t F q) :
    Gives q (wrapFork f.depth f.dyn f.labTerm f.lab i t) fun t' r => Retains q r ∧
      ∃ F', Parsed env r.rt lo r.rt.next t' F' := by
  induction i generalizing t F q with
  | zero => exact Ensures.pure ⟨.refl q, F, h.parsed⟩
  | succ i ih =>
    unfold wrapFork
    dsimp only
    have hnext {t' : Term} {q' : Parse} (hk : Retains q q') (h' : ∃ F', Wrapping env f L lo i t' F' q') :
        Gives q' (wrapFork f.depth f.dyn f.labTerm f.lab i t') fun t' r => Retains q r ∧
          ∃ F', Parsed env r.rt lo r.rt.next t' F' := by
      obtain ⟨F', h'⟩ := h'
      exact (ih h').mono fun _ _ _ ⟨hk', hF⟩ => ⟨hk.trans hk', hF⟩
    by_cases hdyn : f.dyn = true
    · simp only [if_pos hdyn]
      have hwrap := Gives.bind (h.ddu hdyn) fun t' q' _ ⟨hk, h'⟩ => hnext hk h'
      simpa only [bind_assoc] using hwrap
    · rw [Bool.not_eq_true] at hdyn
      have hwrap := Gives.bind (h.dup hdyn) fun t' q' _ ⟨hk, h'⟩ => hnext hk h'
      simpa only [bind_assoc, hdyn, Bool.false_eq_true, if_false] using hwrap

/-- The binders of a fork, as its branches see them. -/
theorem forkBinds_scope (hs : Scope env p) {lab : Nat} {dyn : Bool} (names : List Nat)
    (hlab : dyn = false → 0 < lab ∧ lab < parseDynLab) (side : Bool) :
    Scope (forkEnv env dyn lab names.length)
      { p with
        binds := forkBinds env.length (forkStep dyn) (if dyn then parseDynLab else lab) 0 names p.binds
        forkSide := some side } where
  fresh := hs.fresh
  binds := by
    intro b hb
    rcases mem_forkBinds hb with hm | ⟨j, nam, -, hj, rfl⟩
    · obtain ⟨inner, hinner⟩ := forkEnv_append env dyn lab 0 names.length
      rw [Nat.zero_add] at hinner
      rw [hinner]
      exact (hs.binds b hm).append inner
    · rw [Nat.zero_add] at hj
      have hat (k : Nat) (w : Term) (hw : (forkBlock dyn lab)[k]? = some w) :=
        binderAt_forkEnv env dyn lab hj hw
      cases dyn with
      | true => exact bindIn_dyn (hat 1 lamBinder rfl) rfl (hat 2 lamBinder rfl) rfl
      | false => exact bindIn_dup (hlab rfl) (hat 1 (dupBinder lab) rfl)
  side := fun _ _ _ => rfl

/-- A fork, once its label is read. -/
theorem parseTermFork_gives (hr : r.Good) (hs : Scope env p) {n lab lo : Nat} {dyn : Bool}
    {labTerm : Term} {L : Fields} (hlab : dyn = false → 0 < lab ∧ lab < parseDynLab)
    (hlo : lo ≤ p.rt.next) (hL : dyn → Parsed env p.rt lo p.rt.next labTerm L) :
    Gives p (parseTermFork r n dyn labTerm lab env.length) (Yield lo env p) := by
  unfold parseTermFork
  dsimp only
  refine Ensures.get_bind (stopIf_bind fun hside => ?_)
  have hside0 : p.forkSide = none := by simpa using hside
  refine Gives.still fun names q1 h1 => Gives.still fun _ q2 h2 => pushForkBinds_bind ?_
  have h12 : Still p q2 := h1.trans h2
  have hlen : (forkEnv env dyn lab names.length).length =
      env.length + names.length * (if dyn then 3 else 2) := forkEnv_length env dyn lab names.length
  rw [← hlen]
  have hscope := forkBinds_scope (hs.aside h12.toAside) names hlab
  refine Gives.bind_walks (fun lr => inferInstance) (parseForkBranches_gives hr hscope (h12.side.trans hside0))
    fun lr q3 hl ⟨hk3, A, B, hAB⟩ => ?_
  obtain ⟨left, right⟩ := lr
  dsimp only at hAB ⊢
  refine popForkBinds_bind ?_
  have hk23 : Retains q2 { q3 with binds := q3.binds.drop names.length } := by
    refine ⟨⟨?_, hk3.side, hk3.book, hk3.fresh⟩, hk3.next, hk3.keep⟩
    show q3.binds.drop names.length = q2.binds
    rw [hk3.binds]
    exact drop_forkBinds _ _ _ _ _ _
  have hk : Retains p { q3 with binds := q3.binds.drop names.length } := h12.retains.trans hk23
  have hp4 : Parts (forkEnv env dyn lab names.length)
      { q3 with binds := q3.binds.drop names.length }.rt p.rt.next
      { q3 with binds := q3.binds.drop names.length }.rt.next [(left, A), (right, B)] :=
    hAB.mono h12.retains.next (Nat.le_refl _)
  generalize { q3 with binds := q3.binds.drop names.length } = q4 at hk hp4 ⊢
  let f : ForkSite := ⟨q4.rt, env.length, dyn, labTerm, lab, names.length, left, right⟩
  have hnote : Gives q4 (noteFork fun rt => ⟨rt, env.length, dyn, labTerm, lab, names.length, left, right⟩)
      fun _ q5 => q5 = { q4 with forks := f :: q4.forks } := fun _ q5 h _ => (modify_ok.mp h).symm
  refine Gives.bind hnote fun _ q5 hl5 h5 => Gives.still fun _ q6 h6 => ?_
  subst h5
  have hfine : f.Fine := hl5.forks f List.mem_cons_self
  have hk6 : Retains q4 q6 := ⟨⟨h6.binds, h6.side, h6.book, h6.fresh⟩, h6.retains.next, h6.retains.keep⟩
  have hL4 (hd : dyn) : Parsed env q4.rt lo q4.rt.next labTerm L ∧ L.Free := by
    have h4 := (hL hd).retains hk (Nat.le_refl _)
    exact ⟨h4.mono (Nat.le_refl _) hk.next, hfine.label hd L h4.arity h4.block.stored⟩
  have hA := hp4.held (left, A) List.mem_cons_self
  have hB := hp4.held (right, B) (List.mem_cons_of_mem _ List.mem_cons_self)
  have honce (j : Nat) (hj : j < names.length) (side : Bool) :
      uses left A (f.side j side) + uses right B (f.side j side) ≤ 1 :=
    hfine.affine j hj side A B hA.arity hA.block.stored hB.arity hB.block.stored
  have hwrap : Gives q6 (build fun rt =>
      if dyn then termNewDsu rt labTerm left right else termNewSup rt lab left right)
      fun t q7 => Retains q6 q7 ∧ ∃ F, Wrapping env f L lo names.length t F q7 := by
    have hp6 : Parts (forkEnv env dyn lab names.length) q6.rt lo q6.rt.next [(left, A), (right, B)] :=
      (hp4.retains hk6 (Nat.le_refl _)).mono hlo hk6.next
    have hlow : lo ≤ q6.rt.next := Nat.le_trans hlo (Nat.le_trans hk.next hk6.next)
    cases dyn with
    | true =>
      obtain ⟨hLp, hfree⟩ := hL4 rfl
      have hL6 : Parsed env q6.rt lo q6.rt.next labTerm L :=
        (hLp.retains hk6 (Nat.le_refl _)).mono (Nat.le_refl _) hk6.next
      obtain ⟨inner, hinner⟩ := forkEnv_append env true lab 0 names.length
      rw [Nat.zero_add] at hinner
      have hlift : Parsed (forkEnv env true lab names.length) q6.rt lo q6.rt.next labTerm L := by
        rw [hinner]
        exact hL6.lift hfree inner
      have hnode := termNewNode_parsed .dsu 0 _ (Parts.push_free hlift hfree hp6)
        hlow (by decide) rfl
      refine hnode.mono fun t q7 _ ⟨hk7, hG, hcount⟩ =>
        ⟨hk7, _, rfl, hlab, fun _ => ⟨?_, hfree⟩, ?_, hG, ?_⟩
      · exact (hL6.retains hk7 (Nat.le_refl _)).mono (Nat.le_refl _) hk7.next
      · exact Nat.le_trans hlow hk7.next
      · intro j hj side
        have hsum := honce j hj side
        have hzero : uses labTerm L (f.side j side) = 0 :=
          hL6.uses_free hfree (f.side_tgt j side) (f.side_lvl hj side).1
        rw [hcount _ (f.side_tgt j side)]
        simpa [hzero] using hsum
    | false =>
      have hnode := termNewNode_parsed .sup lab _ hp6 hlow (by decide) rfl
      refine hnode.mono fun t q7 _ ⟨hk7, hG, hcount⟩ => ⟨hk7, _, rfl, hlab, ?_, ?_, hG, ?_⟩
      · exact fun hd => absurd hd (by simp [f])
      · exact Nat.le_trans hlow hk7.next
      · intro j hj side
        have hsum := honce j hj side
        rw [hcount _ (f.side_tgt j side)]
        simpa using hsum
  refine Gives.bind hwrap fun t q7 _ ⟨hk7, F, hw⟩ => ?_
  exact (wrapFork_gives hw).mono fun t' q8 _ ⟨hk8, hF⟩ =>
    ⟨hk.trans (hk6.trans (hk7.trans hk8)), hF⟩

omit [r.Walk] in
theorem parseSupLabel_gives (hr : r.Good) (hs : Scope env p) :
    Gives p (parseSupLabel r env.length) fun x q => Retains p q ∧
      (x.1 = false → 0 < x.2.2 ∧ x.2.2 < parseDynLab) ∧
      ∃ L, x.1 → Parsed env q.rt p.rt.next q.rt.next x.2.1 L := by
  unfold parseSupLabel
  refine Gives.still fun c q1 h1 => ?_
  refine Ensures.ite (fun _ => ?_) fun _ => ?_
  · refine Gives.still fun _ q2 h2 => ?_
    have hk2 : Retains p q2 := (h1.trans h2).retains
    refine Gives.bind (hr.term env q2 (hs.aside hk2.toAside)) fun t q3 _ ⟨hk3, L, hL⟩ => ?_
    refine Gives.still fun _ q4 h4 => Ensures.pure ⟨hk2.trans (hk3.trans h4.retains), nofun, L, ?_⟩
    exact fun _ => (hL.retains h4.retains (Nat.le_refl _)).mono hk2.next h4.retains.next
  · refine Gives.bind writtenLabel_gives fun lab q2 _ ⟨h2, hlab⟩ => ?_
    exact Ensures.pure ⟨(h1.trans h2).retains, fun _ => hlab, .nil, nofun⟩

theorem parseTermSup_gives (hr : r.Good) (hs : Scope env p) {n : Nat} :
    Gives p (parseTermSup r n env.length) (Yield p.rt.next env p) := by
  unfold parseTermSup
  refine Gives.still fun _ q1 h1 => Gives.still fun c q2 h2 => ?_
  have hk2 : Retains p q2 := (h1.trans h2).retains
  refine Ensures.ite (fun _ => ?_) fun _ => ?_
  · refine Gives.still fun _ q3 h3 => Gives.still fun _ q4 h4 => ?_
    exact pure_leaf (hk2.trans (h3.trans h4).retains) (fun hq => by cases hq) rfl
  refine Gives.bind_walks (fun x => inferInstance) (parseSupLabel_gives hr (hs.aside hk2.toAside))
    fun x q3 _ ⟨hk3, hlab, L, hL⟩ => ?_
  obtain ⟨dyn, labTerm, lab⟩ := x
  dsimp only at hlab hL ⊢
  refine Gives.still fun _ q4 h4 => Gives.still fun found q5 h5 => ?_
  have hk35 : Retains q3 q5 := (h4.trans h5).retains
  have hk5 : Retains p q5 := hk2.trans (hk3.trans hk35)
  have hL5 (hd : dyn) : Parsed env q5.rt p.rt.next q5.rt.next labTerm L :=
    ((hL hd).retains hk35 (Nat.le_refl _)).mono hk2.next hk35.next
  refine Ensures.ite (fun _ => ?_) fun _ => ?_
  · exact (parseTermFork_gives hr (hs.aside hk5.toAside) hlab hk5.next hL5).mono fun t q6 _ hy =>
      hy.after hk5
  have hbranches (pre : List (Term × Fields)) {k : Term → Term → Parser Term} [∀ a b, Walks (k a b)]
      (s : Stack p.rt.next env pre p q5)
      (hk : ∀ a A b B q', Stack p.rt.next env (pre ++ [(a, A)] ++ [(b, B)]) p q' →
        Gives q' (k a b) (Yield p.rt.next env p)) :
      Gives q5 (do
        parseConsume (tok '{')
        let tm0 ← r.term env.length
        parseSkip
        let _ ← parseMatch (tok ',')
        let tm1 ← r.term env.length
        parseSkip
        let _ ← parseMatch (tok ',')
        parseConsume (tok '}')
        k tm0 tm1) (Yield p.rt.next env p) := by
    refine s.still_bind fun _ q6 s6 => s6.term_bind hr hs fun a A q7 s7 => ?_
    refine s7.still_bind fun _ q8 s8 => s8.still_bind fun _ q9 s9 => ?_
    refine s9.term_bind hr hs fun b B q10 s10 => ?_
    refine s10.still_bind fun _ q11 s11 => s11.still_bind fun _ q12 s12 => ?_
    exact s12.still_bind fun _ q13 s13 => hk a A b B q13 s13
  cases dyn with
  | true =>
    refine hbranches [(labTerm, L)] ⟨hk5, hk5.next, .one (hL5 rfl)⟩ fun a A b B q6 s6 => ?_
    exact s6.node_end [(labTerm, L), (a, A), (b, B)] .dsu 0 rfl (by decide) fun _ => rfl
  | false =>
    refine hbranches [] ⟨hk5, hk5.next, .nil⟩ fun a A b B q6 s6 => ?_
    exact s6.node_end [(a, A), (b, B)] .sup lab rfl (by decide) fun _ => rfl

/-! ### The knot -/

theorem parseTermPlain_gives (hr : r.Good) (hs : Scope env p) {n : Nat} :
    Gives p (parseTermPlain r n env.length) (Yield p.rt.next env p) := by
  unfold parseTermPlain
  refine Gives.still fun c q h => ?_
  refine Ensures.ite (fun _ => hs.after h.retains fun hs => parseTermLst_gives hr hs) fun _ => ?_
  refine Ensures.ite (fun _ => hs.after h.retains fun _ => parseTermChr_gives) fun _ => ?_
  refine Ensures.ite (fun _ => hs.after h.retains fun _ => parseTermStr_gives) fun _ => ?_
  refine Ensures.ite (fun _ => ?_) fun _ => hs.after h.retains fun hs => parseTermVar_gives hs
  refine hs.after h.retains fun hs => ?_
  refine Gives.bind_walks (fun t => ?_) (parseTermNat_gives hr hs) fun t q1 _ ⟨hk1, ht⟩ => ?_
  · cases t <;> unfold orNum <;> infer_instance
  cases t with
  | some t => exact Ensures.pure (ht t rfl)
  | none => exact hs.after hk1 fun _ => parseTermNum_gives

theorem parseTermAtom_gives (hr : r.Good) (hs : Scope env p) {n : Nat} :
    Gives p (parseTermAtom r n env.length) (Yield p.rt.next env p) := by
  unfold parseTermAtom
  refine Gives.still fun _ q0 h0 => Gives.still fun _ q1 h1 => ?_
  have h01 := h0.trans h1
  refine Ensures.ite (fun _ => hs.after h01.retains fun hs => parseTermLam_gives hr hs) fun _ => ?_
  refine Gives.still fun _ q2 h2 => ?_
  have h02 := h01.trans h2
  refine Ensures.ite (fun _ => hs.after h02.retains fun hs => parseTermDup_gives hr hs) fun _ => ?_
  refine Gives.still fun _ q3 h3 => ?_
  have h03 := h02.trans h3
  refine Ensures.ite (fun _ => hs.after h03.retains fun hs => parseTermSup_gives hr hs) fun _ => ?_
  refine Gives.still fun _ q4 h4 => ?_
  have h04 := h03.trans h4
  refine Ensures.ite (fun _ => hs.after h04.retains fun hs => parseTermCtr_gives hr hs) fun _ => ?_
  refine Gives.still fun _ q5 h5 => ?_
  have h05 := h04.trans h5
  refine Ensures.ite (fun _ => hs.after h05.retains fun _ => parseTermRef_gives) fun _ => ?_
  refine Gives.still fun _ q6 h6 => ?_
  have h06 := h05.trans h6
  refine Ensures.ite (fun _ => hs.after h06.retains fun hs => parseTermPri_gives hr hs) fun _ => ?_
  refine Gives.still fun _ q7 h7 => ?_
  have h07 := h06.trans h7
  refine Ensures.ite (fun _ => hs.after h07.retains fun hs => parseTermNam_gives hr hs) fun _ => ?_
  refine Gives.still fun _ q8 h8 => ?_
  have h08 := h07.trans h8
  refine Ensures.ite (fun _ => hs.after h08.retains fun hs => parseTermInc_gives hr hs) fun _ => ?_
  refine Gives.still fun _ q9 h9 => ?_
  have h09 := h08.trans h9
  refine Ensures.ite (fun _ => pure_leaf h09.retains (fun hq => by cases hq) rfl) fun _ => ?_
  refine Gives.still fun _ q10 h10 => ?_
  have h010 := h09.trans h10
  exact Ensures.ite (fun _ => hs.after h010.retains fun hs => parseTermPar_gives hr hs)
    fun _ => hs.after h010.retains fun hs => parseTermPlain_gives hr hs

theorem parseTerm_gives (hr : r.Good) (hs : Scope env p) :
    Gives p (parseTerm r env.length) (Yield p.rt.next env p) := by
  unfold parseTerm
  refine Gives.bind (hr.atom env p hs) fun t q _ hy => ?_
  obtain ⟨F, hF⟩ := hy.parsed
  have s : Stack p.rt.next env [(t, F)] p q := ⟨hy.retains, hy.retains.next, .one hF⟩
  exact s.app_end hr hs

end Forks

theorem calls_good (n : Nat) : (calls n).Good := by
  induction n with
  | zero =>
    exact ⟨fun _ _ _ => Ensures.throw, fun _ _ _ => Ensures.throw, fun _ _ _ => Ensures.throw,
      fun _ _ _ _ _ _ _ _ => Ensures.throw⟩
  | succ n ih =>
    exact ⟨fun _ _ hs => parseTerm_gives ih hs, fun _ _ hs => parseTermAtom_gives ih hs,
      fun _ _ hs => parseTermLam_gives ih hs, fun _ _ _ _ _ _ hs h => parseTermAppPrec_gives ih hs h⟩

end Hvm
