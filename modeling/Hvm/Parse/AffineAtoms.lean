import Hvm.Parse.Outcome

/-! The terms without binders are parsed under the binders in force. -/

namespace Hvm

open Effect

set_option synthInstance.maxSize 100000
set_option synthInstance.maxHeartbeats 200000

/-- What is taken of the functions that the grammar calls back. -/
structure Calls.Good (r : Calls) : Prop where
  term : ∀ env p, Scope env p → Gives p (r.term env.length) (Yield p.rt.next env p)
  atom : ∀ env p, Scope env p → Gives p (r.atom env.length) (Yield p.rt.next env p)
  lam : ∀ env p, Scope env p → Gives p (r.lam env.length) (Yield p.rt.next env p)
  app : ∀ env p lo f F minPrec, Scope env p → Stack lo env [(f, F)] p p →
    Gives p (r.app f env.length minPrec) (Yield lo env p)

/-! ### Variables -/

theorem parseBindLookup_some {nam : Nat} {side : Option Bool} {skipped skipped' : Bool}
    {binds : List PBind} {b : PBind}
    (h : parseBindLookup nam side skipped binds = (some b, skipped')) :
    b ∈ binds ∧ (side = none → b.lab = 0 ∨ b.forked) ∧ (side ≠ none → b.lab ≠ 0) := by
  induction binds generalizing skipped with
  | nil => cases h
  | cons c binds ih =>
    have hskip {sk : Bool} (h : parseBindLookup nam side sk binds = (some b, skipped')) :
        b ∈ c :: binds ∧ (side = none → b.lab = 0 ∨ b.forked) ∧ (side ≠ none → b.lab ≠ 0) :=
      ⟨List.mem_cons_of_mem _ (ih h).1, (ih h).2⟩
    unfold parseBindLookup at h
    split at h
    · split at h
      · exact hskip h
      · rename_i h1
        split at h
        · exact hskip h
        · rename_i h2
          cases h
          refine ⟨List.mem_cons_self, fun hn => ?_, fun hn hl => h2 ⟨hn, hl⟩⟩
          by_cases hl : b.lab = 0
          · exact Or.inl hl
          · refine Or.inr ?_
            by_contra hf
            exact h1 ⟨hn, hl, hf⟩
    · exact hskip h

theorem varTerm_quoted (b : PBind) (side : Option Bool) : isQuoted (varTerm b side) := by
  unfold varTerm
  split
  · rfl
  · split <;> rfl

/-- A reference to a binder in force designates it. -/
theorem BindIn.varTerm {env : List Term} {b : PBind} (h : BindIn env b) (side : Option Bool)
    (hside : side = none → b.lab = 0) (hlab : side ≠ none → b.lab ≠ 0) :
    RefPlain (varTerm b side) ∧ RefOk env (varTerm b side) := by
  unfold Hvm.varTerm
  by_cases hd : b.lab = parseDynLab
  · rw [if_pos hd]
    refine ⟨fun _ => ⟨rfl, Nat.zero_le _, fun _ => rfl⟩, ⟨fun _ => ?_, fun ht => ?_⟩⟩
    · by_cases hs : side = some true
      · simpa [hs, termNew] using h.dyn hd 1 (by omega)
      · simpa [hs, termNew] using h.dyn hd 0 (by omega)
    · rcases ht with ht | ht <;> cases ht
  · rw [if_neg hd]
    cases side with
    | none =>
      have h0 := hside rfl
      rw [h0]
      refine ⟨fun _ => ⟨rfl, Nat.zero_le _, fun _ => rfl⟩, ⟨fun _ => h.lam h0, fun ht => ?_⟩⟩
      rcases ht with ht | ht <;> cases ht
    | some s =>
      obtain ⟨hlt, w, hw, htag, hext⟩ := h.dup (hlab (by simp)) hd
      have hmod : b.lab % (extMask + 1) = b.lab := Nat.mod_eq_of_lt (Nat.lt_succ_of_lt hlt)
      cases s with
      | false =>
        refine ⟨fun _ => ⟨rfl, ?_, fun ht => (by cases ht)⟩, ⟨fun ht => (by cases ht), fun _ => ?_⟩⟩
        · exact Nat.le_of_lt_succ (Nat.mod_lt _ (Nat.succ_pos _))
        · exact ⟨w, hw, htag, hext.trans hmod.symm⟩
      | true =>
        refine ⟨fun _ => ⟨rfl, ?_, fun ht => (by cases ht)⟩, ⟨fun ht => (by cases ht), fun _ => ?_⟩⟩
        · exact Nat.le_of_lt_succ (Nat.mod_lt _ (Nat.succ_pos _))
        · exact ⟨w, hw, htag, hext.trans hmod.symm⟩

section Leaves

variable {env : List Term} {p : Parse}

/-- A word that is no reference and has no fields. -/
theorem pure_leaf {t : Term} {q : Parse} (hk : Retains p q) (hq : ¬ isQuoted t)
    (ha : termArity t = 0) : Gives q (pure t) (Yield p.rt.next env p) :=
  Ensures.pure ⟨hk, .nil, .leaf (fun h => (hq h).elim) ha (.of_not_quoted hq)⟩

theorem parseTermVar_gives (hs : Scope env p) :
    Gives p parseTermVar (Yield p.rt.next env p) := by
  unfold parseTermVar
  refine (Stack.start env p).still_bind fun _ q1 s1 => ?_
  refine s1.still_bind fun nam q2 s2 => ?_
  refine s2.still_bind fun _ q3 s3 => ?_
  refine s3.still_bind fun side q4 s4 => ?_
  refine s4.still_bind fun _ q5 s5 => ?_
  refine Ensures.get_bind ?_
  have hs5 := hs.aside s5.retains.toAside
  cases hb : parseBindLookup nam side false q5.binds with
  | mk bind skipped =>
    cases bind with
    | none =>
      intro t r h
      simp only [orStop, bind_ok, get_ok] at h
      obtain ⟨_, _, ⟨_, _, -, h⟩, -⟩ := h
      exact (throw_ok h).elim
    | some b =>
      obtain ⟨hmem, hnone, hsome⟩ := parseBindLookup_some hb
      intro t r h _
      simp only [orStop, bind_ok, get_ok, pure_ok] at h
      obtain ⟨b', r', ⟨_, _, ⟨rfl, rfl⟩, rfl, rfl⟩, rfl, rfl⟩ := h
      have hbind := hs5.binds b hmem
      have hfork := hs5.side b hmem
      obtain ⟨hplain, href⟩ := hbind.varTerm
        (if side = none ∧ b.forked then q5.forkSide else side)
        (fun hn => by
          split at hn
          · rename_i hf
            rw [hn] at hfork
            exact absurd (hfork hf.2) (by simp)
          · rename_i hf
            exact (hnone hn).resolve_right fun hk => hf ⟨hn, hk⟩)
        (fun hn => by
          split at hn
          · rename_i hf
            exact hbind.forked hf.2
          · exact hsome hn)
      exact ⟨s5.retains, .nil,
        .leaf hplain (termArity_of_isQuoted (varTerm_quoted _ _)) href⟩

theorem parseTermNum_gives : Gives p parseTermNum (Yield p.rt.next env p) := by
  unfold parseTermNum
  refine (Stack.start env p).still_bind fun _ q1 s1 => ?_
  refine s1.still_bind fun ds q2 s2 => ?_
  refine s2.still_bind fun _ q3 s3 => ?_
  refine s3.still_bind fun _ q4 s4 => ?_
  exact pure_leaf s4.retains (fun h => by cases h) rfl

theorem parseTermRef_gives : Gives p parseTermRef (Yield p.rt.next env p) := by
  unfold parseTermRef
  refine (Stack.start env p).still_bind fun nam q1 s1 => ?_
  exact pure_leaf s1.retains (fun h => by cases h) rfl

end Leaves

/-! ### Steps of a function that holds terms -/

namespace Stack

variable {r : Calls} {lo : Nat} {env : List Term} {as : List (Term × Fields)} {p q : Parse}
  {β : Type} {f : Term → Parser β} {Q : β → Parse → Prop}

theorem yield_bind [∀ a, Walks (f a)] {m : Parser Term} (h : Stack lo env as p q)
    (hm : Gives q m (Yield q.rt.next env q))
    (hf : ∀ t F q', Stack lo env (as ++ [(t, F)]) p q' → Gives q' (f t) Q) :
    Gives q (m >>= f) Q := by
  refine Gives.bind hm fun t q' _ hy => ?_
  obtain ⟨F, hF⟩ := h.push hy
  exact hf t F q' hF

theorem term_bind [∀ a, Walks (f a)] (h : Stack lo env as p q) (hr : r.Good)
    (hs : Scope env p)
    (hf : ∀ t F q', Stack lo env (as ++ [(t, F)]) p q' → Gives q' (f t) Q) :
    Gives q (r.term env.length >>= f) Q :=
  h.yield_bind (hr.term env q (hs.aside h.retains.toAside)) hf

/-- The right operand of an operator. -/
theorem operand_bind [r.Walk] [∀ a, Walks (f a)] {minPrec : Nat} (h : Stack lo env as p q)
    (hr : r.Good) (hs : Scope env p)
    (hf : ∀ t F q', Stack lo env (as ++ [(t, F)]) p q' → Gives q' (f t) Q) :
    Gives q (r.atom env.length >>= fun rhs => r.app rhs env.length minPrec >>= f) Q := by
  have hsq := hs.aside h.retains.toAside
  refine Gives.bind (hr.atom env q hsq) fun rhs q1 _ hy => ?_
  obtain ⟨hk, F, hF⟩ := hy
  have hone : Stack q.rt.next env [(rhs, F)] q1 q1 := Stack.one hk.next hF
  refine Gives.bind (hr.app env q1 _ rhs F minPrec (hsq.aside hk.toAside) hone)
    fun t q2 _ hy' => ?_
  obtain ⟨F', hF'⟩ := h.push (hy'.after hk)
  exact hf t F' q2 hF'

theorem node_bind [∀ a, Walks (f a)] {m : Parser Term} (pre as : List (Term × Fields))
    (tag : Tag) (ext : Nat)
    (hm : m = build fun rt => termNewNode rt tag ext (as.map Prod.fst)) (ht : Inert tag)
    (ha : ∀ loc, termArity (termNew false tag ext loc) = as.length)
    (h : Stack lo env (pre ++ as) p q)
    (hf : ∀ t F q', Stack lo env (pre ++ [(t, F)]) p q' → Gives q' (f t) Q) :
    Gives q (m >>= f) Q :=
  Gives.bind (h.node pre as tag ext hm ht ha) fun t q' _ ⟨F, hF⟩ => hf t F q' hF

theorem ctr_bind [∀ a, Walks (f a)] {nam : Nat} (pre as : List (Term × Fields))
    (hlen : as.length ≤ 16) (h : Stack lo env (pre ++ as) p q)
    (hf : ∀ t F q', Stack lo env (pre ++ [(t, F)]) p q' → Gives q' (f t) Q) :
    Gives q (build (fun rt => termNewCtr rt nam (as.map Prod.fst)) >>= f) Q :=
  Gives.bind (h.ctr pre as hlen) fun t q' _ ⟨F, hF⟩ => hf t F q' hF

/-- The last term becomes a node of the same function's result. -/
theorem node_end {m : Parser Term} (as : List (Term × Fields)) (tag : Tag) (ext : Nat)
    (hm : m = build fun rt => termNewNode rt tag ext (as.map Prod.fst)) (ht : Inert tag)
    (ha : ∀ loc, termArity (termNew false tag ext loc) = as.length) (h : Stack lo env as p q) :
    Gives q m (Yield lo env p) :=
  Ensures.mono (Stack.node [] as tag ext hm ht ha h) fun _ _ _ ⟨_, hF⟩ => hF.yield

theorem ctr_end {nam : Nat} (as : List (Term × Fields)) (hlen : as.length ≤ 16)
    (h : Stack lo env as p q) :
    Gives q (build fun rt => termNewCtr rt nam (as.map Prod.fst)) (Yield lo env p) :=
  Ensures.mono (Stack.ctr [] as hlen h) fun _ _ _ ⟨_, hF⟩ => hF.yield

theorem app_end {F : Fields} {t : Term} {minPrec : Nat} (h : Stack lo env [(t, F)] p q)
    (hr : r.Good) (hs : Scope env p) : Gives q (r.app t env.length minPrec) (Yield lo env p) := by
  refine (hr.app env q lo t F minPrec (hs.aside h.retains.toAside) ?_).mono fun _ _ _ hy =>
    hy.after h.retains
  exact ⟨.refl q, h.low, h.parts⟩

/-- A number below the node that holds it. -/
theorem num (h : Stack lo env as p q) (n : Nat) :
    Stack lo env (as ++ [(termNewNum n, .nil)]) p q :=
  h.leaf (fun hq => by cases hq) rfl (.of_not_quoted fun hq => by cases hq)

end Stack

/-! ### Literals -/

section Literals

variable {env : List Term} {p q : Parse} {lo : Nat}

theorem sucs_gives {num : Nat} {t : Term} {F : Fields} (h : Stack lo env [(t, F)] p q) :
    Gives q (sucs num t) (Yield lo env p) := by
  induction num generalizing t F q with
  | zero => exact Ensures.pure h.yield
  | succ num ih =>
    unfold sucs
    exact h.ctr_bind [] [(t, F)] (by simp) fun t' F' q' h' => ih h'

theorem parseTermChr_gives : Gives p parseTermChr (Yield p.rt.next env p) := by
  unfold parseTermChr
  refine (Stack.start env p).still_bind fun c q s => ?_
  exact (s.num c).ctr_end [(termNewNum c, .nil)] (by simp)

theorem foldr_string {cs : List Nat} {t : Term} {F : Fields}
    (h : Stack lo env [(t, F)] p q) :
    Gives q (cs.foldrM (fun c t => do
      let h ← build fun rt => termNewCtr rt symChr [termNewNum c]
      build fun rt => termNewCtr rt symCon [h, t]) t) (Yield lo env p) := by
  suffices hgen : Gives q (cs.foldrM (fun c t => do
      let h ← build fun rt => termNewCtr rt symChr [termNewNum c]
      build fun rt => termNewCtr rt symCon [h, t]) t)
      fun t' q' => ∃ F', Stack lo env [(t', F')] p q' from
    hgen.mono fun _ _ _ ⟨_, hF⟩ => hF.yield
  induction cs with
  | nil => exact Ensures.pure ⟨F, h⟩
  | cons c cs ih =>
    rw [List.foldrM_cons]
    refine Gives.bind ih fun t' q' _ ⟨F', h'⟩ => ?_
    refine Stack.ctr_bind [(t', F')] [(termNewNum c, .nil)] (by simp) (h'.num c)
      fun g G q'' h'' => ?_
    have hswap : Stack lo env ([] ++ [(g, G), (t', F')]) p q'' :=
      ⟨h''.retains, h''.low, h''.parts.perm (List.Perm.swap _ _ _)⟩
    exact hswap.ctr [] [(g, G), (t', F')] (by simp)

theorem parseTermStr_gives {n : Nat} : Gives p (parseTermStr n) (Yield p.rt.next env p) := by
  unfold parseTermStr
  refine (Stack.start env p).still_bind fun fence q1 s1 => ?_
  refine s1.still_bind fun _ q2 s2 => ?_
  refine s2.still_bind fun cs q3 s3 => ?_
  refine s3.still_bind fun _ q4 s4 => ?_
  exact Stack.ctr_bind [] [] (by decide) s4 fun t F q5 s5 => foldr_string s5

end Literals

/-! ### Nodes -/

section Nodes

variable {r : Calls} [r.Walk] {env : List Term} {p q : Parse} {lo : Nat}

omit [r.Walk] in
theorem parseTermNat_gives (hr : r.Good) (hs : Scope env p) :
    Gives p (parseTermNat r env.length) fun t q =>
      Retains p q ∧ ∀ x ∈ t, Yield p.rt.next env p x q := by
  unfold parseTermNat
  refine Ensures.get_bind ?_
  refine (Stack.start env p).still_bind fun ds q1 s1 => ?_
  refine s1.still_bind fun c q2 s2 => ?_
  refine Ensures.ite (fun _ => ?_) fun _ => ?_
  · refine s2.still_bind fun _ q3 s3 => ?_
    exact Ensures.pure ⟨s3.retains, fun x hx => by cases hx⟩
  · refine s2.still_bind fun _ q3 s3 => ?_
    refine s3.still_bind fun found q4 s4 => ?_
    have hlast (t : Term) (F : Fields) (q5 : Parse) (s5 : Stack p.rt.next env [(t, F)] p q5) :
        Gives q5 (do return some (← sucs (decimal ds) t)) fun t q =>
          Retains p q ∧ ∀ x ∈ t, Yield p.rt.next env p x q :=
      Gives.bind (sucs_gives s5) fun t' q6 _ hy =>
        Ensures.pure ⟨hy.retains, fun x hx => Option.some.inj hx ▸ hy⟩
    split
    · exact s4.term_bind hr hs hlast
    · exact Stack.ctr_bind [] [] (by decide) s4 hlast

/-- The terms of a bracketed list, in the order they were read. -/
theorem parseElements_gives (hr : r.Good) (hs : Scope env p) {n : Nat} :
    Gives p (parseElements r n env.length) fun ts q =>
      ∃ as, as.map Prod.fst = ts ∧ Stack p.rt.next env as p q := by
  unfold parseElements
  refine loopM_gives (I := fun ts q =>
    ∃ as : List (Term × Fields), as.map Prod.fst = ts ∧ Stack p.rt.next env as p q) ?_
    ⟨[], rfl, .start env p⟩
  rintro ts q ⟨as, rfl, s⟩
  refine s.still_bind fun c q1 s1 => ?_
  refine Ensures.ite (fun _ => Ensures.pure ⟨as, rfl, s1⟩) fun _ => ?_
  refine s1.term_bind hr hs fun t F q2 s2 => ?_
  refine s2.still_bind fun _ q3 s3 => ?_
  refine s3.still_bind fun _ q4 s4 => ?_
  refine s4.still_bind fun _ q5 s5 => ?_
  refine s5.still_bind fun _ q6 s6 => ?_
  exact Ensures.pure ⟨as ++ [(t, F)], by simp, s6⟩

theorem parseFields_gives (hr : r.Good) (hs : Scope env p) {n : Nat} :
    Gives p (parseFields r n env.length) fun ts q =>
      ∃ as, as.map Prod.fst = ts ∧ as.length ≤ 16 ∧ Stack p.rt.next env as p q := by
  unfold parseFields
  refine loopM_gives (I := fun ts q =>
    ∃ as : List (Term × Fields), as.map Prod.fst = ts ∧ as.length ≤ 16 ∧
      Stack p.rt.next env as p q) ?_ ⟨[], rfl, Nat.zero_le _, .start env p⟩
  rintro ts q ⟨as, rfl, hcap, s⟩
  refine s.still_bind fun c q1 s1 => ?_
  refine Ensures.ite (fun _ => Ensures.pure ⟨as, rfl, hcap, s1⟩) fun _ => ?_
  refine stopIf_bind fun hlt => ?_
  have hroom : as.length < 16 := by simpa using hlt
  refine s1.term_bind hr hs fun t F q2 s2 => ?_
  refine s2.still_bind fun _ q3 s3 => ?_
  refine s3.still_bind fun _ q4 s4 => ?_
  refine s4.still_bind fun _ q5 s5 => ?_
  exact Ensures.pure ⟨as ++ [(t, F)], by simp, by rw [List.length_append]; exact hroom, s5⟩

/-- The node that ends a list takes the elements before it one by one. -/
theorem foldr_list {es : List (Term × Fields)} {t : Term} {F : Fields}
    (h : Stack lo env (es ++ [(t, F)]) p q) :
    Gives q ((es.map Prod.fst).foldrM
      (fun e t => build fun rt => termNewCtr rt symCon [e, t]) t) (Yield lo env p) := by
  suffices hgen : ∀ (pre : List (Term × Fields)) (q : Parse) (t : Term) (F : Fields),
      Stack lo env (pre ++ (es ++ [(t, F)])) p q →
      Gives q ((es.map Prod.fst).foldrM
        (fun e t => build fun rt => termNewCtr rt symCon [e, t]) t)
        fun t' q' => ∃ F', Stack lo env (pre ++ [(t', F')]) p q' from
    (hgen [] q t F h).mono fun _ _ _ ⟨_, hF⟩ => hF.yield
  clear h
  induction es with
  | nil => exact fun pre q t F h => Ensures.pure ⟨F, h⟩
  | cons e es ih =>
    intro pre q t F h
    rw [List.map_cons, List.foldrM_cons]
    have hpre : pre ++ (e :: es ++ [(t, F)]) = pre ++ [e] ++ (es ++ [(t, F)]) := by simp
    rw [hpre] at h
    refine Gives.bind (ih (pre ++ [e]) q t F h) fun t' q' _ ⟨F', h'⟩ => ?_
    rw [List.append_assoc] at h'
    exact h'.ctr pre [e, (t', F')] (by simp)

theorem parseTermLst_gives (hr : r.Good) (hs : Scope env p) {n : Nat} :
    Gives p (parseTermLst r n env.length) (Yield p.rt.next env p) := by
  unfold parseTermLst
  refine (Stack.start env p).still_bind fun _ q1 s1 => ?_
  refine s1.still_bind fun _ q2 s2 => ?_
  refine s2.still_bind fun c q3 s3 => ?_
  refine Ensures.ite (fun _ => ?_) fun _ => ?_
  · refine s3.still_bind fun _ q4 s4 => ?_
    exact s4.ctr_end [] (by decide)
  · refine Gives.bind (parseElements_gives hr (hs.aside s3.retains.toAside))
      fun ts q4 _ ⟨as, has, s⟩ => ?_
    subst has
    have s4 : Stack p.rt.next env as p q4 :=
      ⟨s3.retains.trans s.retains, Nat.le_trans s3.low s.retains.next, s.parts.mono s3.low (Nat.le_refl _)⟩
    refine s4.still_bind fun _ q5 s5 => ?_
    rw [← List.append_nil as] at s5
    exact Stack.ctr_bind as [] (by decide) s5 fun t F q6 s6 => foldr_list s6

theorem parseTermCtr_gives (hr : r.Good) (hs : Scope env p) {n : Nat} :
    Gives p (parseTermCtr r n env.length) (Yield p.rt.next env p) := by
  unfold parseTermCtr
  refine (Stack.start env p).still_bind fun nam q1 s1 => ?_
  refine s1.still_bind fun _ q2 s2 => ?_
  refine s2.still_bind fun found q3 s3 => ?_
  refine Ensures.ite (fun _ => ?_) fun _ => ?_
  · refine s3.still_bind fun _ q4 s4 => ?_
    refine Gives.bind (parseFields_gives hr (hs.aside s4.retains.toAside))
      fun ts q5 _ ⟨as, has, hlen, s⟩ => ?_
    subst has
    have s5 : Stack p.rt.next env as p q5 :=
      ⟨s4.retains.trans s.retains, Nat.le_trans s4.low s.retains.next, s.parts.mono s4.low (Nat.le_refl _)⟩
    refine s5.still_bind fun _ q6 s6 => ?_
    exact s6.ctr_end as hlen
  · exact s3.ctr_end [] (by decide)

theorem parseTermNam_gives (hr : r.Good) (hs : Scope env p) :
    Gives p (parseTermNam r env.length) (Yield p.rt.next env p) := by
  unfold parseTermNam
  refine (Stack.start env p).still_bind fun _ q1 s1 => ?_
  refine s1.still_bind fun c q2 s2 => ?_
  refine Ensures.ite (fun _ => ?_) fun _ => ?_
  · refine s2.still_bind fun _ q3 s3 => ?_
    refine s3.term_bind hr hs fun f F q4 s4 => ?_
    refine s4.term_bind hr hs fun x X q5 s5 => ?_
    refine s5.still_bind fun _ q6 s6 => ?_
    exact s6.node_end [(f, F), (x, X)] .dry 0 rfl (by decide) fun _ => rfl
  · refine s2.still_bind fun k q3 s3 => ?_
    exact pure_leaf s3.retains (fun h => by cases h) rfl

omit [r.Walk] in
theorem parseTermInc_gives (hr : r.Good) (hs : Scope env p) :
    Gives p (parseTermInc r env.length) (Yield p.rt.next env p) := by
  unfold parseTermInc
  refine (Stack.start env p).yield_bind (hr.atom env p hs) fun x X q1 s1 => ?_
  exact s1.node_end [(x, X)] .inc 0 rfl (by decide) fun _ => rfl

omit [r.Walk] in
theorem parseTermPar_gives (hr : r.Good) (hs : Scope env p) :
    Gives p (parseTermPar r env.length) (Yield p.rt.next env p) := by
  unfold parseTermPar
  refine (Stack.start env p).term_bind hr hs fun t F q1 s1 => ?_
  refine s1.still_bind fun _ q2 s2 => ?_
  exact Ensures.pure s2.yield

/-- The arguments of a primitive, in the order they were read. -/
theorem repeatM_gives {turn : Parser Term} [Walks turn]
    (hturn : ∀ as q, Stack lo env as p q → Gives q turn fun t q' =>
      ∃ F, Stack lo env (as ++ [(t, F)]) p q') {k : Nat} {as : List (Term × Fields)}
    (h : Stack lo env as p q) :
    Gives q (repeatM turn k) fun ts q' =>
      ∃ bs, bs.map Prod.fst = ts ∧ bs.length = k ∧ Stack lo env (as ++ bs) p q' := by
  induction k generalizing as q with
  | zero => exact Ensures.pure ⟨[], rfl, rfl, by rwa [List.append_nil]⟩
  | succ k ih =>
    unfold repeatM
    refine Gives.bind (hturn as q h) fun t q1 _ ⟨F, s1⟩ => ?_
    refine Gives.bind (ih s1) fun ts q2 _ ⟨bs, hbs, hlen, s2⟩ => ?_
    refine Ensures.pure ⟨(t, F) :: bs, by rw [List.map_cons, hbs], by simp [hlen], ?_⟩
    rwa [List.append_assoc] at s2

theorem primArity_mod {id : Nat} (h : primArity id ≠ 0) : id % (extMask + 1) = id := by
  refine Nat.mod_eq_of_lt ?_
  by_contra hge
  have hmask : extMask = 262143 := rfl
  refine h ?_
  unfold primArity primLog primLogGo0 primLogGo1 primLogGo2
  rw [if_neg (by omega), if_neg (by omega), if_neg (by omega), if_neg (by omega)]

theorem parseTermPri_gives (hr : r.Good) (hs : Scope env p) :
    Gives p (parseTermPri r env.length) (Yield p.rt.next env p) := by
  unfold parseTermPri
  refine (Stack.start env p).still_bind fun id q1 s1 => ?_
  refine stopIf_bind fun harity => ?_
  have hne : primArity id ≠ 0 := by simpa using harity
  refine s1.still_bind fun _ q2 s2 => ?_
  refine s2.still_bind fun c q3 s3 => ?_
  refine s3.still_bind fun _ q4 s4 => ?_
  refine s4.still_bind fun _ q5 s5 => ?_
  refine Gives.bind (repeatM_gives (fun as q s => ?_) s5) fun ts q6 _ ⟨as, has, hlen, s6⟩ => ?_
  · refine s.still_bind fun _ q1 s1 => ?_
    refine s1.still_bind fun c q2 s2 => ?_
    refine s2.still_bind fun _ q3 s3 => ?_
    refine s3.term_bind hr hs fun t F q4 s4 => ?_
    refine s4.still_bind fun _ q5 s5 => ?_
    refine s5.still_bind fun _ q6 s6 => ?_
    exact Ensures.pure ⟨F, s6⟩
  · subst has
    refine s6.still_bind fun _ q7 s7 => ?_
    refine s7.still_bind fun c q8 s8 => ?_
    refine s8.still_bind fun _ q9 s9 => ?_
    refine s9.still_bind fun _ q10 s10 => ?_
    rw [List.nil_append] at s10
    have harity (loc : Nat) : termArity (termNew false .pri id loc) = as.length := by
      rw [hlen]
      exact congrArg primArity (primArity_mod hne)
    exact s10.node_end as .pri id rfl (by decide) harity

/-! ### Operators -/

theorem parseTermAppPrec_call_gives (hr : r.Good) (hs : Scope env p) {n minPrec : Nat} {f : Term}
    {F : Fields} (h : Stack lo env [(f, F)] p q) :
    Gives q (parseTermAppPrec.call r n f env.length minPrec) (Yield lo env p) := by
  unfold parseTermAppPrec.call
  refine h.still_bind fun c q1 s1 => ?_
  refine Ensures.ite (fun _ => Ensures.pure s1.yield) fun _ => ?_
  refine s1.still_bind fun _ q2 s2 => ?_
  refine s2.still_bind fun c q3 s3 => ?_
  refine Ensures.ite (fun _ => ?_) fun _ => ?_
  · refine s3.still_bind fun _ q4 s4 => ?_
    exact s4.app_end hr hs
  · refine Gives.bind (S := fun f q => ∃ F, Stack lo env [(f, F)] p q)
      (loopM_gives (I := fun f q => ∃ F, Stack lo env [(f, F)] p q) ?_ ⟨F, s3⟩)
      fun f' q4 _ ⟨F', s4⟩ => s4.app_end hr hs
    rintro f q ⟨F, s⟩
    refine s.term_bind hr hs fun t G q1 s1 => ?_
    refine s1.node_bind [] [(f, F), (t, G)] .app 0 rfl (by decide) (fun _ => rfl)
      fun f' F' q2 s2 => ?_
    refine s2.still_bind fun _ q3 s3 => ?_
    refine s3.still_bind fun _ q4 s4 => ?_
    refine s4.still_bind fun _ q5 s5 => ?_
    refine s5.still_bind fun c q6 s6 => ?_
    refine Ensures.ite (fun _ => ?_) fun _ => ?_
    · refine s6.still_bind fun _ q7 s7 => ?_
      exact Ensures.pure ⟨F', s7⟩
    · exact Ensures.pure ⟨F', s6⟩

theorem parseTermAppPrec_opr_gives (hr : r.Good) (hs : Scope env p) {n minPrec : Nat} {f : Term}
    {F : Fields} {op : Option (Text × Nat)} (h : Stack lo env [(f, F)] p q) :
    Gives q (parseTermAppPrec.opr r n f env.length minPrec op) (Yield lo env p) := by
  rcases op with - | ⟨str, op⟩
  · exact parseTermAppPrec_call_gives hr hs h
  · unfold parseTermAppPrec.opr
    refine Ensures.ite (fun _ => ?_) fun _ => parseTermAppPrec_call_gives hr hs h
    refine h.still_bind fun _ q1 s1 => ?_
    refine s1.operand_bind hr hs fun t G q2 s2 => ?_
    refine s2.node_bind [] [(f, F), (t, G)] .op2 op rfl (by decide) (fun _ => rfl)
      fun f' F' q3 s3 => ?_
    exact s3.app_end hr hs

theorem parseTermAppPrec_gives (hr : r.Good) (hs : Scope env p) {n minPrec : Nat} {f : Term}
    {F : Fields} (h : Stack lo env [(f, F)] p p) :
    Gives p (parseTermAppPrec r n f env.length minPrec) (Yield lo env p) := by
  unfold parseTermAppPrec
  refine h.still_bind fun _ q1 s1 => ?_
  refine s1.still_bind fun found q2 s2 => ?_
  refine Ensures.ite (fun _ => ?_) fun _ => ?_
  · refine s2.term_bind hr hs fun t G q3 s3 => ?_
    refine Stack.ctr_bind [] [(f, F), (t, G)] (by simp) s3 fun f' F' q4 s4 => ?_
    exact s4.app_end hr hs
  refine s2.still_bind fun found q3 s3 => ?_
  refine Ensures.ite (fun _ => ?_) fun _ => ?_
  · refine s3.operand_bind hr hs fun t G q4 s4 => ?_
    refine s4.node_bind [] [(f, F), (t, G)] .eql 0 rfl (by decide) (fun _ => rfl)
      fun f' F' q5 s5 => ?_
    exact s5.app_end hr hs
  refine s3.still_bind fun found q4 s4 => ?_
  refine Ensures.ite (fun _ => ?_) fun _ => ?_
  · refine s4.operand_bind hr hs fun t G q5 s5 => ?_
    refine s5.node_bind [] [(f, F), (t, G)] .and 0 rfl (by decide) (fun _ => rfl)
      fun f' F' q6 s6 => ?_
    exact s6.app_end hr hs
  refine s4.still_bind fun found q5 s5 => ?_
  refine Ensures.ite (fun _ => ?_) fun _ => ?_
  · refine s5.operand_bind hr hs fun t G q6 s6 => ?_
    refine s6.node_bind [] [(f, F), (t, G)] .or 0 rfl (by decide) (fun _ => rfl)
      fun f' F' q7 s7 => ?_
    exact s7.app_end hr hs
  refine s5.still_bind fun op q6 s6 => ?_
  exact parseTermAppPrec_opr_gives hr hs s6

end Nodes

end Hvm
