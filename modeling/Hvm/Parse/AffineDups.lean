import Hvm.Parse.AffineLambdas

/-! Lets and dups: the nodes of a value and of a body that is stored after it was parsed. -/

namespace Hvm

open Effect

set_option synthInstance.maxSize 100000
set_option synthInstance.maxHeartbeats 200000

/-! ### Cells that are stored later -/

theorem alloc_bind {β : Type} {q : Parse} {size : Nat} {k : Nat → Parser β}
    {Q : β → Parse → Prop}
    (h : ∀ loc q', loc = q.rt.next → Retains q q' → q'.rt.next = q.rt.next + size →
      Gives q' (k loc) Q) :
    Gives q (build (fun rt => (heapAlloc rt size).swap) >>= k) Q := by
  intro b r hr hl
  obtain ⟨loc, q', halloc, hr⟩ := bind_ok.mp hr
  obtain ⟨-, rfl, rfl⟩ := build_ok.mp halloc
  have hk : Retains q { q with rt := (heapAlloc q.rt size).swap.1 } :=
    ⟨⟨rfl, rfl, rfl, Nat.le_refl _⟩, Nat.le_add_right _ _, fun _ _ => rfl⟩
  exact h _ _ rfl hk rfl b r hr hl

theorem Parsed.outside {env : List Term} {rt : Rt} {lo hi loc : Nat} {t : Term} {F : Fields}
    (h : Parsed env rt lo hi t F) (hout : loc < lo ∨ hi ≤ loc) : loc ∉ F.cells t.val := fun hm => by
  have hb := h.block.bound loc hm
  omega

theorem Parsed.store {env : List Term} {rt : Rt} {lo hi loc : Nat} {t v : Term} {F : Fields}
    (h : Parsed env rt lo hi t F) (hout : loc ∉ F.cells t.val) :
    Parsed env (heapSet rt loc v) lo hi t F := by
  refine { h with block := h.block.frame fun c hc => ?_ }
  have hne : c ≠ loc := fun he => hout (he ▸ hc)
  rw [heapRead_heapSet, if_neg hne]

/-- A body stored in the cell of its LAM. -/
theorem Parsed.storeLam {env : List Term} {rt : Rt} {lo hi lo' hi' loc ext : Nat} {t : Term}
    {F : Fields} (h : Parsed (env ++ [lamBinder]) rt lo hi t F) (hout : loc ∉ F.cells t.val)
    (hlo : lo' ≤ lo) (hhi : hi ≤ hi') (hloc : lo' ≤ loc ∧ loc < hi')
    (huse : uses t F ⟨.bjv, env.length + 1, 0⟩ ≤ 1) :
    Parsed env (heapSet rt loc t) lo' hi' (termNew false .lam ext loc) (.cons t F .nil) := by
  refine ((h.store hout).mono hlo hhi).lam (fits_lam ext loc) ?_ hloc hout huse
  rw [heapRead_heapSet, if_pos rfl]

section Dups

variable {r : Calls} [r.Walk] {env : List Term} {p : Parse}

omit [r.Walk] in
theorem parseDupUnscoped_gives (hr : r.Good) (hs : Scope env p) {n nam namV : Nat} :
    Gives p (parseDupUnscoped r n env.length nam namV) (Yield p.rt.next env p) := by
  have hlen : (env ++ [lamBinder] ++ [lamBinder]).length = env.length + 2 := by simp
  have hat : binderAt (env ++ [lamBinder] ++ [lamBinder]) (env.length + 1) = some lamBinder := by
    rw [List.append_assoc]
    exact binderAt_length env lamBinder [lamBinder]
  have hat' : binderAt (env ++ [lamBinder] ++ [lamBinder]) (env.length + 2) = some lamBinder := by
    simpa using binderAt_length (env ++ [lamBinder]) lamBinder []
  unfold parseDupUnscoped
  refine Gives.still fun _ q0 hq0 => push_bind (push_bind ?_)
  have hscope : Scope (env ++ [lamBinder] ++ [lamBinder])
      { q0 with binds := ⟨namV, env.length + 1 + 1, 0, false, false⟩ ::
        ⟨nam, env.length + 1, 0, false, false⟩ :: q0.binds } := by
    have h1 : Scope (env ++ [lamBinder])
        { q0 with binds := ⟨nam, env.length + 1, 0, false, false⟩ :: q0.binds } :=
      (hs.aside hq0.toAside).push (bindIn_lam (binderAt_length env lamBinder []) rfl) nofun
    exact h1.push (bindIn_lam hat' rfl) nofun
  refine alloc_bind fun locF q1 hlocF hk1 hn1 => alloc_bind fun locV q2 hlocV hk2 hn2 => ?_
  dsimp only at hn1 hlocF
  have hterm := hr.term _ q2 (hscope.aside (hk1.trans hk2).toAside)
  rw [hlen] at hterm
  refine Gives.bind hterm fun body q3 hl ⟨hk3, F, hF⟩ => pop_bind (pop_bind ?_)
  refine countUses_bind hF hl.small (countUses_bind hF hl.small ?_)
  refine checkAffine_bind fun hone => checkAffine_bind fun hone' => ?_
  have hk : Retains p { q3 with binds := q3.binds.tail.tail } :=
    hq0.retains.trans ((hk1.trans (hk2.trans hk3)).pop.pop)
  have hn3 := hk3.next
  have hp := hq0.retains.next
  have hV : Parsed (env ++ [lamBinder]) (heapSet q3.rt locV body) locV q3.rt.next
      (termNew false .lam (env.length + 2) locV) (.cons body F .nil) :=
    hF.storeLam (hF.outside (Or.inl (by omega))) (by omega) (Nat.le_refl _) (by omega) (by simpa [uses] using hone')
  have hLam : Parsed env (heapSet (heapSet q3.rt locV body) locF
      (termNew false .lam (env.length + 2) locV)) p.rt.next q3.rt.next
      (termNew false .lam (env.length + 1) locF)
      (.cons (termNew false .lam (env.length + 2) locV) (.cons body F .nil) .nil) := by
    refine hV.storeLam (hV.outside (Or.inl (by omega))) (by omega) (Nat.le_refl _) (by omega) ?_
    rw [uses, countP_cons_lam (Or.inl rfl)]
    exact hone
  refine Ensures.modify_bind (Ensures.modify_bind ?_)
  have s : Stack p.rt.next env [(termNew false .lam (env.length + 1) locF, _)] p
      { q3 with
        binds := q3.binds.tail.tail
        rt := heapSet (heapSet q3.rt locV body) locF
          (termNew false .lam (env.length + 2) locV) } :=
    ⟨(hk.store (by omega)).store (by omega), hk.next, .one hLam⟩
  exact s.node_end [(_, _)] .uns 0 rfl (by decide) fun _ => rfl

theorem parseLet_gives (hr : r.Good) (hs : Scope env p) {n nam : Nat} {strict cloned : Bool} :
    Gives p (parseLet r n env.length nam strict cloned) (Yield p.rt.next env p) := by
  have hlen : (env ++ [lamBinder]).length = env.length + 1 := by simp
  have hat := binderAt_length env lamBinder []
  unfold parseLet
  dsimp only
  refine (Stack.start env p).term_bind hr hs fun val V q1 s1 => ?_
  refine s1.still_bind fun _ q2 s2 => s2.still_bind fun _ q3 s3 => push_bind ?_
  refine alloc_bind fun loc q4 hloc hk4 hn4 => ?_
  dsimp only at hloc hn4
  have hscope : Scope (env ++ [lamBinder])
      { q3 with binds := ⟨nam, env.length + 1, 0, false, cloned⟩ :: q3.binds } :=
    (hs.aside s3.retains.toAside).push (bindIn_lam hat rfl) nofun
  have hterm := hr.term _ q4 (hscope.aside hk4.toAside)
  rw [hlen] at hterm
  refine Gives.bind hterm fun body q5 hl ⟨hk5, F, hF⟩ => pop_bind ?_
  refine countUses_bind hF hl.small ?_
  refine plainUses_gives hlen.symm (target_lam hat rfl) hF hk5.next ⟨hl.small, hl.forks⟩ rfl
    fun res G q6 hspent => Ensures.modify_bind ?_
  have hk6 : Retains q3 q6 := hspent.retains (hk4.trans hk5).pop (by show q3.rt.next ≤ _; omega)
  have hn6 : q4.rt.next ≤ q6.rt.next := Nat.le_trans hk5.next hspent.next
  have hlam : Parsed env (heapSet q6.rt loc res) q3.rt.next q6.rt.next
      (termNew false .lam (env.length + 1) loc) (.cons res G .nil) :=
    hspent.parsed.storeLam (hspent.parsed.outside (Or.inl (by omega))) (by omega) (Nat.le_refl _) (by omega)
      (hspent.once _ (List.mem_singleton.mpr rfl))
  obtain ⟨M, s7⟩ := s3.push (r := { q6 with rt := heapSet q6.rt loc res })
    ⟨hk6.store (Nat.le_of_eq hloc.symm), _, hlam⟩
  have happ {q : Parse} {t : Term} {T : Fields}
      (s : Stack p.rt.next env ([(val, V)] ++ [(t, T)]) p q) :
      Gives q (build fun rt => termNewApp rt t val) (Yield p.rt.next env p) := by
    have hswap : Stack p.rt.next env [(t, T), (val, V)] p q :=
      ⟨s.retains, s.low, s.parts.perm (.swap _ _ _)⟩
    exact hswap.node_end [(t, T), (val, V)] .app 0 rfl (by decide) fun _ => rfl
  refine Ensures.ite (fun _ => ?_) fun _ => ?_
  · exact s7.node_bind [(val, V)] [(_, M)] .use 0 rfl (by decide) (fun _ => rfl)
      fun t T q8 s8 => happ s8
  · rw [pure_bind]
    exact happ s7

theorem parseDupDyn_gives (hr : r.Good) (hs : Scope env p) {n nam : Nat} {cloned : Bool} :
    Gives p (parseDupDyn r n env.length nam cloned) (Yield p.rt.next env p) := by
  have hlen : (env ++ [lamBinder] ++ [lamBinder]).length = env.length + 2 := by simp
  have hat : binderAt (env ++ [lamBinder] ++ [lamBinder]) (env.length + 1) = some lamBinder := by
    rw [List.append_assoc]
    exact binderAt_length env lamBinder [lamBinder]
  have hat' : binderAt (env ++ [lamBinder] ++ [lamBinder]) (env.length + 2) = some lamBinder := by
    simpa using binderAt_length (env ++ [lamBinder]) lamBinder []
  unfold parseDupDyn
  dsimp only
  refine (Stack.start env p).still_bind fun _ q0 s0 => ?_
  refine s0.term_bind hr hs fun labTerm L q1 s1 => ?_
  refine s1.still_bind fun _ q2 s2 => s2.still_bind fun _ q3 s3 => ?_
  refine s3.term_bind hr hs fun val V q4 s4 => ?_
  refine s4.still_bind fun _ q5 s5 => s5.still_bind fun _ q6 s6 => s6.still_bind fun _ q7 s7 =>
    push_bind ?_
  have hscope : Scope (env ++ [lamBinder] ++ [lamBinder])
      { q7 with binds := ⟨nam, env.length + 1, parseDynLab, false, cloned⟩ :: q7.binds } :=
    ((hs.aside s7.retains.toAside).append [lamBinder]).push (bindIn_dyn hat rfl hat' rfl) nofun
  have hterm := hr.term _ _ hscope
  rw [hlen] at hterm
  refine Gives.bind hterm fun body q8 hl ⟨hk8, F, hF⟩ => pop_bind ?_
  refine countUses_bind hF hl.small (countUses_bind hF hl.small ?_)
  refine sidesUses_gives hlen.symm (target_lam hat rfl) (target_lam hat' rfl)
    (hits_bjv (by simp)) (hits_bjv (by simp)) hF hk8.next ⟨hl.small, hl.forks⟩ rfl rfl
    (Or.inl ⟨rfl, rfl⟩) fun res G q9 hspent => ?_
  have hk9 : Retains q7 q9 := hspent.retains hk8.pop (Nat.le_refl _)
  refine alloc_bind fun loc0 q10 h0 hk10 hn10 => alloc_bind fun loc1 q11 h1 hk11 hn11 =>
    Ensures.modify_bind (Ensures.modify_bind ?_)
  have hk : Retains q7 q11 := hk9.trans (hk10.trans hk11)
  have hn9 := hk9.next
  have hG : Parsed (env ++ [lamBinder] ++ [lamBinder]) q11.rt q7.rt.next q9.rt.next res G :=
    hspent.parsed.retains (hk10.trans hk11) (Nat.le_refl _)
  have hV : Parsed (env ++ [lamBinder]) (heapSet q11.rt loc1 res) q7.rt.next q11.rt.next
      (termNew false .lam (env.length + 2) loc1) (.cons res G .nil) := by
    refine hG.storeLam (hG.outside (Or.inr (by omega))) (Nat.le_refl _) (by omega) (by omega) ?_
    rw [show (env ++ [lamBinder]).length + 1 = env.length + 2 by simp]
    exact hspent.once _ (List.mem_cons_of_mem _ List.mem_cons_self)
  have hout : loc0 ∉ Fields.cells (termNew false .lam (env.length + 2) loc1).val
      (.cons res G .nil) := fun hm => by
    rcases List.mem_cons.mp hm with he | hm
    · rw [show (termNew false .lam (env.length + 2) loc1).val = loc1 from rfl] at he
      omega
    · exact hG.outside (Or.inr (by omega)) ((List.mem_append.mp hm).resolve_right List.not_mem_nil)
  have hlam : Parsed env (heapSet (heapSet q11.rt loc1 res) loc0
      (termNew false .lam (env.length + 2) loc1)) q7.rt.next q11.rt.next
      (termNew false .lam (env.length + 1) loc0)
      (.cons (termNew false .lam (env.length + 2) loc1) (.cons res G .nil) .nil) := by
    refine hV.storeLam hout (Nat.le_refl _) (Nat.le_refl _) (by omega) ?_
    rw [uses, countP_cons_lam (Or.inl rfl)]
    exact hspent.once _ List.mem_cons_self
  obtain ⟨M, s12⟩ := s7.push (r := { q11 with
      rt := heapSet (heapSet q11.rt loc1 res) loc0 (termNew false .lam (env.length + 2) loc1) })
    ⟨(hk.store (by omega)).store (by omega), _, hlam⟩
  exact s12.node_end [(labTerm, L), (val, V), (_, M)] .ddu 0 rfl (by decide) fun _ => rfl

theorem parseDupStatic_gives (hr : r.Good) (hs : Scope env p) {n nam : Nat} {cloned : Bool} :
    Gives p (parseDupStatic r n env.length nam cloned) (Yield p.rt.next env p) := by
  unfold parseDupStatic
  dsimp only
  refine Gives.still fun c q0 hq0 => ?_
  refine label_bind (hs.aside hq0.toAside).fresh fun lab q1 hq1 hlab => ?_
  refine alloc_bind fun loc q2 hloc hk2 hn2 => Gives.still fun _ q3 hq3 => ?_
  have hstart : Retains p q3 :=
    hq0.retains.trans (hq1.retains.trans (hk2.trans hq3.retains))
  have hp1 : p.rt.next ≤ q1.rt.next := Nat.le_trans hq0.retains.next hq1.retains.next
  have hn3 : q3.rt.next = loc + 2 := by rw [hq3.rt, hn2, hloc]
  refine Gives.bind (hr.term env q3 (hs.aside hstart.toAside)) fun val q4 _ ⟨hk4, V, hV⟩ => ?_
  refine Ensures.modify_bind ?_
  have hk4' : Retains p { q4 with rt := heapSet q4.rt loc val } :=
    (hstart.trans hk4).store (by omega)
  refine Gives.still fun _ q5 hq5 => Gives.still fun _ q6 hq6 => Gives.still fun _ q7 hq7 =>
    push_bind ?_
  have hq47 : Still { q4 with rt := heapSet q4.rt loc val } q7 := Still.trans hq5 (Still.trans hq6 hq7)
  have hrt7 : q7.rt = heapSet q4.rt loc val := hq47.rt
  have hlen : (env ++ [dupBinder lab]).length = env.length + 1 := by simp
  have hat := binderAt_length env (dupBinder lab) []
  have hscope : Scope (env ++ [dupBinder lab])
      { q7 with binds := ⟨nam, env.length + 1, lab, false, cloned⟩ :: q7.binds } :=
    (hs.aside (hk4'.trans hq47.retains).toAside).push (bindIn_dup hlab hat) nofun
  have hterm := hr.term _ _ hscope
  rw [hlen] at hterm
  refine Gives.bind hterm fun body q8 hl ⟨hk8, F, hF⟩ => pop_bind ?_
  refine countUses_bind hF hl.small (countUses_bind hF hl.small ?_)
  refine sidesUses_gives hlen.symm (target_side true hlab hat) (target_side false hlab hat) rfl rfl
    hF hk8.next ⟨hl.small, hl.forks⟩ rfl rfl (Or.inr ⟨rfl, rfl⟩) fun res G q9 hspent => ?_
  have hk9 : Retains q7 q9 := hspent.retains hk8.pop (Nat.le_refl _)
  have hk : Retains p q9 := hk4'.trans (hq47.retains.trans hk9)
  have hn4 := hk4.next
  have hn7 : q7.rt.next = q4.rt.next := by rw [hrt7]; rfl
  have hn9 := hk9.next
  have hVcell {c : Nat} (hc : c ∈ V.cells val.val) : q3.rt.next ≤ c ∧ c < q4.rt.next :=
    hV.block.bound c hc
  have hG : Parsed (env ++ [dupBinder lab]) q9.rt q7.rt.next q9.rt.next res G := hspent.parsed
  have hGcell {c : Nat} (hc : c ∈ G.cells res.val) : q7.rt.next ≤ c ∧ c < q9.rt.next :=
    hG.block.bound c hc
  have hV9 : Parsed env q9.rt q3.rt.next q4.rt.next val V := by
    have hV7 : Parsed env q7.rt q3.rt.next q4.rt.next val V := by
      rw [hrt7]
      exact hV.store (hV.outside (Or.inl (by omega)))
    exact hV7.retains hk9 (Nat.le_of_eq hn7.symm)
  have hread : heapRead q9.rt loc = val := by
    rw [hk9.keep loc (by omega), hrt7, heapRead_heapSet, if_pos rfl]
  have hval : Parsed env (heapSet q9.rt (loc + 1) res) p.rt.next q9.rt.next val V :=
    (hV9.store (hV9.outside (Or.inl (by omega)))).mono (by omega) (by omega)
  have hbody : Parsed (env ++ [dupBinder lab]) (heapSet q9.rt (loc + 1) res) p.rt.next q9.rt.next
      res G :=
    (hG.store (hG.outside (Or.inl (by omega)))).mono (by omega) (Nat.le_refl _)
  have hmod : lab % (extMask + 1) = lab := Nat.mod_eq_of_lt (Nat.lt_succ_of_lt hlab.2)
  have hout (c : Nat) (hc : c < loc + 2) : c ∉ V.cells val.val ++ G.cells res.val := fun hm => by
    rcases List.mem_append.mp hm with hm | hm
    · have hge := hVcell hm
      omega
    · have hge := hGcell hm
      omega
  have hdup : Parsed env (heapSet q9.rt (loc + 1) res) p.rt.next q9.rt.next
      (termNew false .dup lab loc) (.cons val V (.cons res G .nil)) := by
    refine hval.dup hbody (fits_dup lab loc) ?_ ?_ (by omega) (hout _ (by omega))
      (hout _ (by omega)) (fun c hc _ hm => ?_) fun side => ?_
    · rw [heapRead_heapSet, if_neg (by omega)]
      exact hread
    · rw [heapRead_heapSet, if_pos rfl]
    · have hlt := hVcell hc
      have hge := hGcell hm
      omega
    · rw [hmod]
      cases side
      · exact hspent.once _ (List.mem_cons_of_mem _ List.mem_cons_self)
      · exact hspent.once _ List.mem_cons_self
  exact Ensures.modify_bind (Ensures.pure ⟨hk.store (by omega), _, hdup⟩)

theorem parseTermDup_gives (hr : r.Good) (hs : Scope env p) {n : Nat} :
    Gives p (parseTermDup r n env.length) (Yield p.rt.next env p) := by
  unfold parseTermDup
  refine Gives.still fun _ q1 h1 => Gives.still fun strict q2 h2 => Gives.still fun _ q3 h3 =>
    Gives.still fun cloned q4 h4 => Gives.still fun nam q5 h5 => Gives.still fun _ q6 h6 =>
    Gives.still fun c q7 h7 => ?_
  have h47 : Still p q7 := h1.trans (h2.trans (h3.trans (h4.trans (h5.trans (h6.trans h7)))))
  refine Ensures.ite (fun _ => ?_) fun _ => ?_
  · refine Gives.still fun _ q8 h8 => Gives.still fun _ q9 h9 => Ensures.get_bind ?_
    refine Gives.still fun namV q10 h10 => ?_
    have hk : Retains p q10 := (h47.trans (h8.trans (h9.trans h10))).retains
    cases namV with
    | some namV => exact hs.after hk fun hs => parseDupUnscoped_gives hr hs
    | none =>
      exact Gives.still fun _ q11 h11 => hs.after (hk.trans h11.retains) fun hs => parseLet_gives hr hs
  · refine Gives.still fun _ q8 h8 => Gives.still fun _ q9 h9 => Gives.still fun c q10 h10 => ?_
    have hk : Retains p q10 := (h47.trans (h8.trans (h9.trans h10))).retains
    exact Ensures.ite (fun _ => hs.after hk fun hs => parseDupDyn_gives hr hs)
      fun _ => hs.after hk fun hs => parseDupStatic_gives hr hs

end Dups

end Hvm
