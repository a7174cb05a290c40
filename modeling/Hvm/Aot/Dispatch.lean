import Hvm.Aot.DepthLimit

/-! Case dispatch of compiled MAT and SWI nodes against the interpreter's match rules. A
match is described by the branch it continues with and the arguments it puts in front of
the ones already waiting. -/

namespace Hvm

/-- The words of fields `i, i + 1, ..` of the node at `loc`. -/
def fieldsFrom (rt : Rt) (loc i : Nat) : Nat → List Term
  | 0 => []
  | n + 1 => heapRead rt (loc + i) :: fieldsFrom rt loc (i + 1) n

def ctrFields (rt : Rt) (ctr : Term) : List Term := fieldsFrom rt ctr.val 0 (tagArity ctr.tag)

theorem fieldsFrom_congr {rt rt' : Rt} {loc : Nat} (n i : Nat)
    (h : ∀ j, i ≤ j → j < i + n → rt'.heap (loc + j) = rt.heap (loc + j)) :
    fieldsFrom rt' loc i n = fieldsFrom rt loc i n := by
  induction n generalizing i with
  | zero => rfl
  | succ n ih =>
    rw [fieldsFrom, fieldsFrom, ih (i + 1) fun j hj hlt => h j (by omega) (by omega)]
    rw [heapRead, heapRead, h i (by omega) (by omega)]

theorem fieldsFrom_append (rt : Rt) (loc i m n : Nat) :
    fieldsFrom rt loc i (m + n) = fieldsFrom rt loc i m ++ fieldsFrom rt loc (i + m) n := by
  induction m generalizing i with
  | zero => simp [fieldsFrom]
  | succ m ih =>
    have hn : m + 1 + n = (m + n) + 1 := by omega
    have hi : i + (m + 1) = i + 1 + m := by omega
    rw [hn, fieldsFrom, fieldsFrom, ih, hi]
    rfl

/-! The interpreter's rules follow these continuations -/

theorem termNewAppAt_heap (rt : Rt) (loc : Nat) (f a : Term) :
    (termNewAppAt rt loc f a).1.heap =
      Function.update (Function.update rt.heap loc (.tm f)) (loc + 1) (.tm a) := rfl

theorem termNewAppAt_of_ne (rt : Rt) {loc l : Nat} (f a : Term) (h0 : l ≠ loc) (h1 : l ≠ loc + 1) :
    (termNewAppAt rt loc f a).1.heap l = rt.heap l := by
  rw [termNewAppAt_heap, Function.update_of_ne h1, Function.update_of_ne h0]

theorem termNewAppAt_fn (rt : Rt) (loc : Nat) (f a : Term) :
    (termNewAppAt rt loc f a).1.heap loc = .tm f := by
  rw [termNewAppAt_heap, Function.update_of_ne (by omega), Function.update_self]

theorem termNewAppAt_arg (rt : Rt) (loc : Nat) (f a : Term) :
    (termNewAppAt rt loc f a).1.heap (loc + 1) = .tm a := by
  rw [termNewAppAt_heap, Function.update_self]

theorem wnfAppMatCtrRest_appSpine (ctr apps n i : Nat) (rt : Rt) (res : Term) (hi : 2 ≤ i)
    (hc : ctr + i + n ≤ apps) :
    AppSpine (wnfAppMatCtrRest rt ctr apps res i n).1.heap res (fieldsFrom rt ctr i n)
        (wnfAppMatCtrRest rt ctr apps res i n).2 ∧
      ∀ l < apps + 2 * (i - 2),
        (wnfAppMatCtrRest rt ctr apps res i n).1.heap l = rt.heap l := by
  induction n generalizing i rt res with
  | zero => exact ⟨.head, fun _ _ => rfl⟩
  | succ n ih =>
    let loc := apps + 2 * (i - 2)
    let arg := heapRead rt (ctr + i)
    let app := termNewAppAt rt loc res arg
    obtain ⟨hsp, hk⟩ := ih (i + 1) app.1 app.2 (by omega) (by omega)
    have hlim : apps + 2 * (i + 1 - 2) = loc + 2 := by omega
    rw [hlim] at hk
    have hargs : fieldsFrom app.1 ctr (i + 1) n = fieldsFrom rt ctr (i + 1) n := by
      refine fieldsFrom_congr n (i + 1) fun j _ hj => ?_
      exact termNewAppAt_of_ne _ _ _ (by omega) (by omega)
    rw [hargs] at hsp
    refine ⟨?_, fun l hl => ?_⟩
    · have h0 := (hk loc (by omega)).trans (termNewAppAt_fn rt loc res arg)
      have h1 := (hk (loc + 1) (by omega)).trans (termNewAppAt_arg rt loc res arg)
      exact AppSpine.trans (.single h0 h1) hsp
    · exact (hk l (by omega)).trans (termNewAppAt_of_ne _ _ _ (by omega) (by omega))

theorem wnfAppMatCtrHit_appSpine (rt : Rt) {mat ctr ari : Nat} (hm : mat + 1 < rt.next)
    (hc : ctr + ari ≤ rt.next) (hdis : mat + 1 < ctr ∨ ctr + ari ≤ mat) :
    AppSpine (wnfAppMatCtrHit rt mat ctr ari).1.heap (heapRead rt mat) (fieldsFrom rt ctr 0 ari)
      (wnfAppMatCtrHit rt mat ctr ari).2 := by
  let app0 := termNewAppAt rt mat (heapRead rt mat) (heapRead rt ctr)
  have h0 : AppSpine app0.1.heap (heapRead rt mat) [heapRead rt ctr] app0.2 :=
    .single (termNewAppAt_fn _ _ _ _) (termNewAppAt_arg _ _ _ _)
  match ari with
  | 0 => exact .head
  | 1 => exact h0
  | ari + 2 =>
    have hc1 : app0.1.heap (ctr + 1) = rt.heap (ctr + 1) :=
      termNewAppAt_of_ne _ _ _ (by omega) (by omega)
    let app1 := termNewAppAt app0.1 ctr app0.2 (heapRead app0.1 (ctr + 1))
    have hkeep : ∀ l, l ≠ ctr → l ≠ ctr + 1 → app1.1.heap l = app0.1.heap l :=
      fun l ha hb => termNewAppAt_of_ne _ _ _ ha hb
    have h01 : ∀ h, (∀ l < rt.next, h l = app1.1.heap l) →
        AppSpine h (heapRead rt mat) (fieldsFrom rt ctr 0 2) app1.2 := by
      intro h hh
      have ha : AppSpine h (heapRead rt mat) [heapRead rt ctr] app0.2 :=
        .single
          ((hh mat (by omega)).trans
            ((hkeep mat (by omega) (by omega)).trans (termNewAppAt_fn _ _ _ _)))
          ((hh (mat + 1) (by omega)).trans
            ((hkeep (mat + 1) (by omega) (by omega)).trans (termNewAppAt_arg _ _ _ _)))
      have hb : AppSpine h app0.2 [heapRead app0.1 (ctr + 1)] app1.2 :=
        .single ((hh ctr (by omega)).trans (termNewAppAt_fn _ _ _ _))
          ((hh (ctr + 1) (by omega)).trans (termNewAppAt_arg _ _ _ _))
      have he : heapRead app0.1 (ctr + 1) = heapRead rt (ctr + 1) := by
        rw [heapRead, heapRead, hc1]
      rw [he] at hb
      exact ha.trans hb
    cases ari with
    | zero => exact h01 _ fun _ _ => rfl
    | succ ari =>
      let rt2 : Rt := { app1.1 with next := app1.1.next + 2 * (ari + 1) }
      obtain ⟨hsp, hk⟩ := wnfAppMatCtrRest_appSpine ctr rt.next (ari + 1) 2 rt2
        app1.2 (Nat.le_refl _) (by omega)
      have hargs : fieldsFrom rt2 ctr 2 (ari + 1) = fieldsFrom rt ctr 2 (ari + 1) := by
        refine fieldsFrom_congr _ 2 fun j hj hlt => ?_
        have h2 : app1.1.heap (ctr + j) = app0.1.heap (ctr + j) := hkeep _ (by omega) (by omega)
        exact h2.trans (termNewAppAt_of_ne _ _ _ (by omega) (by omega))
      have hhit : wnfAppMatCtrHit rt mat ctr (ari + 1 + 2) =
          wnfAppMatCtrRest rt2 ctr rt.next app1.2 2 (ari + 1) := by
        simp [wnfAppMatCtrHit, heapAlloc]
        rfl
      have hall := fieldsFrom_append rt ctr 0 2 (ari + 1)
      rw [Nat.add_comm 2 (ari + 1), Nat.zero_add] at hall
      rw [hargs] at hsp
      rw [hhit, hall]
      exact (h01 _ hk).trans hsp

theorem takeWhile_tag {stack : List Term} {frm : Term}
    (h : frm ∈ stack.takeWhile (·.tag = .app)) : frm.tag = .app := by
  induction stack with
  | nil => cases h
  | cons x stack ih =>
    by_cases hx : x.tag = .app
    · rw [List.takeWhile_cons_of_pos (by simpa using hx)] at h
      rcases List.mem_cons.mp h with rfl | h
      · exact hx
      · exact ih h
    · rw [List.takeWhile_cons_of_neg (by simpa using hx)] at h
      cases h

theorem aotPushAppArg_pending (rt : Rt) {stack : List Term} (arg : Term) (ha : Allocated rt stack) :
    pendingArgs (aotPushAppArg rt stack arg).1 (aotPushAppArg rt stack arg).2 =
      arg :: pendingArgs rt stack := by
  have hnew : heapRead (aotPushAppArg rt stack arg).1 (rt.next + 1) = arg := by
    simp [aotPushAppArg, heapAlloc, heapSet, heapRead, Cell.toTerm]
  have hold : ∀ frm ∈ stack.takeWhile (·.tag = .app),
      heapRead (aotPushAppArg rt stack arg).1 (frm.val + 1) = heapRead rt (frm.val + 1) := by
    intro frm hf
    have hlt := ha frm (List.takeWhile_subset _ hf) (takeWhile_tag hf)
    have hne : frm.val + 1 ≠ rt.next + 1 := by omega
    simp [aotPushAppArg, heapAlloc, heapSet, heapRead, Function.update_of_ne hne]
  have hstack : (aotPushAppArg rt stack arg).2 = termNew false .app 0 rt.next :: stack := rfl
  rw [hstack, pendingArgs, List.takeWhile_cons_of_pos (by simp [termNew]), List.map_cons,
    pendingArgs, List.map_congr_left hold]
  exact congrArg (· :: _) hnew

/-- The code emitted for a SWI node. -/
theorem aotEmitSpine_swi {p : Source} {fuel loc tmp tmp' : Nat} {argIn : Bool} {sub : AotSubst}
    {code : Spine} (h : aotEmitSpine p (fuel + 1) argIn loc sub tmp = some (code, tmp'))
    (hlim : tmp < aotEmitTmpLim) (ht : (p.read loc).tag = .swi) :
    ∃ hit mis tmp1,
      aotEmitSpine p fuel false (p.read loc).val sub (tmp + 1) = some (hit, tmp1) ∧
      aotEmitSpine p fuel false ((p.read loc).val + 1) sub tmp1 = some (mis, tmp') ∧
      code = .swi loc sub.len (p.read loc).ext hit
        (aotEmitReuseArg p ((p.read loc).val + 1)) mis := by
  have hnl : ¬ tmp ≥ aotEmitTmpLim := by omega
  simp only [aotEmitSpine, if_neg hnl, ht, Option.bind_eq_bind, Option.bind_eq_some_iff] at h
  obtain ⟨⟨hit, tmp1⟩, hh, ⟨mis, tmp2⟩, hm, he⟩ := h
  obtain ⟨rfl, rfl⟩ : _ ∧ tmp2 = tmp' := by simpa using he
  exact ⟨hit, mis, tmp1, hh, hm, rfl⟩

theorem execSpine_swi (A : Aot) (depth loc len key : Nat) (x : Term) (locals : List Local)
    (reuse : Bool) (hit mis : Spine) {fuel : Nat} {arg w : Term} {rt rt1 : Rt}
    {stack stack1 : List Term} (hpop : aotPopAppArg rt stack = (arg, stack1)) (hz : arg ≠ Term.zero)
    (hforce : aotForce fuel rt arg = .ok (rt1, w)) (hw : w.tag = .num) :
    execSpine A (fuel + 1) depth x locals rt stack (.swi loc len key hit reuse mis) =
      execSpine A fuel depth x locals (swiDispatch key reuse rt1 stack1 w).2.1
        (swiDispatch key reuse rt1 stack1 w).2.2
        (if (swiDispatch key reuse rt1 stack1 w).1 then mis else hit) := by
  simp only [execSpine, hpop, if_neg hz, hforce]
  simp only [bind, Except.bind, hw, ne_eq, not_true_eq_false, if_false]

end Hvm
