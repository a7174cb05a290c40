import Hvm.Match.Switch

/-! The code emitted for a numeric switch. Each SWI node is one test of the emitted code; a
node met when the temporaries are used up is left to the interpreter. -/

namespace Hvm.Match

/-! ### Temporaries -/

/-- The counter of temporaries is not below `tmp` after the emission `o`. -/
def Above {α : Type} (tmp : Nat) (o : Option (α × Nat)) : Prop :=
  ∀ a tmp', o = some (a, tmp') → tmp ≤ tmp'

variable {α β : Type} {tmp : Nat}

theorem Above.emit {a : α} {t : Nat} (h : tmp ≤ t) : Above tmp (some (a, t)) := by
  intro a' t' he
  cases he
  exact h

theorem Above.stop : Above tmp (none : Option (α × Nat)) := by
  intro a t he
  cases he

theorem Above.bind {o : Option (α × Nat)} {f : α × Nat → Option (β × Nat)} (h : Above tmp o)
    (hf : ∀ a t, tmp ≤ t → Above tmp (f (a, t))) : Above tmp (o >>= f) := by
  intro b t' he
  obtain ⟨⟨a, t⟩, ho, he⟩ := Option.bind_eq_some_iff.mp he
  exact hf a t (h a t ho) b t' he

/-- Two emissions of which the second starts where the first ends. -/
theorem Above.pair {x y : Nat → Option (α × Nat)} {f : α × α × Nat → Option (β × Nat)} {t : Nat}
    (hx : Above tmp (x t)) (hy : ∀ t, tmp ≤ t → Above tmp (y t))
    (hf : ∀ a b t, tmp ≤ t → Above tmp (f (a, b, t))) :
    Above tmp ((do
      let (a, t) ← x t
      let (b, t) ← y t
      some (a, b, t)) >>= f) := by
  intro c t' he
  simp only [Option.bind_eq_bind, Option.bind_eq_some_iff] at he
  obtain ⟨z, ⟨⟨a, t1⟩, h1, ⟨b, t2⟩, h2, hz⟩, he⟩ := he
  cases hz
  exact hf a b t2 (hy t1 (hx a t1 h1) b t2 h2) c t' he

theorem aotEmitSeq_above {emit : Nat → Nat → Option (Expr × Nat)}
    (h : ∀ loc t, tmp ≤ t → Above tmp (emit loc t)) (locs : List Nat) {t : Nat} (ht : tmp ≤ t) :
    Above tmp (aotEmitSeq emit locs t) := by
  induction locs generalizing t with
  | nil => exact .emit ht
  | cons loc locs ih =>
    unfold aotEmitSeq
    refine .bind (h loc (t + 1) (by omega)) fun e t1 h1 => ?_
    exact .bind (ih h1) fun es t2 h2 => .emit h2

theorem aotEmitExpr_above (p : Source) (fuel : Nat) (sub : AotSubst) (loc : Nat) {t : Nat}
    (ht : tmp ≤ t) : Above tmp (aotEmitExpr p fuel loc sub t) := by
  induction fuel generalizing loc t with
  | zero => exact .stop
  | succ fuel ih =>
    have hseq : ∀ locs t, tmp ≤ t →
        Above tmp (aotEmitSeq (fun loc t => aotEmitExpr p fuel loc sub t) locs t) :=
      fun locs t ht => aotEmitSeq_above (fun loc t ht => ih loc ht) locs ht
    unfold aotEmitExpr
    by_cases hlim : t ≥ aotEmitTmpLim
    · rw [if_pos hlim]
      exact .emit ht
    · rw [if_neg hlim]
      dsimp only
      split
      · exact .emit ht
      · exact .emit ht
      · exact .emit ht
      · exact .emit ht
      · exact .emit ht
      · split
        · exact .emit ht
        · split
          · exact .bind (ih _ (by omega)) fun bod t1 h1 => .emit h1
          · exact .bind (hseq _ _ (by omega)) fun args t1 h1 => .emit h1
      · split
        · exact .pair (ih _ (by omega)) (fun t ht => ih _ ht) fun fn arg t1 h1 => .emit h1
        · split
          · exact .pair (ih _ (by omega)) (fun t ht => ih _ ht) fun fn arg t1 h1 => .emit h1
          · refine .bind (hseq _ _ (by omega)) fun es t1 h1 => ?_
            refine .pair (ih _ (by omega)) (fun t ht => ih _ ht) fun fn arg t2 h2 => ?_
            split
            · split
              · exact .emit h2
              · exact .emit h2
            · exact .emit h2
      · exact .bind (ih _ (by omega)) fun x t1 h1 => .bind (ih _ h1) fun y t2 h2 => .emit h2
      · exact .bind (ih _ (by omega)) fun x t1 h1 => .bind (ih _ h1) fun y t2 h2 => .emit h2
      · exact .bind (ih _ (by omega)) fun x t1 h1 => .emit h1
      all_goals exact .emit ht

theorem aotEmitSpine_above (p : Source) (fuel : Nat) (argIn : Bool) (loc : Nat) (sub : AotSubst)
    {t : Nat} (ht : tmp ≤ t) : Above tmp (aotEmitSpine p fuel argIn loc sub t) := by
  induction fuel generalizing argIn loc sub t with
  | zero => exact .stop
  | succ fuel ih =>
    have hexpr : ∀ loc t, tmp ≤ t → Above tmp (aotEmitExpr p fuel loc sub t) :=
      fun loc t ht => aotEmitExpr_above p fuel sub loc ht
    unfold aotEmitSpine
    by_cases hlim : t ≥ aotEmitTmpLim
    · rw [if_pos hlim]
      exact .emit ht
    · rw [if_neg hlim]
      dsimp only
      split
      · refine .bind ?_ fun direct t1 h1 => .bind (hexpr _ _ (by omega)) fun arg t2 h2 =>
          .bind (ih _ _ _ h2) fun rest t3 h3 => ?_
        · unfold aotEmitSpineDirect
          split
          · split
            · refine .bind (aotEmitSeq_above hexpr _ ht) fun es t1 h1 => ?_
              dsimp only
              split
              · exact .emit h1
              · exact .emit h1
            · exact .emit ht
          · exact .emit ht
        · split
          · exact .emit h3
          · exact .emit h3
      · split
        · exact .emit ht
        · exact .bind (ih _ _ _ ht) fun rest t1 h1 => .emit h1
      · exact .bind (ih _ _ _ (by omega)) fun hit t1 h1 => .bind (ih _ _ _ h1) fun mis t2 h2 =>
          .emit h2
      · exact .bind (ih _ _ _ (by omega)) fun hit t1 h1 => .bind (ih _ _ _ h1) fun mis t2 h2 =>
          .emit h2
      · exact .bind (ih _ _ _ (by omega)) fun rest t1 h1 => .emit h1
      · split
        · exact .emit ht
        · exact .bind (hexpr _ _ ht) fun val t1 h1 => .bind (ih _ _ _ h1) fun rest t2 h2 => .emit h2
      · exact .bind (hexpr _ _ (by omega)) fun alt t1 h1 => .emit h1
      · exact .bind (hexpr _ _ (by omega)) fun e t1 h1 => .emit h1

/-! ### One test after the other -/

/-- Emitted code about to run over a stack. -/
structure SpineAt where
  fuel : Nat
  rt : Rt
  stack : List Term
  code : Spine

/-- The code of a SWI node tests the number on top of the stack. -/
def swiNext : SpineAt → Option SpineAt
  | ⟨fuel + 1, rt, stack, .swi _ _ key hit reuse mis⟩ =>
    let (arg, stack) := aotPopAppArg rt stack
    if arg = Term.zero then none
    else match aotForce fuel rt arg with
      | .ok (rt, w) =>
        if w.tag = .num then
          let d := swiDispatch key reuse rt stack w
          some ⟨fuel, d.2.1, d.2.2, if d.1 then mis else hit⟩
        else none
      | .error _ => none
  | _ => none

/-- The code takes tests until it is at `c'`. -/
def Tests (c c' : SpineAt) : Prop := Relation.ReflTransGen (fun c c' => swiNext c = some c') c c'

/-- The scrutinee on top of the stack is forced to `w`, which leaves `stack1`. -/
structure Awaits (fuel : Nat) (rt : Rt) (stack : List Term) (rt1 : Rt) (stack1 : List Term)
    (w : Term) : Prop where
  pop : ∃ arg, aotPopAppArg rt stack = (arg, stack1) ∧ arg ≠ Term.zero ∧
    aotForce fuel rt arg = .ok (rt1, w)
  tag : w.tag = .num
  allocated : Allocated rt1 stack1

variable {fuel loc len key : Nat} {rt rt1 : Rt} {stack stack1 : List Term} {w : Term}
  {hit mis : Spine} {reuse : Bool} {p : Source}

theorem Awaits.swiNext (h : Awaits fuel rt stack rt1 stack1 w) :
    swiNext ⟨fuel + 1, rt, stack, .swi loc len key hit reuse mis⟩ =
      let d := swiDispatch key reuse rt1 stack1 w
      some ⟨fuel, d.2.1, d.2.2, if d.1 then mis else hit⟩ := by
  obtain ⟨arg, hpop, hne, hforce⟩ := h.pop
  simp only [Match.swiNext, hpop, if_neg hne, hforce, h.tag, if_true]

/-- The tests are what the emitted code does. -/
theorem swiNext_exec (A : Aot) (depth : Nat) (x : Term) (locals : List Local) {c c' : SpineAt}
    (h : swiNext c = some c') :
    execSpine A c.fuel depth x locals c.rt c.stack c.code =
      execSpine A c'.fuel depth x locals c'.rt c'.stack c'.code := by
  unfold swiNext at h
  split at h
  · rename_i fuel rt stack loc len key hit reuse mis
    dsimp only at h
    by_cases hz : (aotPopAppArg rt stack).1 = Term.zero
    · rw [if_pos hz] at h
      cases h
    · rw [if_neg hz] at h
      split at h
      · rename_i rt1 w hforce
        split at h
        · rename_i htag
          cases h
          exact execSpine_swi A depth loc len key x locals reuse hit mis rfl hz hforce htag
        · cases h
      · cases h
  · cases h

theorem Tests.exec (A : Aot) (depth : Nat) (x : Term) (locals : List Local) {c c' : SpineAt}
    (h : Tests c c') :
    execSpine A c.fuel depth x locals c.rt c.stack c.code =
      execSpine A c'.fuel depth x locals c'.rt c'.stack c'.code := by
  induction h with
  | refl => rfl
  | tail _ hs ih => exact ih.trans (swiNext_exec A depth x locals hs)

/-- A number pushed back is the scrutinee of the next test. -/
theorem Awaits.push (h : Awaits fuel rt stack rt1 stack1 w) (n : Nat) :
    let r := aotPushAppArg (aotItrsInc rt1) stack1 w
    Awaits (n + 1) r.1 r.2 r.1 stack1 w := by
  have hpop : aotPopAppArg (aotPushAppArg (aotItrsInc rt1) stack1 w).1
      (aotPushAppArg (aotItrsInc rt1) stack1 w).2 = (w, stack1) := by
    simp [aotPushAppArg, aotPopAppArg, heapAlloc, heapSet, heapRead, termNew, Cell.toTerm]
  have hne : w ≠ Term.zero := by
    rintro rfl
    exact absurd h.tag (by decide)
  have hforce : ∀ rt, aotForce (n + 1) rt w = .ok (rt, w) := by
    intro rt
    simp only [aotForce, h.tag]
  refine ⟨⟨w, hpop, hne, hforce _⟩, h.tag, fun frm hf ht => ?_⟩
  have hlt := h.allocated frm hf ht
  have hn : (aotPushAppArg (aotItrsInc rt1) stack1 w).1.next = rt1.next + 2 := rfl
  omega

theorem pendingArgs_push (ha : Allocated rt1 stack1) (w : Term) :
    pendingArgs (aotPushAppArg (aotItrsInc rt1) stack1 w).1 stack1 = pendingArgs rt1 stack1 := by
  have h := aotPushAppArg_pending (aotItrsInc rt1) w ha
  have hc : pendingArgs (aotPushAppArg (aotItrsInc rt1) stack1 w).1
      (aotPushAppArg (aotItrsInc rt1) stack1 w).2 =
      heapRead (aotPushAppArg (aotItrsInc rt1) stack1 w).1 (rt1.next + 1) ::
        pendingArgs (aotPushAppArg (aotItrsInc rt1) stack1 w).1 stack1 := rfl
  rw [hc] at h
  exact (List.cons.inj h).2

/-! ### A whole switch -/

/-- The arguments in front of those that wait beneath the scrutinee. -/
def Brings (c : SpineAt) (args : List Term) (rt1 : Rt) (stack1 : List Term) : Prop :=
  pendingArgs c.rt c.stack = args ++ pendingArgs rt1 stack1 ∧ beneath c.stack = beneath stack1

/-- `c` is at the code emitted for the arm at `o.1`, with the arguments `o.2`. -/
def AtArm (p : Source) (sub : AotSubst) (rt1 : Rt) (stack1 : List Term) (o : Nat × List Term)
    (c : SpineAt) : Prop :=
  (∃ fuel tmp tmp', aotEmitSpine p fuel false o.1 sub tmp = some (c.code, tmp')) ∧
    Brings c o.2 rt1 stack1

/-- `c` hands the scrutinee and the rest of the switch back to the interpreter; no literal
passed so far has the property `q`. -/
def HandsBack (p : Source) (sub : AotSubst) (rt1 : Rt) (stack1 : List Term) (w : Term)
    (q : UInt32 → Prop) (Ns : List UInt32) (bs : List Nat) (d : Nat) (c : SpineAt) : Prop :=
  ∃ Ms Ks cs loc, Ns = Ms ++ Ks ∧ bs = bs.take Ms.length ++ cs ∧ Ks ≠ [] ∧
    Switch p.heap loc Ks cs d ∧ (∀ M ∈ Ms, ¬ q M) ∧ c.code = .retFallback loc sub.len ∧
    Brings c [w] rt1 stack1

/-- The branch of the first literal with the property `q`, else the default with `args`. -/
def armOf (q : UInt32 → Bool) (Ns : List UInt32) (bs : List Nat) (d : Nat) (args : List Term) :
    Nat × List Term :=
  match firstOf q Ns bs with
  | some b => (b, [])
  | none => (d, args)

theorem armOf_hit {q : UInt32 → Bool} {N : UInt32} (h : q N = true) (Ns : List UInt32) (b : Nat)
    (bs : List Nat) (d : Nat) (args : List Term) :
    armOf q (N :: Ns) (b :: bs) d args = (b, []) := by
  rw [armOf, firstOf_hit h]

theorem armOf_miss {q : UInt32 → Bool} {N : UInt32} (h : ¬ q N = true) (Ns : List UInt32) (b : Nat)
    (bs : List Nat) (d : Nat) (args : List Term) :
    armOf q (N :: Ns) (b :: bs) d args = armOf q Ns bs d args := by
  rw [armOf, firstOf_miss h, armOf]

theorem Switch.pushes {loc d : Nat} {N : UInt32} {Ns : List UInt32} {bs : List Nat}
    (h : Switch p.heap loc (N :: Ns) bs d) : aotEmitReuseArg p loc = true := by
  cases h with
  | case hb htag =>
    rw [aotEmitReuseArg, Source.read, hb, Cell.toTerm, htag]

/-- What the scrutinee's frame becomes when a literal is missed. -/
def missed (reuse : Bool) (rt : Rt) (stack : List Term) (w : Term) : Rt × List Term :=
  if reuse then aotPushAppArg (aotItrsInc rt) stack w else (aotItrsInc rt, stack)

theorem missed_brings (reuse : Bool) (ha : Allocated rt1 stack1) (w : Term) (n : Nat)
    (code : Spine) :
    Brings ⟨n, (missed reuse rt1 stack1 w).1, (missed reuse rt1 stack1 w).2, code⟩
      (if reuse then [w] else []) rt1 stack1 := by
  cases reuse with
  | true => exact ⟨aotPushAppArg_pending (aotItrsInc rt1) w ha, aotPushAppArg_beneath (aotItrsInc rt1) stack1 w⟩
  | false => exact ⟨rfl, rfl⟩

/-- One node of a switch: its code, and the test it makes. -/
theorem Switch.test {loc d : Nat} {N : UInt32} {Ns : List UInt32} {bs : List Nat} {v : UInt32}
    (hs : Switch p.heap loc (N :: Ns) bs d) {f tmp tmp' : Nat} {argIn : Bool} {sub : AotSubst}
    {code : Spine} (he : aotEmitSpine p f argIn loc sub tmp = some (code, tmp'))
    (hlim : tmp < aotEmitTmpLim) (hw : Awaits fuel rt stack rt1 stack1 w)
    (hv : w.val = v.toNat) :
    ∃ b cs hit mis tmp1 f', bs = b :: cs ∧ Switch p.heap (b + 1) Ns cs d ∧ tmp + 1 ≤ tmp1 ∧
      aotEmitSpine p f' false b sub (tmp + 1) = some (hit, tmp1) ∧
      aotEmitSpine p f' false (b + 1) sub tmp1 = some (mis, tmp') ∧
      (cut N = v.toNat → swiNext ⟨fuel + 1, rt, stack, code⟩ =
        some ⟨fuel, aotItrsInc rt1, stack1, hit⟩) ∧
      (cut N ≠ v.toNat → swiNext ⟨fuel + 1, rt, stack, code⟩ =
        let r := missed (aotEmitReuseArg p (b + 1)) rt1 stack1 w
        some ⟨fuel, r.1, r.2, mis⟩) := by
  cases hs with
  | @case _ _ b _ _ cs hb htag hext hrest =>
    have hread : p.read loc = b := by
      rw [Source.read, hb]
      rfl
    cases f with
    | zero => cases he
    | succ f =>
      have ht : (p.read loc).tag = .swi := by rw [hread, htag]
      obtain ⟨hit, mis, tmp1, hh, hm, rfl⟩ := aotEmitSpine_swi he hlim ht
      rw [hread] at hh hm ⊢
      have hle := aotEmitSpine_above p f false b.val sub (Nat.le_refl (tmp + 1)) hit tmp1 hh
      have hu : u32 w.val = v.toNat := by
        rw [hv]
        exact Nat.mod_eq_of_lt v.toNat_lt
      refine ⟨b.val, cs, hit, mis, tmp1, f, rfl, hrest, hle, hh, hm, fun hc => ?_, fun hc => ?_⟩
      · have hk : u32 w.val = b.ext := by rw [hu, hext, hc]
        rw [hw.swiNext]
        simp only [swiDispatch, if_pos hk]
        rfl
      · have hk : ¬ u32 w.val = b.ext := by
          rw [hu, hext]
          exact fun h => hc h.symm
        rw [hw.swiNext]
        simp only [swiDispatch, if_neg hk]
        rfl

theorem Brings.congr {rt2 : Rt} {args : List Term} {c : SpineAt} (h : Brings c args rt2 stack1)
    (hp : pendingArgs rt2 stack1 = pendingArgs rt1 stack1) : Brings c args rt1 stack1 := by
  obtain ⟨hpend, hb⟩ := h
  rw [hp] at hpend
  exact ⟨hpend, hb⟩

/-- The emitted code tests the literals in turn for one that agrees with the number in the
bits that EXT has. -/
theorem Switch.tests {loc d : Nat} {N : UInt32} {Ns : List UInt32} {bs : List Nat} {v : UInt32}
    (hs : Switch p.heap loc (N :: Ns) bs d) {f tmp tmp' : Nat} {argIn : Bool} {sub : AotSubst}
    {code : Spine} (he : aotEmitSpine p f argIn loc sub tmp = some (code, tmp'))
    (hlim : tmp < aotEmitTmpLim) {run : Nat}
    (hw : Awaits (run + (N :: Ns).length) rt stack rt1 stack1 w) (hv : w.val = v.toNat) :
    ∃ c, Tests ⟨run + (N :: Ns).length + 1, rt, stack, code⟩ c ∧
      (AtArm p sub rt1 stack1 (armOf (cut · = v.toNat) (N :: Ns) bs d
          (if aotEmitReuseArg p d then [w] else [])) c ∧
        ((∀ M ∈ N :: Ns, cut M ≠ v.toNat) → tmp + (N :: Ns).length ≤ aotEmitTmpLim) ∨
      HandsBack p sub rt1 stack1 w (cut · = v.toNat) (N :: Ns) bs d c) := by
  induction Ns generalizing loc N bs rt stack rt1 f tmp tmp' argIn code with
  | nil =>
    obtain ⟨b, cs, hit, mis, tmp1, f', rfl, hrest, hle, hh, hm, hhit, hmis⟩ :=
      hs.test he hlim hw hv
    cases hrest
    by_cases hc : cut N = v.toNat
    · refine ⟨_, .single (hhit hc), .inl ⟨?_, fun h => absurd hc (h N (by simp))⟩⟩
      rw [armOf_hit (by simp [hc])]
      exact ⟨⟨f', _, _, hh⟩, rfl, rfl⟩
    · refine ⟨_, .single (hmis hc), .inl ⟨?_, fun _ => ?_⟩⟩
      · rw [armOf_miss (by simp [hc])]
        refine ⟨⟨f', _, _, hm⟩, ?_⟩
        exact missed_brings _ hw.allocated w _ _
      · simp only [List.length_singleton]
        omega
  | cons M Ns ih =>
    obtain ⟨b, cs, hit, mis, tmp1, f', rfl, hrest, hle, hh, hm, hhit, hmis⟩ :=
      hs.test he hlim hw hv
    by_cases hc : cut N = v.toNat
    · refine ⟨_, .single (hhit hc), .inl ⟨?_, fun h => absurd hc (h N (by simp))⟩⟩
      rw [armOf_hit (by simp [hc])]
      exact ⟨⟨f', _, _, hh⟩, rfl, rfl⟩
    · have hreuse := hrest.pushes
      have hstep := hmis hc
      rw [hreuse] at hstep
      by_cases hlim1 : tmp1 < aotEmitTmpLim
      · -- the next node is tested on the scrutinee that was pushed back
        have hlen : run + (N :: M :: Ns).length = run + (M :: Ns).length + 1 := by
          simp only [List.length_cons]
          omega
        have hlen1 : run + (M :: Ns).length = run + Ns.length + 1 := by
          simp only [List.length_cons]
          omega
        have hpush := hw.push (run + Ns.length)
        dsimp only at hpush
        rw [← hlen1] at hpush
        obtain ⟨c, hc1, hres⟩ := ih hrest hm hlim1 hpush
        rw [hlen] at hstep ⊢
        refine ⟨c, .head hstep hc1, ?_⟩
        have hpend := pendingArgs_push hw.allocated w
        rcases hres with ⟨harm, hbound⟩ | ⟨Ms, Ks, cs', loc', hN, hb, hne, hsw, hM, hcode,
          hbr⟩
        · refine .inl ⟨?_, fun h => ?_⟩
          · rw [armOf_miss (by simp [hc])]
            exact ⟨harm.1, harm.2.congr hpend⟩
          · have hle2 := hbound fun K hK => h K (List.mem_cons_of_mem _ hK)
            simp only [List.length_cons] at hle2 ⊢
            omega
        · refine .inr ⟨N :: Ms, Ks, cs', loc', by rw [hN]; rfl, ?_, hne, hsw, ?_, hcode,
            hbr.congr hpend⟩
          · simp only [List.length_cons, List.take_succ_cons, List.cons_append]
            rw [← hb]
          · rintro K (hK | ⟨_, hK⟩)
            · exact hc
            · exact hM K ‹_›
      · have hmis' : mis = .retFallback (b + 1) sub.len := by
          cases f' with
          | zero => cases hm
          | succ f' =>
            rw [aotEmitSpine, if_pos (by omega)] at hm
            cases hm
            rfl
        refine ⟨_, .single hstep, .inr ⟨[N], M :: Ns, cs, b + 1, rfl, rfl, by simp, hrest, ?_,
          hmis', missed_brings true hw.allocated w _ _⟩⟩
        intro K hK
        rw [List.mem_singleton.mp hK]
        exact hc

/-! ### What the emitted code selects -/

/-- The code emitted for a switch with the literals `Ns`, run on the number `v`, comes to the
code of the first branch with `v` itself as its literal, or else to that of the default with
the scrutinee put back; or it hands the scrutinee and the rest of the switch, before that
literal, back to the interpreter. `keeps` tells a default that is a LAM, MAT, SWI or USE. -/
def Compiles (Ns : List UInt32) (v : UInt32) (keeps : Bool) : Prop :=
  ∀ (p : Source) (root d : Nat) (bs : List Nat), Switch p.heap root Ns bs d →
    aotEmitReuseArg p d = keeps →
    ∀ (f : Nat) (argIn : Bool) (sub : AotSubst) (tmp tmp' : Nat) (code : Spine),
      aotEmitSpine p f argIn root sub tmp = some (code, tmp') → tmp < aotEmitTmpLim →
      ∀ (run : Nat) (rt : Rt) (stack : List Term) (rt1 : Rt) (stack1 : List Term) (w : Term),
        Awaits (run + Ns.length) rt stack rt1 stack1 w → w.val = v.toNat →
        ∃ c, (∀ A depth x locals,
            execSpine A (run + Ns.length + 1) depth x locals rt stack code =
              execSpine A c.fuel depth x locals c.rt c.stack c.code) ∧
          Tests ⟨run + Ns.length + 1, rt, stack, code⟩ c ∧
          (AtArm p sub rt1 stack1 (armOf (· = v) Ns bs d [w]) c ∨
            HandsBack p sub rt1 stack1 w (· = v) Ns bs d c)

variable {Ns : List UInt32} {v : UInt32} {keeps : Bool}

theorem Faithful.missed (hf : Faithful Ns v) (hv : v ∉ Ns) : ∀ M ∈ Ns, cut M ≠ v.toNat := by
  have hnone : Ns.find? (cut · = v.toNat) = none := by
    rw [hf, List.find?_eq_none]
    intro M hM hMv
    have he : M = v := by simpa using hMv
    exact hv (he ▸ hM)
  intro M hM hMv
  exact List.find?_eq_none.mp hnone M hM (by simp [hMv])

theorem Faithful.arm (hf : Faithful Ns v) {args : List Term} (bs : List Nat) (d : Nat)
    (h : v ∈ Ns ∧ Ns.length = bs.length ∨ args = [w]) :
    armOf (cut · = v.toNat) Ns bs d args = armOf (· = v) Ns bs d [w] := by
  unfold armOf
  rw [hf.first bs]
  rcases h with ⟨hv, hl⟩ | rfl
  · cases hn : firstOf (· = v) Ns bs with
    | some b => rfl
    | none =>
      rw [firstOf, Option.map_eq_none_iff, List.find?_eq_none] at hn
      obtain ⟨i, hi, he⟩ := List.mem_iff_getElem.mp hv
      have hm : (Ns[i], bs[i]) ∈ Ns.zip bs := by
        rw [← List.getElem_zip (h := by simp; omega)]
        exact List.getElem_mem _
      exact absurd (hn _ hm) (by simp [he])
  · rfl

theorem compiles_of_faithful (hne : Ns ≠ []) (hf : Faithful Ns v)
    (hk : v ∈ Ns ∨ keeps = true ∨ aotEmitTmpLim < Ns.length) : Compiles Ns v keeps := by
  intro p root d bs hs hreuse f argIn sub tmp tmp' code he hlim run rt stack rt1 stack1 w hw hv
  cases Ns with
  | nil => exact absurd rfl hne
  | cons N Ns =>
    obtain ⟨c, hc, hres⟩ := hs.tests he hlim hw hv
    refine ⟨c, fun A depth x locals => hc.exec A depth x locals, hc, ?_⟩
    rcases hres with ⟨harm, hbound⟩ | ⟨Ms, Ks, cs, loc, hN, hb, hKs, hsw, hM, hcode, hbr⟩
    · left
      by_cases hv : v ∈ N :: Ns
      · rwa [hf.arm bs d (.inl ⟨hv, hs.length⟩)] at harm
      · have hle := hbound (hf.missed hv)
        have hkeeps : keeps = true := by
          rcases hk with hk | hk | hk
          · exact absurd hk hv
          · exact hk
          · omega
        rw [hreuse, hkeeps, if_pos rfl] at harm
        rwa [hf.arm bs d (.inr rfl)] at harm
    · right
      refine ⟨Ms, Ks, cs, loc, hN, hb, hKs, hsw, fun M hMm hMv => hM M hMm ?_, hcode, hbr⟩
      have hvN : v ∈ N :: Ns := by
        rw [hN, ← hMv]
        exact List.mem_append_left _ hMm
      rw [hMv]
      exact hf.cut_eq hvN

/-! ### A switch whose default drops the scrutinee -/

/-- A switch whose branches are lambdas at even cells and whose default, at the last odd cell,
is a number. -/
def plainSwitch (Ns : List UInt32) : Source where
  heap l :=
    .tm (if l % 2 = 0 then termNew false .lam lamEraMask 0
      else sampleWord (Ns.map literalPattern) (l / 2))
  next := 2 * Ns.length + 2
  book := fun _ => 0
  table := []

/-- Under this many binders a lambda is left to the interpreter, and no temporary is used. -/
def deepSub : AotSubst := ⟨0, List.replicate aotSubCap .lam⟩

theorem plainSwitch_even (Ns : List UInt32) {l : Nat} (hl : l % 2 = 0) :
    (plainSwitch Ns).read l = termNew false .lam lamEraMask 0 := by
  simp only [Source.read, plainSwitch, if_pos hl, Cell.toTerm]

theorem plainSwitch_odd (Ns : List UInt32) (i : Nat) :
    (plainSwitch Ns).heap (2 * i + 1) = .tm (sampleWord (Ns.map literalPattern) i) := by
  have hl : ¬ (2 * i + 1) % 2 = 0 := by omega
  have hi : (2 * i + 1) / 2 = i := by omega
  simp only [plainSwitch, if_neg hl, hi]

theorem drop_cons {i : Nat} {N : UInt32} {Ks : List UInt32} (h : Ns.drop i = N :: Ks) :
    Ns[i]? = some N ∧ Ns.drop (i + 1) = Ks ∧ i < Ns.length := by
  have hlt : i < Ns.length := by
    by_contra hc
    rw [List.drop_eq_nil_iff.mpr (by omega)] at h
    cases h
  refine ⟨?_, ?_, hlt⟩
  · have h0 := congrArg (·[0]?) h
    simpa using h0
  · rw [← List.tail_drop, h]
    rfl

theorem plainSwitch_node {i : Nat} {N : UInt32} (h : Ns[i]? = some N) :
    (plainSwitch Ns).heap (2 * i + 1) = .tm ⟨false, .swi, cut N, 2 * i + 2⟩ := by
  rw [plainSwitch_odd, sampleWord, List.getElem?_map, h]
  rfl

theorem plainSwitch_default (Ns : List UInt32) :
    (plainSwitch Ns).heap (2 * Ns.length + 1) = .tm (termNewNum Ns.length) := by
  rw [plainSwitch_odd, sampleWord, List.getElem?_eq_none (by simp)]

theorem plainSwitch_switch (Ns Ks : List UInt32) {i : Nat} (h : Ns.drop i = Ks) (hi : i ≤ Ns.length) :
    ∃ bs, Switch (plainSwitch Ns).heap (2 * i + 1) Ks bs (2 * Ns.length + 1) := by
  induction Ks generalizing i with
  | nil =>
    have hlen : i = Ns.length := Nat.le_antisymm hi (List.drop_eq_nil_iff.mp h)
    subst hlen
    exact ⟨[], .default _⟩
  | cons N Ks ih =>
    obtain ⟨hN, htail, hlt⟩ := drop_cons h
    obtain ⟨bs, hbs⟩ := ih htail hlt
    exact ⟨_, .case (plainSwitch_node hN) rfl rfl hbs⟩

/-- The hit branch of a node of the switch takes no temporary. -/
theorem plainSwitch_hit {f b t tmp' : Nat} {code : Spine}
    (hb : b % 2 = 0) (he : aotEmitSpine (plainSwitch Ns) f false b deepSub t = some (code, tmp')) :
    tmp' = t := by
  cases f with
  | zero => cases he
  | succ f =>
    unfold aotEmitSpine at he
    by_cases ht : t ≥ aotEmitTmpLim
    · rw [if_pos ht] at he
      cases he
      rfl
    · rw [if_neg ht, plainSwitch_even Ns hb] at he
      cases he
      rfl

theorem plainSwitch_last {f t tmp' fuel : Nat} {code : Spine} {rt : Rt} {stack : List Term}
    (he : aotEmitSpine (plainSwitch Ns) f false (2 * Ns.length + 1) deepSub t =
      some (code, tmp')) : swiNext ⟨fuel, rt, stack, code⟩ = none := by
  have hread : (plainSwitch Ns).read (2 * Ns.length + 1) = termNewNum Ns.length := by
    rw [Source.read, plainSwitch_default]
    rfl
  cases f with
  | zero => cases he
  | succ f =>
    unfold aotEmitSpine at he
    by_cases ht : t ≥ aotEmitTmpLim
    · rw [if_pos ht] at he
      cases he
      cases fuel <;> rfl
    · rw [if_neg ht, hread] at he
      simp only [termNewNum, termNew, Option.bind_eq_bind, Option.bind_eq_some_iff] at he
      obtain ⟨⟨e, t1⟩, -, he⟩ := he
      cases he
      cases fuel <;> rfl

theorem plainSwitch_expr (Ns : List UInt32) (f t : Nat) :
    ∃ e t', aotEmitExpr (plainSwitch Ns) (f + 1) (2 * Ns.length + 1) deepSub t = some (e, t') := by
  have hread : (plainSwitch Ns).read (2 * Ns.length + 1) = termNewNum Ns.length := by
    rw [Source.read, plainSwitch_default]
    rfl
  unfold aotEmitExpr
  by_cases ht : t ≥ aotEmitTmpLim
  · exact ⟨_, _, if_pos ht⟩
  · rw [if_neg ht, hread]
    exact ⟨_, _, rfl⟩

theorem plainSwitch_hit_emits (Ns : List UInt32) (f t : Nat) {b : Nat} (hb : b % 2 = 0) :
    ∃ hit, aotEmitSpine (plainSwitch Ns) (f + 1) false b deepSub t = some (hit, t) := by
  unfold aotEmitSpine
  by_cases ht : t ≥ aotEmitTmpLim
  · exact ⟨_, if_pos ht⟩
  · rw [if_neg ht, plainSwitch_even Ns hb]
    exact ⟨_, rfl⟩

theorem plainSwitch_emits (Ns Ks : List UInt32) {i : Nat} (h : Ns.drop i = Ks) (hi : i ≤ Ns.length)
    (argIn : Bool) (f : Nat) :
    ∃ code tmp', aotEmitSpine (plainSwitch Ns) (f + Ks.length + 2) argIn (2 * i + 1) deepSub i =
      some (code, tmp') := by
  induction Ks generalizing i argIn with
  | nil =>
    have hlen : i = Ns.length := Nat.le_antisymm hi (List.drop_eq_nil_iff.mp h)
    subst hlen
    have hread : (plainSwitch Ns).read (2 * Ns.length + 1) = termNewNum Ns.length := by
      rw [Source.read, plainSwitch_default]
      rfl
    unfold aotEmitSpine
    by_cases ht : Ns.length ≥ aotEmitTmpLim
    · exact ⟨_, _, if_pos ht⟩
    · obtain ⟨e, t', he⟩ := plainSwitch_expr Ns f (Ns.length + 1)
      rw [if_neg ht, hread]
      simp only [termNewNum, termNew, List.length_nil, Nat.add_zero, he, Option.bind_eq_bind,
        Option.bind_some]
      exact ⟨_, _, rfl⟩
  | cons N Ks ih =>
    obtain ⟨hN, htail, hlt⟩ := drop_cons h
    have hread : (plainSwitch Ns).read (2 * i + 1) = ⟨false, .swi, cut N, 2 * i + 2⟩ := by
      rw [Source.read, plainSwitch_node hN]
      rfl
    obtain ⟨mis, tmp', hmis⟩ := ih htail hlt false
    obtain ⟨hit, hhit⟩ := plainSwitch_hit_emits Ns (f + Ks.length + 1) (i + 1)
      (b := 2 * i + 2) (by omega)
    have hnext : 2 * (i + 1) + 1 = 2 * i + 2 + 1 := by omega
    have hfuel : f + (N :: Ks).length + 1 = f + Ks.length + 2 := by
      simp only [List.length_cons]
      omega
    rw [hnext] at hmis
    unfold aotEmitSpine
    by_cases ht : i ≥ aotEmitTmpLim
    · exact ⟨_, _, if_pos ht⟩
    · rw [if_neg ht, hread, hfuel]
      simp only [hhit, hmis, Option.bind_eq_bind, Option.bind_some]
      exact ⟨_, _, rfl⟩

/-- No literal is hit, and the default's code is reached with an empty stack. -/
theorem plainSwitch_tests {Ks : List UInt32} {N : UInt32} {i : Nat} (h : Ns.drop i = N :: Ks)
    (hn : Ns.length ≤ aotEmitTmpLim) (hmiss : ∀ M ∈ N :: Ks, cut M ≠ v.toNat) {f tmp' : Nat}
    {argIn : Bool} {code : Spine}
    (he : aotEmitSpine (plainSwitch Ns) f argIn (2 * i + 1) deepSub i = some (code, tmp'))
    {r : Nat} (hw : Awaits (r + (N :: Ks).length) rt stack rt1 [] w) (hv : w.val = v.toNat) :
    ∃ c, Tests ⟨r + (N :: Ks).length + 1, rt, stack, code⟩ c ∧ c.stack = [] ∧
      swiNext c = none := by
  induction Ks generalizing N i rt stack rt1 f tmp' argIn code with
  | nil =>
    obtain ⟨hN, htail, hlt⟩ := drop_cons h
    have hlen : i + 1 = Ns.length := Nat.le_antisymm hlt (List.drop_eq_nil_iff.mp htail)
    have hs : Switch (plainSwitch Ns).heap (2 * i + 1) [N] [2 * i + 2] (2 * i + 2 + 1) :=
      .case (plainSwitch_node hN) rfl rfl (.default _)
    obtain ⟨b, cs, hit, mis, tmp1, f', hb, -, -, -, hm, -, hstep⟩ := hs.test he (by omega) hw hv
    cases hb
    have hd : 2 * i + 2 + 1 = 2 * Ns.length + 1 := by omega
    have hdef : aotEmitReuseArg (plainSwitch Ns) (2 * i + 2 + 1) = false := by
      rw [hd, aotEmitReuseArg, Source.read, plainSwitch_default]
      rfl
    have hstep := hstep (hmiss N (by simp))
    rw [hdef] at hstep
    rw [hd] at hm
    exact ⟨_, .single hstep, rfl, plainSwitch_last hm⟩
  | cons M Ks ih =>
    obtain ⟨hN, htail, hlt⟩ := drop_cons h
    obtain ⟨bs, hbs⟩ := plainSwitch_switch Ns (M :: Ks) htail hlt
    have hs : Switch (plainSwitch Ns).heap (2 * i + 1) (N :: M :: Ks) ((2 * i + 2) :: bs) _ :=
      .case (plainSwitch_node hN) rfl rfl hbs
    obtain ⟨b, cs, hit, mis, tmp1, f', hb, hrest, -, hh, hm, -, hstep⟩ :=
      hs.test he (by omega) hw hv
    cases hb
    have htmp := plainSwitch_hit (by omega) hh
    subst htmp
    have hstep := hstep (hmiss N (by simp))
    rw [hrest.pushes] at hstep
    have hpush := hw.push (r + Ks.length)
    have hlen : r + (N :: M :: Ks).length = r + (M :: Ks).length + 1 := by
      simp only [List.length_cons]
      omega
    have hlen1 : r + (M :: Ks).length = r + Ks.length + 1 := by
      simp only [List.length_cons]
      omega
    dsimp only at hpush
    rw [← hlen1] at hpush
    obtain ⟨c, hc, hst, hlast⟩ :=
      ih htail (fun K hK => hmiss K (List.mem_cons_of_mem _ hK)) hm hpush
    rw [hlen] at hstep ⊢
    exact ⟨c, .head hstep hc, hst, hlast⟩

/-- A runtime whose cells all hold the number `v`. -/
def numberRt (v : UInt32) : Rt := ⟨fun _ => .tm ⟨false, .num, 0, v.toNat⟩, 2, 0, 0, []⟩

theorem numberRt_awaits (v : UInt32) (n : Nat) :
    Awaits (n + 1) (numberRt v) [⟨false, .app, 0, 0⟩] (numberRt v) [] ⟨false, .num, 0, v.toNat⟩ := by
  refine ⟨⟨⟨false, .num, 0, v.toNat⟩, rfl, fun h => ?_, rfl⟩, rfl, fun frm hfrm => ?_⟩
  · cases h
  · cases hfrm

theorem Tests.last {c c1 c2 : SpineAt} (h1 : Tests c c1) (h2 : Tests c c2)
    (hl1 : Match.swiNext c1 = none) (hl2 : Match.swiNext c2 = none) : c1 = c2 := by
  have huniq : Relator.RightUnique fun c c' => Match.swiNext c = some c' := by
    intro a b b' hb hb'
    exact Option.some.inj (hb.symm.trans hb')
  have hstop : ∀ {a b : SpineAt}, Match.swiNext a = none → Tests a b → a = b := by
    intro a b ha hab
    rcases hab.cases_head with heq | ⟨a', hs, -⟩
    · exact heq
    · rw [ha] at hs
      cases hs
  rcases Relation.ReflTransGen.total_of_right_unique huniq h1 h2 with h | h
  · exact hstop hl1 h
  · exact (hstop hl2 h).symm

/-- The default's code would have to find a scrutinee that is gone. -/
theorem keeps_of_compiles (hne : Ns ≠ []) (hf : Faithful Ns v) (h : Compiles Ns v keeps) :
    v ∈ Ns ∨ keeps = true ∨ aotEmitTmpLim < Ns.length := by
  by_contra hc
  rw [not_or, not_or, Nat.not_lt, Bool.not_eq_true] at hc
  obtain ⟨hv, rfl, hn⟩ := hc
  obtain ⟨bs, hs⟩ := plainSwitch_switch Ns Ns (i := 0) rfl (Nat.zero_le _)
  have hdef : aotEmitReuseArg (plainSwitch Ns) (2 * Ns.length + 1) = false := by
    rw [aotEmitReuseArg, Source.read, plainSwitch_default]
    rfl
  obtain ⟨code, tmp', he⟩ := plainSwitch_emits Ns Ns (i := 0) rfl (Nat.zero_le _) false 0
  have hmiss := hf.missed hv
  have harm : armOf (· = v) Ns bs (2 * Ns.length + 1) [⟨false, .num, 0, v.toNat⟩] =
      (2 * Ns.length + 1, [⟨false, .num, 0, v.toNat⟩]) := by
    have hfind : Ns.find? (· = v) = none := by
      rw [List.find?_eq_none]
      intro M hM hMv
      have heq : M = v := by simpa using hMv
      exact hv (heq ▸ hM)
    rw [armOf, firstOf_none hfind]
  cases Ns with
  | nil => exact absurd rfl hne
  | cons N Ks =>
    have hw := numberRt_awaits v (Ks.length + 1)
    obtain ⟨c, -, hc, hres⟩ := h _ _ _ bs hs hdef _ _ _ _ _ _ he (by decide) 1 _ _ _ _ _
      (by rwa [Nat.add_comm]) rfl
    obtain ⟨c', hc', hst, hlast⟩ := plainSwitch_tests (i := 0) (r := 1) rfl hn hmiss he
      (by rwa [Nat.add_comm]) rfl
    have hbr : Brings c [⟨false, .num, 0, v.toNat⟩] (numberRt v) [] ∧ Match.swiNext c = none := by
      rcases hres with ⟨⟨f, t, t', hcode⟩, hbr⟩ | ⟨Ms, Ks', cs, loc, -, -, -, -, -, hcode, hbr⟩
      · rw [harm] at hcode hbr
        exact ⟨hbr, plainSwitch_last hcode⟩
      · refine ⟨hbr, ?_⟩
        obtain ⟨fuel, rt, stack, code⟩ := c
        cases hcode
        cases fuel <;> rfl
    have heq := hc.last hc' hbr.2 hlast
    have hpend := hbr.1.1
    rw [heq, hst] at hpend
    cases hpend

end Hvm.Match
