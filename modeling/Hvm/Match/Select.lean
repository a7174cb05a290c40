import Hvm.Match.Chain

/-! What `wnf` does with a chain applied to a constructor or a number: one case is
instantiated, compared and passed after the other, until the first one whose EXT is the
scrutinee's name or value. -/

namespace Hvm.Match

open Machine

/-- Turns of `wnf`; the end of the heap is not looked at. -/
def Runs (book : BookTable) : Machine → Machine → Prop :=
  Relation.ReflTransGen fun m m' => turn book m = .next m'

variable {book : BookTable} {rt : Rt} {stack : List Frame} {a d : Arm} {t w mat : Term} {c : Case}
  {cs : List Case} {F : Set Nat}

theorem Runs.one {m m' : Machine} (h : turn book m = .next m') : Runs book m m' :=
  Relation.ReflTransGen.single h

theorem Runs.cons {m m' m'' : Machine} (h : turn book m = .next m') (hr : Runs book m' m'') :
    Runs book m m'' :=
  Relation.ReflTransGen.head h hr

/-! ### A case is instantiated -/

theorem aloRead_of_is {ls len loc : Nat} (hi : (Arm.book ls len loc).Is rt.heap t) :
    t.tag = .alo ∧ t.ext = len ∧ aloRead rt t = (if len = 0 then 0 else t.val, ls, loc) := by
  cases hi with
  | closed => exact ⟨rfl, rfl, rfl⟩
  | @under _ _ _ l hpos hlen hl =>
    have hmod : len % (extMask + 1) = len := Nat.mod_eq_of_lt hlen
    have hne : len ≠ 0 := by omega
    refine ⟨rfl, hmod, ?_⟩
    simp only [aloRead, termNew, hmod, if_neg hne, hl]

theorem enterAlo_node {ls len loc : Nat} {b : Term} {k : Kind}
    (hi : (Arm.book ls len loc).Is rt.heap t) (hb : rt.heap loc = .tm b) (hk : b.tag = k.tag) :
    turn book ⟨rt, stack, .enter t⟩ =
      goEnter stack (wnfAloNod rt (if len = 0 then 0 else t.val) ls len b) := by
  have hread : heapRead rt loc = b := by rw [heapRead, hb]; rfl
  obtain ⟨htag, hext, halo⟩ := aloRead_of_is hi
  cases k with
  | ctr => simp only [turn, enter, htag, enterAlo, halo, hext, hread, hk, Kind.tag]
  | num => simp only [turn, enter, htag, enterAlo, halo, hext, hread, hk, Kind.tag]

theorem arity_two {b : Term} {k : Kind} (hk : b.tag = k.tag) : termArity b = 2 := by
  cases k with
  | ctr => rw [termArity, hk]; rfl
  | num => rw [termArity, hk]; rfl

/-- The node made from the book term `b`: its two fields stand for those of `b`. -/
theorem aloNod_node (rt : Rt) (alo : Nat) {ls len : Nat} {b : Term} {k : Kind} (hk : b.tag = k.tag)
    (hlen : len = 0 ∧ ls = 0 ∨ 0 < len ∧ len < 2 ^ 18 ∧ alo < rt.next) :
    ∃ x y n, (wnfAloNod rt alo ls len b).2 = termNew false b.tag b.ext n ∧
      (wnfAloNod rt alo ls len b).1.heap n = .tm x ∧
      (wnfAloNod rt alo ls len b).1.heap (n + 1) = .tm y ∧
      (Arm.book ls len b.val).Is (wnfAloNod rt alo ls len b).1.heap x ∧
      (Arm.book ls len (b.val + 1)).Is (wnfAloNod rt alo ls len b).1.heap y ∧
      rt.next ≤ n ∧ n + 2 = (wnfAloNod rt alo ls len b).1.next ∧ n ≤ rt.next + 1 ∧
      (∀ l ∈ (Arm.book ls len b.val).cells x, l = alo) ∧
      (∀ l ∈ (Arm.book ls len (b.val + 1)).cells y, l = rt.next ∧ l < n) ∧
      Within {l | 0 < len ∧ l = alo} rt (wnfAloNod rt alo ls len b).1 := by
  have hari := arity_two hk
  rcases hlen with ⟨rfl, rfl⟩ | ⟨hpos, hlt, halo⟩
  · refine ⟨termNew false .alo 0 b.val, termNew false .alo 0 (b.val + 1), rt.next, ?_⟩
    have he : wnfAloNod rt alo 0 0 b = termNewNode rt b.tag b.ext
        [termNew false .alo 0 b.val, termNew false .alo 0 (b.val + 1)] := by
      simp [wnfAloNod, hari, wnfAloNodArgs, termNewAloAt, termNewAlo]
    rw [he]
    refine ⟨rfl, ?_, ?_, .closed _, .closed _, Nat.le_refl _, rfl, by omega, ?_, ?_, ?_, ?_⟩
    · simp [termNewNode, termNewAt, termNewAt.go, heapSet]
    · simp [termNewNode, termNewAt, termNewAt.go, heapSet]
    · rintro l ⟨h, -⟩
      omega
    · rintro l ⟨h, -⟩
      omega
    · simp [termNewNode, termNewAt, termNewAt.go, heapSet]
    · intro l hl _
      have h0 : l ≠ rt.next := by omega
      have h1 : l ≠ rt.next + 1 := by omega
      simp [termNewNode, termNewAt, termNewAt.go, heapSet, h0, h1]
  · have hne : len ≠ 0 := by omega
    have hmod : len % (extMask + 1) = len := Nat.mod_eq_of_lt hlt
    refine ⟨termNew false .alo len alo, termNew false .alo len rt.next, rt.next + 1, ?_⟩
    have he : wnfAloNod rt alo ls len b = termNewNode
        (({ rt.set alo (.alo ls b.val) with next := rt.next + 1 }).set rt.next
          (.alo ls (b.val + 1))) b.tag b.ext
        [termNew false .alo len alo, termNew false .alo len rt.next] := by
      simp [wnfAloNod, hari, wnfAloNodArgs, termNewAloAt, termNewAlo, hne]
    rw [he]
    have ha0 : alo ≠ rt.next := by omega
    have ha1 : alo ≠ rt.next + 1 := by omega
    have ha2 : alo ≠ rt.next + 1 + 1 := by omega
    have hn2 : rt.next ≠ rt.next + 1 + 1 := by omega
    refine ⟨rfl, ?_, ?_, .under hpos hlt ?_, .under hpos hlt ?_, by omega, rfl, by omega, ?_, ?_,
      ?_, ?_⟩
    · simp [termNewNode, termNewAt, termNewAt.go, heapSet]
    · simp [termNewNode, termNewAt, termNewAt.go, heapSet]
    · simp [termNewNode, termNewAt, termNewAt.go, heapSet, ha0, ha1, ha2]
    · simp [termNewNode, termNewAt, termNewAt.go, heapSet, hn2]
    · rintro l ⟨-, h⟩
      exact h
    · rintro l ⟨-, h⟩
      have hv : l = rt.next := h
      omega
    · simp [termNewNode, termNewAt, termNewAt.go, heapSet]
      omega
    · intro l hl hF
      have h0 : l ≠ rt.next := by omega
      have h1 : l ≠ rt.next + 1 := by omega
      have h2 : l ≠ rt.next + 1 + 1 := by omega
      have h3 : l ≠ alo := fun h => hF ⟨hpos, h⟩
      simp [termNewNode, termNewAt, termNewAt.go, heapSet, h0, h1, h2, h3]

/-- The word `t` stands for the chain `a` in the heap of `rt`, on cells of its own. -/
structure Stands (rt : Rt) (a : Arm) (t : Term) (cs : List Case) (d : Arm) (F : Set Nat) :
    Prop where
  is : a.Is rt.heap t
  chain : Chain rt.heap a cs d F
  apart : ∀ l ∈ a.cells t, l ∉ F
  below : ∀ l ∈ a.cells t ∪ F, l < rt.next

/-- The first case of a chain behind an ALO becomes a node of the graph. -/
theorem Stands.expand (book : BookTable) (stack : List Frame) {ls len loc : Nat}
    (h : Stands rt (.book ls len loc) t (c :: cs) d F) :
    ∃ rt' mat G, turn book ⟨rt, stack, .enter t⟩ = .next ⟨rt', stack, .enter mat⟩ ∧
      Stands rt' (.word mat) mat (c :: cs) d G ∧ Within {l | 0 < len ∧ l = t.val} rt rt' ∧
      ∀ l ∈ G, l < rt.next → l ∈ (Arm.book ls len loc).cells t ∪ F := by
  obtain ⟨hi, hc, hap, hbel⟩ := h
  cases hc with
  | @book _ _ _ b _ _ _ F hloc htag hext hlt hb hrest =>
    have hlen : len = 0 ∧ ls = 0 ∨ 0 < len ∧ len < 2 ^ 18 ∧
        (if len = 0 then 0 else t.val) < rt.next := by
      cases hi with
      | closed => exact .inl ⟨rfl, rfl⟩
      | @under _ _ _ l hpos hl18 hl =>
        have hne : len ≠ 0 := by omega
        rw [if_neg hne]
        exact .inr ⟨hpos, hl18, hbel _ (.inl ⟨hpos, rfl⟩)⟩
    obtain ⟨x, y, n, hres, hx, hy, hxi, hyi, hn, hnext, hn1, hxc, hyc, hw⟩ :=
      aloNod_node rt (if len = 0 then 0 else t.val) htag hlen
    set r := wnfAloNod rt (if len = 0 then 0 else t.val) ls len b with hr
    have hwt : Within {l | 0 < len ∧ l = t.val} rt r.1 := by
      refine hw.mono ?_
      rintro l ⟨hpos, rfl⟩
      exact ⟨hpos, if_neg (by omega)⟩
    have hF : ∀ l ∈ F, r.1.heap l = rt.heap l := by
      intro l hl
      refine hwt.2 l (hbel l (.inr (.inr hl))) ?_
      rintro ⟨hpos, rfl⟩
      exact hap _ ⟨hpos, rfl⟩ (.inr hl)
    have hFn : ∀ l ∈ F, l < rt.next := fun l hl => hbel l (.inr (.inr hl))
    have hxa : ∀ l ∈ (Arm.book ls len b.val).cells x, l ∈ (Arm.book ls len loc).cells t := by
      rintro l hl
      have hpos : 0 < len := hl.1
      have hv := hxc l hl
      rw [if_neg (by omega)] at hv
      exact ⟨hpos, hv⟩
    have hchain := hrest.congr hF
    have hmod : b.ext % (extMask + 1) = b.ext := Nat.mod_eq_of_lt hlt
    have hcells : ∀ l ∈ c.branch.cells x ∪ (Arm.book ls len (b.val + 1)).cells y ∪ F,
        l < n ∧ (l < rt.next → l ∈ (Arm.book ls len loc).cells t ∪ ({loc} ∪ F)) := by
      rintro l ((hl | hl) | hl)
      · rw [hb] at hl
        have ht := hxa l hl
        have hlt := hbel l (.inl ht)
        exact ⟨by omega, fun _ => .inl ht⟩
      · obtain ⟨hv, hvn⟩ := hyc l hl
        exact ⟨hvn, fun _ => by omega⟩
      · have hlt := hFn l hl
        exact ⟨by omega, fun _ => .inr (.inr hl)⟩
    have hnode : Chain r.1.heap (.word (termNew false b.tag b.ext n)) (c :: cs) d
        ({n, n + 1} ∪ (c.branch.cells x ∪ (Arm.book ls len (b.val + 1)).cells y ∪ F)) := by
      refine .node htag (hmod.trans hext) hx (hb ▸ hxi) hy hyi (hrest.congr hF) ?_ ?_
      · intro l hl
        have hln := (hcells l hl).1
        have hval : (termNew false b.tag b.ext n).val = n := rfl
        rw [hval]
        omega
      · intro l hl hlF
        have hv := (hyc l hl).1
        have hlt := hFn l hlF
        omega
    have hstep : turn book ⟨rt, stack, .enter t⟩ =
        .next ⟨r.1, stack, .enter (termNew false b.tag b.ext n)⟩ := by
      rw [enterAlo_node hi hloc htag, goEnter, hres]
    have hbel' : ∀ l ∈ {n, n + 1} ∪
        (c.branch.cells x ∪ (Arm.book ls len (b.val + 1)).cells y ∪ F), l < r.1.next := by
      rintro l ((rfl | rfl) | hl)
      · omega
      · omega
      · have hln := (hcells l hl).1
        omega
    refine ⟨r.1, _, _, hstep, ⟨.word _, hnode, fun l hl => hl.elim, ?_⟩, hwt, ?_⟩
    · rintro l (hl | hl)
      · exact hl.elim
      · exact hbel' l hl
    · rintro l ((hl | hl) | hl) hlt
      · have hv : l = n := hl
        omega
      · have hv : l = n + 1 := hl
        omega
      · exact (hcells l hl).2 hlt

theorem Stands.enter_word (h : Stands rt (.word mat) mat (c :: cs) d F) :
    turn book ⟨rt, stack, .enter mat⟩ = .next ⟨rt, stack, .apply mat⟩ := by
  have hc := h.chain
  cases hc with
  | node htag =>
    cases hk : c.kind with
    | ctr => simp only [turn, enter, htag, hk, Kind.tag]
    | num => simp only [turn, enter, htag, hk, Kind.tag]

theorem Stands.apply_word (h : Stands rt (.word mat) mat (c :: cs) d F) {app : Nat} :
    turn book ⟨rt, .tm (termNew false .app 0 app) :: stack, .apply mat⟩ =
      .next ⟨rt, .tm mat :: stack, .enter (heapRead rt (app + 1))⟩ := by
  have hc := h.chain
  cases hc with
  | node htag =>
    cases hk : c.kind with
    | ctr => simp only [turn, applyFrame, termNew, applyApp, htag, hk, Kind.tag]
    | num => simp only [turn, applyFrame, termNew, applyApp, htag, hk, Kind.tag]

/-- A chain in function position is brought to its first node, which waits for the argument. -/
theorem Stands.reach (book : BookTable) (stack : List Frame) (h : Stands rt a t (c :: cs) d F)
    {app : Nat} (happ : app + 1 < rt.next)
    (hap : app + 1 ∉ a.cells t) :
    ∃ rt' mat G, Runs book ⟨rt, .tm (termNew false .app 0 app) :: stack, .enter t⟩
        ⟨rt', .tm mat :: stack, .enter (heapRead rt (app + 1))⟩ ∧
      Stands rt' (.word mat) mat (c :: cs) d G ∧ Within (a.cells t) rt rt' ∧
      ∀ l ∈ G, l < rt.next → l ∈ a.cells t ∪ F := by
  cases a with
  | word u =>
    cases h.is
    exact ⟨rt, t, F, .cons h.enter_word (.one h.apply_word), h, .refl _ _, fun l hl _ => .inr hl⟩
  | book ls len loc =>
    obtain ⟨rt', mat, G, hstep, hs, hw, hG⟩ := h.expand book (.tm (termNew false .app 0 app) :: stack)
    have hkeep : heapRead rt' (app + 1) = heapRead rt (app + 1) := by
      rw [heapRead, hw.2 _ happ hap]
      rfl
    rw [← hkeep]
    exact ⟨rt', mat, G, .cons hstep (.cons hs.enter_word (.one hs.apply_word)), hs, hw, hG⟩

/-! ### A case is hit or passed -/

/-- The constructor has the name `key`, or the number is `key`. -/
def Holds (w : Term) (key : Nat) : Kind → Prop
  | .ctr => (∃ n, w.tag = .ctr n) ∧ w.ext = key
  | .num => w.tag = .num ∧ w.val = key

def fieldCells (w : Term) : Set Nat := {l | ∃ j < tagArity w.tag, l = w.val + j}

/-- What the branch of a hit case is applied to. -/
def given (rt : Rt) (w : Term) : Kind → List Term
  | .ctr => ctrFields rt w
  | .num => []

theorem termNewAppAt_within (rt : Rt) (loc : Nat) (f x : Term) :
    Within {loc, loc + 1} rt (termNewAppAt rt loc f x).1 := by
  refine ⟨Nat.le_refl _, fun l _ hl => ?_⟩
  exact termNewAppAt_of_ne _ _ _ (fun h => hl (.inl h)) fun h => hl (.inr h)

theorem wnfAppMatCtrRest_keeps (ctr apps n : Nat) (rt : Rt) (res : Term) {i : Nat}
    (hi : 2 ≤ i) :
    (wnfAppMatCtrRest rt ctr apps res i n).1.next = rt.next ∧
      ∀ l < apps + 2 * (i - 2), (wnfAppMatCtrRest rt ctr apps res i n).1.heap l = rt.heap l := by
  induction n generalizing rt res i with
  | zero => exact ⟨rfl, fun _ _ => rfl⟩
  | succ n ih =>
    let app := termNewAppAt rt (apps + 2 * (i - 2)) res (heapRead rt (ctr + i))
    obtain ⟨hnext, hk⟩ := ih app.1 app.2 (Nat.le_succ_of_le hi)
    refine ⟨hnext, fun l hl => ?_⟩
    rw [wnfAppMatCtrRest, hk l (by omega)]
    exact termNewAppAt_of_ne _ _ _ (by omega) (by omega)

theorem wnfAppMatCtrHit_within (rt : Rt) (mat ctr ari : Nat) :
    Within {l | l = mat ∨ l = mat + 1 ∨ 2 ≤ ari ∧ (l = ctr ∨ l = ctr + 1)} rt
      (wnfAppMatCtrHit rt mat ctr ari).1 := by
  have h0 := termNewAppAt_within rt mat (heapRead rt mat) (heapRead rt ctr)
  match ari with
  | 0 => exact .refl _ _
  | 1 =>
    refine h0.mono ?_
    rintro l (hl | hl)
    · exact .inl hl
    · exact .inr (.inl hl)
  | ari + 2 =>
    let app0 := termNewAppAt rt mat (heapRead rt mat) (heapRead rt ctr)
    let app1 := termNewAppAt app0.1 ctr app0.2 (heapRead app0.1 (ctr + 1))
    have h1 : Within {ctr, ctr + 1} app0.1 app1.1 := termNewAppAt_within _ _ _ _
    have h01 : Within {l | l = mat ∨ l = mat + 1 ∨ 2 ≤ ari + 2 ∧ (l = ctr ∨ l = ctr + 1)}
        rt app1.1 := by
      refine (h0.mono ?_).trans h1 ?_
      · rintro l (hl | hl)
        · exact .inl hl
        · exact .inr (.inl hl)
      · rintro l (hl | hl) _
        · exact .inr (.inr ⟨by omega, .inl hl⟩)
        · exact .inr (.inr ⟨by omega, .inr hl⟩)
    cases ari with
    | zero => exact h01
    | succ ari =>
      let rt2 : Rt := { app1.1 with next := app1.1.next + 2 * (ari + 1) }
      have hhit : wnfAppMatCtrHit rt mat ctr (ari + 1 + 2) =
          wnfAppMatCtrRest rt2 ctr rt.next app1.2 2 (ari + 1) := by
        simp [wnfAppMatCtrHit, heapAlloc]
        rfl
      obtain ⟨hnext, hk⟩ := wnfAppMatCtrRest_keeps ctr rt.next (ari + 1) rt2 app1.2 (Nat.le_refl 2)
      rw [hhit]
      constructor
      · rw [hnext]
        exact Nat.le_add_right _ _
      · intro l hl hF
        rw [hk l (by omega)]
        exact h01.2 l hl hF

/-- A run from `m` enters the arm, applied to the arguments, over `stack`; of the cells there
were, only those of `F` have changed. -/
def Enters (book : BookTable) (m : Machine) (stack : List Frame) (F : Set Nat)
    (o : Arm × List Term) : Prop :=
  ∃ rt hd t, Runs book m ⟨rt, stack, .enter t⟩ ∧ o.1.Is rt.heap hd ∧
    AppSpine rt.heap hd o.2 t ∧ Within F m.rt rt

/-- The scrutinee `w`, a constructor or a number, on cells of its own. -/
structure Scrutinee (rt : Rt) (w : Term) (k : Kind) (key : Nat) (F : Set Nat) : Prop where
  holds : Holds w key k
  apart : ∀ l ∈ fieldCells w, l ∉ F
  below : ∀ l ∈ fieldCells w, l < rt.next

variable {k : Kind} {key : Nat}

theorem Scrutinee.enter (h : Scrutinee rt w k key F) :
    turn book ⟨rt, stack, .enter w⟩ = .next ⟨rt, stack, .apply w⟩ := by
  have hw := h.holds
  cases k with
  | ctr =>
    obtain ⟨n, hn⟩ := hw.1
    simp only [turn, Hvm.enter, hn]
  | num => simp only [turn, Hvm.enter, hw.1]

/-- The rule of a MAT or SWI frame on a constructor or a number. -/
def rule (rt : Rt) (mat w : Term) : Kind → Rt × Term
  | .ctr => wnfAppMatCtr rt mat w
  | .num => wnfAppMatNum rt mat w

theorem Scrutinee.apply (h : Scrutinee rt w k key F) (hm : mat.tag = .mat ∨ mat.tag = .swi) :
    turn book ⟨rt, .tm mat :: stack, .apply w⟩ = goEnter stack (rule rt mat w k) := by
  have hw := h.holds
  cases k with
  | ctr =>
    obtain ⟨n, hn⟩ := hw.1
    rcases hm with hm | hm <;> simp only [turn, applyFrame, hm, applyMat, hn, rule]
  | num => rcases hm with hm | hm <;> simp only [turn, applyFrame, hm, applyMat, hw.1, rule]

theorem rule_hit (h : Scrutinee rt w k key F) (he : mat.ext = key) (hm : mat.val + 1 < rt.next)
    (h0 : mat.val ∈ F) (h1 : mat.val + 1 ∈ F) :
    AppSpine (rule rt mat w k).1.heap (heapRead rt mat.val) (given rt w k) (rule rt mat w k).2 ∧
      Within ({mat.val, mat.val + 1} ∪ fieldCells w) rt (rule rt mat w k).1 := by
  have hw := h.holds
  cases k with
  | ctr =>
    have heq : mat.ext = w.ext := he.trans hw.2.symm
    have hrule : rule rt mat w .ctr = wnfAppMatCtrHit rt.tick mat.val w.val (tagArity w.tag) := by
      simp only [rule, wnfAppMatCtr, if_pos heq]
    have hfields : fieldsFrom rt.tick w.val 0 (tagArity w.tag) = ctrFields rt w :=
      fieldsFrom_congr _ _ fun _ _ _ => rfl
    rw [hrule]
    constructor
    · by_cases hz : tagArity w.tag = 0
      · have hnil : given rt w .ctr = [] := by rw [given, ctrFields, hz, fieldsFrom]
        rw [hz, hnil]
        exact .head
      · have hcells : ∀ j < tagArity w.tag, w.val + j ∉ F ∧ w.val + j < rt.next :=
          fun j hj => ⟨h.apart _ ⟨j, hj, rfl⟩, h.below _ ⟨j, hj, rfl⟩⟩
        have hlast := (hcells (tagArity w.tag - 1) (by omega)).2
        have hdis : mat.val + 1 < w.val ∨ w.val + tagArity w.tag ≤ mat.val := by
          by_contra hc
          by_cases hle : w.val ≤ mat.val
          · have hj := (hcells (mat.val - w.val) (by omega)).1
            rw [Nat.add_sub_cancel' hle] at hj
            exact hj h0
          · have hj := (hcells 0 (by omega)).1
            have hv : w.val + 0 = mat.val + 1 := by omega
            rw [hv] at hj
            exact hj h1
        have hbelow : w.val + tagArity w.tag ≤ rt.next := by omega
        have hsp := @wnfAppMatCtrHit_appSpine rt.tick mat.val w.val _ hm hbelow hdis
        rw [hfields] at hsp
        exact hsp
    · refine (wnfAppMatCtrHit_within rt.tick mat.val w.val (tagArity w.tag)).mono ?_
      rintro l (hl | hl | ⟨h2, hl | hl⟩)
      · exact .inl (.inl hl)
      · exact .inl (.inr hl)
      · exact .inr ⟨0, by omega, hl⟩
      · exact .inr ⟨1, by omega, hl⟩
  | num =>
    have heq : mat.ext = w.val := he.trans hw.2.symm
    have hrule : rule rt mat w .num = (rt.tick, heapRead rt mat.val) := by
      simp only [rule, wnfAppMatNum, if_pos heq]
      rfl
    rw [hrule]
    exact ⟨.head, .refl _ _⟩

theorem rule_miss (h : Scrutinee rt w k key F) (he : mat.ext ≠ key) :
    rule rt mat w k = termNewAppAt rt.tick mat.val (heapRead rt (mat.val + 1)) w := by
  have hw := h.holds
  cases k with
  | ctr =>
    have hne : ¬ mat.ext = w.ext := fun h => he (h.trans hw.2)
    simp only [rule, wnfAppMatCtr, if_neg hne]
    rfl
  | num =>
    have hne : ¬ mat.ext = w.val := fun h => he (h.trans hw.2)
    simp only [rule, wnfAppMatNum, if_neg hne]
    rfl

/-- The arm entered and its arguments, when the case `o` is the one taken. -/
def outcome (rt : Rt) (w : Term) (k : Kind) (d : Arm) : Option Case → Arm × List Term
  | some c => (c.branch, given rt w k)
  | none => (d, [w])

theorem Chain.tail_of_nil (h : Chain rt.heap a [] d F) : a = d := by
  cases h with
  | default d => rfl

/-- The first node of a chain and what its two cells hold. -/
structure Node (rt : Rt) (mat : Term) (c : Case) (rest : Arm) (hit mis : Term) (cs : List Case)
    (d : Arm) (F G : Set Nat) : Prop where
  tag : mat.tag = .mat ∨ mat.tag = .swi
  ext : mat.ext = c.key
  readHit : heapRead rt mat.val = hit
  isHit : c.branch.Is rt.heap hit
  readMis : heapRead rt (mat.val + 1) = mis
  tail : Stands rt rest mis cs d G
  own : mat.val ∈ F ∧ mat.val + 1 ∈ F
  sub : ∀ l ∈ c.branch.cells hit ∪ rest.cells mis ∪ G, l ∈ F
  apart : ∀ l ∈ c.branch.cells hit ∪ rest.cells mis ∪ G, l ≠ mat.val ∧ l ≠ mat.val + 1

theorem Stands.node (h : Stands rt (.word mat) mat (c :: cs) d F) :
    ∃ rest hit mis G, Node rt mat c rest hit mis cs d F G := by
  obtain ⟨-, hc, -, hbel⟩ := h
  cases hc with
  | @node _ hit mis _ rest _ _ G htag hext hhit hb hmis hr hc hne hap =>
    have hsub : ∀ l ∈ c.branch.cells hit ∪ rest.cells mis ∪ G,
        l ∈ ({mat.val, mat.val + 1} : Set Nat) ∪ (c.branch.cells hit ∪ rest.cells mis ∪ G) :=
      fun l hl => .inr hl
    have hmat : mat.tag = .mat ∨ mat.tag = .swi := by
      cases hk : c.kind with
      | ctr => exact .inl (by rw [htag, hk]; rfl)
      | num => exact .inr (by rw [htag, hk]; rfl)
    refine ⟨rest, hit, mis, G, hmat, hext, ?_, hb, ?_, ⟨hr, hc, hap, fun l hl => ?_⟩,
      ⟨.inl (.inl rfl), .inl (.inr rfl)⟩, hsub, hne⟩
    · rw [heapRead, hhit]
      rfl
    · rw [heapRead, hmis]
      rfl
    · refine hbel l (.inr (hsub l ?_))
      rcases hl with hl | hl
      · exact .inl (.inr hl)
      · exact .inr hl

theorem Stands.hit (h : Stands rt (.word mat) mat (c :: cs) d F) (hw : Scrutinee rt w k key F)
    (he : c.key = key) :
    Enters book ⟨rt, .tm mat :: stack, .apply w⟩ stack (F ∪ fieldCells w)
      (c.branch, given rt w k) := by
  obtain ⟨rest, hit, mis, G, hn⟩ := h.node
  have hm : mat.val + 1 < rt.next := h.below _ (.inr hn.own.2)
  obtain ⟨hsp, hwi⟩ := rule_hit hw (hn.ext.trans he) hm hn.own.1 hn.own.2
  rw [hn.readHit] at hsp
  have hkeep : ∀ l ∈ c.branch.cells hit, (rule rt mat w k).1.heap l = rt.heap l := by
    intro l hl
    have hlF := hn.sub l (.inl (.inl hl))
    refine hwi.2 l (h.below l (.inr hlF)) ?_
    rintro ((h0 | h1) | hf)
    · exact (hn.apart l (.inl (.inl hl))).1 h0
    · exact (hn.apart l (.inl (.inl hl))).2 h1
    · exact hw.apart l hf hlF
  refine ⟨_, hit, _, .one (hw.apply hn.tag), hn.isHit.congr hkeep, hsp, hwi.mono ?_⟩
  rintro l ((h0 | h1) | hf)
  · exact .inl (h0 ▸ hn.own.1)
  · exact .inl (h1 ▸ hn.own.2)
  · exact .inr hf

/-- The heap after a missed case: its node is an APP of the rest of the chain. -/
theorem Node.pass {rest : Arm} {hit mis : Term} {G : Set Nat}
    (hn : Node rt mat c rest hit mis cs d F G) :
    ∃ rt', termNewAppAt rt.tick mat.val mis w = (rt', termNew false .app 0 mat.val) ∧
      rt'.heap mat.val = .tm mis ∧ rt'.heap (mat.val + 1) = .tm w ∧
      Within {mat.val, mat.val + 1} rt rt' ∧ rt'.next = rt.next ∧
      Stands rt' rest mis cs d G := by
  have hw := termNewAppAt_within rt.tick mat.val mis w
  have hkeep : ∀ l ∈ rest.cells mis ∪ G,
      (termNewAppAt rt.tick mat.val mis w).1.heap l = rt.heap l := by
    intro l hl
    have hmem : l ∈ c.branch.cells hit ∪ rest.cells mis ∪ G := by
      rcases hl with hl | hl
      · exact .inl (.inr hl)
      · exact .inr hl
    have hne := hn.apart l hmem
    exact termNewAppAt_of_ne _ _ _ hne.1 hne.2
  refine ⟨_, rfl, termNewAppAt_fn _ _ _ _, termNewAppAt_arg _ _ _ _, hw, rfl, ?_⟩
  exact ⟨hn.tail.is.congr fun l hl => hkeep l (.inl hl),
    hn.tail.chain.congr fun l hl => hkeep l (.inr hl), hn.tail.apart, hn.tail.below⟩

theorem Enters.prepend {m m' : Machine} {G : Set Nat} {o : Arm × List Term}
    (h : Enters book m' stack G o) (hr : Runs book m m') (hw : Within F m.rt m'.rt)
    (hs : ∀ l ∈ G, l < m.rt.next → l ∈ F) : Enters book m stack F o := by
  obtain ⟨rt', hd, t, hrun, hi, hsp, hwi⟩ := h
  exact ⟨rt', hd, t, hr.trans hrun, hi, hsp, hw.trans hwi hs⟩

theorem outcome_congr {rt' : Rt} (o : Option Case)
    (hk : ∀ l ∈ fieldCells w, rt'.heap l = rt.heap l) :
    outcome rt' w k d o = outcome rt w k d o := by
  have hf : ctrFields rt' w = ctrFields rt w :=
    fieldsFrom_congr _ _ fun j _ hj => hk _ ⟨j, by omega, rfl⟩
  cases o with
  | none => rfl
  | some c =>
    cases k with
    | ctr => simp only [outcome, given, hf]
    | num => rfl

/-- A missed case that is the last one: the default is applied to the scrutinee. -/
theorem Stands.miss_last (h : Stands rt (.word mat) mat [c] d F) (hw : Scrutinee rt w k key F)
    (he : c.key ≠ key) :
    Enters book ⟨rt, .tm mat :: stack, .apply w⟩ stack (F ∪ fieldCells w) (d, [w]) := by
  obtain ⟨rest, hit, mis, G, hn⟩ := h.node
  have hmiss := rule_miss hw fun hk => he (hn.ext.symm.trans hk)
  obtain ⟨rt', hrt', hf, ha, hwi, hnext, hs⟩ := hn.pass (w := w)
  rw [hn.readMis, hrt'] at hmiss
  have hd := hs.chain.tail_of_nil
  subst hd
  have hstep : turn book ⟨rt, .tm mat :: stack, .apply w⟩ = _ := hw.apply hn.tag
  rw [hmiss] at hstep
  refine ⟨rt', mis, _, .one hstep, hs.is, .single hf ha, hwi.mono ?_⟩
  rintro l (h0 | h1)
  · exact .inl (h0 ▸ hn.own.1)
  · exact .inl (h1 ▸ hn.own.2)

/-- A missed case with another one behind it: the next node has the scrutinee to look at. -/
theorem Stands.miss_next (book : BookTable) (stack : List Frame) {c2 : Case}
    (h : Stands rt (.word mat) mat (c :: c2 :: cs) d F)
    (hw : Scrutinee rt w k key F) (he : c.key ≠ key) :
    ∃ rt' mat' G, Runs book ⟨rt, .tm mat :: stack, .apply w⟩ ⟨rt', .tm mat' :: stack, .apply w⟩ ∧
      Stands rt' (.word mat') mat' (c2 :: cs) d G ∧ Scrutinee rt' w k key G ∧ Within F rt rt' ∧
      ∀ l ∈ G, l < rt.next → l ∈ F := by
  obtain ⟨rest, hit, mis, G, hn⟩ := h.node
  have hmiss := rule_miss hw fun hk => he (hn.ext.symm.trans hk)
  obtain ⟨rt', hrt', hf, ha, hwi, hnext, hs⟩ := hn.pass (w := w)
  rw [hn.readMis, hrt'] at hmiss
  have hstep : turn book ⟨rt, .tm mat :: stack, .apply w⟩ = _ := hw.apply hn.tag
  rw [hmiss] at hstep
  have hfun : heapRead rt' mat.val = mis := by
    rw [heapRead, hf]
    rfl
  have harg : heapRead rt' (mat.val + 1) = w := by
    rw [heapRead, ha]
    rfl
  have hm : mat.val + 1 < rt'.next := hnext ▸ h.below _ (.inr hn.own.2)
  have hap : mat.val + 1 ∉ rest.cells mis := fun hl => (hn.apart _ (.inl (.inr hl))).2 rfl
  have hsub : ∀ l ∈ rest.cells mis ∪ G, l ∈ F := by
    rintro l (hl | hl)
    · exact hn.sub l (.inl (.inr hl))
    · exact hn.sub l (.inr hl)
  obtain ⟨rt2, mat2, G2, hrun, hs2, hw2, hG2⟩ := hs.reach book stack hm hap
  rw [harg] at hrun
  have hapart : ∀ l ∈ fieldCells w, l ∉ G2 := by
    intro l hl hg
    have hlt := hw.below l hl
    exact hw.apart l hl (hsub l (hG2 l hg (hnext ▸ hlt)))
  have hsc : Scrutinee rt2 w k key G2 := by
    refine ⟨hw.holds, hapart, fun l hl => ?_⟩
    have hlt := hw.below l hl
    have hle := hw2.1
    omega
  have happ : turn book ⟨rt', stack, .enter (termNew false .app 0 mat.val)⟩ =
      .next ⟨rt', .tm (termNew false .app 0 mat.val) :: stack, .enter mis⟩ := by
    rw [← hfun]
    rfl
  refine ⟨rt2, mat2, G2, ?_, hs2, hsc, ?_, fun l hg hlt => hsub l (hG2 l hg (hnext ▸ hlt))⟩
  · exact .cons hstep (.cons happ (hrun.trans (Runs.one hsc.enter)))
  · refine (hwi.mono ?_).trans hw2 fun l hl _ => hn.sub l (.inl (.inr hl))
    rintro l (h0 | h1)
    · exact h0 ▸ hn.own.1
    · exact h1 ▸ hn.own.2

/-- A chain takes its first case with the scrutinee's key, whatever the kind of the case. -/
theorem Stands.dispatch (h : Stands rt (.word mat) mat (c :: cs) d F)
    (hw : Scrutinee rt w k key F) :
    Enters book ⟨rt, .tm mat :: stack, .apply w⟩ stack (F ∪ fieldCells w)
      (outcome rt w k d ((c :: cs).find? (·.key = key))) := by
  induction cs generalizing rt mat c F with
  | nil =>
    by_cases he : c.key = key
    · rw [List.find?_cons_of_pos (by simpa using he)]
      exact h.hit hw he
    · rw [List.find?_cons_of_neg (by simpa using he)]
      exact h.miss_last hw he
  | cons c2 cs ih =>
    by_cases he : c.key = key
    · rw [List.find?_cons_of_pos (by simpa using he)]
      exact h.hit hw he
    · rw [List.find?_cons_of_neg (by simpa using he)]
      obtain ⟨rt', mat', G, hrun, hs, hsc, hwi, hG⟩ :=
        h.miss_next book stack hw he
      have hkeep : ∀ l ∈ fieldCells w, rt'.heap l = rt.heap l :=
        fun l hl => hwi.2 l (hw.below l hl) (hw.apart l hl)
      have hih := ih hs hsc
      rw [outcome_congr _ hkeep] at hih
      refine hih.prepend hrun (hwi.mono fun l hl => .inl hl) ?_
      rintro l (hl | hl) hlt
      · exact .inl (hG l hl hlt)
      · exact .inr hl

end Hvm.Match
