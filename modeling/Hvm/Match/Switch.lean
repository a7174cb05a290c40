import Hvm.Match.Kinds

/-! Numeric switches in the book: chains of SWI nodes whose EXT is a literal cut to 18 bits,
and the case that `wnf` takes on a number. -/

namespace Hvm.Match

/-- The EXT that `term_new` keeps of a literal. -/
def cut (N : UInt32) : Nat := N.toNat % (extMask + 1)

/-- The book term at `loc` is a chain of SWI nodes for the literals `Ns`, with the branches at
`bs` and the default at `d`. -/
inductive Switch (h : Nat → Cell) : Nat → List UInt32 → List Nat → Nat → Prop where
  | default (d : Nat) : Switch h d [] [] d
  | case {loc d : Nat} {b : Term} {N : UInt32} {Ns : List UInt32} {bs : List Nat} :
    h loc = .tm b → b.tag = .swi → b.ext = cut N → Switch h (b.val + 1) Ns bs d →
    Switch h loc (N :: Ns) (b.val :: bs) d

/-- The node that a literal becomes. -/
def literalPattern (N : UInt32) : Kind × Nat := (.num, cut N)

/-- The cases of a switch under a bind list. -/
def switchCases (ls len : Nat) (Ns : List UInt32) (bs : List Nat) : List Case :=
  (Ns.zip bs).map fun x => ⟨.num, cut x.1, .book ls len x.2⟩

variable {h : Nat → Cell} {loc d : Nat} {Ns : List UInt32} {bs : List Nat} {v : UInt32}

theorem cut_lt (N : UInt32) : cut N < 2 ^ 18 := Nat.mod_lt _ (by decide)

theorem Switch.length (hs : Switch h loc Ns bs d) : Ns.length = bs.length := by
  induction hs with
  | default => rfl
  | case _ _ _ _ ih => rw [List.length_cons, List.length_cons, ih]

/-- A switch of the book is a chain under every bind list. -/
theorem Switch.chain (hs : Switch h loc Ns bs d) (ls len : Nat) :
    ∃ F, Chain h (.book ls len loc) (switchCases ls len Ns bs) (.book ls len d) F := by
  induction hs with
  | default d => exact ⟨∅, .default _⟩
  | @case loc d b N Ns bs hb htag hext _ ih =>
    obtain ⟨F, hF⟩ := ih
    have hlt : b.ext < 2 ^ 18 := hext ▸ cut_lt N
    have htag' : b.tag = Kind.num.tag := htag
    exact ⟨{loc} ∪ F, .book hb htag' hext hlt rfl hF⟩

theorem switchCases_pattern (ls len : Nat) (hl : Ns.length = bs.length) :
    (switchCases ls len Ns bs).map Case.pattern = Ns.map literalPattern := by
  have hf : Ns = (Ns.zip bs).map Prod.fst := (List.map_fst_zip hl.le).symm
  conv_rhs => rw [hf]
  rw [switchCases, List.map_map, List.map_map]
  rfl

/-! ### The interpreter -/

/-- What goes with the first literal that has the property `q`. -/
def firstOf {α : Type} (q : UInt32 → Bool) (Ns : List UInt32) (cs : List α) : Option α :=
  ((Ns.zip cs).find? (q ·.1)).map Prod.snd

theorem firstOf_hit {α : Type} {q : UInt32 → Bool} {N : UInt32} (h : q N = true)
    (Ns : List UInt32) (c : α) (cs : List α) : firstOf q (N :: Ns) (c :: cs) = some c := by
  rw [firstOf, List.zip_cons_cons,
    List.find?_cons_of_pos (p := fun x : UInt32 × α => q x.1) (a := (N, c)) h]
  rfl

theorem firstOf_miss {α : Type} {q : UInt32 → Bool} {N : UInt32} (h : ¬ q N = true)
    (Ns : List UInt32) (c : α) (cs : List α) :
    firstOf q (N :: Ns) (c :: cs) = firstOf q Ns cs := by
  rw [firstOf, List.zip_cons_cons,
    List.find?_cons_of_neg (p := fun x : UInt32 × α => q x.1) (a := (N, c)) h, firstOf]

/-- `wnf` of a chain whose nodes are those of the literals `Ns`, applied to a scrutinee that
reduces to the number `v`, takes the first case with `v` itself as its literal. -/
def Switches (Ns : List UInt32) (v : UInt32) : Prop :=
  ∀ (book : BookTable) (rt : Rt) (stack : List Frame) (app : Nat) (a d : Arm) (t : Term)
    (cs : List Case) (F : Set Nat), cs.map Case.pattern = Ns.map literalPattern →
    Applied rt app a t cs d F →
    ∃ rt1 mat G, Runs book ⟨rt, stack, .enter (termNew false .app 0 app)⟩
        ⟨rt1, .tm mat :: stack, .enter (heapRead rt (app + 1))⟩ ∧
      Stands rt1 (.word mat) mat cs d G ∧ Within (a.cells t) rt rt1 ∧
      ∀ rt2 w H, Runs book ⟨rt1, .tm mat :: stack, .enter (heapRead rt (app + 1))⟩
          ⟨rt2, .tm mat :: stack, .apply w⟩ →
        Stands rt2 (.word mat) mat cs d H → w.tag = .num → w.val = v.toNat →
        Enters book ⟨rt2, .tm mat :: stack, .apply w⟩ stack H
          (outcome rt2 w .num d (firstOf (· = v) Ns cs))

/-- The literals with the value `v` modulo `2 ^ 18` come no earlier than `v` itself. -/
def Faithful (Ns : List UInt32) (v : UInt32) : Prop :=
  Ns.find? (cut · = v.toNat) = Ns.find? (· = v)

instance (Ns : List UInt32) (v : UInt32) : Decidable (Faithful Ns v) :=
  inferInstanceAs (Decidable (_ = _))

theorem find_cut {cs : List Case} (hp : cs.map Case.pattern = Ns.map literalPattern) :
    cs.find? (·.key = v.toNat) = firstOf (cut · = v.toNat) Ns cs := by
  induction Ns generalizing cs with
  | nil =>
    have hn : cs = [] := List.map_eq_nil_iff.mp hp
    subst hn
    rfl
  | cons N Ns ih =>
    cases cs with
    | nil => cases hp
    | cons c cs =>
      obtain ⟨hc, hp⟩ := List.cons.inj hp
      have hk : c.key = cut N := congrArg Prod.snd hc
      by_cases he : cut N = v.toNat
      · rw [List.find?_cons_of_pos (by simp [hk, he]), firstOf_hit (by simp [he])]
      · rw [List.find?_cons_of_neg (by simp [hk, he]), firstOf_miss (by simp [he])]
        exact ih hp

theorem Faithful.cut_eq (hf : Faithful Ns v) (hv : v ∈ Ns) : cut v = v.toNat := by
  have hr : (Ns.find? (· = v)).isSome = true := by
    rw [List.find?_isSome]
    exact ⟨v, hv, by simp⟩
  obtain ⟨N, hN⟩ := Option.isSome_iff_exists.mp hr
  have hv : N = v := by simpa using List.find?_some hN
  have hc : cut N = v.toNat := by simpa using List.find?_some (hf.trans hN)
  rwa [hv] at hc

theorem Faithful.first {α : Type} (hf : Faithful Ns v) (cs : List α) :
    firstOf (cut · = v.toNat) Ns cs = firstOf (· = v) Ns cs := by
  induction Ns generalizing cs with
  | nil => rfl
  | cons N Ns ih =>
    cases cs with
    | nil => rfl
    | cons c cs =>
      by_cases he : cut N = v.toNat
      · have hv : N = v := by
          rw [Faithful, List.find?_cons_of_pos (by simp [he])] at hf
          simpa using List.find?_some hf.symm
        rw [firstOf_hit (by simp [he]), firstOf_hit (by simp [hv])]
      · have hv : N ≠ v := by
          rintro rfl
          exact he (hf.cut_eq (by simp))
        rw [firstOf_miss (by simp [he]), firstOf_miss (by simp [hv])]
        rw [Faithful, List.find?_cons_of_neg (by simp [he]),
          List.find?_cons_of_neg (by simp [hv])] at hf
        exact ih hf cs

theorem Enters.mono {book : BookTable} {m : Machine} {stack : List Frame} {F G : Set Nat}
    {o : Arm × List Term} (h : Enters book m stack F o) (hs : F ⊆ G) :
    Enters book m stack G o := by
  obtain ⟨rt, hd, t, hr, hi, hsp, hw⟩ := h
  exact ⟨rt, hd, t, hr, hi, hsp, hw.mono hs⟩

theorem num_scrutinee (rt : Rt) (H : Set Nat) {w : Term} {key : Nat} (ht : w.tag = .num)
    (hv : w.val = key) : Scrutinee rt w .num key H ∧ fieldCells w = ∅ := by
  have hnone : fieldCells w = ∅ := by
    refine Set.eq_empty_of_forall_notMem ?_
    rintro l ⟨j, hj, -⟩
    rw [ht] at hj
    exact absurd hj (Nat.not_lt_zero j)
  refine ⟨⟨⟨ht, hv⟩, ?_, ?_⟩, hnone⟩
  · rw [hnone]
    exact fun l hl => hl.elim
  · rw [hnone]
    exact fun l hl => hl.elim

theorem switches_of_faithful (hne : Ns ≠ []) (hf : Faithful Ns v) : Switches Ns v := by
  intro book rt stack app a d t cs F hps happ
  have hfind : cs.find? (·.key = v.toNat) = firstOf (· = v) Ns cs :=
    (find_cut hps).trans (hf.first cs)
  cases cs with
  | nil =>
    have hn : Ns = [] := List.map_eq_nil_iff.mp hps.symm
    exact absurd hn hne
  | cons c cs =>
    obtain ⟨rt1, mat, G, hrun, hs, hw, -⟩ := happ.chain.reach book stack happ.below happ.apart
    refine ⟨rt1, mat, G, .cons (happ.enter book stack) hrun, hs, hw, fun rt2 w H _ hs2 ht hv => ?_⟩
    obtain ⟨hsc, hnone⟩ := num_scrutinee rt2 H ht hv
    rw [← hfind]
    refine (hs2.dispatch hsc).mono ?_
    rw [hnone, Set.union_empty]

/-- In the chain of numbered branches, the case of the `j`-th literal has the branch `j`. -/
theorem zip_sample {i : Nat} {x : UInt32 × Case}
    (hx : x ∈ Ns.zip (sampleCases i (Ns.map literalPattern))) :
    ∃ j, i ≤ j ∧ Ns[j - i]? = some x.1 ∧ x.2.branch = .word (termNewNum j) := by
  induction Ns generalizing i with
  | nil => cases hx
  | cons N Ns ih =>
    rw [List.map_cons, sampleCases, List.zip_cons_cons] at hx
    rcases List.mem_cons.mp hx with rfl | hx
    · exact ⟨i, Nat.le_refl i, by rw [Nat.sub_self]; rfl, rfl⟩
    · obtain ⟨j, hij, hj, hb⟩ := ih hx
      refine ⟨j, by omega, ?_, hb⟩
      have he : j - i = j - (i + 1) + 1 := by omega
      rw [he, List.getElem?_cons_succ, hj]

theorem sampleCases_length (i : Nat) (ps : List (Kind × Nat)) :
    (sampleCases i ps).length = ps.length := by
  rw [← List.length_map, sampleCases_pattern]

/-- The first literal with a property, and what goes with it. -/
theorem firstOf_some {q : UInt32 → Bool} {N : UInt32} {cs : List Case}
    (hl : Ns.length = cs.length) (h : Ns.find? q = some N) :
    ∃ c, firstOf q Ns cs = some c ∧ (N, c) ∈ Ns.zip cs := by
  induction Ns generalizing cs with
  | nil => cases h
  | cons M Ns ih =>
    cases cs with
    | nil => cases hl
    | cons c cs =>
      by_cases hq : q M = true
      · rw [List.find?_cons_of_pos hq] at h
        cases h
        exact ⟨c, firstOf_hit hq .., by simp⟩
      · rw [List.find?_cons_of_neg hq] at h
        obtain ⟨c', hc, hm⟩ := ih (Nat.succ.inj hl) h
        exact ⟨c', (firstOf_miss hq ..).trans hc, List.mem_cons_of_mem _ hm⟩

theorem firstOf_none {α : Type} {q : UInt32 → Bool} {cs : List α} (h : Ns.find? q = none) :
    firstOf q Ns cs = none := by
  rw [firstOf, Option.map_eq_none_iff, List.find?_eq_none]
  rw [List.find?_eq_none] at h
  intro x hx
  exact h x.1 (List.of_mem_zip hx).1

theorem faithful_of_switches (hne : Ns ≠ []) (h : Switches Ns v) : Faithful Ns v := by
  by_contra hf
  let ps := Ns.map literalPattern
  have hps : ps ≠ [] := fun he => hne (List.map_eq_nil_iff.mp he)
  let w := termNewNum v.toNat
  obtain ⟨F, happ⟩ := sample_applied hps w
  have hpat : (sampleCases 0 ps).map Case.pattern = Ns.map literalPattern :=
    sampleCases_pattern 0 ps
  have hlen : Ns.length = (sampleCases 0 ps).length := by
    rw [sampleCases_length, List.length_map]
  obtain ⟨rt1, mat, G, -, hs, -, hsw⟩ := h (fun _ => 0) (sample ps w) [] 0 _ _ _ _ F hpat happ
  obtain ⟨hsc, hnone⟩ := num_scrutinee rt1 G (w := w) rfl rfl
  have hright := hsw rt1 w G (.one hsc.enter) hs rfl rfl
  have hcode : Enters (fun _ => 0) ⟨rt1, [.tm mat], .apply w⟩ [] (G ∪ fieldCells w)
      (outcome rt1 w .num (.word (termNewNum ps.length))
        ((sampleCases 0 ps).find? (·.key = v.toNat))) := by
    cases hcs : sampleCases 0 ps with
    | nil =>
      rw [hcs] at hlen
      exact absurd (List.length_eq_zero_iff.mp hlen) hne
    | cons c0 cs =>
      rw [hcs] at hs
      exact hs.dispatch hsc
  rw [find_cut hpat] at hcode
  cases hc : Ns.find? (cut · = v.toNat) with
  | none =>
    rw [firstOf_none hc] at hcode
    cases hr : Ns.find? (· = v) with
    | none => exact hf (hc.trans hr.symm)
    | some M =>
      obtain ⟨c, hcz, hm⟩ := firstOf_some hlen hr
      obtain ⟨j, -, -, hb⟩ := zip_sample hm
      rw [hcz, outcome, hb] at hright
      exact (sample_enters hright hcode).2 _ _ rfl
  | some N =>
    obtain ⟨c, hcz, hm⟩ := firstOf_some hlen hc
    obtain ⟨i, -, hi, hb⟩ := zip_sample hm
    rw [hcz, outcome, hb] at hcode
    obtain ⟨hsame, hdef⟩ := sample_enters hcode hright
    cases hr : Ns.find? (· = v) with
    | none =>
      rw [firstOf_none hr] at hdef
      exact hdef _ _ rfl
    | some M =>
      obtain ⟨c', hcz', hm'⟩ := firstOf_some hlen hr
      obtain ⟨j, -, hj, hb'⟩ := zip_sample hm'
      rw [hcz', outcome, hb'] at hsame
      have hij := hsame j rfl
      subst hij
      rw [hi] at hj
      cases hj
      exact hf (hc.trans hr.symm)

end Hvm.Match
