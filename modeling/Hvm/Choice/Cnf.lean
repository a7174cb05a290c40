import Hvm.Choice.Collapsed
import Hvm.Choice.Run

/-! `cnf_at` on first-order terms: a superposed field is lifted over its node, and every step
keeps the value of the term under collapse. -/

namespace Hvm.Choice

open Oracle

variable {K K' : Statics} {rt : Rt} {t : Term} {d D : Den} {m r R : ℚ} {σ τ : Toks} {l lab : Nat}
  {fs : List Field} {s : Shape}

/-! ### Lifting -/

/-- A node is made in the cells from `l` on. -/
theorem fillNode_yields (tag : Tag) (ext : Nat) (r : ℚ) (as : List Arg)
    (h : Has K rt (.holes l as.length :: as.map Arg.res) τ) (hs : Shape.ofTag tag ext = some s)
    (he : ext ≤ extMask) (hlen : as.length = s.arity) (hr : ∀ a ∈ as, a.rank < r) :
    Yields K τ (s.den (as.map Arg.den)) r (termNewAt rt l tag ext (as.map Arg.term)) := by
  obtain ⟨σs, hS, hI⟩ := LinearHeap.Ledger.list_iff.mp h
  obtain ⟨σ, σs, hσ, hargs, rfl⟩ := List.forall₂_cons_left_iff.mp hS
  obtain rfl : σ = holeToks l as.length := hσ
  rw [List.sum_cons, add_assoc] at hI
  have hw := newWord as (K := K) (l := l) hs he hlen hr
  refine LinearHeap.Ledger.list_iff.mpr ⟨[_], .cons hw .nil, ?_⟩
  rw [List.sum_singleton, termNewAt]
  exact Linear.storeAll as σs hI hargs

/-- Both sides of the cloned terms are in hand. -/
theorem clones_has {as : List Arg} (hlab : lab ≤ extMask) (hr : ∀ a ∈ as, a.rank < r)
    (h : Has K rt (as.map Arg.res) τ) : ∃ (rt' : Rt) (bs cs : List Arg),
      Cnf.split.clones rt lab (as.map Arg.term) = (rt', bs.map Arg.term, cs.map Arg.term) ∧
        bs.map Arg.den = (as.map Arg.den).map (side lab false) ∧
        cs.map Arg.den = (as.map Arg.den).map (side lab true) ∧
        (∀ x ∈ bs ++ cs, x.rank = r) ∧ Has K rt' (bs.map Arg.res ++ cs.map Arg.res) τ := by
  induction as generalizing rt τ with
  | nil => exact ⟨rt, [], [], rfl, rfl, rfl, fun x hx => (by cases hx), h⟩
  | cons a as ih =>
    have hswap : (as.map Arg.res ++ [a.res]).Perm ((a :: as).map Arg.res) :=
      List.perm_append_singleton _ _
    obtain ⟨σs, hS, h⟩ := LinearHeap.Ledger.release (LinearHeap.Ledger.perm hswap h)
    have h := Own.clone h lab r 0 rfl hlab (hr a List.mem_cons_self)
    have h : Has K (termClone rt lab a.term).1
        [.word (termClone rt lab a.term).2.k0 (side lab false a.den) r,
          .word (termClone rt lab a.term).2.k1 (side lab true a.den) r] (σs.sum + τ) :=
      h.keep [1, 2] (by decide) rfl
    have h := LinearHeap.Ledger.restore hS h
    have h := LinearHeap.Ledger.perm List.perm_append_comm h
    obtain ⟨σs', hS', h⟩ := LinearHeap.Ledger.release h
    obtain ⟨rt', bs, cs, heq, hbs, hcs, hrank, h⟩ := ih (fun x hx => hr x (List.mem_cons_of_mem _ hx)) h
    have h := LinearHeap.Ledger.restore hS' h
    refine ⟨rt', ⟨(termClone rt lab a.term).2.k0, side lab false a.den, r⟩ :: bs,
      ⟨(termClone rt lab a.term).2.k1, side lab true a.den, r⟩ :: cs, ?_, ?_, ?_, ?_, ?_⟩
    · rw [List.map_cons, Cnf.split.clones]
      dsimp only
      rw [heq]
      rfl
    · rw [List.map_cons, hbs]
      rfl
    · rw [List.map_cons, hcs]
      rfl
    · intro x hx
      simp only [List.cons_append, List.mem_cons, List.mem_append] at hx
      rcases hx with rfl | hx | rfl | hx
      · rfl
      · exact hrank x (List.mem_append.mpr (.inl hx))
      · rfl
      · exact hrank x (List.mem_append.mpr (.inr hx))
    · refine LinearHeap.Ledger.perm ?_ h
      refine Multiset.coe_eq_coe.mp ?_
      simp only [List.map_cons, ← Multiset.coe_add, ← Multiset.cons_coe, ← Multiset.singleton_add,
        Multiset.coe_nil, Arg.res]
      abel

theorem split_eq (rt : Rt) (lab : Nat) (a b x : Term) (as bs : List Term) {rt₁ rt₂ : Rt}
    {as₀ as₁ bs₀ bs₁ : List Term} (has : Cnf.split.clones rt lab as = (rt₁, as₀, as₁))
    (hbs : Cnf.split.clones rt₁ lab bs = (rt₂, bs₀, bs₁)) :
    Cnf.split rt lab a b as.length (as ++ x :: bs) = (rt₂, as₀ ++ a :: bs₀, as₁ ++ b :: bs₁) := by
  induction as generalizing rt as₀ as₁ with
  | nil =>
    rw [Cnf.split.clones] at has
    obtain ⟨rfl, rfl, rfl⟩ := by simpa using has
    rw [List.nil_append, List.length_nil, Cnf.split]
    dsimp only
    rw [hbs]
    rfl
  | cons y as ih =>
    rw [Cnf.split.clones] at has
    dsimp only at has
    cases hc : Cnf.split.clones (termClone rt lab y).1 lab as with
    | mk rt₀ r =>
      obtain ⟨r₀, r₁⟩ := r
      rw [hc] at has
      obtain ⟨rfl, rfl, rfl⟩ := by simpa using has
      rw [List.cons_append, List.length_cons, Cnf.split]
      dsimp only
      rw [ih _ hc]
      rfl

/-- A superposed field is lifted: the node is made twice, from the two sides of all its
fields. -/
theorem lift_yields {as bs : List Arg} {x : Arg} (hs : Shape.ofTag t.tag t.ext = some s)
    (hsup : s.isSup = false) (hp : t.Plain) (hm : ∀ a ∈ as ++ x :: bs, a.rank = m) (hr : m < r)
    (ht : x.term.tag = .sup) (hlen : (as ++ x :: bs).length = s.arity)
    (h : Has K rt (.holes l (as ++ x :: bs).length :: (as ++ x :: bs).map Arg.res) τ)
    {rt' : Rt} {args₀ args₁ : List Term}
    (hsplit : Cnf.split rt x.term.ext (heapRead rt x.term.val) (heapRead rt (x.term.val + 1))
      as.length ((as ++ x :: bs).map Arg.term) = (rt', args₀, args₁)) :
    Yields K τ (s.den ((as ++ x :: bs).map Arg.den)) r
      (termNewSup (termNewNode (termNewAt rt' l t.tag t.ext args₀).1 t.tag t.ext args₁).1 x.term.ext
        (termNewAt rt' l t.tag t.ext args₀).2
        (termNewNode (termNewAt rt' l t.tag t.ext args₀).1 t.tag t.ext args₁).2) := by
  obtain ⟨r₂, hm₂, h₂⟩ := exists_between hr
  obtain ⟨r₁, hm₁, h₁⟩ := exists_between hm₂
  have hbelow : ∀ a ∈ as ++ x :: bs, a.rank < r₁ := fun a ha => (hm a ha).symm ▸ hm₁
  have has : ∀ a ∈ as, a.rank < r₁ := fun a ha => hbelow a (List.mem_append.mpr (.inl ha))
  have hbs : ∀ a ∈ bs, a.rank < r₁ := fun a ha =>
    hbelow a (List.mem_append.mpr (.inr (List.mem_cons_of_mem _ ha)))
  have hx := hbelow x (List.mem_append.mpr (.inr List.mem_cons_self))
  -- the sides of the superposition
  have hperm : ([Res.holes l (as ++ x :: bs).length] ++ bs.map Arg.res ++ as.map Arg.res ++ [x.res]).Perm
      (.holes l (as ++ x :: bs).length :: (as ++ x :: bs).map Arg.res) := by
    refine Multiset.coe_eq_coe.mp ?_
    simp only [List.map_append, List.map_cons, ← Multiset.coe_add, ← Multiset.cons_coe,
      ← Multiset.singleton_add, Multiset.coe_nil]
    abel
  obtain ⟨σs, hS, h⟩ := LinearHeap.Ledger.release (LinearHeap.Ledger.perm hperm h)
  have hlab : x.term.ext ≤ extMask := (Own.plain h 0 rfl).2
  obtain ⟨da, db, k, ⟨hk, hd⟩, h⟩ := Own.open₂ h 0 rfl (s := .sup x.term.ext) (by rw [ht]; rfl) rfl
  have h := h.load 1 rfl
  have h := h.load 2 rfl
  have h := LinearHeap.Ledger.restore hS (h.keep [4, 6] (by decide) rfl)
  generalize heapRead rt x.term.val = a at hsplit h
  generalize heapRead rt (x.term.val + 1) = b at hsplit h
  -- the other fields are cloned
  have hperm : ([Res.holes l (as ++ x :: bs).length, .word a da k, .word b db k] ++ bs.map Arg.res ++
      as.map Arg.res).Perm ([Res.holes l (as ++ x :: bs).length] ++ bs.map Arg.res ++ as.map Arg.res ++
        [.word a da k, .word b db k]) := by
    refine Multiset.coe_eq_coe.mp ?_
    simp only [← Multiset.coe_add, ← Multiset.cons_coe, ← Multiset.singleton_add, Multiset.coe_nil]
    abel
  obtain ⟨σs, hS, h⟩ := LinearHeap.Ledger.release (LinearHeap.Ledger.perm hperm h)
  obtain ⟨rt₁, as₀, as₁, heas, has₀, has₁, hras, h⟩ := clones_has hlab has h
  have hperm : ([Res.holes l (as ++ x :: bs).length, .word a da k, .word b db k] ++ as₀.map Arg.res ++
      as₁.map Arg.res ++ bs.map Arg.res).Perm
      ([Res.holes l (as ++ x :: bs).length, .word a da k, .word b db k] ++ bs.map Arg.res ++
        (as₀.map Arg.res ++ as₁.map Arg.res)) := by
    refine Multiset.coe_eq_coe.mp ?_
    simp only [← Multiset.coe_add, ← Multiset.cons_coe, ← Multiset.singleton_add, Multiset.coe_nil]
    abel
  obtain ⟨σs, hS, h⟩ := LinearHeap.Ledger.release
    (LinearHeap.Ledger.perm hperm (LinearHeap.Ledger.restore hS h))
  obtain ⟨rt₂, bs₀, bs₁, hebs, hbs₀, hbs₁, hrbs, h⟩ := clones_has hlab hbs h
  have h := LinearHeap.Ledger.restore hS h
  have hn : as.length = (as.map Arg.term).length := (List.length_map Arg.term).symm
  rw [List.map_append, List.map_cons, hn, split_eq rt x.term.ext a b x.term _ _ heas hebs] at hsplit
  obtain ⟨rfl, h₀, h₁'⟩ := by simpa using hsplit
  have hargs₀ : args₀ = (as₀ ++ ⟨a, da, k⟩ :: bs₀).map Arg.term := by
    rw [← h₀, List.map_append, List.map_cons]
  have hargs₁ : args₁ = (as₁ ++ ⟨b, db, k⟩ :: bs₁).map Arg.term := by
    rw [← h₁', List.map_append, List.map_cons]
  rw [hargs₀, hargs₁]
  have hlen₀ : (as₀ ++ ⟨a, da, k⟩ :: bs₀).length = (as ++ x :: bs).length := by
    have e₁ := congrArg List.length has₀
    have e₂ := congrArg List.length hbs₀
    simp only [List.length_map] at e₁ e₂
    simp only [List.length_append, List.length_cons, e₁, e₂]
  have hlen₁ : (as₁ ++ ⟨b, db, k⟩ :: bs₁).length = (as ++ x :: bs).length := by
    have e₁ := congrArg List.length has₁
    have e₂ := congrArg List.length hbs₁
    simp only [List.length_map] at e₁ e₂
    simp only [List.length_append, List.length_cons, e₁, e₂]
  have hrank₀ : ∀ c ∈ as₀ ++ (⟨a, da, k⟩ : Arg) :: bs₀, c.rank < r₂ := by
    intro c hc
    rcases List.mem_append.mp hc with hc | hc
    · rw [hras c (List.mem_append.mpr (.inl hc))]
      exact h₁
    · rcases List.mem_cons.mp hc with rfl | hc
      · exact (hk.trans hx).trans h₁
      · rw [hrbs c (List.mem_append.mpr (.inl hc))]
        exact h₁
  have hrank₁ : ∀ c ∈ as₁ ++ (⟨b, db, k⟩ : Arg) :: bs₁, c.rank < r₂ := by
    intro c hc
    rcases List.mem_append.mp hc with hc | hc
    · rw [hras c (List.mem_append.mpr (.inr hc))]
      exact h₁
    · rcases List.mem_cons.mp hc with rfl | hc
      · exact (hk.trans hx).trans h₁
      · rw [hrbs c (List.mem_append.mpr (.inr hc))]
        exact h₁
  -- the two nodes, and the superposition over them
  have hperm : ((as₁ ++ ⟨b, db, k⟩ :: bs₁).map Arg.res ++
      (.holes l (as₀ ++ ⟨a, da, k⟩ :: bs₀).length :: (as₀ ++ ⟨a, da, k⟩ :: bs₀).map Arg.res)).Perm
      ([Res.holes l (as ++ x :: bs).length, .word a da k, .word b db k] ++ as₀.map Arg.res ++
        as₁.map Arg.res ++ (bs₀.map Arg.res ++ bs₁.map Arg.res)) := by
    rw [hlen₀]
    refine Multiset.coe_eq_coe.mp ?_
    simp only [List.map_append, List.map_cons, ← Multiset.coe_add, ← Multiset.cons_coe,
      ← Multiset.singleton_add, Multiset.coe_nil, Arg.res]
    abel
  obtain ⟨σs, hS, h⟩ := LinearHeap.Ledger.release (LinearHeap.Ledger.perm hperm h)
  have hnode := fillNode_yields t.tag t.ext r₂ _ h hs hp.2 (hlen₀.trans hlen) hrank₀
  have h := LinearHeap.Ledger.perm List.perm_append_comm (LinearHeap.Ledger.restore hS hnode)
  obtain ⟨σs, hS, h⟩ := LinearHeap.Ledger.release h
  have hnode' := newNode_yields t.tag t.ext r₂ _ h hs hp.2 (hlen₁.trans hlen) hrank₁
  have h := LinearHeap.Ledger.restore hS hnode'
  have h := Own.newNode₂ h .sup x.term.ext r 0 1 rfl rfl rfl hlab rfl h₂ h₂ (by decide)
  have hden : s.den ((as ++ x :: bs).map Arg.den) = (Shape.sup x.term.ext).den
      [s.den ((as₀ ++ ⟨a, da, k⟩ :: bs₀).map Arg.den), s.den ((as₁ ++ ⟨b, db, k⟩ :: bs₁).map Arg.den)] := by
    rw [List.map_append, List.map_cons, hd, Shape.den_eq hsup, Shape.den_eq hsup, Shape.den_eq hsup,
      List.map_append, List.map_append, List.map_cons, List.map_cons, has₀, has₁, hbs₀, hbs₁]
    exact gather_choice _ _
  rw [hden]
  exact h.yield 2 rfl rfl

/-- All fields of a node have been collapsed. -/
theorem finish_part (hp : t.Plain) (hs : Shape.ofTag t.tag t.ext = some s) (hc : t.tag.collapses = true)
    (hlen : fs.length = s.arity) (hset : Settled t (s.den (fs.map Field.den)))
    (hparts : ∀ f ∈ fs, Part K f.term f.den m f.toks) (hr : m < r)
    (hl : Linear K rt (fieldToks t.val fs + τ)) :
    ∃ ω, Part K (Cnf.finish rt t (fs.map Field.term)).2 (s.den (fs.map Field.den)) r ω ∧
      Linear K (Cnf.finish rt t (fs.map Field.term)).1 (ω + τ) := by
  unfold Cnf.finish
  split
  next hnone =>
    refine ⟨_, .inl (.node hp hs hc hlen hset hr fun f hf => ?_), hl⟩
    rcases hparts f hf with hdone | ⟨hsup, -⟩
    · exact hdone
    · have hno := List.findIdx?_eq_none_iff.mp hnone f.term (List.mem_map.mpr ⟨f, hf, rfl⟩)
      rw [hsup] at hno
      cases hno
  next k hk =>
    obtain ⟨hlt, htag, -⟩ := List.findIdx?_eq_some_iff_getElem.mp hk
    have hlt' : k < fs.length := by rwa [List.length_map] at hlt
    rw [List.getElem_map, beq_iff_eq] at htag
    have hget : (fs.map Field.term).getD k Term.zero = fs[k].term := by
      rw [List.getD_eq_getElem _ _ hlt, List.getElem_map]
    -- the words of the fields are taken out of their cells
    obtain ⟨σs, hws, hl⟩ := fields_open hparts hl
    let arg : Field → Arg := fun f => ⟨f.term, f.den, m⟩
    have hsplit : fs.map arg = (fs.take k).map arg ++ arg fs[k] :: (fs.drop (k + 1)).map arg := by
      rw [← List.map_cons, ← List.map_append, List.getElem_cons_drop, List.take_append_drop]
    have hargs : List.Forall₂ (Res.Holds K) ((fs.map arg).map Arg.res) σs := by
      rw [List.map_map, List.forall₂_map_left_iff]
      exact hws
    have hh : Has K rt (.holes t.val (fs.map arg).length :: (fs.map arg).map Arg.res) τ := by
      refine LinearHeap.Ledger.list_iff.mpr ⟨holeToks t.val fs.length :: σs, .cons ?_ hargs, ?_⟩
      · rw [List.length_map]
        exact rfl
      · rwa [List.sum_cons, add_assoc]
    have hterm : fs.map Field.term = (fs.map arg).map Arg.term := by
      rw [List.map_map]
      rfl
    have hden : fs.map Field.den = (fs.map arg).map Arg.den := by
      rw [List.map_map]
      rfl
    have htake : ((fs.take k).map arg).length = k := by
      rw [List.length_map, List.length_take, Nat.min_eq_left hlt'.le]
    rw [hget, hterm, hden]
    rw [hsplit] at hh ⊢
    obtain ⟨rt', args₀, args₁, he⟩ : ∃ rt' args₀ args₁, Cnf.split rt fs[k].term.ext
        (heapRead rt fs[k].term.val) (heapRead rt (fs[k].term.val + 1)) ((fs.take k).map arg).length
        (((fs.take k).map arg ++ arg fs[k] :: (fs.drop (k + 1)).map arg).map Arg.term) =
          (rt', args₀, args₁) := ⟨_, _, _, rfl⟩
    have hy := lift_yields hs (isSup_of_collapses hs hc) hp ?_ hr htag ?_ hh he
    · rw [htake] at he
      dsimp only
      rw [he]
      obtain ⟨σs, hS, hl⟩ := LinearHeap.Ledger.list_iff.mp hy
      obtain ⟨ω, σs, hw, hnil, rfl⟩ := List.forall₂_cons_left_iff.mp hS
      cases hnil
      rw [List.sum_singleton] at hl
      exact ⟨ω, .inr ⟨rfl, hw⟩, hl⟩
    · intro a ha
      rw [← hsplit] at ha
      obtain ⟨f, -, rfl⟩ := List.mem_map.mp ha
      rfl
    · rw [← hsplit, List.length_map, hlen]

/-! ### Erasures -/

theorem Val.erasedAll_of_mem {v : Val} {vs : List Val} (hv : v ∈ vs) (he : v.erased = true) :
    Val.erasedAll vs = true := by
  induction vs with
  | nil => cases hv
  | cons x vs ih =>
    rw [Val.erasedAll, Bool.or_eq_true]
    rcases List.mem_cons.mp hv with rfl | hv
    · exact .inl he
    · exact .inr (ih hv)

theorem Val.erased_of_stuck {v x y : Val} (hv : v ∈ [x, y]) (he : v.erased = true) :
    (∀ opr, (Val.op2Of opr x y).Stuck → (Val.op2Of opr x y).erased = true) ∧
      ((Val.andOf x y).Stuck → (Val.andOf x y).erased = true) ∧
      ((Val.orOf x y).Stuck → (Val.orOf x y).erased = true) := by
  have hxy : x.erased = true ∨ y.erased = true := by
    rcases List.mem_pair.mp hv with rfl | rfl
    · exact .inl he
    · exact .inr he
  refine ⟨fun opr h => ?_, fun h => ?_, fun h => ?_⟩
  · unfold Val.op2Of at h ⊢
    split at h
    case h_1 | h_2 | h_3 => cases h
    case h_4 => simpa [Val.erased] using hxy
  · unfold Val.andOf at h ⊢
    split at h
    case h_1 => cases h
    case h_2 n =>
      split_ifs at h with hn
      · cases h
      · rw [if_neg hn]
        exact hxy.resolve_left Bool.false_ne_true
    case h_3 => simpa [Val.erased] using hxy
  · unfold Val.orOf at h ⊢
    split at h
    case h_1 => cases h
    case h_2 n =>
      split_ifs at h with hn
      · rw [if_pos hn]
        exact hxy.resolve_left Bool.false_ne_true
      · cases h
    case h_3 => simpa [Val.erased] using hxy

/-- An erased field erases the node. -/
theorem erased_den {ds : List Den} (hs : Shape.ofTag t.tag t.ext = some s) (hc : t.tag.collapses = true)
    (hlen : ds.length = s.arity) (hset : Settled t (s.den ds)) (hd : d ∈ ds)
    (he : ∀ x, (d x).erased = true) (x : Sides Nat) : (s.den ds x).erased = true := by
  have hmem : d x ∈ ds.map (· x) := List.mem_map.mpr ⟨d, hd, rfl⟩
  have hpair (h2 : ds.length = 2) : ∃ a b, ds.map (· x) = [a, b] :=
    List.length_eq_two.mp (by rw [List.length_map, h2])
  unfold Settled at hset
  cases htag : t.tag <;> rw [htag] at hs hc hset <;> first
    | (cases hc; done)
    | exact hset.elim
    | skip
  case ctr n =>
    obtain rfl := Option.some.inj hs
    exact Val.erasedAll_of_mem hmem (he x)
  case op2 =>
    obtain rfl := Option.some.inj hs
    obtain ⟨a, b, hab⟩ := hpair hlen
    have hst := hset x
    rw [Shape.den_eq rfl, gather, hab] at hst ⊢
    rw [hab] at hmem
    exact (Val.erased_of_stuck hmem (he x)).1 _ hst
  case and =>
    obtain rfl := Option.some.inj hs
    obtain ⟨a, b, hab⟩ := hpair hlen
    have hst := hset x
    rw [Shape.den_eq rfl, gather, hab] at hst ⊢
    rw [hab] at hmem
    exact (Val.erased_of_stuck hmem (he x)).2.1 hst
  case or =>
    obtain rfl := Option.some.inj hs
    obtain ⟨a, b, hab⟩ := hpair hlen
    have hst := hset x
    rw [Shape.den_eq rfl, gather, hab] at hst ⊢
    rw [hab] at hmem
    exact (Val.erased_of_stuck hmem (he x)).2.2 hst

/-! ### Calls -/

/-- The calls lead from the value `d` of the child at hand to the value `D`, and hold the tokens
`σ`: the cells of the fields that are collapsed already, the one of the child, and the fields
still to come. -/
inductive Calls (K : Statics) (D : Den) (R : ℚ) : List CnfCall → Den → ℚ → Toks → Prop
  | nil : Calls K D R [] D R 0
  | node {t orig : Term} {s : Shape} {depth : Nat} {calls : List CnfCall} {d : Den} {m r : ℚ}
    {fs : List Field} {cs : List Claim} {σ : Toks} (hp : t.Plain)
    (hs : Shape.ofTag t.tag t.ext = some s) (hc : t.tag.collapses = true)
    (hlen : fs.length + (cs.length + 1) = s.arity)
    (hset : Settled t (s.den (fs.map Field.den ++ d :: cs.map Claim.den)))
    (hparts : ∀ f ∈ fs, Part K f.term f.den m f.toks) (hcs : ∀ c ∈ cs, c.rank ≤ m) (hr : m < r)
    (hrest : Calls K D R calls (s.den (fs.map Field.den ++ d :: cs.map Claim.den)) r σ) :
    Calls K D R (.node t depth fs.length orig (fs.map Field.term) :: calls) d m
      (fieldToks t.val fs + ({.held (t.val + fs.length) (some (.tm orig))} +
        (nodeToks (t.val + fs.length + 1) cs + σ)))

/-- `cnf` is on its way to the value `D`, and holds the tokens `τ` besides. -/
def Working (K : Statics) (D : Den) (R : ℚ) (τ : Toks) (c : Cnf) : Prop :=
  ∃ d m σ, Calls K D R c.calls d m σ ∧
    match c.mode with
    | .call t _ => Has K c.rt [.word t d m] (σ + τ)
    | .wnf stack md _ => Computes K d m (σ + τ) ⟨c.rt, stack, md⟩
    | .ret t => ∃ ω, Returns K t d m ω ∧ Linear K c.rt (ω + (σ + τ))

variable {calls : List CnfCall} {depth : Nat}

theorem Calls.mono (hK : K.Le K') (h : Calls K D R calls d m σ) : Calls K' D R calls d m σ := by
  induction h with
  | nil => exact .nil
  | node hp hs hc hlen hset hparts hcs hr _ ih =>
    exact .node hp hs hc hlen hset (fun f hf => (hparts f hf).mono hK) hcs hr ih

theorem Calls.not_pins (h : Calls K D R calls d m σ) : ∀ t ∈ σ, ¬ t.Pins := by
  induction h with
  | nil =>
    intro t ht
    cases ht
  | node hp hs hc hlen hset hparts hcs hr _ ih =>
    intro t ht
    rcases Multiset.mem_add.mp ht with hm | hm
    · exact fieldToks_not_pins (fun f hf => (hparts f hf).not_pins) t hm
    rcases Multiset.mem_add.mp hm with hm | hm
    · rw [Multiset.mem_singleton.mp hm]
      exact id
    rcases Multiset.mem_add.mp hm with hm | hm
    · exact nodeToks_not_pins t hm
    · exact ih t hm

theorem termArity_of_ofTag (hs : Shape.ofTag t.tag t.ext = some s) : termArity t = s.arity := by
  have hpri : t.tag ≠ .pri := by
    intro he
    rw [he] at hs
    cases hs
  rw [termArity, if_neg hpri, Shape.arity_of_ofTag hs]

/-- The loop over the fields, before field `i`. -/
theorem fields_working {cs : List Claim} (hp : t.Plain) (hs : Shape.ofTag t.tag t.ext = some s)
    (hc : t.tag.collapses = true) (hlen : fs.length + cs.length = s.arity)
    (hset : Settled t (s.den (fs.map Field.den ++ cs.map Claim.den)))
    (hparts : ∀ f ∈ fs, Part K f.term f.den m f.toks) (hcs : ∀ c ∈ cs, c.rank ≤ m) (hr : m < r)
    (hrest : Calls K D R calls (s.den (fs.map Field.den ++ cs.map Claim.den)) r σ)
    (hl : Linear K rt (fieldToks t.val fs + (nodeToks (t.val + fs.length) cs + (σ + τ)))) :
    Working K D R τ (Cnf.fields rt calls t depth fs.length (fs.map Field.term)) := by
  unfold Cnf.fields
  rw [termArity_of_ofTag hs]
  cases cs with
  | nil =>
    rw [List.map_nil, List.append_nil] at hset hrest
    have hdone : ¬ fs.length < s.arity := by
      rw [List.length_nil] at hlen
      omega
    rw [if_neg hdone]
    rw [nodeToks, zero_add] at hl
    obtain ⟨ω, hpart, hl⟩ := finish_part hp hs hc hlen hset hparts hr hl
    exact ⟨_, r, σ, hrest, ω, .inl hpart, hl⟩
  | cons c cs =>
    rw [List.length_cons] at hlen
    rw [if_pos (by omega)]
    rw [nodeToks] at hl
    have he : fieldToks t.val fs + ({.own (t.val + fs.length) (.cell c)} +
          nodeToks (t.val + fs.length + 1) cs + (σ + τ)) =
        {.own (t.val + fs.length) (.cell c)} +
          (fieldToks t.val fs + (nodeToks (t.val + fs.length + 1) cs + (σ + τ))) := by abel
    rw [he] at hl
    -- the field is read, and its cell keeps what it holds
    obtain ⟨ω, -, hh, hl⟩ := LinearHeap.Meaning.Inv.load hl
    obtain ⟨x, hx, hw⟩ := Holds.exists_word hh (hcs c List.mem_cons_self)
    have hread : heapRead rt (t.val + fs.length) = x := by rw [heapRead, hx]; rfl
    have hl := LinearHeap.Meaning.Inv.write hl (.tm x)
    have hself : Function.update rt.heap (t.val + fs.length) (.tm x) = rt.heap := by
      rw [← hx]
      exact Function.update_eq_self _ rt.heap
    rw [hself] at hl
    rw [hread]
    refine ⟨c.den, m, _, .node hp hs hc hlen hset hparts
      (fun c' hc' => hcs c' (List.mem_cons_of_mem _ hc')) hr hrest,
      LinearHeap.Ledger.list_iff.mpr ⟨[ω], .cons hw .nil, ?_⟩⟩
    have he' : [ω].sum + (fieldToks t.val fs + ({.held (t.val + fs.length) (some (.tm x))} +
          (nodeToks (t.val + fs.length + 1) cs + σ)) + τ) =
        {.held (t.val + fs.length) (some (.tm x))} +
          (ω + (fieldToks t.val fs + (nodeToks (t.val + fs.length + 1) cs + (σ + τ)))) := by
      rw [List.sum_singleton]
      abel
    rw [he']
    exact hl

theorem Part.tag_ne_era (h : Part K t d m σ) : t.tag ≠ .era := by
  intro ht
  rcases h with h | ⟨hsup, -⟩
  · cases h with
    | leaf _ hl _ =>
      rw [ht] at hl
      cases hl
    | node _ _ hc _ _ _ _ =>
      rw [ht] at hc
      cases hc
  · rw [ht] at hsup
    cases hsup

/-- A field comes back from `cnf_at`. -/
theorem nodeReturn_working {x orig : Term} {ω : Toks} {cs : List Claim} (hp : t.Plain)
    (hs : Shape.ofTag t.tag t.ext = some s) (hc : t.tag.collapses = true)
    (hlen : fs.length + (cs.length + 1) = s.arity)
    (hset : Settled t (s.den (fs.map Field.den ++ d :: cs.map Claim.den)))
    (hparts : ∀ f ∈ fs, Part K f.term f.den m f.toks) (hcs : ∀ c ∈ cs, c.rank ≤ m) (hr : m < r)
    (hrest : Calls K D R calls (s.den (fs.map Field.den ++ d :: cs.map Claim.den)) r σ)
    (hx : Returns K x d m ω)
    (hl : Linear K rt (ω + (fieldToks t.val fs + ({.held (t.val + fs.length) (some (.tm orig))} +
      (nodeToks (t.val + fs.length + 1) cs + σ)) + τ))) :
    Working K D R τ (Cnf.nodeReturn rt calls t depth fs.length orig (fs.map Field.term) x) := by
  have he : ω + (fieldToks t.val fs + ({.held (t.val + fs.length) (some (.tm orig))} +
        (nodeToks (t.val + fs.length + 1) cs + σ)) + τ) =
      {.held (t.val + fs.length) (some (.tm orig))} +
        (ω + (fieldToks t.val fs + (nodeToks (t.val + fs.length + 1) cs + (σ + τ)))) := by abel
  rw [he] at hl
  -- the cell of the field holds the collapsed term, written or as it was
  have hl' : Linear K (if x ≠ orig then heapSet rt (t.val + fs.length) x else rt)
      ({.held (t.val + fs.length) (some (.tm x))} +
        (ω + (fieldToks t.val fs + (nodeToks (t.val + fs.length + 1) cs + (σ + τ))))) := by
    split_ifs with hne
    · exact LinearHeap.Meaning.Inv.write hl (.tm x)
    · rwa [not_ne_iff.mp hne]
  unfold Cnf.nodeReturn
  dsimp only
  rcases hx with hx | ⟨hera, hd, rfl⟩
  · rw [if_neg hx.tag_ne_era]
    have hmap : (fs ++ [(⟨x, d, ω⟩ : Field)]).map Field.term = fs.map Field.term ++ [x] := by
      rw [List.map_append, List.map_singleton]
    have hdens : (fs ++ [(⟨x, d, ω⟩ : Field)]).map Field.den ++ cs.map Claim.den =
        fs.map Field.den ++ d :: cs.map Claim.den := by
      rw [List.map_append, List.map_singleton, List.append_assoc, List.singleton_append]
    have hn : (fs ++ [(⟨x, d, ω⟩ : Field)]).length = fs.length + 1 := by
      rw [List.length_append, List.length_singleton]
    rw [← hmap, ← hn]
    rw [← hdens] at hset hrest
    refine fields_working hp hs hc (by rw [hn]; omega) hset ?_ hcs hr hrest ?_
    · intro f hf
      rcases List.mem_append.mp hf with hf | hf
      · exact hparts f hf
      · rw [List.mem_singleton.mp hf]
        exact hx
    · rw [fieldToks_append, hn]
      have he' : fieldToks t.val fs + fieldToks (t.val + fs.length) [(⟨x, d, ω⟩ : Field)] +
            (nodeToks (t.val + (fs.length + 1)) cs + (σ + τ)) =
          {.held (t.val + fs.length) (some (.tm x))} +
            (ω + (fieldToks t.val fs + (nodeToks (t.val + fs.length + 1) cs + (σ + τ)))) := by
        rw [fieldToks, fieldToks, ← Nat.add_assoc]
        abel
      rw [he']
      exact hl'
  · rw [if_pos hera]
    have hlen' : (fs.map Field.den ++ d :: cs.map Claim.den).length = s.arity := by
      rw [List.length_append, List.length_cons, List.length_map, List.length_map, hlen]
    refine ⟨_, r, σ, hrest, 0, .inr ⟨rfl, fun y => erased_den hs hc hlen' hset
      (List.mem_append.mpr (.inr List.mem_cons_self)) hd y, rfl⟩, ?_⟩
    have he' : ({.held (t.val + fs.length) (some (.tm x))} +
          (0 + (fieldToks t.val fs + (nodeToks (t.val + fs.length + 1) cs + (σ + τ)))) : Toks) =
        ({.held (t.val + fs.length) (some (.tm x))} + (fieldToks t.val fs +
          nodeToks (t.val + fs.length + 1) cs)) + (0 + (σ + τ)) := by abel
    rw [he'] at hl'
    refine LinearHeap.Meaning.Inv.drop hl' fun y hy => ?_
    rcases Multiset.mem_add.mp hy with hm | hm
    · rw [Multiset.mem_singleton.mp hm]
      exact id
    rcases Multiset.mem_add.mp hm with hm | hm
    · exact fieldToks_not_pins (fun f hf => (hparts f hf).not_pins) y hm
    · exact nodeToks_not_pins y hm

/-- The switch of `cnf_at` on a weak normal form. -/
theorem dispatch_working (hcalls : Calls K D R calls d m σ) (h : Has K rt [.word t d m] (σ + τ))
    (hset : Settled t d) : Working K D R τ (Cnf.dispatch rt calls depth t) := by
  obtain ⟨σs, hS, hl⟩ := LinearHeap.Ledger.list_iff.mp h
  obtain ⟨ω, σs, hw, hnil, rfl⟩ := List.forall₂_cons_left_iff.mp hS
  cases hnil
  rw [List.sum_singleton] at hl
  have hw : Word K t d m ω := hw
  have hleaf (ht : isCnfLeaf t.tag = true) : Working K D R τ ⟨rt, calls, .ret t⟩ :=
    ⟨d, m, σ, hcalls, ω, .inl (.inl (.leaf hw ht hset)), hl⟩
  have hnode {s : Shape} (hs : Shape.ofTag t.tag t.ext = some s) (hc : t.tag.collapses = true) :
      Working K D R τ (Cnf.fields rt calls t depth 0 []) := by
    obtain ⟨cs, hlen, hb, rfl, rfl⟩ := hw.node_inv hs
    obtain ⟨k, hk, hat⟩ := Claim.exists_bound hb
    have hnone : ∀ f ∈ ([] : List Field), Part K f.term f.den k f.toks := fun f hf => by cases hf
    have hset : Settled t (s.den (([] : List Field).map Field.den ++ cs.map Claim.den)) := hset
    exact fields_working hw.plain hs hc (by simpa using hlen) hset hnone hat hk hcalls
      (by simpa [fieldToks] using hl)
  have hfo := hw.isFirstOrder
  unfold Cnf.dispatch
  cases ht : t.tag <;> rw [ht] at hfo <;> first | (cases hfo; done) | skip
  case num | any | inc | dp0 | dp1 => exact hleaf (by rw [ht]; rfl)
  case sup => exact ⟨d, m, σ, hcalls, ω, .inl (.inr ⟨ht, hw⟩), hl⟩
  case era =>
    obtain ⟨hd, hω⟩ : d = (fun _ => .era) ∧ ω = 0 := by
      cases hw with
      | era => exact ⟨rfl, rfl⟩
      | num _ ht' | any _ ht' | book _ ht' | pack _ ht' =>
        rw [ht] at ht'
        cases ht'
      | @cop right _ _ _ _ ht' =>
        rw [ht] at ht'
        cases right <;> cases ht'
      | node _ hs =>
        rw [ht] at hs
        cases hs
    exact ⟨d, m, σ, hcalls, ω, .inr ⟨ht, fun x => by rw [hd]; rfl, hω⟩, hl⟩
  case op2 => exact hnode (s := .op2 t.ext) (by rw [ht]; rfl) (by rw [ht]; rfl)
  case and => exact hnode (s := .and) (by rw [ht]; rfl) (by rw [ht]; rfl)
  case or => exact hnode (s := .or) (by rw [ht]; rfl) (by rw [ht]; rfl)
  case eql | alo =>
    unfold Settled at hset
    rw [ht] at hset
    exact hset.elim
  case ctr n =>
    dsimp only
    split_ifs with hn
    · exact hleaf (by rw [ht, hn]; rfl)
    · exact hnode (s := .ctr t.ext n) (by rw [ht]; rfl) (by rw [ht]; simpa [Tag.collapses] using hn)

/-! ### Steps -/

variable {c c' : Cnf}

theorem turn_working (book : BookTable) (hτ : ∀ t ∈ τ, ¬ t.Pins) (h : Working K D R τ c) :
    (∃ c' K', Cnf.turn book c = .next c' ∧ K.Le K' ∧ Working K' D R τ c') ∨
      Cnf.turn book c = .exit .outOfHeap ∨
      ∃ rt t ω, c = ⟨rt, [], .ret t⟩ ∧ Returns K t D R ω ∧ Linear K rt (ω + τ) := by
  obtain ⟨rt, calls, md⟩ := c
  obtain ⟨d, m, σ, hcalls, h⟩ := h
  cases md with
  | call t depth =>
    refine .inl ⟨_, K, rfl, LinearHeap.Frozen.Le.refl K, d, m, σ, hcalls, d, m, 0, .nil, ?_,
      fun w hw => by cases hw⟩
    rw [zero_add]
    exact h
  | wnf stack md depth =>
    have h : Computes K d m (σ + τ) ⟨rt, stack, md⟩ := h
    have hpins : ∀ t ∈ σ + τ, ¬ t.Pins := fun t ht =>
      (Multiset.mem_add.mp ht).elim (hcalls.not_pins t) (hτ t)
    unfold Cnf.turn
    dsimp only
    cases hstep : Hvm.step book ⟨rt, stack, md⟩ with
    | next c₁ =>
      obtain ⟨K', hK, h'⟩ := step_computes hpins h hstep
      exact .inl ⟨_, K', rfl, hK, d, m, σ, hcalls.mono hK, h'⟩
    | done rt' w =>
      left
      rcases turn_goes book hpins h with ⟨c₁, K', hc, -, -⟩ | ⟨rt₁, w₁, he⟩
      · have hturn := checkHeap_done hstep
        rw [hc] at hturn
        cases hturn
      · obtain ⟨rfl, rfl, rfl⟩ := Machine.mk.inj he
        obtain ⟨rfl, rfl⟩ := Outcome.done.inj (checkHeap_done hstep)
        obtain ⟨d', m', σ', hf, hown, hset⟩ := h
        cases hf with
        | nil =>
          rw [zero_add] at hown
          exact ⟨_, K, rfl, LinearHeap.Frozen.Le.refl K, dispatch_working hcalls hown (hset _ rfl)⟩
    | exit f =>
      rw [(h.outcome hpins).1 f hstep]
      exact .inr (.inl rfl)
  | ret t =>
    obtain ⟨ω, hret, hl⟩ := h
    cases hcalls with
    | nil =>
      rw [zero_add] at hl
      exact .inr (.inr ⟨rt, t, ω, rfl, hret, hl⟩)
    | node hp hs hc hlen hset hparts hcs hr hrest =>
      exact .inl ⟨_, K, rfl, LinearHeap.Frozen.Le.refl K,
        nodeReturn_working hp hs hc hlen hset hparts hcs hr hrest hret hl⟩

/-- A step of `cnf` keeps the value; the last one returns it. -/
theorem cnf_working (book : BookTable) (hτ : ∀ t ∈ τ, ¬ t.Pins) (h : Working K D R τ c) :
    (∃ c' K', Cnf.step book c = .next c' ∧ K.Le K' ∧ Working K' D R τ c') ∨
      Cnf.step book c = .exit .outOfHeap ∨
      ∃ rt t ω, Cnf.step book c = .done rt t ∧ Returns K t D R ω ∧ Linear K rt (ω + τ) := by
  unfold Cnf.step
  rcases turn_working book hτ h with ⟨c', K', hc, hK, h'⟩ | hc | ⟨rt, t, ω, rfl, hret, hl⟩
  · rw [hc]
    dsimp only
    split_ifs
    · exact .inl ⟨c', K', rfl, hK, h'⟩
    · exact .inr (.inl rfl)
  · rw [hc]
    exact .inr (.inl rfl)
  · exact .inr (.inr ⟨rt, t, ω, rfl, hret, hl⟩)

end Hvm.Choice
