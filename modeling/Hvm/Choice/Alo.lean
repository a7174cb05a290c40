import Hvm.Choice.Rules

/-! A layer of a book term is instantiated with the value it has there. -/

namespace Hvm.Choice

open Oracle

variable {K K' : Statics} {τ : Toks} {rt : Rt} {n : Nat} {R : LinearHeap.Slots Res} {d : Den}
  {m r : ℚ} {ls tm loc : Nat} {bs : List Nat} {ρ : Env} {O : Multiset Occ} {e : Expr}

/-- The shared values of an environment. -/
def Env.values (ρ : Env) : Nat → Den := fun lvl => (ρ lvl).1

/-- The cell of a packed ALO; an ALO without bind list has none. -/
def aloCell (loc len : Nat) : Res := if len = 0 then .nil else .hole loc

theorem aloCell_not_pins (loc len : Nat) : (aloCell loc len).pins = false := by
  unfold aloCell
  split <;> rfl

theorem Own.openAlo {alo : Term} (h : Has K rt [.word alo d m] τ) (ht : alo.tag = .alo) :
    ∃ loc ls tm bs ρ O e k, aloRead rt alo = (loc, ls, tm) ∧ bs.length = alo.ext ∧ k < m ∧
      d = e.den bs.length (Env.values ρ) ∧
      Has K rt [aloCell loc bs.length, .susp ls tm bs ρ O e k] τ := by
  obtain ⟨σs, hS, hI⟩ := LinearHeap.Ledger.list_iff.mp h
  obtain ⟨σ, σs, hw, hnil, rfl⟩ := List.forall₂_cons_left_iff.mp hS
  cases hnil
  rw [List.sum_singleton] at hI
  rcases Word.alo_inv hw ht with ⟨h0, rfl, b, e, ρ, hb, hbook, he, hn, rfl⟩ | ⟨h0, k, hk, rfl⟩
  · refine ⟨0, 0, alo.val, [], fun lvl => (ρ lvl, m - 1), 0, e, m - 1, by rw [aloRead, if_pos h0],
      h0.symm, sub_one_lt m, rfl, LinearHeap.Ledger.list_iff.mpr ⟨[0, 0], ?_, by simpa using hI⟩⟩
    have hsusp : Suspends K 0 alo.val [] (fun lvl => (ρ lvl, m - 1)) 0 e (m - 1) :=
      ⟨trivial, ⟨b, hb, hbook, he⟩, by rwa [List.length_nil, Nat.zero_add], fun o ho => by cases ho⟩
    exact .cons rfl (.cons ⟨hsusp, rfl⟩ .nil)
  · obtain ⟨σ, -, hh, hI⟩ := LinearHeap.Meaning.Inv.load hI
    cases hc : rt.heap alo.val with
    | tm w =>
      rw [hc] at hh
      exact hh.elim
    | alo ls tm =>
      rw [hc] at hh
      obtain ⟨bs, ρ, O, e, hlen, hs, hd, rfl⟩ := hh
      refine ⟨alo.val, ls, tm, bs, ρ, O, e, k, by rw [aloRead, if_neg h0, hc], hlen, hk, ?_,
        LinearHeap.Ledger.list_iff.mpr ⟨[{.held alo.val none}, occToks bs ρ O], ?_, ?_⟩⟩
      · rw [hd, hlen]
        rfl
      · rw [aloCell, if_neg (by omega)]
        exact .cons rfl (.cons ⟨hs, rfl⟩ .nil)
      · simpa [add_assoc] using hI

/-- A packed pair in a held cell is an ALO word. -/
theorem Linear.pack {ν : Toks} {o : Option Cell}
    (hl : Linear K rt ({.held loc o} + (occToks bs ρ O + ν)))
    (hs : Suspends K ls tm bs ρ O e m) :
    Linear K (rt.set loc (.alo ls tm))
      ({.own loc (.pack bs.length (e.den bs.length (Env.values ρ)) m)} + ν) :=
  LinearHeap.Meaning.Inv.store hl (.pack bs.length (e.den bs.length (Env.values ρ)) m) rfl
    ⟨bs, ρ, O, e, rfl, hs, rfl, rfl⟩ occToks_not_pins

theorem Suspends.ext_le (hs : Suspends K ls tm bs ρ O e m) : bs.length ≤ extMask := by
  have hn := hs.nesting
  rw [extMask]
  omega

theorem packWord (hs : Suspends K ls tm bs ρ O e m) (h0 : bs.length ≠ 0) (hr : m < r) :
    Word K (termNew false .alo bs.length loc) (e.den bs.length (Env.values ρ)) r
      {.own loc (.pack bs.length (e.den bs.length (Env.values ρ)) m)} := by
  have hext : (termNew false .alo bs.length loc).ext = bs.length :=
    Nat.mod_eq_of_lt (Nat.lt_succ_of_le hs.ext_le)
  have hw := Word.pack (K := K) (w := termNew false .alo bs.length loc)
    (d := e.den bs.length (Env.values ρ)) (termNew_plain _ _ _) rfl (by rwa [hext]) hr
  rwa [hext] at hw

/-- A closed book term needs no bind list. -/
theorem bookWord (hs : Suspends K ls tm bs ρ O e m) (h0 : bs.length = 0) :
    O = 0 ∧ Word K (termNew false .alo 0 tm) (e.den bs.length (Env.values ρ)) r 0 := by
  obtain ⟨b, hb, hbook, he⟩ := hs.book
  have hn := hs.nesting
  rw [h0] at hbook hn ⊢
  obtain rfl := hbook.closed
  exact ⟨rfl, .book (termNew_plain _ _ _) rfl rfl hb hbook he (by omega)⟩

theorem Own.aloAt (h : Own K rt n R τ) (r : ℚ) (i j : Nat)
    (hi : R i = aloCell loc bs.length) (hj : R j = .susp ls tm bs ρ O e m) (hr : m < r)
    (hn : [i, j].Nodup) :
    Own K (termNewAloAt rt loc ls bs.length tm).1 (n + 1)
      ((spend R [i, j]).add n
        [.word (termNewAloAt rt loc ls bs.length tm).2 (e.den bs.length (Env.values ρ)) r]) τ := by
  refine h.replace₂ i j hn _ hi hj ?_
  rintro σ σ' ν hσ ⟨hs, rfl⟩ hI
  by_cases h0 : bs.length = 0
  · obtain ⟨rfl, hw⟩ := bookWord (r := r) hs h0
    rw [aloCell, if_pos h0] at hσ
    obtain rfl : σ = 0 := hσ
    rw [termNewAloAt, if_pos h0]
    exact ⟨[0], .cons hw .nil, by simpa [occToks] using hI⟩
  · rw [aloCell, if_neg h0] at hσ
    obtain rfl : σ = {.held loc none} := hσ
    rw [termNewAloAt, if_neg h0]
    refine ⟨[_], .cons (packWord hs h0 hr) .nil, ?_⟩
    rw [List.sum_singleton]
    exact Linear.pack hI hs

theorem Own.aloNew (h : Own K rt n R τ) (r : ℚ) (j : Nat) (hj : R j = .susp ls tm bs ρ O e m)
    (hr : m < r) :
    Own K (termNewAlo rt ls bs.length tm).1 (n + 1)
      ((spend R [j]).add n
        [.word (termNewAlo rt ls bs.length tm).2 (e.den bs.length (Env.values ρ)) r]) τ := by
  refine h.replace₁ j _ hj ?_
  rintro σ ν ⟨hs, rfl⟩ hI
  by_cases h0 : bs.length = 0
  · obtain ⟨rfl, hw⟩ := bookWord (r := r) hs h0
    rw [termNewAlo, if_pos h0]
    exact ⟨[0], .cons hw .nil, by simpa [occToks] using hI⟩
  · rw [termNewAlo, if_neg h0]
    refine ⟨[_], .cons (packWord hs h0 hr) .nil, ?_⟩
    rw [List.sum_singleton]
    exact Linear.pack (LinearHeap.Meaning.Inv.alloc hI) hs

/-! ### Dup variables -/

/-- A word that holds just the tokens of the book term replaces the ALO. -/
theorem alo_word_yields {x : Res} {w : Term} (h : Has K rt [x, .susp ls tm bs ρ O e m] τ)
    (hx : x.pins = false) (hw : Word K w d r (occToks bs ρ O)) : Yields K τ d r (rt, w) := by
  have h : Own K rt _ _ τ := h.recast 1 [.word w d r] rfl fun σ hσ =>
    ⟨[occToks bs ρ O], .cons hw .nil, by rw [List.sum_singleton, hσ.2]⟩
  refine h.yield 2 rfl ?_
  change (!x.pins && _) = true
  rw [hx]
  rfl

theorem wnfAloCop_yields {x : Res} {book : Term} {right : Bool}
    (h : Has K rt [x, .susp ls tm bs ρ {.cop right book.ext (u32 book.val)} e m] τ)
    (hx : x.pins = false) (hp : book.Plain) (ht : book.tag.copSide = some right)
    (h1 : 1 ≤ u32 book.val) (hl : u32 book.val ≤ bs.length) (hr : m < r) :
    Yields K τ ((Expr.cop right book.ext (u32 book.val)).den bs.length (Env.values ρ)) r
      (rt, wnfAloCop rt ls bs.length book) := by
  obtain ⟨σ, ν, ⟨hs, -⟩, -⟩ := h.holding 1
  have hidx : bs.length - u32 book.val < bs.length := by omega
  obtain ⟨hwalk, hne⟩ := aloWalk_eq (fun _ _ hc => h.static hc) hs.binds hidx
  have hbind : aloWalk rt ls (bs.length - u32 book.val) = bindAt bs (u32 book.val) := hwalk
  have htag : (if book.tag = .dp0 ∨ book.tag = .bj0 then Tag.dp0 else Tag.dp1) = dupTag right := by
    cases hb : book.tag <;> simp [hb, Tag.copSide] at ht <;> subst ht <;> rfl
  have he : wnfAloCop rt ls bs.length book =
      termNew false (dupTag right) book.ext (bindAt bs (u32 book.val)) := by
    simp only [wnfAloCop]
    rw [if_neg (by omega), hbind, if_pos (show bindAt bs (u32 book.val) ≠ 0 from hne), htag]
  have hrank : (ρ (u32 book.val)).2 ≤ m :=
    hs.ranks (.cop right book.ext (u32 book.val)) (Multiset.mem_singleton_self _)
  rw [he]
  refine alo_word_yields h hx ?_
  rw [occToks, Multiset.map_singleton]
  exact copWord right hp.2 (lt_of_le_of_lt hrank hr)

/-! ### Nodes -/

/-- The suspended fields of a node, from the book location `tm` on. -/
def suspAll (ls : Nat) (bs : List Nat) (ρ : Env) (m : ℚ) : Nat → List (Multiset Occ × Expr) → List Res
  | _, [] => []
  | tm, x :: xs => .susp ls tm bs ρ x.1 x.2 m :: suspAll ls bs ρ m (tm + 1) xs

/-- The ALOs of the fields `i, i + 1, ..` of a book node. -/
theorem wnfAloNodArgs_has {i : Nat} {xs : List (Multiset Occ × Expr)} {σs : List Toks}
    (h : Has K rt [] (σs.sum + τ))
    (hS : List.Forall₂ (Res.Holds K) (suspAll ls bs ρ m (loc + i) xs) σs) (hr : m < r) :
    ∃ as : List Arg, as.map Arg.term = (wnfAloNodArgs rt ls bs.length loc i xs.length).2 ∧
      as.map Arg.den = xs.map (fun x => x.2.den bs.length (Env.values ρ)) ∧
      (∀ a ∈ as, a.rank = r) ∧
      Has K (wnfAloNodArgs rt ls bs.length loc i xs.length).1 (as.map Arg.res) τ := by
  induction xs generalizing rt i σs τ with
  | nil =>
    cases hS
    rw [List.sum_nil, zero_add] at h
    exact ⟨[], rfl, rfl, fun a ha => (by cases ha), h⟩
  | cons x xs ih =>
    obtain ⟨σ, σs, hx, hrest, rfl⟩ := List.forall₂_cons_left_iff.mp hS
    have hadd : (σ :: σs).sum + τ = [σ].sum + (σs.sum + τ) := by
      rw [List.sum_cons, List.sum_singleton, add_assoc]
    rw [hadd] at h
    have h := LinearHeap.Ledger.restore (P := [Res.susp ls (loc + i) bs ρ x.1 x.2 m]) (.cons hx .nil) h
    have h := Own.aloNew h r 0 rfl hr
    have h := h.keep [1] (by decide) rfl
    obtain ⟨σw, hw, h⟩ := LinearHeap.Ledger.release (S := [])
      (P := [Res.word (termNewAlo rt ls bs.length (loc + i)).2 (x.2.den bs.length (Env.values ρ)) r]) h
    have hswap : σw.sum + (σs.sum + τ) = σs.sum + (σw.sum + τ) := add_left_comm _ _ _
    rw [hswap] at h
    obtain ⟨as, hterm, hden, hrank, h⟩ := ih (i := i + 1) h hrest
    have h := LinearHeap.Ledger.restore hw h
    refine ⟨⟨_, x.2.den bs.length (Env.values ρ), r⟩ :: as, ?_, ?_, ?_, h⟩
    · rw [List.map_cons, hterm]
      rfl
    · rw [List.map_cons, List.map_cons, hden]
    · intro a ha
      rcases List.mem_cons.mp ha with rfl | ha
      · rfl
      · exact hrank a ha

/-- The references of a book node are those of its fields. -/
theorem forall₂_suspAll {O : Nat → Multiset Occ} {es : List Expr} {i : Nat}
    (hs : ∀ k (hk : k < es.length), Suspends K ls (loc + (i + k)) bs ρ (O (i + k)) es[k] m) :
    List.Forall₂ (Res.Holds K)
      (suspAll ls bs ρ m (loc + i) (((List.range' i es.length).map O).zip es))
      ((List.range' i es.length).map fun k => occToks bs ρ (O k)) := by
  induction es generalizing i with
  | nil => exact .nil
  | cons e es ih =>
    rw [List.length_cons, List.range'_succ, List.map_cons, List.map_cons, List.zip_cons_cons]
    refine .cons ⟨hs 0 (Nat.succ_pos _), rfl⟩ (ih (i := i + 1) fun k hk => ?_)
    have hh := hs (k + 1) (Nat.succ_lt_succ hk)
    have he : i + (k + 1) = i + 1 + k := by omega
    rwa [he] at hh

theorem occToks_sum (bs : List Nat) (ρ : Env) (O : Nat → Multiset Occ) (k : Nat) :
    occToks bs ρ (∑ i ∈ Finset.range k, O i) =
      ((List.range' 0 k).map fun i => occToks bs ρ (O i)).sum := by
  have hh := sum_range_eq_range' O k 0
  simp only [Nat.zero_add] at hh
  rw [hh, occToks, ← Multiset.coe_mapAddMonoidHom, map_list_sum, List.map_map]
  rfl

theorem wnfAloNod_yields {book : Term} {s : Shape} {es : List Expr} {f : Nat → Term}
    {O : Nat → Multiset Occ}
    (h : Has K rt [aloCell loc bs.length,
      .susp ls tm bs ρ (∑ i ∈ Finset.range (termArity book), O i) (.node s es) m] τ)
    (hp : book.Plain) (hs : Shape.ofTag book.tag book.ext = some s) (hlen : es.length = s.arity)
    (hf : ∀ i, i < es.length → K (book.val + i) = some (.tm (f i)))
    (hbook : ∀ i, i < es.length → BookTm K bs.length (f i) (O i))
    (hreads : ∀ i (hi : i < es.length), Reads K (f i) es[i]) (hr : m < r) :
    Yields K τ ((Expr.node s es).den bs.length (Env.values ρ)) r
      (wnfAloNod rt loc ls bs.length book) := by
  obtain ⟨σ, ν, ⟨hsusp, -⟩, -⟩ := h.holding 1
  have hpri : book.tag ≠ .pri := by
    intro he
    rw [he] at hs
    cases hs
  have hari : termArity book = es.length := by
    rw [termArity, if_neg hpri, Shape.arity_of_ofTag hs, hlen]
  have hden : (Expr.node s es).den bs.length (Env.values ρ) =
      s.den (es.map (·.den bs.length (Env.values ρ))) := by
    rw [Expr.den, denAll_eq]
  rw [hden]
  have hfield : ∀ k (hk : k < es.length),
      Suspends K ls (book.val + (0 + k)) bs ρ (O (0 + k)) es[k] m := by
    intro k hk
    rw [Nat.zero_add]
    refine ⟨hsusp.binds, ⟨f k, hf k hk, hbook k hk, hreads k hk⟩, ?_, fun o ho => hsusp.ranks o ?_⟩
    · have hn := hsusp.nesting
      have hle := nesting_le_of_mem (List.getElem_mem hk)
      rw [Expr.nesting] at hn
      omega
    · rw [hari]
      exact Multiset.mem_sum.mpr ⟨k, Finset.mem_range.mpr hk, ho⟩
  have hall := forall₂_suspAll hfield
  have hsum := occToks_sum bs ρ O es.length
  rw [hari] at h
  obtain ⟨r₁, hm₁, h₁⟩ := exists_between hr
  unfold wnfAloNod
  rw [hari]
  cases es with
  | nil =>
    have hnone : ∀ c ∈ ([] : List Claim), c.rank < r := fun c hc => by cases hc
    have hw : Word K book (s.den []) r 0 := .node hp hs hlen hnone
    exact alo_word_yields h (aloCell_not_pins _ _) hw
  | cons e es =>
    obtain ⟨σs, hS, hI⟩ := LinearHeap.Ledger.list_iff.mp h
    obtain ⟨σc, σs₁, hc, hS₁, rfl⟩ := List.forall₂_cons_left_iff.mp hS
    obtain ⟨σo, σs₂, ⟨-, rfl⟩, hnil, rfl⟩ := List.forall₂_cons_left_iff.mp hS₁
    cases hnil
    rw [List.length_cons, List.range'_succ, List.map_cons, List.map_cons, List.zip_cons_cons] at hall
    cases hall with
    | cons hfirst hrest =>
    rw [List.length_cons, List.range'_succ, List.map_cons, List.sum_cons] at hsum
    -- the first field goes to the cell of the ALO, the others to fresh cells
    have h : Has K rt [aloCell loc bs.length, .susp ls book.val bs ρ (O 0) e m]
        (((List.range' 1 es.length).map fun i => occToks bs ρ (O i)).sum + τ) := by
      refine LinearHeap.Ledger.list_iff.mpr ⟨[σc, occToks bs ρ (O 0)],
        .cons hc (.cons hfirst .nil), ?_⟩
      rw [List.sum_cons, List.sum_singleton] at hI ⊢
      rwa [List.length_cons, hsum, ← add_assoc, add_assoc (σc + _)] at hI
    have h := h.aloAt r₁ 0 1 rfl rfl hm₁ (by decide)
    have h := h.keep [2] (by decide) rfl
    obtain ⟨σw, hw, h⟩ := LinearHeap.Ledger.release (S := [])
      (P := [Res.word (termNewAloAt rt loc ls bs.length book.val).2
        (e.den bs.length (Env.values ρ)) r₁]) h
    rw [add_left_comm] at h
    obtain ⟨as, hterm, has, hrank, h⟩ := wnfAloNodArgs_has h hrest hm₁
    have h := LinearHeap.Ledger.restore hw h
    have hzip : (((List.range' 1 es.length).map O).zip es).length = es.length := by simp
    have hsnd : (((List.range' 1 es.length).map O).zip es).map Prod.snd = es :=
      List.map_snd_zip (by simp)
    have hdens : as.map Arg.den = es.map (·.den bs.length (Env.values ρ)) := by
      rw [has, ← hsnd, List.map_map, hsnd]
      rfl
    have hcount : as.length = es.length := by
      rw [← List.length_map (f := Arg.den), hdens, List.length_map]
    rw [hzip] at hterm h
    have hy := newNode_yields book.tag book.ext r
      (⟨(termNewAloAt rt loc ls bs.length book.val).2, e.den bs.length (Env.values ρ), r₁⟩ :: as) h hs
      hp.2 (by rw [List.length_cons, hcount]; exact hlen) (by
        intro a ha
        rcases List.mem_cons.mp ha with rfl | ha
        · exact h₁
        · rw [hrank a ha]
          exact h₁)
    rw [List.map_cons, List.map_cons, hterm, hdens] at hy
    exact hy

/-! ### Binders -/

theorem Env.values_update (ρ : Env) (lvl : Nat) (x : Den × ℚ) :
    Env.values (Function.update ρ lvl x) = Function.update (Env.values ρ) lvl x.1 := by
  funext i
  by_cases h : i = lvl
  · rw [h, Env.values, Function.update_self, Function.update_self]
  · rw [Env.values, Function.update_of_ne h, Function.update_of_ne h]
    rfl

theorem occTok_outer {b : Nat} {x : Den × ℚ} {o : Occ} (ho : o.lvl ≤ bs.length) :
    occTok (b :: bs) (Function.update ρ (bs.length + 1) x) o = occTok bs ρ o := by
  cases o with
  | var lvl =>
    have hl : lvl ≤ bs.length := ho
    rw [occTok, occTok, bindAt_cons_outer hl]
  | cop right lab lvl =>
    have hl : lvl ≤ bs.length := ho
    rw [occTok, occTok, bindAt_cons_outer hl, Function.update_of_ne (by omega)]

/-- Under one more binder `b`, shared with the value and the rank `x`, a body holds the tokens
of its outer references and those of `b`. -/
theorem occToks_cons_le {b lab : Nat} {x : Den × ℚ} {Ob : Multiset Occ}
    (hl : ∀ o ∈ Ob, o.lvl ≤ bs.length + 1)
    (haff : Ob.filter (·.lvl = bs.length + 1) ≤
      {.cop false lab (bs.length + 1)} + {.cop true lab (bs.length + 1)}) :
    occToks (b :: bs) (Function.update ρ (bs.length + 1) x) Ob ≤
      ({.share b (.lab lab x.1 x.2) false} + {.share b (.lab lab x.1 x.2) true}) +
        occToks bs ρ (Ob.filter (·.lvl ≤ bs.length)) := by
  have hsplit : Ob = Ob.filter (·.lvl = bs.length + 1) + Ob.filter (·.lvl ≤ bs.length) := by
    have hh := Multiset.filter_add_not (fun o : Occ => o.lvl = bs.length + 1) Ob
    have hc : Ob.filter (fun o => ¬ o.lvl = bs.length + 1) = Ob.filter (·.lvl ≤ bs.length) := by
      refine Multiset.filter_congr fun o ho => ?_
      have hle := hl o ho
      omega
    rw [hc] at hh
    exact hh.symm
  have hout : occToks (b :: bs) (Function.update ρ (bs.length + 1) x)
      (Ob.filter (·.lvl ≤ bs.length)) = occToks bs ρ (Ob.filter (·.lvl ≤ bs.length)) :=
    Multiset.map_congr rfl fun o ho => occTok_outer (Multiset.mem_filter.mp ho).2
  have hself (right : Bool) :
      occTok (b :: bs) (Function.update ρ (bs.length + 1) x) (.cop right lab (bs.length + 1)) =
        .share b (.lab lab x.1 x.2) right := by
    rw [occTok, bindAt_cons_self, Function.update_self]
  have hmap := Multiset.map_le_map (f := occTok (b :: bs) (Function.update ρ (bs.length + 1) x)) haff
  rw [Multiset.map_add, Multiset.map_singleton, Multiset.map_singleton, hself, hself] at hmap
  conv_lhs => rw [hsplit]
  rw [occToks, Multiset.map_add]
  exact add_le_add hmap hout.le

theorem wnfAloDup_yields {book v b : Term} {ev eb : Expr} {Ov Ob : Multiset Occ}
    (h : Has K rt [aloCell loc bs.length, .susp ls tm bs ρ (Ov + Ob.filter (·.lvl ≤ bs.length))
      (.dup book.ext ev eb) m] τ)
    (hv : K book.val = some (.tm v)) (hb : K (book.val + 1) = some (.tm b))
    (hval : BookTm K bs.length v Ov) (hbody : BookTm K (bs.length + 1) b Ob)
    (haff : Ob.filter (·.lvl = bs.length + 1) ≤
      {.cop false book.ext (bs.length + 1)} + {.cop true book.ext (bs.length + 1)})
    (hev : Reads K v ev) (heb : Reads K b eb) (hr : m < r) :
    ∃ K', K.Le K' ∧ Yields K' τ ((Expr.dup book.ext ev eb).den bs.length (Env.values ρ)) r
      (wnfAloDup rt loc ls bs.length book) := by
  have hne : rt.next ≠ 0 := Nat.ne_of_gt (Nat.lt_of_le_of_lt (Nat.zero_le _) (h.static_lt hb))
  obtain ⟨σ, ν, ⟨hs, -⟩, -⟩ := h.holding 1
  have hnest := hs.nesting
  rw [Expr.nesting] at hnest
  obtain ⟨r₁, hm₁, h₁⟩ := exists_between hr
  have hsv : Suspends K ls book.val bs ρ Ov ev m :=
    ⟨hs.binds, ⟨v, hv, hval, hev⟩, by omega,
      fun o ho => hs.ranks o (Multiset.mem_add.mpr (.inl ho))⟩
  have h := h.alloc₁.alloc₁
  have h := h.recast 1 [.susp ls book.val bs ρ Ov ev m, .refs bs ρ (Ob.filter (·.lvl ≤ bs.length))]
    rfl fun σ hσ => by
      refine ⟨[occToks bs ρ Ov, occToks bs ρ (Ob.filter (·.lvl ≤ bs.length))],
        .cons ⟨hsv, rfl⟩ (.cons rfl .nil), ?_⟩
      rw [hσ.2, List.sum_cons, List.sum_singleton, occToks, occToks, occToks, Multiset.map_add]
  have h := h.aloAt r₁ 0 4 rfl rfl hm₁ (by decide)
  have h := h.store 2 6 rfl rfl (by decide)
  have h := h.write (.tm (termNewNum ls)) 3 rfl
  obtain ⟨hK, h⟩ := h.freeze 8 rfl
  have hbs : Suspends (Function.update K (rt.next + 1) (some (.tm (termNewNum ls)))) rt.next
      (book.val + 1) (rt.next :: bs)
      (Function.update ρ (bs.length + 1) (ev.den bs.length (Env.values ρ), r₁)) Ob eb r₁ := by
    refine ⟨⟨rfl, hne, ls, Function.update_self _ _ _, hs.binds.mono hK⟩,
      ⟨b, hK _ _ hb, hbody.mono hK, heb.mono hK⟩, ?_, fun o ho => ?_⟩
    · rw [List.length_cons]
      omega
    · by_cases hlast : o.lvl = bs.length + 1
      · rw [hlast, Function.update_self]
      · have hle := (hbody.lvl_bounds o ho).2
        rw [Function.update_of_ne hlast]
        have hmem : o ∈ Ob.filter (·.lvl ≤ bs.length) := Multiset.mem_filter.mpr ⟨ho, by omega⟩
        exact (hs.ranks o (Multiset.mem_add.mpr (.inr hmem))).trans hm₁.le
  have h := h.replace₂ 7 5 (by decide) [.susp rt.next (book.val + 1) (rt.next :: bs)
      (Function.update ρ (bs.length + 1) (ev.den bs.length (Env.values ρ), r₁)) Ob eb r₁] rfl rfl
    (by
      rintro σ σ' ν ⟨c, hc, hat, rfl⟩ rfl hI
      have hshared := LinearHeap.Meaning.Inv.share hI
        (.lab book.ext (ev.den bs.length (Env.values ρ)) r₁) fun x σ hx => by
          obtain ⟨t, rfl, hw⟩ := hx.exists_word hat
          rw [hc] at hw
          exact ⟨hw, hw.not_pins⟩
      have hle := occToks_cons_le (ρ := ρ) (b := rt.next)
        (x := (ev.den bs.length (Env.values ρ), r₁)) (fun o ho => (hbody.lvl_bounds o ho).2) haff
      rw [← add_assoc, ← add_assoc] at hshared
      refine ⟨[_], .cons ⟨hbs, rfl⟩ .nil, ?_⟩
      rw [List.sum_singleton]
      refine Linear.weaken hshared hle fun t ht => ?_
      rcases Multiset.mem_add.mp ht with hm | hm
      · rcases Multiset.mem_add.mp hm with hm | hm <;>
          (rw [Multiset.mem_singleton.mp hm]; exact id)
      · exact occToks_not_pins t hm)
  have h := h.aloNew r 9 rfl h₁
  have hd : (Expr.dup book.ext ev eb).den bs.length (Env.values ρ) =
      eb.den (rt.next :: bs).length (Env.values
        (Function.update ρ (bs.length + 1) (ev.den bs.length (Env.values ρ), r₁))) := by
    rw [Expr.den, Env.values_update]
    rfl
  refine ⟨_, hK, ?_⟩
  rw [hd]
  unfold wnfAloDup
  rw [Nat.mod_eq_of_lt (by omega)]
  exact h.yield 10 rfl rfl

end Hvm.Choice
