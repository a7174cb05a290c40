import Hvm.Linear.Registers

/-! Instantiating a layer of a book term keeps the runtime linear. The links of the bind
lists become static cells, so the set of static cells grows. -/

namespace Hvm

open LinearHeap

variable {K K' : Statics} {τ : Toks} {rt : Rt}

/-- The cell of a packed ALO; an ALO without bind list has none. -/
def aloCell (loc len : Nat) : Res := if len = 0 then .nil else .hole loc

theorem Own.openAlo {alo : Term} (h : Has K rt [.word alo] τ) (ht : alo.tag = .alo) :
    ∃ loc ls tm bs O, aloRead rt alo = (loc, ls, tm) ∧ bs.length = alo.ext ∧
      Has K rt [aloCell loc bs.length, .susp ls tm bs O] τ := by
  have hl := h.list_linear
  have hw : WordOk K alo := h.ok 0
  have htoks : wordToks alo = if alo.ext = 0 then 0 else {.own alo.val (.pack alo.ext)} := by
    unfold wordToks
    rw [ht]
  simp only [resToks_cons, resToks_nil, Res.toks, add_zero, htoks] at hl
  by_cases he : alo.ext = 0
  · obtain ⟨b, hb, hbook⟩ := hw.alo ht he
    refine ⟨0, 0, alo.val, [], 0, by rw [aloRead, if_pos he], he.symm, Own.ofList ?_ ?_⟩
    · intro r hr
      simp only [List.mem_cons, List.not_mem_nil, or_false] at hr
      rcases hr with rfl | rfl
      · trivial
      · exact ⟨trivial, b, hb, hbook⟩
    · rw [if_pos he] at hl
      simpa [aloCell, Res.toks, occToks] using hl
  · rw [if_neg he] at hl
    obtain ⟨σ, -, hh, hl'⟩ := LinearHeap.Inv.load hl
    cases hc : rt.heap alo.val with
    | tm w =>
      rw [hc] at hh
      exact hh.elim
    | alo ls tm =>
      rw [hc] at hh
      obtain ⟨bs, O, hlen, hs, rfl⟩ := hh
      refine ⟨alo.val, ls, tm, bs, O, by rw [aloRead, if_neg he, hc], hlen, Own.ofList ?_ ?_⟩
      · intro r hr
        simp only [List.mem_cons, List.not_mem_nil, or_false] at hr
        rcases hr with rfl | rfl
        · rw [aloCell, if_neg (by omega)]
          trivial
        · exact hs
      · rw [aloCell, if_neg (by omega)]
        simpa [Res.toks, add_assoc] using hl'

/-! Variables -/

theorem Own.heap_static {S : List Res} (h : Has K rt S τ) :
    ∀ l c, K l = some c → rt.heap l = c := fun _ _ hc => h.static hc

theorem aloWalk_lvl {S : List Res} (h : Has K rt S τ) {bs : List Nat} {ls lvl : Nat}
    (hb : BindList K ls bs) (h1 : 1 ≤ lvl) (hl : lvl ≤ bs.length) :
    aloWalk rt ls (bs.length - lvl) = bindAt bs lvl ∧ bindAt bs lvl ≠ 0 :=
  aloWalk_eq h.heap_static hb (by omega)

/-- A word that holds just the tokens of the book term replaces the ALO. -/
theorem alo_word_yields {r : Res} {ls tm : Nat} {bs : List Nat} {O : Multiset Occ} {w : Term}
    (h : Has K rt [r, .susp ls tm bs O] τ) (hr : r.pins = false) (hw : WordOk K w)
    (hO : occToks bs O = wordToks w) : Yields K τ (rt, w) := by
  have hle : resToks [.word w] ≤ resToks [r, .susp ls tm bs O] := by
    change wordToks w + 0 ≤ r.toks + (occToks bs O + 0)
    rw [hO]
    exact Multiset.le_add_left _ _
  have hp : ∀ x ∈ [r, .susp ls tm bs O], x.pins = false := by
    intro x hx
    simp only [List.mem_cons, List.not_mem_nil, or_false] at hx
    rcases hx with rfl | rfl
    · exact hr
    · rfl
  have h := h.recast [0, 1] (by decide) [.word w] rfl (by simpa [Res.Ok] using hw) hle hp
  exact h.yield 2 rfl rfl

theorem wnfAloVar_yields {r : Res} {ls tm : Nat} {bs : List Nat} {book : Term}
    (h : Has K rt [r, .susp ls tm bs {.var (u32 book.val)}] τ) (hr : r.pins = false)
    (h1 : 1 ≤ u32 book.val) (hl : u32 book.val ≤ bs.length) :
    Yields K τ (rt, wnfAloVar rt ls bs.length book) := by
  have hs : Suspends K ls tm bs {.var (u32 book.val)} := h.ok 1
  obtain ⟨hw, hne⟩ := aloWalk_lvl h hs.1 h1 hl
  have he : wnfAloVar rt ls bs.length book = termNewVar (bindAt bs (u32 book.val)) := by
    simp only [wnfAloVar]
    rw [if_neg (by omega), hw, if_pos hne]
  rw [he]
  exact alo_word_yields h hr (termNew_ok (by decide) 0 _)
    (by simp [occToks, occTok, wordToks, termNewVar, termNew])

theorem wnfAloCop_yields {r : Res} {ls tm : Nat} {bs : List Nat} {book : Term} {side : Bool}
    (h : Has K rt [r, .susp ls tm bs {.cop side book.ext (u32 book.val)}] τ) (hr : r.pins = false)
    (ht : book.tag.copSide = some side) (h1 : 1 ≤ u32 book.val) (hl : u32 book.val ≤ bs.length) :
    Yields K τ (rt, wnfAloCop rt ls bs.length book) := by
  have hs : Suspends K ls tm bs {.cop side book.ext (u32 book.val)} := h.ok 1
  obtain ⟨hw, hne⟩ := aloWalk_lvl h hs.1 h1 hl
  have htag : (if book.tag = .dp0 ∨ book.tag = .bj0 then Tag.dp0 else Tag.dp1) = dupTag side := by
    cases hb : book.tag <;> simp [hb, Tag.copSide] at ht <;> subst ht <;> rfl
  have he : wnfAloCop rt ls bs.length book =
      termNew false (dupTag side) book.ext (bindAt bs (u32 book.val)) := by
    simp only [wnfAloCop]
    rw [if_neg (by omega), hw, if_pos hne, htag]
  rw [he]
  refine alo_word_yields h hr (termNew_ok (by cases side <;> decide) _ _) ?_
  rw [wordToks_dup rfl]
  simp [occToks, occTok, termNew, labelOf]

/-! Binders -/

/-- A packed pair in a held cell is an ALO word. -/
theorem Linear.pack {ρ : Toks} {loc ls tm : Nat} {bs : List Nat} {O : Multiset Occ}
    {o : Option Cell} (hl : Linear K rt ({.held loc o} + (occToks bs O + ρ)))
    (hs : Suspends K ls tm bs O) (hlen : bs.length ≤ extMask) (h0 : bs.length ≠ 0) :
    Linear K (rt.set loc (.alo ls tm)) (wordToks (termNew false .alo bs.length loc) + ρ) := by
  have hm : bs.length % (extMask + 1) = bs.length := Nat.mod_eq_of_lt (Nat.lt_succ_of_le hlen)
  have hw : wordToks (termNew false .alo bs.length loc) = {.own loc (.pack bs.length)} := by
    simp [wordToks, termNew, hm, h0]
  rw [hw]
  exact LinearHeap.Inv.store hl (.pack bs.length) rfl ⟨bs, O, rfl, hs, rfl⟩ fun _ => occToks_not_pins

theorem packed_ok {len loc : Nat} (hlen : len ≤ extMask) (h0 : len ≠ 0) :
    WordOk K (termNew false .alo len loc) := by
  refine ⟨termNew_plain _ _ _, rfl, fun _ he => (h0 ?_).elim⟩
  have hm : len % (extMask + 1) = len := Nat.mod_eq_of_lt (Nat.lt_succ_of_le hlen)
  simpa [termNew, hm] using he

/-- The ALO of a closed book term. -/
theorem Suspends.closed_ok {ls tm : Nat} {bs : List Nat} {O : Multiset Occ}
    (hs : Suspends K ls tm bs O) (h0 : bs.length = 0) : WordOk K (termNew false .alo 0 tm) := by
  obtain ⟨-, w, hw, hbook⟩ := hs
  rw [h0] at hbook
  obtain rfl := hbook.closed
  exact ⟨termNew_plain _ _ _, rfl, fun _ _ => ⟨w, hw, hbook⟩⟩

/-- `termNewAloAt` on the cell of the ALO it replaces. -/
theorem Own.aloAt {n : Nat} {R : File} (h : Own K rt n R τ) (i j : Nat) {loc ls tm : Nat}
    {bs : List Nat} {O : Multiset Occ} (hi : R i = aloCell loc bs.length)
    (hj : R j = .susp ls tm bs O) (hlen : bs.length ≤ extMask) (hn : [i, j].Nodup) :
    Own K (termNewAloAt rt loc ls bs.length tm).1 (n + 1)
      ((R.clear [i, j]).add n [.word (termNewAloAt rt loc ls bs.length tm).2]) τ := by
  have hs : Suspends K ls tm bs O := by
    have hh := h.ok j
    rwa [hj] at hh
  by_cases h0 : bs.length = 0
  · rw [aloCell, if_pos h0] at hi
    rw [termNewAloAt, if_pos h0]
    refine h.recast [i, j] hn (G := [.nil, .susp ls tm bs O]) [.word (termNew false .alo 0 tm)]
      (by simp [hi, hj]) (by simpa [Res.Ok] using hs.closed_ok h0) ?_ (by simp [Res.pins])
    simpa [Res.toks, wordToks, termNew] using Multiset.zero_le _
  · rw [aloCell, if_neg h0] at hi
    rw [termNewAloAt, if_neg h0]
    refine h.replace [i, j] hn (G := [.hole loc, .susp ls tm bs O])
      [.word (termNew false .alo bs.length loc)] (by simp [hi, hj])
      (by simpa [Res.Ok] using packed_ok hlen h0) fun ρ hl => ?_
    simp only [resToks_cons, resToks_nil, Res.toks, add_zero, add_assoc] at hl ⊢
    exact hl.pack hs hlen h0

theorem Own.aloNew {n : Nat} {R : File} (h : Own K rt n R τ) (j : Nat) {ls tm : Nat}
    {bs : List Nat} {O : Multiset Occ} (hj : R j = .susp ls tm bs O) (hlen : bs.length ≤ extMask) :
    Own K (termNewAlo rt ls bs.length tm).1 (n + 1)
      ((R.clear [j]).add n [.word (termNewAlo rt ls bs.length tm).2]) τ := by
  have hs : Suspends K ls tm bs O := by
    have hh := h.ok j
    rwa [hj] at hh
  by_cases h0 : bs.length = 0
  · rw [termNewAlo, if_pos h0]
    refine h.recast [j] (List.nodup_singleton j) (G := [.susp ls tm bs O])
      [.word (termNew false .alo 0 tm)] (by simp [hj])
      (by simpa [Res.Ok] using hs.closed_ok h0) ?_ (by simp [Res.pins])
    simpa [Res.toks, wordToks, termNew] using Multiset.zero_le _
  · rw [termNewAlo, if_neg h0]
    refine h.replace [j] (List.nodup_singleton j) (G := [.susp ls tm bs O])
      [.word (termNew false .alo bs.length rt.next)] (by simp [hj])
      (by simpa [Res.Ok] using packed_ok hlen h0) fun ρ hl => ?_
    have hl' := hl.alloc 1
    simp only [resToks_cons, resToks_nil, Res.toks, List.range'_one, List.map_cons, List.map_nil,
      List.sum_cons, List.sum_nil, add_zero] at hl' ⊢
    exact hl'.pack hs hlen h0

/-! Nodes -/

/-- The ALOs of the fields `i, i + 1, ..` of a book node. -/
theorem wnfAloNodArgs_linear {ls loc : Nat} {bs : List Nat} {O : Nat → Multiset Occ} {n i : Nat}
    {ρ : Toks} (hlen : bs.length ≤ extMask)
    (hs : ∀ k, i ≤ k → k < i + n → Suspends K ls (loc + k) bs (O k))
    (hl : Linear K rt (((List.range' i n).map fun k => occToks bs (O k)).sum + ρ)) :
    let r := wnfAloNodArgs rt ls bs.length loc i n
    Linear K r.1 ((r.2.map wordToks).sum + ρ) ∧ (∀ t ∈ r.2, WordOk K t) ∧ r.2.length = n := by
  induction n generalizing rt i ρ with
  | zero => exact ⟨by simpa [wnfAloNodArgs] using hl, by simp [wnfAloNodArgs], rfl⟩
  | succ n ih =>
    rw [List.range'_succ, List.map_cons, List.sum_cons, add_assoc] at hl
    have h : Has K rt [.susp ls (loc + i) bs (O i)]
        (((List.range' (i + 1) n).map fun k => occToks bs (O k)).sum + ρ) := by
      refine Own.ofList ?_ (by simpa [Res.toks] using hl)
      simpa [Res.Ok] using hs i (Nat.le_refl i) (by omega)
    have h := h.aloNew 0 rfl hlen
    have hw : WordOk K (termNewAlo rt ls bs.length (loc + i)).2 := h.ok 1
    have hl' := (h.yield 1 rfl rfl).list_linear
    have he : resToks [.word (termNewAlo rt ls bs.length (loc + i)).2] +
        (((List.range' (i + 1) n).map fun k => occToks bs (O k)).sum + ρ) =
        ((List.range' (i + 1) n).map fun k => occToks bs (O k)).sum +
          (wordToks (termNewAlo rt ls bs.length (loc + i)).2 + ρ) := by
      simp only [resToks_cons, resToks_nil, Res.toks, add_zero]
      abel
    rw [he] at hl'
    obtain ⟨hr, hok, hn⟩ := ih (fun k h1 h2 => hs k (by omega) (by omega)) hl'
    refine ⟨?_, ?_, by rw [wnfAloNodArgs, List.length_cons, hn]⟩
    · rw [wnfAloNodArgs, List.map_cons, List.sum_cons]
      have he' : wordToks (termNewAlo rt ls bs.length (loc + i)).2 + ((wnfAloNodArgs
          (termNewAlo rt ls bs.length (loc + i)).1 ls bs.length loc (i + 1) n).2.map wordToks).sum
          + ρ = ((wnfAloNodArgs (termNewAlo rt ls bs.length (loc + i)).1 ls bs.length loc (i + 1)
          n).2.map wordToks).sum + (wordToks (termNewAlo rt ls bs.length (loc + i)).2 + ρ) := by
        abel
      rw [he']
      exact hr
    · intro t ht
      rw [wnfAloNodArgs] at ht
      rcases List.mem_cons.mp ht with rfl | hm
      · exact hw
      · exact hok t hm

theorem Tag.isNode_owns {tag : Tag} (h : tag.isNode = true) : tag.owns = true := by
  cases tag <;> first | rfl | cases h

theorem sum_range_eq_range' (O : Nat → Multiset Occ) (n a : Nat) :
    ∑ i ∈ Finset.range n, O (a + i) = ((List.range' a n).map O).sum := by
  induction n generalizing a with
  | zero => rfl
  | succ n ih =>
    have hh : ∑ i ∈ Finset.range n, O (a + (i + 1)) = ∑ i ∈ Finset.range n, O (a + 1 + i) :=
      Finset.sum_congr rfl fun i _ => by congr 1; omega
    rw [Finset.sum_range_succ', hh, ih, List.range'_succ, List.map_cons, List.sum_cons, add_comm]
    rfl

theorem wnfAloNod_yields {loc ls tm : Nat} {bs : List Nat} {book : Term} {f : Nat → Term}
    {O : Nat → Multiset Occ}
    (h : Has K rt [aloCell loc bs.length,
      .susp ls tm bs (∑ i ∈ Finset.range (termArity book), O i)] τ)
    (hp : book.Plain) (ht : book.tag.isNode) (hlen : bs.length ≤ extMask)
    (hf : ∀ i, i < termArity book → K (book.val + i) = some (.tm (f i)))
    (hargs : ∀ i, i < termArity book → BookTm K bs.length (f i) (O i)) :
    Yields K τ (wnfAloNod rt loc ls bs.length book) := by
  have ho := Tag.isNode_owns ht
  have hs : Suspends K ls tm bs (∑ i ∈ Finset.range (termArity book), O i) := h.ok 1
  have hfield : ∀ k, k < termArity book → Suspends K ls (book.val + k) bs (O k) :=
    fun k hk => ⟨hs.1, f k, hf k hk, hargs k hk⟩
  unfold wnfAloNod
  rcases hn : termArity book with _ | n
  · refine alo_word_yields h ?_ (.of_word hp (Tag.word_of_owns ho)) ?_
    · unfold aloCell
      split <;> rfl
    · simp [hn, occToks, wordToks_of_owns ho, cellToks]
  · rw [hn] at h hfield
    have hsum : ∑ i ∈ Finset.range (n + 1), O i = O 0 + ((List.range' 1 n).map O).sum := by
      have hh := sum_range_eq_range' O (n + 1) 0
      simpa [List.range'_succ] using hh
    have hmap : occToks bs ((List.range' 1 n).map O).sum =
        ((List.range' 1 n).map fun k => occToks bs (O k)).sum := by
      rw [occToks, ← Multiset.coe_mapAddMonoidHom, map_list_sum, List.map_map]
      rfl
    rw [hsum] at h
    have h := h.recast [1] (by decide) (G := [.susp ls tm bs (O 0 + ((List.range' 1 n).map O).sum)])
      [.susp ls book.val bs (O 0), .refs bs ((List.range' 1 n).map O).sum] rfl
      (by simpa [Res.Ok] using hfield 0 (by omega)) (by simp [Res.toks, occToks])
      (by simp [Res.pins])
    have h := h.aloAt 0 2 rfl rfl hlen (by decide)
    have ha : WordOk K (termNewAloAt rt loc ls bs.length book.val).2 := h.ok 4
    have hl := (h.keep [3, 4] (by decide) rfl).list_linear
    have he : resToks [.refs bs ((List.range' 1 n).map O).sum,
        .word (termNewAloAt rt loc ls bs.length book.val).2] + τ =
        ((List.range' 1 n).map fun k => occToks bs (O k)).sum +
          (wordToks (termNewAloAt rt loc ls bs.length book.val).2 + τ) := by
      simp only [resToks_cons, resToks_nil, Res.toks, hmap, add_zero, add_assoc]
    obtain ⟨hl', hok, hlenA⟩ := wnfAloNodArgs_linear hlen
      (fun k _ hk => hfield k (by omega)) (he ▸ hl)
    generalize hA : wnfAloNodArgs (termNewAloAt rt loc ls bs.length book.val).1 ls bs.length
      book.val 1 n = A at hl' hok hlenA
    dsimp only
    rw [if_neg (Nat.succ_ne_zero n), Nat.add_sub_cancel, hA]
    have hcons : (A.2.map wordToks).sum + (wordToks (termNewAloAt rt loc ls bs.length book.val).2 + τ)
        = (((termNewAloAt rt loc ls bs.length book.val).2 :: A.2).map wordToks).sum + τ := by
      rw [List.map_cons, List.sum_cons]
      abel
    rw [hcons] at hl'
    refine Own.ofWord (termNew_ok (Tag.word_of_owns ho) _ _) (hl'.newNode ?_ ho ?_)
    · intro t ht
      rcases List.mem_cons.mp ht with rfl | hm
      · exact ha
      · exact hok t hm
    · rw [termArity_termNew hp, hn, List.length_cons, hlenA]

/-! Binders -/

/-- A binder cell gets the packed body at `loc`, which takes the binder's use. The heap
already holds what is bound. -/
theorem Linear.bindBody {loc bind tm : Nat} {bs : List Nat} {O O' : Multiset Occ} {ρ : Toks}
    {o o' : Option Cell}
    (hl : Linear K rt ({.held bind o} + ({.held loc o'} + (occToks bs O' + ρ))))
    (hs : Suspends K bind tm (bind :: bs) O)
    (hle : occToks (bind :: bs) O ≤ {.use bind .term} + occToks bs O')
    (hlen : bs.length + 1 ≤ extMask) (hloc : rt.heap loc = .alo bind tm)
    (hbind : rt.heap bind = .tm (termNew false .alo (bs.length + 1) loc)) :
    Linear K rt ({.bind bind .term} + ρ) := by
  have hnew := LinearHeap.Inv.bindNew hl .term
  have he : {.bindHeld bind .term} + ({.use bind .term} + ({.held loc o'} +
      (occToks bs O' + ρ))) = {.use bind .term} + occToks bs O' +
        ({.held loc o'} + ({.bindHeld bind .term} + ρ)) := by
    abel
  rw [he] at hnew
  have hweak : Linear K rt (occToks (bind :: bs) O +
      ({.held loc o'} + ({.bindHeld bind .term} + ρ))) := by
    refine Linear.weaken hnew hle fun t ht => ?_
    rcases Multiset.mem_add.mp ht with hm | hm
    · rw [Multiset.mem_singleton.mp hm]
      exact id
    · exact occToks_not_pins hm
  rw [add_left_comm] at hweak
  have hpack := Linear.pack hweak hs hlen (Nat.succ_ne_zero _)
  rw [set_eq_self hloc, add_left_comm] at hpack
  have hfill : Linear K (rt.set bind (.tm (termNew false .alo (bs.length + 1) loc)))
      ({.bind bind .term} + ρ) :=
    LinearHeap.Inv.bindFill hpack rfl ⟨packed_ok hlen (Nat.succ_ne_zero _), rfl⟩
      fun _ => wordToks_not_pins
  rwa [set_eq_self hbind] at hfill

/-- The words `wnfAloLam` writes, once its cells are at hand: the ALO of the body at
`loc`, the binder at `bind` and its link to the outer bind list. -/
def aloLamAt (rt : Rt) (loc bind ls len : Nat) (book : Term) : Rt × Term :=
  let a := termNew false .alo (len + 1) loc
  let rt := rt.set loc (.alo bind book.val)
  let rt := heapSet rt bind a
  (heapSet rt (bind + 1) (termNewNum ls), termNew false .lam book.ext bind)

theorem aloLamAt_yields {loc bind ls tm : Nat} {bs : List Nat} {book b : Term} {O : Multiset Occ}
    (h : Has K rt [.hole loc, .hole bind, .hole (bind + 1),
      .susp ls tm bs (O.filter (·.lvl ≤ bs.length))] τ)
    (hb : K book.val = some (.tm b)) (hbody : BookTm K (bs.length + 1) b O)
    (haff : O.filter (·.lvl = bs.length + 1) ≤ {.var (bs.length + 1)})
    (hlen : bs.length + 1 ≤ extMask) (hne : bind ≠ 0) :
    ∃ K', K.Le K' ∧ Yields K' τ (aloLamAt rt loc bind ls bs.length book) := by
  have hs : Suspends K ls tm bs (O.filter (·.lvl ≤ bs.length)) := h.ok 3
  have h := h.write (.alo bind book.val) 0 rfl
  have h := h.write (.tm (termNew false .alo (bs.length + 1) loc)) 1 rfl
  have h := h.write (.tm (termNewNum ls)) 2 rfl
  have hloc := h.filled_eq 4 rfl
  have hbind := h.filled_eq 5 rfl
  obtain ⟨hK, h⟩ := h.freeze 6 rfl
  have hs' : Suspends (Function.update K (bind + 1) (some (.tm (termNewNum ls)))) bind book.val
      (bind :: bs) O :=
    ⟨⟨rfl, hne, ls, Function.update_self _ _ _, hs.1.mono hK⟩, b, hK _ _ hb, hbody.mono hK⟩
  have hle : occToks (bind :: bs) O ≤
      {.use bind .term} + occToks bs (O.filter (·.lvl ≤ bs.length)) := by
    have hh := occToks_cons_le bs bind (fun o ho => (hbody.lvl_bounds o ho).2) haff
    simpa [occToks, occTok] using hh
  refine ⟨_, hK, Own.ofWord (termNew_ok (by decide) _ _) ?_⟩
  have hl := (h.keep [5, 4, 3] (by decide) rfl).list_linear
  have he : resToks [.filled bind (.tm (termNew false .alo (bs.length + 1) loc)),
      .filled loc (.alo bind book.val), .susp ls tm bs (O.filter (·.lvl ≤ bs.length))] + τ =
      {.held bind (some (.tm (termNew false .alo (bs.length + 1) loc)))} +
        ({.held loc (some (.alo bind book.val))} +
          (occToks bs (O.filter (·.lvl ≤ bs.length)) + τ)) := by
    simp only [resToks_cons, resToks_nil, Res.toks, add_zero, add_assoc]
  exact Linear.bindBody (he ▸ hl) hs' hle hlen hloc hbind

theorem wnfAloLam_yields {loc ls tm : Nat} {bs : List Nat} {book b : Term} {O : Multiset Occ}
    (h : Has K rt [aloCell loc bs.length, .susp ls tm bs (O.filter (·.lvl ≤ bs.length))] τ)
    (hb : K book.val = some (.tm b)) (hbody : BookTm K (bs.length + 1) b O)
    (haff : O.filter (·.lvl = bs.length + 1) ≤ {.var (bs.length + 1)})
    (hlen : bs.length + 1 ≤ extMask) :
    ∃ K', K.Le K' ∧ Yields K' τ (wnfAloLam rt loc ls bs.length book) := by
  have hne : rt.next ≠ 0 := Nat.ne_of_gt (Nat.lt_of_le_of_lt (Nat.zero_le _) (h.static_lt hb))
  unfold wnfAloLam
  by_cases h0 : bs.length = 0
  · obtain rfl : bs = [] := List.eq_nil_of_length_eq_zero h0
    have h : Has K rt [.nil, .susp ls tm [] (O.filter (·.lvl ≤ 0))] τ := h
    have h := h.alloc₁.alloc₁.alloc₁
    have h := h.keep [4, 2, 3, 1] (by decide) rfl
    exact aloLamAt_yields h hb hbody haff hlen hne
  · rw [aloCell, if_neg h0] at h
    have h := h.alloc₁.alloc₁
    have h := h.keep [0, 2, 3, 1] (by decide) rfl
    dsimp only
    rw [if_pos (Nat.pos_of_ne_zero h0)]
    exact aloLamAt_yields h hb hbody haff hlen hne

/-- The C code keeps 16 bits of the length of the bind list here. -/
theorem wnfAloDup_yields {loc ls tm : Nat} {bs : List Nat} {book v b : Term}
    {Ov Ob : Multiset Occ}
    (h : Has K rt [aloCell loc bs.length, .susp ls tm bs (Ov + Ob.filter (·.lvl ≤ bs.length))] τ)
    (hv : K book.val = some (.tm v)) (hb : K (book.val + 1) = some (.tm b))
    (hval : BookTm K bs.length v Ov) (hbody : BookTm K (bs.length + 1) b Ob)
    (haff : Ob.filter (·.lvl = bs.length + 1) ≤
      {.cop false book.ext (bs.length + 1)} + {.cop true book.ext (bs.length + 1)})
    (hlen : bs.length < 2 ^ 16) :
    ∃ K', K.Le K' ∧ Yields K' τ (wnfAloDup rt loc ls bs.length book) := by
  have hne : rt.next ≠ 0 := Nat.ne_of_gt (Nat.lt_of_le_of_lt (Nat.zero_le _) (h.static_lt hb))
  have hs : Suspends K ls tm bs (Ov + Ob.filter (·.lvl ≤ bs.length)) := h.ok 1
  have hmask : bs.length + 1 ≤ extMask := by
    rw [extMask]
    omega
  have h := h.alloc₁.alloc₁
  have h := h.recast [1] (by decide) (G := [.susp ls tm bs (Ov + Ob.filter (·.lvl ≤ bs.length))])
    [.susp ls book.val bs Ov, .refs bs (Ob.filter (·.lvl ≤ bs.length))] rfl
    (by simpa [Res.Ok] using ⟨hs.1, v, hv, hval⟩) (by simp [Res.toks, occToks]) (by simp [Res.pins])
  have h := h.aloAt 0 4 rfl rfl (by omega) (by decide)
  have h := h.store 2 6 rfl rfl (by decide)
  have h := h.write (.tm (termNewNum ls)) 3 rfl
  have h := h.share book.ext 7 rfl
  obtain ⟨hK, h⟩ := h.freeze 8 rfl
  have hs' : Suspends (Function.update K (rt.next + 1) (some (.tm (termNewNum ls)))) rt.next
      (book.val + 1) (rt.next :: bs) Ob :=
    ⟨⟨rfl, hne, ls, Function.update_self _ _ _, hs.1.mono hK⟩, b, hK _ _ hb, hbody.mono hK⟩
  have hle : occToks (rt.next :: bs) Ob ≤
      occToks bs (Ob.filter (·.lvl ≤ bs.length)) +
        ({.share rt.next (.lab (labelOf book.ext)) false} +
          {.share rt.next (.lab (labelOf book.ext)) true}) := by
    have hh := occToks_cons_le bs rt.next (fun o ho => (hbody.lvl_bounds o ho).2) haff
    rw [add_comm]
    simpa [occToks, occTok] using hh
  have h := h.recast [5, 9, 10] (by decide) (G := [.refs bs (Ob.filter (·.lvl ≤ bs.length)),
      .word (termNewDp0 book.ext rt.next), .word (termNewDp1 book.ext rt.next)])
    [.susp rt.next (book.val + 1) (rt.next :: bs) Ob] rfl (by simpa [Res.Ok] using hs')
    (by simpa [Res.toks, wordToks, termNewDp0, termNewDp1, termNew, labelOf] using hle) (by simp [Res.pins])
  have h := h.aloNew 11 rfl hmask
  refine ⟨_, hK, ?_⟩
  have hy := h.yield 12 rfl rfl
  unfold wnfAloDup
  rw [Nat.mod_eq_of_lt hlen]
  exact hy

end Hvm
