import Hvm.Choice.Registers

/-! Every interaction of first-order terms keeps the value of what it rewrites. The registers
at the start of a rule are those of its frame, then the reduced word. -/

namespace Hvm.Choice

open Oracle

variable {K : Statics} {τ : Toks} {rt : Rt} {S : List Res} {m r : ℚ} {dx dy d : Den}

theorem imm_yields (h : Has K rt S τ)
    (hp : (List.range S.length).all (fun i => !(spend (LinearHeap.Slots.ofList .nil S) [] i).pins) =
      true) {w : Term} (hw : Word K w d r 0) : Yields K τ d r (rt, w) := by
  have h := h.keep [] List.nodup_nil hp
  have h := h.imm hw
  exact h.yield 0 rfl rfl

theorem wnfEra_yields (h : Has K rt S τ)
    (hp : (List.range S.length).all (fun i => !(spend (LinearHeap.Slots.ofList .nil S) [] i).pins) =
      true) : Yields K τ (fun _ => .era) r (wnfEra rt) :=
  imm_yields h.tick hp (.era (termNew_plain _ _ _) rfl)

theorem numWord {v : Nat} (hv : v < 2 ^ 32) : Word K (termNewNum v) (fun _ => .num v) r 0 :=
  .num (termNew_plain _ _ _) rfl hv

theorem num_yields (h : Has K rt S τ)
    (hp : (List.range S.length).all (fun i => !(spend (LinearHeap.Slots.ofList .nil S) [] i).pins) =
      true) {v : Nat} (hv : v < 2 ^ 32) : Yields K τ (fun _ => .num v) r (rt.tick, termNewNum v) :=
  imm_yields h.tick hp (numWord hv)

/-! ### Numeric operators -/

theorem wnfOp2Sup_yields {loc opr : Nat} {sup : Term}
    (h : Has K rt [.hole loc, .cell (loc + 1) dy m, .word sup dx m] τ) (ht : sup.tag = .sup)
    (hopr : opr ≤ extMask) (hr : m < r) :
    Yields K τ ((Shape.op2 opr).den [dx, dy]) r
      (wnfOp2Sup rt loc opr sup (heapRead rt (loc + 1))) := by
  have hlab := (h.plain 2 rfl).2
  obtain ⟨r₂, hm₂, h₂⟩ := exists_between hr
  obtain ⟨r₁, hm₁, h₁⟩ := exists_between hm₂
  have h := h.tick.load 1 rfl
  have h := h.clone sup.ext r₁ 4 rfl hlab hm₁
  obtain ⟨a, b, k, ⟨hk, rfl⟩, h⟩ := h.open₂ 2 rfl (s := .sup sup.ext) (by rw [ht]; rfl) rfl
  have h := h.load 7 rfl
  have h := h.newAt .op2 opr r₂ 0 3 10 5 rfl rfl rfl rfl rfl hopr rfl (hk.trans hm₂) h₁ (by decide)
  have h := h.load 8 rfl
  have h := h.newNode₂ .op2 opr r₂ 13 6 rfl rfl rfl hopr rfl (hk.trans hm₂) h₁ (by decide)
  have h := h.newAt .sup sup.ext r 9 12 11 14 rfl rfl rfl rfl rfl hlab rfl h₂ h₂ (by decide)
  rw [Shape.den_sup_left rfl]
  exact h.yield 15 rfl rfl

theorem wnfOp2NumSup_yields {opr v : Nat} {sup : Term} (h : Has K rt [.word sup d m] τ)
    (ht : sup.tag = .sup) (hopr : opr ≤ extMask) (hv : v < 2 ^ 32) (hr : m < r) :
    Yields K τ ((Shape.op2 opr).den [fun _ => .num v, d]) r
      (wnfOp2NumSup rt opr (termNewNum v) sup) := by
  have hlab := (h.plain 0 rfl).2
  obtain ⟨r₁, hm₁, h₁⟩ := exists_between hr
  obtain ⟨a, b, k, ⟨hk, rfl⟩, h⟩ := h.tick.open₂ 0 rfl (s := .sup sup.ext) (by rw [ht]; rfl) rfl
  have hk₁ := hk.trans hm₁
  have h := h.load 1 rfl
  have h := h.imm (numWord (r := m) hv)
  have h := h.newNode₂ .op2 opr r₁ 5 4 rfl rfl rfl hopr rfl hm₁ hk₁ (by decide)
  have h := h.load 2 rfl
  have h := h.imm (numWord (r := m) hv)
  have h := h.newNode₂ .op2 opr r₁ 9 8 rfl rfl rfl hopr rfl hm₁ hk₁ (by decide)
  have h := h.newAt .sup sup.ext r 3 7 6 10 rfl rfl rfl rfl rfl hlab rfl h₁ h₁ (by decide)
  rw [Shape.den_sup_right rfl]
  exact h.yield 11 rfl rfl

theorem wnfOp2IncX_yields {loc opr : Nat} {inc : Term}
    (h : Has K rt [.hole loc, .cell (loc + 1) dy m, .word inc dx m] τ) (ht : inc.tag = .inc)
    (hopr : opr ≤ extMask) (hr : m < r) :
    Yields K τ ((Shape.op2 opr).den [dx, dy]) r
      (wnfOp2IncX rt opr inc (heapRead rt (loc + 1))) := by
  have hp := h.plain 2 rfl
  have hs : Shape.ofTag inc.tag inc.ext = some .inc := by rw [ht]; rfl
  obtain ⟨r₁, hm₁, h₁⟩ := exists_between hr
  have h := h.tick.load 1 rfl
  obtain ⟨e, k, ⟨hk, rfl⟩, h⟩ := h.open₁ 2 rfl hs rfl
  have h := h.load 5 rfl
  have h := h.newNode₂ .op2 opr r₁ 7 4 rfl rfl rfl hopr rfl (hk.trans hm₁) hm₁ (by decide)
  have h := h.store 6 8 rfl rfl (by decide)
  have h := h.close₁ r 9 rfl hp hs rfl h₁
  exact h.yield 10 rfl rfl

theorem wnfOp2IncY_yields {opr v : Nat} {inc : Term} (h : Has K rt [.word inc d m] τ)
    (ht : inc.tag = .inc) (hopr : opr ≤ extMask) (hv : v < 2 ^ 32) (hr : m < r) :
    Yields K τ ((Shape.op2 opr).den [fun _ => .num v, d]) r
      (wnfOp2IncY rt opr (termNewNum v) inc) := by
  have hp := h.plain 0 rfl
  have hs : Shape.ofTag inc.tag inc.ext = some .inc := by rw [ht]; rfl
  obtain ⟨r₁, hm₁, h₁⟩ := exists_between hr
  obtain ⟨e, k, ⟨hk, rfl⟩, h⟩ := h.tick.open₁ 0 rfl hs rfl
  have h := h.load 1 rfl
  have h := h.imm (numWord (r := m) hv)
  have h := h.newNode₂ .op2 opr r₁ 4 3 rfl rfl rfl hopr rfl hm₁ (hk.trans hm₁) (by decide)
  have h := h.store 2 5 rfl rfl (by decide)
  have h := h.close₁ r 6 rfl hp hs rfl h₁
  exact h.yield 7 rfl rfl

/-! ### Duplication -/

section Dup

variable {loc lab : Nat} {right : Bool} {t : Term}

/-- A term without fields is its own copy. -/
theorem wnfDupNam_yields (h : Has K rt [.taken loc lab right d m, .word t d m] τ)
    (hw : ∀ b k, Word K t (side lab b d) k 0) : Yields K τ (side lab right d) r (wnfDupNam rt loc t) := by
  have h := h.tick.imm (hw (!right) m)
  have h := h.fire 0 2 rfl rfl (by decide)
  have h := h.imm (hw right r)
  exact h.yield 3 rfl rfl

theorem wnfDupSup_yields (h : Has K rt [.taken loc lab right d m, .word t d m] τ)
    (ht : t.tag = .sup) (hlab : lab ≤ extMask) (hr : m < r) :
    Yields K τ (side lab right d) r (wnfDupSup rt lab loc right t) := by
  have hext := (h.plain 1 rfl).2
  obtain ⟨a, b, k, ⟨hk, rfl⟩, h⟩ := h.tick.open₂ 1 rfl (s := .sup t.ext) (by rw [ht]; rfl) rfl
  have hside (x : Bool) : side t.ext x ((Shape.sup t.ext).den [a, b]) = if x then b else a :=
    side_choice
  unfold wnfDupSup
  by_cases he : lab = t.ext
  · rw [if_pos he]
    subst he
    have h := h.load 2 rfl
    have h := h.load 3 rfl
    rw [hside]
    cases right with
    | false =>
      have h := h.weaken m 7 rfl hk.le
      have h := h.weaken r 5 rfl (hk.trans hr).le
      have h := h.fire 0 8 rfl (by rw [hside]; rfl) (by decide)
      exact h.yield 9 rfl rfl
    | true =>
      have h := h.weaken m 5 rfl hk.le
      have h := h.weaken r 7 rfl (hk.trans hr).le
      have h := h.fire 0 8 rfl (by rw [hside]; rfl) (by decide)
      exact h.yield 9 rfl rfl
  · rw [if_neg he]
    have hne : t.ext ≠ lab := fun h => he h.symm
    have hside (x : Bool) : side lab x ((Shape.sup t.ext).den [a, b]) =
        (Shape.sup t.ext).den [side lab x a, side lab x b] := side_choice_of_ne hne
    obtain ⟨r₁, hk₁, h₁⟩ := exists_between hk
    have h := h.alloc₁.alloc₁.alloc₁.alloc₁
    have h := h.share lab r₁ 2 rfl hlab hk₁
    have h := h.share lab r₁ 3 rfl hlab hk₁
    rw [hside]
    cases right with
    | false =>
      have h := h.newAt .sup t.ext r 4 5 8 10 rfl rfl rfl rfl rfl hext rfl (h₁.trans hr)
        (h₁.trans hr) (by decide)
      have h := h.newAt .sup t.ext m 6 7 9 11 rfl rfl rfl rfl rfl hext rfl h₁ h₁ (by decide)
      have h := h.fire 0 13 rfl (by rw [hside]; rfl) (by decide)
      exact h.yield 12 rfl rfl
    | true =>
      have h := h.newAt .sup t.ext m 4 5 8 10 rfl rfl rfl rfl rfl hext rfl h₁ h₁ (by decide)
      have h := h.newAt .sup t.ext r 6 7 9 11 rfl rfl rfl rfl rfl hext rfl (h₁.trans hr)
        (h₁.trans hr) (by decide)
      have h := h.fire 0 12 rfl (by rw [hside]; rfl) (by decide)
      exact h.yield 13 rfl rfl

/-- The fields of a node become dup cells in place. -/
theorem wnfDupNodFields_has {node r0 r1 i : Nat} {ds : List Den} (hlab : lab ≤ extMask)
    (hr : m < r)
    (h : Has K rt [.cells (node + i) ds m, .holes (r0 + i) ds.length, .holes (r1 + i) ds.length] τ) :
    Has K (wnfDupNodFields rt lab node r0 r1 i ds.length)
      [.cells (r0 + i) (ds.map (side lab false)) r, .cells (r1 + i) (ds.map (side lab true)) r] τ := by
  induction ds generalizing rt i τ with
  | nil =>
    have h := h.noCells (r0 + i) r
    have h := h.noCells (r1 + i) r
    exact h.keep [3, 4] (by decide) rfl
  | cons d ds ih =>
    have h := h.splitCell 0 rfl
    have h := h.share lab r 3 rfl hlab hr
    have h := h.splitHole 1 rfl
    have h := h.splitHole 2 rfl
    have h := h.store 7 5 rfl rfl (by decide)
    have h := h.store 9 6 rfl rfl (by decide)
    obtain ⟨σs, hS, h⟩ := LinearHeap.Ledger.release
      (P := [Res.cell (r0 + i) (side lab false d) r, Res.cell (r1 + i) (side lab true d) r])
      (h.keep [11, 12, 4, 8, 10] (by decide) rfl)
    have h := LinearHeap.Ledger.restore hS (ih (i := i + 1) h)
    have h := Own.joinCells h 0 2 rfl rfl (by decide)
    have h := h.joinCells 1 3 rfl rfl (by decide)
    exact h.keep [4, 5] (by decide) rfl

theorem wnfDupNod_yields {s : Shape} (h : Has K rt [.taken loc lab right d m, .word t d m] τ)
    (hs : Shape.ofTag t.tag t.ext = some s) (hsup : s.isSup = false) (hlab : lab ≤ extMask)
    (hr : m < r) : Yields K τ (side lab right d) r (wnfDupNod rt lab loc right t) := by
  have hp := h.plain 1 rfl
  have hari : termArity t = s.arity := by
    have hpri : t.tag ≠ .pri := by
      intro he
      rw [he] at hs
      cases hs
    rw [termArity, if_neg hpri, Shape.arity_of_ofTag hs]
  obtain ⟨ds, k, ⟨hk, hlen, rfl⟩, h'⟩ := h.tick.openNode 1 rfl hs
  unfold wnfDupNod
  by_cases ha : termArity t = 0
  · rw [if_pos ha]
    obtain rfl : ds = [] := List.eq_nil_of_length_eq_zero (by rw [hlen, ← hari, ha])
    refine wnfDupNam_yields h fun b q => ?_
    rw [Shape.side_den hsup]
    have hnone : ∀ c ∈ ([] : List Claim), c.rank < q := fun c hc => by cases hc
    exact Word.node hp hs (by rw [← hari, ha]; rfl) hnone
  · rw [if_neg ha]
    have hside (x : Bool) : s.den (ds.map (side lab x)) = side lab x (s.den ds) :=
      (Shape.side_den hsup lab x ds).symm
    have hnew (l : Nat) : Shape.ofTag (termNew false t.tag t.ext l).tag
        (termNew false t.tag t.ext l).ext = some s := by
      have hext : (termNew false t.tag t.ext l).ext = t.ext :=
        Nat.mod_eq_of_lt (Nat.lt_succ_of_le hp.2)
      rw [hext]
      exact hs
    have hlen' (x : Bool) : (ds.map (side lab x)).length = s.arity := by rw [List.length_map, hlen]
    have ht : termArity t = ds.length := by rw [hlen, hari]
    obtain ⟨r₁, hk₁, h₁⟩ := exists_between hk
    dsimp only
    rw [ht]
    have h := h'.alloc (2 * ds.length)
    have h := h.splitHoles ds.length ds.length 3 (by rw [← Nat.two_mul]; rfl)
    obtain ⟨σs, hS, h⟩ := LinearHeap.Ledger.release (P := [Res.taken loc lab right (s.den ds) m])
      (h.keep [0, 2, 4, 5] (by decide) rfl)
    have h := LinearHeap.Ledger.restore hS (wnfDupNodFields_has (i := 0) hlab hk₁ h)
    cases right with
    | false =>
      have h := Own.closeCells h r 1 rfl (termNew_plain _ _ _) (hnew _) (hlen' _) (h₁.trans hr)
      have h := h.closeCells m 2 rfl (termNew_plain _ _ _) (hnew _) (hlen' _) h₁
      rw [hside, hside] at h
      have h := h.fire 0 4 rfl rfl (by decide)
      exact h.yield 3 rfl rfl
    | true =>
      have h := Own.closeCells h m 1 rfl (termNew_plain _ _ _) (hnew _) (hlen' _) h₁
      have h := h.closeCells r 2 rfl (termNew_plain _ _ _) (hnew _) (hlen' _) (h₁.trans hr)
      rw [hside, hside] at h
      have h := h.fire 0 3 rfl rfl (by decide)
      exact h.yield 4 rfl rfl

end Dup

/-! ### Short-circuit conjunction and disjunction -/

section Short

variable {loc : Nat} {w : Term}

theorem wnfAndSup_yields (h : Has K rt [.hole loc, .cell (loc + 1) dy m, .word w dx m] τ)
    (ht : w.tag = .sup) (hr : m < r) :
    Yields K τ (Shape.and.den [dx, dy]) r (wnfAndSup rt loc w (heapRead rt (loc + 1))) := by
  have hlab := (h.plain 2 rfl).2
  obtain ⟨r₂, hm₂, h₂⟩ := exists_between hr
  obtain ⟨r₁, hm₁, h₁⟩ := exists_between hm₂
  have h := h.tick.load 1 rfl
  have h := h.clone w.ext r₁ 4 rfl hlab hm₁
  obtain ⟨a, b, k, ⟨hk, rfl⟩, h⟩ := h.open₂ 2 rfl (s := .sup w.ext) (by rw [ht]; rfl) rfl
  have hk₂ := hk.trans hm₂
  have h := h.load 7 rfl
  have h := h.load 8 rfl
  have h := h.newAt .and 0 r₂ 0 3 10 5 rfl rfl rfl rfl rfl (Nat.zero_le _) rfl hk₂ h₁ (by decide)
  have h := h.newNode₂ .and 0 r₂ 12 6 rfl rfl rfl (Nat.zero_le _) rfl hk₂ h₁ (by decide)
  have h := h.newAt .sup w.ext r 9 11 13 14 rfl rfl rfl rfl rfl hlab rfl h₂ h₂ (by decide)
  rw [Shape.den_sup_left rfl]
  exact h.yield 15 rfl rfl

theorem wnfAndInc_yields (h : Has K rt [.hole loc, .cell (loc + 1) dy m, .word w dx m] τ)
    (ht : w.tag = .inc) (hr : m < r) :
    Yields K τ (Shape.and.den [dx, dy]) r (wnfAndInc rt loc w (heapRead rt (loc + 1))) := by
  have hp := h.plain 2 rfl
  have hs : Shape.ofTag w.tag w.ext = some .inc := by rw [ht]; rfl
  obtain ⟨r₁, hm₁, h₁⟩ := exists_between hr
  obtain ⟨e, k, ⟨hk, rfl⟩, h⟩ := h.tick.open₁ 2 rfl hs rfl
  have h := h.load 3 rfl
  have h := h.store 0 5 rfl rfl (by decide)
  have h := h.close₂ r₁ 6 1 (t := termNew false .and 0 loc) rfl rfl (by decide)
    (termNew_plain _ _ _) rfl rfl (hk.trans hm₁) hm₁
  have h := h.store 4 7 rfl rfl (by decide)
  have h := h.close₁ r 8 rfl hp hs rfl h₁
  exact h.yield 9 rfl rfl

theorem wnfOrSup_yields (h : Has K rt [.hole loc, .cell (loc + 1) dy m, .word w dx m] τ)
    (ht : w.tag = .sup) (hr : m < r) :
    Yields K τ (Shape.or.den [dx, dy]) r (wnfOrSup rt loc w (heapRead rt (loc + 1))) := by
  have hlab := (h.plain 2 rfl).2
  obtain ⟨r₂, hm₂, h₂⟩ := exists_between hr
  obtain ⟨r₁, hm₁, h₁⟩ := exists_between hm₂
  have h := h.tick.load 1 rfl
  obtain ⟨a, b, k, ⟨hk, rfl⟩, h⟩ := h.open₂ 2 rfl (s := .sup w.ext) (by rw [ht]; rfl) rfl
  have hk₂ := hk.trans hm₂
  have h := h.load 5 rfl
  have h := h.load 6 rfl
  have h := h.clone w.ext r₁ 4 rfl hlab hm₁
  have h := h.newAt .or 0 r₂ 0 3 8 11 rfl rfl rfl rfl rfl (Nat.zero_le _) rfl hk₂ h₁ (by decide)
  have h := h.newNode₂ .or 0 r₂ 10 12 rfl rfl rfl (Nat.zero_le _) rfl hk₂ h₁ (by decide)
  have h := h.newAt .sup w.ext r 7 9 13 14 rfl rfl rfl rfl rfl hlab rfl h₂ h₂ (by decide)
  rw [Shape.den_sup_left rfl]
  exact h.yield 15 rfl rfl

theorem wnfOrInc_yields (h : Has K rt [.hole loc, .cell (loc + 1) dy m, .word w dx m] τ)
    (ht : w.tag = .inc) (hr : m < r) :
    Yields K τ (Shape.or.den [dx, dy]) r (wnfOrInc rt loc w (heapRead rt (loc + 1))) := by
  have hp := h.plain 2 rfl
  have hs : Shape.ofTag w.tag w.ext = some .inc := by rw [ht]; rfl
  obtain ⟨r₁, hm₁, h₁⟩ := exists_between hr
  have h := h.tick.load 1 rfl
  obtain ⟨e, k, ⟨hk, rfl⟩, h⟩ := h.open₁ 2 rfl hs rfl
  have h := h.load 5 rfl
  have h := h.newAt .or 0 r₁ 0 3 7 4 rfl rfl rfl rfl rfl (Nat.zero_le _) rfl (hk.trans hm₁) hm₁
    (by decide)
  have h := h.store 6 8 rfl rfl (by decide)
  have h := h.close₁ r 9 rfl hp hs rfl h₁
  exact h.yield 10 rfl rfl

/-- A number decides a conjunction. -/
theorem wnfAndNum_yields {v : Nat}
    (h : Has K rt [.hole loc, .cell (loc + 1) dy m, .word w dx m] τ) (hw : w.val = v)
    (hr : m ≤ r) :
    Yields K τ (Shape.and.den [fun _ => .num v, dy]) r (wnfAndNum rt w (heapRead rt (loc + 1))) := by
  subst hw
  unfold wnfAndNum
  by_cases h0 : w.val = 0
  · have hd : Shape.and.den [fun _ => .num w.val, dy] = fun _ => .num 0 := by
      funext s
      exact if_pos h0
    rw [if_pos h0, hd]
    exact num_yields h rfl (by decide)
  · have hd : Shape.and.den [fun _ => .num w.val, dy] = dy := by
      funext s
      exact if_neg h0
    rw [if_neg h0, hd]
    have h := h.tick.load 1 rfl
    have h := h.weaken r 4 rfl hr
    exact h.yield 5 rfl rfl

theorem wnfOrNum_yields {v : Nat}
    (h : Has K rt [.hole loc, .cell (loc + 1) dy m, .word w dx m] τ) (hw : w.val = v)
    (hr : m ≤ r) :
    Yields K τ (Shape.or.den [fun _ => .num v, dy]) r (wnfOrNum rt w (heapRead rt (loc + 1))) := by
  subst hw
  unfold wnfOrNum
  by_cases h0 : w.val = 0
  · have hd : Shape.or.den [fun _ => .num w.val, dy] = dy := by
      funext s
      exact if_pos h0
    rw [if_pos h0, hd]
    have h := h.tick.load 1 rfl
    have h := h.weaken r 4 rfl hr
    exact h.yield 5 rfl rfl
  · have hd : Shape.or.den [fun _ => .num w.val, dy] = fun _ => .num 1 := by
      funext s
      exact if_neg h0
    rw [if_neg h0, hd]
    exact num_yields h rfl (by decide)

end Short

/-! ### Equality -/

section Equality

variable {eql : Nat} {a w : Term} {c : Cell}

theorem wnfEqlSupL_yields (h : Has K rt [.hole eql, .cell (eql + 1) dy m, .word w dx m] τ)
    (ht : w.tag = .sup) (hr : m < r) :
    Yields K τ (Shape.eql.den [dx, dy]) r (wnfEqlSupL rt eql w (heapRead rt (eql + 1))) := by
  have hlab := (h.plain 2 rfl).2
  obtain ⟨r₂, hm₂, h₂⟩ := exists_between hr
  obtain ⟨r₁, hm₁, h₁⟩ := exists_between hm₂
  have h := h.tick.load 1 rfl
  obtain ⟨a, b, k, ⟨hk, rfl⟩, h⟩ := h.open₂ 2 rfl (s := .sup w.ext) (by rw [ht]; rfl) rfl
  have hk₂ := hk.trans hm₂
  have h := h.load 5 rfl
  have h := h.load 6 rfl
  have h := h.clone w.ext r₁ 4 rfl hlab hm₁
  have h := h.newAt .eql 0 r₂ 0 3 8 11 rfl rfl rfl rfl rfl (Nat.zero_le _) rfl hk₂ h₁ (by decide)
  have h := h.newNode₂ .eql 0 r₂ 10 12 rfl rfl rfl (Nat.zero_le _) rfl hk₂ h₁ (by decide)
  have h := h.newAt .sup w.ext r 7 9 13 14 rfl rfl rfl rfl rfl hlab rfl h₂ h₂ (by decide)
  rw [Shape.den_sup_left rfl]
  exact h.yield 15 rfl rfl

theorem wnfEqlIncL_yields (h : Has K rt [.hole eql, .cell (eql + 1) dy m, .word w dx m] τ)
    (ht : w.tag = .inc) (hr : m < r) :
    Yields K τ (Shape.eql.den [dx, dy]) r (wnfEqlIncL rt eql w (heapRead rt (eql + 1))) := by
  have hp := h.plain 2 rfl
  have hs : Shape.ofTag w.tag w.ext = some .inc := by rw [ht]; rfl
  obtain ⟨r₁, hm₁, h₁⟩ := exists_between hr
  have h := h.tick.load 1 rfl
  obtain ⟨e, k, ⟨hk, rfl⟩, h⟩ := h.open₁ 2 rfl hs rfl
  have h := h.load 5 rfl
  have h := h.newAt .eql 0 r₁ 0 3 7 4 rfl rfl rfl rfl rfl (Nat.zero_le _) rfl (hk.trans hm₁) hm₁
    (by decide)
  have h := h.store 6 8 rfl rfl (by decide)
  have h := h.close₁ r 9 rfl hp hs rfl h₁
  exact h.yield 10 rfl rfl

theorem wnfEqlSupR_yields
    (h : Has K rt [.filled eql c, .word a dx m, .hole (eql + 1), .word w dy m] τ)
    (ht : w.tag = .sup) (hr : m < r) :
    Yields K τ (Shape.eql.den [dx, dy]) r (wnfEqlSupR rt eql a w) := by
  have hlab := (h.plain 3 rfl).2
  obtain ⟨r₂, hm₂, h₂⟩ := exists_between hr
  obtain ⟨r₁, hm₁, h₁⟩ := exists_between hm₂
  have h := h.tick.forget 0 rfl
  obtain ⟨b0, b1, k, ⟨hk, rfl⟩, h⟩ := h.open₂ 3 rfl (s := .sup w.ext) (by rw [ht]; rfl) rfl
  have hk₂ := hk.trans hm₂
  have h := h.load 5 rfl
  have h := h.load 6 rfl
  have h := h.clone w.ext r₁ 1 rfl hlab hm₁
  have h := h.newAt .eql 0 r₂ 4 2 11 8 rfl rfl rfl rfl rfl (Nat.zero_le _) rfl h₁ hk₂ (by decide)
  have h := h.newNode₂ .eql 0 r₂ 12 10 rfl rfl rfl (Nat.zero_le _) rfl h₁ hk₂ (by decide)
  have h := h.newAt .sup w.ext r 7 9 13 14 rfl rfl rfl rfl rfl hlab rfl h₂ h₂ (by decide)
  rw [Shape.den_sup_right rfl]
  exact h.yield 15 rfl rfl

theorem wnfEqlIncR_yields
    (h : Has K rt [.filled eql c, .word a dx m, .hole (eql + 1), .word w dy m] τ)
    (ht : w.tag = .inc) (hr : m < r) :
    Yields K τ (Shape.eql.den [dx, dy]) r (wnfEqlIncR rt eql a w) := by
  have hp := h.plain 3 rfl
  have hs : Shape.ofTag w.tag w.ext = some .inc := by rw [ht]; rfl
  obtain ⟨r₁, hm₁, h₁⟩ := exists_between hr
  have h := h.tick.forget 0 rfl
  obtain ⟨e, k, ⟨hk, rfl⟩, h⟩ := h.open₁ 3 rfl hs rfl
  have h := h.load 5 rfl
  have h := h.newAt .eql 0 r₁ 4 2 1 7 rfl rfl rfl rfl rfl (Nat.zero_le _) rfl hm₁ (hk.trans hm₁)
    (by decide)
  have h := h.store 6 8 rfl rfl (by decide)
  have h := h.close₁ r 9 rfl hp hs rfl h₁
  exact h.yield 10 rfl rfl

/-- The conjunction of `acc` with the equalities of the fields `ds` and `es`. -/
def eqlRest (acc : Den) (ds es : List Den) : Den := fun s =>
  Val.eqlAll (acc s) (ds.map (· s)) (es.map (· s))

theorem wnfEqlCtrRest_yields {p q i : Nat} {ds es : List Den} {acc : Term} {k₁ k₂ k₃ : ℚ}
    (hlen : ds.length = es.length)
    (h : Has K rt [.cells (p + i) ds k₁, .cells (q + i) es k₂, .word acc d k₃] τ) (h₁ : k₁ < r)
    (h₂ : k₂ < r) (h₃ : k₃ < r) :
    Yields K τ (eqlRest d ds es) r (wnfEqlCtrRest rt p q acc i ds.length) := by
  induction ds generalizing rt acc d es i k₃ with
  | nil =>
    obtain rfl : es = [] := List.eq_nil_of_length_eq_zero hlen.symm
    have hd : eqlRest d [] [] = d := by
      funext s
      exact Val.eqlAll.eq_2 _ _ _ (fun _ _ _ _ h => by cases h)
    rw [hd]
    have h := h.weaken r 2 rfl h₃.le
    exact h.yield 3 rfl rfl
  | cons x ds ih =>
    cases es with
    | nil => cases hlen
    | cons y es =>
      obtain ⟨s₂, hs₂, hr⟩ := exists_between (max_lt (max_lt h₁ h₂) h₃)
      obtain ⟨hs₁₂, hs₃⟩ := max_lt_iff.mp hs₂
      obtain ⟨s₁, hs₁, hs⟩ := exists_between hs₁₂
      obtain ⟨hk₁, hk₂⟩ := max_lt_iff.mp hs₁
      have h := h.splitCell 0 rfl
      have h := h.splitCell 1 rfl
      have h := h.load 3 rfl
      have h := h.load 5 rfl
      have h := h.newNode₂ .eql 0 s₁ 8 10 rfl rfl rfl (Nat.zero_le _) rfl hk₁ hk₂ (by decide)
      have h := h.newNode₂ .and 0 s₂ 2 11 rfl rfl rfl (Nat.zero_le _) rfl hs₃ hs (by decide)
      have h := h.keep [4, 6, 12] (by decide) rfl
      exact ih (i := i + 1) (Nat.succ.inj hlen) h hr

/-- Two constructors are compared field by field. -/
theorem eql_ctr {nam nam' : Nat} {i j : Fin 17} {x y : Den} {ds es : List Den}
    (h : nam = nam' ∧ ds.length = es.length) :
    Shape.eql.den [(Shape.ctr nam i).den (x :: ds), (Shape.ctr nam' j).den (y :: es)] =
      eqlRest (Shape.eql.den [x, y]) ds es := by
  funext s
  exact Val.eqlOf_cons ⟨h.1, by rw [List.length_map, List.length_map, h.2]⟩

theorem wnfEqlCtr_yields {i j : Fin 17}
    (h : Has K rt [.filled eql c, .word a dx m, .hole (eql + 1), .word w dy m] τ)
    (ha : a.tag = .ctr i) (hb : w.tag = .ctr j) (hr : m < r) :
    Yields K τ (Shape.eql.den [dx, dy]) r (wnfEqlCtr rt eql a w) := by
  have hsa : Shape.ofTag a.tag a.ext = some (.ctr a.ext i) := by rw [ha]; rfl
  have hsb : Shape.ofTag w.tag w.ext = some (.ctr w.ext j) := by rw [hb]; rfl
  have h := h.forget 0 rfl
  obtain ⟨ds, k, ⟨hk, hds, rfl⟩, h⟩ := h.openNode 1 rfl hsa
  obtain ⟨es, k', ⟨hk', hes, rfl⟩, h⟩ := h.openNode 3 rfl hsb
  have hds : ds.length = i := hds
  have hes : es.length = j := hes
  unfold wnfEqlCtr
  by_cases hne : a.tag ≠ w.tag ∨ a.ext ≠ w.ext
  · have hd : Shape.eql.den [(Shape.ctr a.ext i).den ds, (Shape.ctr w.ext j).den es] =
        fun _ => .num 0 := by
      funext s
      refine Val.eqlOf_ctr_ne ?_
      rintro ⟨hext, hlen⟩
      rw [List.length_map, List.length_map, hds, hes] at hlen
      rcases hne with hne | hne
      · rw [ha, hb, Fin.ext hlen] at hne
        exact hne rfl
      · exact hne hext
    rw [if_pos hne, hd]
    exact num_yields (h.keep [2] (by decide) rfl) rfl (by decide)
  rw [if_neg hne]
  have htag : a.tag = w.tag := by
    by_contra hh
    exact hne (.inl hh)
  have hext : a.ext = w.ext := by
    by_contra hh
    exact hne (.inr hh)
  have hij : i = j := by
    rw [ha, hb] at htag
    exact Tag.ctr.inj htag
  have hlen : ds.length = es.length := by rw [hds, hes, hij]
  have hari : tagArity a.tag = ds.length := by rw [ha, hds]; rfl
  dsimp only
  rw [hari]
  cases ds with
  | nil =>
    obtain rfl : es = [] := List.eq_nil_of_length_eq_zero hlen.symm
    have hd : Shape.eql.den [(Shape.ctr a.ext i).den [], (Shape.ctr w.ext j).den []] =
        fun _ => .num 1 := by
      rw [hext]
      funext s
      exact Val.eqlOf_nil w.ext
    rw [hd]
    exact num_yields (h.keep [2] (by decide) rfl) rfl (by decide)
  | cons x ds =>
    cases es with
    | nil => cases hlen
    | cons y es =>
      have hlen := Nat.succ.inj hlen
      rw [eql_ctr ⟨hext, hlen⟩]
      obtain ⟨r₃, hm₃, h₃⟩ := exists_between hr
      obtain ⟨r₂, hm₂, h₂⟩ := exists_between hm₃
      obtain ⟨r₁, hm₁, h₁⟩ := exists_between hm₂
      have hk₁ := hk.trans hm₁
      have hk₁' := hk'.trans hm₁
      have h := h.tick.splitCell 5 rfl
      have h := h.splitCell 6 rfl
      have h := h.load 7 rfl
      have h := h.load 9 rfl
      have h := h.newAt .eql 0 r₁ 4 2 12 14 rfl rfl rfl rfl rfl (Nat.zero_le _) rfl hk₁ hk₁' (by decide)
      have hpos : (x :: ds).length ≠ 0 := Nat.succ_ne_zero _
      rw [if_neg hpos]
      by_cases hsuc : a.ext = symSuc ∧ (x :: ds).length = 1
      · rw [if_pos hsuc]
        obtain rfl : ds = [] := List.eq_nil_of_length_eq_zero (Nat.succ.inj hsuc.2)
        obtain rfl : es = [] := List.eq_nil_of_length_eq_zero hlen.symm
        have h := h.newNode₁ .inc 0 r 15 rfl rfl (Nat.zero_le _) rfl (h₁.trans (h₂.trans h₃))
        exact h.yield 16 rfl rfl
      rw [if_neg hsuc]
      by_cases hcon : a.ext = symCon ∧ (x :: ds).length = 2
      · rw [if_pos hcon]
        obtain ⟨x', rfl⟩ := List.length_eq_one_iff.mp (Nat.succ.inj hcon.2)
        obtain ⟨y', rfl⟩ := List.length_eq_one_iff.mp (hlen.symm.trans rfl)
        have h := h.splitCell 8 rfl
        have h := h.splitCell 10 rfl
        have h := h.load 16 rfl
        have h := h.load 18 rfl
        have h := h.newNode₂ .eql 0 r₁ 21 23 rfl rfl rfl (Nat.zero_le _) rfl hk₁ hk₁' (by decide)
        have h := h.newNode₁ .inc 0 r₂ 24 rfl rfl (Nat.zero_le _) rfl h₁
        have h := h.newNode₂ .and 0 r₃ 15 25 rfl rfl rfl (Nat.zero_le _) rfl (h₁.trans h₂) h₂ (by decide)
        have h := h.newNode₁ .inc 0 r 26 rfl rfl (Nat.zero_le _) rfl h₃
        exact h.yield 27 rfl rfl
      · rw [if_neg hcon]
        have h := h.keep [8, 10, 15] (by decide) rfl
        exact wnfEqlCtrRest_yields (i := 1) hlen h (hk.trans hr) (hk'.trans hr)
          (h₁.trans (h₂.trans h₃))

end Equality

end Hvm.Choice
