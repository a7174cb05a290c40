import Hvm.Linear.Registers

/-! Every interaction rule works on the words and cells it is given, and leaves one word.
The registers at the start of a rule are those of its frame, then the reduced word. -/

namespace Hvm

open LinearHeap

variable {K : Statics} {τ : Toks} {rt : Rt}

/-- A result without tokens needs nothing of what is in hand. -/
theorem imm_yields {S : List Res} (h : Has K rt S τ)
    (hp : (List.range S.length).all (fun i => !(File.ofList S i).pins) = true) {w : Term}
    (hw : WordOk K w) (h0 : wordToks w = 0) : Yields K τ (rt, w) := by
  have hk := h.keep [] List.nodup_nil (by simpa using hp)
  refine Own.ofWord hw ?_
  have hl := hk.list_linear
  rw [h0]
  exact hl

theorem wnfEra_yields {S : List Res} (h : Has K rt S τ)
    (hp : (List.range S.length).all (fun i => !(File.ofList S i).pins) = true) :
    Yields K τ (wnfEra rt) :=
  imm_yields h.tick hp (termNew_ok (by decide) 0 0) rfl

theorem num_yields {S : List Res} (h : Has K rt S τ)
    (hp : (List.range S.length).all (fun i => !(File.ofList S i).pins) = true) (v : Nat) :
    Yields K τ (rt.tick, termNewNum v) :=
  imm_yields h.tick hp (num_ok v) rfl

/-! Application -/

theorem wnfAppNam_yields {app : Nat} {nam : Term}
    (h : Has K rt [.hole app, .cell (app + 1), .word nam] τ) : Yields K τ (wnfAppNam rt app nam) := by
  have h := h.store 0 2 rfl rfl (by decide)
  have h := h.close₂ .dry 0 3 1 rfl rfl rfl rfl (by decide)
  exact h.yield 4 rfl rfl

theorem wnfAppLam_yields {app : Nat} {lam : Term}
    (h : Has K rt [.hole app, .cell (app + 1), .word lam] τ) (ht : lam.tag = .lam) :
    Yields K τ (wnfAppLam rt lam (heapRead rt (app + 1))) := by
  have h := h.tick.load 1 rfl
  have hm := h.bindLoad_unmarked 2 rfl ht
  have h := h.bindLoad 2 rfl ht
  unfold wnfAppLam
  by_cases he : isEraLam lam.ext
  · rw [if_pos he]
    have h := h.bindDie 5 rfl hm
    exact h.yield 6 rfl rfl
  · rw [if_neg he]
    have h := h.bindSubst 5 4 rfl rfl (by decide)
    exact h.yield 6 rfl rfl

theorem wnfAppSup_yields {app : Nat} {sup : Term}
    (h : Has K rt [.hole app, .cell (app + 1), .word sup] τ) (ht : sup.tag = .sup) :
    Yields K τ (wnfAppSup rt app sup (heapRead rt (app + 1))) := by
  have h := h.tick.load 1 rfl
  have h := h.open₂ 2 rfl ht rfl
  have h := h.load 6 rfl
  have h := h.clone sup.ext 4 rfl
  have h := h.store 7 9 rfl rfl (by decide)
  have h := h.close₂ .app 0 5 11 rfl rfl rfl rfl (by decide)
  have h := h.newNode₂ .app 0 8 10 rfl rfl rfl rfl (by decide)
  have h := h.newAt .sup sup.ext 0 3 12 13 rfl rfl rfl rfl rfl rfl (by decide)
  exact h.yield 14 rfl rfl

theorem wnfAppInc_yields {app inc : Term}
    (h : Has K rt [.hole app.val, .cell (app.val + 1), .word inc] τ) (ht : inc.tag = .inc) :
    Yields K τ (wnfAppInc rt app inc) := by
  have hp : inc.Plain := (h.ok 2).1
  have h := h.tick.open₁ 2 rfl ht rfl
  have h := h.load 3 rfl
  have h := h.store 0 5 rfl rfl (by decide)
  have h := h.close₂ .app 0 6 1 rfl rfl rfl rfl (by decide)
  have h := h.store 4 7 rfl rfl (by decide)
  have h := h.wrap₁ 8 rfl hp ht rfl
  exact h.yield 9 rfl rfl

/-! Matchers -/

theorem wnfAppMatSup_yields {mat sup : Term} (h : Has K rt [.word mat, .word sup] τ)
    (ht : sup.tag = .sup) : Yields K τ (wnfAppMatSup rt mat sup) := by
  have h := h.tick.clone sup.ext 0 rfl
  have h := h.open₂ 1 rfl ht rfl
  have h := h.load 4 rfl
  have h := h.load 5 rfl
  have h := h.newNode₂ .app 0 2 7 rfl rfl rfl rfl (by decide)
  have h := h.newNode₂ .app 0 3 9 rfl rfl rfl rfl (by decide)
  have h := h.newAt .sup sup.ext 6 8 10 11 rfl rfl rfl rfl rfl rfl (by decide)
  exact h.yield 12 rfl rfl

theorem wnfMatInc_yields {mat inc : Term} (h : Has K rt [.word mat, .word inc] τ)
    (ht : inc.tag = .inc) : Yields K τ (wnfMatInc rt mat inc) := by
  have h := h.tick.open₁ 1 rfl ht rfl
  have h := h.load 2 rfl
  have h := h.newNode₂ .app 0 0 4 rfl rfl rfl rfl (by decide)
  have h := h.store 3 5 rfl rfl (by decide)
  have h := h.close₁ .inc 0 6 rfl rfl rfl
  exact h.yield 7 rfl rfl

theorem wnfAppMatCtrRest_yields {ctr apps : Nat} {res : Term} {i n : Nat} (hi : 2 ≤ i)
    (h : Has K rt [.cells (ctr + i) n, .holes (apps + 2 * (i - 2)) (2 * n), .word res] τ) :
    Yields K τ (wnfAppMatCtrRest rt ctr apps res i n) := by
  induction n generalizing rt res i with
  | zero => exact h.yield 2 rfl rfl
  | succ n ih =>
    have h := h.splitCell 0 rfl
    have h := h.splitHole 1 rfl
    have h := h.splitHole 6 rfl
    have h := h.load 3 rfl
    have h := h.newAt .app 0 5 7 2 10 rfl rfl rfl rfl rfl rfl (by decide)
    have h := h.keep [4, 8, 11] (by decide) rfl
    have he : apps + 2 * (i + 1 - 2) = apps + 2 * (i - 2) + 1 + 1 := by omega
    exact ih (by omega) (he ▸ h)

theorem wnfAppMatCtrHit_yields {mat ctr ari : Nat}
    (h : Has K rt [.cell mat, .cell (mat + 1), .cells ctr ari] τ) :
    Yields K τ (wnfAppMatCtrHit rt mat ctr ari) := by
  have h := h.load 0 rfl
  rcases ari with _ | ari
  · exact h.yield 4 rfl rfl
  have h := h.load 1 rfl
  have h := h.splitCell 2 rfl
  have h := h.load 7 rfl
  have h := h.newAt .app 0 3 5 4 10 rfl rfl rfl rfl rfl rfl (by decide)
  rcases ari with _ | ari
  · exact h.yield 11 rfl rfl
  have h := h.splitCell 8 rfl
  have h := h.load 12 rfl
  have h := h.newAt .app 0 9 14 11 15 rfl rfl rfl rfl rfl rfl (by decide)
  rcases ari with _ | ari
  · exact h.yield 16 rfl rfl
  have h := h.alloc (2 * (ari + 1))
  have h := h.keep [13, 17, 16] (by decide) rfl
  exact wnfAppMatCtrRest_yields (Nat.le_refl 2) h

theorem wnfAppMatMis_yields {mat : Nat} {arg : Term}
    (h : Has K rt [.cell mat, .cell (mat + 1), .word arg] τ) :
    Yields K τ (wnfAppMatMis rt mat arg) := by
  have h := h.load 0 rfl
  have h := h.load 1 rfl
  have h := h.newAt .app 0 3 5 6 2 rfl rfl rfl rfl rfl rfl (by decide)
  exact h.yield 7 rfl rfl

theorem wnfAppMatCtr_yields {mat ctr : Term} {tag : Tag} {n : Fin 17}
    (h : Has K rt [.word mat, .word ctr] τ) (hm : mat.tag = tag) (hf : tag.fixedArity = some 2)
    (hc : ctr.tag = .ctr n) : Yields K τ (wnfAppMatCtr rt mat ctr) := by
  have h := h.tick.open₂ 0 rfl hm hf
  unfold wnfAppMatCtr
  by_cases he : mat.ext = ctr.ext
  · rw [if_pos he]
    have h := h.open 1 rfl (by rw [hc]; rfl)
    have h := h.keep [2, 3, 4] (by decide) rfl
    have ha : termArity ctr = tagArity ctr.tag := by simp [termArity, hc]
    rw [ha] at h
    exact wnfAppMatCtrHit_yields h
  · rw [if_neg he]
    have h := h.keep [2, 3, 1] (by decide) rfl
    exact wnfAppMatMis_yields h

theorem wnfAppMatNum_yields {mat num : Term} {tag : Tag}
    (h : Has K rt [.word mat, .word num] τ) (hm : mat.tag = tag) (hf : tag.fixedArity = some 2) :
    Yields K τ (wnfAppMatNum rt mat num) := by
  have h := h.tick.open₂ 0 rfl hm hf
  unfold wnfAppMatNum
  by_cases he : mat.ext = num.val
  · rw [if_pos he]
    have h := h.load 2 rfl
    exact h.yield 5 rfl rfl
  · rw [if_neg he]
    have h := h.keep [2, 3, 1] (by decide) rfl
    exact wnfAppMatMis_yields h

theorem wnfUseSup_yields {use sup : Term} (h : Has K rt [.word use, .word sup] τ)
    (hu : use.tag = .use) (ht : sup.tag = .sup) : Yields K τ (wnfUseSup rt use sup) := by
  have h := h.tick.open₁ 0 rfl hu rfl
  have h := h.share sup.ext 2 rfl
  have h := h.newNode₁ .use 0 3 rfl rfl rfl
  have h := h.newNode₁ .use 0 4 rfl rfl rfl
  have h := h.open₂ 1 rfl ht rfl
  have h := h.load 7 rfl
  have h := h.newNode₂ .app 0 5 10 rfl rfl rfl rfl (by decide)
  have h := h.load 8 rfl
  have h := h.newNode₂ .app 0 6 13 rfl rfl rfl rfl (by decide)
  have h := h.newAt .sup sup.ext 9 12 11 14 rfl rfl rfl rfl rfl rfl (by decide)
  exact h.yield 15 rfl rfl

theorem wnfUseVal_yields {use val : Term} (h : Has K rt [.word use, .word val] τ)
    (hu : use.tag = .use) : Yields K τ (wnfUseVal rt use val) := by
  have h := h.tick.open₁ 0 rfl hu rfl
  have h := h.load 2 rfl
  have h := h.newNode₂ .app 0 4 1 rfl rfl rfl rfl (by decide)
  exact h.yield 5 rfl rfl

/-! Duplication -/

theorem wnfDupNam_yields {loc lab : Nat} {side : Bool} {nam : Term}
    (h : Has K rt [.taken loc lab side, .word nam] τ) (hw : wordToks nam = 0) :
    Yields K τ (wnfDupNam rt loc nam) := by
  have h := h.tick.imm nam (h.ok 1) hw
  have h := h.fire 0 1 rfl rfl (by decide)
  exact h.yield 2 rfl rfl

theorem wnfDupLam_yields {loc lab : Nat} {side : Bool} {lam : Term}
    (h : Has K rt [.taken loc lab side, .word lam] τ) (ht : lam.tag = .lam) :
    Yields K τ (wnfDupLam rt lab loc side lam) := by
  have hm := h.tick.bindLoad_unmarked 1 rfl ht
  have h := h.tick.bindLoad 1 rfl ht
  unfold wnfDupLam
  by_cases he : isEraLam lam.ext
  · rw [if_pos he]
    have h := h.bindDie 2 rfl hm
    have h := h.alloc₁.alloc₁.alloc₁
    have h := h.store 6 3 rfl rfl (by decide)
    have h := h.share lab 7 rfl
    have h := h.bindNew 4 rfl
    have h := h.bindFill lam.ext 10 8 rfl rfl (by decide)
    have h := h.bindNew 5 rfl
    have h := h.bindFill lam.ext 13 9 rfl rfl (by decide)
    cases side
    · have h := h.fire 0 15 rfl rfl (by decide)
      exact h.yield 12 rfl rfl
    · have h := h.fire 0 12 rfl rfl (by decide)
      exact h.yield 15 rfl rfl
  · rw [if_neg he]
    have h := h.alloc₁.alloc₁.alloc₁.alloc₁.alloc₁
    have h := h.store 8 3 rfl rfl (by decide)
    have h := h.share lab 9 rfl
    have h := h.bindNew 4 rfl
    have h := h.bindFill lam.ext 12 10 rfl rfl (by decide)
    have h := h.bindNew 5 rfl
    have h := h.bindFill lam.ext 15 11 rfl rfl (by decide)
    have h := h.store 6 13 rfl rfl (by decide)
    have h := h.store 7 16 rfl rfl (by decide)
    have h := h.close₂ .sup lab 18 19 rfl rfl rfl rfl (by decide)
    have h := h.bindSubst 2 20 rfl rfl (by decide)
    cases side
    · have h := h.fire 0 17 rfl rfl (by decide)
      exact h.yield 14 rfl rfl
    · have h := h.fire 0 14 rfl rfl (by decide)
      exact h.yield 17 rfl rfl

theorem wnfDupSup_yields {loc lab : Nat} {side : Bool} {sup : Term}
    (h : Has K rt [.taken loc lab side, .word sup] τ) (ht : sup.tag = .sup) :
    Yields K τ (wnfDupSup rt lab loc side sup) := by
  have h := h.tick.open₂ 1 rfl ht rfl
  unfold wnfDupSup
  by_cases he : lab = sup.ext
  · rw [if_pos he]
    have h := h.load 2 rfl
    have h := h.load 3 rfl
    cases side
    · have h := h.fire 0 7 rfl rfl (by decide)
      exact h.yield 5 rfl rfl
    · have h := h.fire 0 5 rfl rfl (by decide)
      exact h.yield 7 rfl rfl
  · rw [if_neg he]
    have h := h.alloc₁.alloc₁.alloc₁.alloc₁
    have h := h.share lab 2 rfl
    have h := h.share lab 3 rfl
    have h := h.newAt .sup sup.ext 4 5 8 10 rfl rfl rfl rfl rfl rfl (by decide)
    have h := h.newAt .sup sup.ext 6 7 9 11 rfl rfl rfl rfl rfl rfl (by decide)
    cases side
    · have h := h.fire 0 13 rfl rfl (by decide)
      exact h.yield 12 rfl rfl
    · have h := h.fire 0 12 rfl rfl (by decide)
      exact h.yield 13 rfl rfl

theorem wnfDupNodFields_has (lab : Nat) {t r0 r1 i n : Nat}
    (h : Has K rt [.cells (t + i) n, .holes (r0 + i) n, .holes (r1 + i) n] τ) :
    Has K (wnfDupNodFields rt lab t r0 r1 i n) [.cells (r0 + i) n, .cells (r1 + i) n] τ := by
  induction n generalizing rt i τ with
  | zero =>
    have hl := h.list_linear
    exact Own.ofList (by simp [Res.Ok]) (by simpa [Res.toks, cellToks, wnfDupNodFields] using hl)
  | succ n ih =>
    have h := h.splitCell 0 rfl
    have h := h.share lab 3 rfl
    have h := h.splitHole 1 rfl
    have h := h.splitHole 2 rfl
    have h := h.store 7 5 rfl rfl (by decide)
    have h := h.store 9 6 rfl rfl (by decide)
    have h := h.push [11, 12] (by decide)
    have h := h.keep [4, 8, 10] (by decide) rfl
    have h := (ih (i := i + 1) h).pop (S := [.cell (r0 + i), .cell (r1 + i)]) (by simp [Res.Ok])
    have h := h.joinCells 2 0 rfl rfl (by decide)
    have h := h.joinCells 3 1 rfl rfl (by decide)
    exact h.keep [4, 5] (by decide) rfl

theorem wnfDupNod_yields {loc lab : Nat} {side : Bool} {term : Term}
    (h : Has K rt [.taken loc lab side, .word term] τ) (ht : term.tag.owns = true) :
    Yields K τ (wnfDupNod rt lab loc side term) := by
  have hp : term.Plain := (h.ok 1).1
  unfold wnfDupNod
  by_cases ha : termArity term = 0
  · rw [if_pos ha]
    refine wnfDupNam_yields h ?_
    rw [wordToks_of_owns ht, ha]
    rfl
  · rw [if_neg ha]
    have h := h.tick.open 1 rfl ht
    have h := h.alloc (2 * termArity term)
    have h := h.splitHoles (termArity term) (termArity term) 3 (by rw [← Nat.two_mul]; rfl)
    have h := h.push [0] (by decide)
    have h := h.keep [2, 4, 5] (by decide) rfl
    have h := wnfDupNodFields_has lab (i := 0) h
    have h := h.pop (S := [.taken loc lab side]) (by simp [Res.Ok])
    have h := h.closeCells term.tag term.ext 0 rfl ht (termArity_termNew hp _)
    have h := h.closeCells term.tag term.ext 1 rfl ht (termArity_termNew hp _)
    cases side
    · have h := h.fire 2 4 rfl rfl (by decide)
      exact h.yield 3 rfl rfl
    · have h := h.fire 2 3 rfl rfl (by decide)
      exact h.yield 4 rfl rfl

/-! Numeric operators -/

theorem wnfOp2Sup_yields {loc opr : Nat} {sup : Term}
    (h : Has K rt [.hole loc, .cell (loc + 1), .word sup] τ) (ht : sup.tag = .sup) :
    Yields K τ (wnfOp2Sup rt loc opr sup (heapRead rt (loc + 1))) := by
  have h := h.tick.load 1 rfl
  have h := h.clone sup.ext 4 rfl
  have h := h.open₂ 2 rfl ht rfl
  have h := h.load 7 rfl
  have h := h.newAt .op2 opr 0 3 10 5 rfl rfl rfl rfl rfl rfl (by decide)
  have h := h.load 8 rfl
  have h := h.newNode₂ .op2 opr 13 6 rfl rfl rfl rfl (by decide)
  have h := h.newAt .sup sup.ext 9 12 11 14 rfl rfl rfl rfl rfl rfl (by decide)
  exact h.yield 15 rfl rfl

theorem wnfOp2NumSup_yields {opr v : Nat} {sup : Term} (h : Has K rt [.word sup] τ)
    (ht : sup.tag = .sup) : Yields K τ (wnfOp2NumSup rt opr (termNewNum v) sup) := by
  have h := h.tick.open₂ 0 rfl ht rfl
  have h := h.load 1 rfl
  have h := h.imm (termNewNum v) (num_ok v) rfl
  have h := h.newNode₂ .op2 opr 5 4 rfl rfl rfl rfl (by decide)
  have h := h.load 2 rfl
  have h := h.imm (termNewNum v) (num_ok v) rfl
  have h := h.newNode₂ .op2 opr 9 8 rfl rfl rfl rfl (by decide)
  have h := h.newAt .sup sup.ext 3 7 6 10 rfl rfl rfl rfl rfl rfl (by decide)
  exact h.yield 11 rfl rfl

theorem wnfOp2IncX_yields {loc opr : Nat} {inc : Term}
    (h : Has K rt [.hole loc, .cell (loc + 1), .word inc] τ) (ht : inc.tag = .inc) :
    Yields K τ (wnfOp2IncX rt opr inc (heapRead rt (loc + 1))) := by
  have hp : inc.Plain := (h.ok 2).1
  have h := h.tick.load 1 rfl
  have h := h.open₁ 2 rfl ht rfl
  have h := h.load 5 rfl
  have h := h.newNode₂ .op2 opr 7 4 rfl rfl rfl rfl (by decide)
  have h := h.store 6 8 rfl rfl (by decide)
  have h := h.wrap₁ 9 rfl hp ht rfl
  exact h.yield 10 rfl rfl

theorem wnfOp2IncY_yields {opr v : Nat} {inc : Term} (h : Has K rt [.word inc] τ)
    (ht : inc.tag = .inc) : Yields K τ (wnfOp2IncY rt opr (termNewNum v) inc) := by
  have hp : inc.Plain := (h.ok 0).1
  have h := h.tick.open₁ 0 rfl ht rfl
  have h := h.load 1 rfl
  have h := h.imm (termNewNum v) (num_ok v) rfl
  have h := h.newNode₂ .op2 opr 4 3 rfl rfl rfl rfl (by decide)
  have h := h.store 2 5 rfl rfl (by decide)
  have h := h.wrap₁ 6 rfl hp ht rfl
  exact h.yield 7 rfl rfl

/-! Dynamic labels -/

theorem wnfDsuNum_yields {loc : Nat} {num : Term}
    (h : Has K rt [.hole loc, .cell (loc + 1), .cell (loc + 2), .word num] τ) :
    Yields K τ (wnfDsuNum rt num (heapRead rt (loc + 1)) (heapRead rt (loc + 2))) := by
  have h := h.tick.load 1 rfl
  have h := h.load 2 rfl
  have h := h.newNode₂ .sup (u32 num.val) 5 7 rfl rfl rfl rfl (by decide)
  exact h.yield 8 rfl rfl

theorem wnfDsuSup_yields {loc : Nat} {sup : Term}
    (h : Has K rt [.hole loc, .cell (loc + 1), .cell (loc + 2), .word sup] τ)
    (ht : sup.tag = .sup) :
    Yields K τ (wnfDsuSup rt sup (heapRead rt (loc + 1)) (heapRead rt (loc + 2))) := by
  have h := h.tick.load 1 rfl
  have h := h.load 2 rfl
  have h := h.alloc₁.alloc₁
  have h := h.store 8 5 rfl rfl (by decide)
  have h := h.store 9 7 rfl rfl (by decide)
  have h := h.share sup.ext 10 rfl
  have h := h.share sup.ext 11 rfl
  have h := h.open₂ 3 rfl ht rfl
  have h := h.load 16 rfl
  have h := h.newNode₃ .dsu 0 19 12 14 rfl rfl rfl rfl rfl (by decide)
  have h := h.load 17 rfl
  have h := h.newNode₃ .dsu 0 22 13 15 rfl rfl rfl rfl rfl (by decide)
  have h := h.newAt .sup sup.ext 18 21 20 23 rfl rfl rfl rfl rfl rfl (by decide)
  exact h.yield 24 rfl rfl

theorem wnfDsuInc_yields {loc : Nat} {inc : Term}
    (h : Has K rt [.hole loc, .cell (loc + 1), .cell (loc + 2), .word inc] τ)
    (ht : inc.tag = .inc) :
    Yields K τ (wnfDsuInc rt inc (heapRead rt (loc + 1)) (heapRead rt (loc + 2))) := by
  have hp : inc.Plain := (h.ok 3).1
  have h := h.tick.load 1 rfl
  have h := h.load 2 rfl
  have h := h.open₁ 3 rfl ht rfl
  have h := h.load 8 rfl
  have h := h.newNode₃ .dsu 0 10 5 7 rfl rfl rfl rfl rfl (by decide)
  have h := h.store 9 11 rfl rfl (by decide)
  have h := h.wrap₁ 12 rfl hp ht rfl
  exact h.yield 13 rfl rfl

theorem wnfDduNum_yields {loc : Nat} {num : Term}
    (h : Has K rt [.hole loc, .cell (loc + 1), .cell (loc + 2), .word num] τ) :
    Yields K τ (wnfDduNum rt num (heapRead rt (loc + 1)) (heapRead rt (loc + 2))) := by
  have h := h.tick.load 1 rfl
  have h := h.load 2 rfl
  have h := h.clone (u32 num.val) 5 rfl
  have h := h.newNode₂ .app 0 7 8 rfl rfl rfl rfl (by decide)
  have h := h.newNode₂ .app 0 10 9 rfl rfl rfl rfl (by decide)
  exact h.yield 11 rfl rfl

theorem wnfDduSup_yields {loc : Nat} {sup : Term}
    (h : Has K rt [.hole loc, .cell (loc + 1), .cell (loc + 2), .word sup] τ)
    (ht : sup.tag = .sup) :
    Yields K τ (wnfDduSup rt sup (heapRead rt (loc + 1)) (heapRead rt (loc + 2))) := by
  have h := h.tick.load 1 rfl
  have h := h.load 2 rfl
  have h := h.alloc₁.alloc₁
  have h := h.store 8 5 rfl rfl (by decide)
  have h := h.store 9 7 rfl rfl (by decide)
  have h := h.share sup.ext 10 rfl
  have h := h.share sup.ext 11 rfl
  have h := h.open₂ 3 rfl ht rfl
  have h := h.load 16 rfl
  have h := h.newNode₃ .ddu 0 19 12 14 rfl rfl rfl rfl rfl (by decide)
  have h := h.load 17 rfl
  have h := h.newNode₃ .ddu 0 22 13 15 rfl rfl rfl rfl rfl (by decide)
  have h := h.newAt .sup sup.ext 18 21 20 23 rfl rfl rfl rfl rfl rfl (by decide)
  exact h.yield 24 rfl rfl

theorem wnfDduInc_yields {loc : Nat} {inc : Term}
    (h : Has K rt [.hole loc, .cell (loc + 1), .cell (loc + 2), .word inc] τ)
    (ht : inc.tag = .inc) :
    Yields K τ (wnfDduInc rt inc (heapRead rt (loc + 1)) (heapRead rt (loc + 2))) := by
  have hp : inc.Plain := (h.ok 3).1
  have h := h.tick.load 1 rfl
  have h := h.load 2 rfl
  have h := h.open₁ 3 rfl ht rfl
  have h := h.load 8 rfl
  have h := h.newNode₃ .ddu 0 10 5 7 rfl rfl rfl rfl rfl (by decide)
  have h := h.store 9 11 rfl rfl (by decide)
  have h := h.wrap₁ 12 rfl hp ht rfl
  exact h.yield 13 rfl rfl

/-! Equality -/

theorem wnfEqlSupL_yields {eql : Nat} {sup : Term}
    (h : Has K rt [.hole eql, .cell (eql + 1), .word sup] τ) (ht : sup.tag = .sup) :
    Yields K τ (wnfEqlSupL rt eql sup (heapRead rt (eql + 1))) := by
  have h := h.tick.load 1 rfl
  have h := h.open₂ 2 rfl ht rfl
  have h := h.load 5 rfl
  have h := h.load 6 rfl
  have h := h.clone sup.ext 4 rfl
  have h := h.newAt .eql 0 0 3 8 11 rfl rfl rfl rfl rfl rfl (by decide)
  have h := h.newNode₂ .eql 0 10 12 rfl rfl rfl rfl (by decide)
  have h := h.newAt .sup sup.ext 7 9 13 14 rfl rfl rfl rfl rfl rfl (by decide)
  exact h.yield 15 rfl rfl

theorem wnfEqlSupR_yields {eql : Nat} {sup : Term}
    (h : Has K rt [.cell eql, .hole (eql + 1), .word sup] τ) (ht : sup.tag = .sup) :
    Yields K τ (wnfEqlSupR rt eql (heapRead rt eql) sup) := by
  have h := h.tick.load 0 rfl
  have h := h.open₂ 2 rfl ht rfl
  have h := h.load 5 rfl
  have h := h.load 6 rfl
  have h := h.clone sup.ext 4 rfl
  have h := h.newAt .eql 0 3 1 11 8 rfl rfl rfl rfl rfl rfl (by decide)
  have h := h.newNode₂ .eql 0 12 10 rfl rfl rfl rfl (by decide)
  have h := h.newAt .sup sup.ext 7 9 13 14 rfl rfl rfl rfl rfl rfl (by decide)
  exact h.yield 15 rfl rfl

theorem wnfEqlIncL_yields {eql : Nat} {inc : Term}
    (h : Has K rt [.hole eql, .cell (eql + 1), .word inc] τ) (ht : inc.tag = .inc) :
    Yields K τ (wnfEqlIncL rt eql inc (heapRead rt (eql + 1))) := by
  have hp : inc.Plain := (h.ok 2).1
  have h := h.tick.load 1 rfl
  have h := h.open₁ 2 rfl ht rfl
  have h := h.load 5 rfl
  have h := h.newAt .eql 0 0 3 7 4 rfl rfl rfl rfl rfl rfl (by decide)
  have h := h.store 6 8 rfl rfl (by decide)
  have h := h.wrap₁ 9 rfl hp ht rfl
  exact h.yield 10 rfl rfl

theorem wnfEqlIncR_yields {eql : Nat} {inc : Term}
    (h : Has K rt [.cell eql, .hole (eql + 1), .word inc] τ) (ht : inc.tag = .inc) :
    Yields K τ (wnfEqlIncR rt eql (heapRead rt eql) inc) := by
  have hp : inc.Plain := (h.ok 2).1
  have h := h.tick.load 0 rfl
  have h := h.open₁ 2 rfl ht rfl
  have h := h.load 5 rfl
  have h := h.newAt .eql 0 3 1 4 7 rfl rfl rfl rfl rfl rfl (by decide)
  have h := h.store 6 8 rfl rfl (by decide)
  have h := h.wrap₁ 9 rfl hp ht rfl
  exact h.yield 10 rfl rfl

theorem wnfEqlLam_yields {a b : Term} (h : Has K rt [.word a, .word b] τ) (ha : a.tag = .lam)
    (hb : b.tag = .lam) : Yields K τ (wnfEqlLam rt a b) := by
  have h := h.tick.bindLoad 0 rfl ha
  have h := h.bindLoad 1 rfl hb
  have h := h.fresh (u32 (rt.fresh + 1))
  have h := h.imm (termNewNam rt.fresh) (termNew_ok (by decide) _ _) rfl
  have h := h.bindSubst 2 6 rfl rfl (by decide)
  have h := h.imm (termNewNam rt.fresh) (termNew_ok (by decide) _ _) rfl
  have h := h.bindSubst 4 7 rfl rfl (by decide)
  have h := h.newNode₂ .eql 0 3 5 rfl rfl rfl rfl (by decide)
  exact h.yield 8 rfl rfl

theorem wnfEqlCtrRest_yields {a b : Nat} {res : Term} {i n : Nat}
    (h : Has K rt [.cells (a + i) n, .cells (b + i) n, .word res] τ) :
    Yields K τ (wnfEqlCtrRest rt a b res i n) := by
  induction n generalizing rt res i with
  | zero => exact h.yield 2 rfl rfl
  | succ n ih =>
    have h := h.splitCell 0 rfl
    have h := h.splitCell 1 rfl
    have h := h.load 3 rfl
    have h := h.load 5 rfl
    have h := h.newNode₂ .eql 0 8 10 rfl rfl rfl rfl (by decide)
    have h := h.newNode₂ .and 0 2 11 rfl rfl rfl rfl (by decide)
    have h := h.keep [4, 6, 12] (by decide) rfl
    exact ih (i := i + 1) h

theorem wnfEqlCtr_yields {eql : Nat} {a b : Term} {n m : Fin 17}
    (h : Has K rt [.hole eql, .hole (eql + 1), .word a, .word b] τ) (ha : a.tag = .ctr n)
    (hb : b.tag = .ctr m) : Yields K τ (wnfEqlCtr rt eql a b) := by
  unfold wnfEqlCtr
  by_cases hne : a.tag ≠ b.tag ∨ a.ext ≠ b.ext
  · rw [if_pos hne]
    exact num_yields h rfl 0
  rw [if_neg hne]
  have htag : a.tag = b.tag := by
    by_contra hh
    exact hne (.inl hh)
  have hta : termArity a = tagArity a.tag := by simp [termArity, ha]
  have htb : termArity b = tagArity a.tag := by simp [termArity, hb, htag]
  rcases hk : tagArity a.tag with _ | k
  · exact num_yields h rfl 1
  have h := h.tick.open 2 rfl (by rw [ha]; rfl)
  have h := h.open 3 rfl (by rw [hb]; rfl)
  rw [hta, htb, hk] at h
  have h := h.splitCell 4 rfl
  have h := h.splitCell 5 rfl
  have h := h.load 6 rfl
  have h := h.load 8 rfl
  have h := h.newAt .eql 0 0 1 11 13 rfl rfl rfl rfl rfl rfl (by decide)
  dsimp only
  rw [if_neg (Nat.succ_ne_zero k)]
  by_cases hsuc : a.ext = symSuc ∧ k + 1 = 1
  · rw [if_pos hsuc]
    have h := h.newNode₁ .inc 0 14 rfl rfl rfl
    exact h.yield 15 rfl rfl
  rw [if_neg hsuc]
  by_cases hcon : a.ext = symCon ∧ k + 1 = 2
  · rw [if_pos hcon]
    obtain rfl : k = 1 := by omega
    have h := h.splitCell 7 rfl
    have h := h.splitCell 9 rfl
    have h := h.load 15 rfl
    have h := h.load 17 rfl
    have h := h.newNode₂ .eql 0 20 22 rfl rfl rfl rfl (by decide)
    have h := h.newNode₁ .inc 0 23 rfl rfl rfl
    have h := h.newNode₂ .and 0 14 24 rfl rfl rfl rfl (by decide)
    have h := h.newNode₁ .inc 0 25 rfl rfl rfl
    exact h.yield 26 rfl rfl
  · rw [if_neg hcon]
    have h := h.keep [7, 9, 14] (by decide) rfl
    exact wnfEqlCtrRest_yields (i := 1) h

theorem wnfEqlPair_yields {eql : Nat} {a b : Term} {s t : Tag}
    (h : Has K rt [.hole eql, .hole (eql + 1), .word a, .word b] τ) (ha : a.tag = s)
    (hb : b.tag = t) (hs : s.fixedArity = some 2) (ht : t.fixedArity = some 2) :
    Yields K τ (wnfEqlPair rt eql a b) := by
  have h := h.open₂ 2 rfl ha hs
  have h := h.open₂ 3 rfl hb ht
  have h := h.load 4 rfl
  have h := h.load 5 rfl
  have h := h.load 6 rfl
  have h := h.load 7 rfl
  have h := h.newNode₂ .eql 0 9 13 rfl rfl rfl rfl (by decide)
  have h := h.newNode₂ .eql 0 11 15 rfl rfl rfl rfl (by decide)
  have h := h.newAt .and 0 0 1 16 17 rfl rfl rfl rfl rfl rfl (by decide)
  exact h.yield 18 rfl rfl

theorem wnfEqlMat_yields {eql : Nat} {a b : Term} {s t : Tag}
    (h : Has K rt [.hole eql, .hole (eql + 1), .word a, .word b] τ) (ha : a.tag = s)
    (hb : b.tag = t) (hs : s.fixedArity = some 2) (ht : t.fixedArity = some 2) :
    Yields K τ (wnfEqlMat rt eql a b) := by
  unfold wnfEqlMat
  by_cases hne : a.ext ≠ b.ext
  · rw [if_pos hne]
    exact num_yields h rfl 0
  · rw [if_neg hne]
    exact wnfEqlPair_yields h.tick ha hb hs ht

theorem wnfEqlUse_yields {eql : Nat} {a b : Term}
    (h : Has K rt [.hole eql, .hole (eql + 1), .word a, .word b] τ) (ha : a.tag = .use)
    (hb : b.tag = .use) : Yields K τ (wnfEqlUse rt eql a b) := by
  have h := h.tick.open₁ 2 rfl ha rfl
  have h := h.open₁ 3 rfl hb rfl
  have h := h.load 4 rfl
  have h := h.load 5 rfl
  have h := h.newAt .eql 0 0 1 7 9 rfl rfl rfl rfl rfl rfl (by decide)
  exact h.yield 10 rfl rfl

/-! Short-circuit conjunction and disjunction -/

theorem wnfAndSup_yields {loc : Nat} {sup : Term}
    (h : Has K rt [.hole loc, .cell (loc + 1), .word sup] τ) (ht : sup.tag = .sup) :
    Yields K τ (wnfAndSup rt loc sup (heapRead rt (loc + 1))) := by
  have h := h.tick.load 1 rfl
  have h := h.clone sup.ext 4 rfl
  have h := h.open₂ 2 rfl ht rfl
  have h := h.load 7 rfl
  have h := h.load 8 rfl
  have h := h.newAt .and 0 0 3 10 5 rfl rfl rfl rfl rfl rfl (by decide)
  have h := h.newNode₂ .and 0 12 6 rfl rfl rfl rfl (by decide)
  have h := h.newAt .sup sup.ext 9 11 13 14 rfl rfl rfl rfl rfl rfl (by decide)
  exact h.yield 15 rfl rfl

theorem wnfAndInc_yields {loc : Nat} {inc : Term}
    (h : Has K rt [.hole loc, .cell (loc + 1), .word inc] τ) (ht : inc.tag = .inc) :
    Yields K τ (wnfAndInc rt loc inc (heapRead rt (loc + 1))) := by
  have hp : inc.Plain := (h.ok 2).1
  have h := h.tick.open₁ 2 rfl ht rfl
  have h := h.load 3 rfl
  have h := h.store 0 5 rfl rfl (by decide)
  have h := h.close₂ .and 0 6 1 rfl rfl rfl rfl (by decide)
  have h := h.store 4 7 rfl rfl (by decide)
  have h := h.wrap₁ 8 rfl hp ht rfl
  exact h.yield 9 rfl rfl

theorem wnfAndNum_yields {loc : Nat} {num : Term}
    (h : Has K rt [.hole loc, .cell (loc + 1), .word num] τ) :
    Yields K τ (wnfAndNum rt num (heapRead rt (loc + 1))) := by
  unfold wnfAndNum
  by_cases h0 : num.val = 0
  · rw [if_pos h0]
    exact num_yields h rfl 0
  · rw [if_neg h0]
    have h := h.tick.load 1 rfl
    exact h.yield 4 rfl rfl

theorem wnfOrSup_yields {loc : Nat} {sup : Term}
    (h : Has K rt [.hole loc, .cell (loc + 1), .word sup] τ) (ht : sup.tag = .sup) :
    Yields K τ (wnfOrSup rt loc sup (heapRead rt (loc + 1))) := by
  have h := h.tick.load 1 rfl
  have h := h.open₂ 2 rfl ht rfl
  have h := h.load 5 rfl
  have h := h.load 6 rfl
  have h := h.clone sup.ext 4 rfl
  have h := h.newAt .or 0 0 3 8 11 rfl rfl rfl rfl rfl rfl (by decide)
  have h := h.newNode₂ .or 0 10 12 rfl rfl rfl rfl (by decide)
  have h := h.newAt .sup sup.ext 7 9 13 14 rfl rfl rfl rfl rfl rfl (by decide)
  exact h.yield 15 rfl rfl

theorem wnfOrInc_yields {loc : Nat} {inc : Term}
    (h : Has K rt [.hole loc, .cell (loc + 1), .word inc] τ) (ht : inc.tag = .inc) :
    Yields K τ (wnfOrInc rt loc inc (heapRead rt (loc + 1))) := by
  have hp : inc.Plain := (h.ok 2).1
  have h := h.tick.load 1 rfl
  have h := h.open₁ 2 rfl ht rfl
  have h := h.load 5 rfl
  have h := h.newAt .or 0 0 3 7 4 rfl rfl rfl rfl rfl rfl (by decide)
  have h := h.store 6 8 rfl rfl (by decide)
  have h := h.wrap₁ 9 rfl hp ht rfl
  exact h.yield 10 rfl rfl

theorem wnfOrNum_yields {loc : Nat} {num : Term}
    (h : Has K rt [.hole loc, .cell (loc + 1), .word num] τ) :
    Yields K τ (wnfOrNum rt num (heapRead rt (loc + 1))) := by
  unfold wnfOrNum
  by_cases h0 : num.val = 0
  · rw [if_pos h0]
    have h := h.tick.load 1 rfl
    exact h.yield 4 rfl rfl
  · rw [if_neg h0]
    exact num_yields h rfl 1

/-! Unscoped binders -/

theorem wnfUns_yields {uns : Term} (h : Has K rt [.word uns] τ) (ht : uns.tag = .uns) :
    Yields K τ (wnfUns rt uns) := by
  have h := h.tick.open₁ 0 rfl ht rfl
  have h := h.load 1 rfl
  have h := h.alloc₁.alloc₁
  have h := h.bindNew 4 rfl
  have h := h.bindNew 5 rfl
  have h := h.bindFill 0 6 9 rfl rfl (by decide)
  have h := h.bindFill 0 8 10 rfl rfl (by decide)
  have h := h.newNode₂ .app 0 3 11 rfl rfl rfl rfl (by decide)
  have h := h.newNode₂ .app 0 12 7 rfl rfl rfl rfl (by decide)
  exact h.yield 13 rfl rfl

end Hvm
