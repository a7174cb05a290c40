import Hvm.Linear.Alo
import Hvm.Linear.Rules

/-! The tokens of frames and machine states, and what each turn of the machine does with
them: every enter step and every frame transition keeps the machine linear. -/

namespace Hvm

open LinearHeap Machine

/-- The words a suspended primitive keeps. -/
def Native.words : Native → List Term
  | .back | .logPrint => []
  | .logGo0 acc => [acc]
  | .logGo1 acc tail | .logGo2 acc tail => [acc, tail]
  | .logPrintHead tail | .logPrintCode tail => [tail]

/-- What a frame holds. The cell whose content is being reduced is a hole. -/
def frameRes : Frame → List Res
  | .native k => k.words.map .word
  | .tm t =>
    match t.tag with
    | .app | .op2 | .eql | .and | .or => [.hole t.val, .cell (t.val + 1)]
    | .fEqlR => [.cell t.val, .hole (t.val + 1)]
    | .dsu | .ddu => [.hole t.val, .cell (t.val + 1), .cell (t.val + 2)]
    | .dp0 => [.taken t.val t.ext false]
    | .dp1 => [.taken t.val t.ext true]
    | .fOp2Num => []
    | _ => [.word t]

def FrameOk (K : Statics) (f : Frame) : Prop :=
  (∀ r ∈ frameRes f, r.Ok K) ∧ ∀ t, f = .tm t → t.Plain

def stackToks (stack : List Frame) : Toks := (stack.map fun f => resToks (frameRes f)).sum

def Mode.word : Mode → Term
  | .enter t | .apply t => t

/-- The machine is linear: the word at hand, the frames and the tokens `σ` kept outside
the machine account for the heap. -/
structure Linearised (K : Statics) (σ : Toks) (m : Machine) : Prop where
  own : Has K m.rt [.word m.mode.word] (stackToks m.stack + σ)
  frames : ∀ f ∈ m.stack, FrameOk K f

/-- Every definition of the book is a closed book term. -/
def BookOk (K : Statics) (book : BookTable) : Prop :=
  ∀ id, book id ≠ 0 → ∃ b, K (book id) = some (.tm b) ∧ BookTm K 0 b 0

variable {K K' : Statics} {rt : Rt} {stack : List Frame} {σ τ : Toks}

theorem FrameOk.mono (hK : K.Le K') {f : Frame} (h : FrameOk K f) : FrameOk K' f :=
  ⟨fun r hr => (h.1 r hr).mono hK, h.2⟩

theorem BookOk.mono (hK : K.Le K') {book : BookTable} (h : BookOk K book) : BookOk K' book := by
  intro id hid
  obtain ⟨b, hb, hbook⟩ := h id hid
  exact ⟨b, hK _ _ hb, hbook.mono hK⟩

@[simp] theorem stackToks_cons (f : Frame) (stack : List Frame) :
    stackToks (f :: stack) = resToks (frameRes f) + stackToks stack := by
  simp [stackToks]

/-- What one turn of the machine leaves is linear, in a heap with more static cells. -/
def Keeps (K : Statics) (σ : Toks) (o : Outcome) : Prop :=
  ∀ m, o = .next m → ∃ K', K.Le K' ∧ Linearised K' σ m

theorem keeps_exit (f : Fault) : Keeps K σ (.exit f) := by
  intro m hm
  cases hm

theorem keeps_next {m : Machine} (h : Linearised K σ m) : Keeps K σ (.next m) := by
  intro m' hm
  cases hm
  exact ⟨K, Frozen.Le.refl K, h⟩

theorem keeps_enter {r : Rt × Term} (h : Yields K (stackToks stack + σ) r)
    (hf : ∀ f ∈ stack, FrameOk K f) : Keeps K σ (goEnter stack r) :=
  keeps_next ⟨h, hf⟩

theorem keeps_apply {r : Rt × Term} (h : Yields K (stackToks stack + σ) r)
    (hf : ∀ f ∈ stack, FrameOk K f) : Keeps K σ (goApply stack r) :=
  keeps_next ⟨h, hf⟩

theorem keeps_enter_le {r : Rt × Term} (h : ∃ K', K.Le K' ∧ Yields K' (stackToks stack + σ) r)
    (hf : ∀ f ∈ stack, FrameOk K f) : Keeps K σ (goEnter stack r) := by
  obtain ⟨K', hK, hy⟩ := h
  intro m hm
  cases hm
  exact ⟨K', hK, hy, fun f hm => (hf f hm).mono hK⟩

/-- A frame is pushed over the word to be reduced. -/
theorem keeps_push {f : Frame} {S : List Res} {md : Mode}
    (h : Has K rt (S ++ [.word md.word]) (stackToks stack + σ)) (hS : frameRes f = S)
    (hp : ∀ t, f = .tm t → t.Plain) (hf : ∀ g ∈ stack, FrameOk K g) :
    Keeps K σ (.next ⟨rt, f :: stack, md⟩) := by
  subst hS
  refine keeps_next ⟨Own.ofList ?_ ?_, ?_⟩
  · intro r hr
    rw [List.mem_singleton.mp hr]
    have hw := h.ok (frameRes f).length
    have he : File.ofList (frameRes f ++ [.word md.word]) (frameRes f).length = .word md.word := by
      simp [File.ofList, List.getD_eq_getElem?_getD]
    rwa [he] at hw
  · have hl := h.list_linear
    have he : resToks [.word md.word] + (stackToks (f :: stack) + σ) =
        resToks (frameRes f ++ [.word md.word]) + (stackToks stack + σ) := by
      rw [stackToks_cons, resToks_append]
      abel
    rw [he]
    exact hl
  · intro g hg
    rcases List.mem_cons.mp hg with rfl | hm
    · refine ⟨fun r hr => ?_, hp⟩
      obtain ⟨i, hi, rfl⟩ := List.mem_iff_getElem.mp hr
      have hw := h.ok i
      have he : File.ofList (frameRes g ++ [.word md.word]) i = (frameRes g)[i] := by
        simp [File.ofList, List.getD_eq_getElem?_getD, List.getElem?_append_left hi,
          List.getElem?_eq_getElem hi]
      rwa [he] at hw
    · exact hf g hm

/-- The top frame is popped: its registers stand before the reduced word. -/
theorem Linearised.pop {f : Frame} {md : Mode} {S : List Res}
    (h : Linearised K σ ⟨rt, f :: stack, md⟩) (hS : frameRes f = S) :
    Has K rt (S ++ [.word md.word]) (stackToks stack + σ) := by
  subst hS
  refine Own.ofList ?_ ?_
  · intro r hr
    rcases List.mem_append.mp hr with hm | hm
    · exact (h.frames f (by simp)).1 r hm
    · rw [List.mem_singleton.mp hm]
      exact h.own.ok 0
  · have hl := h.own.list_linear
    have he : resToks (frameRes f ++ [.word md.word]) + (stackToks stack + σ) =
        resToks [.word md.word] + (stackToks (f :: stack) + σ) := by
      rw [stackToks_cons, resToks_append]
      abel
    rw [he]
    exact hl

theorem Linearised.tail {f : Frame} {md : Mode} (h : Linearised K σ ⟨rt, f :: stack, md⟩) :
    ∀ g ∈ stack, FrameOk K g := fun g hg => h.frames g (by simp [hg])

/-! Frames -/

section Frames

variable {t w : Term}

section

attribute [local simp] frameRes

theorem frameRes_pair {tag : Tag} (ht : t.tag = tag)
    (hm : tag = .app ∨ tag = .op2 ∨ tag = .eql ∨ tag = .and ∨ tag = .or) :
    frameRes (.tm t) = [.hole t.val, .cell (t.val + 1)] := by
  subst ht
  rcases hm with hm | hm | hm | hm | hm <;> simp [hm]

theorem frameRes_triple {tag : Tag} (ht : t.tag = tag) (hm : tag = .dsu ∨ tag = .ddu) :
    frameRes (.tm t) = [.hole t.val, .cell (t.val + 1), .cell (t.val + 2)] := by
  subst ht
  rcases hm with hm | hm <;> simp [hm]

theorem frameRes_word {tag : Tag} (ht : t.tag = tag) (hm : tag = .mat ∨ tag = .swi ∨ tag = .use) :
    frameRes (.tm t) = [.word t] := by
  subst ht
  rcases hm with hm | hm | hm <;> simp [hm]

theorem frameRes_dup {side : Bool} (ht : t.tag = dupTag side) :
    frameRes (.tm t) = [.taken t.val t.ext side] := by
  cases side <;> simp [ht, dupTag]

end

/-- A two-field node is stuck on its first field. -/
theorem stuck₂_yields {tag : Tag} (h : Has K rt [.hole t.val, .cell (t.val + 1), .word w] τ)
    (hp : t.Plain) (ht : t.tag = tag) (hn : tag.fixedArity = some 2) :
    Yields K τ (heapSet rt t.val w, t) := by
  have h := h.store 0 2 rfl rfl (by decide)
  have h := h.wrap₂ 3 1 rfl rfl hp ht hn (by decide)
  exact h.yield 4 rfl rfl

theorem stuck₃_yields {tag : Tag}
    (h : Has K rt [.hole t.val, .cell (t.val + 1), .cell (t.val + 2), .word w] τ)
    (hp : t.Plain) (ht : t.tag = tag) (hn : tag.fixedArity = some 3) :
    Yields K τ (heapSet rt t.val w, t) := by
  have h := h.store 0 3 rfl rfl (by decide)
  have h := h.wrap₃ 4 1 2 rfl rfl rfl hp ht hn (by decide)
  exact h.yield 5 rfl rfl

theorem applyApp_keeps (h : Linearised K σ ⟨rt, .tm t :: stack, .apply w⟩) (ht : t.tag = .app) :
    Keeps K σ (applyApp rt stack t w) := by
  have hp : t.Plain := (h.frames (.tm t) (by simp)).2 t rfl
  have hf := h.tail
  have hh := h.pop (frameRes_pair ht (by simp))
  have hw : w.Plain := (hh.ok 2).1
  -- a matcher at the head waits for the argument
  have hmat : ∀ tag, w.tag = tag → tag = .mat ∨ tag = .swi ∨ tag = .use →
      Keeps K σ (.next ⟨rt, .tm w :: stack, .enter (heapRead rt (t.val + 1))⟩) := by
    intro tag hwt hm
    have hh := hh.load 1 rfl
    have hh := hh.keep [2, 4] (by decide) rfl
    exact keeps_push hh (frameRes_word hwt hm) (by rintro u ⟨⟩; exact hw) hf
  unfold applyApp
  dsimp only
  split
  case h_1 => exact keeps_apply (wnfEra_yields hh rfl) hf
  case h_2 | h_3 | h_4 | h_5 => exact keeps_apply (wnfAppNam_yields hh) hf
  case h_6 => exact keeps_apply (wnfAppNam_yields hh) hf
  case h_7 hl => exact keeps_enter (wnfAppLam_yields hh hl) hf
  case h_8 hs => exact keeps_apply (wnfAppSup_yields hh hs) hf
  case h_9 hi => exact keeps_apply (wnfAppInc_yields hh hi) hf
  case h_10 hm => exact hmat _ hm (by simp)
  case h_11 hm => exact hmat _ hm (by simp)
  case h_12 hm => exact hmat _ hm (by simp)
  case h_13 | h_14 => exact keeps_exit _
  case h_15 => exact keeps_apply (stuck₂_yields hh hp ht rfl) hf

theorem applyMat_keeps {tag : Tag} (h : Linearised K σ ⟨rt, .tm t :: stack, .apply w⟩)
    (ht : t.tag = tag) (hm : tag = .mat ∨ tag = .swi) : Keeps K σ (applyMat rt stack t w) := by
  have hf := h.tail
  have hn : tag.fixedArity = some 2 := by
    rcases hm with rfl | rfl <;> rfl
  have hh := h.pop (frameRes_word ht (hm.imp id .inl))
  unfold applyMat
  split
  case h_1 => exact keeps_apply (wnfEra_yields hh rfl) hf
  case h_2 hs => exact keeps_apply (wnfAppMatSup_yields hh hs) hf
  case h_3 hi => exact keeps_apply (wnfMatInc_yields hh hi) hf
  case h_4 hc => exact keeps_enter (wnfAppMatCtr_yields hh ht hn hc) hf
  case h_5 => exact keeps_enter (wnfAppMatNum_yields hh ht hn) hf
  case h_6 | h_7 | h_8 | h_9 | h_10 =>
    have hh := hh.newNode₂ .dry 0 0 1 rfl rfl rfl rfl (by decide)
    exact keeps_apply (hh.yield 2 rfl rfl) hf
  case h_11 =>
    have hh := hh.newNode₂ .app 0 0 1 rfl rfl rfl rfl (by decide)
    exact keeps_apply (hh.yield 2 rfl rfl) hf

theorem applyUse_keeps (h : Linearised K σ ⟨rt, .tm t :: stack, .apply w⟩) (ht : t.tag = .use) :
    Keeps K σ (applyUse rt stack t w) := by
  have hf := h.tail
  have hh := h.pop (frameRes_word ht (by simp))
  unfold applyUse
  split
  case h_1 => exact keeps_apply (wnfEra_yields hh rfl) hf
  case h_2 hs => exact keeps_apply (wnfUseSup_yields hh ht hs) hf
  case h_3 hi => exact keeps_apply (wnfMatInc_yields hh hi) hf
  case h_4 => exact keeps_enter (wnfUseVal_yields hh ht) hf

theorem applyDup_keeps (side : Bool) (h : Linearised K σ ⟨rt, .tm t :: stack, .apply w⟩)
    (ht : t.tag = dupTag side) : Keeps K σ (applyDup rt stack t w) := by
  have hp : t.Plain := (h.frames (.tm t) (by simp)).2 t rfl
  have hf := h.tail
  have hh := h.pop (frameRes_dup ht)
  have hside : (t.tag == .dp1) = side := by
    rw [ht]
    cases side <;> rfl
  have hnam : wordToks w = 0 → Keeps K σ (goApply stack (wnfDupNam rt t.val w)) :=
    fun h0 => keeps_apply (wnfDupNam_yields hh h0) hf
  have hnod : w.tag.owns = true → Yields K (stackToks stack + σ) (wnfDupNod rt t.ext t.val side w) :=
    fun ho => wnfDupNod_yields hh ho
  unfold applyDup
  dsimp only
  rw [hside]
  split
  case h_1 hw | h_2 hw | h_3 hw | h_4 hw =>
    refine hnam ?_
    simp [wordToks, hw, cellToks, termArity, tagArity]
  case h_5 hl => exact keeps_apply (wnfDupLam_yields hh hl) hf
  case h_6 hs => exact keeps_enter (wnfDupSup_yields hh hs) hf
  case h_7 hw | h_8 hw | h_9 hw | h_10 hw => exact keeps_apply (hnod (by rw [hw]; rfl)) hf
  case h_11 hw | h_12 hw | h_13 hw | h_14 hw | h_15 hw | h_16 hw | h_17 hw | h_18 hw | h_19 hw =>
    exact keeps_enter (hnod (by rw [hw]; rfl)) hf
  case h_20 =>
    have hh := hh.putBack 0 1 rfl rfl ht hp (by decide)
    exact keeps_apply (hh.yield 2 rfl rfl) hf

theorem applyOp2_keeps (h : Linearised K σ ⟨rt, .tm t :: stack, .apply w⟩) (ht : t.tag = .op2) :
    Keeps K σ (applyOp2 rt stack t w) := by
  have hp : t.Plain := (h.frames (.tm t) (by simp)).2 t rfl
  have hf := h.tail
  have hh := h.pop (frameRes_pair ht (by simp))
  unfold applyOp2
  dsimp only
  split
  case h_1 => exact keeps_apply (wnfEra_yields hh rfl) hf
  case h_2 =>
    split
    · exact keeps_apply (num_yields hh rfl _) hf
    · have hh := hh.load 1 rfl
      have hh := hh.keep [4] (by decide) rfl
      exact keeps_push (S := []) hh rfl (by rintro u ⟨⟩; exact termNew_plain _ _ _) hf
  case h_3 hs => exact keeps_apply (wnfOp2Sup_yields hh hs) hf
  case h_4 hi => exact keeps_apply (wnfOp2IncX_yields hh hi) hf
  case h_5 => exact keeps_apply (stuck₂_yields hh hp ht rfl) hf

theorem applyOp2Num_keeps (h : Linearised K σ ⟨rt, .tm t :: stack, .apply w⟩)
    (ht : t.tag = .fOp2Num) : Keeps K σ (applyOp2Num rt stack t w) := by
  have hf := h.tail
  have hh := h.pop (S := []) (by simp [frameRes, ht])
  unfold applyOp2Num
  dsimp only
  split
  case h_1 => exact keeps_apply (wnfEra_yields hh rfl) hf
  case h_2 => exact keeps_apply (num_yields hh rfl _) hf
  case h_3 hs => exact keeps_apply (wnfOp2NumSup_yields hh hs) hf
  case h_4 hi => exact keeps_apply (wnfOp2IncY_yields hh hi) hf
  case h_5 =>
    have hh := hh.imm (termNewNum (u32 t.val)) (num_ok _) rfl
    have hh := hh.newNode₂ .op2 t.ext 1 0 rfl rfl rfl rfl (by decide)
    exact keeps_apply (hh.yield 2 rfl rfl) hf

theorem applyEql_keeps (h : Linearised K σ ⟨rt, .tm t :: stack, .apply w⟩) (ht : t.tag = .eql) :
    Keeps K σ (applyEql rt stack t w) := by
  have hf := h.tail
  have hh := h.pop (frameRes_pair ht (by simp))
  unfold applyEql
  dsimp only
  split
  case h_1 => exact keeps_apply (wnfEra_yields hh rfl) hf
  case h_2 => exact keeps_apply (num_yields hh rfl 1) hf
  case h_3 hs => exact keeps_apply (wnfEqlSupL_yields hh hs) hf
  case h_4 hi => exact keeps_apply (wnfEqlIncL_yields hh hi) hf
  case h_5 =>
    have hh := hh.load 1 rfl
    have hh := hh.store 0 2 rfl rfl (by decide)
    have hh := hh.keep [5, 3, 4] (by decide) rfl
    exact keeps_push (S := [.cell t.val, .hole (t.val + 1)]) hh rfl
      (by rintro u ⟨⟩; exact termNew_plain _ _ _) hf

theorem isNam_toks (hw : w.tag.isNam = true) : wordToks w = 0 := by
  cases h : w.tag <;> simp [h, Tag.isNam] at hw <;>
    simp [wordToks, h, cellToks, termArity, tagArity]

theorem isMat_arity (hw : w.tag.isMat = true) : w.tag.fixedArity = some 2 := by
  cases h : w.tag <;> simp [h, Tag.isMat] at hw <;> rfl

theorem isCtr_tag (hw : w.tag.isCtr = true) : ∃ n, w.tag = .ctr n := by
  cases h : w.tag <;> simp [h, Tag.isCtr] at hw
  exact ⟨_, rfl⟩

theorem applyEqlR_keeps (h : Linearised K σ ⟨rt, .tm t :: stack, .apply w⟩) (ht : t.tag = .fEqlR) :
    Keeps K σ (applyEqlR rt stack t w) := by
  have hf := h.tail
  have hh := h.pop (S := [.cell t.val, .hole (t.val + 1)]) (by simp [frameRes, ht])
  unfold applyEqlR
  dsimp only
  split
  case h_1 => exact keeps_apply (wnfEra_yields hh rfl) hf
  case h_2 => exact keeps_apply (num_yields hh rfl 1) hf
  case h_3 hs => exact keeps_apply (wnfEqlSupR_yields hh hs) hf
  case h_4 hi => exact keeps_apply (wnfEqlIncR_yields hh hi) hf
  case h_5 =>
    -- the left side joins the registers for the rules that compare two nodes
    have hload := hh.load 0 rfl
    have hnodes := hload.keep [3, 1, 4, 2] (by decide) rfl
    split_ifs with h1 h2 h3 h4 h5 h6 h7 h8
    · exact keeps_apply (num_yields hh rfl 1) hf
    · exact keeps_apply (num_yields hh rfl _) hf
    · exact keeps_enter (wnfEqlLam_yields (hload.keep [4, 2] (by decide) rfl) h3.1 h3.2) hf
    · obtain ⟨n, ha⟩ := isCtr_tag h4.1
      obtain ⟨m, hb⟩ := isCtr_tag h4.2
      exact keeps_enter (wnfEqlCtr_yields hnodes ha hb) hf
    · exact keeps_enter (wnfEqlMat_yields hnodes rfl rfl (isMat_arity h5.1) (isMat_arity h5.2)) hf
    · exact keeps_enter (wnfEqlUse_yields hnodes h6.1 h6.2) hf
    · exact keeps_apply (num_yields hh rfl _) hf
    · exact keeps_enter (wnfEqlPair_yields hnodes.tick h8.1 h8.2 rfl rfl) hf
    · exact keeps_apply (num_yields hh rfl 0) hf

theorem applyDsu_keeps (h : Linearised K σ ⟨rt, .tm t :: stack, .apply w⟩) (ht : t.tag = .dsu) :
    Keeps K σ (applyDsu rt stack t w) := by
  have hp : t.Plain := (h.frames (.tm t) (by simp)).2 t rfl
  have hf := h.tail
  have hh := h.pop (frameRes_triple ht (by simp))
  unfold applyDsu
  dsimp only
  split
  case h_1 => exact keeps_apply (wnfEra_yields hh rfl) hf
  case h_2 => exact keeps_apply (wnfDsuNum_yields hh) hf
  case h_3 hs => exact keeps_apply (wnfDsuSup_yields hh hs) hf
  case h_4 hi => exact keeps_apply (wnfDsuInc_yields hh hi) hf
  case h_5 => exact keeps_apply (stuck₃_yields hh hp ht rfl) hf

theorem applyDdu_keeps (h : Linearised K σ ⟨rt, .tm t :: stack, .apply w⟩) (ht : t.tag = .ddu) :
    Keeps K σ (applyDdu rt stack t w) := by
  have hp : t.Plain := (h.frames (.tm t) (by simp)).2 t rfl
  have hf := h.tail
  have hh := h.pop (frameRes_triple ht (by simp))
  unfold applyDdu
  dsimp only
  split
  case h_1 => exact keeps_apply (wnfEra_yields hh rfl) hf
  case h_2 => exact keeps_enter (wnfDduNum_yields hh) hf
  case h_3 hs => exact keeps_apply (wnfDduSup_yields hh hs) hf
  case h_4 hi => exact keeps_apply (wnfDduInc_yields hh hi) hf
  case h_5 => exact keeps_apply (stuck₃_yields hh hp ht rfl) hf

theorem applyAnd_keeps (h : Linearised K σ ⟨rt, .tm t :: stack, .apply w⟩) (ht : t.tag = .and) :
    Keeps K σ (applyAnd rt stack t w) := by
  have hp : t.Plain := (h.frames (.tm t) (by simp)).2 t rfl
  have hf := h.tail
  have hh := h.pop (frameRes_pair ht (by simp))
  unfold applyAnd
  dsimp only
  split
  case h_1 => exact keeps_apply (wnfEra_yields hh rfl) hf
  case h_2 hs => exact keeps_apply (wnfAndSup_yields hh hs) hf
  case h_3 hi => exact keeps_apply (wnfAndInc_yields hh hi) hf
  case h_4 => exact keeps_enter (wnfAndNum_yields hh) hf
  case h_5 => exact keeps_apply (stuck₂_yields hh hp ht rfl) hf

theorem applyOr_keeps (h : Linearised K σ ⟨rt, .tm t :: stack, .apply w⟩) (ht : t.tag = .or) :
    Keeps K σ (applyOr rt stack t w) := by
  have hp : t.Plain := (h.frames (.tm t) (by simp)).2 t rfl
  have hf := h.tail
  have hh := h.pop (frameRes_pair ht (by simp))
  unfold applyOr
  dsimp only
  split
  case h_1 => exact keeps_apply (wnfEra_yields hh rfl) hf
  case h_2 hs => exact keeps_apply (wnfOrSup_yields hh hs) hf
  case h_3 hi => exact keeps_apply (wnfOrInc_yields hh hi) hf
  case h_4 => exact keeps_enter (wnfOrNum_yields hh) hf
  case h_5 => exact keeps_apply (stuck₂_yields hh hp ht rfl) hf

end Frames

/-! Primitives -/

section Primitives

variable {w acc tail : Term}

theorem logInc_yields {inc x : Term} (h : Has K rt [.word acc, .hole inc.val, .word x] τ) :
    Yields K τ (logInc rt inc acc x) := by
  have h := h.newNode₂ .app 0 0 2 rfl rfl rfl rfl (by decide)
  have h := h.newNode₁ .pri primLog 3 rfl rfl rfl
  have h := h.store 1 4 rfl rfl (by decide)
  have h := h.close₁ .inc 0 5 rfl rfl rfl
  exact h.yield 6 rfl rfl

theorem logGo0Sup_yields (h : Has K rt [.word acc, .word w] τ) (hs : w.tag = .sup) :
    Yields K τ (logGo0Sup rt w acc) := by
  have h := h.open₂ 1 rfl hs rfl
  have h := h.load 2 rfl
  have h := h.load 3 rfl
  have h := h.clone w.ext 0 rfl
  have h := h.newNode₂ .app 0 8 5 rfl rfl rfl rfl (by decide)
  have h := h.newNode₁ .pri primLog 10 rfl rfl rfl
  have h := h.newNode₂ .app 0 9 7 rfl rfl rfl rfl (by decide)
  have h := h.newNode₁ .pri primLog 12 rfl rfl rfl
  have h := h.newNode₂ .sup w.ext 11 13 rfl rfl rfl rfl (by decide)
  exact h.yield 14 rfl rfl

theorem logGoCharSup_yields (h : Has K rt [.word acc, .word tail, .word w] τ)
    (hs : w.tag = .sup) : Yields K τ (logGoCharSup rt w acc tail) := by
  have h := h.open₂ 2 rfl hs rfl
  have h := h.load 3 rfl
  have h := h.load 4 rfl
  have h := h.clone w.ext 0 rfl
  have h := h.clone w.ext 1 rfl
  have h := h.newCtr₁ symChr 6 rfl
  have h := h.newCtr₁ symChr 8 rfl
  have h := h.newCtr₂ symCon 13 11 rfl rfl (by decide)
  have h := h.newCtr₂ symCon 14 12 rfl rfl (by decide)
  have h := h.newNode₂ .app 0 9 15 rfl rfl rfl rfl (by decide)
  have h := h.newNode₁ .pri primLog 17 rfl rfl rfl
  have h := h.newNode₂ .app 0 10 16 rfl rfl rfl rfl (by decide)
  have h := h.newNode₁ .pri primLog 19 rfl rfl rfl
  have h := h.newNode₂ .sup w.ext 18 20 rfl rfl rfl rfl (by decide)
  exact h.yield 21 rfl rfl

theorem logGoCharInc_yields (h : Has K rt [.word acc, .word tail, .word w] τ)
    (hi : w.tag = .inc) : Yields K τ (logGoCharInc rt w acc tail) := by
  have h := h.open₁ 2 rfl hi rfl
  have h := h.load 3 rfl
  have h := h.newCtr₁ symChr 5 rfl
  have h := h.newCtr₂ symCon 6 1 rfl rfl (by decide)
  have h := h.keep [0, 4, 7] (by decide) rfl
  exact logInc_yields h

theorem logAccCons_yields (h : Has K rt [.word acc, .word w] τ) :
    Yields K τ (logAccCons rt acc w) := by
  have h := h.alloc₁
  have h := h.bindNew 2 rfl
  have h := h.newCtr₁ symChr 1 rfl
  have h := h.newCtr₂ symCon 5 4 rfl rfl (by decide)
  have h := h.newNode₂ .app 0 0 6 rfl rfl rfl rfl (by decide)
  have h := h.bindFill 0 3 7 rfl rfl (by decide)
  exact h.yield 8 rfl rfl

/-- The fields of a constructor, when the tag shows their number. -/
theorem open_ctr {n : Fin 17} {S : List Res} {i k : Nat} (h : Has K rt S τ)
    (hi : File.ofList S i = .word w) (hc : w.tag = .ctr n) (hn : (n : Nat) = k) :
    Own K rt (S.length + 1) (((File.ofList S).clear [i]).add S.length [.cells w.val k]) τ := by
  have ha : termArity w = k := by simp [termArity, hc, tagArity, hn]
  have h := h.open i hi (by rw [hc]; rfl)
  rwa [ha] at h

theorem nil_ok : WordOk K (termNew false (.ctr 0) symNil 0) := termNew_ok (by decide) _ _

theorem nil_toks : wordToks (termNew false (.ctr 0) symNil 0) = 0 := rfl

theorem logGo0_keeps (h : Has K rt [.word acc, .word w] (stackToks stack + σ))
    (hf : ∀ f ∈ stack, FrameOk K f) : Keeps K σ (nativeReturn rt stack w (.logGo0 acc)) := by
  unfold nativeReturn
  dsimp only
  split
  case h_1 => exact keeps_enter (imm_yields h rfl (termNew_ok (by decide) 0 0) rfl) hf
  case h_2 hi =>
    have h := h.open₁ 1 rfl hi rfl
    have h := h.load 2 rfl
    have h := h.keep [0, 3, 4] (by decide) rfl
    exact keeps_enter (logInc_yields h) hf
  case h_3 hs => exact keeps_enter (logGo0Sup_yields h hs) hf
  case h_4 n hc =>
    split_ifs with hnil hcon
    · have h := h.imm _ nil_ok nil_toks
      have h := h.newNode₂ .app 0 0 2 rfl rfl rfl rfl (by decide)
      have h := h.keep [3] (by decide) rfl
      exact keeps_push (S := []) h rfl (by rintro u ⟨⟩) hf
    · have h := open_ctr (i := 1) h rfl hc (k := 2) (by rw [hcon.1]; rfl)
      have h := h.splitCell 2 rfl
      have h := h.splitCell 4 rfl
      have h := h.load 3 rfl
      have h := h.load 5 rfl
      have h := h.newNode₃ .pri primLogGo1 0 8 10 rfl rfl rfl rfl rfl (by decide)
      have h := h.keep [11] (by decide) rfl
      exact keeps_push (S := []) h rfl (by rintro u ⟨⟩) hf
    · exact keeps_exit _
  case h_5 => exact keeps_exit _

theorem logGo1_keeps (h : Has K rt [.word acc, .word tail, .word w] (stackToks stack + σ))
    (hf : ∀ f ∈ stack, FrameOk K f) : Keeps K σ (nativeReturn rt stack w (.logGo1 acc tail)) := by
  unfold nativeReturn
  dsimp only
  split
  case h_1 => exact keeps_enter (imm_yields h rfl (termNew_ok (by decide) 0 0) rfl) hf
  case h_2 hi => exact keeps_enter (logGoCharInc_yields h hi) hf
  case h_3 hs => exact keeps_enter (logGoCharSup_yields h hs) hf
  case h_4 n hc =>
    split_ifs with hchr
    · have h := open_ctr (i := 2) h rfl hc (k := 1) (by rw [hchr.1]; rfl)
      have h := h.splitCell 3 rfl
      have h := h.load 4 rfl
      have h := h.newNode₃ .pri primLogGo2 0 7 1 rfl rfl rfl rfl rfl (by decide)
      have h := h.keep [8] (by decide) rfl
      exact keeps_push (S := []) h rfl (by rintro u ⟨⟩) hf
    · exact keeps_exit _
  case h_5 => exact keeps_exit _

theorem logGo2_keeps (h : Has K rt [.word acc, .word tail, .word w] (stackToks stack + σ))
    (hf : ∀ f ∈ stack, FrameOk K f) : Keeps K σ (nativeReturn rt stack w (.logGo2 acc tail)) := by
  unfold nativeReturn
  dsimp only
  split
  case h_1 => exact keeps_enter (imm_yields h rfl (termNew_ok (by decide) 0 0) rfl) hf
  case h_2 hi => exact keeps_enter (logGoCharInc_yields h hi) hf
  case h_3 hs => exact keeps_enter (logGoCharSup_yields h hs) hf
  case h_4 =>
    have hpush := h.push [1] (by decide)
    have htail : WordOk K tail := h.ok 1
    have hacc : Yields K (resToks [.word tail] + (stackToks stack + σ)) (logAccCons rt acc w) :=
      logAccCons_yields (hpush.keep [0, 2] (by decide) rfl)
    have h := hacc.pop (S := [.word tail]) (by simpa [Res.Ok] using htail)
    have h := h.newNode₂ .pri primLogGo0 0 1 rfl rfl rfl rfl (by decide)
    have h := h.keep [2] (by decide) rfl
    exact keeps_push (S := []) h rfl (by rintro u ⟨⟩) hf
  case h_5 => exact keeps_exit _

theorem logPrint_keeps (h : Has K rt [.word w] (stackToks stack + σ))
    (hf : ∀ f ∈ stack, FrameOk K f) : Keeps K σ (nativeReturn rt stack w .logPrint) := by
  unfold nativeReturn
  dsimp only
  split
  case h_1 n hc =>
    split_ifs with hnil hcon
    · have h := imm_yields h rfl nil_ok nil_toks
      exact keeps_enter (h.log _) hf
    · have h := open_ctr (i := 0) h rfl hc (k := 2) (by rw [hcon.1]; rfl)
      have h := h.splitCell 1 rfl
      have h := h.splitCell 3 rfl
      have h := h.load 2 rfl
      have h := h.load 4 rfl
      have h := h.keep [9, 7] (by decide) rfl
      exact keeps_push (S := [.word (heapRead rt (w.val + 1))]) h rfl (by rintro u ⟨⟩) hf
    · exact keeps_exit _
  case h_2 => exact keeps_exit _

theorem nativeReturn_keeps {k : Native} (h : Linearised K σ ⟨rt, .native k :: stack, .apply w⟩) :
    Keeps K σ (nativeReturn rt stack w k) := by
  have hf := h.tail
  have hh := h.pop (S := k.words.map .word) rfl
  cases k with
  | back => exact keeps_enter (r := (rt, w)) hh hf
  | logGo0 acc => exact logGo0_keeps hh hf
  | logGo1 acc tail => exact logGo1_keeps hh hf
  | logGo2 acc tail => exact logGo2_keeps hh hf
  | logPrint => exact logPrint_keeps hh hf
  | logPrintHead tail =>
    unfold nativeReturn
    dsimp only
    split_ifs with hchr
    · have hh := open_ctr (i := 1) hh rfl hchr.1 (k := 1) rfl
      have hh := hh.splitCell 2 rfl
      have hh := hh.load 3 rfl
      have hh := hh.keep [0, 6] (by decide) rfl
      exact keeps_push (S := [.word tail]) hh rfl (by rintro u ⟨⟩) hf
    · exact keeps_exit _
  | logPrintCode tail =>
    unfold nativeReturn
    dsimp only
    split_ifs with hnum
    · have hh := (hh.keep [0] (by decide) rfl).log (w.val :: rt.log)
      exact keeps_push (S := []) hh rfl (by rintro u ⟨⟩) hf
    · exact keeps_exit _

theorem wnfPri_keeps (h : Has K rt [.word w] (stackToks stack + σ)) (ht : w.tag = .pri)
    (hf : ∀ f ∈ stack, FrameOk K f) : Keeps K σ (wnfPri rt stack w) := by
  have hopen := h.open 0 rfl (by rw [ht]; rfl)
  have ha : termArity w = primArity w.ext := by simp [termArity, ht]
  rw [ha] at hopen
  unfold wnfPri
  dsimp only
  split_ifs with h1 h2 h3 h4
  · rw [h1] at hopen
    have h := hopen.splitCell 1 rfl
    have h := h.load 2 rfl
    have h := h.alloc₁
    have h := h.bindNew 6 rfl
    have h := h.bindFill 0 7 8 rfl rfl (by decide)
    have h := h.newNode₂ .pri primLogGo0 9 5 rfl rfl rfl rfl (by decide)
    have h := h.keep [10] (by decide) rfl
    exact keeps_push (S := []) h rfl (by rintro u ⟨⟩) hf
  · rw [h2] at hopen
    have h := hopen.splitCell 1 rfl
    have h := h.splitCell 3 rfl
    have h := h.load 2 rfl
    have h := h.load 4 rfl
    have h := h.keep [7, 9] (by decide) rfl
    exact keeps_push (S := [.word (heapRead rt w.val)]) h rfl (by rintro u ⟨⟩) hf
  · rw [h3] at hopen
    have h := hopen.splitCell 1 rfl
    have h := h.splitCell 3 rfl
    have h := h.splitCell 5 rfl
    have h := h.load 2 rfl
    have h := h.load 4 rfl
    have h := h.load 6 rfl
    have h := h.keep [9, 13, 11] (by decide) rfl
    exact keeps_push (S := [.word (heapRead rt w.val), .word (heapRead rt (w.val + 2))]) h rfl
      (by rintro u ⟨⟩) hf
  · rw [h4] at hopen
    have h := hopen.splitCell 1 rfl
    have h := h.splitCell 3 rfl
    have h := h.splitCell 5 rfl
    have h := h.load 2 rfl
    have h := h.load 4 rfl
    have h := h.load 6 rfl
    have h := h.keep [9, 13, 11] (by decide) rfl
    exact keeps_push (S := [.word (heapRead rt w.val), .word (heapRead rt (w.val + 2))]) h rfl
      (by rintro u ⟨⟩) hf
  · exact keeps_exit _

end Primitives

/-! Entering -/

section Entering

variable {w : Term}

/-- The bind list of an ALO still fits the C fields when one more binder is added: 18 bits
of EXT under a lambda, a 16-bit parameter under a dup. -/
def AloFits (rt : Rt) (alo : Term) : Prop :=
  ((heapRead rt (aloRead rt alo).2.2).tag = .lam → alo.ext + 1 ≤ extMask) ∧
    ((heapRead rt (aloRead rt alo).2.2).tag = .dup → alo.ext < 2 ^ 16)

theorem Tag.word_of_isLeaf {tag : Tag} (h : tag.isLeaf = true) :
    tag ≠ .alo ∧ tag.isWord = true := by
  cases tag <;> first | (cases h; done) | exact ⟨nofun, rfl⟩

theorem enterAlo_keeps (h : Has K rt [.word w] (stackToks stack + σ)) (ht : w.tag = .alo)
    (hfit : AloFits rt w) (hf : ∀ f ∈ stack, FrameOk K f) : Keeps K σ (enterAlo rt stack w) := by
  have hext : w.ext ≤ extMask := (h.ok 0).1.2
  obtain ⟨loc, ls, tm, bs, O, hread, hlen, h⟩ := h.openAlo ht
  have hpin : (aloCell loc bs.length).pins = false := by
    unfold aloCell
    split <;> rfl
  have hs : Suspends K ls tm bs O := h.ok 1
  obtain ⟨-, book, hbk, hbook⟩ := hs
  have hbookRead : heapRead rt tm = book := by
    rw [heapRead, h.static hbk]
    rfl
  unfold enterAlo
  dsimp only
  rw [hread]
  dsimp only
  rw [hbookRead, ← hlen]
  have htag : book.tag = .lam → bs.length + 1 ≤ extMask := fun hl => by
    have hh := hfit.1
    rw [hread, hbookRead] at hh
    exact hlen ▸ hh hl
  have hdup : book.tag = .dup → bs.length < 2 ^ 16 := fun hd => by
    have hh := hfit.2
    rw [hread, hbookRead] at hh
    exact hlen ▸ hh hd
  cases hbook with
  | var hp hv h1 hl =>
    have hk := keeps_enter (wnfAloVar_yields h hpin h1 hl) hf
    cases hb : book.tag <;> rw [hb] at hv <;> first | (cases hv; done) | exact hk
  | cop hp hv h1 hl =>
    have hk := keeps_enter (wnfAloCop_yields h hpin hv h1 hl) hf
    cases hb : book.tag <;> rw [hb] at hv <;> first | (cases hv; done) | exact hk
  | lam hp hv hb hbody haff =>
    rw [hv]
    exact keeps_enter_le (wnfAloLam_yields h hb hbody haff (htag hv)) hf
  | dup hp hv hval hb hbv hbb haff =>
    rw [hv]
    exact keeps_enter_le (wnfAloDup_yields h hval hb hbv hbb haff (hdup hv)) hf
  | node hp hv f O hfld hargs =>
    have hk := keeps_enter (wnfAloNod_yields h hp hv (hlen ▸ hext) hfld hargs) hf
    cases hb : book.tag <;> rw [hb] at hv <;> first | (cases hv; done) | exact hk
  | leaf hp hv =>
    have hok : WordOk K book := .of_word hp (Tag.word_of_isLeaf hv)
    have hk := keeps_enter (alo_word_yields h hpin hok (by
      cases hb : book.tag <;> rw [hb] at hv <;>
        first | (cases hv; done) | simp [occToks, wordToks, hb, cellToks, termArity, tagArity])) hf
    cases hb : book.tag <;> rw [hb] at hv <;> first | (cases hv; done) | exact hk

theorem mem_stackToks {t : Tok} (h : t ∈ stackToks stack) :
    ∃ f ∈ stack, ∃ r ∈ frameRes f, t ∈ r.toks := by
  obtain ⟨f, hf, hm⟩ := mem_sum_map.mp h
  obtain ⟨r, hr, hm⟩ := mem_sum_map.mp hm
  exact ⟨f, hf, r, hr, hm⟩

/-- The only unfinished operations on the stack are those of dup frames. -/
theorem frameRes_pins {f : Frame} {r : Res} (hr : r ∈ frameRes f) (hp : r.pins = true) :
    ∃ u side, f = .tm u ∧ u.tag = dupTag side ∧ r = .taken u.val u.ext side := by
  cases f with
  | native k =>
    obtain ⟨x, -, rfl⟩ := List.mem_map.mp hr
    cases hp
  | tm u =>
    unfold frameRes at hr
    dsimp only at hr
    split at hr
    case h_9 ht => exact ⟨u, false, rfl, ht, by simpa using hr⟩
    case h_10 ht => exact ⟨u, true, rfl, ht, by simpa using hr⟩
    all_goals
      simp only [List.mem_cons, List.not_mem_nil, or_false] at hr
    all_goals
      first
        | (subst hr; cases hp)
        | (rcases hr with rfl | rfl <;> cases hp)
        | (rcases hr with rfl | rfl | rfl <;> cases hp)

theorem pinned_stackToks (hσ : ∀ t ∈ σ, ¬ t.Pins) {t : Tok} (h : t ∈ stackToks stack + σ)
    (hp : t.Pins) :
    ∃ u side, Frame.tm u ∈ stack ∧ u.tag = dupTag side ∧ t = .shareHeld u.val (.lab u.ext) side := by
  have hstack := (Multiset.mem_add.mp h).resolve_right fun hm => hσ t hm hp
  obtain ⟨f, hf, r, hr, hm⟩ := mem_stackToks hstack
  have hpin : r.pins = true := by
    by_contra hn
    exact Res.not_pins (by simpa using hn) hm hp
  obtain ⟨u, side, rfl, ht, rfl⟩ := frameRes_pins hr hpin
  exact ⟨u, side, hf, ht, by simpa [Res.toks] using hm⟩

/-- The dup cell whose content a frame reduces. -/
def Frame.dupCell : Frame → Option Nat
  | .native _ => none
  | .tm t => if t.tag = .dp0 ∨ t.tag = .dp1 then some t.val else none

/-- A turn that does not meet the two places where the C code loses track of ownership: a
dup variable is entered only while no other frame reduces its cell, and bind lists fit. -/
def Mode.Undisturbed (rt : Rt) (stack : List Frame) : Mode → Prop
  | .enter t =>
    (t.tag = .dp0 ∨ t.tag = .dp1 → ∀ f ∈ stack, f.dupCell ≠ some t.val) ∧
      (t.tag = .alo → AloFits rt t)
  | .apply _ => True

def Undisturbed (m : Machine) : Prop := m.mode.Undisturbed m.rt m.stack

instance (rt : Rt) (alo : Term) : Decidable (AloFits rt alo) :=
  inferInstanceAs (Decidable (_ ∧ _))

instance (rt : Rt) (stack : List Frame) : (md : Mode) → Decidable (md.Undisturbed rt stack)
  | .enter _ => inferInstanceAs (Decidable (_ ∧ _))
  | .apply _ => .isTrue trivial

instance : DecidablePred Undisturbed := fun m =>
  inferInstanceAs (Decidable (m.mode.Undisturbed m.rt m.stack))

theorem enter_keeps {book : BookTable} (hb : BookOk K book) (hσ : ∀ t ∈ σ, ¬ t.Pins)
    (h : Linearised K σ ⟨rt, stack, .enter w⟩) (hu : Undisturbed ⟨rt, stack, .enter w⟩) :
    Keeps K σ (enter book rt stack w) := by
  have hf : ∀ f ∈ stack, FrameOk K f := h.frames
  have hh : Has K rt [.word w] (stackToks stack + σ) := h.own
  have hp : w.Plain := (hh.ok 0).1
  have hstop : Keeps K σ (.next ⟨rt, stack, .apply w⟩) := keeps_apply (r := (rt, w)) hh hf
  have hpair : ∀ tag, w.tag = tag →
      (tag = .app ∨ tag = .op2 ∨ tag = .eql ∨ tag = .and ∨ tag = .or) →
      Keeps K σ (.next ⟨rt, .tm w :: stack, .enter (heapRead rt w.val)⟩) := by
    intro tag ht hm
    have hn : tag.fixedArity = some 2 := by
      rcases hm with rfl | rfl | rfl | rfl | rfl <;> rfl
    have hh := hh.open₂ 0 rfl ht hn
    have hh := hh.load 1 rfl
    have hh := hh.keep [3, 2, 4] (by decide) rfl
    exact keeps_push hh (frameRes_pair ht hm) (by rintro u ⟨⟩; exact hp) hf
  have htriple : ∀ tag, w.tag = tag → (tag = .dsu ∨ tag = .ddu) →
      Keeps K σ (.next ⟨rt, .tm w :: stack, .enter (heapRead rt w.val)⟩) := by
    intro tag ht hm
    have hn : tag.fixedArity = some 3 := by
      rcases hm with rfl | rfl <;> rfl
    have hh := hh.open₃ 0 rfl ht hn
    have hh := hh.load 1 rfl
    have hh := hh.keep [4, 2, 3, 5] (by decide) rfl
    exact keeps_push hh (frameRes_triple ht hm) (by rintro u ⟨⟩; exact hp) hf
  have hdup : ∀ side, w.tag = dupTag side →
      Keeps K σ (if heapRead rt w.val = Term.zero then .exit (.takeZero w.val)
        else if (heapRead rt w.val).sub then
          .next ⟨rt, stack, .enter (termSubSet (heapRead rt w.val) false)⟩
        else .next ⟨rt, .tm w :: stack, .enter (heapRead rt w.val)⟩) := by
    intro side ht
    have htake := hh.takeShare ht fun a r hm => by
      obtain ⟨u, side', hmem, hu', he⟩ := pinned_stackToks hσ hm trivial
      have htag : w.tag = .dp0 ∨ w.tag = .dp1 := by
        rw [ht]
        cases side
        · exact .inl rfl
        · exact .inr rfl
      have hutag : u.tag = .dp0 ∨ u.tag = .dp1 := by
        rw [hu']
        cases side'
        · exact .inl rfl
        · exact .inr rfl
      refine hu.1 htag _ hmem ?_
      rw [Frame.dupCell, if_pos hutag, ← (LinearHeap.Tok.shareHeld.inj he).1]
    split_ifs with hz hs
    · exact keeps_exit _
    · rw [if_pos hs] at htake
      exact keeps_enter (r := (rt, _)) htake hf
    · rw [if_neg hs] at htake
      exact keeps_push htake (frameRes_dup ht) (by rintro u ⟨⟩; exact hp) hf
  unfold enter
  dsimp only
  split
  case h_1 ht =>
    split_ifs with hs
    · have huse := hh.use ht (fun a hm => by
        obtain ⟨u, side, -, -, he⟩ := pinned_stackToks hσ hm trivial
        cases he) hs
      exact keeps_enter (r := (rt, _)) huse hf
    · exact hstop
  case h_2 ht => exact hdup false ht
  case h_3 ht => exact hdup true ht
  case h_4 ht => exact hpair _ ht (by simp)
  case h_5 ht => exact hpair _ ht (by simp)
  case h_6 ht => exact hpair _ ht (by simp)
  case h_7 ht => exact hpair _ ht (by simp)
  case h_8 ht => exact hpair _ ht (by simp)
  case h_9 ht => exact htriple _ ht (by simp)
  case h_10 ht => exact htriple _ ht (by simp)
  case h_11 ht =>
    have hh := hh.open₂ 0 rfl ht rfl
    have hh := hh.load 2 rfl
    exact keeps_enter (hh.yield 4 rfl rfl) hf
  case h_12 ht => exact keeps_enter (wnfUns_yields hh ht) hf
  case h_13 =>
    split_ifs with hid
    · obtain ⟨b, hbk, hbook⟩ := hb _ hid
      have hok : WordOk K (termNew false .alo 0 (book w.ext)) :=
        ⟨termNew_plain _ _ _, rfl, fun _ _ => ⟨b, hbk, hbook⟩⟩
      exact keeps_enter (imm_yields hh rfl hok rfl) hf
    · exact hstop
  case h_14 ht => exact wnfPri_keeps hh ht hf
  case h_15 ht => exact enterAlo_keeps hh ht (hu.2 ht) hf
  all_goals exact hstop

end Entering

theorem applyFrame_keeps {w : Term} (h : Linearised K σ ⟨rt, stack, .apply w⟩) :
    Keeps K σ (applyFrame rt w stack) := by
  cases stack with
  | nil =>
    intro m hm
    cases hm
  | cons f stack =>
    cases f with
    | native k => exact nativeReturn_keeps h
    | tm t =>
      unfold applyFrame
      dsimp only
      split
      case h_1 ht => exact applyApp_keeps h ht
      case h_2 ht => exact applyMat_keeps h ht (.inl rfl)
      case h_3 ht => exact applyMat_keeps h ht (.inr rfl)
      case h_4 ht => exact applyUse_keeps h ht
      case h_5 ht => exact applyDup_keeps false h ht
      case h_6 ht => exact applyDup_keeps true h ht
      case h_7 ht => exact applyOp2_keeps h ht
      case h_8 ht => exact applyOp2Num_keeps h ht
      case h_9 ht => exact applyEql_keeps h ht
      case h_10 ht => exact applyEqlR_keeps h ht
      case h_11 ht => exact applyDsu_keeps h ht
      case h_12 ht => exact applyDdu_keeps h ht
      case h_13 ht => exact applyAnd_keeps h ht
      case h_14 ht => exact applyOr_keeps h ht
      case h_15 =>
        have hS : frameRes (.tm t) = [.word t] := by
          cases htag : t.tag <;> first | (simp [frameRes, htag]; done) | (exfalso; simp_all)
        exact keeps_apply (r := (rt, w)) ((h.pop hS).keep [1] (by decide) rfl) h.tail

/-- One turn of the machine keeps it linear. -/
theorem step_linear {book : BookTable} {m m' : Machine} (hb : BookOk K book)
    (hσ : ∀ t ∈ σ, ¬ t.Pins) (h : Linearised K σ m) (hu : Undisturbed m) (hs : step book m = .next m') :
    ∃ K', K.Le K' ∧ Linearised K' σ m' := by
  obtain ⟨rt, stack, md⟩ := m
  have hturn := checkHeap_next hs
  cases md with
  | enter next => exact enter_keeps hb hσ h hu m' hturn
  | apply whnf => exact applyFrame_keeps h m' hturn

end Hvm
