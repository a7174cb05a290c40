import Hvm.Choice.Alo
import Hvm.Linear.Machine
import Hvm.Whnf

/-! The machine on first-order terms: frames carry the value at hand to the value of the whole
term, and every turn keeps it. -/

namespace Hvm.Choice

open Oracle Hvm.Machine

variable {K K' : Statics} {rt : Rt} {t w : Term} {d D : Den} {m r R : ℚ} {σ τ : Toks}

/-- Tags of the words of first-order terms. -/
def isFirstOrder : Tag → Bool
  | .num | .era | .any | .ctr _ | .op2 | .sup | .inc | .eql | .and | .or | .dp0 | .dp1 | .alo => true
  | _ => false

theorem Word.isFirstOrder (h : Word K w d m σ) : isFirstOrder w.tag = true := by
  cases h with
  | num _ ht _ | era _ ht | any _ ht | book _ ht _ _ _ _ | pack _ ht _ _ =>
    rw [ht]
    rfl
  | @cop right _ _ _ _ ht _ =>
    rw [ht]
    cases right <;> rfl
  | node _ hs _ _ =>
    cases ht : w.tag <;> rw [ht] at hs <;> first | rfl | cases hs

theorem Word.leaf_inv (h : Word K w d m σ) (hl : w.tag.isLeaf = true) :
    (w.tag = .num ∧ w.val < 2 ^ 32 ∧ d = fun _ => .num w.val) ∨ (w.tag = .era ∧ d = fun _ => .era) ∨
      (w.tag = .any ∧ d = fun _ => .any) := by
  cases h with
  | num _ ht hn => exact .inl ⟨ht, hn, rfl⟩
  | era _ ht => exact .inr (.inl ⟨ht, rfl⟩)
  | any _ ht => exact .inr (.inr ⟨ht, rfl⟩)
  | book _ ht _ _ _ _ | pack _ ht _ _ =>
    rw [ht] at hl
    cases hl
  | @cop right _ _ _ _ ht _ =>
    rw [ht] at hl
    cases right <;> cases hl
  | node _ hs _ _ => cases ht : w.tag <;> rw [ht] at hs hl <;> first | (cases hl; done) | cases hs

theorem Word.num_inv (h : Word K w d m σ) (ht : w.tag = .num) :
    w.val < 2 ^ 32 ∧ d = fun _ => .num w.val := by
  have hl := h.leaf_inv (by rw [ht]; rfl)
  simpa [ht] using hl

theorem Word.era_inv (h : Word K w d m σ) (ht : w.tag = .era) : d = fun _ => .era := by
  have hl := h.leaf_inv (by rw [ht]; rfl)
  simpa [ht] using hl

theorem Word.any_inv (h : Word K w d m σ) (ht : w.tag = .any) : d = fun _ => .any := by
  have hl := h.leaf_inv (by rw [ht]; rfl)
  simpa [ht] using hl

theorem Word.ctr_inv {ari : Fin 17} (h : Word K w d m σ) (ht : w.tag = .ctr ari) :
    ∃ ds : List Den, ds.length = ari ∧ ∀ s, d s = .ctr w.ext (ds.map (· s)) := by
  have hs : Shape.ofTag w.tag w.ext = some (.ctr w.ext ari) := by rw [ht]; rfl
  obtain ⟨cs, hlen, -, rfl, -⟩ := h.node_inv hs
  exact ⟨cs.map Claim.den, by rw [List.length_map, hlen]; rfl, fun _ => rfl⟩

/-- A word the applying phase handles: an operator or a dup variable in it is stuck. -/
def Settled (w : Term) (d : Den) : Prop :=
  match w.tag with
  | .num | .era | .any | .ctr _ | .sup | .inc => True
  | .op2 | .and | .or | .dp0 | .dp1 => ∀ s, (d s).Stuck
  | _ => False

/-- Tags of words that are settled whatever their value. -/
def isHead : Tag → Bool
  | .num | .era | .any | .ctr _ | .sup | .inc => true
  | _ => false

theorem Settled.of_head (h : isHead w.tag = true) : Settled w d := by
  cases ht : w.tag <;> rw [ht] at h <;> first
    | (cases h; done)
    | (unfold Settled; rw [ht]; trivial)

theorem settled_inc (ht : w.tag = .inc) : Settled w d := .of_head (by rw [ht]; rfl)

theorem Settled.of_stuck (h : w.tag = .op2 ∨ w.tag = .and ∨ w.tag = .or ∨ w.tag = .dp0 ∨ w.tag = .dp1)
    (hd : ∀ s, (d s).Stuck) : Settled w d := by
  unfold Settled
  rcases h with h | h | h | h | h <;> rw [h] <;> exact hd

theorem Settled.stuck (h : Settled w d) (ht : isHead w.tag = false) : ∀ s, (d s).Stuck := by
  unfold Settled at h
  cases hwt : w.tag <;> rw [hwt] at h ht <;> first
    | (cases ht; done)
    | exact h
    | exact h.elim

/-- The tags on which operators work. -/
def isWorked : Tag → Bool
  | .num | .era | .sup | .inc => true
  | _ => false

theorem Settled.firm (h : Settled w d) (hw : Word K w d m σ) (ht : isWorked w.tag = false) :
    ∀ s, (d s).Firm := by
  intro s
  unfold Settled at h
  split at h
  case h_1 htag | h_2 htag | h_5 htag | h_6 htag =>
    rw [htag] at ht
    cases ht
  case h_3 htag =>
    rw [hw.any_inv htag]
    exact .any
  case h_4 ari htag =>
    obtain ⟨ds, -, hd⟩ := hw.ctr_inv htag
    rw [hd]
    exact .ctr _ _
  case h_12 => exact h.elim
  all_goals exact .stuck (h s)

/-- The tags equality looks at before it compares heads. -/
def isOpen : Tag → Bool
  | .era | .any | .sup | .inc => true
  | _ => false

theorem Settled.head (h : Settled w d) (ht : isOpen w.tag = false) :
    w.tag = .num ∨ w.tag.isCtr = true ∨ ∀ s, (d s).Stuck := by
  unfold Settled at h
  split at h
  case h_1 htag => exact .inl htag
  case h_4 ari htag =>
    rw [htag]
    exact .inr (.inl rfl)
  case h_2 htag | h_3 htag | h_5 htag | h_6 htag =>
    rw [htag] at ht
    cases ht
  case h_12 => exact h.elim
  all_goals exact .inr (.inr h)

theorem Settled.compared (h : Settled w d) (hw : Word K w d m σ) (ht : isOpen w.tag = false) :
    ∀ s, (d s).Compared := by
  intro s
  rcases h.head ht with htag | htag | hs
  · rw [(hw.num_inv htag).2]
    exact .num _
  · obtain ⟨ari, htag⟩ := isCtr_tag htag
    obtain ⟨ds, -, hd⟩ := hw.ctr_inv htag
    rw [hd]
    exact .ctr _ _
  · exact .stuck (hs s)

/-! ### Frames -/

/-- The frame `f` waits for a word with the value `d`, of rank `m`, to go on with the value `e`,
of rank `r`. -/
inductive Waits : Frame → Den → ℚ → Den → ℚ → List Res → Prop
  | first {t : Term} {s : Shape} {d dy : Den} {m r : ℚ} (hp : t.Plain)
    (hs : Shape.ofTag t.tag t.ext = some s) (hop : t.tag = .op2 ∨ t.tag = .eql ∨ t.tag = .and ∨ t.tag = .or)
    (hr : m < r) : Waits (.tm t) d m (s.den [d, dy]) r [.hole t.val, .cell (t.val + 1) dy m]
  | second {t : Term} {d : Den} {m r : ℚ} (hp : t.Plain) (ht : t.tag = .fOp2Num)
    (hv : t.val < 2 ^ 32) (hr : m < r) :
    Waits (.tm t) d m ((Shape.op2 t.ext).den [fun _ => .num t.val, d]) r []
  | right {t a : Term} {d da : Den} {m r : ℚ} (ht : t.tag = .fEqlR) (ha : Settled a da)
    (hopen : isOpen a.tag = false) (hr : m < r) :
    Waits (.tm t) d m (Shape.eql.den [da, d]) r
      [.filled t.val (.tm a), .word a da m, .hole (t.val + 1)]
  | dup {t : Term} {x : Bool} {d : Den} {m r : ℚ} (hp : t.Plain) (ht : t.tag = dupTag x)
    (hr : m < r) : Waits (.tm t) d m (side t.ext x d) r [.taken t.val t.ext x d m]

/-- The frames lead from the value `d` to the value `D`, and hold the tokens `σ`. -/
inductive Frames (K : Statics) (D : Den) (R : ℚ) : List Frame → Den → ℚ → Toks → Prop
  | nil : Frames K D R [] D R 0
  | cons {f : Frame} {stack : List Frame} {d e : Den} {m r : ℚ} {S : List Res} {σs : List Toks}
    {σ : Toks} (hf : Waits f d m e r S) (hS : List.Forall₂ (Res.Holds K) S σs)
    (hrest : Frames K D R stack e r σ) : Frames K D R (f :: stack) d m (σs.sum + σ)

theorem Waits.lt {f : Frame} {e : Den} {S : List Res} (h : Waits f d m e r S) : m < r := by
  cases h <;> assumption

theorem Frames.mono (hK : K.Le K') {stack : List Frame} (h : Frames K D R stack d m σ) :
    Frames K' D R stack d m σ := by
  induction h with
  | nil => exact .nil
  | cons hf hS _ ih => exact .cons hf (hS.imp fun _ _ hr => Res.Holds.mono hK hr) ih

/-- What a dup frame keeps out of its cell has at least the rank of the word at hand. -/
theorem Frames.held {stack : List Frame} (h : Frames K D R stack d m σ) {l : Nat} {a : Mark} {x : Bool}
    (hm : LinearHeap.Tok.shareHeld l a x ∈ σ) : ∃ n e k, a = .lab n e k ∧ m ≤ k := by
  induction h with
  | nil => cases hm
  | @cons f stack d e m r S σs σ hf hS hrest ih =>
    rcases Multiset.mem_add.mp hm with hm | hm
    · cases hf with
      | dup hp ht hr =>
        obtain ⟨σ, σs, hσ, hnil, rfl⟩ := List.forall₂_cons_left_iff.mp hS
        cases hnil
        rw [List.sum_singleton] at hm
        obtain rfl := (hσ : σ = _)
        obtain ⟨-, rfl, -⟩ := LinearHeap.Tok.shareHeld.inj (Multiset.mem_singleton.mp hm)
        exact ⟨_, _, _, rfl, le_refl _⟩
      | _ =>
        refine (LinearHeap.Ledger.unpinned (G := registers) hS rfl _ hm ?_).elim
        trivial
    · obtain ⟨n, e, k, ha, hk⟩ := ih hm
      exact ⟨n, e, k, ha, hf.lt.le.trans hk⟩

/-! ### Turns -/

/-- The machine is on its way to the value `D`, and holds the tokens `τ` besides. -/
def Computes (K : Statics) (D : Den) (R : ℚ) (τ : Toks) (c : Machine) : Prop :=
  ∃ d m σ, Frames K D R c.stack d m σ ∧ Has K c.rt [.word c.mode.word d m] (σ + τ) ∧
    ∀ w, c.mode = .apply w → Settled w d

/-- A turn goes on to the same value. -/
def Goes (K : Statics) (D : Den) (R : ℚ) (τ : Toks) (o : Outcome) : Prop :=
  ∃ c K', o = .next c ∧ K.Le K' ∧ Computes K' D R τ c

variable {stack : List Frame} {e : Den} {S : List Res}

theorem goes_next {md : Mode} (hf : Frames K D R stack d m σ)
    (h : Has K rt [.word md.word d m] (σ + τ)) (hs : ∀ w, md = .apply w → Settled w d) :
    Goes K D R τ (.next ⟨rt, stack, md⟩) :=
  ⟨_, K, rfl, LinearHeap.Frozen.Le.refl K, d, m, σ, hf, h, hs⟩

theorem goes_enter {x : Rt × Term} (hf : Frames K D R stack d m σ) (h : Yields K (σ + τ) d m x) :
    Goes K D R τ (goEnter stack x) :=
  goes_next hf h fun w hw => (by cases hw)

theorem goes_apply {x : Rt × Term} (hf : Frames K D R stack d m σ) (h : Yields K (σ + τ) d m x)
    (hs : Settled x.2 d) : Goes K D R τ (goApply stack x) :=
  goes_next hf h fun w hw => (by cases hw; exact hs)

/-- A frame is pushed over the word to be reduced. -/
theorem goes_push {f : Frame} {md : Mode} (hw : Waits f d m e r S) (hf : Frames K D R stack e r σ)
    (h : Has K rt (S ++ [.word md.word d m]) (σ + τ)) (hs : ∀ w, md = .apply w → Settled w d) :
    Goes K D R τ (.next ⟨rt, f :: stack, md⟩) := by
  obtain ⟨σs, hS, h⟩ := LinearHeap.Ledger.release h
  rw [← add_assoc] at h
  exact goes_next (.cons hw hS hf) h hs

/-- The top frame is popped. -/
theorem Computes.pop {f : Frame} (h : Computes K D R τ ⟨rt, f :: stack, .apply w⟩) :
    ∃ d m e r S σ, Waits f d m e r S ∧ Frames K D R stack e r σ ∧ Settled w d ∧
      Has K rt (S ++ [.word w d m]) (σ + τ) := by
  obtain ⟨d, m, σ, hf, h, hs⟩ := h
  cases hf with
  | @cons _ _ _ e _ r S σs σ hw hS hrest =>
    rw [add_assoc] at h
    exact ⟨d, m, e, r, S, σ, hw, hrest, hs w rfl, LinearHeap.Ledger.restore hS h⟩

section Apply

theorem applyOp2_goes {dy : Den} (hf : Frames K D R stack ((Shape.op2 t.ext).den [d, dy]) r σ)
    (h : Has K rt [.hole t.val, .cell (t.val + 1) dy m, .word w d m] (σ + τ)) (hs : Settled w d)
    (hp : t.Plain) (ht : t.tag = .op2) (hr : m < r) : Goes K D R τ (applyOp2 rt stack t w) := by
  obtain ⟨ω, hw⟩ := h.word_of 2 rfl
  unfold applyOp2
  dsimp only
  split
  case h_1 hwt =>
    rw [hw.era_inv hwt] at hf
    exact goes_apply hf (wnfEra_yields h rfl) trivial
  case h_2 hwt =>
    obtain ⟨hv, rfl⟩ := hw.num_inv hwt
    have hval : u32 w.val = w.val := Nat.mod_eq_of_lt hv
    have hload := h.load 1 rfl
    split
    case isTrue hyt =>
      obtain ⟨ω, hy⟩ := hload.word_of 4 rfl
      obtain ⟨hvy, rfl⟩ := hy.num_inv hyt
      have hvaly : u32 (heapRead rt (t.val + 1)).val = (heapRead rt (t.val + 1)).val :=
        Nat.mod_eq_of_lt hvy
      rw [hval, hvaly]
      exact goes_apply hf (num_yields h rfl (termOp2U32_lt hv hvy)) trivial
    case isFalse =>
      have hframe := termNew_plain .fOp2Num t.ext w.val
      have hext : (termNew false .fOp2Num t.ext w.val).ext = t.ext :=
        Nat.mod_eq_of_lt (Nat.lt_succ_of_le hp.2)
      have hwaits : Waits (.tm (termNew false .fOp2Num t.ext w.val)) dy m
          ((Shape.op2 (termNew false .fOp2Num t.ext w.val).ext).den [fun _ => .num w.val, dy]) r [] :=
        .second hframe rfl hv hr
      rw [hext] at hwaits
      exact goes_push hwaits hf (hload.keep [4] (by decide) rfl) fun w hw => (by cases hw)
  case h_3 hwt => exact goes_apply hf (wnfOp2Sup_yields h hwt hp.2 hr) trivial
  case h_4 hwt =>
    exact goes_apply hf (wnfOp2IncX_yields h hwt hp.2 hr) (settled_inc hwt)
  case h_5 h1 h2 h3 h4 =>
    have hfirm := hs.firm hw (by
      cases hwt : w.tag <;> first | rfl | exact absurd hwt ‹_›)
    have h := h.store 0 2 rfl rfl (by decide)
    have h := h.close₂ r 3 1 rfl rfl (by decide) hp (s := .op2 t.ext) (by rw [ht]; rfl) rfl hr hr
    refine goes_apply hf (h.yield 4 rfl rfl) (.of_stuck (.inl ht) fun s => ?_)
    have hop : (Shape.op2 t.ext).den [d, dy] s = .op2 t.ext (d s) (dy s) := (hfirm s).op2Of t.ext (dy s)
    rw [hop]
    exact .op2 _ _ _

theorem applyOp2Num_goes (hf : Frames K D R stack ((Shape.op2 t.ext).den [fun _ => .num t.val, d]) r σ)
    (h : Has K rt [.word w d m] (σ + τ)) (hs : Settled w d) (hp : t.Plain) (hv : t.val < 2 ^ 32)
    (hr : m < r) : Goes K D R τ (applyOp2Num rt stack t w) := by
  obtain ⟨ω, hw⟩ := h.word_of 0 rfl
  have hval : u32 t.val = t.val := Nat.mod_eq_of_lt hv
  unfold applyOp2Num
  dsimp only
  rw [hval]
  split
  case h_1 hwt =>
    rw [hw.era_inv hwt] at hf
    exact goes_apply hf (wnfEra_yields h rfl) trivial
  case h_2 hwt =>
    obtain ⟨hvw, rfl⟩ := hw.num_inv hwt
    have hvalw : u32 w.val = w.val := Nat.mod_eq_of_lt hvw
    rw [hvalw]
    exact goes_apply hf (num_yields h rfl (termOp2U32_lt hv hvw)) trivial
  case h_3 hwt => exact goes_apply hf (wnfOp2NumSup_yields h hwt hp.2 hv hr) trivial
  case h_4 hwt => exact goes_apply hf (wnfOp2IncY_yields h hwt hp.2 hv hr) (settled_inc hwt)
  case h_5 =>
    have hfirm := hs.firm hw (by
      cases hwt : w.tag <;> first | rfl | exact absurd hwt ‹_›)
    have h := h.imm (numWord (r := m) hv)
    have h := h.newNode₂ .op2 t.ext r 1 0 rfl rfl rfl hp.2 rfl hr hr (by decide)
    refine goes_apply hf (h.yield 2 rfl rfl) (.of_stuck (.inl rfl) fun s => ?_)
    have hop : (Shape.op2 t.ext).den [fun _ => .num t.val, d] s = .op2 t.ext (.num t.val) (d s) :=
      (hfirm s).op2Of_num t.ext t.val
    rw [hop]
    exact .op2 _ _ _

theorem applyAnd_goes {dy : Den} (hf : Frames K D R stack (Shape.and.den [d, dy]) r σ)
    (h : Has K rt [.hole t.val, .cell (t.val + 1) dy m, .word w d m] (σ + τ)) (hs : Settled w d)
    (hp : t.Plain) (ht : t.tag = .and) (hr : m < r) : Goes K D R τ (applyAnd rt stack t w) := by
  obtain ⟨ω, hw⟩ := h.word_of 2 rfl
  unfold applyAnd
  dsimp only
  split
  case h_1 hwt =>
    rw [hw.era_inv hwt] at hf
    exact goes_apply hf (wnfEra_yields h rfl) trivial
  case h_2 hwt => exact goes_apply hf (wnfAndSup_yields h hwt hr) trivial
  case h_3 hwt => exact goes_apply hf (wnfAndInc_yields h hwt hr) (settled_inc hwt)
  case h_4 hwt =>
    obtain ⟨-, rfl⟩ := hw.num_inv hwt
    exact goes_enter hf (wnfAndNum_yields h rfl hr.le)
  case h_5 =>
    have hfirm := hs.firm hw (by
      cases hwt : w.tag <;> first | rfl | exact absurd hwt ‹_›)
    have h := h.store 0 2 rfl rfl (by decide)
    have h := h.close₂ r 3 1 rfl rfl (by decide) hp (s := .and) (by rw [ht]; rfl) rfl hr hr
    refine goes_apply hf (h.yield 4 rfl rfl) (.of_stuck (.inr (.inl ht)) fun s => ?_)
    have hop : Shape.and.den [d, dy] s = .and (d s) (dy s) := (hfirm s).andOf (dy s)
    rw [hop]
    exact .and _ _

theorem applyOr_goes {dy : Den} (hf : Frames K D R stack (Shape.or.den [d, dy]) r σ)
    (h : Has K rt [.hole t.val, .cell (t.val + 1) dy m, .word w d m] (σ + τ)) (hs : Settled w d)
    (hp : t.Plain) (ht : t.tag = .or) (hr : m < r) : Goes K D R τ (applyOr rt stack t w) := by
  obtain ⟨ω, hw⟩ := h.word_of 2 rfl
  unfold applyOr
  dsimp only
  split
  case h_1 hwt =>
    rw [hw.era_inv hwt] at hf
    exact goes_apply hf (wnfEra_yields h rfl) trivial
  case h_2 hwt => exact goes_apply hf (wnfOrSup_yields h hwt hr) trivial
  case h_3 hwt => exact goes_apply hf (wnfOrInc_yields h hwt hr) (settled_inc hwt)
  case h_4 hwt =>
    obtain ⟨-, rfl⟩ := hw.num_inv hwt
    exact goes_enter hf (wnfOrNum_yields h rfl hr.le)
  case h_5 =>
    have hfirm := hs.firm hw (by
      cases hwt : w.tag <;> first | rfl | exact absurd hwt ‹_›)
    have h := h.store 0 2 rfl rfl (by decide)
    have h := h.close₂ r 3 1 rfl rfl (by decide) hp (s := .or) (by rw [ht]; rfl) rfl hr hr
    refine goes_apply hf (h.yield 4 rfl rfl) (.of_stuck (.inr (.inr (.inl ht))) fun s => ?_)
    have hop : Shape.or.den [d, dy] s = .or (d s) (dy s) := (hfirm s).orOf (dy s)
    rw [hop]
    exact .or _ _

theorem applyEql_goes {dy : Den} (hf : Frames K D R stack (Shape.eql.den [d, dy]) r σ)
    (h : Has K rt [.hole t.val, .cell (t.val + 1) dy m, .word w d m] (σ + τ)) (hs : Settled w d)
    (hr : m < r) : Goes K D R τ (applyEql rt stack t w) := by
  obtain ⟨ω, hw⟩ := h.word_of 2 rfl
  unfold applyEql
  dsimp only
  split
  case h_1 hwt =>
    have hd : Shape.eql.den [d, dy] = fun _ => .era := by
      rw [hw.era_inv hwt]
      funext s
      exact Val.eqlOf_era (dy s)
    rw [hd] at hf
    exact goes_apply hf (wnfEra_yields h rfl) trivial
  case h_2 hwt =>
    have hd : Shape.eql.den [d, dy] = fun _ => .num 1 := by
      rw [hw.any_inv hwt]
      funext s
      exact Val.eqlOf_any (dy s)
    rw [hd] at hf
    exact goes_apply hf (num_yields h rfl (by decide)) trivial
  case h_3 hwt => exact goes_apply hf (wnfEqlSupL_yields h hwt hr) trivial
  case h_4 hwt => exact goes_apply hf (wnfEqlIncL_yields h hwt hr) (settled_inc hwt)
  case h_5 =>
    have hopen : isOpen w.tag = false := by
      cases hwt : w.tag <;> first | rfl | exact absurd hwt ‹_›
    have h := h.load 1 rfl
    have h := h.write (.tm w) 0 rfl
    have h := h.keep [5, 2, 3, 4] (by decide) rfl
    exact goes_push (.right rfl hs hopen hr) hf h fun w hw => (by cases hw)

/-- Different heads are not equal. -/
theorem eql_mismatch {a : Term} {da : Den} {ω ω' : Toks} (ha : Word K a da m ω)
    (hw : Word K w d m ω') (hsa : Settled a da) (hsw : Settled w d) (hoa : isOpen a.tag = false)
    (how : isOpen w.tag = false) (hnum : ¬ (a.tag = .num ∧ w.tag = .num))
    (hctr : ¬ (a.tag.isCtr ∧ w.tag.isCtr)) : Shape.eql.den [da, d] = fun _ => .num 0 := by
  funext s
  change Val.eqlOf (da s) (d s) = .num 0
  rcases hsa.head hoa with hta | hta | hstuck
  · rcases hsw.head how with htw | htw | hstuck
    · exact (hnum ⟨hta, htw⟩).elim
    · obtain ⟨ari, htw⟩ := isCtr_tag htw
      obtain ⟨ds, -, hd⟩ := hw.ctr_inv htw
      rw [(ha.num_inv hta).2, hd]
      simp [Val.eqlOf]
    · exact Val.eqlOf_stuck_right (hsa.compared ha hoa s) (hstuck s)
  · rcases hsw.head how with htw | htw | hstuck
    · obtain ⟨ari, hta⟩ := isCtr_tag hta
      obtain ⟨ds, -, hd⟩ := ha.ctr_inv hta
      rw [(hw.num_inv htw).2, hd]
      simp [Val.eqlOf]
    · exact (hctr ⟨hta, htw⟩).elim
    · exact Val.eqlOf_stuck_right (hsa.compared ha hoa s) (hstuck s)
  · exact Val.eqlOf_stuck_left (hstuck s) (hsw.compared hw how s)

theorem applyEqlR_goes {a : Term} {da : Den}
    (hf : Frames K D R stack (Shape.eql.den [da, d]) r σ)
    (h : Has K rt [.filled t.val (.tm a), .word a da m, .hole (t.val + 1), .word w d m] (σ + τ))
    (hs : Settled w d) (hsa : Settled a da) (hoa : isOpen a.tag = false) (hr : m < r) :
    Goes K D R τ (applyEqlR rt stack t w) := by
  obtain ⟨ω, hwa⟩ := h.word_of 1 rfl
  obtain ⟨ω', hw⟩ := h.word_of 3 rfl
  have hread : heapRead rt t.val = a := by
    rw [heapRead, h.filled_eq 0 rfl]
    rfl
  unfold applyEqlR
  dsimp only
  rw [hread]
  split
  case h_1 hwt =>
    have hd : Shape.eql.den [da, d] = fun _ => .era := by
      rw [hw.era_inv hwt]
      funext s
      exact (hsa.compared hwa hoa s).eqlOf_era
    rw [hd] at hf
    exact goes_apply hf (wnfEra_yields h rfl) trivial
  case h_2 hwt =>
    have hd : Shape.eql.den [da, d] = fun _ => .num 1 := by
      rw [hw.any_inv hwt]
      funext s
      exact (hsa.compared hwa hoa s).eqlOf_any
    rw [hd] at hf
    exact goes_apply hf (num_yields h rfl (by decide)) trivial
  case h_3 hwt => exact goes_apply hf (wnfEqlSupR_yields h hwt hr) trivial
  case h_4 hwt => exact goes_apply hf (wnfEqlIncR_yields h hwt hr) (settled_inc hwt)
  case h_5 =>
    have how : isOpen w.tag = false := by
      cases hwt : w.tag <;> first | rfl | exact absurd hwt ‹_›
    have hfo : ∀ {x : Term} {dx : Den} {ω : Toks}, Word K x dx m ω → x.tag ≠ .lam ∧ x.tag.isMat = false ∧
        x.tag ≠ .use ∧ x.tag.isNam = false ∧ x.tag ≠ .dry := by
      intro x dx ω hx
      have hh := hx.isFirstOrder
      cases hxt : x.tag <;> rw [hxt] at hh <;> first
        | (cases hh; done)
        | exact ⟨fun h => (by cases h), rfl, fun h => (by cases h), rfl, fun h => (by cases h)⟩
    obtain ⟨hlam, hmat, huse, hnam, hdry⟩ := hfo hwa
    split_ifs with h1 h2 h3 h4 h5 h6 h7 h8
    · rw [h1] at hoa
      cases hoa
    · obtain ⟨hva, rfl⟩ := hwa.num_inv h2.1
      obtain ⟨hvw, rfl⟩ := hw.num_inv h2.2
      have hua : u32 a.val = a.val := Nat.mod_eq_of_lt hva
      have huw : u32 w.val = w.val := Nat.mod_eq_of_lt hvw
      have hd : Shape.eql.den [fun _ => .num a.val, fun _ => .num w.val] =
          fun _ => .num (if a.val = w.val then 1 else 0) := by
        funext s
        exact Val.eqlOf_num a.val w.val
      rw [hd] at hf
      have hbit : (if a.val = w.val then 1 else 0) < 2 ^ 32 := by
        split <;> decide
      rw [wnfEqlNum, hua, huw]
      exact goes_apply hf (num_yields h rfl hbit) trivial
    · exact (hlam h3.1).elim
    · obtain ⟨i, hta⟩ := isCtr_tag h4.1
      obtain ⟨j, htw⟩ := isCtr_tag h4.2
      exact goes_enter hf (wnfEqlCtr_yields h hta htw hr)
    · rw [hmat] at h5
      cases h5.1
    · exact (huse h6.1).elim
    · rw [hnam] at h7
      cases h7.1
    · exact (hdry h8.1).elim
    · rw [eql_mismatch hwa hw hsa hs hoa how h2 h4] at hf
      exact goes_apply hf (num_yields h rfl (by decide)) trivial

/-- The copies of a term without fields are the term. -/
theorem wnfDupNod_leaf_yields {x : Bool}
    (h : Has K rt [.taken t.val t.ext x d m, .word w d m] τ)
    (hw : ∀ b k, Word K w (side t.ext b d) k 0) (ha : termArity w = 0) :
    Yields K τ (side t.ext x d) r (wnfDupNod rt t.ext t.val x w) := by
  unfold wnfDupNod
  rw [if_pos ha]
  exact wnfDupNam_yields h hw

theorem applyDup_goes {x : Bool} (hf : Frames K D R stack (side t.ext x d) r σ)
    (h : Has K rt [.taken t.val t.ext x d m, .word w d m] (σ + τ)) (hs : Settled w d)
    (hp : t.Plain) (ht : t.tag = dupTag x) (hr : m < r) : Goes K D R τ (applyDup rt stack t w) := by
  obtain ⟨ω, hw⟩ := h.word_of 1 rfl
  have hwp := hw.plain
  have hfo := hw.isFirstOrder
  have hside : (t.tag == .dp1) = x := by
    rw [ht]
    cases x <;> rfl
  have hnod {s : Shape} (hsh : Shape.ofTag w.tag w.ext = some s) (hsup : s.isSup = false) :
      Goes K D R τ (goEnter stack (wnfDupNod rt t.ext t.val x w)) :=
    goes_enter hf (wnfDupNod_yields h hsh hsup hp.2 hr)
  have hleaf (hl : termArity w = 0) (ht : isHead w.tag = true)
      (hc : ∀ b k, Word K w (side t.ext b d) k 0) :
      Goes K D R τ (goApply stack (wnfDupNod rt t.ext t.val x w)) := by
    refine goes_apply hf (wnfDupNod_leaf_yields h hc hl) (.of_head ?_)
    rw [wnfDupNod_tag]
    exact ht
  unfold applyDup
  dsimp only
  rw [hside]
  split
  case h_6 hwt => exact goes_enter hf (wnfDupSup_yields h hwt hp.2 hr)
  case h_7 hwt =>
    refine hleaf (by simp [termArity, hwt, tagArity]) (by rw [hwt]; rfl) fun b k => ?_
    rw [hw.era_inv hwt]
    exact .era hwp hwt
  case h_8 hwt =>
    refine hleaf (by simp [termArity, hwt, tagArity]) (by rw [hwt]; rfl) fun b k => ?_
    rw [hw.any_inv hwt]
    exact .any hwp hwt
  case h_10 hwt =>
    obtain ⟨hv, rfl⟩ := hw.num_inv hwt
    exact hleaf (by simp [termArity, hwt, tagArity]) (by rw [hwt]; rfl) fun b k => .num hwp hwt hv
  case h_15 hwt => exact hnod (s := .inc) (by rw [hwt]; rfl) rfl
  case h_16 hwt => exact hnod (s := .op2 w.ext) (by rw [hwt]; rfl) rfl
  case h_19 ari hwt => exact hnod (s := .ctr w.ext ari) (by rw [hwt]; rfl) rfl
  case h_20 hctr =>
    have hd := hs.stuck (by
      cases hwt : w.tag <;> first | rfl | exact absurd hwt (hctr _) | exact absurd hwt ‹_›)
    have h := h.putBack r 0 1 rfl rfl hp ht hr (by decide)
    refine goes_apply hf (h.yield 2 rfl rfl) (.of_stuck ?_ fun s => hd _)
    rw [ht]
    cases x
    · exact .inr (.inr (.inr (.inl rfl)))
    · exact .inr (.inr (.inr (.inr rfl)))
  all_goals
    rename_i hwt
    rw [hwt] at hfo
    cases hfo

end Apply

/-! ### Book terms by their tags -/

theorem bookTm_leaf {len : Nat} {w : Term} {O : Multiset Occ} (h : BookTm K len w O) (ht : w.tag.isLeaf = true) :
    O = 0 := by
  cases h with
  | leaf => rfl
  | lam _ hv _ _ _ | dup _ hv _ _ _ _ _ =>
    rw [hv] at ht
    cases ht
  | var _ hv _ _ | cop _ hv _ _ | node _ hv _ _ _ _ =>
    cases htag : w.tag <;> rw [htag] at ht hv <;> first | (cases ht; done) | cases hv

theorem bookTm_cop {len : Nat} {w : Term} {O : Multiset Occ} {right : Bool} (h : BookTm K len w O)
    (ht : w.tag.copSide = some right) :
    O = {.cop right w.ext (u32 w.val)} ∧ 1 ≤ u32 w.val ∧ u32 w.val ≤ len := by
  cases h with
  | cop _ hv h1 hl =>
    rw [ht] at hv
    obtain rfl := Option.some.inj hv
    exact ⟨rfl, h1, hl⟩
  | lam _ hv _ _ _ | dup _ hv _ _ _ _ _ =>
    rw [hv] at ht
    cases ht
  | leaf _ hv | var _ hv _ _ | node _ hv _ _ _ _ =>
    cases htag : w.tag <;> rw [htag] at ht hv <;> first | (cases ht; done) | cases hv

theorem bookTm_node {len : Nat} {w : Term} {O : Multiset Occ} (h : BookTm K len w O) (ht : w.tag.isNode = true) :
    ∃ (f : Nat → Term) (P : Nat → Multiset Occ), O = ∑ i ∈ Finset.range (termArity w), P i ∧
      ∀ i, i < termArity w → K (w.val + i) = some (.tm (f i)) ∧ BookTm K len (f i) (P i) := by
  cases h with
  | node _ _ f P hf hargs => exact ⟨f, P, rfl, fun i hi => ⟨hf i hi, hargs i hi⟩⟩
  | lam _ hv _ _ _ | dup _ hv _ _ _ _ _ =>
    rw [hv] at ht
    cases ht
  | leaf _ hv | var _ hv _ _ | cop _ hv _ _ =>
    cases htag : w.tag <;> rw [htag] at ht hv <;> first | (cases ht; done) | cases hv

theorem bookTm_dup {len : Nat} {w v b : Term} {O : Multiset Occ} (h : BookTm K len w O) (ht : w.tag = .dup)
    (hv : K w.val = some (.tm v)) (hb : K (w.val + 1) = some (.tm b)) :
    ∃ Ov Ob, O = Ov + Ob.filter (·.lvl ≤ len) ∧ BookTm K len v Ov ∧ BookTm K (len + 1) b Ob ∧
      Ob.filter (·.lvl = len + 1) ≤ {.cop false w.ext (len + 1)} + {.cop true w.ext (len + 1)} := by
  cases h with
  | dup _ _ hv' hb' hval hbody haff =>
    rw [hv] at hv'
    rw [hb] at hb'
    obtain rfl := Cell.tm.inj (Option.some.inj hv')
    obtain rfl := Cell.tm.inj (Option.some.inj hb')
    exact ⟨_, _, rfl, hval, hbody, haff⟩
  | lam _ hv _ _ _ =>
    rw [hv] at ht
    cases ht
  | leaf _ hv | var _ hv _ _ | cop _ hv _ _ | node _ hv _ _ _ _ =>
    rw [ht] at hv
    cases hv

/-! ### Entering -/

/-- An operator node is entered at its first operand. -/
theorem enterFirst_goes {s : Shape} (hf : Frames K D R stack d m σ)
    (h : Has K rt [.word w d m] (σ + τ)) (hs : Shape.ofTag w.tag w.ext = some s)
    (hop : w.tag = .op2 ∨ w.tag = .eql ∨ w.tag = .and ∨ w.tag = .or) :
    Goes K D R τ (.next ⟨rt, .tm w :: stack, .enter (heapRead rt w.val)⟩) := by
  have hp := h.plain 0 rfl
  have hari : s.arity = 2 := by
    rw [← Shape.arity_of_ofTag hs]
    rcases hop with hop | hop | hop | hop <;> rw [hop] <;> rfl
  obtain ⟨a, b, k, ⟨hk, rfl⟩, h⟩ := h.open₂ 0 rfl hs hari
  have h := h.load 1 rfl
  have h := h.keep [3, 2, 4] (by decide) rfl
  exact goes_push (.first hp hs hop hk) hf h fun w hw => (by cases hw)

theorem enterDup_goes {x : Bool} (hτ : ∀ t ∈ τ, ¬ t.Pins) (hf : Frames K D R stack d m σ)
    (h : Has K rt [.word w d m] (σ + τ)) (ht : w.tag = dupTag x) :
    Goes K D R τ (if heapRead rt w.val = Term.zero then .exit (.takeZero w.val)
      else if (heapRead rt w.val).sub then
        .next ⟨rt, stack, .enter (termSubSet (heapRead rt w.val) false)⟩
      else .next ⟨rt, .tm w :: stack, .enter (heapRead rt w.val)⟩) := by
  have hp := h.plain 0 rfl
  have hfree : ∀ a r, LinearHeap.Tok.shareHeld w.val a r ∈ σ + τ →
      ∃ n e k, a = .lab n e k ∧ m ≤ k := by
    intro a r hm
    rcases Multiset.mem_add.mp hm with hm | hm
    · exact hf.held hm
    · exact (hτ _ hm trivial).elim
  rcases h.takeShare ht hfree with ⟨hsub, h'⟩ | ⟨hsub, e, k, ⟨hk, rfl⟩, h'⟩
  · have hz : heapRead rt w.val ≠ Term.zero := by
      intro hz
      rw [hz] at hsub
      cases hsub
    rw [if_neg hz, if_pos hsub]
    exact goes_enter (x := (rt, _)) hf h'
  · have hz : heapRead rt w.val ≠ Term.zero := by
      intro hz
      obtain ⟨ω, hx⟩ := h'.word_of 1 rfl
      have hfo := hx.isFirstOrder
      rw [hz] at hfo
      cases hfo
    rw [if_neg hz, if_neg (by rw [hsub]; exact Bool.false_ne_true)]
    exact goes_push (.dup hp ht hk) hf h' fun w hw => (by cases hw)

theorem goes_enter_le {x : Rt × Term} (hf : Frames K D R stack d m σ)
    (h : ∃ K', K.Le K' ∧ Yields K' (σ + τ) d m x) : Goes K D R τ (goEnter stack x) := by
  obtain ⟨K', hK, h⟩ := h
  exact ⟨_, K', rfl, hK, d, m, σ, hf.mono hK, h, fun w hw => (by cases hw)⟩

theorem enterAlo_goes (hf : Frames K D R stack d m σ) (h : Has K rt [.word w d m] (σ + τ))
    (ht : w.tag = .alo) : Goes K D R τ (enterAlo rt stack w) := by
  obtain ⟨loc, ls, tm, bs, ρ, O, e, k, hread, hlen, hk, rfl, h'⟩ := h.openAlo ht
  obtain ⟨ω, ν, ⟨hs, -⟩, -⟩ := h'.holding 1
  have hpin := aloCell_not_pins loc bs.length
  obtain ⟨book, hb, hbook, hreads⟩ := hs.book
  have hbookRead : heapRead rt tm = book := by
    rw [heapRead, h'.static hb]
    rfl
  have hp := hbook.plain
  unfold enterAlo
  dsimp only
  rw [hread]
  dsimp only
  rw [hbookRead, ← hlen]
  cases hreads with
  | num htag hn =>
    rw [htag]
    obtain rfl := bookTm_leaf hbook (by rw [htag]; rfl)
    exact goes_enter hf (alo_word_yields h' hpin (.num hp htag hn))
  | era htag =>
    rw [htag]
    obtain rfl := bookTm_leaf hbook (by rw [htag]; rfl)
    exact goes_enter hf (alo_word_yields h' hpin (.era hp htag))
  | any htag =>
    rw [htag]
    obtain rfl := bookTm_leaf hbook (by rw [htag]; rfl)
    exact goes_enter hf (alo_word_yields h' hpin (.any hp htag))
  | @node _ s f es hsh hn hfield hargs =>
    have hnode : book.tag.isNode = true := by
      cases htag : book.tag <;> rw [htag] at hsh <;> first | rfl | cases hsh
    have hpri : book.tag ≠ .pri := by
      intro he
      rw [he] at hsh
      cases hsh
    have hari : termArity book = es.length := by
      rw [termArity, if_neg hpri, Shape.arity_of_ofTag hsh, hn]
    obtain ⟨g, P, rfl, hP⟩ := bookTm_node hbook hnode
    rw [hari] at hP
    have hfg : ∀ i, i < es.length → g i = f i := by
      intro i hi
      have hh := hfield i hi
      rw [(hP i hi).1] at hh
      exact Cell.tm.inj (Option.some.inj hh)
    have hy := wnfAloNod_yields h' hp hsh hn hfield
      (fun i hi => by rw [← hfg i hi]; exact (hP i hi).2) hargs hk
    have hgo := goes_enter hf hy
    cases htag : book.tag <;> rw [htag] at hsh <;> first | exact hgo | cases hsh
  | dup htag hv hb hrv hrb =>
    rw [htag]
    obtain ⟨Ov, Ob, rfl, hval, hbody, haff⟩ := bookTm_dup hbook htag hv hb
    exact goes_enter_le hf (wnfAloDup_yields h' hv hb hval hbody haff hrv hrb hk)
  | cop htag =>
    obtain ⟨rfl, h1, hl⟩ := bookTm_cop hbook htag
    have hgo := goes_enter hf (wnfAloCop_yields h' hpin hp htag h1 hl hk)
    cases hb : book.tag <;> rw [hb] at htag <;> first | exact hgo | cases htag

/-- Every turn but the last keeps the value. -/
theorem turn_goes (book : BookTable) {c : Machine} (hτ : ∀ t ∈ τ, ¬ t.Pins)
    (h : Computes K D R τ c) :
    Goes K D R τ (turn book c) ∨ ∃ rt w, c = ⟨rt, [], .apply w⟩ := by
  obtain ⟨rt, stack, md⟩ := c
  cases md with
  | enter w =>
    obtain ⟨d, m, σ, hf, h, -⟩ := h
    have h : Has K rt [.word w d m] (σ + τ) := h
    obtain ⟨ω, hw⟩ := h.word_of 0 rfl
    have hfo := hw.isFirstOrder
    have hstop (hh : isHead w.tag = true) : Goes K D R τ (.next ⟨rt, stack, .apply w⟩) :=
      goes_apply (x := (rt, w)) hf h (.of_head hh)
    left
    change Goes K D R τ (enter book rt stack w)
    unfold enter
    dsimp only
    split
    case h_2 ht => exact enterDup_goes (x := false) hτ hf h ht
    case h_3 ht => exact enterDup_goes (x := true) hτ hf h ht
    case h_5 ht => exact enterFirst_goes (s := .op2 w.ext) hf h (by rw [ht]; rfl) (.inl ht)
    case h_6 ht => exact enterFirst_goes (s := .eql) hf h (by rw [ht]; rfl) (.inr (.inl ht))
    case h_7 ht => exact enterFirst_goes (s := .and) hf h (by rw [ht]; rfl) (.inr (.inr (.inl ht)))
    case h_8 ht => exact enterFirst_goes (s := .or) hf h (by rw [ht]; rfl) (.inr (.inr (.inr ht)))
    case h_15 ht => exact enterAlo_goes hf h ht
    all_goals
      rename_i ht
      first
        | exact hstop (by rw [ht]; rfl)
        | (rw [ht] at hfo; cases hfo)
  | apply w =>
    cases stack with
    | nil => exact .inr ⟨rt, w, rfl⟩
    | cons f stack =>
      left
      obtain ⟨d, m, e, r, S, σ, hwaits, hf, hs, h⟩ := h.pop
      change Goes K D R τ (applyFrame rt w (f :: stack))
      cases hwaits with
      | @first t s _ dy _ _ hp hsh hop hr =>
        unfold applyFrame
        dsimp only
        rcases hop with ht | ht | ht | ht
        · rw [ht] at hsh ⊢
          obtain rfl := Option.some.inj hsh
          exact applyOp2_goes hf h hs hp ht hr
        · rw [ht] at hsh ⊢
          obtain rfl := Option.some.inj hsh
          exact applyEql_goes hf h hs hr
        · rw [ht] at hsh ⊢
          obtain rfl := Option.some.inj hsh
          exact applyAnd_goes hf h hs hp ht hr
        · rw [ht] at hsh ⊢
          obtain rfl := Option.some.inj hsh
          exact applyOr_goes hf h hs hp ht hr
      | second hp ht hv hr =>
        unfold applyFrame
        dsimp only
        rw [ht]
        exact applyOp2Num_goes hf h hs hp hv hr
      | right ht ha hopen hr =>
        unfold applyFrame
        dsimp only
        rw [ht]
        exact applyEqlR_goes hf h hs ha hopen hr
      | @dup t x _ _ _ hp ht hr =>
        have hgo := applyDup_goes hf h hs hp ht hr
        unfold applyFrame
        dsimp only
        rw [ht]
        cases x <;> exact hgo

end Hvm.Choice
