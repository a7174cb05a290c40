import Hvm.Cnf.Collapsed

/-! Every step of `cnf` keeps its runtime linear: the calls that wait hold the fields
collapsed so far, and what a call returns is a lifted root or a collapsed term. -/

namespace Hvm

open LinearHeap Cnf

/-- What a call of `cnf_at` returns, with its tokens. -/
inductive Result (P : Term → Prop) (K : Statics) : Term → Toks → Prop
  | lifted {t ρ} (hw : WordOk K t) (ht : t.tag.lifts = true) (hρ : ρ = wordToks t) : Result P K t ρ
  | plain {t ρ} (h : Collapsed P t ρ) : Result P K t ρ

/-- A field that has been collapsed, and neither erases its node nor is a priority wrapper. -/
def Settled (P : Term → Prop) (K : Statics) (f : Term × Toks) : Prop :=
  Result P K f.1 f.2 ∧ f.1.tag ≠ .era ∧ f.1.tag ≠ .inc

/-- The tokens a waiting call holds. -/
inductive CallToks (P : Term → Prop) (K : Statics) : CnfCall → Toks → Prop
  | lam (level) : CallToks P K (.lam level) 0
  | node (depth : Nat) (orig : Term) {term i fs} (hp : term.Plain) (ht : term.tag.collapses = true)
      (hw : term.tag.isWhnf = true) (hi : i < termArity term) (hlen : fs.length = i)
      (hfs : ∀ f ∈ fs, Settled P K f) :
      CallToks P K (.node term depth i orig (fs.map Prod.fst)) (fieldToks term.val fs +
        ({.held (term.val + i) (some (.tm orig))} +
          cellToks (term.val + (i + 1)) (termArity term - (i + 1))))

inductive CallsToks (P : Term → Prop) (K : Statics) (σ : Toks) : List CnfCall → Toks → Prop
  | nil : CallsToks P K σ [] σ
  | cons {c calls ρ τ} (hc : CallToks P K c ρ) (hs : CallsToks P K σ calls τ) :
      CallsToks P K σ (c :: calls) (ρ + τ)

/-- A call returns linearly into the tokens `τ`. -/
def Returns (P : Term → Prop) (K : Statics) (τ : Toks) (r : Rt × Term) : Prop :=
  ∃ ρ, Result P K r.2 ρ ∧ Linear K r.1 (ρ + τ)

def CnfMode.Linear (P : Term → Prop) (K : Statics) (rt : Rt) (τ : Toks) : CnfMode → Prop
  | .call t _ => Yields K τ (rt, t)
  | .wnf stack md _ => Linearised K τ ⟨rt, stack, md⟩ ∧ ∀ w, md = .apply w → Whnf rt w
  | .ret t => Returns P K τ (rt, t)

/-- The state of `cnf` is linear, with the tokens `σ` kept outside. -/
def Cnf.Linear (P : Term → Prop) (K : Statics) (σ : Toks) (c : Cnf) : Prop :=
  ∃ τ, CallsToks P K σ c.calls τ ∧ c.mode.Linear P K c.rt τ

variable {K K' : Statics} {P : Term → Prop} {rt : Rt} {t : Term} {ρ σ τ : Toks}
  {calls : List CnfCall} {fs : List (Term × Toks)}

theorem Result.mono (hK : K.Le K') (h : Result P K t ρ) : Result P K' t ρ := by
  cases h with
  | lifted hw ht hρ => exact .lifted (hw.mono hK) ht hρ
  | plain h => exact .plain h

theorem CallToks.mono {c : CnfCall} (hK : K.Le K') (h : CallToks P K c ρ) : CallToks P K' c ρ := by
  cases h with
  | lam level => exact .lam level
  | node depth orig hp ht hw hi hlen hfs =>
    exact .node depth orig hp ht hw hi hlen fun f hf => ⟨(hfs f hf).1.mono hK, (hfs f hf).2⟩

theorem CallsToks.mono (hK : K.Le K') (h : CallsToks P K σ calls τ) : CallsToks P K' σ calls τ := by
  induction h with
  | nil => exact .nil
  | cons hc _ ih => exact .cons (hc.mono hK) ih

theorem Result.not_pins (h : Result P K t ρ) : ∀ x ∈ ρ, ¬ x.Pins := by
  cases h with
  | lifted _ _ hρ => exact hρ ▸ fun _ => wordToks_not_pins
  | plain h => exact h.not_pins

theorem cellToks_not_pins {loc n : Nat} : ∀ x ∈ cellToks loc n, ¬ x.Pins := by
  intro x hx
  obtain ⟨l, -, hm⟩ := mem_sum_map.mp hx
  rw [Multiset.mem_singleton.mp hm]
  exact id

theorem CallToks.not_pins {c : CnfCall} (h : CallToks P K c ρ) : ∀ x ∈ ρ, ¬ x.Pins := by
  cases h with
  | lam => simp
  | node _ _ _ _ _ _ _ hfs =>
    intro x hx
    rcases Multiset.mem_add.mp hx with hm | hm
    · exact fieldToks_not_pins (fun f hf => (hfs f hf).1.not_pins) x hm
    · rcases Multiset.mem_add.mp hm with hm | hm
      · rw [Multiset.mem_singleton.mp hm]
        exact id
      · exact cellToks_not_pins x hm

theorem CallsToks.not_pins (hσ : ∀ x ∈ σ, ¬ x.Pins) (h : CallsToks P K σ calls τ) :
    ∀ x ∈ τ, ¬ x.Pins := by
  induction h with
  | nil => exact hσ
  | cons hc _ ih =>
    intro x hx
    rcases Multiset.mem_add.mp hx with hm | hm
    · exact hc.not_pins x hm
    · exact ih x hm

theorem Result.release (h : Result P K t ρ) (hl : Hvm.Linear K rt (ρ + τ)) :
    WordOk K t ∧ Hvm.Linear K rt (wordToks t + τ) := by
  cases h with
  | lifted hw _ hρ => exact ⟨hw, hρ ▸ hl⟩
  | plain h => exact h.release hl

/-- What a call returns meets the contract. -/
theorem Result.contract (hl : Hvm.Linear K rt (ρ + τ)) (h : Result P K t ρ) : Contract rt t := by
  cases h with
  | lifted _ ht => exact .inl ht
  | plain h => exact .inr (h.contract hl (Multiset.le_add_right _ _))

theorem Yields.returns {r : Rt × Term} (h : Yields K τ r) (ht : r.2.tag.lifts = true) :
    Returns P K τ r := by
  have hl := h.list_linear
  simp only [resToks_cons, resToks_nil, Res.toks, add_zero] at hl
  exact ⟨_, .lifted (h.ok 0) ht rfl, hl⟩

/-! Lifting -/

/-- Words in hand, with their tokens. -/
def Held (K : Statics) (rt : Rt) (ts : List Term) (τ : Toks) : Prop :=
  (∀ t ∈ ts, WordOk K t) ∧ Hvm.Linear K rt ((ts.map wordToks).sum + τ)

theorem Held.nil : Held K rt [] τ ↔ Hvm.Linear K rt τ := by simp [Held]

theorem Held.cons {ts : List Term} :
    Held K rt (t :: ts) τ ↔ WordOk K t ∧ Held K rt ts (wordToks t + τ) := by
  have he : wordToks t + (ts.map wordToks).sum + τ = (ts.map wordToks).sum + (wordToks t + τ) := by
    abel
  simp only [Held, List.mem_cons, forall_eq_or_imp, List.map_cons, List.sum_cons, he, and_assoc]

theorem Held.perm {ts us : List Term} (h : Held K rt ts τ) (hp : ts.Perm us) : Held K rt us τ := by
  refine ⟨fun t ht => h.1 t (hp.mem_iff.mpr ht), ?_⟩
  rw [← (hp.map wordToks).sum_eq]
  exact h.2

/-- The words of a register file of two, with the others. -/
theorem Held.of_pair {a b : Term} {ts : List Term}
    (h : Has K rt [.word a, .word b] ((ts.map wordToks).sum + τ)) (hts : ∀ t ∈ ts, WordOk K t) :
    Held K rt (a :: b :: ts) τ := by
  refine Held.cons.mpr ⟨h.ok 0, Held.cons.mpr ⟨h.ok 1, hts, ?_⟩⟩
  have hl := h.list_linear
  simp only [resToks_cons, resToks_nil, Res.toks, add_zero] at hl
  have he : (ts.map wordToks).sum + (wordToks b + (wordToks a + τ)) =
      wordToks a + wordToks b + ((ts.map wordToks).sum + τ) := by abel
  rw [he]
  exact hl

theorem Held.word {ts : List Term} (h : Held K rt (t :: ts) τ) :
    Has K rt [.word t] ((ts.map wordToks).sum + τ) := by
  obtain ⟨hw, hts⟩ := Held.cons.mp h
  have hl := hts.2
  rw [add_left_comm] at hl
  exact Own.ofWord hw hl

/-- A superposition is given up for its sides. -/
theorem Held.unpackSup {ts : List Term} (h : Held K rt (t :: ts) τ) (ht : t.tag = .sup) :
    Held K rt (heapRead rt t.val :: heapRead rt (t.val + 1) :: ts) τ := by
  have hh := h.word
  have hh := hh.open₂ 0 rfl ht rfl
  have hh := hh.load 1 rfl
  have hh := hh.load 2 rfl
  exact Held.of_pair (hh.keep [4, 6] (by decide) rfl) (Held.cons.mp h).2.1

theorem Held.clone {ts : List Term} (h : Held K rt (t :: ts) τ) (lab : Nat) :
    Held K (termClone rt lab t).1
      ((termClone rt lab t).2.k0 :: (termClone rt lab t).2.k1 :: ts) τ := by
  have hh := h.word
  have hh := hh.clone lab 0 rfl
  exact Held.of_pair (hh.keep [1, 2] (by decide) rfl) (Held.cons.mp h).2.1

theorem clones_held (lab : Nat) {ts : List Term} (h : Held K rt ts τ) :
    let r := split.clones rt lab ts
    Held K r.1 (r.2.1 ++ r.2.2) τ ∧ r.2.1.length = ts.length ∧ r.2.2.length = ts.length := by
  induction ts generalizing rt τ with
  | nil => exact ⟨h, rfl, rfl⟩
  | cons t ts ih =>
    obtain ⟨h0, h⟩ := Held.cons.mp (h.clone lab)
    obtain ⟨h1, h⟩ := Held.cons.mp h
    obtain ⟨hh, hl0, hl1⟩ := ih h
    refine ⟨?_, by simp [split.clones, hl0], by simp [split.clones, hl1]⟩
    have hs := Held.cons.mpr ⟨h0, Held.cons.mpr ⟨h1, hh⟩⟩
    exact hs.perm (List.perm_middle.symm.cons _)

/-- The superposed field `k` gives its sides `a` and `b`, the other fields are cloned. -/
theorem split_held (lab : Nat) {k : Nat} {a b : Term} {ts : List Term} (hk : k < ts.length)
    (h : Held K rt (a :: b :: ts.eraseIdx k) τ) :
    let r := split rt lab a b k ts
    Held K r.1 (r.2.1 ++ r.2.2) τ ∧ r.2.1.length = ts.length ∧ r.2.2.length = ts.length := by
  induction ts generalizing rt τ k with
  | nil => simp at hk
  | cons t ts ih =>
    cases k with
    | zero =>
      obtain ⟨ha, h⟩ := Held.cons.mp h
      obtain ⟨hb, h⟩ := Held.cons.mp h
      rw [List.eraseIdx_cons_zero] at h
      obtain ⟨hh, hl0, hl1⟩ := clones_held lab h
      refine ⟨?_, by simp [split, hl0], by simp [split, hl1]⟩
      have hs := Held.cons.mpr ⟨ha, Held.cons.mpr ⟨hb, hh⟩⟩
      exact hs.perm (List.perm_middle.symm.cons _)
    | succ k =>
      have hfirst : ([a, b] ++ t :: ts.eraseIdx k).Perm (t :: ts.eraseIdx k ++ [a, b]) :=
        List.perm_append_comm
      have hc := (h.perm hfirst).clone lab
      obtain ⟨h0, hc⟩ := Held.cons.mp hc
      obtain ⟨h1, hc⟩ := Held.cons.mp hc
      have hback : (ts.eraseIdx k ++ [a, b]).Perm ([a, b] ++ ts.eraseIdx k) :=
        List.perm_append_comm
      have hc := hc.perm hback
      obtain ⟨hh, hl0, hl1⟩ := ih (by simpa using hk) hc
      refine ⟨?_, by simp [split, hl0], by simp [split, hl1]⟩
      have hs := Held.cons.mpr ⟨h0, Held.cons.mpr ⟨h1, hh⟩⟩
      exact hs.perm (List.perm_middle.symm.cons _)

/-- A node is filled with words in hand. -/
theorem Held.nodeAt {loc n : Nat} {args us : List Term} (tag : Tag) (ext : Nat)
    (hl : Held K rt (args ++ us) ((Res.holes loc n).toks + τ)) (hn : args.length = n)
    (ho : tag.owns = true) (ha : termArity (termNew false tag ext loc) = n) :
    Held K (termNewAt rt loc tag ext args).1 (termNew false tag ext loc :: us) τ := by
  subst hn
  have he : ((args ++ us).map wordToks).sum + ((Res.holes loc args.length).toks + τ) =
      (Res.holes loc args.length).toks + ((args.map wordToks).sum + ((us.map wordToks).sum + τ)) := by
    rw [List.map_append, List.sum_append]
    abel
  have hh := hl.2
  rw [he] at hh
  have hs := hh.storeAll fun t ht => hl.1 t (by simp [ht])
  rw [← ha, show termNew false tag ext loc = termNew false tag ext loc from rfl] at hs
  refine Held.cons.mpr ⟨termNew_ok (Tag.word_of_owns ho) _ _, fun t ht => hl.1 t (by simp [ht]), ?_⟩
  rw [wordToks_of_owns ho, add_left_comm]
  exact hs

theorem Held.nodeNew {args us : List Term} (tag : Tag) (ext : Nat) (hl : Held K rt (args ++ us) τ)
    (ho : tag.owns = true) (ha : termArity (termNew false tag ext rt.next) = args.length) :
    Held K (termNewNode rt tag ext args).1 ((termNewNode rt tag ext args).2 :: us) τ := by
  have he : ((args ++ us).map wordToks).sum + τ =
      (args.map wordToks).sum + ((us.map wordToks).sum + τ) := by
    rw [List.map_append, List.sum_append, add_assoc]
  have hh := hl.2
  rw [he] at hh
  have hs := hh.newNode (fun t ht => hl.1 t (by simp [ht])) ho ha
  refine Held.cons.mpr ⟨termNew_ok (Tag.word_of_owns ho) _ _, fun t ht => hl.1 t (by simp [ht]), ?_⟩
  rw [add_left_comm]
  exact hs

theorem Collapsed.not_lifts (h : Collapsed P t ρ) : t.tag.lifts = false := by
  cases h with
  | leaf _ ht =>
    simp only [Tag.isCnfLeaf, Bool.and_eq_true, Bool.not_eq_true'] at ht
    exact ht.2
  | lam _ ht =>
    rw [ht]
    rfl
  | node _ ht => cases htag : t.tag <;> rw [htag] at ht <;> first | rfl | cases ht

/-- All fields of a node have been collapsed: the node is, or its first superposition is
lifted. -/
theorem finish_returns (hp : t.Plain) (ht : t.tag.collapses = true) (hw : t.tag.isWhnf = true)
    (hlen : fs.length = termArity t) (hfs : ∀ f ∈ fs, Settled P K f)
    (hl : Hvm.Linear K rt (fieldToks t.val fs + τ)) :
    Returns P K τ (finish rt t (fs.map Prod.fst)) := by
  have ho := Tag.owns_of_collapses ht
  unfold finish
  split
  case h_1 hnone =>
    refine ⟨_, .plain (.node hp ht hw hlen fun f hf => ?_), hl⟩
    have hsup := List.findIdx?_eq_none_iff.mp hnone f.1 (List.mem_map_of_mem hf)
    obtain ⟨hr, hera, hinc⟩ := hfs f hf
    obtain ⟨x, ρ⟩ := f
    cases hr with
    | plain h => exact h
    | lifted _ hlift => cases htag : x.tag <;> simp_all [Tag.lifts]
  case h_2 k hsome =>
    obtain ⟨hk, hsup, -⟩ := List.findIdx?_eq_some_iff_getElem.mp hsome
    set ts := fs.map Prod.fst with hts
    have hsupTag : (ts.getD k Term.zero).tag = .sup := by
      rw [List.getD_eq_getElem _ _ hk]
      exact beq_iff_eq.mp hsup
    obtain ⟨hws, hl⟩ := fields_release (fun f hf τ hl => (hfs f hf).1.release hl) hl
    have hl := wordFields_empty hl
    have hheld : Held K rt ts ((Res.holes t.val (termArity t)).toks + τ) := by
      refine ⟨hws, ?_⟩
      have hfst : (fs.map Prod.fst).length = fs.length := List.length_map Prod.fst
      rw [← hlen, ← hfst, add_left_comm]
      exact hl
    have hperm : ts.Perm (ts.getD k Term.zero :: ts.eraseIdx k) := by
      rw [List.getD_eq_getElem _ _ hk]
      exact (List.getElem_cons_eraseIdx_perm hk).symm
    have hheld := (hheld.perm hperm).unpackSup hsupTag
    obtain ⟨hh, hl0, hl1⟩ := split_held (ts.getD k Term.zero).ext hk hheld
    have hn : ts.length = termArity t := by rw [hts, List.length_map, hlen]
    have hh := hh.nodeAt t.tag t.ext (hl0.trans hn) ho (termArity_termNew hp _)
    have hh := hh.perm (List.perm_append_singleton _ _).symm
    have hh := hh.nodeNew t.tag t.ext ho (by rw [termArity_termNew hp, hl1, hn])
    have hh := hh.perm (List.perm_append_singleton _ _).symm
    have hh := Held.nodeNew .sup (ts.getD k Term.zero).ext (by rwa [List.append_nil]) rfl rfl
    have hw := hh.word
    simp only [List.map_nil, List.sum_nil, zero_add] at hw
    exact Yields.returns (r := (_, _)) hw rfl

/-- The loop over the fields of a node goes on. -/
theorem fields_linear {depth : Nat} (hp : t.Plain) (ht : t.tag.collapses = true)
    (hw : t.tag.isWhnf = true) (hi : fs.length ≤ termArity t) (hfs : ∀ f ∈ fs, Settled P K f)
    (hc : CallsToks P K σ calls τ)
    (hl : Hvm.Linear K rt (fieldToks t.val fs +
      (cellToks (t.val + fs.length) (termArity t - fs.length) + τ))) :
    Cnf.Linear P K σ (fields rt calls t depth fs.length (fs.map Prod.fst)) := by
  unfold fields
  split_ifs with hlt
  · obtain ⟨n, hn⟩ : ∃ n, termArity t - fs.length = n + 1 := ⟨_, (Nat.sub_add_cancel (by omega)).symm⟩
    have hrest : termArity t - (fs.length + 1) = n := by omega
    rw [hn, cellToks_succ, add_assoc, add_left_comm] at hl
    obtain ⟨hok, -, hl⟩ := hl.loadFilled
    have hnode := CallToks.node depth (heapRead rt (t.val + fs.length)) hp ht hw hlt rfl hfs
    refine ⟨_, .cons hnode hc, Own.ofWord hok ?_⟩
    rw [hrest]
    have he : wordToks (heapRead rt (t.val + fs.length)) + (fieldToks t.val fs +
        ({.held (t.val + fs.length) (some (.tm (heapRead rt (t.val + fs.length))))} +
          cellToks (t.val + (fs.length + 1)) n) + τ) =
        {.held (t.val + fs.length) (some (.tm (heapRead rt (t.val + fs.length))))} +
          (wordToks (heapRead rt (t.val + fs.length)) + (fieldToks t.val fs +
            (cellToks (t.val + fs.length + 1) n + τ))) := by
      rw [← add_assoc t.val]
      abel
    rw [he]
    exact hl
  · have hlen : fs.length = termArity t := by omega
    have hcells : cellToks (t.val + fs.length) (termArity t - fs.length) = 0 := by
      rw [hlen, Nat.sub_self]
      rfl
    rw [hcells, zero_add] at hl
    exact ⟨τ, hc, finish_returns hp ht hw hlen hfs hl⟩

/-- A leaf is returned as it is. -/
theorem Returns.leaf (h : Has K rt [.word t] τ) (ht : t.tag.isCnfLeaf = true) (hP : P t) :
    Returns P K τ (rt, t) := by
  have hl := h.list_linear
  simp only [resToks_cons, resToks_nil, Res.toks, add_zero] at hl
  exact ⟨_, .plain (.leaf (h.ok 0).plain ht hP), hl⟩

theorem dispatch_linear {depth : Nat} (hc : CallsToks P K σ calls τ) (h : Has K rt [.word t] τ)
    (hw : t.tag.isWhnf = true) (hP : t.tag.isCnfLeaf = true → P t) :
    Cnf.Linear P K σ (dispatch rt calls depth t) := by
  have hnode : t.tag.collapses = true → Cnf.Linear P K σ (fields rt calls t depth 0 []) := by
    intro ht
    have hl := h.list_linear
    simp only [resToks_cons, resToks_nil, Res.toks, add_zero] at hl
    rw [wordToks_of_owns (Tag.owns_of_collapses ht)] at hl
    refine fields_linear (h.ok 0).plain ht hw (show [].length ≤ _ from Nat.zero_le _) (by simp) hc ?_
    simpa [fieldToks] using hl
  have hret : t.tag ≠ .lam → t.tag.collapses = false →
      Cnf.Linear P K σ ⟨rt, calls, .ret t⟩ := by
    intro hlam hcol
    refine ⟨τ, hc, ?_⟩
    cases hlift : t.tag.lifts with
    | true => exact Yields.returns (r := (rt, t)) h hlift
    | false =>
      have hleaf : t.tag.isCnfLeaf = true := by simp [Tag.isCnfLeaf, hw, hlam, hcol, hlift]
      exact Returns.leaf h hleaf (hP hleaf)
  unfold dispatch
  split
  case h_1 ht =>
    -- the variable of the lambda becomes a quoted one
    have hh := h.bindLoad 0 rfl ht
    have hh := hh.imm (termNew false .bjv 0 (depth + 1)) (termNew_ok (by decide) _ _) rfl
    have hh := hh.bindSubst 1 3 rfl rfl (by decide)
    have hy := hh.yield 2 rfl rfl
    refine ⟨0 + τ, .cons (.lam _) hc, ?_⟩
    rw [zero_add]
    exact hy
  case h_16 n hn =>
    split_ifs with h0
    · exact hret (by simp [hn]) (by rw [hn]; simp [Tag.collapses, h0])
    · exact hnode (by rw [hn]; simp [Tag.collapses, h0])
  case h_17 =>
    refine hret (by assumption) ?_
    cases htag : t.tag <;> first | rfl | (exfalso; simp_all)
  all_goals
    rename_i ht
    exact hnode (by rw [ht]; rfl)

/-- The collapsed body of a lambda goes under the lambda, or the lambda under its root. -/
theorem lamReturn_returns {level : Nat} (h : Returns P K τ (rt, t)) :
    Returns P K τ (lamReturn rt level t) := by
  obtain ⟨ρ, hr, hl⟩ := h
  have hfill := LinearHeap.Inv.write (LinearHeap.Inv.alloc hl) (.tm t)
  have hlift : t.tag.lifts = true →
      Own K (heapSet { rt with next := rt.next + 1 } rt.next t) 3
        (((File.ofList [.word t]).add 1 [.hole rt.next]).clear [1] |>.add 2
          [.filled rt.next (.tm t)]) τ := by
    intro ht
    obtain ⟨hok, hl⟩ := hr.release hl
    exact ((Own.ofWord hok hl).alloc₁).write (.tm t) 1 rfl
  unfold lamReturn heapAlloc
  dsimp only
  split
  case h_1 ht =>
    have hh := hlift (by rw [ht]; rfl)
    have hh := hh.imm termNewEra (termNew_ok (by decide) _ _) rfl
    exact Yields.returns (r := (_, termNewEra)) (hh.yield 3 rfl rfl) rfl
  case h_2 ht =>
    have hh := hlift (by rw [ht]; rfl)
    have hh := hh.open₁ 0 rfl ht rfl
    have hh := hh.load 3 rfl
    have hh := hh.forget 2 rfl
    have hh := hh.bindNew 6 rfl
    have hh := hh.bindFill level 7 5 rfl rfl (by decide)
    have hh := hh.newNode₁ .inc 0 9 rfl rfl rfl
    exact Yields.returns (r := (_, _)) (hh.yield 10 rfl rfl) rfl
  case h_3 ht =>
    have hh := hlift (by rw [ht]; rfl)
    have hh := hh.open₂ 0 rfl ht rfl
    have hh := hh.load 3 rfl
    have hh := hh.load 4 rfl
    have hh := hh.alloc₁
    have hh := hh.alloc₁
    have hh := hh.bindNew 9 rfl
    have hh := hh.bindFill level 11 6 rfl rfl (by decide)
    have hh := hh.bindNew 10 rfl
    have hh := hh.bindFill level 14 8 rfl rfl (by decide)
    have hh := hh.newNode₂ .sup t.ext 13 16 rfl rfl rfl rfl (by decide)
    exact Yields.returns (r := (_, _)) (hh.yield 17 rfl rfl) rfl
  case h_4 hera hinc hsup =>
    cases hr with
    | lifted _ ht => cases htag : t.tag <;> simp_all [Tag.lifts]
    | plain hcol =>
      refine ⟨_, .plain (.lam (termNew_plain _ _ _) rfl hcol), ?_⟩
      rw [add_assoc]
      exact hfill

/-- The collapsed field `i` goes back into its node. -/
theorem nodeReturn_linear {term : Term} {depth i : Nat} {orig : Term} {children : List Term}
    (hcall : CallToks P K (.node term depth i orig children) ρ)
    (hc : CallsToks P K σ calls τ) (hinc : t.tag ≠ .inc) (h : Returns P K (ρ + τ) (rt, t)) :
    Cnf.Linear P K σ (nodeReturn rt calls term depth i orig children t) := by
  obtain ⟨χ, hr, hl⟩ := h
  cases hcall with
  | @node _ _ _ _ fs hp ht hw hi hlen hfs =>
    subst hlen
    have he : χ + (fieldToks term.val fs + ({.held (term.val + fs.length) (some (.tm orig))} +
        cellToks (term.val + (fs.length + 1)) (termArity term - (fs.length + 1))) + τ) =
        {.held (term.val + fs.length) (some (.tm orig))} + (fieldToks term.val fs + χ +
          (cellToks (term.val + (fs.length + 1)) (termArity term - (fs.length + 1)) + τ)) := by
      abel
    rw [he] at hl
    have hset : Hvm.Linear K (if t ≠ orig then heapSet rt (term.val + fs.length) t else rt)
        ({.held (term.val + fs.length) (some (.tm t))} + (fieldToks term.val fs + χ +
          (cellToks (term.val + (fs.length + 1)) (termArity term - (fs.length + 1)) + τ))) := by
      split_ifs with hne
      · exact LinearHeap.Inv.write hl (.tm t)
      · rwa [not_not.mp hne]
    unfold nodeReturn
    dsimp only
    generalize (if t ≠ orig then heapSet rt (term.val + fs.length) t else rt) = rt' at hset
    split_ifs with hera
    · refine ⟨τ, hc, Yields.returns (r := (rt', termNewEra)) ?_ rfl⟩
      refine Own.ofWord (termNew_ok (by decide) _ _) (LinearHeap.Inv.drop (σ :=
        {.held (term.val + fs.length) (some (.tm t))} + (fieldToks term.val fs + χ +
          cellToks (term.val + (fs.length + 1)) (termArity term - (fs.length + 1)))) ?_ ?_)
      · have he' : wordToks termNewEra = 0 := rfl
        rw [he', zero_add, add_assoc, add_assoc]
        exact hset
      · intro x hx
        rcases Multiset.mem_add.mp hx with hm | hm
        · rw [Multiset.mem_singleton.mp hm]
          exact id
        rcases Multiset.mem_add.mp hm with hm | hm
        · rcases Multiset.mem_add.mp hm with hm | hm
          · exact fieldToks_not_pins (fun f hf => (hfs f hf).1.not_pins) x hm
          · exact hr.not_pins x hm
        · exact cellToks_not_pins x hm
    · have hmap : fs.map Prod.fst ++ [t] = (fs ++ [(t, χ)]).map Prod.fst := by simp
      have hlen : fs.length + 1 = (fs ++ [(t, χ)]).length := by simp
      rw [hmap, hlen]
      refine fields_linear hp ht hw (by rw [← hlen]; exact hi) ?_ hc ?_
      · intro f hf
        rcases List.mem_append.mp hf with hm | hm
        · exact hfs f hm
        · rw [List.mem_singleton.mp hm]
          exact ⟨hr, hera, hinc⟩
      · have he' : fieldToks term.val (fs ++ [(t, χ)]) +
            (cellToks (term.val + (fs ++ [(t, χ)]).length)
              (termArity term - (fs ++ [(t, χ)]).length) + τ) =
            {.held (term.val + fs.length) (some (.tm t))} + (fieldToks term.val fs + χ +
              (cellToks (term.val + (fs.length + 1)) (termArity term - (fs.length + 1)) + τ)) := by
          rw [fieldToks_append, ← hlen]
          simp only [fieldToks, add_zero]
          abel
        rw [he']
        exact hset

/-! Steps -/

/-- A step that stays clear of the defects: `wnf` is undisturbed, and no field of a node
comes back as a priority wrapper. -/
def Cnf.Undisturbed (c : Cnf) : Prop :=
  match c.mode, c.calls with
  | .wnf stack md _, _ => md.Undisturbed c.rt stack
  | .ret t, .node .. :: _ => t.tag ≠ .inc
  | _, _ => True

instance : DecidablePred Cnf.Undisturbed
  | ⟨rt, _, .wnf stack md _⟩ => inferInstanceAs (Decidable (md.Undisturbed rt stack))
  | ⟨_, .node .. :: _, .ret t⟩ => inferInstanceAs (Decidable (t.tag ≠ .inc))
  | ⟨_, .lam _ :: _, .ret _⟩ | ⟨_, [], .ret _⟩ | ⟨_, _, .call _ _⟩ => .isTrue trivial

/-- A step of `cnf` keeps it linear, in a heap with more static cells. -/
theorem Cnf.step_linear {book : BookTable} {c c' : Cnf} (hb : BookOk K book)
    (hσ : ∀ x ∈ σ, ¬ x.Pins) (h : Cnf.Linear P K σ c) (hu : c.Undisturbed)
    (hP : ∀ w depth, c.mode = .wnf [] (.apply w) depth → Whnf c.rt w → w.tag.isCnfLeaf = true → P w)
    (hs : Cnf.step book c = .next c') : ∃ K', K.Le K' ∧ Cnf.Linear P K' σ c' := by
  obtain ⟨rt, calls, md⟩ := c
  obtain ⟨τ, hc, hm⟩ := h
  have hturn := Cnf.step_next hs
  cases md with
  | call t depth =>
    obtain rfl := (CnfOutcome.next.inj hturn)
    have hown : Has K rt [.word t] (stackToks [] + τ) := by
      rw [stackToks, List.map_nil, List.sum_nil, zero_add]
      exact hm
    have hframes : ∀ f ∈ ([] : List Frame), FrameOk K f := fun f hf => (List.not_mem_nil hf).elim
    refine ⟨K, Frozen.Le.refl K, τ, hc, ⟨hown, hframes⟩, fun w hw => ?_⟩
    cases hw
  | wnf stack md depth =>
    obtain ⟨hl, hw⟩ := hm
    have hword : ∀ t, md = .enter t → t.tag.isWord = true := by
      rintro t rfl
      exact (hl.own.ok 0).word
    unfold turn at hturn
    dsimp only at hturn
    cases hstep : Hvm.step book ⟨rt, stack, md⟩ with
    | next m =>
      rw [hstep] at hturn
      obtain rfl := (CnfOutcome.next.inj hturn)
      obtain ⟨K', hK, hl'⟩ := Hvm.step_linear hb (hc.not_pins hσ) hl hu hstep
      exact ⟨K', hK, τ, hc.mono hK, hl', step_whnf hstep hword hw⟩
    | done rt' w =>
      rw [hstep] at hturn
      obtain rfl := (CnfOutcome.next.inj hturn)
      obtain ⟨rfl, rfl, rfl⟩ := Machine.mk.inj (Hvm.step_done hstep hword hw)
      have hwhnf := hw w rfl
      have hown : Has K rt [.word w] τ := by
        have := hl.own
        rwa [stackToks, List.map_nil, List.sum_nil, zero_add] at this
      exact ⟨K, Frozen.Le.refl K,
        dispatch_linear hc hown hwhnf.tag (hP w depth rfl hwhnf)⟩
    | exit f =>
      rw [hstep] at hturn
      cases hturn
  | ret t =>
    cases hc with
    | nil => cases hturn
    | @cons call calls ρ τ hcall hc =>
      cases call with
      | lam level =>
        cases hcall
        obtain rfl := (CnfOutcome.next.inj hturn)
        rw [zero_add] at hm
        exact ⟨K, Frozen.Le.refl K, τ, hc, lamReturn_returns hm⟩
      | node term depth i orig children =>
        obtain rfl := (CnfOutcome.next.inj hturn)
        exact ⟨K, Frozen.Le.refl K, nodeReturn_linear hcall hc hu hm⟩

end Hvm
