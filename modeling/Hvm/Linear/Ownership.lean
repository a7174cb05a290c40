import Hvm.Linear.Live

/-! A linear machine state owns its heap linearly: every reference of a live word is
charged to one token, and a token is charged to one place only. -/

namespace Hvm

open LinearHeap

/-- The tokens of the words of a frame. -/
def frameToks : Frame → List Toks
  | .native k => k.words.map wordToks
  | .tm t => [resToks (frameRes (.tm t))]

/-- The tokens that a place contributes to the heap's account. -/
def siteToks (m : Machine) (st : Nat → CellSt Attr Cell) : Place → Toks
  | .cur => wordToks m.mode.word
  | .frame i j => ((m.stack.map frameToks).getD i []).getD j 0
  | .cell l => if l < m.rt.next then (st l).content else 0
  | .under _ _ => 0

/-- A token is charged to a place. The token of a free reference of an ALO lies in the
cell of its packed pair. -/
inductive Charged (m : Machine) (st : Nat → CellSt Attr Cell) : Place → Tok → Prop
  | site {p t} (h : t ∈ siteToks m st p) (hc : ∀ l, p = .cell l → ∃ w, m.rt.heap l = .tm w) :
      Charged m st p t
  | under {p path} {v u : Term} {ls tm t} (hp : Tok.own v.val (.pack v.ext) ∈ siteToks m st p)
      (hc : m.rt.heap v.val = .alo ls tm) (hs : BookSub m.rt (heapRead m.rt tm) path u)
      (hr : u.tag.isRef = true) (hl : u32 u.val ≤ v.ext)
      (ht : wordToks (aloRef m.rt ls v.ext u) = {t}) : Charged m st (.under p path) t

/-- The token by which a word refers to its cell `l`. -/
def RefTok (w : Term) (l : Nat) (t : Tok) : Prop :=
  match w.tag with
  | .lam => t = .bind l .term
  | .var => t = .use l .term
  | .dp0 => t = .share l (.lab w.ext) false ∨ t = .shareHeld l (.lab w.ext) false
  | .dp1 => t = .share l (.lab w.ext) true ∨ t = .shareHeld l (.lab w.ext) true
  | .alo => t = .own l (.pack w.ext)
  | _ => t = .own l .term ∨ t = .held l none

/-- The state of the cells behind a linear machine state. -/
structure Account (K : Statics) (m : Machine) (st : Nat → CellSt Attr Cell) : Prop where
  inv : InvSt discipline K m.rt.heap m.rt.next st (wordToks m.mode.word + stackToks m.stack)
  word : WordOk K m.mode.word
  frames : ∀ f ∈ m.stack, FrameOk K f

variable {K : Statics} {m : Machine} {st : Nat → CellSt Attr Cell} {p q : Place} {t : Tok}

theorem Linearised.account (h : Linearised K 0 m) : ∃ st, Account K m st := by
  have hl := h.own.list_linear
  simp only [resToks_cons, resToks_nil, Res.toks, add_zero] at hl
  obtain ⟨st, hI⟩ := hl
  exact ⟨st, hI, h.own.ok 0, h.frames⟩

/-! A token lies at one site -/

theorem mem_sum_of_getD {xs : List Toks} {i : Nat} (h : t ∈ xs.getD i 0) : t ∈ xs.sum := by
  induction xs generalizing i with
  | nil => simp at h
  | cons x xs ih =>
    rw [List.sum_cons, Multiset.mem_add]
    cases i with
    | zero => exact .inl h
    | succ i => exact .inr (ih h)

theorem getD_unique {xs : List Toks} {i j : Nat} (hn : xs.sum.Nodup) (hi : t ∈ xs.getD i 0)
    (hj : t ∈ xs.getD j 0) : i = j := by
  induction xs generalizing i j with
  | nil => simp at hi
  | cons x xs ih =>
    rw [List.sum_cons, Multiset.nodup_add] at hn
    obtain ⟨-, hxs, hdis⟩ := hn
    cases i with
    | zero =>
      cases j with
      | zero => rfl
      | succ j => exact (Multiset.disjoint_left.mp hdis hi (mem_sum_of_getD hj)).elim
    | succ i =>
      cases j with
      | zero => exact (Multiset.disjoint_left.mp hdis hj (mem_sum_of_getD hi)).elim
      | succ j => rw [ih hxs hi hj]

theorem stackToks_eq (stack : List Frame) :
    stackToks stack = ((stack.map frameToks).map List.sum).sum := by
  rw [stackToks, List.map_map]
  congr 1
  refine List.map_congr_left fun f _ => ?_
  cases f with
  | native k => simp [frameRes, frameToks, resToks, Function.comp_def, Res.toks]
  | tm t => simp [frameToks]

theorem mem_stack_site {i j : Nat} (h : t ∈ siteToks m st (.frame i j)) :
    t ∈ ((m.stack.map frameToks).map List.sum).getD i 0 := by
  have hg : ((m.stack.map frameToks).map List.sum).getD i 0 =
      ((m.stack.map frameToks).getD i []).sum := by
    simp only [List.getD_eq_getElem?_getD, List.getElem?_map]
    cases m.stack[i]? <;> rfl
  rw [hg]
  exact mem_sum_of_getD h

theorem Account.site_unique (hA : Account K m st) (hp : t ∈ siteToks m st p)
    (hq : t ∈ siteToks m st q) : p = q := by
  have hn := hA.inv.nodup
  rw [total, Multiset.nodup_add, Multiset.nodup_add] at hn
  obtain ⟨⟨-, hstack, hdis⟩, hheap, hdisH⟩ := hn
  have hframe : ∀ {i j}, t ∈ siteToks m st (.frame i j) → t ∈ stackToks m.stack := fun h => by
    rw [stackToks_eq]
    exact mem_sum_of_getD (mem_stack_site h)
  have hcell : ∀ {l}, t ∈ siteToks m st (.cell l) → l < m.rt.next ∧ t ∈ (st l).content := fun h => by
    rw [siteToks] at h
    split_ifs at h with hl
    · exact ⟨hl, h⟩
    · simp at h
  have hsum : ∀ {l}, t ∈ siteToks m st (.cell l) →
      t ∈ ∑ l ∈ Finset.range m.rt.next, (st l).content := fun h =>
    Multiset.mem_sum.mpr ⟨_, Finset.mem_range.mpr (hcell h).1, (hcell h).2⟩
  have hcur : t ∈ wordToks m.mode.word → t ∈ stackToks m.stack → False :=
    fun h h' => Multiset.disjoint_left.mp hdis h h'
  have hfst : t ∈ wordToks m.mode.word ∨ t ∈ stackToks m.stack →
      t ∈ ∑ l ∈ Finset.range m.rt.next, (st l).content → False :=
    fun h h' => Multiset.disjoint_left.mp hdisH (Multiset.mem_add.mpr h) h'
  cases p with
  | cur =>
    cases q with
    | cur => rfl
    | frame i j => exact (hcur hp (hframe hq)).elim
    | cell l => exact (hfst (.inl hp) (hsum hq)).elim
    | under q path => simp [siteToks] at hq
  | frame i j =>
    cases q with
    | cur => exact (hcur hq (hframe hp)).elim
    | frame i' j' =>
      rw [stackToks_eq] at hstack
      obtain rfl := getD_unique hstack (mem_stack_site hp) (mem_stack_site hq)
      have hin : ((m.stack.map frameToks).getD i []).sum.Nodup := by
        refine Multiset.nodup_of_le ?_ hstack
        rw [List.getD_eq_getElem?_getD]
        cases hi : (m.stack.map frameToks)[i]? with
        | none => exact Multiset.zero_le _
        | some ts =>
          have hm := List.mem_map_of_mem (f := List.sum) (List.mem_of_getElem? hi)
          exact List.le_sum_of_mem hm
      rw [getD_unique hin hp hq]
    | cell l => exact (hfst (.inr (hframe hp)) (hsum hq)).elim
    | under q path => simp [siteToks] at hq
  | cell l =>
    cases q with
    | cur => exact (hfst (.inl hq) (hsum hp)).elim
    | frame i j => exact (hfst (.inr (hframe hq)) (hsum hp)).elim
    | cell l' =>
      by_contra hne
      have hll : l' ≠ l := fun he => hne (by rw [he])
      have hs := Finset.add_sum_erase (Finset.range m.rt.next) (fun x => (st x).content)
        (Finset.mem_range.mpr (hcell hp).1)
      rw [← hs, Multiset.nodup_add] at hheap
      refine Multiset.disjoint_left.mp hheap.2.2 (hcell hp).2 (Multiset.mem_sum.mpr ⟨l', ?_, (hcell hq).2⟩)
      exact Finset.mem_erase.mpr ⟨hll, Finset.mem_range.mpr (hcell hq).1⟩
    | under q path => simp [siteToks] at hq
  | under p path => simp [siteToks] at hp

theorem Account.site_fits (hA : Account K m st) (hp : t ∈ siteToks m st p) :
    (st t.loc).Fits t.loc t := by
  refine hA.inv.fits t (Multiset.mem_add.mpr ?_)
  cases p with
  | cur => exact .inl (Multiset.mem_add.mpr (.inl hp))
  | frame i j =>
    refine .inl (Multiset.mem_add.mpr (.inr ?_))
    rw [stackToks_eq]
    exact mem_sum_of_getD (mem_stack_site hp)
  | cell l =>
    rw [siteToks] at hp
    split_ifs at hp with hl
    · exact .inr (Multiset.mem_sum.mpr ⟨l, Finset.mem_range.mpr hl, hp⟩)
    · simp at hp
  | under p path => simp [siteToks] at hp

theorem Account.own_attr (hA : Account K m st) {l : Nat} {a b : Attr}
    (hp : Tok.own l a ∈ siteToks m st p) (hq : Tok.own l b ∈ siteToks m st q) : a = b := by
  have hf := hA.site_fits hp
  have hf' := hA.site_fits hq
  simp only [LinearHeap.Tok.loc] at hf hf'
  cases hst : st l <;> rw [hst] at hf hf' <;> simp_all [CellSt.Fits]

/-! Unexpanded ALOs -/

/-- The word of a reference holds the token of its binder. -/
theorem aloRef_toks (hK : ∀ l c, K l = some c → m.rt.heap l = c) {ls : Nat} {bs : List Nat}
    {u : Term} (hb : BindList K ls bs) (hr : u.tag.isRef = true) (h1 : 1 ≤ u32 u.val)
    (hl : u32 u.val ≤ bs.length) :
    wordToks (aloRef m.rt ls bs.length u) = {occTok bs (occOf u)} ∧
      (aloRef m.rt ls bs.length u).tag ≠ .alo := by
  obtain ⟨hw, hne⟩ := aloWalk_eq hK hb (show bs.length - u32 u.val < bs.length by omega)
  rw [aloRef]
  by_cases hv : u.tag.isVar = true
  · have he : wnfAloVar m.rt ls bs.length u = termNewVar (bindAt bs (u32 u.val)) := by
      simp only [wnfAloVar]
      rw [if_neg (by omega), hw, if_pos hne, bindAt]
    rw [if_pos hv, he, occOf_var hv]
    exact ⟨rfl, fun ha => by cases ha⟩
  · obtain ⟨side, hs⟩ : ∃ side, u.tag.copSide = some side := by
      rw [Tag.isRef, Bool.or_eq_true, Option.isSome_iff_exists] at hr
      exact hr.resolve_left hv
    have htag : (if u.tag = .dp0 ∨ u.tag = .bj0 then Tag.dp0 else Tag.dp1) = dupTag side := by
      cases hu : u.tag <;> simp [hu, Tag.copSide] at hs <;> subst hs <;> rfl
    have he : wnfAloCop m.rt ls bs.length u =
        termNew false (dupTag side) u.ext (bindAt bs (u32 u.val)) := by
      simp only [wnfAloCop]
      rw [if_neg (by omega), hw, if_pos hne, htag, bindAt]
    rw [if_neg hv, he, occOf_cop hs, wordToks_dup rfl]
    refine ⟨by simp [occTok, termNew, labelOf], ?_⟩
    cases side <;> exact fun ha => by cases ha

/-- What the packed pair of a live ALO stands for. -/
theorem Account.packed (hA : Account K m st) {l n ls tm : Nat}
    (hp : Tok.own l (.pack n) ∈ siteToks m st p) (hc : m.rt.heap l = .alo ls tm) :
    l < m.rt.next ∧ ∃ bs O, bs.length = n ∧ Suspends K ls tm bs O ∧ (st l).content = occToks bs O := by
  have hf := hA.site_fits hp
  have hok := hA.inv.ok l
  have hlt : l < m.rt.next := hA.inv.lt_of_ne_free fun hs => by
    rw [LinearHeap.Tok.loc, hs] at hf
    exact hf
  cases hs : st l with
  | owned a σ =>
    rw [LinearHeap.Tok.loc, hs] at hf
    rw [hs, hc] at hok
    obtain ⟨-, ha⟩ := LinearHeap.Tok.own.inj hf
    subst ha
    obtain ⟨bs, O, hlen, hsus, rfl⟩ := hok.2
    exact ⟨hlt, bs, O, hlen, hsus, rfl⟩
  | bound a σ | bodyHeld a | shared a σ | taken a r =>
    rw [LinearHeap.Tok.loc, hs] at hf
    rcases hf with hf | hf <;> cases hf
  | free =>
    rw [LinearHeap.Tok.loc, hs] at hf
    exact hf.elim
  | held o | subst a σ | dead a | fired a r σ =>
    rw [LinearHeap.Tok.loc, hs] at hf
    cases hf

theorem Account.static (hA : Account K m st) : ∀ l c, K l = some c → m.rt.heap l = c :=
  fun l c hc => (hA.inv.frozen l c hc).2.1

/-- The token of a free reference lies in the packed pair. -/
theorem Account.under_mem (hA : Account K m st) {l n ls tm : Nat} {path : List Nat} {u : Term}
    (hp : Tok.own l (.pack n) ∈ siteToks m st p) (hc : m.rt.heap l = .alo ls tm)
    (hs : BookSub m.rt (heapRead m.rt tm) path u) (hr : u.tag.isRef = true) (hl : u32 u.val ≤ n) :
    ∃ t, wordToks (aloRef m.rt ls n u) = {t} ∧ (aloRef m.rt ls n u).tag ≠ .alo ∧
      t ∈ siteToks m st (.cell l) := by
  obtain ⟨hlt, bs, O, rfl, ⟨hb, w, hw, hbook⟩, hcont⟩ := hA.packed hp hc
  rw [heapRead_static hA.static hw] at hs
  have hmem := hbook.path_mem hA.static hs hr hl
  have h1 := (hbook.lvl_bounds _ hmem).1
  rw [occOf_lvl] at h1
  obtain ⟨ht, hne⟩ := aloRef_toks hA.static hb hr h1 hl
  refine ⟨_, ht, hne, ?_⟩
  rw [siteToks, if_pos hlt, hcont]
  exact Multiset.mem_map_of_mem _ hmem

theorem Account.charged_fits (hA : Account K m st) (h : Charged m st p t) :
    (st t.loc).Fits t.loc t := by
  cases h with
  | site h => exact hA.site_fits h
  | under hp hc hs hr hl ht =>
    obtain ⟨t', ht', -, hm⟩ := hA.under_mem hp hc hs hr hl
    rw [ht, Multiset.singleton_inj] at ht'
    subst ht'
    exact hA.site_fits hm

/-- No token is charged twice. -/
theorem Account.charged_unique (hA : Account K m st) (hp : Charged m st p t)
    (hq : Charged m st q t) : p = q := by
  have hmixed : ∀ {p' q' path l n ls tm u}, t ∈ siteToks m st q' →
      (∀ l, q' = .cell l → ∃ w, m.rt.heap l = .tm w) → Tok.own l (.pack n) ∈ siteToks m st p' →
      m.rt.heap l = .alo ls tm → BookSub m.rt (heapRead m.rt tm) path u → u.tag.isRef = true →
      u32 u.val ≤ n → wordToks (aloRef m.rt ls n u) = {t} → False := by
    intro p' q' path l n ls tm u hq hqc hp hc hs hr hl ht
    obtain ⟨t', ht', -, hm⟩ := hA.under_mem hp hc hs hr hl
    rw [ht, Multiset.singleton_inj] at ht'
    subst ht'
    obtain ⟨w, hw⟩ := hqc l (hA.site_unique hq hm)
    rw [hc] at hw
    cases hw
  cases hp with
  | site hp hpc =>
    cases hq with
    | site hq => exact hA.site_unique hp hq
    | under hq hc hs hr hl ht => exact (hmixed hp hpc hq hc hs hr hl ht).elim
  | @under p path v ls tm u _ hp hc hs hr hl ht =>
    cases hq with
    | site hq hqc => exact (hmixed hq hqc hp hc hs hr hl ht).elim
    | @under q path' v' ls' tm' u' _ hq hc' hs' hr' hl' ht' =>
      obtain ⟨t₁, ht₁, -, hm⟩ := hA.under_mem hp hc hs hr hl
      obtain ⟨t₂, ht₂, -, hm'⟩ := hA.under_mem hq hc' hs' hr' hl'
      obtain rfl : t = t₁ := by rwa [ht, Multiset.singleton_inj] at ht₁
      obtain rfl : t = t₂ := by rwa [ht', Multiset.singleton_inj] at ht₂
      have hval : v'.val = v.val := by simpa using hA.site_unique hm' hm
      rw [hval] at hc' hq
      obtain ⟨rfl, rfl⟩ := Cell.alo.inj (hc.symm.trans hc')
      obtain ⟨hlt, bs, O, hlen, ⟨hb, w, hw, hbook⟩, hcont⟩ := hA.packed hp hc
      obtain ⟨-, bs', O', hlen', -, hcont'⟩ := hA.packed hq hc'
      have hext : v'.ext = v.ext := Attr.pack.inj (hA.own_attr hq hp)
      rw [hext] at hq hl' ht'
      obtain rfl := hA.site_unique hp hq
      congr 1
      by_contra hne
      rw [heapRead_static hA.static hw] at hs hs'
      rw [← hlen] at hl hl' ht ht'
      have hle := hbook.paths_le hA.static hs hs' hne hr hr' hl hl'
      have hpos : ∀ {path u}, BookSub m.rt w path u → u.tag.isRef = true → u32 u.val ≤ bs.length →
          1 ≤ u32 u.val := fun hs hr hl => by
        have hh := (hbook.lvl_bounds _ (hbook.path_mem hA.static hs hr hl)).1
        rwa [occOf_lvl] at hh
      rw [(aloRef_toks hA.static hb hr (hpos hs hr hl) hl).1, Multiset.singleton_inj] at ht
      rw [(aloRef_toks hA.static hb hr' (hpos hs' hr' hl') hl').1, Multiset.singleton_inj] at ht'
      have htwo : {t} + {t} ≤ occToks bs O := by
        have hh := Multiset.map_le_map (f := occTok bs) hle
        rwa [Multiset.map_add, Multiset.map_singleton, Multiset.map_singleton, ht, ht'] at hh
      have hnd : (occToks bs O).Nodup := by
        have hn := hA.inv.nodup
        rw [total_eq_rest hlt, hcont] at hn
        exact Multiset.nodup_of_le ((Multiset.le_add_left _ _).trans (Multiset.le_add_right _ _)) hn
      have hbad := Multiset.nodup_of_le htwo hnd
      rw [Multiset.nodup_add] at hbad
      exact Multiset.disjoint_left.mp hbad.2.2 (Multiset.mem_singleton_self t)
        (Multiset.mem_singleton_self t)

/-! Every reference is charged -/

/-- The token says that the content of the cell has been taken out. -/
def Taken (l : Nat) (t : Tok) : Prop := t = .held l none ∨ ∃ a s, t = .shareHeld l a s

theorem refCells_of_owns {w : Term} (h : w.tag.owns = true) :
    refCells w = List.range' w.val (termArity w) := by
  unfold refCells
  split <;> simp_all [Tag.owns]

theorem RefTok.of_owns {w : Term} {l : Nat} (h : w.tag.owns = true) :
    RefTok w l t ↔ t = .own l .term ∨ t = .held l none := by
  unfold RefTok
  split <;> simp_all [Tag.owns]

theorem refTok_of_word {w : Term} {l : Nat} (hl : l ∈ refCells w) :
    ∃ t ∈ wordToks w, RefTok w l t ∧ ¬ Taken l t := by
  by_cases ho : w.tag.owns = true
  · rw [refCells_of_owns ho] at hl
    refine ⟨.own l .term, ?_, (RefTok.of_owns ho).mpr (.inl rfl), by simp [Taken]⟩
    rw [wordToks_of_owns ho]
    exact mem_sum_map.mpr ⟨l, hl, Multiset.mem_singleton_self _⟩
  · cases ht : w.tag <;> simp only [ht, Tag.owns, not_true_eq_false] at ho
    case alo =>
      by_cases he : w.ext = 0
      · simp [refCells, ht, he] at hl
      · obtain rfl : l = w.val := by simpa [refCells, ht, he] using hl
        exact ⟨.own w.val (.pack w.ext), by simp [wordToks, ht, he], by simp [RefTok, ht],
          by simp [Taken]⟩
    case fOp2Num | fEqlR => simp [refCells, ht, termArity, tagArity] at hl
    all_goals
      obtain rfl : l = w.val := by simpa [refCells, ht] using hl
      simp [wordToks, RefTok, Taken, ht]

theorem frame_tok {f : Frame} {j l : Nat} {w : Term} (hw : (frameWords f)[j]? = some w)
    (hl : l ∈ refCells w) : ∃ t ∈ (frameToks f).getD j 0,
      RefTok w l t ∧ (Taken l t → frameHole f = some l) := by
  cases f with
  | native k =>
    obtain ⟨t, ht, hr, hn⟩ := refTok_of_word hl
    refine ⟨t, ?_, hr, fun h => (hn h).elim⟩
    rw [frameToks, List.getD_eq_getElem?_getD, List.getElem?_map]
    rw [frameWords] at hw
    simpa [hw] using ht
  | tm u =>
    have hj : j = 0 := by
      cases j with
      | zero => rfl
      | succ j =>
        unfold frameWords at hw
        dsimp only at hw
        split at hw <;> simp at hw
    subst hj
    have hword : frameRes (.tm u) = [.word u] → w = u → ∃ t ∈ (frameToks (.tm u)).getD 0 0,
        RefTok w l t ∧ (Taken l t → frameHole (.tm u) = some l) := by
      rintro hS rfl
      obtain ⟨t, ht, hr, hn⟩ := refTok_of_word hl
      refine ⟨t, ?_, hr, fun h => (hn h).elim⟩
      simpa [frameToks, hS, Res.toks] using ht
    have howns : ∀ n, w.tag.owns = true → w.val = u.val → termArity w = n → l ∈ List.range' u.val n := by
      intro n ho hv hn
      rwa [refCells_of_owns ho, hv, hn] at hl
    cases hu : u.tag with
    | app | op2 | eql | and | or =>
      obtain rfl : u = w := by simpa [frameWords, hu] using hw
      have hm := howns 2 (by simp [hu, Tag.owns]) rfl (by simp [termArity, hu, tagArity])
      rw [List.mem_range'_1] at hm
      have ho : u.tag.owns = true := by simp [hu, Tag.owns]
      by_cases h0 : l = u.val
      · refine ⟨.held l none, by simp [frameToks, frameRes, hu, Res.toks, h0],
          (RefTok.of_owns ho).mpr (.inr rfl), fun _ => by simp [frameHole, hu, h0]⟩
      · obtain rfl : l = u.val + 1 := by omega
        exact ⟨.own (u.val + 1) .term, by simp [frameToks, frameRes, hu, Res.toks],
          (RefTok.of_owns ho).mpr (.inl rfl), by simp [Taken]⟩
    | fEqlR =>
      obtain rfl : { u with tag := .eql } = w := by simpa [frameWords, hu] using hw
      have hm := howns 2 rfl rfl rfl
      rw [List.mem_range'_1] at hm
      by_cases h0 : l = u.val
      · subst h0
        exact ⟨.own u.val .term, by simp [frameToks, frameRes, hu, Res.toks],
          (RefTok.of_owns rfl).mpr (.inl rfl), by simp [Taken]⟩
      · obtain rfl : l = u.val + 1 := by omega
        exact ⟨.held (u.val + 1) none, by simp [frameToks, frameRes, hu, Res.toks],
          (RefTok.of_owns rfl).mpr (.inr rfl), fun _ => by simp [frameHole, hu]⟩
    | dsu | ddu =>
      obtain rfl : u = w := by simpa [frameWords, hu] using hw
      have hm := howns 3 (by simp [hu, Tag.owns]) rfl (by simp [termArity, hu, tagArity])
      rw [List.mem_range'_1] at hm
      have ho : u.tag.owns = true := by simp [hu, Tag.owns]
      by_cases h0 : l = u.val
      · refine ⟨.held l none, by simp [frameToks, frameRes, hu, Res.toks, h0],
          (RefTok.of_owns ho).mpr (.inr rfl), fun _ => by simp [frameHole, hu, h0]⟩
      · have hl12 : l = u.val + 1 ∨ l = u.val + 2 := by omega
        refine ⟨.own l .term, ?_, (RefTok.of_owns ho).mpr (.inl rfl), by simp [Taken]⟩
        rcases hl12 with rfl | rfl <;> simp [frameToks, frameRes, hu, Res.toks]
    | dp0 | dp1 =>
      obtain rfl : u = w := by simpa [frameWords, hu] using hw
      obtain rfl : l = u.val := by simpa [refCells, hu] using hl
      simp [frameToks, frameRes, hu, Res.toks, RefTok, frameHole]
    | fOp2Num =>
      obtain rfl : { u with tag := .num } = w := by simpa [frameWords, hu] using hw
      simp [refCells, termArity, tagArity] at hl
    | _ =>
      refine hword (by simp [frameRes, hu]) ?_
      have hh : u = w := by simpa [frameWords, hu] using hw
      exact hh.symm

theorem frame_alo {f : Frame} {w : Term} (hf : FrameOk K f) (hw : w ∈ frameWords f)
    (ht : w.tag = .alo) : WordOk K w := by
  cases f with
  | native k => exact hf.1 (.word w) (List.mem_map_of_mem hw)
  | tm u =>
    have hu : u = w ∨ w.tag ≠ .alo := by
      unfold frameWords at hw
      dsimp only at hw
      split at hw <;> simp only [List.mem_singleton] at hw <;> subst hw
      · exact .inr nofun
      · exact .inr nofun
      · exact .inl rfl
    obtain rfl := hu.resolve_right fun hne => hne ht
    exact hf.1 (.word u) (by simp [frameRes, ht])

/-- The references of a live word are charged to its place. -/
structure Accounted (K : Statics) (m : Machine) (st : Nat → CellSt Attr Cell) (p : Place)
    (w : Term) : Prop where
  tok : ∀ l ∈ refCells w, ∃ t, Charged m st p t ∧ RefTok w l t ∧
    (Taken l t → ∃ f ∈ m.stack, frameHole f = some l)
  ok : w.tag = .alo → WordOk K w ∧ ∀ q path, p ≠ .under q path

theorem accounted_of_word {w : Term} (hw : WordOk K w) (hs : siteToks m st p = wordToks w)
    (hc : ∀ l, p = .cell l → ∃ w, m.rt.heap l = .tm w) (hp : ∀ q path, p ≠ .under q path) :
    Accounted K m st p w := by
  refine ⟨fun l hl => ?_, fun _ => ⟨hw, hp⟩⟩
  obtain ⟨t, ht, hr, hn⟩ := refTok_of_word hl
  exact ⟨t, .site (hs ▸ ht) hc, hr, fun h => (hn h).elim⟩

/-- A cell reached from a live word, and not taken out, holds a live word. -/
theorem Account.content (hA : Account K m st) {v w : Term} {l : Nat}
    (ht : Charged m st p t) (hr : RefTok v l t) (hl : l ∈ nextCells m.rt v)
    (hn : ∀ f ∈ m.stack, frameHole f ≠ some l)
    (htaken : Taken l t → ∃ f ∈ m.stack, frameHole f = some l) (hc : m.rt.heap l = .tm w) :
    l < m.rt.next ∧ WordOk K (termSubSet w false) ∧ (st l).content = wordToks (termSubSet w false) := by
  have htk : ¬ Taken l t := fun h => by
    obtain ⟨f, hf, he⟩ := htaken h
    exact hn f hf he
  have hpinned : ∀ {t'}, (st l).pin l = some t' → False := fun {t'} hp => by
    have hmem := hA.inv.pinned l t' hp
    have hpins : t'.Pins ∧ t'.loc = l := by
      cases hst : st l <;> simp only [hst, CellSt.pin, reduceCtorEq, Option.some.injEq] at hp <;>
        (subst hp; exact ⟨trivial, rfl⟩)
    rcases Multiset.mem_add.mp hmem with hm | hm
    · exact wordToks_not_pins hm hpins.1
    · obtain ⟨u, side, hu, htag, rfl⟩ := pinned_stackToks (σ := 0) (by simp) (by simpa using hm) hpins.1
      refine hn _ hu ?_
      rw [← hpins.2]
      cases side <;> simp [frameHole, htag, dupTag, LinearHeap.Tok.loc]
  have hloc : t.loc = l := by
    unfold RefTok at hr
    split at hr <;> first | (subst hr; rfl) | (rcases hr with rfl | rfl <;> rfl)
  have hfit := hA.charged_fits ht
  rw [hloc] at hfit
  have hok := hA.inv.ok l
  rw [hc] at hok
  have hlt : l < m.rt.next := hA.inv.lt_of_ne_free fun hs => by
    rw [hs] at hfit
    exact hfit
  -- an unmarked content is the word itself
  have hplain : ∀ {a σ}, w.sub = false → Holds K a (.tm w) σ → (∀ n, a ≠ .pack n) →
      WordOk K (termSubSet w false) ∧ σ = wordToks (termSubSet w false) := by
    intro a σ hs hh ha
    obtain ⟨x, hx, hwok, hσ⟩ := hh.word ha
    cases hx
    rw [show termSubSet w false = w by rw [termSubSet, ← hs]]
    exact ⟨hwok, hσ⟩
  have hattr : t = .own l .term ∨ t = .bind l .term ∨ (t = .use l .term ∧ w.sub = true) ∨
      (∃ n s, t = .share l (.lab n) s) ∨ ∃ n, t = .own l (.pack n) := by
    unfold RefTok at hr
    split at hr
    case h_1 => exact .inr (.inl hr)
    case h_2 hv =>
      refine .inr (.inr (.inl ⟨hr, ?_⟩))
      unfold nextCells at hl
      split_ifs at hl with hsub
      · simp at hl
      · obtain rfl : l = v.val := by simpa [refCells, hv] using hl
        have hh : (heapRead m.rt v.val).sub ≠ false := fun h => hsub ⟨hv, h⟩
        rw [heapRead, hc] at hh
        simpa [Cell.toTerm] using hh
    case h_3 => exact .inr (.inr (.inr (.inl ⟨_, _, hr.resolve_right fun h => htk (.inr ⟨_, _, h⟩)⟩)))
    case h_4 => exact .inr (.inr (.inr (.inl ⟨_, _, hr.resolve_right fun h => htk (.inr ⟨_, _, h⟩)⟩)))
    case h_5 => exact .inr (.inr (.inr (.inr ⟨_, hr⟩)))
    case h_6 => exact .inl (hr.resolve_right fun h => htk (.inl h))
  refine ⟨hlt, ?_⟩
  cases hst : st l with
  | free =>
    rw [hst] at hfit
    exact hfit.elim
  | owned a σ =>
    rw [hst] at hfit hok
    refine hplain hok.1 hok.2 fun n ha => ?_
    subst ha
    exact hok.2.elim
  | held o =>
    rw [hst] at hfit
    rcases hattr with rfl | rfl | ⟨rfl, -⟩ | ⟨n, s, rfl⟩ | ⟨n, rfl⟩ <;> cases hfit
  | bound a σ =>
    rw [hst] at hfit hok
    refine hplain hok.1 hok.2 fun n ha => ?_
    subst ha
    exact hok.2.elim
  | bodyHeld a => exact (hpinned (by rw [hst]; rfl)).elim
  | subst a σ =>
    rw [hst] at hok
    obtain ⟨x, hx, hwok, hσ⟩ := Holds.word hok.2 fun n ha => by
      subst ha
      exact hok.2.elim
    cases hx
    exact ⟨hwok, hσ⟩
  | dead a =>
    rw [hst] at hfit hok
    rcases hattr with rfl | rfl | ⟨rfl, hs⟩ | ⟨n, s, rfl⟩ | ⟨n, rfl⟩ <;> cases hfit
    have hns : w.sub = false := hok
    rw [hs] at hns
    cases hns
  | shared a σ =>
    rw [hst] at hfit hok
    refine hplain hok.1 hok.2 fun n ha => ?_
    subst ha
    exact hok.2.elim
  | taken a r => exact (hpinned (by rw [hst]; rfl)).elim
  | fired a r σ =>
    rw [hst] at hok
    obtain ⟨x, hx, hwok, hσ⟩ := Holds.word hok.2 fun n ha => by
      subst ha
      exact hok.2.elim
    cases hx
    exact ⟨hwok, hσ⟩

theorem Live.accounted (hA : Account K m st) {w : Term} (h : Live m p w) : Accounted K m st p w := by
  induction h with
  | cur => exact accounted_of_word hA.word rfl nofun nofun
  | @frame i j f w hf hw =>
    refine ⟨fun l hl => ?_, fun ht => ⟨?_, nofun⟩⟩
    · obtain ⟨t, ht, hr, hh⟩ := frame_tok hw hl
      refine ⟨t, .site ?_ nofun, hr, fun h => ⟨f, List.mem_of_getElem? hf, hh h⟩⟩
      rw [siteToks, List.getD_eq_getElem?_getD (l := m.stack.map frameToks), List.getElem?_map, hf]
      exact ht
    · exact frame_alo (hA.frames f (List.mem_of_getElem? hf)) (List.mem_of_getElem? hw) ht
  | @cell p v l w _ hl hn hc ih =>
    have href : l ∈ refCells v := by
      unfold nextCells at hl
      split_ifs at hl
      · simp at hl
      · exact hl
    obtain ⟨t, ht, hr, htaken⟩ := ih.tok l href
    obtain ⟨hlt, hok, hcont⟩ := hA.content ht hr hl hn htaken hc
    refine accounted_of_word hok ?_ ?_ nofun
    · rw [siteToks, if_pos hlt, hcont]
    · rintro l' ⟨⟩
      exact ⟨w, hc⟩
  | @under p v loc ls tm path u _ hv hread hs hr hl ih =>
    obtain ⟨hok, hplace⟩ := ih.ok hv
    by_cases he : v.ext = 0
    · -- a closed book term has no free reference
      obtain ⟨b, hb, hbook⟩ := hok.alo hv he
      rw [aloRead, if_pos he] at hread
      obtain ⟨rfl, rfl, rfl⟩ : 0 = loc ∧ 0 = ls ∧ v.val = tm := by simpa using hread
      rw [heapRead_static hA.static hb] at hs
      rw [he] at hl
      have hmem := hbook.path_mem hA.static hs hr hl
      simp at hmem
    · obtain ⟨t, ht, hrt, -⟩ := ih.tok v.val (by simp [refCells, hv, he])
      obtain rfl : t = .own v.val (.pack v.ext) := by simpa [RefTok, hv] using hrt
      have hsite : Tok.own v.val (.pack v.ext) ∈ siteToks m st p := by
        cases ht with
        | site h => exact h
        | under => exact (hplace _ _ rfl).elim
      have hcell : m.rt.heap v.val = .alo ls tm := by
        have hfit := hA.site_fits hsite
        have hok := hA.inv.ok v.val
        rw [LinearHeap.Tok.loc] at hfit
        cases hst : st v.val <;> rw [hst] at hfit hok <;> simp only [CellSt.Fits, reduceCtorEq,
          or_self, LinearHeap.Tok.own.injEq, true_and] at hfit
        subst hfit
        cases hc : m.rt.heap v.val with
        | tm w =>
          rw [hc] at hok
          exact hok.2.elim
        | alo ls' tm' =>
          rw [aloRead, if_neg he, hc] at hread
          simp only [Prod.mk.injEq] at hread
          rw [hread.2.1, hread.2.2]
      obtain ⟨t, htoks, hne, hm⟩ := hA.under_mem hsite hcell hs hr hl
      refine ⟨fun l hl' => ?_, fun h => (hne h).elim⟩
      obtain ⟨t', ht', hr', hn⟩ := refTok_of_word hl'
      rw [htoks, Multiset.mem_singleton] at ht'
      subst ht'
      exact ⟨t', .under hsite hcell hs hr hl htoks, hr', fun h => (hn h).elim⟩

/-! The four parts of linear ownership -/

theorem dupTag_injective : Function.Injective dupTag := by decide

theorem RefTok.dup {w : Term} {l : Nat} {s : Bool} (hw : w.tag = dupTag s) :
    RefTok w l t ↔ t = .share l (.lab w.ext) s ∨ t = .shareHeld l (.lab w.ext) s := by
  cases s <;> simp [RefTok, hw, dupTag]

theorem refCells_dup {w : Term} {s : Bool} (hw : w.tag = dupTag s) : refCells w = [w.val] := by
  cases s <;> simp [refCells, hw, dupTag]

theorem RefTok.loc {w : Term} {l : Nat} (h : RefTok w l t) : t.loc = l := by
  unfold RefTok at h
  split at h <;> first | (subst h; rfl) | (rcases h with rfl | rfl <;> rfl)

/-- Two live words at different places refer to a cell only as the two ends of a binder
or as the two sides of a dup. -/
theorem Account.cells (hA : Account K m st) {v w : Term} {l : Nat} (hp : Live m p v)
    (hq : Live m q w) (hne : p ≠ q) (hv : l ∈ refCells v) (hw : l ∈ refCells w) :
    v.val = l ∧ w.val = l ∧ (v.tag = .lam ∧ w.tag = .var ∨ v.tag = .var ∧ w.tag = .lam ∨
      ∃ s, v.tag = dupTag s ∧ w.tag = dupTag (!s)) := by
  obtain ⟨t, ht, hrv, -⟩ := (hp.accounted hA).tok l hv
  obtain ⟨t', ht', hrw, -⟩ := (hq.accounted hA).tok l hw
  have htt : t ≠ t' := by
    rintro rfl
    exact hne (hA.charged_unique ht ht')
  have hf := hA.charged_fits ht
  have hf' := hA.charged_fits ht'
  rw [hrv.loc] at hf
  rw [hrw.loc] at hf'
  have hval : ∀ {u : Term}, l ∈ refCells u → (u.tag = .lam ∨ u.tag = .var ∨ ∃ s, u.tag = dupTag s) →
      u.val = l := by
    intro u hu hk
    have hr : refCells u = [u.val] := by
      rcases hk with hk | hk | ⟨s, hk⟩
      · simp [refCells, hk]
      · simp [refCells, hk]
      · exact refCells_dup hk
    rw [hr, List.mem_singleton] at hu
    exact hu.symm
  have hkind : ∀ {u : Term} {x : Tok}, RefTok u l x →
      (∀ a, x = .bind l a → u.tag = .lam) ∧ (∀ a, x = .use l a → u.tag = .var) ∧
      (∀ a, x ≠ .bindHeld l a) ∧
      ∀ a s, (x = .share l a s ∨ x = .shareHeld l a s) → u.tag = dupTag s := by
    intro u x hx
    unfold RefTok at hx
    split at hx <;> rename_i hu <;> first
      | (subst hx; simp [hu])
      | (rcases hx with rfl | rfl <;> simp [hu, dupTag])
  have hcase : v.tag = .lam ∧ w.tag = .var ∨ v.tag = .var ∧ w.tag = .lam ∨
      ∃ s, v.tag = dupTag s ∧ w.tag = dupTag (!s) := by
    cases hst : st l with
    | free | owned a σ | held o | subst a σ | dead a | fired a r σ =>
      rw [hst] at hf hf'
      first
        | exact hf.elim
        | exact (htt (Eq.trans hf hf'.symm)).elim
    | bound a σ =>
      rw [hst] at hf hf'
      rcases hf with hf | hf <;> rcases hf' with hf' | hf'
      · exact (htt (hf.trans hf'.symm)).elim
      · exact .inl ⟨(hkind hrv).1 a hf, (hkind hrw).2.1 a hf'⟩
      · exact .inr (.inl ⟨(hkind hrv).2.1 a hf, (hkind hrw).1 a hf'⟩)
      · exact (htt (hf.trans hf'.symm)).elim
    | bodyHeld a =>
      rw [hst] at hf hf'
      rcases hf with hf | hf <;> rcases hf' with hf' | hf'
      · exact ((hkind hrv).2.2.1 a hf).elim
      · exact ((hkind hrv).2.2.1 a hf).elim
      · exact ((hkind hrw).2.2.1 a hf').elim
      · exact (htt (hf.trans hf'.symm)).elim
    | shared a σ =>
      rw [hst] at hf hf'
      rcases hf with hf | hf <;> rcases hf' with hf' | hf'
      · exact (htt (hf.trans hf'.symm)).elim
      · exact .inr (.inr ⟨false, (hkind hrv).2.2.2 a _ (.inl hf), (hkind hrw).2.2.2 a _ (.inl hf')⟩)
      · exact .inr (.inr ⟨true, (hkind hrv).2.2.2 a _ (.inl hf), (hkind hrw).2.2.2 a _ (.inl hf')⟩)
      · exact (htt (hf.trans hf'.symm)).elim
    | taken a r =>
      rw [hst] at hf hf'
      rcases hf with hf | hf <;> rcases hf' with hf' | hf'
      · exact (htt (hf.trans hf'.symm)).elim
      · exact .inr (.inr ⟨r, (hkind hrv).2.2.2 a _ (.inr hf), (hkind hrw).2.2.2 a _ (.inl hf')⟩)
      · refine .inr (.inr ⟨!r, (hkind hrv).2.2.2 a _ (.inl hf), ?_⟩)
        rw [Bool.not_not]
        exact (hkind hrw).2.2.2 a _ (.inr hf')
      · exact (htt (hf.trans hf'.symm)).elim
  refine ⟨hval hv ?_, hval hw ?_, hcase⟩
  · rcases hcase with ⟨h, -⟩ | ⟨h, -⟩ | ⟨s, h, -⟩
    · exact .inl h
    · exact .inr (.inl h)
    · exact .inr (.inr ⟨s, h⟩)
  · rcases hcase with ⟨-, h⟩ | ⟨-, h⟩ | ⟨s, -, h⟩
    · exact .inr (.inl h)
    · exact .inl h
    · exact .inr (.inr ⟨_, h⟩)

/-- The live sides of a dup cell carry one label. -/
theorem Account.labels (hA : Account K m st) {v w : Term} {s r : Bool} (hp : Live m p v)
    (hq : Live m q w) (hv : v.tag = dupTag s) (hw : w.tag = dupTag r) (hval : v.val = w.val) :
    v.ext = w.ext := by
  obtain ⟨t, ht, hrv, -⟩ := (hp.accounted hA).tok v.val (by simp [refCells_dup hv])
  obtain ⟨t', ht', hrw, -⟩ := (hq.accounted hA).tok v.val (by simp [refCells_dup hw, hval])
  have hf := hA.charged_fits ht
  have hf' := hA.charged_fits ht'
  rw [hrv.loc] at hf
  rw [hrw.loc] at hf'
  have hl := hf.label ((RefTok.dup hv).mp hrv)
  have hl' := hf'.label ((RefTok.dup hw).mp hrw)
  exact Attr.lab.inj (Option.some.inj (hl.symm.trans hl'))

/-- A linear machine state owns its heap linearly. -/
theorem Linearised.ownsLinearly (h : Linearised K 0 m) : OwnsLinearly m := by
  obtain ⟨st, hA⟩ := h.account
  refine ⟨?_, ?_, ?_, ?_⟩
  · intro p q v w l hp hq hv hw
    by_contra hne
    have hlam : v.tag ≠ .lam ∧ v.tag ≠ .var ∧ ∀ s, v.tag ≠ dupTag s := by
      refine ⟨?_, ?_, ?_⟩
      · intro ht
        simp [nodeLoc, ht] at hv
      · intro ht
        simp [nodeLoc, ht] at hv
      · intro s ht
        cases s <;> simp [nodeLoc, ht, dupTag] at hv
    have hmem : ∀ {u : Term}, nodeLoc u = some l → l ∈ refCells u := fun {u} hu => by
      unfold nodeLoc at hu
      split at hu <;> first | cases hu | exact List.mem_of_mem_head? hu
    rcases (hA.cells hp hq hne (hmem hv) (hmem hw)).2.2 with ⟨h, -⟩ | ⟨h, -⟩ | ⟨s, h, -⟩
    · exact hlam.1 h
    · exact hlam.2.1 h
    · exact hlam.2.2 s h
  · intro p q v w hp hq hv hw hval
    by_contra hne
    rcases (hA.cells (l := v.val) hp hq hne (by simp [refCells, hv]) (by simp [refCells, hw, hval])).2.2
      with ⟨h, -⟩ | ⟨-, h⟩ | ⟨s, h, -⟩
    · rw [hv] at h
      cases h
    · rw [hw] at h
      cases h
    · rw [hv] at h
      cases s <;> cases h
  · intro p q v w s r hp hq hv hw hval
    refine ⟨fun hsr => ?_, hA.labels hp hq hv hw hval⟩
    subst hsr
    by_contra hne
    rcases (hA.cells (l := v.val) hp hq hne (by simp [refCells_dup hv])
      (by simp [refCells_dup hw, hval])).2.2 with ⟨h, -⟩ | ⟨h, -⟩ | ⟨r, h, h'⟩
    · rw [hv] at h
      cases s <;> cases h
    · rw [hv] at h
      cases s <;> cases h
    · have hs := dupTag_injective (hv.symm.trans h)
      have hr := dupTag_injective (hw.symm.trans h')
      simp [← hs] at hr
  · intro p q v w l hp hq hne hv hw
    exact hA.cells hp hq hne hv hw

end Hvm
