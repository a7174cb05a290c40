import Hvm.Parse.Owned

/-! `parse_auto_dup` on a parsed term: the walk leaves a body that is sound under the dups
of the chain, and each dup put around it closes one of them. -/

namespace Hvm

open Effect

variable {d : DupChain}

/-- Words that stand for the dups of a chain before they are built. -/
def DupChain.kinds (d : DupChain) : List Term :=
  (List.range d.n).map fun i => termNew false .dup (d.lab + i) 0

theorem chainKinds_kinds (hd : d.Ok) : ChainKinds d d.kinds := by
  have hlabs := hd.labs
  refine ⟨by simp [DupChain.kinds], fun i hi => ?_⟩
  have hlt : i < d.n := by simpa [DupChain.kinds] using hi
  have hmod : (d.lab + i) % (extMask + 1) = d.lab + i := Nat.mod_eq_of_lt (by omega)
  simp [DupChain.kinds, termNew, hmod]

/-- What a bound variable of the environment looks like. -/
structure Target (env : List Term) (t : DupTarget) : Prop where
  tgt : t.tgt = .bjv ∨ t.tgt = .bj0 ∨ t.tgt = .bj1
  lvl : t.lvl ≤ env.length
  ext : t.ext ≤ extMask
  bjv : t.tgt = .bjv → t.ext = 0
  ref : RefOk env (termNew false t.tgt t.ext t.lvl)

/-! ### The body after the walk -/

theorem DupChain.Step.plain (hd : d.Ok) {w w' : Term} (hw : RefPlain w) (h : d.Step w w') :
    RefPlain w' := by
  intro hq'
  unfold DupChain.Step at h
  split at h
  · obtain ⟨i, hi, rfl⟩ := h
    have hlabs := hd.labs
    have hsub : (d.link i).sub = false := by
      unfold DupChain.link
      split <;> rfl
    refine ⟨hsub, ?_, ?_⟩
    · rw [link_ext hd hi]
      omega
    · intro ht
      rcases link_tag (d := d) i with hl | hl <;> rw [hl] at ht <;> cases ht
  · split at h
    · rename_i hq
      rw [h, shift_eq hw hq.1]
      exact hw hq.1
    · rw [h] at hq' ⊢
      exact hw hq'

theorem DupChain.Step.quoted_iff (hd : d.Ok) {w w' : Term} (h : d.Step w w') :
    isQuoted w' ↔ isQuoted w := by
  refine ⟨fun hq' => ?_, h.quoted⟩
  by_contra hq
  rw [h.of_not_quoted hd hq] at hq'
  exact hq hq'

theorem Fields.Stored.reread_cells (hd : d.Ok) {rt rt' : Rt} {loc : Nat} {F : Fields}
    (h : F.Stored rt loc)
    (hstep : ∀ c ∈ F.cells loc, d.Step (heapRead rt c) (heapRead rt' c)) :
    (F.reread rt' loc).cells loc = F.cells loc := by
  induction F generalizing loc with
  | nil => rfl
  | cons w sub rest ihs ihr =>
    obtain ⟨hw, hlen, hsub, hrest⟩ := h
    have hhead := hstep loc List.mem_cons_self
    rw [hw] at hhead
    have hr := ihr hrest fun c hc => hstep c (List.mem_cons_of_mem _ (List.mem_append_right _ hc))
    by_cases hq : Hvm.isQuoted w
    · obtain rfl := Fields.eq_nil_of_length (hlen.trans (termArity_of_isQuoted hq))
      simp only [reread, cells, hr]
    · have he := hhead.of_not_quoted hd hq
      have hs := ihs hsub fun c hc =>
        hstep c (List.mem_cons_of_mem _ (List.mem_append_left _ hc))
      simp only [reread, cells, he, hs, hr]

/-- The body after the walk is parsed under the chain's dups as well. -/
theorem Parsed.walked (hd : d.Ok) {env : List Term} (henv : env.length = d.base) {rt rt' : Rt}
    {lo hi : Nat} {body : Term} {F : Fields} (h : Parsed env rt lo hi body F)
    (hq : ¬ isQuoted body)
    (hstep : ∀ c ∈ F.cells body.val, d.Step (heapRead rt c) (heapRead rt' c)) :
    Parsed (env ++ d.kinds) rt' lo hi body (F.reread rt' body.val) ∧
      (F.reread rt' body.val).words = (F.cells body.val).map (heapRead rt') := by
  have hkinds := chainKinds_kinds hd
  have hins (i : Nat) : Inserted d d.kinds (fieldEnv body env i)
      (fieldEnv body (env ++ d.kinds) i) :=
    Inserted.field ⟨env, [], henv, by simp, by simp⟩ body i
  obtain ⟨hstored, hmatch, hwords⟩ := h.block.stored.reread_match hd hkinds.1 hins hstep
  have hcells := h.block.stored.reread_cells hd hstep
  have hroot : (Fields.cons body F .nil).Match (Relinked d d.kinds) (fun _ => env)
      (fun _ => env ++ d.kinds) (.cons body (F.reread rt' body.val) .nil) := by
    refine ⟨?_, hmatch, trivial⟩
    unfold Relinked
    rw [if_neg fun hh => hq (isQuoted_of_hits hd hh), if_neg hq]
  have hplain : ∀ w ∈ (Fields.cons body F .nil).words, RefPlain w := by
    intro w hw
    simp only [Fields.words, List.append_nil] at hw
    exact h.plain_words w hw
  obtain ⟨href, hbinds, hsound, -⟩ := hroot.sound hd hkinds
    (fun _ => ⟨Nat.le_of_eq henv.symm, by simp [hkinds.1]⟩) hplain
    ⟨h.ref, h.binds, h.block.sound, trivial⟩
  refine ⟨{ arity := Fields.length_reread.trans h.arity
            plain := h.plain
            ref := href
            binds := hbinds
            block := ⟨hstored, ?_, ?_, ?_, hsound⟩ }, hwords⟩
  · rw [hcells]
    exact h.block.bound
  · intro w hw
    rw [hwords] at hw
    obtain ⟨c, hc, rfl⟩ := List.mem_map.mp hw
    refine (hstep c hc).plain hd (h.block.plain _ ?_)
    rw [h.block.stored.words_eq]
    exact List.mem_map_of_mem hc
  · intro c hcq
    rw [hcells]
    by_cases hc : c ∈ F.cells body.val
    · exact h.block.once c (((hstep c hc).quoted_iff hd).mp hcq)
    · rw [List.count_eq_zero_of_not_mem hc]
      exact Nat.zero_le 1

/-! ### The chain -/

/-- The references to a side of the chain's `i`-th dup. -/
def DupChain.sideTarget (d : DupChain) (i : Nat) (side : Bool) : DupTarget :=
  ⟨if side then .bj1 else .bj0, d.base + 1 + i, d.lab + i⟩

theorem value_plain (hd : d.Ok) (i : Nat) : RefPlain (d.value i) := by
  intro _
  unfold DupChain.value
  split
  · exact ⟨rfl, Nat.le_of_lt_succ (Nat.mod_lt _ (Nat.succ_pos _)), fun ht => by
      simp [termNew, hd.bjv ht]⟩
  · exact ⟨rfl, Nat.le_of_lt_succ (Nat.mod_lt _ (Nat.succ_pos _)), fun ht => by cases ht⟩

theorem termArity_value (hd : d.Ok) (i : Nat) : termArity (d.value i) = 0 := by
  refine termArity_of_isQuoted ?_
  unfold DupChain.value
  split
  · exact decide_eq_true hd.tgt
  · simp [isQuoted, termNew]

theorem value_ref (hd : d.Ok) {env : List Term} (henv : env.length = d.base)
    (htarget : RefOk env d.target) {i : Nat} (hi : i < d.n) :
    RefOk (env ++ d.kinds.take i) (d.value i) := by
  cases i with
  | zero => exact htarget.append _
  | succ j =>
    have hlabs := hd.labs
    have hkinds := chainKinds_kinds hd
    have hj : j < d.kinds.length := by
      rw [hkinds.1]
      omega
    obtain ⟨htag, hext⟩ := hkinds.2 j hj
    have hval : (d.value (j + 1)).val = d.base + (j + 1) := rfl
    have hx : (d.value (j + 1)).ext = d.lab + j := by
      show (d.lab + (j + 1) - 1) % (extMask + 1) = d.lab + j
      exact Nat.mod_eq_of_lt (by omega)
    constructor
    · intro ht
      cases ht
    · intro _
      refine ⟨d.kinds[j], ?_, htag, hext.trans hx.symm⟩
      rw [binderAt_high (by omega), hval, henv]
      have hidx : d.base + (j + 1) - d.base - 1 = j := by omega
      rw [hidx, List.getElem?_take_of_lt (Nat.lt_succ_self j), List.getElem?_eq_getElem hj]

/-- Each dup of the chain closes one of the binders that stood for it. -/
theorem autoDupChain_parsed (hd : d.Ok) {env : List Term} (henv : env.length = d.base)
    (htarget : RefOk env d.target) {C : DupTarget → Nat}
    (hside : ∀ i < d.n, ∀ side,
      C (d.sideTarget i side) + d.values.countP (d.sideTarget i side).hits ≤ 1)
    {i lo : Nat} {t res : Term} {F : Fields} {p p' : Parse} (hi : i ≤ d.n)
    (hF : Parsed (env ++ d.kinds.take i) p.rt lo p.rt.next t F) (hlo : lo ≤ p.rt.next)
    (hcount : ∀ t', (t'.tgt = .bjv ∨ t'.tgt = .bj0 ∨ t'.tgt = .bj1) →
      (t :: F.words).countP t'.hits = C t' + (d.values.drop i).countP t'.hits)
    (h : autoDupChain d i t p = .ok (res, p')) :
    ∃ F', Parsed env p'.rt lo p'.rt.next res F' ∧
      (∀ t', (t'.tgt = .bjv ∨ t'.tgt = .bj0 ∨ t'.tgt = .bj1) →
        (res :: F'.words).countP t'.hits = C t' + d.values.countP t'.hits) ∧
      p.rt.next ≤ p'.rt.next ∧ (∀ c < p.rt.next, heapRead p'.rt c = heapRead p.rt c) := by
  induction i generalizing t F p with
  | zero =>
    obtain ⟨rfl, rfl⟩ := pure_ok.mp h
    simp only [List.take_zero, List.append_nil] at hF
    exact ⟨F, hF, hcount, Nat.le_refl _, fun _ _ => rfl⟩
  | succ i ih =>
    simp only [autoDupChain, bind_ok, build_ok] at h
    obtain ⟨t', q, ⟨-, rfl, rfl⟩, h⟩ := h
    have hlabs := hd.labs
    have hkinds := chainKinds_kinds hd
    have hik : i < d.kinds.length := by
      rw [hkinds.1]
      omega
    have hnext : (termNewDup p.rt (d.lab + i) (d.value i) t).1.next = p.rt.next + 2 :=
      termNewNode_next _ _ _ _
    have hkeep : ∀ c < p.rt.next,
        heapRead (termNewDup p.rt (d.lab + i) (d.value i) t).1 c = heapRead p.rt c :=
      fun c hc => termNewNode_frame _ _ _ _ hc
    have hmod : (d.lab + i) % (extMask + 1) = d.lab + i := Nat.mod_eq_of_lt (by omega)
    have hlen : (env ++ d.kinds.take i).length = d.base + i := by
      rw [List.length_append, henv, List.length_take]
      omega
    have htake : env ++ d.kinds.take (i + 1) = env ++ d.kinds.take i ++ [d.kinds[i]] := by
      rw [List.take_succ_eq_append_getElem hik, List.append_assoc]
    rw [htake] at hF
    have hvi : (d.values.drop i) = d.value i :: d.values.drop (i + 1) := by
      have hlt : i < d.values.length := by simp [DupChain.values]; omega
      rw [List.drop_eq_getElem_cons hlt]
      simp [DupChain.values]
    have hdup : Parsed (env ++ d.kinds.take i) (termNewDup p.rt (d.lab + i) (d.value i) t).1 lo
        (termNewDup p.rt (d.lab + i) (d.value i) t).1.next
        (termNewDup p.rt (d.lab + i) (d.value i) t).2
        (.cons (d.value i) .nil (.cons t F .nil)) := by
      refine Parsed.newDup (value_plain hd i) (termArity_value hd i)
        (value_ref hd henv htarget (by omega)) hF hlo (fun loc => ?_) fun side => ?_
      · obtain ⟨htag, hext⟩ := hkinds.2 i hik
        refine ⟨fun hl => ?_, fun _ => ⟨rfl, ?_⟩⟩
        · rw [htag] at hl
          cases hl
        · rw [hext]
          exact hmod
      · have hq : (d.sideTarget i side).tgt = .bjv ∨ (d.sideTarget i side).tgt = .bj0 ∨
            (d.sideTarget i side).tgt = .bj1 := by
          cases side
          · exact Or.inr (Or.inl rfl)
          · exact Or.inr (Or.inr rfl)
        have hone := hside i (by omega) side
        have hsub : (d.values.drop (i + 1)).countP (d.sideTarget i side).hits ≤
            d.values.countP (d.sideTarget i side).hits :=
          (List.drop_sublist _ _).countP_le
        have hc := hcount _ hq
        have hlvl : d.base + i + 1 = d.base + 1 + i := by omega
        rw [hlen, hmod, hlvl]
        show (t :: F.words).countP (d.sideTarget i side).hits ≤ 1
        omega
    have hnew (t' : DupTarget) (ht' : t'.tgt = .bjv ∨ t'.tgt = .bj0 ∨ t'.tgt = .bj1) :
        ((termNewDup p.rt (d.lab + i) (d.value i) t).2 ::
          (Fields.cons (d.value i) .nil (.cons t F .nil)).words).countP t'.hits =
        C t' + (d.values.drop i).countP t'.hits := by
      have hc := hcount t' ht'
      have hno : t'.hits (termNewDup p.rt (d.lab + i) (d.value i) t).2 = false :=
        Bool.eq_false_iff.mpr fun hh => by
          have hq := hits_quoted ht' hh
          cases hq
      rw [hvi, List.countP_cons_of_neg (a := (termNewDup p.rt (d.lab + i) (d.value i) t).2)
        (by simp [hno])]
      simp only [Fields.words, List.nil_append, List.append_nil, List.countP_cons] at hc ⊢
      omega
    obtain ⟨F', hF', hc', hn', hk'⟩ := ih (by omega) hdup (by rw [hnext]; omega) hnew h
    refine ⟨F', hF', hc', ?_, fun c hc => ?_⟩
    · exact Nat.le_trans (by rw [hnext]; omega) hn'
    · rw [hk' c (by rw [hnext]; omega), hkeep c hc]

/-! ### The call -/

theorem Target.call {env : List Term} {t : DupTarget} (ht : Target env t) {lo uses : Nat}
    {body : Term} {F : Fields} {p : Parse} (hF : Parsed env p.rt lo p.rt.next body F)
    (hu : uses = (body :: F.words).countP t.hits) :
    AutoDupCall t env.length uses body F p where
  tgt := ht.tgt
  lvl := ht.lvl
  ext := ht.ext
  bjv := ht.bjv
  arity := hF.arity
  stored := hF.block.stored
  plain := hF.block.plain
  below := fun c hc => (hF.block.bound c hc).2
  uses := hu

/-- What a call makes of a parsed body: at most one reference to the target is left, and
as many to any other variable of the environment. -/
structure Cloned (env : List Term) (t : DupTarget) (lo : Nat) (body : Term) (F : Fields)
    (p : Parse) (res : Term) (F' : Fields) (p' : Parse) : Prop where
  parsed : Parsed env p'.rt lo p'.rt.next res F'
  once : (res :: F'.words).countP t.hits ≤ 1
  others : ∀ t' : DupTarget, (t'.tgt = .bjv ∨ t'.tgt = .bj0 ∨ t'.tgt = .bj1) → t'.lvl ≤ env.length →
    t'.hits (termNew false t.tgt t.ext t.lvl) = false →
    (res :: F'.words).countP t'.hits = (body :: F.words).countP t'.hits
  next : p.rt.next ≤ p'.rt.next
  keep : ∀ c < lo, heapRead p'.rt c = heapRead p.rt c

theorem DupChain.sideTarget_eq (hd : d.Ok) {i : Nat} (hi : i < d.n) (side : Bool) {w : Term}
    (hw : RefPlain w) (h : (d.sideTarget i side).hits w) : w = d.side side i := by
  have hlabs := hd.labs
  have hq : isQuoted w := by
    refine hits_quoted ?_ h
    cases side
    · exact Or.inr (Or.inl rfl)
    · exact Or.inr (Or.inr rfl)
  have hsub := (hw hq).1
  obtain ⟨htag, hval, hext⟩ := of_decide_eq_true h
  have hx : w.ext = d.lab + i := by
    rcases hext with hb | he
    · cases side <;> cases hb
    · exact he
  obtain ⟨sub, tag, ext, val⟩ := w
  simp only at hsub htag hval hx
  subst hsub htag hval hx
  simp only [DupChain.side, termNew, Nat.mod_eq_of_lt (show d.lab + i < extMask + 1 by omega)]
  rfl

theorem parseAutoDup_parsed {env : List Term} {t : DupTarget} (ht : Target env t)
    {fuel lo uses : Nat} {body res : Term} {F : Fields} {p p' : Parse}
    (hF : Parsed env p.rt lo p.rt.next body F) (hlo : lo ≤ p.rt.next)
    (hu : uses = (body :: F.words).countP t.hits) (hcap : p.rt.next ≤ 2 ^ 32)
    (h : parseAutoDup fuel body t env.length uses p = .ok (res, p')) :
    ∃ F', Cloned env t lo body F p res F' p' := by
  by_cases hone : uses ≤ 1
  · simp only [parseAutoDup, if_pos hone] at h
    obtain ⟨rfl, rfl⟩ := pure_ok.mp h
    exact ⟨F, hF, hu ▸ hone, fun _ _ _ _ => rfl, Nat.le_refl _, fun _ _ => rfl⟩
  · have hu2 : 2 ≤ uses := by omega
    have hcall := ht.call hF hu
    obtain ⟨hd, hchain⟩ := parseAutoDup_walked hcall hu2 hcap h
    have hcount := hcall.countP hu2
    have honce : (dupChain t env.length uses p).VisitsOnce p.rt (F.cells body.val) :=
      fun c ha => hF.block.once c (ha.elim (isQuoted_of_hits hd) (·.1))
    obtain ⟨hrelink, hsteps⟩ := hcall.steps hu2 honce
    have hnext : (walked (dupChain t env.length uses p) p.rt (F.cells body.val)).next =
        p.rt.next := visits_next
    have hframe : ∀ c ∉ F.cells body.val,
        heapRead (walked (dupChain t env.length uses p) p.rt (F.cells body.val)) c =
          heapRead p.rt c := fun c hc => visits_of_notMem hc
    have htarget : (dupChain t env.length uses p).target = termNew false t.tgt t.ext t.lvl := rfl
    have hn : (dupChain t env.length uses p).n = uses - 1 := rfl
    have hhits : (dupChain t env.length uses p).hits = t.hits := rfl
    have hbase : (dupChain t env.length uses p).base = env.length := rfl
    generalize dupChain t env.length uses p = d at *
    have hq : ¬ isQuoted body := by
      intro hq
      obtain rfl := Fields.eq_nil_of_length (hF.arity.trans (termArity_of_isQuoted hq))
      rw [Fields.words, List.countP_nil] at hcount
      omega
    obtain ⟨hbody, hwords⟩ := hF.walked hd hbase.symm hq hsteps
    rw [hrelink] at hwords
    have hroot (t' : DupTarget) (ht' : t'.tgt = .bjv ∨ t'.tgt = .bj0 ∨ t'.tgt = .bj1)
        (ws : List Term) : (body :: ws).countP t'.hits = ws.countP t'.hits :=
      List.countP_cons_of_neg fun hh => hq (hits_quoted ht' hh)
    have hall : F.words.countP d.hits = d.n + 1 := by
      rw [hhits, hcount]
      omega
    have hplain : ∀ w ∈ d.values ++ d.relink 0 F.words, RefPlain w := by
      intro w hw
      rcases List.mem_append.mp hw with hw | hw
      · obtain ⟨i, -, rfl⟩ := mem_values.mp hw
        exact value_plain hd i
      · rw [← hwords] at hw
        exact hbody.block.plain w hw
    have hside : ∀ i < d.n, ∀ side,
        (d.relink 0 F.words).countP (d.sideTarget i side).hits +
          d.values.countP (d.sideTarget i side).hits ≤ 1 := by
      intro i hi side
      have hcs := relink_sides hd hall hi side
      have hle : (d.values ++ d.relink 0 F.words).countP (d.sideTarget i side).hits ≤
          (d.values ++ d.relink 0 F.words).count (d.side side i) := by
        refine List.countP_mono_left fun w hw hh => ?_
        exact beq_iff_eq.mpr (DupChain.sideTarget_eq hd hi side (hplain w hw) hh)
      rw [List.countP_append] at hle
      omega
    have hstart : Parsed (env ++ d.kinds.take (uses - 1))
        (walked d p.rt (F.cells body.val)) lo (walked d p.rt (F.cells body.val)).next body
        (F.reread (walked d p.rt (F.cells body.val)) body.val) := by
      rw [List.take_of_length_le (Nat.le_of_eq ((chainKinds_kinds hd).1.trans hn)), hnext]
      exact hbody
    obtain ⟨F', hF', hc', hn', hk'⟩ := autoDupChain_parsed hd hbase.symm (htarget ▸ ht.ref)
      (C := fun t' => (d.relink 0 F.words).countP t'.hits) hside (Nat.le_of_eq hn.symm) hstart
      (by rw [hnext]; exact hlo) (fun t' ht' => by
        rw [hroot t' ht', hwords, List.drop_eq_nil_of_le (by simp [DupChain.values, hn]),
          List.countP_nil, Nat.add_zero]) hchain
    have habove (w : Term) (_ : isQuoted w) (hb : d.base < w.val) := not_hits_of_base_lt hd hb
    refine ⟨F', hF', ?_, fun t' ht' hlvl hnot => ?_, ?_, fun c hc => ?_⟩
    · rw [hc' t ht.tgt, ← hhits, values_countP hd habove, if_pos (hits_target hd),
        relink_countP hd habove]
      simp
    · have ho := relink_others hd hF.block.plain (hbase ▸ hlvl) (htarget ▸ hnot)
      rw [List.countP_append] at ho
      rw [hc' t' ht', hroot t' ht']
      omega
    · exact Nat.le_trans (Nat.le_of_eq hnext.symm) hn'
    · have hout : c ∉ F.cells body.val := fun hm => by
        have hb := (hF.block.bound c hm).1
        omega
      rw [hk' c (by rw [hnext]; omega), hframe c hout]

end Hvm
