import Hvm.Parse.Cloned

/-! Scoping and affinity of book terms. Every reference designates an enclosing binder of
its kind, and every side of a binder is referenced at most once. While a body is parsed, a
binder that no reference may reach yet stands in its environment as a word of no kind. -/

namespace Hvm

/-- A BJV designates a LAM, a BJ0 or BJ1 a DUP of its label. -/
structure RefOk (env : List Term) (w : Term) : Prop where
  lam : w.tag = .bjv → ∃ b, binderAt env w.val = some b ∧ b.tag = .lam
  dup : w.tag = .bj0 ∨ w.tag = .bj1 →
    ∃ b, binderAt env w.val = some b ∧ b.tag = .dup ∧ b.ext = w.ext

/-- A side of a binder: what the references to it look like. -/
def sideOf (lvl : Nat) (w : Term) (side : Bool) : DupTarget :=
  if w.tag = .dup then ⟨if side then .bj1 else .bj0, lvl, w.ext⟩ else ⟨.bjv, lvl, 0⟩

namespace Fields

/-- The fields after the first. -/
def rest : Fields → Fields
  | nil => nil
  | cons _ _ rest => rest

/-- The fields a binder binds in. -/
def scope (w : Term) (sub : Fields) : Fields := if w.tag = .dup then sub.rest else sub

/-- References and binders are in order, for fields under the binders `E`. -/
def Sound : (Nat → List Term) → Fields → Prop
  | _, nil => True
  | E, cons w sub rest =>
    RefOk (E 0) w ∧
      (w.tag = .lam ∨ w.tag = .dup → ∀ side,
        (sub.scope w).words.countP (sideOf ((E 0).length + 1) w side).hits ≤ 1) ∧
      sub.Sound (fieldEnv w (E 0)) ∧ rest.Sound fun i => E (i + 1)

end Fields

theorem RefOk.of_not_quoted {env : List Term} {w : Term} (h : ¬ isQuoted w) : RefOk env w := by
  simp only [isQuoted, decide_eq_true_eq, not_or] at h
  exact ⟨fun hl => (h.1 hl).elim, fun hd => (hd.elim h.2.1 h.2.2).elim⟩

theorem binderAt_append {env : List Term} {l : Nat} {b : Term} (h : binderAt env l = some b)
    (inner : List Term) : binderAt (env ++ inner) l = some b := by
  have hle : l ≤ env.length := by
    unfold binderAt at h
    split at h
    · cases h
    · have hlt := (List.getElem?_eq_some_iff.mp h).1
      omega
  rw [binderAt_low hle, h]

theorem RefOk.append {env : List Term} {w : Term} (h : RefOk env w) (inner : List Term) :
    RefOk (env ++ inner) w := by
  constructor
  · intro hl
    obtain ⟨b, hb, ht⟩ := h.lam hl
    exact ⟨b, binderAt_append hb inner, ht⟩
  · intro hd
    obtain ⟨b, hb, ht⟩ := h.dup hd
    exact ⟨b, binderAt_append hb inner, ht⟩

theorem length_fieldEnv (w : Term) (env : List Term) (i : Nat) :
    (fieldEnv w env i).length = env.length ∨ (fieldEnv w env i).length = env.length + 1 := by
  unfold fieldEnv
  split
  · exact Or.inr (by simp)
  · exact Or.inl rfl

theorem fieldEnv_eq_append (w : Term) (env : List Term) (i : Nat) :
    ∃ inner, fieldEnv w env i = env ++ inner := by
  unfold fieldEnv
  split
  · exact ⟨[w], rfl⟩
  · exact ⟨[], by simp⟩

/-! ### Binders standing for binders -/

/-- `b'` may stand where `b` does. -/
def Fits (b b' : Term) : Prop :=
  (b.tag = .lam → b'.tag = .lam) ∧ (b.tag = .dup → b'.tag = .dup ∧ b'.ext = b.ext)

theorem Fits.refl (b : Term) : Fits b b := ⟨id, fun h => ⟨h, rfl⟩⟩

theorem binderAt_fits {env env' : List Term} (h : List.Forall₂ Fits env env') {l : Nat}
    {b : Term} (hb : binderAt env l = some b) : ∃ b', binderAt env' l = some b' ∧ Fits b b' := by
  unfold binderAt at hb ⊢
  split at hb
  · cases hb
  · rename_i hl
    rw [if_neg hl]
    obtain ⟨hlt, rfl⟩ := List.getElem?_eq_some_iff.mp hb
    have hlt' : l - 1 < env'.length := h.length_eq ▸ hlt
    exact ⟨env'[l - 1], List.getElem?_eq_getElem hlt', h.get hlt hlt'⟩

theorem RefOk.fits {env env' : List Term} {w : Term} (h : RefOk env w)
    (he : List.Forall₂ Fits env env') : RefOk env' w := by
  constructor
  · intro hl
    obtain ⟨b, hb, ht⟩ := h.lam hl
    obtain ⟨b', hb', hf⟩ := binderAt_fits he hb
    exact ⟨b', hb', hf.1 ht⟩
  · intro hd
    obtain ⟨b, hb, ht, hx⟩ := h.dup hd
    obtain ⟨b', hb', hf⟩ := binderAt_fits he hb
    exact ⟨b', hb', (hf.2 ht).1, (hf.2 ht).2.trans hx⟩

theorem fieldEnv_fits {env env' : List Term} (he : List.Forall₂ Fits env env') (w : Term)
    (i : Nat) : List.Forall₂ Fits (fieldEnv w env i) (fieldEnv w env' i) := by
  unfold fieldEnv
  split
  · exact List.rel_append he (.cons (Fits.refl w) .nil)
  · exact he

theorem Fields.Sound.fits {F : Fields} {E E' : Nat → List Term} (h : F.Sound E)
    (hE : ∀ i, List.Forall₂ Fits (E i) (E' i)) : F.Sound E' := by
  induction F generalizing E E' with
  | nil => trivial
  | cons w sub rest ihs ihr =>
    obtain ⟨href, hbind, hsub, hrest⟩ := h
    refine ⟨href.fits (hE 0), ?_, ihs hsub (fieldEnv_fits (hE 0) w), ihr hrest fun i => hE (i + 1)⟩
    rw [← (hE 0).length_eq]
    exact hbind

/-! ### Fields without references -/

def Fields.Free (F : Fields) : Prop := ∀ w ∈ F.words, ¬ Hvm.isQuoted w

theorem hits_quoted {t : DupTarget} (ht : t.tgt = .bjv ∨ t.tgt = .bj0 ∨ t.tgt = .bj1) {w : Term}
    (h : t.hits w) : isQuoted w := by
  simp only [DupTarget.hits, decide_eq_true_eq] at h
  simp only [isQuoted, h.1, decide_eq_true_eq]
  exact ht

theorem sideOf_tgt (lvl : Nat) (w : Term) (side : Bool) :
    (sideOf lvl w side).tgt = .bjv ∨ (sideOf lvl w side).tgt = .bj0 ∨
      (sideOf lvl w side).tgt = .bj1 := by
  unfold sideOf
  split
  · cases side
    · exact Or.inr (Or.inl rfl)
    · exact Or.inr (Or.inr rfl)
  · exact Or.inl rfl

theorem Fields.words_scope_subset (w : Term) (sub : Fields) :
    ∀ x ∈ (sub.scope w).words, x ∈ sub.words := by
  intro x hx
  unfold scope at hx
  split at hx
  · cases sub with
    | nil => exact hx
    | cons w' s r => exact List.mem_cons_of_mem _ (List.mem_append_right _ hx)
  · exact hx

theorem Fields.Free.sound {F : Fields} (h : F.Free) (E : Nat → List Term) : F.Sound E := by
  induction F generalizing E with
  | nil => trivial
  | cons w sub rest ihs ihr =>
    have hsub : sub.Free := fun x hx => h x (List.mem_cons_of_mem _ (List.mem_append_left _ hx))
    have hrest : rest.Free := fun x hx => h x (List.mem_cons_of_mem _ (List.mem_append_right _ hx))
    refine ⟨.of_not_quoted (h w List.mem_cons_self), fun _ side => ?_, ihs hsub _, ihr hrest _⟩
    refine le_of_eq_of_le (List.countP_eq_zero.mpr fun x hx hhit => ?_) (Nat.zero_le 1)
    exact hsub x (words_scope_subset w sub x hx) (hits_quoted (sideOf_tgt _ _ _) hhit)

/-! ### Levels nothing may reach -/

/-- No reference that designates `b` is one that `t` looks for. -/
def Hides (b : Term) (t : DupTarget) : Prop :=
  (t.tgt = .bjv ∧ b.tag ≠ .lam) ∨
    ((t.tgt = .bj0 ∨ t.tgt = .bj1) ∧ ¬ (b.tag = .dup ∧ b.ext = t.ext))

theorem RefOk.not_hits {env : List Term} {w b : Term} {t : DupTarget} (h : RefOk env w)
    (hb : binderAt env t.lvl = some b) (hh : Hides b t) : t.hits w = false := by
  refine Bool.eq_false_iff.mpr fun hhit => ?_
  simp only [DupTarget.hits, decide_eq_true_eq] at hhit
  obtain ⟨htag, hval, hext⟩ := hhit
  rcases hh with ⟨ht, hl⟩ | ⟨ht, hnd⟩
  · obtain ⟨b', hb', hlam⟩ := h.lam (htag.trans ht)
    rw [hval, hb] at hb'
    cases hb'
    exact hl hlam
  · obtain ⟨b', hb', hdup, hx⟩ := h.dup (htag ▸ ht)
    rw [hval, hb] at hb'
    cases hb'
    refine hnd ⟨hdup, hx.trans ?_⟩
    rcases hext with hv | he
    · rcases ht with ht | ht <;> rw [ht] at hv <;> cases hv
    · exact he

/-- References in sound fields pass by a level that is hidden from them. -/
theorem Fields.Sound.countP_hidden {F : Fields} {E : Nat → List Term} {t : DupTarget}
    (h : F.Sound E) (hE : ∀ i, ∃ b, binderAt (E i) t.lvl = some b ∧ Hides b t) :
    F.words.countP t.hits = 0 := by
  induction F generalizing E with
  | nil => rfl
  | cons w sub rest ihs ihr =>
    obtain ⟨href, -, hsub, hrest⟩ := h
    obtain ⟨b, hb, hh⟩ := hE 0
    have hw := href.not_hits hb hh
    have hsub0 := ihs hsub fun i => by
      obtain ⟨inner, he⟩ := fieldEnv_eq_append w (E 0) i
      exact ⟨b, by rw [he]; exact binderAt_append hb inner, hh⟩
    have hrest0 := ihr hrest fun i => hE (i + 1)
    simp only [words, List.countP_cons, List.countP_append, hsub0, hrest0, hw]
    rfl

/-! ### Soundness through auto-dup -/

variable {d : DupChain} {ds : List Term}

theorem Fields.Match.countP {R : List Term → List Term → Term → Term → Prop}
    {E E' : Nat → List Term} {F F' : Fields} (h : F.Match R E E' F') (P P' : Term → Bool)
    (hP : ∀ env env' w w', w ∈ F.words → R env env' w w' → P w = P' w') :
    F.words.countP P = F'.words.countP P' := by
  induction F generalizing E E' F' with
  | nil =>
    cases F' with
    | nil => rfl
    | cons w' sub' rest' => exact h.elim
  | cons w sub rest ihs ihr =>
    cases F' with
    | nil => exact h.elim
    | cons w' sub' rest' =>
      obtain ⟨hw, hsub, hrest⟩ := h
      have hs := ihs hsub fun env env' x x' hx =>
        hP env env' x x' (List.mem_cons_of_mem _ (List.mem_append_left _ hx))
      have hr := ihr hrest fun env env' x x' hx =>
        hP env env' x x' (List.mem_cons_of_mem _ (List.mem_append_right _ hx))
      have hone := hP _ _ w w' List.mem_cons_self hw
      simp only [words, List.countP_cons, List.countP_append, hs, hr, hone]

/-- The dups of a chain, as the binders of their links. -/
def ChainKinds (d : DupChain) (ds : List Term) : Prop :=
  ds.length = d.n ∧ ∀ i (h : i < ds.length), ds[i].tag = .dup ∧ ds[i].ext = d.lab + i

theorem link_ext (hd : d.Ok) {i : Nat} (hi : i ≤ d.n) : (d.link i).ext = d.lab + min i (d.n - 1) := by
  have hlabs := hd.labs
  have hpos := hd.pos
  unfold DupChain.link
  split
  · simp only [termNew]
    rw [Nat.mod_eq_of_lt (by omega)]
    omega
  · simp only [termNew]
    rw [Nat.mod_eq_of_lt (by omega)]
    omega

theorem link_tag (i : Nat) : (d.link i).tag = .bj0 ∨ (d.link i).tag = .bj1 := by
  unfold DupChain.link
  split
  · exact Or.inl rfl
  · exact Or.inr rfl

theorem shift_eq {w : Term} (hw : RefPlain w) (hq : isQuoted w) :
    d.shift w = { w with val := w.val + d.n } := by
  obtain ⟨hsub, hext, -⟩ := hw hq
  simp only [DupChain.shift, termNew, Nat.mod_eq_of_lt (Nat.lt_succ_of_le hext), ← hsub]

theorem Relinked.refOk (hd : d.Ok) (hds : ChainKinds d ds) {env env' : List Term} {w w' : Term}
    (hw : RefPlain w) (h : Relinked d ds env env' w w') (href : RefOk env w) :
    RefOk env' w' := by
  unfold Relinked at h
  split at h
  · obtain ⟨i, hi, rfl, hb⟩ := h
    have hpos := hd.pos
    have hlt : min i (d.n - 1) < ds.length := by
      rw [hds.1]
      omega
    obtain ⟨htag, hext⟩ := hds.2 _ hlt
    constructor
    · intro hl
      rcases link_tag (d := d) i with ht | ht <;> rw [ht] at hl <;> cases hl
    · intro _
      exact ⟨_, hb.trans (List.getElem?_eq_getElem hlt), htag, hext.trans (link_ext hd hi).symm⟩
  · split at h
    · rename_i hq
      obtain ⟨he, hb⟩ := h
      have hsame : w'.tag = w.tag ∧ w'.ext = w.ext := by
        split at he
        · rw [he, shift_eq hw hq]
          exact ⟨rfl, rfl⟩
        · rw [he]
          exact ⟨rfl, rfl⟩
      constructor
      · intro hl
        rw [hb]
        exact href.lam (hsame.1 ▸ hl)
      · intro hl
        rw [hb, hsame.2]
        exact href.dup (hsame.1 ▸ hl)
    · rename_i hq
      subst h
      exact .of_not_quoted hq

/-- Above the base level, the references to a level follow it past the chain. -/
theorem Relinked.hits_above (hd : d.Ok) {env env' : List Term} {w w' : Term} (hw : RefPlain w)
    (h : Relinked d ds env env' w w') {t : DupTarget} (hlvl : d.base < t.lvl)
    (ht : t.tgt = .bjv ∨ t.tgt = .bj0 ∨ t.tgt = .bj1) :
    t.hits w = DupTarget.hits { t with lvl := t.lvl + d.n } w' := by
  have hl := hd.lvl
  unfold Relinked at h
  split at h
  · rename_i hh
    obtain ⟨i, -, rfl, -⟩ := h
    have hv := (link_val hd i).2
    simp only [DupTarget.hits, decide_eq_true_eq] at hh
    simp only [DupTarget.hits]
    rw [decide_eq_decide]
    constructor
    · intro hc
      omega
    · intro hc
      omega
  · split at h
    · rename_i hq
      obtain ⟨he, -⟩ := h
      split at he
      · rw [he, shift_eq hw hq]
        simp only [DupTarget.hits, Nat.add_right_cancel_iff]
      · subst he
        simp only [DupTarget.hits]
        rw [decide_eq_decide]
        constructor
        · intro hc
          omega
        · intro hc
          omega
    · rename_i hq
      subst h
      have hno (t' : DupTarget) (ht' : t'.tgt = .bjv ∨ t'.tgt = .bj0 ∨ t'.tgt = .bj1) :
          t'.hits w' = false := Bool.eq_false_iff.mpr fun hh => hq (hits_quoted ht' hh)
      rw [hno t ht, hno { t with lvl := t.lvl + d.n } ht]

theorem Relinked.not_quoted (hd : d.Ok) {env env' : List Term} {w w' : Term}
    (h : Relinked d ds env env' w w') (hq : ¬ isQuoted w) : w' = w := by
  unfold Relinked at h
  rwa [if_neg fun hh => hq (isQuoted_of_hits hd hh), if_neg hq] at h

theorem Relinked.quoted {env env' : List Term} {w w' : Term} (h : Relinked d ds env env' w w')
    (hq : isQuoted w) : isQuoted w' := by
  unfold Relinked at h
  split at h
  · obtain ⟨i, -, rfl, -⟩ := h
    exact isQuoted_link i
  · split at h
    · rw [h.1]
      exact hq
    · rw [h.1]
      exact hq

theorem tag_of_quoted {w : Term} (hq : isQuoted w) : w.tag ≠ .lam ∧ w.tag ≠ .dup := by
  simp only [isQuoted, decide_eq_true_eq] at hq
  constructor
  · intro h
    rw [h] at hq
    rcases hq with hq | hq | hq <;> cases hq
  · intro h
    rw [h] at hq
    rcases hq with hq | hq | hq <;> cases hq

theorem sideOf_add (lvl n : Nat) (w : Term) (side : Bool) :
    { sideOf lvl w side with lvl := (sideOf lvl w side).lvl + n } = sideOf (lvl + n) w side := by
  unfold sideOf
  split <;> rfl

theorem sideOf_lvl (lvl : Nat) (w : Term) (side : Bool) : (sideOf lvl w side).lvl = lvl := by
  unfold sideOf
  split <;> rfl

namespace Fields

theorem Match.scope {R : List Term → List Term → Term → Term → Prop} {E E' : Nat → List Term}
    {F F' : Fields} (h : F.Match R E E' F') (w : Term) :
    ∃ E₁ E₁', (F.scope w).Match R E₁ E₁' (F'.scope w) := by
  unfold Fields.scope
  split
  · cases F with
    | nil =>
      cases F' with
      | nil => exact ⟨E, E', trivial⟩
      | cons w' sub' rest' => exact h.elim
    | cons x sub rest =>
      cases F' with
      | nil => exact h.elim
      | cons w' sub' rest' => exact ⟨_, _, h.2.2⟩
  · exact ⟨E, E', h⟩

/-- A linearised body is sound under the dups of the chain. -/
theorem Match.sound (hd : d.Ok) (hds : ChainKinds d ds) {E E' : Nat → List Term}
    {F F' : Fields} (hE : ∀ i, d.base ≤ (E i).length ∧ (E' i).length = (E i).length + d.n)
    (hplain : ∀ w ∈ F.words, RefPlain w) (h : F.Match (Relinked d ds) E E' F')
    (hs : F.Sound E) : F'.Sound E' := by
  induction F generalizing E E' F' with
  | nil =>
    cases F' with
    | nil => trivial
    | cons w' sub' rest' => exact h.elim
  | cons w sub rest ihs ihr =>
    cases F' with
    | nil => exact h.elim
    | cons w' sub' rest' =>
      obtain ⟨hw, hsub, hrest⟩ := h
      obtain ⟨href, hbind, hss, hsr⟩ := hs
      have hpw := hplain w List.mem_cons_self
      have hpsub : ∀ x ∈ sub.words, RefPlain x := fun x hx =>
        hplain x (List.mem_cons_of_mem _ (List.mem_append_left _ hx))
      have hprest : ∀ x ∈ rest.words, RefPlain x := fun x hx =>
        hplain x (List.mem_cons_of_mem _ (List.mem_append_right _ hx))
      have hEsub (i : Nat) : d.base ≤ (fieldEnv w (E 0) i).length ∧
          (fieldEnv w' (E' 0) i).length = (fieldEnv w (E 0) i).length + d.n := by
        have h0 := hE 0
        by_cases hq : Hvm.isQuoted w
        · have ht := tag_of_quoted hq
          have ht' := tag_of_quoted (hw.quoted hq)
          unfold fieldEnv
          rw [if_neg (by simp [ht]), if_neg (by simp [ht'])]
          exact h0
        · obtain rfl := hw.not_quoted hd hq
          unfold fieldEnv
          split
          · simp only [List.length_append, List.length_singleton]
            omega
          · exact h0
      refine ⟨hw.refOk hd hds hpw href, fun hb side => ?_, ihs hEsub hpsub hsub hss,
        ihr (fun i => hE (i + 1)) hprest hrest hsr⟩
      have hq : ¬ Hvm.isQuoted w := by
        intro hq
        have ht := tag_of_quoted (hw.quoted hq)
        exact hb.elim ht.1 ht.2
      obtain rfl := hw.not_quoted hd hq
      obtain ⟨E₁, E₁', hm⟩ := hsub.scope w'
      have hcount := hm.countP (sideOf ((E 0).length + 1) w' side).hits
        (sideOf ((E' 0).length + 1) w' side).hits fun env env' x x' hx hr => by
          have hxp := hpsub x (words_scope_subset w' sub x hx)
          have hlvl : d.base < (sideOf ((E 0).length + 1) w' side).lvl := by
            rw [sideOf_lvl]
            exact Nat.lt_succ_of_le (hE 0).1
          have hh := hr.hits_above hd hxp hlvl (sideOf_tgt _ _ _)
          rw [sideOf_add] at hh
          rw [hh, (hE 0).2, Nat.add_right_comm]
      rw [← hcount]
      exact hbind hb side

end Fields

end Hvm
