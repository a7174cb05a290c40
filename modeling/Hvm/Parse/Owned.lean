import Hvm.Parse.Scope

/-! Terms the parser holds: fields in a range of the heap, sound under the binders around
them, with no cell of a reference reached twice. What `count_uses` counts in them, what a
new node makes of them, and what `parse_auto_dup` leaves of them. -/

namespace Hvm

open Effect

/-! ### Counting -/

namespace Fields

/-- The fields themselves, each word with its own fields. -/
def kids : Fields → List (Term × Fields)
  | nil => []
  | cons w sub rest => (w, sub) :: rest.kids

theorem Stored.kids_fst {rt : Rt} {loc : Nat} {F : Fields} (h : F.Stored rt loc) :
    F.kids.map Prod.fst = (List.range' loc F.length).map (heapRead rt) := by
  induction F generalizing loc with
  | nil => rfl
  | cons w sub rest _ ih =>
    obtain ⟨hw, -, -, hrest⟩ := h
    simp only [kids, length, List.map_cons, List.range'_succ, hw, ih hrest]

theorem countP_words_kids (F : Fields) (P : Term → Bool) :
    F.words.countP P = (F.kids.map fun k => (k.1 :: k.2.words).countP P).sum := by
  induction F with
  | nil => rfl
  | cons w sub rest _ ih =>
    simp only [words, kids, List.map_cons, List.sum_cons, List.countP_cons, List.countP_append,
      ih]
    omega

end Fields

/-- A word of the stack of `count_uses`, with its fields. -/
def Counted (rt : Rt) (k : Term × Fields) : Prop :=
  k.2.length = termArity k.1 ∧ k.2.Stored rt k.1.val ∧ ∀ c ∈ k.2.cells k.1.val, c < 2 ^ 32

theorem Fields.Stored.counted_kids {rt : Rt} {loc : Nat} {F : Fields} (h : F.Stored rt loc)
    (hsmall : ∀ c ∈ F.cells loc, c < 2 ^ 32) : ∀ k ∈ F.kids, Counted rt k := by
  induction F generalizing loc with
  | nil => exact fun k hk => (List.not_mem_nil hk).elim
  | cons w sub rest _ ih =>
    obtain ⟨-, hlen, hsub, hrest⟩ := h
    intro k hk
    rcases List.mem_cons.mp hk with rfl | hk
    · exact ⟨hlen, hsub, fun c hc =>
        hsmall c (List.mem_cons_of_mem _ (List.mem_append_left _ hc))⟩
    · exact ih hrest (fun c hc =>
        hsmall c (List.mem_cons_of_mem _ (List.mem_append_right _ hc))) k hk

theorem countUsesLoop_ok {rt : Rt} {d : DupTarget} {fuel : Nat} {ks : List (Term × Fields)}
    {uses u : Nat} (hk : ∀ k ∈ ks, Counted rt k)
    (h : countUsesLoop rt d fuel (ks.map Prod.fst) uses = .ok u) :
    u = uses + (ks.map fun k => (k.1 :: k.2.words).countP d.hits).sum := by
  induction fuel generalizing ks uses with
  | zero =>
    cases ks with
    | nil =>
      cases h
      rfl
    | cons k ks => cases h
  | succ fuel ih =>
    cases ks with
    | nil =>
      cases h
      rfl
    | cons k ks =>
      obtain ⟨t, F⟩ := k
      obtain ⟨hlen, hstored, hsmall⟩ := hk _ List.mem_cons_self
      have hkids := hstored.counted_kids hsmall
      have hstack : ((kidLocs t).map (heapRead rt)).reverse ++ ks.map Prod.fst =
          (F.kids.reverse ++ ks).map Prod.fst := by
        rw [kidLocs_eq_range hlen hsmall, List.map_append, List.map_reverse, hstored.kids_fst]
      simp only [List.map_cons, countUsesLoop, hstack] at h
      split at h
      · cases h
      · have hrec := ih (fun k (hk' : k ∈ F.kids.reverse ++ ks) => by
          rcases List.mem_append.mp hk' with hk' | hk'
          · exact hkids k (List.mem_reverse.mp hk')
          · exact hk k (List.mem_cons_of_mem _ hk')) h
        rw [hrec, List.map_append, List.sum_append, List.map_reverse, List.sum_reverse,
          ← Fields.countP_words_kids, List.map_cons, List.sum_cons, List.countP_cons]
        dsimp only
        split <;> omega

/-! ### Terms in the heap -/

/-- Fields from `loc` on, in the range from `lo` to `hi`, under the binders `E`. -/
structure Block (E : Nat → List Term) (rt : Rt) (lo hi loc : Nat) (F : Fields) : Prop where
  stored : F.Stored rt loc
  bound : ∀ c ∈ F.cells loc, lo ≤ c ∧ c < hi
  plain : ∀ w ∈ F.words, RefPlain w
  once : ∀ c, isQuoted (heapRead rt c) → (F.cells loc).count c ≤ 1
  sound : F.Sound E

/-- A term whose fields are in that range, under the binders `env`. -/
structure Parsed (env : List Term) (rt : Rt) (lo hi : Nat) (t : Term) (F : Fields) : Prop where
  arity : F.length = termArity t
  plain : RefPlain t
  ref : RefOk env t
  binds : t.tag = .lam ∨ t.tag = .dup → ∀ side,
    (F.scope t).words.countP (sideOf (env.length + 1) t side).hits ≤ 1
  block : Block (fieldEnv t env) rt lo hi t.val F

theorem Block.frame {E : Nat → List Term} {rt rt' : Rt} {lo hi loc : Nat} {F : Fields}
    (h : Block E rt lo hi loc F) (hkeep : ∀ c ∈ F.cells loc, heapRead rt' c = heapRead rt c) :
    Block E rt' lo hi loc F where
  stored := h.stored.frame hkeep
  bound := h.bound
  plain := h.plain
  once := by
    intro c hq
    by_cases hc : c ∈ F.cells loc
    · rw [hkeep c hc] at hq
      exact h.once c hq
    · rw [List.count_eq_zero_of_not_mem hc]
      exact Nat.zero_le 1
  sound := h.sound

theorem Block.mono {E : Nat → List Term} {rt : Rt} {lo hi lo' hi' loc : Nat} {F : Fields}
    (h : Block E rt lo hi loc F) (hlo : lo' ≤ lo) (hhi : hi ≤ hi') : Block E rt lo' hi' loc F :=
  { h with bound := fun c hc => ⟨Nat.le_trans hlo (h.bound c hc).1, Nat.lt_of_lt_of_le (h.bound c hc).2 hhi⟩ }

theorem Parsed.frame {env : List Term} {rt rt' : Rt} {lo hi : Nat} {t : Term} {F : Fields}
    (h : Parsed env rt lo hi t F) (hkeep : ∀ c < hi, heapRead rt' c = heapRead rt c) :
    Parsed env rt' lo hi t F :=
  { h with block := h.block.frame fun c hc => hkeep c (h.block.bound c hc).2 }

theorem Parsed.mono {env : List Term} {rt : Rt} {lo hi lo' hi' : Nat} {t : Term} {F : Fields}
    (h : Parsed env rt lo hi t F) (hlo : lo' ≤ lo) (hhi : hi ≤ hi') : Parsed env rt lo' hi' t F :=
  { h with block := h.block.mono hlo hhi }

theorem Parsed.fits {env env' : List Term} {rt : Rt} {lo hi : Nat} {t : Term} {F : Fields}
    (h : Parsed env rt lo hi t F) (he : List.Forall₂ Fits env env') : Parsed env' rt lo hi t F where
  arity := h.arity
  plain := h.plain
  ref := h.ref.fits he
  binds := he.length_eq ▸ h.binds
  block := { h.block with sound := h.block.sound.fits (fieldEnv_fits he t) }

theorem Block.nil {E : Nat → List Term} {rt : Rt} {lo hi loc : Nat} :
    Block E rt lo hi loc .nil where
  stored := trivial
  bound := fun _ hc => (List.not_mem_nil hc).elim
  plain := fun _ hw => (List.not_mem_nil hw).elim
  once := fun _ _ => Nat.zero_le 1
  sound := trivial

/-- A word without fields. -/
theorem Parsed.leaf {env : List Term} {rt : Rt} {lo hi : Nat} {t : Term} (hp : RefPlain t)
    (ha : termArity t = 0) (hr : RefOk env t) : Parsed env rt lo hi t .nil where
  arity := ha.symm
  plain := hp
  ref := hr
  binds := by
    intro _ side
    simp [Fields.scope, Fields.rest, Fields.words]
  block := .nil

theorem Parsed.plain_words {env : List Term} {rt : Rt} {lo hi : Nat} {t : Term} {F : Fields}
    (h : Parsed env rt lo hi t F) : ∀ w ∈ t :: F.words, RefPlain w := by
  intro w hw
  rcases List.mem_cons.mp hw with rfl | hw
  · exact h.plain
  · exact h.block.plain w hw

/-- A cell that holds a held term, before fields that reach none of its references. -/
theorem Block.cons {E : Nat → List Term} {rt : Rt} {lo hi loc : Nat} {t : Term} {F G : Fields}
    (ht : heapRead rt loc = t) (hloc : lo ≤ loc ∧ loc < hi) (hF : Parsed (E 0) rt lo hi t F)
    (hG : Block (fun i => E (i + 1)) rt lo hi (loc + 1) G)
    (hself : loc ∉ F.cells t.val ++ G.cells (loc + 1))
    (hapart : ∀ c ∈ F.cells t.val, isQuoted (heapRead rt c) → c ∉ G.cells (loc + 1)) :
    Block E rt lo hi loc (.cons t F G) where
  stored := ⟨ht, hF.arity, hF.block.stored, hG.stored⟩
  bound := by
    intro c hc
    rcases List.mem_cons.mp hc with rfl | hc
    · exact hloc
    · exact (List.mem_append.mp hc).elim (hF.block.bound c) (hG.bound c)
  plain := by
    intro w hw
    rcases List.mem_cons.mp hw with rfl | hw
    · exact hF.plain
    · exact (List.mem_append.mp hw).elim (hF.block.plain w) (hG.plain w)
  once := by
    intro c hq
    show (loc :: (F.cells t.val ++ G.cells (loc + 1))).count c ≤ 1
    by_cases hc : loc = c
    · subst hc
      have hnone := List.count_eq_zero_of_not_mem hself
      rw [List.count_cons_self]
      omega
    · rw [List.count_cons_of_ne hc, List.count_append]
      by_cases hm : c ∈ F.cells t.val
      · rw [List.count_eq_zero_of_not_mem (hapart c hm hq)]
        exact hF.block.once c hq
      · rw [List.count_eq_zero_of_not_mem hm, Nat.zero_add]
        exact hG.once c hq
  sound := ⟨hF.ref, hF.binds, hF.block.sound, hG.sound⟩

/-! ### Nodes -/

/-- Terms held next to each other: no cell of a reference belongs to two of them. -/
structure Parts (env : List Term) (rt : Rt) (lo hi : Nat) (as : List (Term × Fields)) :
    Prop where
  held : ∀ a ∈ as, Parsed env rt lo hi a.1 a.2
  once : ∀ c, isQuoted (heapRead rt c) →
    (as.flatMap fun a => a.2.cells a.1.val).count c ≤ 1

theorem Parts.nil {env : List Term} {rt : Rt} {lo hi : Nat} : Parts env rt lo hi [] where
  held := fun _ ha => (List.not_mem_nil ha).elim
  once := fun _ _ => Nat.zero_le 1

theorem Parts.perm {env : List Term} {rt : Rt} {lo hi : Nat} {as bs : List (Term × Fields)}
    (h : Parts env rt lo hi as) (hp : as.Perm bs) : Parts env rt lo hi bs where
  held := fun b hb => h.held b (hp.mem_iff.mpr hb)
  once := by
    intro c hq
    rw [← (hp.flatMap_right _).count_eq c]
    exact h.once c hq

theorem Parts.mono {env : List Term} {rt : Rt} {lo hi lo' hi' : Nat}
    {as : List (Term × Fields)} (h : Parts env rt lo hi as) (hlo : lo' ≤ lo) (hhi : hi ≤ hi') :
    Parts env rt lo' hi' as where
  held := fun a ha => (h.held a ha).mono hlo hhi
  once := h.once

theorem mem_flatMap_cells {as : List (Term × Fields)} {c : Nat} :
    c ∈ (as.flatMap fun a => a.2.cells a.1.val) ↔ ∃ a ∈ as, c ∈ a.2.cells a.1.val :=
  List.mem_flatMap

theorem Parts.frame {env : List Term} {rt rt' : Rt} {lo hi : Nat} {as : List (Term × Fields)}
    (h : Parts env rt lo hi as) (hkeep : ∀ c < hi, heapRead rt' c = heapRead rt c) :
    Parts env rt' lo hi as where
  held := fun a ha => (h.held a ha).frame hkeep
  once := by
    intro c hq
    by_cases hc : c ∈ (as.flatMap fun a => a.2.cells a.1.val)
    · obtain ⟨a, ha, hm⟩ := mem_flatMap_cells.mp hc
      rw [hkeep c ((h.held a ha).block.bound c hm).2] at hq
      exact h.once c hq
    · rw [List.count_eq_zero_of_not_mem hc]
      exact Nat.zero_le 1

/-- A part whose references lie apart from those of the others. -/
theorem Parts.cons {env : List Term} {rt : Rt} {lo hi : Nat} {t : Term} {F : Fields}
    {as : List (Term × Fields)} (ht : Parsed env rt lo hi t F) (h : Parts env rt lo hi as)
    (hapart : ∀ c ∈ F.cells t.val, isQuoted (heapRead rt c) →
      ∀ a ∈ as, c ∉ a.2.cells a.1.val) : Parts env rt lo hi ((t, F) :: as) where
  held := by
    intro a ha
    rcases List.mem_cons.mp ha with rfl | ha
    · exact ht
    · exact h.held a ha
  once := by
    intro c hq
    rw [List.flatMap_cons, List.count_append]
    by_cases hc : c ∈ F.cells t.val
    · have hno : c ∉ (as.flatMap fun a => a.2.cells a.1.val) := fun hm => by
        obtain ⟨a, ha, hm⟩ := mem_flatMap_cells.mp hm
        exact hapart c hc hq a ha hm
      rw [List.count_eq_zero_of_not_mem hno]
      exact ht.block.once c hq
    · rw [List.count_eq_zero_of_not_mem hc, Nat.zero_add]
      exact h.once c hq

/-- A part before parts that were made after it. -/
theorem Parts.push {env : List Term} {rt : Rt} {lo mid hi : Nat} {t : Term} {F : Fields}
    {as : List (Term × Fields)} (ht : Parsed env rt lo mid t F) (h : Parts env rt mid hi as)
    (hlo : lo ≤ mid) (hhi : mid ≤ hi) : Parts env rt lo hi ((t, F) :: as) := by
  refine .cons (ht.mono (Nat.le_refl lo) hhi) (h.mono hlo (Nat.le_refl hi)) ?_
  intro c hc _ a ha hm
  have hlt := (ht.block.bound c hc).2
  have hge := ((h.held a ha).block.bound c hm).1
  omega

/-- A part made after the others. -/
theorem Parts.snoc {env : List Term} {rt : Rt} {lo mid hi : Nat} {t : Term} {F : Fields}
    {as : List (Term × Fields)} (h : Parts env rt lo mid as) (ht : Parsed env rt mid hi t F)
    (hlo : lo ≤ mid) (hhi : mid ≤ hi) : Parts env rt lo hi (as ++ [(t, F)]) := by
  refine (Parts.cons (ht.mono hlo (Nat.le_refl hi)) (h.mono (Nat.le_refl lo) hhi) ?_).perm
    (List.perm_append_singleton _ _).symm
  intro c hc _ a ha hm
  have hge := (ht.block.bound c hc).1
  have hlt := ((h.held a ha).block.bound c hm).2
  omega

/-- A part without references to binders below its root. -/
theorem Parts.push_free {env : List Term} {rt : Rt} {lo hi : Nat} {t : Term} {F : Fields}
    {as : List (Term × Fields)} (ht : Parsed env rt lo hi t F) (hF : F.Free)
    (h : Parts env rt lo hi as) : Parts env rt lo hi ((t, F) :: as) := by
  refine .cons ht h ?_
  intro c hc hq
  have hmem : heapRead rt c ∈ F.words := by
    rw [ht.block.stored.words_eq]
    exact List.mem_map_of_mem hc
  exact (hF _ hmem hq).elim

def Fields.ofKids : List (Term × Fields) → Fields
  | [] => .nil
  | (t, F) :: as => .cons t F (ofKids as)

theorem Fields.length_ofKids (as : List (Term × Fields)) :
    (Fields.ofKids as).length = as.length := by
  induction as with
  | nil => rfl
  | cons a as ih => simp only [ofKids, length, ih, List.length_cons]

theorem Fields.mem_cells_ofKids {as : List (Term × Fields)} {loc c : Nat}
    (h : c ∈ (Fields.ofKids as).cells loc) :
    (loc ≤ c ∧ c < loc + as.length) ∨ ∃ a ∈ as, c ∈ a.2.cells a.1.val := by
  induction as generalizing loc with
  | nil => exact (List.not_mem_nil h).elim
  | cons a as ih =>
    rcases List.mem_cons.mp h with rfl | h
    · exact Or.inl ⟨Nat.le_refl c, by simp⟩
    · rcases List.mem_append.mp h with h | h
      · exact Or.inr ⟨a, List.mem_cons_self, h⟩
      · rcases ih h with hr | ⟨b, hb, hm⟩
        · refine Or.inl ?_
          rw [List.length_cons]
          omega
        · exact Or.inr ⟨b, List.mem_cons_of_mem _ hb, hm⟩

/-- The fields of a node made after its parts. -/
theorem Parts.block {env : List Term} {rt : Rt} {lo hi loc top : Nat}
    {as : List (Term × Fields)} (h : Parts env rt lo hi as) (hlo : lo ≤ loc) (hhi : hi ≤ loc)
    (htop : loc + as.length ≤ top)
    (hread : ∀ i (hi : i < as.length), heapRead rt (loc + i) = as[i].1) :
    Block (fun _ => env) rt lo top loc (Fields.ofKids as) := by
  induction as generalizing loc with
  | nil => exact .nil
  | cons a as ih =>
    obtain ⟨t, F⟩ := a
    rw [List.length_cons] at htop
    have hparts : Parts env rt lo hi as :=
      { held := fun b hb => h.held b (List.mem_cons_of_mem _ hb)
        once := fun c hq => by
          have hone := h.once c hq
          rw [List.flatMap_cons, List.count_append] at hone
          omega }
    have hF := h.held (t, F) List.mem_cons_self
    have hG : Block (fun _ => env) rt lo top (loc + 1) (Fields.ofKids as) :=
      ih hparts (by omega) (by omega) (by omega) fun i hi => by
        have hr := hread (i + 1) (by simpa using hi)
        rwa [← Nat.add_assoc, Nat.add_right_comm] at hr
    refine .cons (hread 0 (by simp)) (by omega)
      (hF.mono (Nat.le_refl lo) (by omega)) hG ?_ ?_
    · intro hm
      rcases List.mem_append.mp hm with hm | hm
      · have hb := (hF.block.bound loc hm).2
        omega
      · have hb := hG.bound loc hm
        rcases Fields.mem_cells_ofKids hm with hr | ⟨b, hb, hm⟩
        · omega
        · have hbb := ((hparts.held b hb).block.bound loc hm).2
          omega
    · intro c hc hq hm
      have hcb := (hF.block.bound c hc).2
      rcases Fields.mem_cells_ofKids hm with hr | ⟨b, hb, hm⟩
      · omega
      · have hone := h.once c hq
        rw [List.flatMap_cons, List.count_append] at hone
        have h1 : 0 < (F.cells t.val).count c := List.count_pos_iff.mpr hc
        have h2 : 0 < (as.flatMap fun a => a.2.cells a.1.val).count c :=
          List.count_pos_iff.mpr (mem_flatMap_cells.mpr ⟨b, hb, hm⟩)
        dsimp only at hone
        omega

/-- The word of a node that is no reference and no binder. -/
def Inert (tag : Tag) : Prop :=
  tag ≠ .bjv ∧ tag ≠ .bj0 ∧ tag ≠ .bj1 ∧ tag ≠ .lam ∧ tag ≠ .dup

instance (tag : Tag) : Decidable (Inert tag) := inferInstanceAs (Decidable (_ ∧ _))

theorem Inert.not_quoted {t : Term} (h : Inert t.tag) : ¬ isQuoted t := by
  simp only [isQuoted, decide_eq_true_eq, not_or]
  exact ⟨h.1, h.2.1, h.2.2.1⟩

theorem Inert.fieldEnv {t : Term} (h : Inert t.tag) (env : List Term) :
    fieldEnv t env = fun _ => env := by
  funext i
  unfold Hvm.fieldEnv
  rw [if_neg]
  rintro (hl | ⟨hd, -⟩)
  · exact h.2.2.2.1 hl
  · exact h.2.2.2.2 hd

theorem Parsed.of_block {env : List Term} {rt : Rt} {lo hi : Nat} {t : Term} {F : Fields}
    (ht : Inert t.tag) (ha : F.length = termArity t)
    (hb : Block (fun _ => env) rt lo hi t.val F) : Parsed env rt lo hi t F where
  arity := ha
  plain := fun hq => (ht.not_quoted hq).elim
  ref := .of_not_quoted ht.not_quoted
  binds := fun hl => (hl.elim ht.2.2.2.1 ht.2.2.2.2).elim
  block := by
    rw [ht.fieldEnv]
    exact hb

/-- A new node holds its parts. -/
theorem Parts.node {env : List Term} {rt : Rt} {lo : Nat} {tag : Tag} {ext : Nat}
    {as : List (Term × Fields)} (h : Parts env rt lo rt.next as) (hlo : lo ≤ rt.next)
    (ht : Inert tag) (ha : termArity (termNew false tag ext rt.next) = as.length) :
    let r := termNewNode rt tag ext (as.map Prod.fst)
    Parsed env r.1 lo r.1.next r.2 (Fields.ofKids as) := by
  have hframe := h.frame fun c hc => termNewNode_frame rt tag ext (as.map Prod.fst) hc
  refine Parsed.of_block (t := termNew false tag ext rt.next) ht
    ((Fields.length_ofKids as).trans ha.symm) ?_
  refine hframe.block hlo (Nat.le_refl _) ?_ fun i hi => ?_
  · rw [termNewNode_next, List.length_map]
    exact Nat.le_refl _
  · rw [show (termNew false tag ext rt.next).val = rt.next from rfl,
      termNewNode_read _ _ _ _ (by simpa using hi), List.getElem_map]

theorem Fields.count_cells_ofKids (as : List (Term × Fields)) (loc c : Nat) :
    ((Fields.ofKids as).cells loc).count c =
      (if loc ≤ c ∧ c < loc + as.length then 1 else 0) +
        (as.flatMap fun a => a.2.cells a.1.val).count c := by
  induction as generalizing loc with
  | nil => simp [ofKids, cells]
  | cons a as ih =>
    obtain ⟨t, F⟩ := a
    simp only [ofKids, cells, List.count_cons, List.count_append, ih, List.flatMap_cons,
      List.length_cons, beq_iff_eq]
    split <;> split <;> split <;> omega

/-- A new node takes the place of the parts it is made of. -/
theorem Parts.node_append {env : List Term} {rt : Rt} {lo : Nat} {tag : Tag} {ext : Nat}
    {pre as : List (Term × Fields)} (h : Parts env rt lo rt.next (pre ++ as))
    (hlo : lo ≤ rt.next) (ht : Inert tag)
    (ha : termArity (termNew false tag ext rt.next) = as.length) :
    let r := termNewNode rt tag ext (as.map Prod.fst)
    Parts env r.1 lo r.1.next (pre ++ [(r.2, Fields.ofKids as)]) := by
  have hframe := h.frame fun c hc => termNewNode_frame rt tag ext (as.map Prod.fst) hc
  have hnext : (termNewNode rt tag ext (as.map Prod.fst)).1.next = rt.next + as.length := by
    rw [termNewNode_next, List.length_map]
  have hlast : Parts env rt lo rt.next as :=
    { held := fun a ha => h.held a (List.mem_append_right _ ha)
      once := fun c hq => by
        have hone := h.once c hq
        rw [List.flatMap_append, List.count_append] at hone
        omega }
  refine ⟨fun a ha' => ?_, fun c hq => ?_⟩
  · rcases List.mem_append.mp ha' with hm | hm
    · exact (hframe.held a (List.mem_append_left _ hm)).mono (Nat.le_refl lo) (by rw [hnext]; omega)
    · rw [List.mem_singleton.mp hm]
      exact hlast.node hlo ht ha
  · have hone := hframe.once c hq
    have hcells : Fields.cells (termNewNode rt tag ext (as.map Prod.fst)).2.val
        (Fields.ofKids as) = (Fields.ofKids as).cells rt.next := rfl
    rw [List.flatMap_append, List.count_append] at hone ⊢
    rw [List.flatMap_singleton, hcells, Fields.count_cells_ofKids]
    by_cases hc : rt.next ≤ c
    · have hno (bs : List (Term × Fields)) (hb : ∀ b ∈ bs, b ∈ pre ++ as) :
          (bs.flatMap fun a => a.2.cells a.1.val).count c = 0 := by
        refine List.count_eq_zero_of_not_mem fun hm => ?_
        obtain ⟨b, hbs, hm⟩ := mem_flatMap_cells.mp hm
        have hlt := ((h.held b (hb b hbs)).block.bound c hm).2
        omega
      rw [hno pre fun b hb => List.mem_append_left _ hb,
        hno as fun b hb => List.mem_append_right _ hb]
      split <;> omega
    · rw [if_neg (by omega)]
      omega

theorem Fits.last {env : List Term} {b b' : Term} (h : Fits b b') :
    List.Forall₂ Fits (env ++ [b]) (env ++ [b']) :=
  List.rel_append (List.forall₂_same.mpr fun x _ => Fits.refl x) (.cons h .nil)

/-- A LAM over a body whose environment it completes. -/
theorem Parsed.lam {env : List Term} {b : Term} {rt : Rt} {lo hi loc ext : Nat} {t : Term}
    {F : Fields} (h : Parsed (env ++ [b]) rt lo hi t F)
    (hb : Fits b (termNew false .lam ext loc)) (hread : heapRead rt loc = t)
    (hloc : lo ≤ loc ∧ loc < hi) (hout : loc ∉ F.cells t.val)
    (huse : (t :: F.words).countP (DupTarget.hits ⟨.bjv, env.length + 1, 0⟩) ≤ 1) :
    Parsed env rt lo hi (termNew false .lam ext loc) (.cons t F .nil) where
  arity := rfl
  plain := fun hq => by cases hq
  ref := .of_not_quoted fun hq => by cases hq
  binds := by
    intro _ side
    simpa [Fields.scope, sideOf, termNew, Fields.words] using huse
  block := by
    refine .cons hread hloc (h.fits hb.last) .nil ?_ fun c _ _ => List.not_mem_nil
    rw [show Fields.cells _ Fields.nil = [] from rfl, List.append_nil]
    exact hout

/-- A DUP over a value and a body whose environment it completes. -/
theorem Parsed.dup {env : List Term} {b : Term} {rt : Rt} {lo hi loc lab : Nat} {v t : Term}
    {V F : Fields} (hv : Parsed env rt lo hi v V) (h : Parsed (env ++ [b]) rt lo hi t F)
    (hb : Fits b (termNew false .dup lab loc)) (hread0 : heapRead rt loc = v)
    (hread1 : heapRead rt (loc + 1) = t) (hloc : lo ≤ loc ∧ loc + 1 < hi)
    (hout0 : loc ∉ V.cells v.val ++ F.cells t.val)
    (hout1 : loc + 1 ∉ V.cells v.val ++ F.cells t.val)
    (hapart : ∀ c ∈ V.cells v.val, isQuoted (heapRead rt c) → c ∉ F.cells t.val)
    (huse : ∀ side : Bool, (t :: F.words).countP
      (DupTarget.hits ⟨if side then .bj1 else .bj0, env.length + 1, lab % (extMask + 1)⟩) ≤ 1) :
    Parsed env rt lo hi (termNew false .dup lab loc) (.cons v V (.cons t F .nil)) where
  arity := rfl
  plain := fun hq => by cases hq
  ref := .of_not_quoted fun hq => by cases hq
  binds := by
    intro _ side
    simpa [Fields.scope, Fields.rest, sideOf, termNew, Fields.words] using huse side
  block := by
    have hcells : Fields.cells (loc + 1) (.cons t F .nil) = (loc + 1) :: F.cells t.val := by
      simp [Fields.cells]
    have hfirst : fieldEnv (termNew false .dup lab loc) env 0 = env := by simp [fieldEnv, termNew]
    have hsecond : fieldEnv (termNew false .dup lab loc) env 1 =
        env ++ [termNew false .dup lab loc] := by simp [fieldEnv, termNew]
    have hbody : Block (fun i => fieldEnv (termNew false .dup lab loc) env (i + 1)) rt lo hi
        (loc + 1) (.cons t F .nil) := by
      refine .cons hread1 (by omega) ?_ .nil ?_ fun c _ _ => List.not_mem_nil
      · rw [hsecond]
        exact h.fits hb.last
      · rw [show Fields.cells _ Fields.nil = [] from rfl, List.append_nil]
        exact fun hm => hout1 (List.mem_append_right _ hm)
    have hloc0 : lo ≤ loc ∧ loc < hi := by omega
    refine .cons hread0 hloc0 (by rwa [hfirst]) hbody ?_ ?_
    · show loc ∉ V.cells v.val ++ Fields.cells (loc + 1) (.cons t F .nil)
      rw [hcells]
      intro hm
      rcases List.mem_append.mp hm with hm | hm
      · exact hout0 (List.mem_append_left _ hm)
      · rcases List.mem_cons.mp hm with he | hm
        · omega
        · exact hout0 (List.mem_append_right _ hm)
    · show ∀ c ∈ V.cells v.val, isQuoted (heapRead rt c) →
        c ∉ Fields.cells (loc + 1) (.cons t F .nil)
      rw [hcells]
      intro c hc hq hm
      rcases List.mem_cons.mp hm with rfl | hm
      · exact hout1 (List.mem_append_left _ hc)
      · exact hapart c hc hq hm

theorem Parsed.newLam {env : List Term} {b : Term} {rt : Rt} {lo ext : Nat} {t : Term}
    {F : Fields} (h : Parsed (env ++ [b]) rt lo rt.next t F) (hlo : lo ≤ rt.next)
    (hb : ∀ loc, Fits b (termNew false .lam ext loc))
    (huse : (t :: F.words).countP (DupTarget.hits ⟨.bjv, env.length + 1, 0⟩) ≤ 1) :
    let r := termNewNode rt .lam ext [t]
    Parsed env r.1 lo r.1.next r.2 (.cons t F .nil) := by
  have hframe := h.frame fun c hc => termNewNode_frame rt .lam ext [t] hc
  have hnext : (termNewNode rt .lam ext [t]).1.next = rt.next + 1 := termNewNode_next _ _ _ _
  refine (hframe.mono (Nat.le_refl lo) (by omega)).lam (hb rt.next) ?_ ⟨hlo, by omega⟩
    (fun hm => ?_) huse
  · exact termNewNode_read rt .lam ext [t] (i := 0) (Nat.zero_lt_one)
  · exact absurd (h.block.bound _ hm).2 (Nat.lt_irrefl _)

/-- A new DUP of a variable. -/
theorem Parsed.newDup {env : List Term} {b : Term} {rt : Rt} {lo lab : Nat} {v t : Term}
    {F : Fields} (hv : RefPlain v) (ha : termArity v = 0) (href : RefOk env v)
    (h : Parsed (env ++ [b]) rt lo rt.next t F) (hlo : lo ≤ rt.next)
    (hb : ∀ loc, Fits b (termNew false .dup lab loc))
    (huse : ∀ side : Bool, (t :: F.words).countP
      (DupTarget.hits ⟨if side then .bj1 else .bj0, env.length + 1, lab % (extMask + 1)⟩) ≤ 1) :
    let r := termNewDup rt lab v t
    Parsed env r.1 lo r.1.next r.2 (.cons v .nil (.cons t F .nil)) := by
  have hframe := h.frame fun c hc => termNewNode_frame rt .dup lab [v, t] hc
  have hnext : (termNewDup rt lab v t).1.next = rt.next + 2 := termNewNode_next _ _ _ _
  have hfield (c : Nat) (hc : rt.next ≤ c) : c ∉ F.cells t.val := fun hm => by
    have hlt := (h.block.bound c hm).2
    omega
  refine Parsed.dup (.leaf hv ha href) (hframe.mono (Nat.le_refl lo) (by rw [hnext]; omega))
    (hb rt.next) (termNewNode_read _ _ _ _ (i := 0) (by simp))
    (termNewNode_read _ _ _ _ (i := 1) (by simp)) ⟨hlo, by rw [hnext]; omega⟩ ?_ ?_
    (fun c hc => (List.not_mem_nil hc).elim) huse
  · exact fun hm => hfield _ (Nat.le_refl _) ((List.mem_append.mp hm).resolve_left
      List.not_mem_nil)
  · exact fun hm => hfield _ (Nat.le_succ _) ((List.mem_append.mp hm).resolve_left
      List.not_mem_nil)

end Hvm
