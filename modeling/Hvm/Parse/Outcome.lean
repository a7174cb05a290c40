import Hvm.Parse.Clones
import Hvm.Parse.Moves

/-! What a run of the parser's functions ends in, as long as the book fits 32 bits and no
fork misuses its binders: the heap below is kept, and the term returned is parsed under the
binders in force. -/

namespace Hvm

open Effect Relation

/-! ### Forks -/

/-- The references to a side of a fork's `i`-th binder. -/
def ForkSite.side (f : ForkSite) (i : Nat) (side : Bool) : DupTarget :=
  if f.dyn then ⟨.bjv, f.depth + i * 3 + 2 + (if side then 1 else 0), 0⟩
  else ⟨if side then .bj1 else .bj0, f.depth + i * 2 + 2, f.lab⟩

/-- Each side of each binder is used at most once in the two branches together, and the
label of a dynamic fork has no variable below its root. -/
structure ForkSite.Fine (f : ForkSite) : Prop where
  affine : ∀ i < f.binders, ∀ side, ∀ L R : Fields,
    L.length = termArity f.left → L.Stored f.rt f.left.val →
    R.length = termArity f.right → R.Stored f.rt f.right.val →
    (f.left :: L.words).countP (f.side i side).hits +
      (f.right :: R.words).countP (f.side i side).hits ≤ 1
  label : f.dyn → ∀ F : Fields, F.length = termArity f.labTerm →
    F.Stored f.rt f.labTerm.val → F.Free

/-- The book fits the `u32` locations of the walks, and every fork met is fine. -/
structure Parse.Legit (p : Parse) : Prop where
  small : p.rt.next ≤ 2 ^ 32
  forks : ∀ f ∈ p.forks, f.Fine

theorem Parse.Move.legit {p q : Parse} (h : p.Move q) (hq : q.Legit) : p.Legit := by
  cases h with
  | cursor | intern | binds | side | written | generated | seen | define =>
    exact ⟨hq.small, hq.forks⟩
  | memory rt hle => exact ⟨Nat.le_trans hle hq.small, hq.forks⟩
  | fork site => exact ⟨hq.small, fun f hf => hq.forks f (List.mem_cons_of_mem _ hf)⟩

instance : Past Parse.Moves Parse.Legit where
  back := by
    intro p q hr hq
    induction hr with
    | refl => exact hq
    | tail _ hm ih => exact ih (hm.legit hq)

abbrev Gives {α : Type} (p : Parse) (m : Parser α) (Q : α → Parse → Prop) : Prop :=
  Ensures Parse.Legit p m Q

/-! ### What runs keep -/

/-- The binders, the fork side and the book are as before, and labels only went up. -/
structure Aside (p q : Parse) : Prop where
  binds : q.binds = p.binds
  side : q.forkSide = p.forkSide
  book : q.book = p.book
  fresh : p.freshLab ≤ q.freshLab

theorem Aside.trans {p q r : Parse} (h : Aside p q) (h' : Aside q r) : Aside p r :=
  ⟨h'.binds.trans h.binds, h'.side.trans h.side, h'.book.trans h.book,
    Nat.le_trans h.fresh h'.fresh⟩

/-- And so is the heap. -/
structure Still (p q : Parse) : Prop extends Aside p q where
  rt : q.rt = p.rt

/-- And so is the heap below its end. -/
structure Retains (p q : Parse) : Prop extends Aside p q where
  next : p.rt.next ≤ q.rt.next
  keep : ∀ c < p.rt.next, heapRead q.rt c = heapRead p.rt c

theorem Retains.refl (p : Parse) : Retains p p :=
  ⟨⟨rfl, rfl, rfl, Nat.le_refl _⟩, Nat.le_refl _, fun _ _ => rfl⟩

theorem Retains.trans {p q r : Parse} (h : Retains p q) (h' : Retains q r) : Retains p r :=
  ⟨h.toAside.trans h'.toAside, Nat.le_trans h.next h'.next, fun c hc =>
    (h'.keep c (Nat.lt_of_lt_of_le hc h.next)).trans (h.keep c hc)⟩

theorem Still.trans {p q r : Parse} (h : Still p q) (h' : Still q r) : Still p r :=
  ⟨h.toAside.trans h'.toAside, h'.rt.trans h.rt⟩

theorem Still.retains {p q : Parse} (h : Still p q) : Retains p q :=
  ⟨h.toAside, Nat.le_of_eq (by rw [h.rt]), fun c _ => by rw [h.rt]⟩

instance : Textual Still where
  refl := fun _ => ⟨⟨rfl, rfl, rfl, Nat.le_refl _⟩, rfl⟩
  trans := fun _ _ _ => Still.trans
  cursor := fun _ _ => ⟨⟨rfl, rfl, rfl, Nat.le_refl _⟩, rfl⟩
  intern := fun _ _ _ _ => ⟨⟨rfl, rfl, rfl, Nat.le_refl _⟩, rfl⟩
  written := fun _ _ _ => ⟨⟨rfl, rfl, rfl, Nat.le_refl _⟩, rfl⟩
  generated := fun _ _ _ => ⟨⟨rfl, rfl, rfl, Nat.le_add_right _ _⟩, rfl⟩

/-- A term returned by a function that started in `p`, in the range from `lo` on. -/
structure Yield (lo : Nat) (env : List Term) (p : Parse) (t : Term) (q : Parse) : Prop where
  retains : Retains p q
  parsed : ∃ F, Parsed env q.rt lo q.rt.next t F

theorem Yield.after {lo : Nat} {env : List Term} {p q r : Parse} {t : Term} (h : Retains p q)
    (h' : Yield lo env q t r) : Yield lo env p t r :=
  ⟨h.trans h'.retains, h'.parsed⟩

/-! ### Binders in force -/

/-- Where a binder of the parser's stack stands in the environment. -/
structure BindIn (env : List Term) (b : PBind) : Prop where
  lam : b.lab = 0 → ∃ w, binderAt env b.lvl = some w ∧ w.tag = .lam
  dyn : b.lab = parseDynLab → ∀ k < 2, ∃ w, binderAt env (b.lvl + k) = some w ∧ w.tag = .lam
  dup : b.lab ≠ 0 → b.lab ≠ parseDynLab →
    b.lab < parseDynLab ∧ ∃ w, binderAt env b.lvl = some w ∧ w.tag = .dup ∧ w.ext = b.lab
  forked : b.forked → b.lab ≠ 0

/-- The state agrees with the environment of the term to be parsed. -/
structure Scope (env : List Term) (p : Parse) : Prop where
  fresh : 0 < p.freshLab
  binds : ∀ b ∈ p.binds, BindIn env b
  side : ∀ b ∈ p.binds, b.forked → p.forkSide.isSome

theorem Scope.aside {env : List Term} {p q : Parse} (h : Scope env p) (ha : Aside p q) :
    Scope env q where
  fresh := Nat.lt_of_lt_of_le h.fresh ha.fresh
  binds := by
    rw [ha.binds]
    exact h.binds
  side := by
    rw [ha.binds, ha.side]
    exact h.side

theorem BindIn.append {env : List Term} {b : PBind} (h : BindIn env b) (inner : List Term) :
    BindIn (env ++ inner) b where
  lam := by
    intro hl
    obtain ⟨w, hw, ht⟩ := h.lam hl
    exact ⟨w, binderAt_append hw inner, ht⟩
  dyn := by
    intro hl k hk
    obtain ⟨w, hw, ht⟩ := h.dyn hl k hk
    exact ⟨w, binderAt_append hw inner, ht⟩
  dup := by
    intro h0 hd
    obtain ⟨hlt, w, hw, ht⟩ := h.dup h0 hd
    exact ⟨hlt, w, binderAt_append hw inner, ht⟩
  forked := h.forked

/-! ### Rules -/

section Rules

variable {α β : Type} {p : Parse} {m : Parser α} {f : α → Parser β} {Q : β → Parse → Prop}
  {S : α → Parse → Prop}

/-- A step that leaves the heap alone. -/
theorem Gives.still [Within Still m] (h : ∀ a q, Still p q → Gives q (f a) Q) :
    Gives p (m >>= f) Q := Ensures.step Still h

theorem Gives.bind [∀ a, Walks (f a)] (hm : Gives p m S)
    (h : ∀ a q, q.Legit → S a q → Gives q (f a) Q) : Gives p (m >>= f) Q :=
  Ensures.bind Parse.Moves hm h

theorem Gives.bind_walks (hf : ∀ a, Walks (f a)) (hm : Gives p m S)
    (h : ∀ a q, q.Legit → S a q → Gives q (f a) Q) : Gives p (m >>= f) Q :=
  Ensures.bind Parse.Moves hm h

theorem stopIf_bind {bad : Bool} {e : PState → ParseStop} {k : Unit → Parser β}
    (h : bad = false → Gives p (k ()) Q) : Gives p (stopIf bad e >>= k) Q := by
  intro b q hr hq
  obtain ⟨u, t, hstop, hr⟩ := bind_ok.mp hr
  obtain ⟨hbad, rfl⟩ := stopIf_ok.mp hstop
  exact h hbad b q hr hq

/-- What a turn of a loop ends in: the loop's invariant or its postcondition. -/
def Turned {σ : Type} (I : σ → Parse → Prop) (Q : β → Parse → Prop) : σ ⊕ β → Parse → Prop
  | .inl x => I x
  | .inr b => Q b

theorem loopM_gives {σ : Type} {turn : σ → Parser (σ ⊕ β)} [∀ x, Walks (turn x)]
    {I : σ → Parse → Prop} (hturn : ∀ x p, I x p → Gives p (turn x) (Turned I Q)) {n : Nat}
    {x : σ} (hx : I x p) : Gives p (loopM turn n x) Q := by
  induction n generalizing x p with
  | zero => exact Ensures.throw
  | succ n ih =>
    simp only [loopM]
    refine Gives.bind_walks (fun y => ?_) (hturn x p hx) fun y q _ hy => ?_
    · cases y <;> infer_instance
    · cases y with
      | inl x => exact ih hy
      | inr b => exact Ensures.pure hy

end Rules

/-! ### Nodes -/

theorem Parsed.retains {env : List Term} {p q : Parse} {lo hi : Nat} {t : Term} {F : Fields}
    (h : Parsed env p.rt lo hi t F) (hk : Retains p q) (hhi : hi ≤ p.rt.next) :
    Parsed env q.rt lo hi t F :=
  h.frame fun c hc => hk.keep c (Nat.lt_of_lt_of_le hc hhi)

theorem Parts.retains {env : List Term} {p q : Parse} {lo hi : Nat} {as : List (Term × Fields)}
    (h : Parts env p.rt lo hi as) (hk : Retains p q) (hhi : hi ≤ p.rt.next) :
    Parts env q.rt lo hi as :=
  h.frame fun c hc => hk.keep c (Nat.lt_of_lt_of_le hc hhi)

theorem build_gives {α : Type} {p : Parse} (f : Rt → Rt × α)
    (hn : p.rt.next ≤ (f p.rt).1.next)
    (hk : ∀ c < p.rt.next, heapRead (f p.rt).1 c = heapRead p.rt c) :
    Gives p (build f) fun a q => a = (f p.rt).2 ∧ q.rt = (f p.rt).1 ∧ Retains p q := by
  intro a q h _
  obtain ⟨-, rfl, rfl⟩ := build_ok.mp h
  exact ⟨rfl, rfl, ⟨rfl, rfl, rfl, Nat.le_refl _⟩, hn, hk⟩

theorem termNewNode_gives {env : List Term} {p : Parse} {lo : Nat} {tag : Tag} {ext : Nat}
    (pre as : List (Term × Fields)) (h : Parts env p.rt lo p.rt.next (pre ++ as))
    (hlo : lo ≤ p.rt.next) (ht : Inert tag)
    (ha : termArity (termNew false tag ext p.rt.next) = as.length) :
    Gives p (build fun rt => termNewNode rt tag ext (as.map Prod.fst)) fun t q =>
      Retains p q ∧ Parts env q.rt lo q.rt.next (pre ++ [(t, Fields.ofKids as)]) := by
  have hbuild := build_gives (p := p) (fun rt => termNewNode rt tag ext (as.map Prod.fst))
    ((termNewNode_grows tag ext (as.map Prod.fst)).le p.rt)
    fun c hc => termNewNode_frame _ _ _ _ hc
  refine hbuild.mono ?_
  rintro t q - ⟨rfl, hq, hk⟩
  refine ⟨hk, ?_⟩
  rw [hq]
  exact h.node_append hlo ht ha

/-! ### The terms a function holds while it runs -/

/-- A function that started in `p` holds the terms `as`, in the range from `lo` on. -/
structure Stack (lo : Nat) (env : List Term) (as : List (Term × Fields)) (p q : Parse) :
    Prop where
  retains : Retains p q
  low : lo ≤ q.rt.next
  parts : Parts env q.rt lo q.rt.next as

namespace Stack

variable {lo : Nat} {env : List Term} {as : List (Term × Fields)} {p q : Parse}

theorem start (env : List Term) (p : Parse) : Stack p.rt.next env [] p p :=
  ⟨.refl p, Nat.le_refl _, .nil⟩

theorem one {t : Term} {F : Fields} (hlo : lo ≤ p.rt.next)
    (h : Parsed env p.rt lo p.rt.next t F) : Stack lo env [(t, F)] p p :=
  ⟨.refl p, hlo, .cons h .nil fun _ _ _ _ ha => (List.not_mem_nil ha).elim⟩

theorem after {r : Parse} (h : Stack lo env as p q) (hk : Retains q r) : Stack lo env as p r :=
  ⟨h.retains.trans hk, Nat.le_trans h.low hk.next,
    (h.parts.retains hk (Nat.le_refl _)).mono (Nat.le_refl lo) hk.next⟩

theorem push {t : Term} {r : Parse} (h : Stack lo env as p q)
    (hy : Yield q.rt.next env q t r) : ∃ F, Stack lo env (as ++ [(t, F)]) p r := by
  obtain ⟨hk, F, hF⟩ := hy
  exact ⟨F, h.retains.trans hk, Nat.le_trans h.low hk.next,
    (h.parts.retains hk (Nat.le_refl _)).snoc hF h.low hk.next⟩

theorem leaf {t : Term} (h : Stack lo env as p q) (hp : RefPlain t) (ha : termArity t = 0)
    (hr : RefOk env t) : Stack lo env (as ++ [(t, .nil)]) p q :=
  ⟨h.retains, h.low, h.parts.snoc (.leaf hp ha hr) h.low (Nat.le_refl _)⟩

theorem yield {t : Term} {F : Fields} (h : Stack lo env [(t, F)] p q) : Yield lo env p t q :=
  ⟨h.retains, F, h.parts.held (t, F) (List.mem_singleton.mpr rfl)⟩

variable {α β : Type} {m : Parser α} {f : α → Parser β} {Q : β → Parse → Prop}

theorem still_bind [Within Still m] (h : Stack lo env as p q)
    (hf : ∀ a r, Stack lo env as p r → Gives r (f a) Q) : Gives q (m >>= f) Q :=
  Gives.still fun a r hr => hf a r (h.after hr.retains)

/-- A node takes the place of the last terms. -/
theorem node {m : Parser Term} (pre as : List (Term × Fields)) (tag : Tag) (ext : Nat)
    (hm : m = build fun rt => termNewNode rt tag ext (as.map Prod.fst)) (ht : Inert tag)
    (ha : ∀ loc, termArity (termNew false tag ext loc) = as.length)
    (h : Stack lo env (pre ++ as) p q) :
    Gives q m fun t r => ∃ F, Stack lo env (pre ++ [(t, F)]) p r := by
  subst hm
  refine (termNewNode_gives pre as h.parts h.low ht (ha _)).mono ?_
  rintro t r - ⟨hk, hparts⟩
  exact ⟨_, h.retains.trans hk, Nat.le_trans h.low hk.next, hparts⟩

theorem ctr {nam : Nat} (pre as : List (Term × Fields)) (hlen : as.length ≤ 16)
    (h : Stack lo env (pre ++ as) p q) :
    Gives q (build fun rt => termNewCtr rt nam (as.map Prod.fst)) fun t r =>
      ∃ F, Stack lo env (pre ++ [(t, F)]) p r := by
  by_cases hz : as = []
  · subst hz
    rw [List.append_nil] at h
    refine (build_gives (p := q) (fun rt => termNewCtr rt nam []) (Nat.le_refl _)
      fun _ _ => rfl).mono ?_
    rintro t r - ⟨rfl, -, hk⟩
    exact ⟨.nil, (h.after hk).leaf (fun hq => by cases hq) rfl
      (.of_not_quoted fun hq => by cases hq)⟩
  · refine h.node pre as (.ctr (Fin.ofNat 17 as.length)) nam ?_ ⟨nofun, nofun, nofun, nofun, nofun⟩
      fun _ => ?_
    · congr 1
      funext rt
      unfold termNewCtr
      rw [if_neg (by simpa using hz), List.length_map]
    · show ((Fin.ofNat 17 as.length : Fin 17) : Nat) = as.length
      simp only [Fin.ofNat]
      omega

end Stack

end Hvm
