import Hvm.Parse.AffineForks
import Hvm.Parse.Program

/-! Book terms are affine and well scoped, in every program whose forks use their binders as
their own check means to ensure. -/

namespace Hvm

open Effect

set_option synthInstance.maxSize 100000
set_option synthInstance.maxHeartbeats 200000

/-- The term in a cell is finite, each reference in it designates an enclosing binder of its
kind, and each variable and each side of a dup is referenced at most once. -/
def AffineTerm (rt : Rt) (loc : Nat) : Prop :=
  ∃ F : Fields, F.length = 1 ∧ F.Stored rt loc ∧ F.Sound fun _ => []

instance (env : List Term) (w : Term) : Decidable (RefOk env w) :=
  decidable_of_iff ((w.tag = .bjv → ∃ b ∈ binderAt env w.val, b.tag = .lam) ∧
      (w.tag = .bj0 ∨ w.tag = .bj1 → ∃ b ∈ binderAt env w.val, b.tag = .dup ∧ b.ext = w.ext))
    ⟨fun h => ⟨h.1, h.2⟩, fun h => ⟨h.lam, h.dup⟩⟩

namespace Fields

def decSound : (E : Nat → List Term) → (F : Fields) → Decidable (F.Sound E)
  | _, nil => .isTrue trivial
  | E, cons w sub rest =>
    have := decSound (fieldEnv w (E 0)) sub
    have := decSound (fun i => E (i + 1)) rest
    inferInstanceAs (Decidable (_ ∧ _ ∧ _ ∧ _))

instance (E : Nat → List Term) (F : Fields) : Decidable (F.Sound E) := decSound E F

theorem Stored.unique {rt : Rt} {loc : Nat} {F G : Fields} (hF : F.Stored rt loc)
    (hG : G.Stored rt loc) (hlen : F.length = G.length) : F = G := by
  induction F generalizing G loc with
  | nil => exact (eq_nil_of_length hlen.symm).symm
  | cons w sub rest ihs ihr =>
    cases G with
    | nil => cases hlen
    | cons w' sub' rest' =>
      obtain ⟨hw, hsub, hs, hr⟩ := hF
      obtain ⟨hw', hsub', hs', hr'⟩ := hG
      obtain rfl : w = w' := hw.symm.trans hw'
      rw [ihs hs hs' (hsub.trans hsub'.symm), ihr hr hr' (Nat.succ.inj hlen)]

end Fields

/-! ### Definitions -/

/-- A term of the book, with all its cells in the heap so far. -/
def BookTerm (rt : Rt) (loc : Nat) : Prop :=
  ∃ F : Fields, F.length = 1 ∧ F.Stored rt loc ∧ (∀ c ∈ F.cells loc, c < rt.next) ∧
    F.Sound fun _ => []

/-- What parsing a definition keeps. -/
structure Sheet (p : Parse) : Prop where
  fresh : 0 < p.freshLab
  book : ∀ id, p.book id ≠ 0 → BookTerm p.rt (p.book id)

/-- Labels only went up, and the heap below its end is as before. -/
structure Extends (p q : Parse) : Prop where
  fresh : p.freshLab ≤ q.freshLab
  next : p.rt.next ≤ q.rt.next
  keep : ∀ c < p.rt.next, heapRead q.rt c = heapRead p.rt c

theorem Retains.extends {p q : Parse} (h : Retains p q) : Extends p q :=
  ⟨h.fresh, h.next, h.keep⟩

theorem BookTerm.extends {p q : Parse} {loc : Nat} (h : BookTerm p.rt loc) (he : Extends p q) :
    BookTerm q.rt loc := by
  obtain ⟨F, hlen, hstored, hbound, hsound⟩ := h
  exact ⟨F, hlen, hstored.frame fun c hc => he.keep c (hbound c hc),
    fun c hc => Nat.lt_of_lt_of_le (hbound c hc) he.next, hsound⟩

theorem Sheet.retains {p q : Parse} (h : Sheet p) (hk : Retains p q) : Sheet q where
  fresh := Nat.lt_of_lt_of_le h.fresh hk.fresh
  book := by
    intro id hid
    rw [hk.book] at hid ⊢
    exact (h.book id hid).extends hk.extends

/-- The term of a definition, in the cell that the book points at. -/
theorem Parsed.bookTerm {rt : Rt} {lo hi loc : Nat} {t : Term} {F : Fields}
    (h : Parsed [] rt lo hi t F) (hread : heapRead rt loc = t) (hloc : loc < rt.next)
    (hhi : hi ≤ rt.next) : BookTerm rt loc := by
  refine ⟨.cons t F .nil, rfl, ⟨hread, h.arity, h.block.stored, trivial⟩, fun c hc => ?_,
    ⟨h.ref, h.binds, h.block.sound, trivial⟩⟩
  rcases List.mem_cons.mp hc with rfl | hc
  · exact hloc
  · rw [show Fields.cells (loc + 1) .nil = [] from rfl, List.append_nil] at hc
    exact Nat.lt_of_lt_of_le (h.block.bound c hc).2 hhi

theorem parseDefBody_sheet {r : Calls} [r.Walk] (hr : r.Good) {p : Parse} (h : Sheet p) :
    Gives p (parseDefBody r) fun _ q => Sheet q := by
  unfold parseDefBody
  refine Gives.still fun id q1 h1 => Gives.still fun _ q2 h2 => Ensures.modify_bind ?_
  have h12 := h.retains (h1.trans h2).retains
  have hscope : Scope [] { q2 with binds := [] } :=
    ⟨h12.fresh, fun _ hb => (List.not_mem_nil hb).elim, fun _ hb => (List.not_mem_nil hb).elim⟩
  refine Gives.bind (hr.term [] _ hscope) fun t q3 _ ⟨hk3, F, hF⟩ => ?_
  refine alloc_bind fun loc q4 hloc hk4 hn4 => Ensures.modify_bind ?_
  intro _ q5 h5 _
  obtain rfl := modify_ok.mp h5
  have hext : Extends q2 { q4 with rt := heapSet q4.rt loc t } := by
    have hk := hk3.trans hk4
    refine ⟨hk.fresh, hk.next, fun c hc => ?_⟩
    have hne : c ≠ loc := by
      have hle : q2.rt.next ≤ q3.rt.next := hk3.next
      omega
    show heapRead (heapSet q4.rt loc t) c = heapRead q2.rt c
    rw [heapRead_heapSet, if_neg hne]
    exact hk.keep c hc
  refine ⟨Nat.lt_of_lt_of_le h12.fresh hext.fresh, fun id' hid => ?_⟩
  by_cases he : id' = id
  · subst he
    have hloc' : Function.update q4.book id' loc id' = loc := Function.update_self ..
    show BookTerm (heapSet q4.rt loc t) (Function.update q4.book id' loc id')
    rw [hloc']
    have hF4 : Parsed [] (heapSet q4.rt loc t) q2.rt.next q3.rt.next t F :=
      (hF.retains hk4 (Nat.le_refl _)).store (hF.outside (Or.inr (Nat.le_of_eq hloc.symm)))
    refine hF4.bookTerm ?_ ?_ hk4.next
    · rw [heapRead_heapSet, if_pos rfl]
    · show loc < q4.rt.next
      omega
  · have hbook : q4.book = q2.book := hk4.book.trans hk3.book
    have hid' : Function.update q4.book id loc id' = q2.book id' := by
      rw [Function.update_of_ne he, hbook]
    show BookTerm (heapSet q4.rt loc t) (Function.update q4.book id loc id')
    rw [hid']
    exact (h12.book id' (hid' ▸ hid)).extends hext

theorem includePath_sheet {p : Parse} (h : Sheet p) : Gives p includePath fun _ q => Sheet q := by
  unfold includePath
  refine Gives.still fun _ q1 h1 => Gives.still fun _ q2 h2 => Ensures.get_bind ?_
  refine Gives.still fun _ q3 h3 => Gives.still fun _ q4 h4 => stopIf_bind fun _ =>
    Ensures.get_bind ?_
  have h04 : Still p q4 := h1.trans (h2.trans (h3.trans h4))
  refine Ensures.ite (fun _ => Ensures.pure (h.retains h04.retains)) fun _ => stopIf_bind fun _ => ?_
  exact Ensures.modify_bind (Ensures.pure ⟨(h.retains h04.retains).fresh, (h.retains h04.retains).book⟩)

theorem parseInclude_sheet {files : Text → Option Text} {def_ : Parser Unit} [Walks def_]
    (hdef : ∀ p, Sheet p → Gives p def_ fun _ q => Sheet q) {p : Parse} (h : Sheet p) :
    Gives p (parseInclude files def_) fun _ q => Sheet q := by
  unfold parseInclude
  refine Gives.bind_walks (fun path => ?_) (includePath_sheet h) fun path q1 _ h1 => ?_
  · rcases path with - | path
    · infer_instance
    · dsimp only
      split <;> infer_instance
  rcases path with - | path
  · exact Ensures.pure h1
  dsimp only
  split
  · exact Ensures.throw
  · refine Ensures.get_bind (Gives.still fun _ q2 h2 => ?_)
    refine Gives.bind (hdef q2 (h1.retains h2.retains)) fun _ q3 _ h3 => ?_
    intro _ q4 h4 _
    exact h3.retains (Within.run (R := Still) (m := moveTo _) _ _ _ h4).retains

theorem parseDef_sheet (files : Text → Option Text) (n : Nat) :
    ∀ p, Sheet p → Gives p (parseDef files n) fun _ q => Sheet q := by
  induction n with
  | zero => exact fun p _ => Ensures.throw
  | succ n ih =>
    intro p h
    unfold parseDef
    refine Gives.still fun _ q1 h1 => Ensures.get_bind ?_
    refine Ensures.ite (fun _ => Ensures.pure (h.retains h1.retains)) fun _ => ?_
    refine Gives.still fun _ q2 h2 => ?_
    have hs2 := h.retains (h1.trans h2).retains
    refine Ensures.ite (fun _ => ?_) fun _ => ?_
    · exact Gives.bind (parseInclude_sheet ih hs2) fun _ q3 _ hs3 => ih q3 hs3
    refine Gives.still fun _ q3 h3 => ?_
    have hs3 := hs2.retains h3.retains
    refine Ensures.ite (fun _ => ?_) fun _ => ?_
    · exact Gives.bind (parseDefBody_sheet (calls_good n) hs3) fun _ q4 _ hs4 => ih q4 hs4
    · intro _ q4 h4 _
      exact absurd (stopIf_ok.mp h4).1 (by simp)

theorem parseInit_sheet (path src : Text) :
    Sheet { parseInit with s := ⟨path, src, 1, 1⟩, seenFiles := [path] } where
  fresh := by
    show 0 < parseFreshBase
    decide
  book := fun _ hid => absurd rfl hid

/-- In every run whose forks use their binders once, on either side and in the two branches
together, and whose dynamic labels have no variable below their root, the terms of the book
are affine and well scoped. -/
theorem parse_affine {files : Text → Option Text} {n : Nat} {path src : Text} {p : Parse}
    (h : parseProgram files n path src = .ok p) (hl : p.Legit) :
    ∀ id, p.book id ≠ 0 → AffineTerm p.rt (p.book id) := by
  intro id hid
  unfold parseProgram at h
  split at h
  · cases h
    obtain ⟨F, hlen, hstored, -, hsound⟩ :=
      (parseDef_sheet files n _ (parseInit_sheet path src) _ _ ‹_› hl).book id hid
    exact ⟨F, hlen, hstored, hsound⟩
  · cases h

/-- What a text is parsed to, when it is accepted. -/
def parsedProgram (src : Text) : Option Parse :=
  match parseProgram (fun _ => none) 30 (utf8 "main.hvm") src with
  | .ok p => some p
  | .error _ => none

theorem parsedProgram_eq {src : Text} {p : Parse} (h : parsedProgram src = some p) :
    parseProgram (fun _ => none) 30 (utf8 "main.hvm") src = .ok p := by
  unfold parsedProgram at h
  split at h
  · rename_i q hq
    cases h
    exact hq
  · cases h

/-- A fork whose branches are single words that use no side twice. -/
def ForkSite.Plain (f : ForkSite) : Prop :=
  f.dyn = false ∧ termArity f.left = 0 ∧ termArity f.right = 0 ∧
    ∀ i < f.binders, ∀ side : Bool,
      [f.left].countP (f.side i side).hits + [f.right].countP (f.side i side).hits ≤ 1

instance ForkSite.decPlain (f : ForkSite) : Decidable f.Plain := inferInstanceAs (Decidable (_ ∧ _ ∧ _ ∧ _))

theorem ForkSite.Plain.fine {f : ForkSite} (h : f.Plain) : f.Fine where
  affine := by
    intro i hi side L R hL _ hR _
    rw [Fields.eq_nil_of_length (hL.trans h.2.1), Fields.eq_nil_of_length (hR.trans h.2.2.1)]
    exact h.2.2.2 i hi side
  label := fun hd => absurd hd (by simp [h.1])

/-- `@main = &Lλx{x; x}`. -/
theorem parse_affine_fork :
    ∃ p, parseProgram (fun _ => none) 30 (utf8 "main.hvm") (utf8 "@main = &Lλx\x7bx; x\x7d") = .ok p ∧
      p.book 9 ≠ 0 ∧ AffineTerm p.rt (p.book 9) := by
  have hrun : ∃ p ∈ parsedProgram (utf8 "@main = &Lλx\x7bx; x\x7d"), p.rt.next ≤ 2 ^ 32 ∧
      p.book 9 ≠ 0 ∧ p.forks.length = 1 ∧ ∀ f ∈ p.forks, f.Plain := by decide +kernel
  obtain ⟨p, hp, hsmall, hbook, -, hforks⟩ := hrun
  have hp' := parsedProgram_eq hp
  exact ⟨p, hp', hbook, parse_affine hp' ⟨hsmall, fun f hf => (hforks f hf).fine⟩ 9 hbook⟩

/-- `@main = &Lλx{#P{x,x}; x}`: the fork counts the uses of its binder at the level of
the LAM around it. -/
theorem parse_not_affine :
    ∃ p, parseProgram (fun _ => none) 30 (utf8 "main.hvm")
        (utf8 "@main = &Lλx\x7b#P\x7bx,x\x7d; x\x7d") = .ok p ∧
      p.book 9 ≠ 0 ∧ ¬ AffineTerm p.rt (p.book 9) := by
  have hrun : ∃ p ∈ parsedProgram (utf8 "@main = &Lλx\x7b#P\x7bx,x\x7d; x\x7d"), p.book 9 ≠ 0 ∧
      (Fields.load p.rt 20 (p.book 9) 1).length = 1 ∧
      (Fields.load p.rt 20 (p.book 9) 1).Stored p.rt (p.book 9) ∧
      ¬ (Fields.load p.rt 20 (p.book 9) 1).Sound fun _ => [] := by decide +kernel
  obtain ⟨p, hp, hbook, hlen, hstored, hnot⟩ := hrun
  refine ⟨p, parsedProgram_eq hp, hbook, ?_⟩
  rintro ⟨F, hlen', hstored', hsound⟩
  rw [hstored'.unique hstored (hlen'.trans hlen.symm)] at hsound
  exact hnot hsound

end Hvm
