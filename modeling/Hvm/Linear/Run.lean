import Hvm.Linear.Ownership

/-! Runs of `wnf` from a closed book term. -/

namespace Hvm

open LinearHeap

/-- Before evaluation starts, every allocated cell belongs to a book term. -/
def statics (rt : Rt) : Statics := fun l => if l < rt.next then some (rt.heap l) else none

/-- The heap holds closed book terms whose binders are referenced at most once a side:
the definitions of the book, and one at `loc`. -/
structure Loaded (rt : Rt) (book : BookTable) (loc : Nat) : Prop where
  defs : BookOk (statics rt) book
  main : ∃ b, statics rt loc = some (.tm b) ∧ BookTm (statics rt) 0 b 0

/-- `wnf` started on the book term at `loc`. -/
def startAt (rt : Rt) (loc : Nat) : Machine := start rt (termNew false .alo 0 loc)

/-- An undisturbed turn of the machine. -/
def Turn (book : BookTable) (m m' : Machine) : Prop := Undisturbed m ∧ Step book m m'

variable {rt : Rt} {book : BookTable} {loc : Nat} {m m' : Machine}

/-- A heap of static cells is linear. -/
theorem statics_linear (rt : Rt) : Linear (statics rt) rt 0 := by
  refine ⟨fun _ => .free, ?_, ?_, fun _ => trivial, fun _ _ => rfl, ?_, ?_⟩
  · simp [total, CellSt.content]
  · simp [total, CellSt.content]
  · intro l c hc
    unfold statics at hc
    split_ifs at hc with hl
    exact ⟨rfl, Option.some.inj hc, hl⟩
  · intro l t ht
    cases ht

theorem Loaded.linearised (h : Loaded rt book loc) : Linearised (statics rt) 0 (startAt rt loc) := by
  obtain ⟨b, hb, hbook⟩ := h.main
  have hw : WordOk (statics rt) (termNew false .alo 0 loc) :=
    ⟨termNew_plain _ _ _, rfl, fun _ _ => ⟨b, hb, hbook⟩⟩
  have h0 : wordToks (termNew false .alo 0 loc) = 0 := by simp [wordToks, termNew]
  have hown : Has (statics rt) rt [.word (termNew false .alo 0 loc)] 0 := by
    refine Own.ofWord hw ?_
    rw [h0]
    exact statics_linear rt
  refine ⟨hown, fun f hf => ?_⟩
  cases hf

/-- Along an undisturbed run the machine stays linear. -/
theorem turns_linear {K : Statics} {σ : Toks} (hb : BookOk K book) (hσ : ∀ t ∈ σ, ¬ t.Pins)
    (h : Linearised K σ m) (hr : Relation.ReflTransGen (Turn book) m m') :
    ∃ K', BookOk K' book ∧ Linearised K' σ m' := by
  induction hr with
  | refl => exact ⟨K, hb, h⟩
  | tail _ hs ih =>
    obtain ⟨K', hb', h'⟩ := ih
    obtain ⟨K'', hK, h''⟩ := step_linear hb' hσ h' hs.1 hs.2
    exact ⟨K'', hb'.mono hK, h''⟩

/-- Every state of an undisturbed run owns its heap linearly. -/
theorem wnf_ownsLinearly (hl : Loaded rt book loc)
    (hr : Relation.ReflTransGen (Turn book) (startAt rt loc) m) : OwnsLinearly m := by
  obtain ⟨K, -, hlin⟩ := turns_linear hl.defs (by simp) hl.linearised hr
  exact hlin.ownsLinearly

/-! A run that is disturbed -/

/-- `n` turns of the machine, all from states that satisfy `P`. -/
def advance (P : Machine → Prop) [DecidablePred P] (book : BookTable) : Nat → Machine → Option Machine
  | 0, m => some m
  | n + 1, m =>
    if P m then
      match step book m with
      | .next m' => advance P book n m'
      | _ => none
    else none

theorem advance_reaches {P : Machine → Prop} [DecidablePred P] {n : Nat}
    (h : advance P book n m = some m') :
    Relation.ReflTransGen (fun a b => P a ∧ Step book a b) m m' := by
  induction n generalizing m with
  | zero => rw [Option.some.inj h]
  | succ n ih =>
    unfold advance at h
    split_ifs at h with hP
    cases hs : step book m with
    | next m₁ =>
      rw [hs] at h
      exact .head ⟨hP, hs⟩ (ih h)
    | done rt w =>
      rw [hs] at h
      cases h
    | exit f =>
      rw [hs] at h
      cases h

/-- `! f &A = λx. (! y &A = x; (y₀ + y₁)); f₀(f₁(1))` -/
def reentrant : Rt where
  heap l := match l with
    | 1 => .tm (termNew false .dup 1 2)
    | 2 => .tm (termNew false .lam 0 4)
    | 3 => .tm (termNew false .app 0 5)
    | 4 => .tm (termNew false .dup 1 7)
    | 5 => .tm (termNew false .bj0 1 1)
    | 6 => .tm (termNew false .app 0 9)
    | 7 => .tm (termNew false .bjv 0 1)
    | 8 => .tm (termNew false .op2 0 11)
    | 9 => .tm (termNew false .bj1 1 1)
    | 10 => .tm (termNewNum 1)
    | 11 => .tm (termNew false .bj0 1 2)
    | 12 => .tm (termNew false .bj1 1 2)
    | _ => .tm Term.zero
  next := 13
  itrs := 0
  fresh := 0
  log := []

theorem reentrant_loaded : Loaded reentrant (fun _ => 0) 1 := by
  have hK : ∀ l, l < 13 → statics reentrant l = some (reentrant.heap l) := fun l hl => if_pos hl
  have hbjv : BookTm (statics reentrant) 1 (termNew false .bjv 0 1) {.var 1} :=
    .var (by decide) rfl (by decide) (by decide)
  have hy0 : BookTm (statics reentrant) 2 (termNew false .bj0 1 2) {.cop false 1 2} :=
    .cop (by decide) rfl (by decide) (by decide)
  have hy1 : BookTm (statics reentrant) 2 (termNew false .bj1 1 2) {.cop true 1 2} :=
    .cop (by decide) rfl (by decide) (by decide)
  have hf0 : BookTm (statics reentrant) 1 (termNew false .bj0 1 1) {.cop false 1 1} :=
    .cop (by decide) rfl (by decide) (by decide)
  have hf1 : BookTm (statics reentrant) 1 (termNew false .bj1 1 1) {.cop true 1 1} :=
    .cop (by decide) rfl (by decide) (by decide)
  have hnum : BookTm (statics reentrant) 1 (termNewNum 1) 0 := .leaf (by decide) rfl
  have hadd := BookTm.pair (w := termNew false .op2 0 11) (by decide) rfl rfl (hK 11 (by decide))
    (hK 12 (by decide)) hy0 hy1
  have hbody := BookTm.dup (w := termNew false .dup 1 7) (by decide) rfl (hK 7 (by decide))
    (hK 8 (by decide)) hbjv hadd (by decide)
  have hlam := BookTm.lam (w := termNew false .lam 0 4) (by decide) rfl (hK 4 (by decide)) hbody
    (by decide)
  have hinner := BookTm.pair (w := termNew false .app 0 9) (by decide) rfl rfl (hK 9 (by decide))
    (hK 10 (by decide)) hf1 hnum
  have houter := BookTm.pair (w := termNew false .app 0 5) (by decide) rfl rfl (hK 5 (by decide))
    (hK 6 (by decide)) hf0 hinner
  have hmain := BookTm.dup (w := termNew false .dup 1 2) (by decide) rfl (hK 2 (by decide))
    (hK 3 (by decide)) hlam houter (by decide)
  refine ⟨nofun, _, hK 1 (by decide), ?_⟩
  obtain h0 := hmain.closed
  rw [h0] at hmain
  exact hmain

/-- The first 26 turns are undisturbed; the next one enters `f₁`'s body while `f₀`'s body is
being reduced. -/
theorem wnf_ownsLinearly_reentrant : ∃ m,
    advance Undisturbed (fun _ => 0) 26 (startAt reentrant 1) = some m ∧ OwnsLinearly m ∧
      ¬ Undisturbed m := by
  have hrun : (advance Undisturbed (fun _ => 0) 26 (startAt reentrant 1)).map
      (fun m => decide (Undisturbed m)) = some false := by
    decide +kernel
  obtain ⟨m, hm, hd⟩ := Option.map_eq_some_iff.mp hrun
  exact ⟨m, hm, wnf_ownsLinearly reentrant_loaded (advance_reaches hm), of_decide_eq_false hd⟩

/-- Five turns later `x₁` has two occurrences: both sides of the dup have instantiated the
same body. -/
theorem wnf_not_ownsLinearly : ∃ rt book loc m, Loaded rt book loc ∧
    Relation.ReflTransGen (Step book) (startAt rt loc) m ∧ ¬ OwnsLinearly m := by
  have hrun : (advance (fun _ => True) (fun _ => 0) 31 (startAt reentrant 1)).map (fun m =>
      (m.stack, m.mode, [m.rt.heap 12, m.rt.heap 27, m.rt.heap 30, m.rt.heap 32])) =
      some ([.tm (termNew false .op2 0 31), .tm (termNewDp0 1 26)], .enter (termNewVar 23),
        [.tm (termNew false .bj1 1 2), .tm (termSubSet (termNewVar 23) true), .alo 27 12,
          .tm (termNew false .alo 2 30)]) := by
    decide +kernel
  obtain ⟨m, hm, hst⟩ := Option.map_eq_some_iff.mp hrun
  simp only [Prod.mk.injEq, List.cons.injEq, and_true] at hst
  obtain ⟨hstack, hmode, h12, h27, h30, h32⟩ := hst
  have hreach : Relation.ReflTransGen (Step fun _ => 0) (startAt reentrant 1) m :=
    Relation.ReflTransGen.mono (fun _ _ hs => hs.2) _ _ (advance_reaches hm)
  refine ⟨reentrant, fun _ => 0, 1, m, reentrant_loaded, hreach, fun ho => ?_⟩
  have hhole : ∀ l, l ≠ 26 → l ≠ 31 → ∀ f ∈ m.stack, frameHole f ≠ some l := by
    intro l h26 h31 f hf
    rw [hstack] at hf
    simp only [List.mem_cons, List.not_mem_nil, or_false] at hf
    rcases hf with rfl | rfl
    · exact fun h => h31 (Option.some.inj h).symm
    · exact fun h => h26 (Option.some.inj h).symm
  -- one occurrence is at hand
  have hcur : Live m .cur (termNewVar 23) := by
    have hh := Live.cur (m := m)
    rwa [hmode] at hh
  -- the other one is the value of `y₁` in the right operand
  have hop : Live m (.frame 0 0) (termNew false .op2 0 31) :=
    .frame (by rw [hstack]; rfl) rfl
  have halo : Live m (.cell 32) (termNew false .alo 2 30) :=
    .cell hop (by simp [nextCells, refCells, termNew, termArity, tagArity])
      (hhole 32 (by decide) (by decide)) h32
  have hread : aloRead m.rt (termNew false .alo 2 30) = (30, 27, 12) := by
    simp [aloRead, termNew, extMask, h30]
  have hy1 : heapRead m.rt 12 = termNew false .bj1 1 2 := by
    rw [heapRead, h12]
    rfl
  have hsub : BookSub m.rt (heapRead m.rt 12) [] (termNew false .bj1 1 2) := by
    rw [hy1]
    exact .here _
  have hdp : Live m (.under (.cell 32) []) (termNewDp1 1 27) :=
    .under halo rfl hread hsub rfl (by decide)
  have hvar : Live m (.cell 27) (termNewVar 23) :=
    .cell hdp (by simp [nextCells, refCells, termNewDp1, termNew])
      (hhole 27 (by decide) (by decide)) h27
  cases ho.vars _ _ _ _ hcur hvar rfl rfl rfl

end Hvm
