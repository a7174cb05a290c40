import Hvm.Choice.Machine
import Hvm.Linear.Run

/-! Runs of `wnf` from a closed first-order book term. -/

namespace Hvm.Choice

open Oracle Hvm.Machine

/-- The heap holds, at `loc`, a closed book term whose dup variables are used at most once a
side, and which reads as the expression `e`. -/
structure Program (rt : Rt) (loc : Nat) (e : Expr) : Prop where
  term : ∃ b, statics rt loc = some (.tm b) ∧ BookTm (statics rt) 0 b 0 ∧ Reads (statics rt) b e
  nesting : e.nesting ≤ 2 ^ 16

/-- What the head of a weak normal form says about the value. -/
def Shows (w : Term) (v : Val) : Prop :=
  match w.tag with
  | .num => v = .num w.val
  | .era => v = .era
  | .any => v = .any
  | .ctr ari => ∃ vs, vs.length = ari.val ∧ v = .ctr w.ext vs
  | .op2 | .and | .or | .dp0 | .dp1 => v.Stuck
  | .sup | .inc => True
  | _ => False

variable {K K' : Statics} {rt rt' : Rt} {book : BookTable} {loc : Nat} {e : Expr} {w : Term}
  {d D : Den} {m r R : ℚ} {σ τ : Toks} {c c' : Machine}

/-- A heap of static cells. -/
theorem statics_inv (rt : Rt) : Linear (statics rt) rt 0 := by
  refine ⟨fun _ => .free, ⟨?_, ?_, fun _ => trivial, fun _ _ => rfl, ?_, ?_⟩, fun _ => trivial⟩
  · simp [LinearHeap.total, LinearHeap.CellSt.content]
  · simp [LinearHeap.total, LinearHeap.CellSt.content]
  · intro l c hc
    unfold statics at hc
    split_ifs at hc with hl
    exact ⟨rfl, Option.some.inj hc, hl⟩
  · intro l t ht
    cases ht

theorem Program.computes (h : Program rt loc e) : Computes (statics rt) e.value R 0 (startAt rt loc) := by
  obtain ⟨b, hb, hbook, hreads⟩ := h.term
  have hw : Word (statics rt) (termNew false .alo 0 loc) e.value R 0 :=
    .book (termNew_plain _ _ _) rfl rfl hb hbook hreads h.nesting
  refine ⟨e.value, R, 0, .nil, ?_, fun w hw => (by cases hw)⟩
  have hlin : Linear (statics rt) rt (([0] : List Toks).sum + (0 + 0)) := statics_inv rt
  exact LinearHeap.Ledger.list_iff.mpr ⟨[0], .cons hw .nil, hlin⟩

/-- A state with nothing left to do. -/
theorem Computes.answer (h : Computes K D R τ ⟨rt, [], .apply w⟩) : ∀ s, Shows w (D s) := by
  obtain ⟨d, m, σ, hf, h, hs⟩ := h
  have hs := hs w rfl
  cases hf with
  | nil =>
    obtain ⟨ω, hw⟩ := h.word_of 0 rfl
    have hw : Word K w D R ω := hw
    intro s
    by_cases hh : isHead w.tag = true
    · unfold Shows
      cases ht : w.tag <;> rw [ht] at hh <;> first | (cases hh; done) | skip
      case num => exact congrFun (hw.num_inv ht).2 s
      case era => exact congrFun (hw.era_inv ht) s
      case any => exact congrFun (hw.any_inv ht) s
      case ctr ari =>
        obtain ⟨ds, hlen, hd⟩ := hw.ctr_inv ht
        exact ⟨_, by rw [List.length_map, hlen], hd s⟩
      all_goals trivial
    · have hstuck := hs.stuck (by simpa using hh) s
      unfold Settled at hs
      unfold Shows
      cases ht : w.tag <;> rw [ht] at hs hh <;> first
        | exact hstuck
        | exact hs.elim
        | exact absurd rfl hh

/-- A step goes on to the same value. -/
theorem step_computes (hτ : ∀ t ∈ τ, ¬ t.Pins) (h : Computes K D R τ c) (hs : Step book c c') :
    ∃ K', K.Le K' ∧ Computes K' D R τ c' := by
  have hturn := checkHeap_next hs
  rcases turn_goes book hτ h with ⟨c₁, K', hc, hK, h'⟩ | ⟨rt, w, rfl⟩
  · rw [hturn] at hc
    obtain rfl := Outcome.next.inj hc
    exact ⟨K', hK, h'⟩
  · cases hturn

theorem run_computes (hτ : ∀ t ∈ τ, ¬ t.Pins) (h : Computes K D R τ c)
    (hr : Relation.ReflTransGen (Step book) c c') : ∃ K', K.Le K' ∧ Computes K' D R τ c' := by
  induction hr with
  | refl => exact ⟨K, LinearHeap.Frozen.Le.refl K, h⟩
  | tail _ hs ih =>
    obtain ⟨K₁, hK₁, h₁⟩ := ih
    obtain ⟨K₂, hK₂, h₂⟩ := step_computes hτ h₁ hs
    exact ⟨K₂, hK₁.trans hK₂, h₂⟩

/-- The machine stops with the value's head, or for want of heap. -/
theorem Computes.outcome (hτ : ∀ t ∈ τ, ¬ t.Pins) (h : Computes K D R τ c) :
    (∀ f, step book c = .exit f → f = .outOfHeap) ∧
      ∀ rt' w, step book c = .done rt' w → ∀ s, Shows w (D s) := by
  rcases turn_goes book hτ h with ⟨c₁, K', hc, -, -⟩ | ⟨rt, w, rfl⟩
  · constructor
    · intro f hf
      rw [step, hc, checkHeap] at hf
      split_ifs at hf
      exact (Outcome.exit.inj hf).symm
    · intro rt' w hd
      have hturn := checkHeap_done hd
      rw [hc] at hturn
      cases hturn
  · constructor
    · intro f hf
      cases hf
    · intro rt' w' hd
      obtain ⟨rfl, rfl⟩ := Outcome.done.inj (checkHeap_done hd)
      exact h.answer

/-- `! x &1 = &1{3, 4}; (x₀ * x₁)` -/
def superposed : Rt where
  heap l := match l with
    | 1 => .tm (termNew false .dup 1 2)
    | 2 => .tm (termNew false .sup 1 4)
    | 3 => .tm (termNew false .op2 2 6)
    | 4 => .tm (termNewNum 3)
    | 5 => .tm (termNewNum 4)
    | 6 => .tm (termNew false .bj0 1 1)
    | 7 => .tm (termNew false .bj1 1 1)
    | _ => .tm Term.zero
  next := 8
  itrs := 0
  fresh := 0
  log := []
def superposedExpr : Expr :=
  .dup 1 (.node (.sup 1) [.num 3, .num 4]) (.node (.op2 2) [.cop false 1 1, .cop true 1 1])

theorem reads_two {K : Statics} {w a b : Term} {s : Shape} {e f : Expr} (hs : Shape.ofTag w.tag w.ext = some s)
    (hn : s.arity = 2) (ha : K w.val = some (.tm a)) (hb : K (w.val + 1) = some (.tm b)) (he : Reads K a e)
    (hf : Reads K b f) : Reads K w (.node s [e, f]) := by
  refine .node (f := fun i => if i = 0 then a else b) hs hn.symm ?_ ?_
  · intro i hi
    have hi : i < 2 := hi
    interval_cases i
    · exact ha
    · exact hb
  · intro i hi
    have hi' : i < 2 := hi
    interval_cases i
    · exact he
    · exact hf

theorem superposed_program : Program superposed 1 superposedExpr := by
  have hK : ∀ l, l < 8 → statics superposed l = some (superposed.heap l) := fun l hl => if_pos hl
  have h3 : BookTm (statics superposed) 0 (termNewNum 3) 0 := .leaf (by decide) rfl
  have h4 : BookTm (statics superposed) 0 (termNewNum 4) 0 := .leaf (by decide) rfl
  have hx0 : BookTm (statics superposed) 1 (termNew false .bj0 1 1) {.cop false 1 1} :=
    .cop (by decide) rfl (by decide) (by decide)
  have hx1 : BookTm (statics superposed) 1 (termNew false .bj1 1 1) {.cop true 1 1} :=
    .cop (by decide) rfl (by decide) (by decide)
  have hsup := BookTm.pair (w := termNew false .sup 1 4) (by decide) rfl rfl (hK 4 (by decide))
    (hK 5 (by decide)) h3 h4
  have hmul := BookTm.pair (w := termNew false .op2 2 6) (by decide) rfl rfl (hK 6 (by decide))
    (hK 7 (by decide)) hx0 hx1
  have hmain := BookTm.dup (w := termNew false .dup 1 2) (by decide) rfl (hK 2 (by decide))
    (hK 3 (by decide)) hsup hmul (by decide)
  refine ⟨⟨_, hK 1 (by decide), ?_, ?_⟩, by decide⟩
  · obtain h0 := hmain.closed
    rw [h0] at hmain
    exact hmain
  · exact .dup rfl (hK 2 (by decide)) (hK 3 (by decide))
      (reads_two (w := termNew false .sup 1 4) rfl rfl (hK 4 (by decide)) (hK 5 (by decide))
        (.num rfl (by decide)) (.num rfl (by decide)))
      (reads_two (w := termNew false .op2 2 6) rfl rfl (hK 6 (by decide)) (hK 7 (by decide))
        (.cop rfl) (.cop rfl))

theorem superposed_run : ∃ rt, Relation.ReflTransGen (Step fun _ => 0) (startAt superposed 1)
    ⟨rt, [], .apply (termNewNum 12)⟩ := by
  have hrun : (advance (fun _ => True) (fun _ => 0) 16 (startAt superposed 1)).map
      (fun c => (c.stack, c.mode)) = some ([], .apply (termNewNum 12)) := by
    decide +kernel
  obtain ⟨⟨rt, stack, md⟩, hc, hst⟩ := Option.map_eq_some_iff.mp hrun
  simp only [Prod.mk.injEq] at hst
  obtain ⟨rfl, rfl⟩ := hst
  exact ⟨rt, Relation.ReflTransGen.mono (fun _ _ hs => hs.2) _ _ (advance_reaches hc)⟩

/-- The frames that reduce a dup cell have taken its share. -/
theorem Frames.dup_mem {stack : List Frame} (h : Frames K D R stack d m σ) {f : Frame} {l : Nat}
    (hf : f ∈ stack) (hl : f.dupCell = some l) : ∃ a x, LinearHeap.Tok.shareHeld l a x ∈ σ := by
  induction h with
  | nil => cases hf
  | @cons g stack d e m r S σs σ hg hS hrest ih =>
    rcases List.mem_cons.mp hf with rfl | hf
    · cases hg with
      | @dup t x _ _ _ hp ht hr =>
        obtain ⟨σ', σs, hσ, hnil, rfl⟩ := List.forall₂_cons_left_iff.mp hS
        cases hnil
        obtain rfl := (hσ : σ' = _)
        have hv : t.val = l := by
          cases x <;> rw [Frame.dupCell, ht] at hl <;> exact Option.some.inj hl
        rw [hv]
        exact ⟨.lab t.ext d m, x, Multiset.mem_add.mpr (.inl (by simp))⟩
      | first hp hs hop hr =>
        rcases hop with ht | ht | ht | ht <;> rw [Frame.dupCell, ht] at hl <;> cases hl
      | second hp ht hv hr | right ht ha hopen hr =>
        rw [Frame.dupCell, ht] at hl
        cases hl
    · obtain ⟨a, x, hm⟩ := ih hf
      exact ⟨a, x, Multiset.mem_add.mpr (.inr hm)⟩

/-- A dup variable is never entered while a frame reduces its cell: the variable has a rank
above the one of its cell, and the frame hands out words of smaller ranks. -/
theorem Computes.undisturbed (h : Computes K D R τ c) : Undisturbed c := by
  obtain ⟨rt, stack, md⟩ := c
  cases md with
  | apply w => trivial
  | enter w =>
    obtain ⟨d, m, σ, hf, h, -⟩ := h
    have h : Has K rt [.word w d m] (σ + τ) := h
    refine ⟨fun ht f hmem hcell => ?_, fun ht => ?_⟩
    · obtain ⟨x, ht⟩ : ∃ x, w.tag = dupTag x := by
        rcases ht with ht | ht
        · exact ⟨false, ht⟩
        · exact ⟨true, ht⟩
      obtain ⟨a, y, hm⟩ := hf.dup_mem hmem hcell
      obtain ⟨n, e, k, rfl, hk⟩ := hf.held hm
      obtain ⟨σs, hS, hI⟩ := LinearHeap.Ledger.list_iff.mp h
      obtain ⟨σ', σs, hw, hnil, rfl⟩ := List.forall₂_cons_left_iff.mp hS
      cases hnil
      obtain ⟨e', k', hk', rfl, rfl⟩ := Word.cop_inv hw ht
      rw [List.sum_singleton] at hI
      have he : Mark.lab w.ext e' k' = Mark.lab n e k :=
        LinearHeap.Meaning.Inv.share_claim hI
          (Multiset.mem_add.mpr (.inl (Multiset.mem_singleton_self _)))
          (Multiset.mem_add.mpr (.inr (Multiset.mem_add.mpr (.inl hm))))
      obtain ⟨-, -, rfl⟩ := Mark.lab.inj he
      exact absurd hk' (not_lt.mpr hk)
    · obtain ⟨loc, ls, tm, bs, ρ, O, e, k, hread, hlen, hk, rfl, h'⟩ := h.openAlo ht
      obtain ⟨ω, ν, ⟨hs, -⟩, -⟩ := h'.holding 1
      obtain ⟨b, hb, hbook, hreads⟩ := hs.book
      have hbread : heapRead rt tm = b := by
        rw [heapRead, h'.static hb]
        rfl
      have hn := hs.nesting
      unfold AloFits
      rw [hread, hbread, ← hlen]
      cases hreads with
      | num ht' | era ht' | any ht' =>
        rw [ht']
        exact ⟨fun h => (by cases h), fun h => (by cases h)⟩
      | node hsh =>
        constructor <;> intro ht' <;> rw [ht'] at hsh <;> cases hsh
      | cop ht' =>
        constructor <;> intro ht'' <;> rw [ht''] at ht' <;> cases ht'
      | dup ht' =>
        rw [ht']
        refine ⟨fun h => (by cases h), fun _ => ?_⟩
        rw [Expr.nesting] at hn
        omega

/-- First-order programs own their heaps linearly in every state. -/
theorem firstOrder_ownsLinearly (hb : BookOk (statics rt) book) (hp : Program rt loc e)
    (hr : Relation.ReflTransGen (Step book) (startAt rt loc) c) : OwnsLinearly c := by
  have hturns : Relation.ReflTransGen (Turn book) (startAt rt loc) c := by
    induction hr with
    | refl => exact .refl
    | tail hr hs ih =>
      obtain ⟨K', -, h⟩ := run_computes (by simp) (hp.computes (R := 0)) hr
      exact ih.tail ⟨h.undisturbed, hs⟩
  obtain ⟨b, hb', hbook, -⟩ := hp.term
  have hload : Loaded rt book loc := ⟨hb, b, hb', hbook⟩
  obtain ⟨K', -, hlin⟩ := turns_linear hb (by simp) hload.linearised hturns
  exact hlin.ownsLinearly

theorem firstOrder_ownsLinearly_superposed :
    (∀ c, Relation.ReflTransGen (Step fun _ => 0) (startAt superposed 1) c → OwnsLinearly c) ∧
      ∃ rt, Relation.ReflTransGen (Step fun _ => 0) (startAt superposed 1)
        ⟨rt, [], .apply (termNewNum 12)⟩ := by
  refine ⟨fun c hr => firstOrder_ownsLinearly (fun id h => absurd rfl h) superposed_program hr, ?_⟩
  obtain ⟨rt, hr⟩ := superposed_run
  exact ⟨rt, hr⟩

end Hvm.Choice
