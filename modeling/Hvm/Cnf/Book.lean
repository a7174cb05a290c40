import Hvm.Cnf.Collapse

/-! No evaluator writes to the book. -/

namespace Hvm

open LinearHeap

/-- The cells of `rt` are in `rt'` as they were, and evaluation can be started on every book term
again. -/
structure KeepsBook (book : BookTable) (rt rt' : Rt) : Prop where
  next : rt.next ≤ rt'.next
  heap : ∀ l < rt.next, rt'.heap l = rt.heap l
  loaded : ∀ loc, Loaded rt book loc → Loaded rt' book loc

variable {K : Statics} {P : Term → Prop} {rt rt' : Rt} {book : BookTable} {loc limit : Nat}
  {σ τ : Toks} {m : Machine} {c : Cnf} {s : Collapse}

/-- What is frozen is allocated, and as it was. -/
theorem Linear.frozen_le (hl : Linear K rt τ) : K.Le (statics rt) := by
  obtain ⟨st, hI⟩ := hl
  intro l c hc
  obtain ⟨-, hcell, hlt⟩ := hI.frozen l c hc
  rw [statics, if_pos hlt, hcell]

theorem Loaded.mono (h : Loaded rt book loc) (hK : (statics rt).Le (statics rt')) :
    Loaded rt' book loc := by
  obtain ⟨b, hb, hbook⟩ := h.main
  exact ⟨h.defs.mono hK, b, hK _ _ hb, hbook.mono hK⟩

theorem Linear.keepsBook (hK : (statics rt).Le K) (hl : Linear K rt' τ) : KeepsBook book rt rt' := by
  have hle : (statics rt).Le (statics rt') := hK.trans hl.frozen_le
  have hcell (l : Nat) (hlt : l < rt.next) : l < rt'.next ∧ rt'.heap l = rt.heap l := by
    have hh := hle l (rt.heap l) (if_pos hlt)
    unfold statics at hh
    split_ifs at hh with hlt'
    exact ⟨hlt', Option.some.inj hh⟩
  refine ⟨?_, fun l hlt => (hcell l hlt).2, fun loc h => h.mono hle⟩
  by_cases hz : rt.next = 0
  · omega
  · have hlast := (hcell (rt.next - 1) (by omega)).1
    omega

/-- The heap of `cnf` is linear, whatever it does next. -/
theorem Cnf.Linear.heap (h : Cnf.Linear P K σ c) : ∃ τ, Hvm.Linear K c.rt τ := by
  obtain ⟨rt, calls, md⟩ := c
  obtain ⟨τ, -, hm⟩ := h
  cases md with
  | call t depth => exact ⟨_, Own.linear hm⟩
  | wnf stack md depth => exact ⟨_, hm.1.own.linear⟩
  | ret t =>
    obtain ⟨ρ, -, hl⟩ := hm
    exact ⟨_, hl⟩

theorem Collapse.Linear.exists_heap (h : s.Linear K) : ∃ τ, Hvm.Linear K s.rt τ := by
  obtain ⟨rt, ws, out, md⟩ := s
  have hheap := h.heap
  cases md with
  | run key calls md => exact Cnf.Linear.heap hheap
  | pop => exact ⟨_, hheap⟩
  | stop => exact ⟨_, hheap⟩

/-- Along an undisturbed run the machine stays linear, over all that was frozen. -/
theorem turns_frozen (hb : BookOk K book) (hσ : ∀ t ∈ σ, ¬ t.Pins) (h : Linearised K σ m)
    {m' : Machine} (hr : Relation.ReflTransGen (Turn book) m m') :
    ∃ K', K.Le K' ∧ BookOk K' book ∧ Linearised K' σ m' := by
  induction hr with
  | refl => exact ⟨K, Frozen.Le.refl K, hb, h⟩
  | tail _ hs ih =>
    obtain ⟨K₁, hK₁, hb₁, h₁⟩ := ih
    obtain ⟨K₂, hK₂, h₂⟩ := step_linear hb₁ hσ h₁ hs.1 hs.2
    exact ⟨K₂, hK₁.trans hK₂, hb₁.mono hK₂, h₂⟩

theorem Collapse.turns_linear (hb : BookOk K book) (h : s.Linear K) {s' : Collapse}
    (hr : Relation.ReflTransGen (Turn book limit) s s') : ∃ K', K.Le K' ∧ BookOk K' book ∧ s'.Linear K' := by
  induction hr with
  | refl => exact ⟨K, Frozen.Le.refl K, hb, h⟩
  | tail _ hs ih =>
    obtain ⟨K₁, hK₁, hb₁, h₁⟩ := ih
    obtain ⟨K₂, hK₂, h₂⟩ := Collapse.step_linear hb₁ h₁ hs.1 hs.2
    exact ⟨K₂, hK₁.trans hK₂, hb₁.mono hK₂, h₂⟩

/-- In every state of an undisturbed run of `wnf`, of `cnf` and of the collapser the book is what
it was, and every book term can be evaluated again in the heap as it is. -/
theorem evaluators_keep_book (hl : Loaded rt book loc) :
    (∀ m, Relation.ReflTransGen (Turn book) (startAt rt loc) m → KeepsBook book rt m.rt) ∧
    (∀ c, Relation.ReflTransGen (Cnf.Turn book) (Cnf.startAt rt loc) c → KeepsBook book rt c.rt) ∧
    ∀ limit s, Relation.ReflTransGen (Collapse.Turn book limit) (Collapse.startAt rt loc) s →
      KeepsBook book rt s.rt := by
  refine ⟨fun m hr => ?_, fun c hr => ?_, fun limit s hr => ?_⟩
  · obtain ⟨K, hK, -, h⟩ := turns_frozen hl.defs (by simp) hl.linearised hr
    exact Linear.keepsBook hK h.own.linear
  · obtain ⟨K, hK, -, h⟩ := Cnf.turns_linear (P := fun _ => True) hl.defs (by simp)
      (Cnf.startAt_linear hl) (fun _ _ _ _ _ _ _ => trivial) hr
    obtain ⟨τ, h⟩ := h.heap
    exact Linear.keepsBook hK h
  · obtain ⟨K, hK, -, h⟩ := Collapse.turns_linear hl.defs (Collapse.startAt_linear hl) hr
    obtain ⟨τ, h⟩ := h.exists_heap
    exact Linear.keepsBook hK h

/-- When `cnf` has lifted the superposition out of `supField`, the program is still loaded. -/
theorem evaluators_keep_supField : ∃ c : Cnf, c.mode = .ret (termNew false .sup 1 13) ∧
    KeepsBook (fun _ => 0) supField c.rt := by
  have hrun : (trace (Cnf.step? Cnf.Undisturbed fun _ => 0) 14 (Cnf.startAt supField 1)).map (·.mode) =
      some (.ret (termNew false .sup 1 13)) := by
    decide +kernel
  obtain ⟨c, hc, hm⟩ := Option.map_eq_some_iff.mp hrun
  exact ⟨c, hm, (evaluators_keep_book supField_loaded).2.1 c (Cnf.trace_steps hc)⟩

end Hvm
