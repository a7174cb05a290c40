import Hvm.Parse.Lists
import Hvm.Parse.Owned

/-! The work stack of `count_uses`: how far it grows on a term, and what is counted while it
stays in its buffer. -/

namespace Hvm

open Effect

/-- The most entries the stack takes for the fields of a popped node: the fields wait below the
last one, which is walked first. -/
def Fields.spread : Fields → Nat
  | nil => 0
  | cons _ sub rest => max (rest.spread + 1) sub.spread

/-- The most entries the stack takes from `ks` on, once its top is popped. -/
def peak : List (Term × Fields) → Nat
  | [] => 0
  | k :: ks => max (k.2.spread + ks.length) (peak ks)

/-- The nodes still to be walked. -/
def pending (ks : List (Term × Fields)) : Nat := (ks.map fun k => 1 + k.2.words.length).sum

namespace Fields

theorem length_le_spread (F : Fields) : F.length ≤ F.spread := by
  induction F with
  | nil => exact Nat.le_refl _
  | cons w sub rest _ ih =>
    rw [length, spread]
    omega

theorem kids_length (F : Fields) : F.kids.length = F.length := by
  induction F with
  | nil => rfl
  | cons w sub rest _ ih => rw [kids, length, List.length_cons, ih]

/-- Pushing the fields of a node takes the stack to the node's own peak. -/
theorem peak_kids (F : Fields) (ks : List (Term × Fields)) :
    max (F.length + ks.length) (peak (F.kids.reverse ++ ks)) =
      max (F.spread + ks.length) (peak ks) := by
  induction F generalizing ks with
  | nil =>
    rw [length, spread, kids, List.reverse_nil, List.nil_append]
  | cons w sub rest _ ih =>
    have hrest := ih ((w, sub) :: ks)
    have happ : (cons w sub rest).kids.reverse ++ ks = rest.kids.reverse ++ (w, sub) :: ks := by
      rw [kids, List.reverse_cons, List.append_assoc, List.singleton_append]
    have hpeak : peak ((w, sub) :: ks) = max (sub.spread + ks.length) (peak ks) := rfl
    rw [List.length_cons] at hrest
    rw [happ, length, spread]
    omega

theorem pending_kids (F : Fields) : pending F.kids = F.words.length := by
  induction F with
  | nil => rfl
  | cons w sub rest _ ih =>
    have hcons : pending ((w, sub) :: rest.kids) = 1 + sub.words.length + pending rest.kids := rfl
    rw [kids, hcons, ih, words, List.length_cons, List.length_append]
    omega

end Fields

theorem pending_append (ks ks' : List (Term × Fields)) :
    pending (ks ++ ks') = pending ks + pending ks' := by
  rw [pending, List.map_append, List.sum_append, pending, pending]

theorem pending_reverse (ks : List (Term × Fields)) : pending ks.reverse = pending ks := by
  rw [pending, List.map_reverse, List.sum_reverse, pending]

variable {rt : Rt} {d : DupTarget}

/-- The loop counts the hits in all terms of the stack, unless their peak is past the buffer. -/
theorem countUsesLoop_eq {ks : List (Term × Fields)} {fuel u : Nat}
    (hk : ∀ k ∈ ks, Counted rt k) (hfuel : pending ks ≤ fuel) :
    countUsesLoop rt d fuel (ks.map Prod.fst) u =
      if peak ks ≤ countUsesCap then
        .ok (u + (ks.map fun k => (k.1 :: k.2.words).countP d.hits).sum)
      else .error .overrun := by
  induction fuel generalizing ks u with
  | zero =>
    cases ks with
    | nil => rfl
    | cons k ks =>
      have hcons : pending (k :: ks) = 1 + k.2.words.length + pending ks := rfl
      omega
  | succ fuel ih =>
    cases ks with
    | nil => rfl
    | cons k ks =>
      obtain ⟨t, F⟩ := k
      obtain ⟨hlen, hstored, hsmall⟩ := hk _ List.mem_cons_self
      have hkids := hstored.counted_kids hsmall
      have hstack : ((kidLocs t).map (heapRead rt)).reverse ++ ks.map Prod.fst =
          (F.kids.reverse ++ ks).map Prod.fst := by
        rw [kidLocs_eq_range hlen hsmall, List.map_append, List.map_reverse, hstored.kids_fst]
      have hnew : ∀ k ∈ F.kids.reverse ++ ks, Counted rt k := by
        intro k hk'
        rcases List.mem_append.mp hk' with hk' | hk'
        · exact hkids k (List.mem_reverse.mp hk')
        · exact hk k (List.mem_cons_of_mem _ hk')
      have hcons : pending ((t, F) :: ks) = 1 + F.words.length + pending ks := rfl
      have hpend : pending (F.kids.reverse ++ ks) ≤ fuel := by
        rw [pending_append, pending_reverse, F.pending_kids]
        omega
      have hpeak := F.peak_kids ks
      have htop : peak ((t, F) :: ks) = max (F.spread + ks.length) (peak ks) := rfl
      have hsize : ((F.kids.reverse ++ ks).map Prod.fst).length = F.length + ks.length := by
        rw [List.length_map, List.length_append, List.length_reverse, F.kids_length]
      simp only [List.map_cons, countUsesLoop, hstack, hsize]
      by_cases hroom : countUsesCap < F.length + ks.length
      · have hover : ¬ peak ((t, F) :: ks) ≤ countUsesCap := by omega
        rw [if_pos hroom, if_neg hover]
      · have hloop := ih (u := if d.hits t = true then u + 1 else u) hnew hpend
        rw [if_neg hroom, hloop]
        by_cases hle : peak (F.kids.reverse ++ ks) ≤ countUsesCap
        · have hle' : peak ((t, F) :: ks) ≤ countUsesCap := by omega
          have hsum : ((F.kids.reverse ++ ks).map fun k => (k.1 :: k.2.words).countP d.hits).sum =
              F.words.countP d.hits + (ks.map fun k => (k.1 :: k.2.words).countP d.hits).sum := by
            rw [List.map_append, List.sum_append, List.map_reverse, List.sum_reverse,
              ← Fields.countP_words_kids]
          rw [if_pos hle, if_pos hle', hsum, List.sum_cons, List.countP_cons]
          congr 1
          by_cases hhit : d.hits t = true
          · rw [if_pos hhit, if_pos hhit]
            omega
          · rw [if_neg hhit, if_neg hhit]
            omega
        · have hover : ¬ peak ((t, F) :: ks) ≤ countUsesCap := by omega
          rw [if_neg hle, if_neg hover]

/-- `count_uses` returns the number of occurrences of the target in the term. -/
def CountsUses (rt : Rt) (d : DupTarget) (t : Term) (F : Fields) : Prop :=
  ∃ least, ∀ fuel ≥ least,
    countUsesLoop rt d fuel [t] 0 = .ok ((t :: F.words).countP d.hits)

/-- Every use is counted if and only if the work stack stays in its buffer. -/
theorem countUses_exact_iff {t : Term} {F : Fields} (h : Counted rt (t, F)) (d : DupTarget) :
    CountsUses rt d t F ↔ F.spread ≤ countUsesCap := by
  have hall : ∀ k ∈ [(t, F)], Counted rt k := by
    intro k hk
    rw [List.mem_singleton.mp hk]
    exact h
  have hrun (fuel : Nat) (hf : pending [(t, F)] ≤ fuel) :
      countUsesLoop rt d fuel [t] 0 = if F.spread ≤ countUsesCap then
        .ok ((t :: F.words).countP d.hits) else .error .overrun := by
    have hloop := countUsesLoop_eq (d := d) (u := 0) hall hf
    have hpeak : peak [(t, F)] = F.spread := Nat.max_zero _
    rw [hpeak] at hloop
    simpa using hloop
  constructor
  · rintro ⟨least, hcount⟩
    by_contra hcap
    have hf := hcount (max least (pending [(t, F)])) (Nat.le_max_left _ _)
    rw [hrun _ (Nat.le_max_right _ _), if_neg hcap] at hf
    cases hf
  · intro hcap
    refine ⟨pending [(t, F)], fun fuel hf => ?_⟩
    rw [hrun fuel hf, if_pos hcap]

/-! ### Strings -/

theorem IsChr.fields {e : Term} {c : Nat} (h : IsChr rt e c) :
    ∃ E : Fields, E.length = 1 ∧ E.Stored rt e.val ∧ E.cells e.val = [e.val] ∧ E.spread = 1 :=
  ⟨.cons (termNewNum c) .nil .nil, rfl, ⟨h.2.2.1, rfl, trivial, trivial⟩, rfl, rfl⟩

/-- The tails of a chain all wait on the stack. -/
theorem ConChain.fields {t : Term} {es : List Term} {cs : List Nat} (h : ConChain rt t es)
    (hcs : List.Forall₂ (IsChr rt) es cs) :
    ∃ F : Fields, F.length = termArity t ∧ F.Stored rt t.val ∧
      (∀ c ∈ F.cells t.val, c < rt.next) ∧ max 1 F.spread = es.length + 1 := by
  induction h generalizing cs with
  | nil => exact ⟨.nil, rfl, trivial, fun c hc => (List.not_mem_nil hc).elim, rfl⟩
  | @cons t e t' es htag hext he ht hlt _ ih =>
    cases hcs with
    | @cons _ c _ cs hchr hcs =>
      obtain ⟨E, hE, hEs, hEc, hEp⟩ := hchr.fields
      obtain ⟨F, hF, hFs, hFc, hFp⟩ := ih hcs
      have hlen : termArity t = 2 := by simp [termArity, htag, tagArity]
      have hone : termArity e = 1 := by simp [termArity, hchr.1, tagArity]
      refine ⟨.cons e E (.cons t' F .nil), hlen.symm,
        ⟨he, hE.trans hone.symm, hEs, ht, hF, hFs, trivial⟩, fun c hc => ?_, ?_⟩
      · simp only [Fields.cells, hEc, List.mem_cons, List.mem_append, List.append_nil,
          List.not_mem_nil, or_false] at hc
        have hval := hchr.2.2.2
        rcases hc with rfl | rfl | rfl | hc
        · omega
        · exact hval
        · exact hlt
        · exact hFc c hc
      · simp only [Fields.spread, hEp, List.length_cons]
        omega

theorem IsString.counted {t : Term} {cs : List Nat} (h : IsString rt t cs)
    (hsmall : rt.next ≤ 2 ^ 32) : ∃ F, Counted rt (t, F) ∧ max 1 F.spread = cs.length + 1 := by
  obtain ⟨es, hes, hcs⟩ := h
  obtain ⟨F, hF, hFs, hFc, hFp⟩ := hes.fields hcs
  refine ⟨F, ⟨hF, hFs, fun c hc => ?_⟩, ?_⟩
  · have hlt := hFc c hc
    omega
  · rw [hFp, hcs.length_eq]

/-- The parsed string of `k` letters. -/
theorem letters_counted (k : Nat) (hcap : k ≤ literalCap) :
    ∃ t q F, parseTermStr (k + 1) (atText (letters k)) = .ok (t, q) ∧ Counted q.rt (t, F) ∧
      max 1 F.spread = k + 1 := by
  have htext := letters_text k (p := atText (letters k)) rfl
  have hlen : (List.replicate k 97).length = k := List.length_replicate
  have hroom : literalCap = 4096 := rfl
  have hheap : 2 ^ 20 ≤ heapCap := by decide
  have hnext : (((atText (letters k)).past (k + 1)).past 1).rt.next = 1 := rfl
  rcases parseTermStr_builds (n := k + 1) htext (by omega) (by omega) with
    ⟨t, q, hrun, hext, hstr⟩ | ⟨-, hout⟩
  · have hq := hext.next
    obtain ⟨F, hF, hFp⟩ := hstr.counted (by omega)
    exact ⟨t, q, F, hrun, hF, by omega⟩
  · omega

theorem letter_counts_uses :
    ∃ t q F, parseTermStr 2 (atText (letters 1)) = .ok (t, q) ∧ CountsUses q.rt ⟨.bjv, 1, 0⟩ t F := by
  obtain ⟨t, q, F, hrun, hF, hFp⟩ := letters_counted 1 (by decide)
  have hcap : countUsesCap = 1024 := rfl
  exact ⟨t, q, F, hrun, (countUses_exact_iff hF _).mpr (by omega)⟩

/-- A string of 1024 letters takes the stack past its buffer. -/
theorem letters_overrun_stack :
    ∃ t q F, parseTermStr 1025 (atText (letters 1024)) = .ok (t, q) ∧ Counted q.rt (t, F) ∧
      ¬ CountsUses q.rt ⟨.bjv, 1, 0⟩ t F := by
  obtain ⟨t, q, F, hrun, hF, hFp⟩ := letters_counted 1024 (by decide)
  have hcap : countUsesCap = 1024 := rfl
  have hall : ∀ k ∈ [(t, F)], Counted q.rt k := by
    intro k hk
    rw [List.mem_singleton.mp hk]
    exact hF
  have hpeak : peak [(t, F)] = F.spread := Nat.max_zero _
  refine ⟨t, q, F, hrun, hF, ?_⟩
  rintro ⟨least, hcount⟩
  have hrun := countUsesLoop_eq (d := ⟨.bjv, 1, 0⟩) (u := 0) hall
    (Nat.le_max_right least (pending [(t, F)]))
  rw [hpeak, if_neg (by omega)] at hrun
  have hfuel := hcount _ (Nat.le_max_left least (pending [(t, F)]))
  rw [List.map_cons, List.map_nil] at hrun
  rw [hrun] at hfuel
  cases hfuel

end Hvm
