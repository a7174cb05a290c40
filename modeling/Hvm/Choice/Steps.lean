import Hvm.Choice.Run
import Hvm.Steps
import Hvm.Trace

/-! Step-by-step evaluation of first-order programs. A rebuild puts the word at hand back under
its frames, and the rebuilt term has the value of the whole. -/

namespace Hvm.Choice

open Oracle Hvm.Machine

variable {K : Statics} {rt : Rt} {book : BookTable} {loc : Nat} {e : Expr} {t w cur : Term} {f : Frame}
  {stack : List Frame} {S : List Res} {d D : Den} {m r R : ℚ} {σ τ : Toks} {s s' : Stepper}

/-- The frame gets the word it waits for. -/
theorem rebuildFrame_yields {e : Den} (hw : Waits (.tm t) d m e r S) (h : Has K rt (S ++ [.word w d m]) τ) :
    Yields K τ e r (rebuildFrame rt t w) := by
  generalize hf : Frame.tm t = f at hw
  cases hw with
  | @first t' s _ dy _ _ hp hs hop hr =>
    obtain rfl := Frame.tm.inj hf
    have hout : rebuildFrame rt t w = (heapSet rt t.val w, t) := by
      unfold rebuildFrame
      rcases hop with ht | ht | ht | ht <;> rw [ht]
    have hlen : s.arity = 2 := by
      rcases hop with ht | ht | ht | ht <;> rw [ht] at hs <;> obtain rfl := Option.some.inj hs <;> rfl
    rw [hout]
    have h : Has K rt [.hole t.val, .cell (t.val + 1) dy m, .word w d m] τ := h
    have h := h.store 0 2 rfl rfl (by decide)
    have h := h.close₂ r 3 1 rfl rfl (by decide) hp hs hlen hr hr
    exact h.yield 4 rfl rfl
  | second hp ht hv hr =>
    obtain rfl := Frame.tm.inj hf
    have hout : rebuildFrame rt t w = termNewOp2 rt t.ext (termNewNum t.val) w := by
      unfold rebuildFrame
      rw [ht]
      dsimp only
      rw [u32, Nat.mod_eq_of_lt hv]
    rw [hout]
    have h : Has K rt [.word w d m] τ := h
    have h := h.imm (numWord (r := m) hv)
    have h := h.newNode₂ .op2 t.ext r 1 0 rfl rfl rfl hp.2 rfl hr hr (by decide)
    exact h.yield 2 rfl rfl
  | @right t' a _ da _ _ ht ha hopen hr =>
    obtain rfl := Frame.tm.inj hf
    have hout : rebuildFrame rt t w = (heapSet rt (t.val + 1) w, termNew false .eql 0 t.val) := by
      unfold rebuildFrame
      rw [ht]
    rw [hout]
    have h : Has K rt [.filled t.val (.tm a), .word a da m, .hole (t.val + 1), .word w d m] τ := h
    have hsame : heapSet rt t.val a = rt := by
      rw [heapSet, Rt.set, ← h.filled_eq 0 rfl, Function.update_eq_self]
    have h := (h.forget 0 rfl).store 4 1 rfl rfl (by decide)
    rw [hsame] at h
    have h := h.store 2 3 rfl rfl (by decide)
    have h := h.close₂ (t := termNew false .eql 0 t.val) (s := .eql) r 5 6 rfl rfl (by decide)
      (termNew_plain _ _ _) rfl rfl hr hr
    exact h.yield 7 rfl rfl
  | @dup t' x _ _ _ hp ht hr =>
    obtain rfl := Frame.tm.inj hf
    have hout : rebuildFrame rt t w = (heapSet rt t.val w, t) := by
      unfold rebuildFrame
      rw [ht]
      cases x <;> rfl
    rw [hout]
    have h : Has K rt [.taken t.val t.ext x d m, .word w d m] τ := h
    have h := h.putBack r 0 1 rfl rfl hp ht hr (by decide)
    exact h.yield 2 rfl rfl

/-- The rebuilt term has the value of the whole. -/
theorem wnfRebuild_yields (hf : Frames K D R stack d m σ) (h : Has K rt [.word w d m] (σ + τ)) :
    ∃ rt' w', wnfRebuild rt w stack = (rt', w', []) ∧ Yields K τ D R (rt', w') := by
  induction hf generalizing rt w with
  | nil =>
    rw [zero_add] at h
    exact ⟨rt, w, rfl, h⟩
  | @cons f stack d e m r S σs σ hw hS _ ih =>
    rw [add_assoc] at h
    obtain ⟨t, rfl⟩ : ∃ t, f = .tm t := by
      cases hw <;> exact ⟨_, rfl⟩
    exact ih (rebuildFrame_yields hw (LinearHeap.Ledger.restore hS h))

/-! ### The loop -/

/-- The cell at `loc`, in hand with the term it holds. -/
abbrev cellTok (loc : Nat) (cur : Term) : Toks := {.held loc (some (.tm cur))}

/-- The term in the cell stands for `D`, or is being reduced to one that does. -/
def Stepping (D : Den) (R : ℚ) (s : Stepper) : Prop :=
  ∃ K : Statics, match s.mode with
    | .look rt => Has K rt [.word (heapRead rt s.loc) D R] (cellTok s.loc (heapRead rt s.loc))
    | .call rt cur => Has K rt [.word cur D R] (cellTok s.loc cur)
    | .run cur _ m => Computes K D R (cellTok s.loc cur) m

theorem cellTok_not_pins : ∀ t ∈ cellTok loc cur, ¬ t.Pins := by
  intro t ht
  rw [Multiset.mem_singleton.mp ht]
  exact id

/-- The result is written to the cell. -/
theorem cellTok_write (h : Has K rt [.word w D R] (cellTok loc cur)) :
    Has K (heapSet rt loc w) [.word w D R] (cellTok loc w) := by
  obtain ⟨σs, hS, hI⟩ := LinearHeap.Ledger.list_iff.mp h
  refine LinearHeap.Ledger.list_iff.mpr ⟨σs, hS, ?_⟩
  rw [add_comm] at hI ⊢
  exact LinearHeap.Meaning.Inv.write (LinearHeap.Meaning.Inv.forget hI) (.tm w)

theorem start_computes (h : Has K rt [.word cur D R] τ) : Computes K D R τ (Hvm.start rt cur) := by
  refine ⟨D, R, 0, .nil, ?_, fun w hw => (by cases hw)⟩
  rw [zero_add]
  exact h

/-- What a turn of `wnf_steps_at` comes to. -/
def StepsTo (D : Den) (R : ℚ) : StepsOutcome → Prop
  | .next s => Stepping D R s
  | .done _ w => ∀ c, Shows w (D c)
  | .exit f => f = .outOfHeap

/-- `wnf` has returned a term with the value; without an interaction it is the last one. -/
theorem returned_to {itrs : Nat} (h : Has K rt [.word w D R] (cellTok s.loc cur))
    (hs : rt.itrs = itrs → ∀ c, Shows w (D c)) : StepsTo D R (s.returned cur itrs rt w) := by
  unfold Stepper.returned
  dsimp only
  by_cases hne : w ≠ cur
  · rw [if_pos hne]
    split_ifs with hitrs
    · exact hs hitrs
    · exact ⟨K, cellTok_write h⟩
  · rw [if_neg hne]
    rw [not_not] at hne
    subst hne
    split_ifs with hitrs
    · exact hs hitrs
    · exact ⟨K, h⟩

theorem returnRebuilt_cases (hf : Frames K D R stack d m σ) (h : Has K rt [.word w d m] (σ + τ)) :
    returnRebuilt rt w stack = .exit .outOfHeap ∨
      ∃ rt' w', returnRebuilt rt w stack = .done rt' w' ∧ rt'.itrs = rt.itrs ∧ Has K rt' [.word w' D R] τ := by
  obtain ⟨rt', w', hr, h'⟩ := wnfRebuild_yields hf h
  have hitrs := wnfRebuild_itrs rt w stack
  unfold returnRebuilt
  rw [hr] at hitrs ⊢
  dsimp only
  split_ifs
  · exact .inr ⟨rt', w', rfl, hitrs, h'⟩
  · exact .inl rfl

/-- A turn under the limit: `wnf` goes on, returns the rebuilt term, or returns by itself. -/
theorem limitedTurn_cases (book : BookTable) (lim : Nat) {c : Machine} (hτ : ∀ t ∈ τ, ¬ t.Pins) (h : Computes K D R τ c) :
    Goes K D R τ (limitedTurn book lim c) ∨ limitedTurn book lim c = .exit .outOfHeap ∨
      (∃ rt w, limitedTurn book lim c = .done rt w ∧ lim ≤ rt.itrs ∧ Has K rt [.word w D R] τ) ∨
      ∃ rt w, limitedTurn book lim c = .done rt w ∧ c = ⟨rt, [], .apply w⟩ := by
  by_cases hlim : c.limited lim = true
  · obtain ⟨rt, stack, md⟩ := c
    obtain ⟨d, m, σ, hf, h, -⟩ := h
    have hitrs : lim ≤ rt.itrs := by
      unfold limited at hlim
      dsimp only at hlim
      split at hlim <;> first
        | exact of_decide_eq_true hlim
        | cases hlim
    have hout : limitedTurn book lim ⟨rt, stack, md⟩ = returnRebuilt rt md.word stack := by
      unfold limitedTurn
      rw [if_pos hlim]
      cases md <;> rfl
    rw [hout]
    rcases returnRebuilt_cases hf h with hr | ⟨rt', w', hr, hsame, h'⟩
    · exact .inr (.inl hr)
    · exact .inr (.inr (.inl ⟨rt', w', hr, by rwa [hsame], h'⟩))
  · have hout : limitedTurn book lim c = turn book c := by
      unfold limitedTurn
      rw [if_neg hlim]
    rw [hout]
    rcases turn_goes book hτ h with hgo | ⟨rt, w, rfl⟩
    · exact .inl hgo
    · exact .inr (.inr (.inr ⟨rt, w, rfl, rfl⟩))

theorem head_shows {ω : Toks} (hw : Word K w D R ω) (ht : w.tag.isReduced = true) : ∀ c, Shows w (D c) := by
  intro c
  have hfo := hw.isFirstOrder
  unfold Shows
  cases htag : w.tag <;> rw [htag] at hfo ht <;> first
    | (cases hfo; done)
    | (cases ht; done)
    | skip
  case era => exact congrFun (hw.era_inv htag) c
  case ctr ari =>
    obtain ⟨ds, hlen, hd⟩ := hw.ctr_inv htag
    exact ⟨_, by rw [List.length_map, hlen], hd c⟩
  case num => exact congrFun (hw.num_inv htag).2 c
  all_goals trivial

theorem Stepping.step (book : BookTable) (h : Stepping D R s) : StepsTo D R (s.step book) := by
  obtain ⟨loc, md⟩ := s
  obtain ⟨K, h⟩ := h
  cases md with
  | look rt =>
    have h : Has K rt [.word (heapRead rt loc) D R] (cellTok loc (heapRead rt loc)) := h
    unfold Stepper.step
    dsimp only
    split_ifs with ht
    · obtain ⟨ω, hw⟩ := h.word_of 0 rfl
      exact head_shows hw ht
    · exact ⟨K, h⟩
  | call rt cur =>
    have h : Has K rt [.word cur D R] (cellTok loc cur) := h
    exact ⟨K, start_computes h⟩
  | run cur itrs c =>
    have h : Computes K D R (cellTok loc cur) c := h
    unfold Stepper.step
    dsimp only
    rcases limitedTurn_cases book (itrs + 1) cellTok_not_pins h with
      ⟨c', K', hc, -, h'⟩ | hc | ⟨rt, w, hc, hitrs, h'⟩ | ⟨rt, w, hc, rfl⟩
    · rw [hc, checkHeap]
      split_ifs
      · exact ⟨K', h'⟩
      · exact rfl
    · rw [hc]
      exact rfl
    · rw [hc]
      exact returned_to (s := ⟨loc, .run cur itrs c⟩) h' fun he => by omega
    · rw [hc]
      have hanswer := h.answer
      obtain ⟨d, m, σ, hf, h', -⟩ := h
      cases hf with
      | nil =>
        rw [zero_add] at h'
        exact returned_to (s := ⟨loc, .run cur itrs _⟩) h' fun _ => hanswer

end Hvm.Choice
