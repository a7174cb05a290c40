import Mathlib

/-! Computations with a state and errors: what a successful run of each combinator did,
and relations that every successful run stays within. A relation that a program's
primitive updates stay within is passed on to its composites by instance resolution, and
postconditions are proved step by step from the state the run starts in. -/

namespace Effect

variable {σ ε α β : Type}

/-! ### Successful runs -/

theorem bind_ok {m : StateT σ (Except ε) α} {f : α → StateT σ (Except ε) β} {s s' : σ}
    {b : β} :
    (m >>= f) s = .ok (b, s') ↔ ∃ a t, m s = .ok (a, t) ∧ f a t = .ok (b, s') := by
  cases h : m s with
  | error e => simp [bind, StateT.bind, Except.bind, h]
  | ok r => simp [bind, StateT.bind, Except.bind, h, Prod.ext_iff]

theorem pure_ok {s s' : σ} {a b : α} :
    (pure a : StateT σ (Except ε) α) s = .ok (b, s') ↔ a = b ∧ s = s' := by
  simp [pure, StateT.pure, Except.pure]

theorem throw_ok {e : ε} {s s' : σ} {a : α} :
    ¬ (throw e : StateT σ (Except ε) α) s = .ok (a, s') := by
  intro h
  cases h

theorem get_ok {s s' t : σ} :
    (get : StateT σ (Except ε) σ) s = .ok (t, s') ↔ s = t ∧ s = s' := by
  simp [get, getThe, MonadStateOf.get, StateT.get, pure, Except.pure]

theorem modify_ok {f : σ → σ} {s s' : σ} {u : Unit} :
    (modify f : StateT σ (Except ε) Unit) s = .ok (u, s') ↔ f s = s' := by
  simp [modify, modifyGet, MonadStateOf.modifyGet, StateT.modifyGet, pure, Except.pure]

theorem ite_ok {c : Prop} [Decidable c] {m m' : StateT σ (Except ε) α} {s s' : σ} {a : α} :
    (if c then m else m') s = .ok (a, s') ↔
      c ∧ m s = .ok (a, s') ∨ ¬ c ∧ m' s = .ok (a, s') := by
  by_cases h : c <;> simp [h]

/-! ### Relations kept by runs -/

/-- Every successful run of `m` leads to a state related to the one it started in. -/
class Within (R : σ → σ → Prop) (m : StateT σ (Except ε) α) : Prop where
  run : ∀ s a s', m s = .ok (a, s') → R s s'

variable {R : σ → σ → Prop}

instance Within.throw (e : ε) : Within R (throw e : StateT σ (Except ε) α) where
  run := fun _ _ _ h => (throw_ok h).elim

variable [IsPreorder σ R]

instance Within.pure (a : α) : Within R (pure a : StateT σ (Except ε) α) where
  run := by
    intro s b s' h
    obtain ⟨-, rfl⟩ := pure_ok.mp h
    exact refl s

instance Within.get : Within R (get : StateT σ (Except ε) σ) where
  run := by
    intro s t s' h
    obtain ⟨-, rfl⟩ := get_ok.mp h
    exact refl s

instance Within.bind {m : StateT σ (Except ε) α} {f : α → StateT σ (Except ε) β}
    [hm : Within R m] [hf : ∀ a, Within R (f a)] : Within R (m >>= f) where
  run := by
    intro s b s' h
    obtain ⟨a, t, h1, h2⟩ := bind_ok.mp h
    exact IsTrans.trans _ _ _ (hm.run s a t h1) ((hf a).run t b s' h2)

omit [IsPreorder σ R] in
instance Within.ite {c : Prop} [Decidable c] {m m' : StateT σ (Except ε) α}
    [hm : Within R m] [hm' : Within R m'] : Within R (if c then m else m') := by
  split <;> assumption

instance Within.foldlM {γ : Type} {f : β → γ → StateT σ (Except ε) β}
    [hf : ∀ b c, Within R (f b c)] (cs : List γ) (b : β) : Within R (cs.foldlM f b) := by
  induction cs generalizing b with
  | nil => exact Within.pure b
  | cons c cs ih =>
    rw [List.foldlM_cons]
    infer_instance

instance Within.foldrM {γ : Type} {f : γ → β → StateT σ (Except ε) β}
    [hf : ∀ c b, Within R (f c b)] (cs : List γ) (b : β) : Within R (cs.foldrM f b) := by
  induction cs with
  | nil => exact Within.pure b
  | cons c cs ih =>
    rw [List.foldrM_cons]
    infer_instance

/-! ### Postconditions

Statements about runs that end in a good state, where goodness is handed back along the
relation that the rest of a run stays within. -/

/-- A state is good when one related to it is. -/
class Past (R : σ → σ → Prop) (good : σ → Prop) : Prop where
  back : ∀ s t, R s t → good t → good s

/-- What every successful run of `m` from `s` to a good state ends in. -/
def Ensures (good : σ → Prop) (s : σ) (m : StateT σ (Except ε) α) (Q : α → σ → Prop) : Prop :=
  ∀ a s', m s = .ok (a, s') → good s' → Q a s'

namespace Ensures

omit [IsPreorder σ R]

variable {good : σ → Prop} {s : σ} {m : StateT σ (Except ε) α}
  {f : α → StateT σ (Except ε) β} {Q : β → σ → Prop} {S S' : α → σ → Prop}

theorem pure {b : β} (h : Q b s) :
    Ensures good s (Pure.pure b : StateT σ (Except ε) β) Q := by
  intro b' s' hr _
  obtain ⟨rfl, rfl⟩ := pure_ok.mp hr
  exact h

theorem throw {e : ε} :
    Ensures good s (MonadExcept.throw e : StateT σ (Except ε) β) Q :=
  fun _ _ h => (throw_ok h).elim

theorem mono (hm : Ensures good s m S) (h : ∀ a t, good t → S a t → S' a t) :
    Ensures good s m S' := fun a t hr hg => h a t hg (hm a t hr hg)

theorem ite {c : Prop} [Decidable c] {m m' : StateT σ (Except ε) β}
    (h : c → Ensures good s m Q) (h' : ¬ c → Ensures good s m' Q) :
    Ensures good s (if c then m else m') Q := by
  split
  · exact h ‹_›
  · exact h' ‹_›

theorem get_bind {g : σ → StateT σ (Except ε) β} (h : Ensures good s (g s) Q) :
    Ensures good s (MonadState.get >>= g) Q := by
  intro b s' hr hg
  obtain ⟨t, t', ht, hr⟩ := bind_ok.mp hr
  obtain ⟨rfl, rfl⟩ := get_ok.mp ht
  exact h b s' hr hg

theorem modify_bind {g : σ → σ} {k : Unit → StateT σ (Except ε) β}
    (h : Ensures good (g s) (k ()) Q) : Ensures good s (modify g >>= k) Q := by
  intro b s' hr hg
  obtain ⟨u, t, ht, hr⟩ := bind_ok.mp hr
  obtain rfl := modify_ok.mp ht
  exact h b s' hr hg

/-- A step of which only the relation it stays within matters. -/
theorem step (R : σ → σ → Prop) [hm : Within R m]
    (hf : ∀ a t, R s t → Ensures good t (f a) Q) : Ensures good s (m >>= f) Q := by
  intro b s' h hg
  obtain ⟨a, t, h1, h2⟩ := bind_ok.mp h
  exact hf a t (hm.run s a t h1) b s' h2 hg

theorem bind (R : σ → σ → Prop) [hp : Past R good] [hf : ∀ a, Within R (f a)]
    (hm : Ensures good s m S) (h : ∀ a t, good t → S a t → Ensures good t (f a) Q) :
    Ensures good s (m >>= f) Q := by
  intro b s' hr hg
  obtain ⟨a, t, h1, h2⟩ := bind_ok.mp hr
  have ht : good t := hp.back t s' ((hf a).run t b s' h2) hg
  exact h a t ht (hm a t h1 ht) b s' h2 hg

end Ensures

end Effect
