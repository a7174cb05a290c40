import Hvm.Cnf.Linear
import Hvm.Linear.Run
import Hvm.Trace

/-! Runs of `cnf` from a closed book term, and the variables their results keep. -/

namespace Hvm

open LinearHeap

namespace Cnf

/-- An undisturbed step of `cnf`. -/
def Turn (book : BookTable) (c c' : Cnf) : Prop := c.Undisturbed ∧ Step book c c'

/-- One step from a state that satisfies `Q`, computed. -/
def step? (Q : Cnf → Prop) [DecidablePred Q] (book : BookTable) (c : Cnf) : Option Cnf :=
  if Q c then
    match step book c with
    | .next d => some d
    | _ => none
  else none

/-- `cnf` called on the book term at `loc`. -/
def startAt (rt : Rt) (loc : Nat) : Cnf := start rt (termNew false .alo 0 loc)

variable {P : Term → Prop} {K : Statics} {σ : Toks} {rt : Rt} {book : BookTable} {loc : Nat}
  {c d : Cnf}

theorem step?_step {Q : Cnf → Prop} [DecidablePred Q] (h : step? Q book c = some d) :
    Q c ∧ Step book c d := by
  unfold step? at h
  split_ifs at h with hQ
  refine ⟨hQ, ?_⟩
  split at h
  next d' hs => rw [Step, hs, Option.some.inj h]
  next => cases h

theorem trace_steps {Q : Cnf → Prop} [DecidablePred Q] {n : Nat}
    (h : trace (step? Q book) n c = some d) :
    Relation.ReflTransGen (fun c d => Q c ∧ Step book c d) c d :=
  Relation.ReflTransGen.mono (fun _ _ => step?_step) _ _ (trace_reaches h)

/-- Along an undisturbed run `cnf` stays linear, for any `P` that holds of the leaves met. -/
theorem turns_linear (hb : BookOk K book) (hσ : ∀ x ∈ σ, ¬ x.Pins) (h : Cnf.Linear P K σ c)
    (hP : ∀ d w depth, Relation.ReflTransGen (Turn book) c d →
      d.mode = .wnf [] (.apply w) depth → Whnf d.rt w → w.tag.isCnfLeaf = true → P w)
    (hr : Relation.ReflTransGen (Turn book) c d) :
    ∃ K', K.Le K' ∧ BookOk K' book ∧ Cnf.Linear P K' σ d := by
  induction hr with
  | refl => exact ⟨K, Frozen.Le.refl K, hb, h⟩
  | tail hr hs ih =>
    obtain ⟨K', hK, hb', h'⟩ := ih
    obtain ⟨K'', hK', h''⟩ := step_linear hb' hσ h' hs.1 (fun w depth => hP _ w depth hr) hs.2
    exact ⟨K'', hK.trans hK', hb'.mono hK', h''⟩

theorem startAt_linear (hl : Loaded rt book loc) : Cnf.Linear P (statics rt) 0 (startAt rt loc) := by
  have hown : Has (statics rt) rt [.word (termNew false .alo 0 loc)] (stackToks [] + 0) :=
    hl.linearised.own
  rw [stackToks, List.map_nil, List.sum_nil, zero_add] at hown
  exact ⟨0, .nil, hown⟩

end Cnf

variable {rt rt' : Rt} {book : BookTable} {loc : Nat} {t : Term}

end Hvm
