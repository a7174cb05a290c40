import Hvm.Match.Select

/-! Constructor and numeric cases in one chain. The frame compares EXT only, so a case is
selected by its kind exactly when no case of the other kind has the scrutinee's key first. -/

namespace Hvm.Match

/-- The APP node at `app` has the chain `a` as its function. -/
structure Applied (rt : Rt) (app : Nat) (a : Arm) (t : Term) (cs : List Case) (d : Arm)
    (F : Set Nat) : Prop where
  fn : rt.heap app = .tm t
  chain : Stands rt a t cs d F
  apart : app + 1 ∉ a.cells t
  below : app + 1 < rt.next

/-- `wnf` of a chain with the patterns `ps`, applied to a scrutinee that reduces to a
constructor or number of the kind `k` with the key `key`: the chain waits for the scrutinee
at its first node, and once that is reduced, with the chain as it was, the branch of the
first case of this kind and key is entered, applied to the fields, or else the default,
applied to the scrutinee. -/
def Selects (ps : List (Kind × Nat)) (k : Kind) (key : Nat) : Prop :=
  ∀ (book : BookTable) (rt : Rt) (stack : List Frame) (app : Nat) (a d : Arm) (t : Term)
    (cs : List Case) (F : Set Nat), cs.map Case.pattern = ps → Applied rt app a t cs d F →
    ∃ rt1 mat G, Runs book ⟨rt, stack, .enter (termNew false .app 0 app)⟩
        ⟨rt1, .tm mat :: stack, .enter (heapRead rt (app + 1))⟩ ∧
      Stands rt1 (.word mat) mat cs d G ∧ Within (a.cells t) rt rt1 ∧
      ∀ rt2 w H, Runs book ⟨rt1, .tm mat :: stack, .enter (heapRead rt (app + 1))⟩
          ⟨rt2, .tm mat :: stack, .apply w⟩ →
        Stands rt2 (.word mat) mat cs d H → Scrutinee rt2 w k key H →
        Enters book ⟨rt2, .tm mat :: stack, .apply w⟩ stack (H ∪ fieldCells w)
          (outcome rt2 w k d (cs.find? fun c => c.kind = k ∧ c.key = key))

theorem Applied.enter {rt : Rt} {app : Nat} {a d : Arm} {t : Term} {cs : List Case} {F : Set Nat}
    (h : Applied rt app a t cs d F) (book : BookTable) (stack : List Frame) :
    turn book ⟨rt, stack, .enter (termNew false .app 0 app)⟩ =
      .next ⟨rt, .tm (termNew false .app 0 app) :: stack, .enter t⟩ := by
  have hfn : heapRead rt app = t := by
    rw [heapRead, h.fn]
    rfl
  rw [← hfn]
  rfl

variable {ps : List (Kind × Nat)} {k : Kind} {key : Nat} {cs : List Case}

theorem find_kind (h : ∀ p, (cs.map Case.pattern).find? (·.2 = key) = some p → p.1 = k) :
    cs.find? (·.key = key) = cs.find? fun c => c.kind = k ∧ c.key = key := by
  induction cs with
  | nil => rfl
  | cons c cs ih =>
    by_cases he : c.key = key
    · have hk : c.kind = k := h c.pattern (by simp [Case.pattern, he])
      rw [List.find?_cons_of_pos (by simpa using he),
        List.find?_cons_of_pos (by simpa using ⟨hk, he⟩)]
    · rw [List.find?_cons_of_neg (by simpa using he),
        List.find?_cons_of_neg (by simp [he])]
      refine ih fun p hp => h p ?_
      rw [List.map_cons, List.find?_cons_of_neg (by simp [Case.pattern, he])]
      exact hp

theorem selects_of_apart (hne : ps ≠ [])
    (h : ∀ p, ps.find? (·.2 = key) = some p → p.1 = k) : Selects ps k key := by
  intro book rt stack app a d t cs F hps happ
  subst hps
  cases cs with
  | nil => exact absurd rfl hne
  | cons c cs =>
    obtain ⟨rt1, mat, G, hrun, hs, hw, -⟩ := happ.chain.reach book stack happ.below happ.apart
    refine ⟨rt1, mat, G, .cons (happ.enter book stack) hrun, hs, hw, fun rt2 w H _ hs2 hw2 => ?_⟩
    rw [← find_kind h]
    exact hs2.dispatch hw2

/-! ### A chain of numbered branches -/

/-- The word of the node of case `i`, or the default. -/
def sampleWord (ps : List (Kind × Nat)) (i : Nat) : Term :=
  match ps[i]? with
  | some p => ⟨false, p.1.tag, p.2, 2 * i + 2⟩
  | none => termNewNum i

/-- `(chain w)` at 0; case `i` has the branch `i`, and the default is the number of cases. -/
def sample (ps : List (Kind × Nat)) (w : Term) : Rt where
  heap l :=
    .tm (if l = 0 then sampleWord ps 0 else if l = 1 then w
      else if l % 2 = 0 then termNewNum (l / 2 - 1) else sampleWord ps (l / 2))
  next := 2 * ps.length + 2
  itrs := 0
  fresh := 0
  log := []

def sampleCases : Nat → List (Kind × Nat) → List Case
  | _, [] => []
  | i, p :: ps => ⟨p.1, p.2, .word (termNewNum i)⟩ :: sampleCases (i + 1) ps

theorem sampleCases_pattern (i : Nat) (ps : List (Kind × Nat)) :
    (sampleCases i ps).map Case.pattern = ps := by
  induction ps generalizing i with
  | nil => rfl
  | cons p ps ih => rw [sampleCases, List.map_cons, ih]; rfl

theorem sample_chain (ps : List (Kind × Nat)) (w : Term) (qs : List (Kind × Nat)) {i : Nat}
    (hq : ps.drop i = qs) (hi : i ≤ ps.length) :
    ∃ F, Chain (sample ps w).heap (.word (sampleWord ps i)) (sampleCases i qs)
        (.word (termNewNum ps.length)) F ∧ ∀ l ∈ F, 2 * i + 2 ≤ l ∧ l < 2 * ps.length + 2 := by
  induction qs generalizing i with
  | nil =>
    have hlen : ps.length = i := Nat.le_antisymm (List.drop_eq_nil_iff.mp hq) hi
    have hw : sampleWord ps i = termNewNum ps.length := by
      rw [sampleWord, List.getElem?_eq_none (by omega), hlen]
    rw [hw]
    exact ⟨∅, .default _, fun l hl => hl.elim⟩
  | cons p qs ih =>
    have hlt : i < ps.length := by
      by_contra hc
      rw [List.drop_eq_nil_iff.mpr (by omega)] at hq
      cases hq
    have hp : ps[i]? = some p := by
      have h0 := congrArg (·[0]?) hq
      simpa using h0
    have hw : sampleWord ps i = ⟨false, p.1.tag, p.2, 2 * i + 2⟩ := by
      rw [sampleWord, hp]
    have htail : ps.drop (i + 1) = qs := by
      rw [← List.tail_drop, hq]
      rfl
    obtain ⟨F, hc, hF⟩ := ih htail (by omega)
    rw [hw]
    have h0 : (sample ps w).heap (2 * i + 2) = .tm (termNewNum i) := by
      have hne : 2 * i + 2 ≠ 0 := by omega
      have hne1 : 2 * i + 2 ≠ 1 := by omega
      have hmod : (2 * i + 2) % 2 = 0 := by omega
      have hdiv : (2 * i + 2) / 2 - 1 = i := by omega
      simp only [sample, if_neg hne, if_neg hne1, if_pos hmod, hdiv]
    have h1 : (sample ps w).heap (2 * i + 2 + 1) = .tm (sampleWord ps (i + 1)) := by
      have hne : 2 * i + 2 + 1 ≠ 0 := by omega
      have hne1 : 2 * i + 2 + 1 ≠ 1 := by omega
      have hmod : ¬ (2 * i + 2 + 1) % 2 = 0 := by omega
      have hdiv : (2 * i + 2 + 1) / 2 = i + 1 := by omega
      simp only [sample, if_neg hne, if_neg hne1, if_neg hmod, hdiv]
    refine ⟨_, .node rfl rfl h0 (.word _) h1 (.word _) hc ?_ fun l hl => hl.elim, ?_⟩
    · rintro l ((hl | hl) | hl)
      · exact hl.elim
      · exact hl.elim
      · have hb := hF l hl
        exact ⟨by simp only; omega, by simp only; omega⟩
    · rintro l ((hl | hl) | ((hl | hl) | hl))
      · have hv : l = 2 * i + 2 := hl
        omega
      · have hv : l = 2 * i + 2 + 1 := hl
        omega
      · exact hl.elim
      · exact hl.elim
      · have hb := hF l hl
        omega

def sampleScrutinee (key : Nat) : Kind → Term
  | .ctr => ⟨false, .ctr 0, key, 0⟩
  | .num => ⟨false, .num, 0, key⟩

theorem sampleScrutinee_holds (rt : Rt) (k : Kind) (key : Nat) (F : Set Nat) :
    Scrutinee rt (sampleScrutinee key k) k key F := by
  have hnone : ∀ l, l ∉ fieldCells (sampleScrutinee key k) := by
    rintro l ⟨j, hj, -⟩
    cases k with
    | ctr => exact absurd hj (Nat.not_lt_zero j)
    | num => exact absurd hj (Nat.not_lt_zero j)
  refine ⟨?_, fun l hl => absurd hl (hnone l), fun l hl => absurd hl (hnone l)⟩
  cases k with
  | ctr => exact ⟨⟨0, rfl⟩, rfl⟩
  | num => exact ⟨rfl, rfl⟩

theorem sampleScrutinee_given (rt : Rt) (k : Kind) (key : Nat) :
    given rt (sampleScrutinee key k) k = [] := by
  cases k with
  | ctr => rfl
  | num => rfl

theorem sampleCases_mem {i : Nat} {c : Case} (hc : c ∈ sampleCases i ps) :
    ∃ j p, i ≤ j ∧ ps[j - i]? = some p ∧ c = ⟨p.1, p.2, .word (termNewNum j)⟩ := by
  induction ps generalizing i with
  | nil => cases hc
  | cons p ps ih =>
    rcases List.mem_cons.mp hc with rfl | hc
    · exact ⟨i, p, Nat.le_refl i, by rw [Nat.sub_self]; rfl, rfl⟩
    · obtain ⟨j, q, hij, hq, rfl⟩ := ih hc
      refine ⟨j, q, by omega, ?_, rfl⟩
      have hj : j - i = j - (i + 1) + 1 := by omega
      rw [hj, List.getElem?_cons_succ, hq]

theorem sample_applied (hne : ps ≠ []) (w : Term) :
    ∃ F, Applied (sample ps w) 0 (.word (sampleWord ps 0)) (sampleWord ps 0) (sampleCases 0 ps)
      (.word (termNewNum ps.length)) F := by
  obtain ⟨F, hc, hF⟩ := sample_chain ps w ps (i := 0) rfl (Nat.zero_le _)
  refine ⟨F, rfl, ⟨.word _, hc, fun l hl => hl.elim, ?_⟩, fun hl => hl, ?_⟩
  · rintro l (hl | hl)
    · exact hl.elim
    · exact (hF l hl).2
  · have hpos := List.length_pos_iff.mpr hne
    show 1 < 2 * ps.length + 2
    omega

variable {book : BookTable} {rt : Rt} {m : Machine}

theorem num_runs {n : Nat} (h : Runs book ⟨rt, [], .enter (termNewNum n)⟩ m) :
    m.stack = [] ∧ (m.mode = .enter (termNewNum n) ∨ m.mode = .apply (termNewNum n)) := by
  induction h with
  | refl => exact ⟨rfl, .inl rfl⟩
  | @tail m m' _ hs ih =>
    obtain ⟨rt, stack, mode⟩ := m
    obtain ⟨hst, hm | hm⟩ := ih
    · dsimp only at hst hm
      subst hst hm
      cases hs
      exact ⟨rfl, .inr rfl⟩
    · dsimp only at hst hm
      subst hst hm
      cases hs

/-- A number in function position is never passed. -/
theorem app_runs {loc n : Nat} (hf : rt.heap loc = .tm (termNewNum n))
    (h : Runs book ⟨rt, [], .enter (termNew false .app 0 loc)⟩ m) :
    m.mode = .enter (termNew false .app 0 loc) ∨ m.stack ≠ [] := by
  have hread : heapRead rt loc = termNewNum n := by
    rw [heapRead, hf]
    rfl
  suffices hi : m = ⟨rt, [], .enter (termNew false .app 0 loc)⟩ ∨
      m.stack = [.tm (termNew false .app 0 loc)] ∧
        (m.mode = .enter (termNewNum n) ∨ m.mode = .apply (termNewNum n)) by
    rcases hi with rfl | ⟨hs, -⟩
    · exact .inl rfl
    · exact .inr (by rw [hs]; simp)
  induction h with
  | refl => exact .inl rfl
  | @tail m m' _ hs ih =>
    rcases ih with rfl | ⟨hst, hm⟩
    · have hturn : turn book ⟨rt, [], .enter (termNew false .app 0 loc)⟩ =
          .next ⟨rt, [.tm (termNew false .app 0 loc)], .enter (heapRead rt loc)⟩ := rfl
      rw [hturn, hread] at hs
      cases hs
      exact .inr ⟨rfl, .inl rfl⟩
    · obtain ⟨rt, stack, mode⟩ := m
      dsimp only at hst hm
      subst hst
      rcases hm with rfl | rfl
      · cases hs
        exact .inr ⟨rfl, .inr rfl⟩
      · cases hs

/-- Two branches entered from one state over the empty stack are the same number, and a default
applied to the scrutinee is no number. -/
theorem sample_enters {F G : Set Nat} {i : Nat} {o : Arm × List Term}
    (h : Enters book m [] F (.word (termNewNum i), []))
    (h' : Enters book m [] G o) :
    (∀ j, o = (.word (termNewNum j), []) → i = j) ∧ ∀ n w, o ≠ (.word (termNewNum n), [w]) := by
  obtain ⟨rt1, hd, t, hrun, hi, hsp, -⟩ := h
  cases hi
  rw [hsp.nil_inv] at hrun
  obtain ⟨rt2, hd2, t2, hrun2, hi2, hsp2, -⟩ := h'
  have hdet : Relator.RightUnique fun m m' : Machine => turn book m = .next m' := by
    intro m m' m'' h1 h2
    rw [h1] at h2
    cases h2
    rfl
  have htot := Relation.ReflTransGen.total_of_right_unique hdet hrun hrun2
  constructor
  · rintro j rfl
    cases hi2
    rw [hsp2.nil_inv] at htot
    rcases htot with hr | hr
    · rcases (num_runs hr).2 with he | he
      · exact ((Mode.enter.inj he) ▸ rfl : (termNewNum j).val = (termNewNum i).val).symm
      · cases he
    · rcases (num_runs hr).2 with he | he
      · exact ((Mode.enter.inj he) ▸ rfl : (termNewNum i).val = (termNewNum j).val)
      · cases he
  · rintro n w rfl
    cases hi2
    generalize he : ([w] : List Term) = as at hsp2
    cases hsp2 with
    | head => cases he
    | @app as f x loc hf h0 h1 =>
      have has : as = [] := by
        cases as with
        | nil => rfl
        | cons a as => simp at he
      subst has
      rw [hf.nil_inv] at h0
      rcases htot with hr | hr
      · rcases (num_runs hr).2 with he | he
        · cases he
        · cases he
      · rcases app_runs h0 hr with he | he
        · cases he
        · exact he rfl

theorem apart_of_selects (h : Selects ps k key) (p : Kind × Nat)
    (hp : ps.find? (·.2 = key) = some p) : p.1 = k := by
  by_contra hk
  have hne : ps ≠ [] := by
    rintro rfl
    cases hp
  set w := sampleScrutinee key k with hw
  obtain ⟨F, happ⟩ := sample_applied hne w
  obtain ⟨rt1, mat, G, -, hs, -, hsel⟩ :=
    h (fun _ => 0) (sample ps w) [] 0 _ _ _ _ F (sampleCases_pattern 0 ps) happ
  have hsc : Scrutinee rt1 w k key G := sampleScrutinee_holds rt1 k key G
  have hright := hsel rt1 w G (.one hsc.enter) hs hsc
  obtain ⟨c, hc, rfl⟩ : ∃ c, (sampleCases 0 ps).find? (·.key = key) = some c ∧ c.pattern = p := by
    rw [← sampleCases_pattern 0 ps, List.find?_map] at hp
    exact Option.map_eq_some_iff.mp hp
  obtain ⟨i, q, -, hq, rfl⟩ := sampleCases_mem (List.mem_of_find?_eq_some hc)
  have hwrong : Enters (fun _ => 0) ⟨rt1, [.tm mat], .apply w⟩ [] (G ∪ fieldCells w)
      (.word (termNewNum i), []) := by
    cases hcs : sampleCases 0 ps with
    | nil =>
      rw [hcs] at hc
      cases hc
    | cons c0 cs =>
      rw [hcs] at hs hc
      have hd : Enters (fun _ => 0) ⟨rt1, [.tm mat], .apply w⟩ [] _ _ := hs.dispatch hsc
      rw [hc, outcome, sampleScrutinee_given] at hd
      exact hd
  obtain ⟨hnum, hdef⟩ := sample_enters hwrong hright
  cases hf : (sampleCases 0 ps).find? fun c => c.kind = k ∧ c.key = key with
  | none =>
    rw [hf] at hdef
    exact hdef _ _ rfl
  | some c' =>
    rw [hf, outcome, sampleScrutinee_given] at hnum
    obtain ⟨j, q', -, hq', rfl⟩ := sampleCases_mem (List.mem_of_find?_eq_some hf)
    have hij := hnum j rfl
    subst hij
    rw [hq] at hq'
    cases hq'
    have hkind := List.find?_some hf
    simp only [decide_eq_true_eq] at hkind
    exact hk hkind.1

/-- A chain selects the right case exactly when the first case with the scrutinee's key, of
whichever kind, is none or of the scrutinee's kind. -/
theorem match_selects_iff (p : Kind × Nat) (ps : List (Kind × Nat)) (k : Kind) (key : Nat) :
    Selects (p :: ps) k key ↔ ∀ q, (p :: ps).find? (·.2 = key) = some q → q.1 = k :=
  ⟨apart_of_selects, selects_of_apart (List.cons_ne_nil p ps)⟩

/-- The book term `λ{#ZER: 1; λx. 2}(0)`, its root at 7. -/
def zerOfZero : Rt where
  heap := fun
    | 1 => .tm (termNewNum 1)
    | 2 => .tm (termNew false .lam lamEraMask 3)
    | 3 => .tm (termNewNum 2)
    | 4 => .tm (termNew false .mat symZer 1)
    | 5 => .tm (termNewNum 0)
    | 7 => .tm (termNew false .app 0 4)
    | _ => .tm Term.zero
  next := 8
  itrs := 0
  fresh := 0
  log := []

/-- The number 0 takes the case of the constructor `#ZER`, whose name has the id 0. -/
theorem zero_takes_zer :
    (∃ rt, run (fun _ => 0) 12 (start zerOfZero (termNew false .alo 0 7)) =
      some (.done rt (termNewNum 1))) ∧ ¬ Selects [(.ctr, symZer)] .num 0 :=
  ⟨⟨_, rfl⟩, fun h => by cases apart_of_selects h (.ctr, symZer) rfl⟩

end Hvm.Match
