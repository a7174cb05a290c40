import Hvm.Collapse.Still

/-! No branch is lost: what the invariant of the workers says of a state in which they stop. -/

namespace Hvm.Collapse

/-- The worker has a location on its way, runs `cnf` or waits for its tasks. -/
def Point.Busy : Point → Prop
  | .enter | .tally | .announce | .flush | .recheck | .push .. | .mark .. | .cnf | .spawn ..
  | .join _ | .poolTook _ | .poolOn _ => True
  | _ => False

/-- A worker with nothing in its bank, its deque and its hands. -/
structure Worker.Done (w : Worker) : Prop where
  bank : w.Drained
  job : w.job = none
  calls : w.calls = []
  deque : w.dq = []
  point : ¬ w.point.Busy

variable {job : Option Job} {calls : List Call} {w : Worker} {g : Nat}

theorem Nested.owner_some (h : Nested job calls) (hj : job = none) :
    ∃ g, owner calls = some g ∧ .task g ∈ calls := by
  cases h with
  | base hn => exact absurd hj hn
  | run => exact ⟨_, rfl, by simp⟩
  | spawning => exact ⟨_, rfl, by simp⟩
  | joining => exact ⟨_, rfl, by simp⟩

/-- A group that a call is about was made by a task of an older group. -/
theorem Nested.older (h : Nested job calls) (hj : job = none)
    (ho : (∃ k, .spawning g k ∈ calls) ∨ .joining g ∈ calls) : ∃ g' < g, .task g' ∈ calls := by
  induction h with
  | base hn => exact absurd hj hn
  | run => simp at ho
  | @spawning g₁ k₁ cs hn hlt ih =>
    by_cases hg : g = g₁
    · obtain ⟨g', hown, hmem⟩ := hn.owner_some hj
      exact ⟨g', hg ▸ hlt g' hown, by simp [hmem]⟩
    · obtain ⟨g', hlt', hmem⟩ := ih (by simpa [hg] using ho)
      exact ⟨g', hlt', by simp [hmem]⟩
  | @joining g₀ g₁ cs hn hlt ih =>
    by_cases hg : g = g₁
    · obtain ⟨g', hown, hmem⟩ := hn.owner_some hj
      exact ⟨g', hg ▸ hlt g' hown, by simp [hmem]⟩
    · obtain ⟨g', hlt', hmem⟩ := ih (by simpa [hg] using ho)
      exact ⟨g', hlt', by simp [hmem]⟩

theorem Popping.older (h : Popping job calls) (hj : job = none)
    (ho : (∃ k, .spawning g k ∈ calls) ∨ .joining g ∈ calls) : ∃ g' < g, .task g' ∈ calls := by
  have ho' : (∃ k, .spawning g k ∈ .task g :: calls) ∨ .joining g ∈ .task g :: calls :=
    ho.imp (fun ⟨k, hk⟩ => ⟨k, List.mem_cons_of_mem _ hk⟩) (List.mem_cons_of_mem _)
  obtain ⟨g', hlt, hmem⟩ := (h.task g).older hj ho'
  rcases List.mem_cons.mp hmem with he | hmem
  · cases he
    exact absurd hlt (lt_irrefl g)
  · exact ⟨g', hlt, hmem⟩

theorem Worker.Ok.older (h : w.Ok) (hj : w.job = none) (ho : w.Opens g) :
    ∃ g' < g, .task g' ∈ w.calls := by
  have hph := h.phase
  rcases ho with ⟨k, hp⟩ | hp | ho
  · rw [hp] at hph
    obtain ⟨g', hown, hmem⟩ := hph.1.owner_some hj
    exact ⟨g', hph.2.1 g' hown, hmem⟩
  · rw [hp] at hph
    obtain ⟨g', hown, hmem⟩ := hph.1.owner_some hj
    exact ⟨g', hph.2.1 g' hown, hmem⟩
  · cases hphase : w.point.phase <;> rw [hphase] at hph
    case rest | idle => simp [hph.2.1] at ho
    case hunt | loot | work => simp [hph.2.1] at ho
    case run => exact hph.1.older hj ho
    case hold => exact hph.1.older hj ho
    case pool => exact hph.1.older hj ho

namespace Worker

theorem tasks_pos_of_call (h : .task g ∈ w.calls) : w.tasks g ≠ 0 := by
  have hle : Call.tasks g (.task g) ≤ (w.calls.map (Call.tasks g)).sum :=
    List.single_le_sum (by simp) _ (List.mem_map_of_mem h)
  simp only [Call.tasks, if_pos] at hle
  unfold tasks
  omega

end Worker

namespace Ctx

variable {n : Nat} {u : Setup} {root : Task} {s : Ctx n}

/-- Nobody waits for a task when nobody has a location. -/
theorem Inv.no_opener (h : s.Inv u root) (hs : s.Still) (g : Nat) (i : Fin n) :
    ¬ (s.W i).Opens g := by
  induction g using Nat.strong_induction_on generalizing i with
  | _ g ih =>
    intro ho
    obtain ⟨g', hlt, hmem⟩ := (h.ok i).older (hs i).1 ho
    obtain ⟨i', ho'⟩ := h.grouped.opener g' (h.grouped.owned (Worker.tasks_pos_of_call hmem))
    exact ih g' hlt i' ho'

theorem Inv.no_group (h : s.Inv u root) (hs : s.Still) (g : Nat) : s.groupPending g = 0 := by
  by_contra hg
  obtain ⟨i, ho⟩ := h.grouped.opener g hg
  exact h.no_opener hs g i ho

theorem Inv.no_task (h : s.Inv u root) (hs : s.Still) (i : Fin n) (g : Nat) :
    (s.W i).tasks g = 0 := by
  by_contra ht
  exact h.grouped.owned ht (h.no_group hs g)

theorem Inv.done (h : s.Inv u root) (hs : s.Still) (i : Fin n) : (s.W i).Done := by
  obtain ⟨hj, hd, hwork, hloot⟩ := hs i
  have hzero := h.no_task hs i
  have hno : ∀ g, .task g ∉ (s.W i).calls := fun g hmem =>
    Worker.tasks_pos_of_call hmem (hzero g)
  have hnot : ¬ Nested none (s.W i).calls := by
    intro hn
    obtain ⟨g, -, hmem⟩ := hn.owner_some rfl
    exact hno g hmem
  have hph := (h.ok i).phase
  refine ⟨hd, hj, ?_, ?_, ?_⟩
  · cases hphase : (s.W i).point.phase <;> rw [hphase] at hph
    case rest | idle | hunt | loot | work => exact hph.2.1
    case run | hold => exact absurd (hj ▸ hph.1) hnot
    case pool =>
      obtain ⟨hp, -⟩ := hph
      rw [hj] at hp
      generalize (s.W i).calls = calls at hp hno
      cases hp with
      | run => rfl
      | joining hn ho =>
        obtain ⟨g, -, hmem⟩ := hn.owner_some rfl
        exact absurd (List.mem_cons_of_mem _ hmem) (hno g)
  · by_contra hdq
    obtain ⟨g, hg⟩ := List.exists_mem_of_ne_nil _ hdq
    have hpos := List.count_pos_iff.mpr hg
    have hz := hzero g
    unfold Worker.tasks at hz
    omega
  · intro hb
    cases hp : (s.W i).point <;> rw [hp] at hb hph hwork hloot <;> try exact hb
    case enter | tally | announce | flush | recheck => exact hwork rfl
    case push k | mark k => cases k <;> first | exact hwork rfl | exact hloot rfl
    case cnf | spawn | join => exact hnot (hj ▸ hph.1)
    case poolTook g | poolOn g =>
      have hz := hzero g
      simp [Worker.tasks, hp, Point.tasks] at hz

theorem Still.held (h : s.Still) : s.held = 0 := by
  refine Finset.sum_eq_zero fun i _ => ?_
  obtain ⟨hj, hd, hwork, hloot⟩ := h i
  have hq : (s.W i).queued = 0 := Finset.sum_eq_zero fun b _ => by rw [hd b]; rfl
  have ht : (s.W i).taken = 0 := by rw [Worker.taken, hj]
  rw [Worker.held, hq, Worker.hand, zero_add]
  split
  case h_1 hp => exact absurd (by rw [hp]; rfl) hloot
  case h_8 => exact ht
  all_goals rfl

theorem Still.owed (h : s.Still) : s.owed = 0 := by
  refine Finset.sum_eq_zero fun i _ => ?_
  obtain ⟨-, -, hwork, -⟩ := h i
  rw [Worker.owed]
  split
  case h_4 => rfl
  case h_1 hp | h_2 hp | h_3 hp => exact absurd (by rw [hp]; rfl) hwork

end Ctx

/-- A superposition of two leaves. -/
def pair (limit : Nat) : Setup where
  tree p := if p = [] then ⟨0, .sup 8⟩ else ⟨0, .leaf⟩
  limit := limit

end Hvm.Collapse
