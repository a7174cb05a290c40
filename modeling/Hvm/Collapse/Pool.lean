import Hvm.Collapse.Phases

/-! The tasks of the `cnf` pool. What a group still waits for is what the workers have of it, and
whoever made the group is there until nothing is left. -/

namespace Hvm.Collapse

theorem sum_update {ι α M : Type} [DecidableEq ι] [AddCommMonoid M] (f : α → M) {s : Finset ι}
    {i : ι} (hi : i ∈ s) (g : ι → α) (a : α) :
    (∑ j ∈ s, f (Function.update g i a j)) + f (g i) = (∑ j ∈ s, f (g j)) + f a := by
  have hrest : ∑ j ∈ s.erase i, f (Function.update g i a j) = ∑ j ∈ s.erase i, f (g j) :=
    Finset.sum_congr rfl fun j hj => by rw [Function.update_of_ne (Finset.ne_of_mem_erase hj)]
  rw [← Finset.add_sum_erase _ _ hi, hrest, ← Finset.add_sum_erase _ (fun j => f (g j)) hi,
    Function.update_self]
  abel

def Call.tasks (g : Nat) : Call → Nat
  | .task g' => if g' = g then 1 else 0
  | .spawning g' k => if g' = g then k else 0
  | .joining _ => 0

def Point.tasks (g : Nat) : Point → Nat
  | .spawn g' k => if g' = g then k else 0
  | .poolTook g' | .poolOn g' => if g' = g then 1 else 0
  | _ => 0

namespace Worker

/-- The unfinished tasks of group `g` that worker `w` has. -/
def tasks (g : Nat) (w : Worker) : Nat :=
  w.dq.count g + (w.calls.map (Call.tasks g)).sum + w.point.tasks g

/-- Worker `w` makes group `g`, or waits for it. -/
def Opens (w : Worker) (g : Nat) : Prop :=
  (∃ k, w.point = .spawn g k) ∨ w.point = .join g ∨ (∃ k, .spawning g k ∈ w.calls) ∨
    .joining g ∈ w.calls

variable {w : Worker}

theorem ret_point : w.ret.point = .check ∨ w.ret.point = .canSteal 1 := by
  unfold ret
  by_cases hi : w.iter + 1 < stealPeriod
  · exact .inl (if_pos hi)
  · exact .inr (if_neg hi)

theorem ret_tasks (g : Nat) : w.ret.point.tasks g = 0 := by
  rcases ret_point (w := w) with hp | hp <;> rw [hp] <;> rfl

theorem tasks_resume {g : Nat} {calls : List Call} (hp : w.point = .cnf)
    (hc : w.calls = .task g :: calls) (g' : Nat) :
    w.tasks g' = (w.resume calls).tasks g' + if g = g' then 1 else 0 := by
  unfold resume
  split
  case h_1 | h_2 | h_3 =>
    simp only [tasks, hp, hc, Point.tasks, Call.tasks, List.map_cons, List.sum_cons]
    omega

theorem opens_resume {g : Nat} {calls : List Call} (hp : w.point = .cnf)
    (hc : w.calls = .task g :: calls) {g' : Nat} (h : w.Opens g') : (w.resume calls).Opens g' := by
  unfold resume
  unfold Opens at h
  simp only [hp, hc, reduceCtorEq, exists_false, List.mem_cons, false_or] at h
  split
  case h_1 g₁ k cs =>
    rcases h with ⟨k', hk⟩ | hj
    · rcases List.mem_cons.mp hk with he | hk
      · cases he
        exact .inl ⟨k, rfl⟩
      · exact .inr (.inr (.inl ⟨k', hk⟩))
    · rcases List.mem_cons.mp hj with he | hj
      · cases he
      · exact .inr (.inr (.inr hj))
  case h_2 g₁ cs =>
    rcases h with ⟨k', hk⟩ | hj
    · rcases List.mem_cons.mp hk with he | hk
      · cases he
      · exact .inr (.inr (.inl ⟨k', hk⟩))
    · rcases List.mem_cons.mp hj with he | hj
      · cases he
        exact .inr (.inl rfl)
      · exact .inr (.inr (.inr hj))
  case h_3 => exact .inr (.inr h)

/-- A worker whose point is not about a group opens what its calls open. -/
theorem Opens.calls {w' : Worker} {g : Nat} (h : w.Opens g) (hs : ∀ k, w.point ≠ .spawn g k)
    (hj : w.point ≠ .join g) (hc : w'.calls = w.calls) : w'.Opens g := by
  rcases h with ⟨k, hk⟩ | hp | h
  · exact absurd hk (hs k)
  · exact absurd hp hj
  · exact .inr (.inr (hc ▸ h))

end Worker

namespace Ctx

variable {n : Nat} {u : Setup} {s s' : Ctx n} {me : Fin n} {p : Point} {w : Worker}

/-- A worker changes what it adds to a sum over the workers by `x` less `y`. -/
theorem sum_set {M : Type} [AddCancelCommMonoid M] (f : Worker → M) {x y : M}
    (h : f w + y = f (s.W me) + x) :
    (∑ i, f ((s.set me w).W i)) + y = (∑ i, f (s.W i)) + x := by
  have hs : (∑ i, f ((s.set me w).W i)) + f (s.W me) = (∑ i, f (s.W i)) + f w :=
    sum_update f (Finset.mem_univ me) s.W w
  apply add_right_cancel (b := f (s.W me))
  calc (∑ i, f ((s.set me w).W i)) + y + f (s.W me) = (∑ i, f (s.W i)) + (f w + y) := by
        rw [add_right_comm, hs, add_assoc]
    _ = (∑ i, f (s.W i)) + x + f (s.W me) := by
        rw [h, add_comm (f (s.W me)) x, ← add_assoc]

/-- The unfinished tasks of group `g`. -/
def tasks (s : Ctx n) (g : Nat) : Nat := ∑ i, (s.W i).tasks g

structure Grouped (s : Ctx n) : Prop where
  count : ∀ g, s.groupPending g = s.tasks g
  fresh : ∀ g, s.groups ≤ g → s.groupPending g = 0
  opener : ∀ g, s.groupPending g ≠ 0 → ∃ i, (s.W i).Opens g

theorem tasks_add {g k k' : Nat} (h : w.tasks g + k' = (s.W me).tasks g + k) :
    (s.set me w).tasks g + k' = s.tasks g + k :=
  sum_set (Worker.tasks g) h

theorem Grouped.owned (h : s.Grouped) {i : Fin n} {g : Nat} (ht : (s.W i).tasks g ≠ 0) :
    s.groupPending g ≠ 0 := by
  intro hz
  rw [h.count g] at hz
  have hsum : s.tasks g = 0 := by exact_mod_cast hz
  exact ht (Finset.sum_eq_zero_iff.mp hsum i (Finset.mem_univ i))

/-- A worker keeps its tasks, and keeps the groups open that are not finished. -/
theorem Grouped.keep (h : s.Grouped) (ht : ∀ g, w.tasks g = (s.W me).tasks g)
    (ho : ∀ g, (s.W me).Opens g → s.groupPending g ≠ 0 → w.Opens g) : (s.set me w).Grouped := by
  refine ⟨fun g => ?_, h.fresh, fun g hg => ?_⟩
  · have hs : (s.set me w).tasks g + 0 = s.tasks g + 0 := tasks_add (by rw [ht g])
    rw [Nat.add_zero, Nat.add_zero] at hs
    change s.groupPending g = ((s.set me w).tasks g : Nat)
    rw [hs]
    exact h.count g
  · obtain ⟨i, hi⟩ := h.opener g hg
    refine ⟨i, ?_⟩
    by_cases him : i = me
    · rw [him] at hi ⊢
      rw [set_self]
      exact ho g hi hg
    · rwa [set_of_ne him]

theorem Grouped.congr {t : Ctx n} (h : s.Grouped) (hW : t.W = s.W)
    (hp : t.groupPending = s.groupPending) (hn : t.groups = s.groups) : t.Grouped := by
  have ht : ∀ g, t.tasks g = s.tasks g := fun g => by rw [tasks, hW, tasks]
  refine ⟨fun g => ?_, fun g hg => ?_, fun g hg => ?_⟩
  · rw [hp, ht]
    exact h.count g
  · rw [hn] at hg
    rw [hp]
    exact h.fresh g hg
  · rw [hp] at hg
    rw [hW]
    exact h.opener g hg

/-- A step to a point that is not about a group, from such a point. -/
theorem Grouped.plain {t : Ctx n} (h : s.Grouped)
    (ht : t.W = (s.set me w).W ∧ t.groupPending = s.groupPending ∧ t.groups = s.groups)
    (hc : w.dq = (s.W me).dq ∧ w.calls = (s.W me).calls) (hw : ∀ g, w.point.tasks g = 0)
    (hs : ∀ g, (s.W me).point.tasks g = 0)
    (ho : ∀ g, (∀ k, (s.W me).point ≠ .spawn g k) ∧ (s.W me).point ≠ .join g) : t.Grouped := by
  have hset : (s.set me w).Grouped := by
    refine h.keep (fun g => ?_) fun g hopen _ => hopen.calls (ho g).1 (ho g).2 hc.2
    rw [Worker.tasks, Worker.tasks, hc.1, hc.2, hw g, hs g]
  exact hset.congr ht.1 ht.2.1 ht.2.2

theorem Go.grouped (h : Go s me (s.W me).point p) (hg : s.Grouped) :
    (s.set me { s.W me with point := p }).Grouped := by
  generalize hp : (s.W me).point = q at h
  cases h with
  | @spawned g =>
    refine hg.keep (fun g' => ?_) fun g' ho _ => ?_
    · simp [Worker.tasks, hp, Point.tasks]
    · rcases ho with ⟨k, hk⟩ | hj | ho
      · rw [hp] at hk
        cases hk
        exact .inr (.inl rfl)
      · rw [hp] at hj
        cases hj
      · exact .inr (.inr ho)
  | @joined g hz =>
    refine hg.keep (fun g' => ?_) fun g' ho hne => ?_
    · simp [Worker.tasks, hp, Point.tasks]
    · rcases ho with ⟨k, hk⟩ | hj | ho
      · rw [hp] at hk
        cases hk
      · rw [hp] at hj
        cases hj
        exact absurd hz hne
      · exact .inr (.inr ho)
  | _ =>
    exact hg.plain ⟨rfl, rfl, rfl⟩ ⟨rfl, rfl⟩ (fun _ => rfl) (by simp [hp, Point.tasks]) (by simp [hp])

/-- `cnf_at` makes a group. -/
theorem Grouped.fork (h : s.Grouped) {k : Nat} (hp : (s.W me).point = .cnf) :
    Grouped { s.set me { s.W me with point := .spawn s.groups k } with
      groups := s.groups + 1
      groupPending := Function.update s.groupPending s.groups k } := by
  have hz : s.tasks s.groups = 0 := by
    have hc := h.count s.groups
    rw [h.fresh s.groups le_rfl] at hc
    exact_mod_cast hc.symm
  have ht : ∀ g, (s.set me { s.W me with point := .spawn s.groups k }).tasks g + 0 =
      s.tasks g + if s.groups = g then k else 0 := by
    intro g
    refine tasks_add ?_
    simp only [Worker.tasks, hp, Point.tasks]
    omega
  refine ⟨fun g => ?_, fun g hg => ?_, fun g hg => ?_⟩
  · change Function.update s.groupPending s.groups (k : Int) g = ((s.set me _).tasks g : Nat)
    rw [← Nat.add_zero ((s.set me _).tasks g), ht g]
    by_cases he : g = s.groups
    · rw [he, Function.update_self, hz, if_pos rfl, Nat.zero_add]
    · rw [Function.update_of_ne he, h.count g, if_neg fun hn => he hn.symm, Nat.add_zero]
  · change s.groups + 1 ≤ g at hg
    change Function.update s.groupPending s.groups (k : Int) g = 0
    rw [Function.update_of_ne (by omega)]
    exact h.fresh g (by omega)
  · change Function.update s.groupPending s.groups (k : Int) g ≠ 0 at hg
    by_cases he : g = s.groups
    · refine ⟨me, .inl ⟨k, ?_⟩⟩
      change ((s.set me _).W me).point = _
      rw [set_self, he]
    · rw [Function.update_of_ne he] at hg
      obtain ⟨i, hi⟩ := h.opener g hg
      refine ⟨i, ?_⟩
      change ((s.set me _).W i).Opens g
      by_cases him : i = me
      · rw [him] at hi ⊢
        rw [set_self]
        exact hi.calls (by simp [hp]) (by simp [hp]) rfl
      · rwa [set_of_ne him]

/-- A task is done. -/
theorem Grouped.finish (h : s.Grouped) {g : Nat} {calls : List Call} (hp : (s.W me).point = .cnf)
    (hc : (s.W me).calls = .task g :: calls) :
    Grouped { s.set me ((s.W me).resume calls) with
      groupPending := Function.update s.groupPending g (s.groupPending g - 1) } := by
  have ht : ∀ g', (s.set me ((s.W me).resume calls)).tasks g' + (if g = g' then 1 else 0) =
      s.tasks g' + 0 := fun g' => tasks_add (Worker.tasks_resume hp hc g').symm
  have hpos : s.groupPending g ≠ 0 := by
    refine h.owned (i := me) ?_
    have h2 := Worker.tasks_resume hp hc g
    rw [if_pos rfl] at h2
    omega
  refine ⟨fun g' => ?_, fun g' hg => ?_, fun g' hg => ?_⟩
  · change Function.update s.groupPending g (s.groupPending g - 1) g' = ((s.set me _).tasks g' : Nat)
    have h1 := ht g'
    have h2 := h.count g'
    by_cases he : g' = g
    · rw [if_pos he.symm] at h1
      rw [he, Function.update_self]
      rw [he] at h1 h2
      omega
    · rw [if_neg fun hn => he hn.symm] at h1
      rw [Function.update_of_ne he]
      omega
  · have hne : g' ≠ g := fun he => hpos (he ▸ h.fresh g' hg)
    change Function.update s.groupPending g (s.groupPending g - 1) g' = 0
    rw [Function.update_of_ne hne]
    exact h.fresh g' hg
  · change Function.update s.groupPending g (s.groupPending g - 1) g' ≠ 0 at hg
    have hg' : s.groupPending g' ≠ 0 := by
      by_cases he : g' = g
      · rwa [he]
      · rwa [Function.update_of_ne he] at hg
    obtain ⟨i, hi⟩ := h.opener g' hg'
    refine ⟨i, ?_⟩
    change ((s.set me _).W i).Opens g'
    by_cases him : i = me
    · rw [him] at hi ⊢
      rw [set_self]
      exact Worker.opens_resume hp hc hi
    · rwa [set_of_ne him]

/-- A task goes from one deque to another worker. -/
theorem Grouped.poolSteal (h : s.Grouped) {k g : Nat} {dq : List Nat} {vic : Fin n}
    (hp : (s.W me).point = .poolScan k) (hv : vic ≠ me) (hd : (s.W vic).dq = g :: dq) :
    ((s.set vic { s.W vic with dq := dq }).set me { s.W me with point := .poolTook g }).Grouped := by
  have hme : (s.set vic { s.W vic with dq := dq }).W me = s.W me := set_of_ne (Ne.symm hv)
  refine ⟨fun g' => ?_, h.fresh, fun g' hg => ?_⟩
  · have h1 : (s.set vic { s.W vic with dq := dq }).tasks g' + (if g = g' then 1 else 0) =
        s.tasks g' + 0 := by
      refine tasks_add ?_
      simp only [Worker.tasks, hd, List.count_cons, beq_iff_eq]
      omega
    have h2 : ((s.set vic { s.W vic with dq := dq }).set me
        { s.W me with point := .poolTook g }).tasks g' + 0 =
        (s.set vic { s.W vic with dq := dq }).tasks g' + if g = g' then 1 else 0 := by
      refine tasks_add ?_
      simp only [Worker.tasks, hme, hp, Point.tasks]
      omega
    change s.groupPending g' = _
    rw [h.count g', ← Nat.add_zero (s.tasks g'), ← h1, ← h2, Nat.add_zero]
  · obtain ⟨i, hi⟩ := h.opener g' hg
    refine ⟨i, ?_⟩
    by_cases him : i = me
    · rw [him] at hi ⊢
      rw [set_self]
      exact hi.calls (by simp [hp]) (by simp [hp]) rfl
    · rw [set_of_ne him]
      by_cases hiv : i = vic
      · rw [hiv] at hi ⊢
        rw [set_self]
        exact hi
      · rwa [set_of_ne hiv]

theorem Move.grouped (h : Move u s me s') (hg : s.Grouped) : s'.Grouped := by
  cases h
  case go h => exact h.grouped hg
  case drop hp _ _ | era hp _ _ _ _ | print hp _ _ | skip hp _ _ =>
    exact hg.plain ⟨rfl, rfl, rfl⟩ ⟨rfl, rfl⟩ Worker.ret_tasks (by simp [hp, Point.tasks])
      (by simp [hp])
  case empty hp _ | take hp _ _ | clear hp | keep hp | noVictim hp | loot hp | inc hp _ _ _ =>
    exact hg.plain ⟨rfl, rfl, rfl⟩ ⟨rfl, rfl⟩ (fun _ => rfl) (by simp [hp, Point.tasks]) (by simp [hp])
  case leaf hp _ _ _ _ | sup hp _ _ _ _ | reach hp _ _ | announce hp | flush hp | put hp _ =>
    exact hg.plain ⟨rfl, rfl, rfl⟩ ⟨rfl, rfl⟩ (fun _ => rfl) (by simp [hp, Point.tasks]) (by simp [hp])
  case leave hp _ _ | quit hp | exit hp | poolIdle hp | poolOff hp =>
    exact hg.plain ⟨rfl, rfl, rfl⟩ ⟨rfl, rfl⟩ (fun _ => rfl) (by simp [hp, Point.tasks]) (by simp [hp])
  case count hp _ _ hp' | rouse hp hp' =>
    rcases hp' with rfl | rfl <;>
      exact hg.plain ⟨rfl, rfl, rfl⟩ ⟨rfl, rfl⟩ (fun _ => rfl) (by simp [hp, Point.tasks]) (by simp [hp])
  case mark b k hp =>
    cases k with
    | done =>
      exact hg.plain ⟨rfl, rfl, rfl⟩ ⟨rfl, rfl⟩ Worker.ret_tasks (by simp [hp, Point.tasks])
        (by simp [hp])
    | _ => exact hg.plain ⟨rfl, rfl, rfl⟩ ⟨rfl, rfl⟩ (fun _ => rfl) (by simp [hp, Point.tasks]) (by simp [hp])
  case fork k hp hk => exact hg.fork hp
  case spawn g k hp =>
    refine hg.keep (fun g' => ?_) fun g' ho _ => ?_
    · simp only [Worker.tasks, hp, Point.tasks, List.count_append, List.count_singleton, beq_iff_eq]
      split_ifs <;> omega
    · rcases ho with ⟨k', hk⟩ | hj | ho
      · rw [hp] at hk
        cases hk
        exact .inl ⟨k, rfl⟩
      · rw [hp] at hj
        cases hj
      · exact .inr (.inr ho)
  case full g k hp =>
    refine hg.keep (fun g' => ?_) fun g' ho _ => ?_
    · simp only [Worker.tasks, hp, Point.tasks, Worker.runTask, Call.tasks, List.map_cons,
        List.sum_cons]
      split_ifs <;> omega
    · rcases ho with ⟨k', hk⟩ | hj | ho
      · rw [hp] at hk
        cases hk
        exact .inr (.inr (.inl ⟨k, by simp [Worker.runTask]⟩))
      · rw [hp] at hj
        cases hj
      · exact .inr (.inr (ho.imp (fun ⟨k', hk⟩ => ⟨k', by simp [Worker.runTask, hk]⟩)
          fun hj => by simp [Worker.runTask, hj]))
  case finish g calls hp hc => exact hg.finish hp hc
  case wait g hp =>
    refine hg.keep (fun g' => ?_) fun g' ho _ => ?_
    · simp only [Worker.tasks, hp, Point.tasks, Call.tasks, List.map_cons, List.sum_cons]
      omega
    · rcases ho with ⟨k', hk⟩ | hj | ho
      · rw [hp] at hk
        cases hk
      · rw [hp] at hj
        cases hj
        exact .inr (.inr (.inr (by simp)))
      · exact .inr (.inr (ho.imp (fun ⟨k', hk⟩ => ⟨k', by simp [hk]⟩) fun hj => by simp [hj]))
  case poolPop g dq hp hd =>
    refine hg.keep (fun g' => ?_) fun g' ho _ => ?_
    · simp only [Worker.tasks, hp, hd, Point.tasks, Worker.runTask, Call.tasks, List.map_cons,
        List.sum_cons, List.count_append, List.count_singleton, beq_iff_eq]
      split_ifs <;> omega
    · rcases ho with ⟨k', hk⟩ | hj | ho
      · simp [hp] at hk
      · simp [hp] at hj
      · exact .inr (.inr (ho.imp (fun ⟨k', hk⟩ => ⟨k', by simp [Worker.runTask, hk]⟩)
          fun hj => by simp [Worker.runTask, hj]))
  case poolSteal k g dq vic hp hv hd => exact hg.poolSteal hp hv hd
  case poolTook g hp =>
    refine hg.keep (fun g' => ?_) fun g' ho _ => ?_
    · simp only [Worker.tasks, hp, Point.tasks, Worker.runTask, Call.tasks, List.map_cons,
        List.sum_cons]
      omega
    · rcases ho with ⟨k', hk⟩ | hj | ho
      · simp [hp] at hk
      · simp [hp] at hj
      · exact .inr (.inr (ho.imp (fun ⟨k', hk⟩ => ⟨k', by simp [Worker.runTask, hk]⟩)
          fun hj => by simp [Worker.runTask, hj]))
  case poolWake g hp =>
    have hset : (s.set me { s.W me with point := .poolOn g }).Grouped := by
      refine hg.keep (fun g' => ?_) fun g' ho _ => ho.calls (by simp [hp]) (by simp [hp]) rfl
      simp only [Worker.tasks, hp, Point.tasks]
    exact hset.congr rfl rfl rfl
  case poolOn g hp =>
    refine hg.keep (fun g' => ?_) fun g' ho _ => ?_
    · simp only [Worker.tasks, hp, Point.tasks, Worker.runTask, Call.tasks, List.map_cons,
        List.sum_cons]
      omega
    · rcases ho with ⟨k', hk⟩ | hj | ho
      · simp [hp] at hk
      · simp [hp] at hj
      · exact .inr (.inr (ho.imp (fun ⟨k', hk⟩ => ⟨k', by simp [Worker.runTask, hk]⟩)
          fun hj => by simp [Worker.runTask, hj]))
  case poolBack k g calls hp hc =>
    refine hg.keep (fun g' => ?_) fun g' ho _ => ?_
    · simp only [Worker.tasks, hp, hc, Point.tasks, Call.tasks, List.map_cons, List.sum_cons]
      omega
    · rcases ho with ⟨k', hk⟩ | hj | ho
      · simp [hp] at hk
      · simp [hp] at hj
      · rw [hc] at ho
        rcases ho with ⟨k', hk⟩ | hj
        · exact .inr (.inr (.inl ⟨k', by simpa using hk⟩))
        · rcases List.mem_cons.mp hj with he | hj
          · cases he
            exact .inr (.inl rfl)
          · exact .inr (.inr (.inr hj))
  case steal k vic b got lim v t ts hp hv hq =>
    have hme : (s.set v ((s.W v).setQ b ts)).W me = s.W me := set_of_ne (Ne.symm hv)
    have h1 : (s.set v ((s.W v).setQ b ts)).Grouped := hg.keep (fun _ => rfl) fun _ ho _ => ho
    exact h1.plain ⟨rfl, rfl, rfl⟩ ⟨by rw [hme], by rw [hme]⟩ (fun _ => rfl)
      (by simp [hme, hp, Point.tasks]) (by simp [hme, hp])

end Ctx

end Hvm.Collapse
