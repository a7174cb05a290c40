import Hvm.Collapse.Lossless

/-! How many lines are printed. The leaves that workers have counted are those in `printed` and
in the counters of the workers; a worker prints its leaf when it loads `printed` again and finds
the limit not exceeded. -/

namespace Hvm.Collapse

namespace Worker

def path (w : Worker) : Multiset (List Bool) :=
  match w.job with
  | some j => {j.task.path}
  | none => 0

/-- The leaf to be counted. -/
def tallying (w : Worker) : Multiset (List Bool) :=
  match w.point with
  | .tally => w.path
  | _ => 0

/-- The leaf that is counted and neither printed nor skipped. -/
def asking (w : Worker) : Multiset (List Bool) :=
  match w.point with
  | .announce | .flush | .recheck => w.path
  | _ => 0

def ledger (w : Worker) : Nat × Multiset (List Bool) × Multiset (List Bool) :=
  (w.localPrinted, w.tallying, w.asking)

variable {w : Worker} {j : Job}

theorem path_some (hj : w.job = some j) : w.path = {j.task.path} := by simp [path, hj]

theorem ret_ledger : w.ret.ledger = (w.localPrinted, 0, 0) := by
  rcases ret_point (w := w) with hp | hp <;> simp only [ledger, tallying, asking, hp] <;> rfl

end Worker

namespace Ctx

variable {n : Nat} {u : Setup} {root : Task} {s s' t : Ctx n} {me : Fin n} {p : Point} {w : Worker}

/-- The sums of the workers' counters, of the leaves they are about to count, and of those they
are about to print or skip. -/
def ledgers (s : Ctx n) : Nat × Multiset (List Bool) × Multiset (List Bool) :=
  ∑ i, (s.W i).ledger

/-- What the workers other than `me` have counted and not added to `printed`. -/
def unflushed (s : Ctx n) (me : Fin n) : Nat := ∑ i ∈ Finset.univ.erase me, (s.W i).localPrinted

structure Counts (u : Setup) (s : Ctx n) : Prop where
  printed : s.printed + s.ledgers.1 = s.counted.length
  counted : (s.counted : Multiset (List Bool)) + s.ledgers.2.1 =
    ((s.processed.filter (isLeaf u)).map Task.path : List (List Bool))
  asked : (s.lines : Multiset (List Bool)) + s.ledgers.2.2 ≤ s.counted
  first : ∀ p ∈ s.lines, p ∈ s.counted.take u.limit
  printing : ∀ p ∈ s.counted.take u.limit, p ∈ s.lines ∨ p ∈ s.ledgers.2.2
  reached : s.limited = true → u.limit ≤ s.counted.length

theorem ledgers_set {x y : Nat × Multiset (List Bool) × Multiset (List Bool)}
    (h : w.ledger + y = (s.W me).ledger + x) : (s.set me w).ledgers + y = s.ledgers + x :=
  sum_set Worker.ledger h

theorem ledgers_fst (s : Ctx n) (me : Fin n) :
    s.ledgers.1 = (s.W me).localPrinted + s.unflushed me := by
  have hf : s.ledgers.1 = ∑ i, (s.W i).localPrinted := Prod.fst_sum ..
  rw [hf, unflushed, Finset.add_sum_erase _ (fun i => (s.W i).localPrinted) (Finset.mem_univ me)]

/-- The worker counts nothing and prints nothing. -/
theorem Counts.same (h : s.Counts u) (hW : t.W = (s.set me w).W)
    (hs : t.printed = s.printed ∧ t.counted = s.counted ∧ t.lines = s.lines ∧
      t.limited = s.limited) (hp : t.processed.filter (isLeaf u) = s.processed.filter (isLeaf u))
    (hl : w.ledger = (s.W me).ledger) : t.Counts u := by
  obtain ⟨h1, h2, h3, h4⟩ := hs
  have hsum : (s.set me w).ledgers + 0 = s.ledgers + 0 := ledgers_set (by rw [hl])
  have ht : t.ledgers = s.ledgers := by
    rw [add_zero, add_zero] at hsum
    rw [← hsum, ledgers, ledgers, hW]
  constructor
  · rw [h1, h2, ht]
    exact h.printed
  · rw [h2, ht, hp]
    exact h.counted
  · rw [h2, h3, ht]
    exact h.asked
  · rw [h2, h3]
    exact h.first
  · rw [h2, h3, ht]
    exact h.printing
  · rw [h2, h4]
    exact h.reached

/-- A counter is added to `printed`. -/
theorem Counts.flush (h : s.Counts u) (hW : t.W = (s.set me w).W)
    (hs : t.printed = s.printed + (s.W me).localPrinted ∧ t.counted = s.counted ∧
      t.lines = s.lines ∧ t.limited = s.limited ∧ t.processed = s.processed)
    (hz : w.localPrinted = 0) (ht : w.tallying = (s.W me).tallying)
    (ha : w.asking = (s.W me).asking) : t.Counts u := by
  obtain ⟨h1, h2, h3, h4, h5⟩ := hs
  have hsum : (s.set me w).ledgers + ((s.W me).localPrinted, 0, 0) = s.ledgers + 0 := by
    refine ledgers_set ?_
    simp [Worker.ledger, hz, ht, ha]
  have hl : t.ledgers = (s.set me w).ledgers := by rw [ledgers, ledgers, hW]
  rw [← hl, add_zero] at hsum
  have e1 : t.ledgers.1 + (s.W me).localPrinted = s.ledgers.1 := congrArg Prod.fst hsum
  have e2 : t.ledgers.2 = s.ledgers.2 := (add_zero _).symm.trans (congrArg Prod.snd hsum)
  constructor
  · rw [h1, h2, ← h.printed]
    omega
  · rw [h2, h5, e2]
    exact h.counted
  · rw [h2, h3, e2]
    exact h.asked
  · rw [h2, h3]
    exact h.first
  · rw [h2, h3, e2]
    exact h.printing
  · rw [h2, h4]
    exact h.reached

/-- A leaf comes out of `cnf`. -/
theorem Counts.leaf (h : s.Counts u) {j : Job} (hp : (s.W me).point = .cnf)
    (hj : (s.W me).job = some j) (ho : (u.tree j.task.path).out = .leaf) :
    Counts u { s.set me { s.W me with point := .tally } with
      processed := s.processed ++ [j.task] } := by
  have hsum : (s.set me { s.W me with point := .tally }).ledgers + 0 =
      s.ledgers + (0, {j.task.path}, 0) := by
    refine ledgers_set ?_
    simp [Worker.ledger, Worker.tallying, Worker.asking, Worker.path, hp, hj]
  rw [add_zero] at hsum
  refine ⟨?_, ?_, ?_, h.first, ?_, h.reached⟩
  · change s.printed + (s.set me { s.W me with point := .tally }).ledgers.1 = _
    rw [hsum]
    exact h.printed
  · change (s.counted : Multiset (List Bool)) +
      (s.set me { s.W me with point := .tally }).ledgers.2.1 =
      (((s.processed ++ [j.task]).filter (isLeaf u)).map Task.path : List (List Bool))
    have hleaf : isLeaf u j.task = true := by simp [isLeaf, ho]
    rw [hsum, List.filter_append, List.filter_cons_of_pos hleaf, List.filter_nil, List.map_append,
      ← Multiset.coe_add, ← h.counted]
    exact (add_assoc _ _ _).symm
  · change (s.lines : Multiset (List Bool)) +
      (s.set me { s.W me with point := .tally }).ledgers.2.2 ≤ s.counted
    rw [hsum]
    simpa using h.asked
  · change ∀ p ∈ s.counted.take u.limit,
      p ∈ s.lines ∨ p ∈ (s.set me { s.W me with point := .tally }).ledgers.2.2
    rw [hsum]
    simpa using h.printing

/-- A leaf is counted. -/
theorem Counts.count (h : s.Counts u) {j : Job} (hp : (s.W me).point = .tally)
    (hj : (s.W me).job = some j) (hW : t.W = (s.set me w).W)
    (hs : t.printed = s.printed ∧ t.counted = s.counted ++ [j.task.path] ∧
      t.lines = s.lines ∧ t.processed = s.processed)
    (hl : w.ledger = ((s.W me).localPrinted + 1, 0, {j.task.path}))
    (hr : t.limited = true → s.limited = true ∨
      u.limit ≤ s.printed + ((s.W me).localPrinted + 1)) : t.Counts u := by
  obtain ⟨h1, h2, h3, h4⟩ := hs
  have hsum : (s.set me w).ledgers + (0, {j.task.path}, 0) = s.ledgers + (1, 0, {j.task.path}) := by
    refine ledgers_set ?_
    rw [hl]
    simp [Worker.ledger, Worker.tallying, Worker.asking, Worker.path, hp, hj]
  have ht : t.ledgers = (s.set me w).ledgers := by rw [ledgers, ledgers, hW]
  rw [← ht] at hsum
  have e1 : t.ledgers.1 = s.ledgers.1 + 1 := congrArg Prod.fst hsum
  have e2 : t.ledgers.2.1 + {j.task.path} = s.ledgers.2.1 :=
    (congrArg (fun x => x.2.1) hsum).trans (add_zero _)
  have e3 : t.ledgers.2.2 = s.ledgers.2.2 + {j.task.path} :=
    (add_zero _).symm.trans (congrArg (fun x => x.2.2) hsum)
  refine ⟨?_, ?_, ?_, fun p hm => ?_, fun p hm => ?_, fun hlim => ?_⟩
  · rw [h1, h2, e1, List.length_append, List.length_singleton, ← h.printed]
    omega
  · rw [h2, h4, ← h.counted, ← e2, ← Multiset.coe_add, Multiset.coe_singleton]
    abel
  · rw [h2, h3, e3, ← Multiset.coe_add, Multiset.coe_singleton, ← add_assoc]
    exact add_le_add_left h.asked _
  · rw [h3] at hm
    rw [h2, List.take_append]
    exact List.mem_append_left _ (h.first p hm)
  · rw [h2, List.take_append] at hm
    rw [h3, e3, Multiset.mem_add]
    rcases List.mem_append.mp hm with hm | hm
    · exact (h.printing p hm).imp id .inl
    · exact .inr (.inr (by simpa using List.mem_of_mem_take hm))
  · rw [h2, List.length_append, List.length_singleton]
    rcases hr hlim with hlim | hlim
    · exact (h.reached hlim).trans (Nat.le_succ _)
    · have hcount := h.printed
      rw [ledgers_fst s me] at hcount
      omega

/-- The worker is done with a leaf it has counted. -/
theorem Counts.answer (h : s.Counts u) {j : Job} (hp : (s.W me).point = .recheck)
    (hj : (s.W me).job = some j) (hW : t.W = (s.set me (s.W me).ret).W)
    (hs : t.printed = s.printed ∧ t.counted = s.counted ∧ t.processed = s.processed ∧
      t.limited = s.limited)
    (ht : t.lines = s.lines ++ [j.task.path] ∧ j.task.path ∈ s.counted.take u.limit ∨
      t.lines = s.lines ∧ j.task.path ∉ s.counted.take u.limit) : t.Counts u := by
  obtain ⟨h1, h2, h3, h4⟩ := hs
  have hsum : (s.set me (s.W me).ret).ledgers + (0, 0, {j.task.path}) = s.ledgers + 0 := by
    refine ledgers_set ?_
    rw [Worker.ret_ledger]
    simp [Worker.ledger, Worker.tallying, Worker.asking, Worker.path, hp, hj]
  have hl : t.ledgers = (s.set me (s.W me).ret).ledgers := by rw [ledgers, ledgers, hW]
  rw [← hl, add_zero] at hsum
  have e1 : (t.ledgers + (0, 0, {j.task.path})).1 = s.ledgers.1 := by rw [hsum]
  have e2 : t.ledgers.2.1 = s.ledgers.2.1 :=
    (add_zero _).symm.trans (congrArg (fun x => x.2.1) hsum)
  have e3 : t.ledgers.2.2 + {j.task.path} = s.ledgers.2.2 := congrArg (fun x => x.2.2) hsum
  refine ⟨?_, ?_, ?_, fun p hm => ?_, fun p hm => ?_, ?_⟩
  · rw [h1, h2, ← h.printed, ← e1]
    rfl
  · rw [h2, h3, e2]
    exact h.counted
  · have hasked := h.asked
    rw [← e3] at hasked
    rw [h2]
    rcases ht with ⟨hl, -⟩ | ⟨hl, -⟩ <;> rw [hl]
    · rw [← Multiset.coe_add, Multiset.coe_singleton, add_assoc, add_comm {_}]
      exact hasked
    · exact (add_le_add_right (Multiset.le_add_right ..) _).trans hasked
  · rw [h2]
    rcases ht with ⟨hl, hmem⟩ | ⟨hl, -⟩ <;> rw [hl] at hm
    · rcases List.mem_append.mp hm with hm | hm
      · exact h.first p hm
      · rwa [List.mem_singleton.mp hm]
    · exact h.first p hm
  · rw [h2] at hm
    have hask := h.printing p hm
    rw [← e3, Multiset.mem_add, Multiset.mem_singleton] at hask
    rcases ht with ⟨hl, -⟩ | ⟨hl, hmem⟩ <;> rw [hl]
    · rcases hask with hq | hq | hq
      · exact .inl (List.mem_append_left _ hq)
      · exact .inr hq
      · exact .inl (by simp [hq])
    · rcases hask with hq | hq | hq
      · exact .inl hq
      · exact .inr hq
      · exact absurd (hq ▸ hm) hmem
  · rw [h2, h4]
    exact h.reached

theorem Go.ledger (h : Go s me (s.W me).point p) :
    Worker.ledger { s.W me with point := p } = (s.W me).ledger := by
  generalize hp : (s.W me).point = q at h
  cases h <;> simp [Worker.ledger, Worker.tallying, Worker.asking, hp]

/-- A worker leaves its loop after it has loaded `stop`. -/
def Stopped (s : Ctx n) : Prop :=
  ∀ i, (s.W i).point = .exit ∨ (s.W i).point = .left → s.stop = true

theorem Move.stop_mono (h : Move u s me s') (hs : s.stop = true) : s'.stop = true := by
  cases h <;> first | exact hs | rfl

theorem Move.stopped (h : Move u s me s') (hs : s.Stopped) : s'.Stopped := by
  intro i hp
  apply h.stop_mono
  by_cases hi : i = me
  · rw [hi] at hp
    cases h <;> simp only [set_self] at hp
    case go h =>
      generalize hq : (s.W me).point = q at h
      rcases hp with rfl | rfl
      · cases h with
        | stopped hstop => exact hstop
      · cases h
    case exit hp' => exact hs me (.inl hp')
    case drop hstop => exact hstop
    case era | print | skip =>
      rcases Worker.ret_point (w := s.W me) with hr | hr <;> simp [hr] at hp
    case count hp' | rouse hp' => rcases hp' with rfl | rfl <;> simp at hp
    case mark b k _ =>
      cases k with
      | done =>
        rcases Worker.ret_point (w := { s.W me with nonempty := insert b (s.W me).nonempty })
          with hr | hr <;> simp [Worker.pushed, hr] at hp
      | _ => simp [Worker.pushed] at hp
    case finish =>
      unfold Worker.resume at hp
      split at hp <;> simp at hp
    all_goals simp [Worker.runTask] at hp
  · rw [h.others_point hi] at hp
    exact hs i hp

end Ctx

namespace Ctx

variable {n : Nat} {u : Setup} {root : Task} {s : Ctx n}

end Ctx

end Hvm.Collapse
