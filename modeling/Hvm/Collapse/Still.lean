import Hvm.Collapse.Kept

/-! When `pending` is 0, nothing is left to do, and nothing comes up any more. So `stop` means
that every location has been processed, unless the limit was reached. -/

namespace Hvm.Collapse

namespace Ctx

variable {n : Nat} {u : Setup} {root : Task} {s s' : Ctx n} {me : Fin n} {p : Point}

/-- No worker has a location. -/
def Still (s : Ctx n) : Prop :=
  ∀ i, (s.W i).job = none ∧ (s.W i).Drained ∧ (s.W i).point.phase ≠ .work ∧
    (s.W i).point.phase ≠ .loot

def actives (s : Ctx n) : Int := ∑ i, if (s.W i).active then 1 else 0

structure Inv (u : Setup) (root : Task) (s : Ctx n) : Prop where
  ok : ∀ i, (s.W i).Ok
  grouped : s.Grouped
  kept : s.Kept u root
  pending : s.pending = s.actives
  still : (∃ i, (s.W i).point = .readCnf ∨ (s.W i).point = .quit) ∨
    s.stop = true ∧ s.limited = false → s.Still
  announced : ∀ i, (s.W i).point = .announce → s.limited = true
  dropped : s.dropped ≠ [] → s.limited = true

/-! ### Nothing comes up -/

theorem Still.mem_nil (h : s.Still) {i : Fin n} {b : Nat} {t : Task} {ts : List Task}
    (hq : (s.W i).q b = t :: ts ∨ (s.W i).q b = ts ++ [t]) : False := by
  have hnil := (h i).2.1 b
  rcases hq with hq | hq <;> simp [hnil] at hq

theorem Still.no_job (h : s.Still) {i : Fin n} {j : Job} (hj : (s.W i).job = some j) : False := by
  have hnone := (h i).1
  rw [hj] at hnone
  cases hnone

theorem Go.still (h : Go s me (s.W me).point p) (hs : s.Still) : p.phase ≠ .work ∧ p.phase ≠ .loot := by
  have hph := (hs me).2.2
  generalize hp : (s.W me).point = q at h
  rw [hp] at hph
  cases h <;> simp [Point.phase] at hph ⊢

theorem Move.still_self (h : Move u s me s') (hs : s.Still) :
    (s'.W me).job = none ∧ (s'.W me).Drained ∧ (s'.W me).point.phase ≠ .work ∧
      (s'.W me).point.phase ≠ .loot := by
  obtain ⟨hj, hd, hph⟩ := hs me
  cases h <;> simp only [set_self]
  case go h => exact ⟨hj, hd, h.still hs⟩
  case take hq => exact (hs.mem_nil (hq.imp And.right And.right)).elim
  case drop hj' _ | reach hj' _ | count hj' _ _ | print hj' _ | skip hj' _ => exact (hs.no_job hj').elim
  case inc hj' _ | era hj' _ _ | leaf hj' _ _ | sup hj' _ _ => exact (hs.no_job hj').elim
  case announce hp | flush hp => simp [hp, Point.phase] at hph
  case put hp hk => rcases hk with rfl | ⟨key', t', rfl⟩ <;> simp [hp, Point.phase, After.phase] at hph
  case keep hp => simp [hp, Point.phase, After.phase] at hph
  case mark b k hp => cases k <;> simp [hp, Point.phase, After.phase] at hph
  case steal hq => exact (hs.mem_nil (.inl hq)).elim
  case loot hp => simp [hp, Point.phase] at hph
  case finish =>
    unfold Worker.resume
    split <;> exact ⟨hj, hd, by simp [Point.phase], by simp [Point.phase]⟩
  case rouse hp' =>
    rcases hp' with rfl | rfl <;> exact ⟨hj, hd, by simp [Point.phase], by simp [Point.phase]⟩
  all_goals exact ⟨hj, hd, by simp [Worker.runTask, Point.phase], by simp [Worker.runTask, Point.phase]⟩

theorem Move.still (h : Move u s me s') (hs : s.Still) : s'.Still := by
  intro i
  by_cases hi : i = me
  · rw [hi]
    exact h.still_self hs
  · rcases h.others hi with he | ⟨b, t, ts, hq, -⟩ | ⟨g, dq, hd, he⟩
    · rw [he]
      exact hs i
    · exact (hs.mem_nil (.inl hq)).elim
    · rw [he]
      exact hs i

/-! ### The count of active workers -/

variable {t : Ctx n} {w : Worker}

theorem actives_same (hs : s.pending = s.actives) (hW : t.W = (s.set me w).W)
    (hp : t.pending = s.pending) (ha : w.active = (s.W me).active) : t.pending = t.actives := by
  have hsum : (s.set me w).actives + 0 = s.actives + 0 :=
    sum_set (fun w => if w.active then (1 : Int) else 0) (by rw [ha])
  have ht : t.actives = (s.set me w).actives := by rw [Ctx.actives, Ctx.actives, hW]
  rw [hp, hs, ht, ← add_zero s.actives, ← hsum, add_zero]

theorem Move.actives (h : Move u s me s') (hs : s.pending = s.actives) : s'.pending = s'.actives := by
  cases h
  case rouse p hp hp' =>
    by_cases ha : (s.W me).active = true
    · exact actives_same hs rfl (if_pos ha) ha.symm
    · have hsum : (s.set me { s.W me with active := true, point := p }).actives + 0 = s.actives + 1 :=
        sum_set (fun w => if w.active then (1 : Int) else 0) (by simp [ha])
      change (if (s.W me).active then s.pending else s.pending + 1) = _
      rw [if_neg ha, hs, ← hsum, add_zero]
      rfl
  case leave hp ha hpop =>
    have hsum : (s.set me { s.W me with active := false, point := .readPending }).actives + 1 =
        s.actives + 0 := sum_set (fun w => if w.active then (1 : Int) else 0) (by simp [ha])
    change s.pending - 1 = (s.set me { s.W me with active := false, point := .readPending }).actives
    rw [hs]
    omega
  case poolSteal k g dq vic hp hv hd =>
    have hme : (s.set vic { s.W vic with dq := dq }).W me = s.W me := set_of_ne (Ne.symm hv)
    have h1 : (s.set vic { s.W vic with dq := dq }).pending =
        (s.set vic { s.W vic with dq := dq }).actives := actives_same hs rfl rfl rfl
    exact actives_same h1 rfl rfl (by rw [hme])
  case steal k vic b got lim v t ts hp hv hq =>
    have hme : (s.set v ((s.W v).setQ b ts)).W me = s.W me := set_of_ne (Ne.symm hv)
    have h1 : (s.set v ((s.W v).setQ b ts)).pending = (s.set v ((s.W v).setQ b ts)).actives :=
      actives_same hs rfl rfl rfl
    exact actives_same h1 rfl rfl (by rw [hme])
  case mark b k hp => cases k <;> exact actives_same hs rfl rfl rfl
  case finish =>
    refine actives_same hs rfl rfl ?_
    unfold Worker.resume
    split <;> rfl
  all_goals exact actives_same hs rfl rfl rfl

/-- Whoever reads 0 in `pending` finds nothing left. -/
theorem Inv.still_of_pending (h : s.Inv u root) (hp : s.pending = 0) : s.Still := by
  have hz : ∀ i ∈ Finset.univ, (if (s.W i).active then (1 : Int) else 0) = 0 := by
    refine (Finset.sum_eq_zero_iff_of_nonneg fun i _ => ?_).mp (h.pending.symm.trans hp)
    split_ifs <;> omega
  intro i
  refine (h.ok i).active ?_
  by_contra ha
  simpa [ha] using hz i (Finset.mem_univ i)

/-! ### The invariant -/

theorem Inv.owner_lt (h : s.Inv u root) (i : Fin n) (g : Nat) (ho : owner (s.W i).calls = some g) :
    g < s.groups := by
  by_contra hg
  refine h.grouped.owned (i := i) ?_ (h.grouped.fresh g (by omega))
  generalize hc : (s.W i).calls = calls at ho
  unfold owner at ho
  split at ho
  · cases ho
    simp only [Worker.tasks, hc, List.map_cons, List.sum_cons, Call.tasks, if_pos]
    omega
  · cases ho

theorem Move.ok (h : Move u s me s') (hi : s.Inv u root) (i : Fin n) : (s'.W i).Ok := by
  by_cases him : i = me
  · rw [him]
    exact h.self_ok (hi.ok me) (hi.owner_lt me)
  · exact h.others_ok him (hi.ok i)

theorem Move.limited (h : Move u s me s') (hl : s.limited = true) : s'.limited = true := by
  cases h <;> first | exact hl | rfl

theorem Move.announce_limited (h : Move u s me s') (hp : (s'.W me).point = .announce) :
    s'.limited = true := by
  cases h <;> simp only [set_self] at hp
  case reach => rfl
  case go h =>
    subst hp
    generalize (s.W me).point = q at h
    cases h
  case drop | era | print | skip =>
    rcases Worker.ret_point (w := s.W me) with hr | hr <;> rw [hr] at hp <;> cases hp
  case count hp' | rouse hp' => rcases hp' with rfl | rfl <;> cases hp
  case mark b k _ =>
    cases k with
    | done =>
      rcases Worker.ret_point (w := { s.W me with nonempty := insert b (s.W me).nonempty })
        with hr | hr <;> rw [Worker.pushed, hr] at hp <;> cases hp
    | _ => cases hp
  case finish =>
    unfold Worker.resume at hp
    split at hp <;> cases hp
  all_goals cases hp

/-- A worker reads `cnf.pending` after it has read 0 in `pending`. -/
theorem Move.reads (h : Move u s me s')
    (hp : (s'.W me).point = .readCnf ∨ (s'.W me).point = .quit) :
    s.pending = 0 ∨ (s.W me).point = .readCnf := by
  cases h <;> simp only [set_self] at hp
  case go h =>
    generalize hq : (s.W me).point = q at h
    rcases hp with rfl | rfl
    · cases h with
      | none_pending hz => exact .inl hz
    · cases h with
      | none_cnf => exact .inr rfl
  case drop | era | print | skip =>
    rcases Worker.ret_point (w := s.W me) with hr | hr <;> simp [hr] at hp
  case count hp' | rouse hp' => rcases hp' with rfl | rfl <;> simp at hp
  case mark b k _ =>
    cases k with
    | done =>
      rcases Worker.ret_point (w := { s.W me with nonempty := insert b (s.W me).nonempty })
        with hr | hr <;> simp [Worker.pushed, hr] at hp
    | _ => simp [Worker.pushed] at hp
  case finish =>
    unfold Worker.resume at hp
    split at hp <;> simp at hp
  all_goals simp [Worker.runTask] at hp

theorem Move.stops (h : Move u s me s') (hs : s'.stop = true) :
    s.stop = true ∨ (s.W me).point = .announce ∨ (s.W me).point = .quit := by
  cases h
  case announce hp => exact .inr (.inl hp)
  case quit hp => exact .inr (.inr hp)
  all_goals exact .inl hs

theorem Move.drops (h : Move u s me s') (hd : s'.dropped ≠ []) :
    s.dropped ≠ [] ∨ s.stop = true ∧ ∃ j, (s.W me).job = some j := by
  cases h
  case drop j hp hj hs => exact .inr ⟨hs, j, hj⟩
  all_goals exact .inl hd

theorem Move.others_point (h : Move u s me s') {i : Fin n} (hi : i ≠ me) :
    (s'.W i).point = (s.W i).point := by
  rcases h.others hi with he | ⟨b, t, ts, -, he⟩ | ⟨g, dq, -, he⟩
  · rw [he]
  · rw [he]
    rfl
  · rw [he]

theorem Move.still_after (h : Move u s me s') (hi : s.Inv u root)
    (hs : (∃ i, (s'.W i).point = .readCnf ∨ (s'.W i).point = .quit) ∨
      s'.stop = true ∧ s'.limited = false) : s'.Still := by
  apply h.still
  rcases hs with ⟨i, hp⟩ | ⟨hstop, hl⟩
  · by_cases him : i = me
    · rw [him] at hp
      rcases h.reads hp with hz | hr
      · exact hi.still_of_pending hz
      · exact hi.still (.inl ⟨me, .inl hr⟩)
    · rw [h.others_point him] at hp
      exact hi.still (.inl ⟨i, hp⟩)
  · have hl' : s.limited = false := by
      by_contra hne
      rw [h.limited (by simpa using hne)] at hl
      cases hl
    rcases h.stops hstop with hs | hp | hp
    · exact hi.still (.inr ⟨hs, hl'⟩)
    · rw [hi.announced me hp] at hl'
      cases hl'
    · exact hi.still (.inl ⟨me, .inr hp⟩)

theorem Move.inv (h : Move u s me s') (hi : s.Inv u root) : s'.Inv u root where
  ok := h.ok hi
  grouped := h.grouped hi.grouped
  kept := h.kept hi.ok hi.kept
  pending := h.actives hi.pending
  still := h.still_after hi
  announced i hp := by
    by_cases him : i = me
    · rw [him] at hp
      exact h.announce_limited hp
    · rw [h.others_point him] at hp
      exact h.limited (hi.announced i hp)
  dropped hd := by
    apply h.limited
    rcases h.drops hd with hd | ⟨hs, j, hj⟩
    · exact hi.dropped hd
    · by_contra hl
      exact (hi.still (.inr ⟨hs, by simpa using hl⟩)).no_job hj

/-! ### The start -/

theorem start_ok (rootLoc : Nat) (i : Fin n) : ((start n rootLoc).W i).Ok := by
  have hq : ∀ b, ((start n rootLoc).W i).q b ≠ [] → i.val = 0 ∧ b = 0 := by
    intro b hb
    by_contra hc
    exact hb (if_neg hc)
  refine ⟨⟨rfl, rfl, fun hf => by cases hf⟩, fun b hb => .inl ?_, trivial, fun b hb => ?_⟩
  · obtain ⟨hi, rfl⟩ := hq b hb
    change 0 ∈ if i.val = 0 then ({0} : Finset Nat) else ∅
    rw [if_pos hi]
    exact Finset.mem_singleton_self 0
  · by_contra hne
    have hb0 := (hq b hne).2
    rw [hb0] at hb
    simp [wspqBrackets] at hb

theorem start_held (hn : 0 < n) (rootLoc : Nat) :
    (start n rootLoc).held = {(⟨rootLoc, []⟩ : Task)} := by
  have hw : ∀ i : Fin n, ((start n rootLoc).W i).held =
      if i = ⟨0, hn⟩ then {(⟨rootLoc, []⟩ : Task)} else 0 := by
    intro i
    have hhand : ((start n rootLoc).W i).hand = 0 := rfl
    rw [Worker.held, hhand, add_zero, Worker.queued]
    by_cases hi : i.val = 0
    · have he : i = ⟨0, hn⟩ := Fin.ext hi
      rw [if_pos he, Finset.sum_eq_single_of_mem 0 (by simp [wspqBrackets])]
      · simp [start, hi]
      · intro b _ hb
        simp [start, hb]
    · have he : i ≠ ⟨0, hn⟩ := fun he => hi (congrArg Fin.val he)
      rw [if_neg he]
      exact Finset.sum_eq_zero fun b _ => by simp [start, hi]
  simp only [Ctx.held, hw]
  exact Finset.sum_ite_eq' .. |>.trans (if_pos (Finset.mem_univ _))

theorem start_inv (hn : 0 < n) (rootLoc : Nat) : (start n rootLoc).Inv u ⟨rootLoc, []⟩ where
  ok := start_ok rootLoc
  grouped := by
    have ht : ∀ g, (start n rootLoc).tasks g = 0 := fun g => Finset.sum_eq_zero fun i _ => rfl
    refine ⟨fun g => by rw [ht]; rfl, fun g _ => rfl, fun g hg => absurd rfl hg⟩
  kept := by
    refine ⟨?_, ?_⟩
    · rw [start_held hn]
      rfl
    · have ho : (start n rootLoc).owed = 0 := Finset.sum_eq_zero fun i _ => rfl
      rw [ho]
      rfl
  pending := by simp [start, Ctx.actives]
  still := by
    rintro (⟨i, hp | hp⟩ | ⟨hs, -⟩)
    · cases hp
    · cases hp
    · cases hs
  announced i hp := by cases hp
  dropped hd := absurd rfl hd

end Ctx

end Hvm.Collapse
