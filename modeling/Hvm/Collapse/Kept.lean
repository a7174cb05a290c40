import Hvm.Collapse.Branches
import Hvm.Collapse.Pool

/-! Where the locations are. One that was queued is in a bucket, in the hands of a worker, or has
been processed or dropped; and what is processed decides what is queued. -/

namespace Hvm.Collapse

namespace Worker

def queued (w : Worker) : Multiset Task := ∑ b ∈ Finset.range wspqBrackets, (w.q b : Multiset Task)

def taken (w : Worker) : Multiset Task :=
  match w.job with
  | some j => {j.task}
  | none => 0

/-- What the worker has taken out of a bucket and has not processed. -/
def hand (w : Worker) : Multiset Task :=
  match w.point with
  | .push _ t (.steal ..) => {t}
  | .tally | .announce | .flush | .recheck | .push .. | .mark .. => 0
  | _ => w.taken

/-- The branches of a processed superposition that are not queued yet. -/
def owed (w : Worker) : Multiset Task :=
  match w.point with
  | .push _ t (.second _ t') => {t, t'}
  | .push _ t .done => {t}
  | .mark _ (.second _ t) => {t}
  | _ => 0

def held (w : Worker) : Multiset Task := w.queued + w.hand

variable {w : Worker}

theorem queued_setQ {b : Nat} {ts : List Task} (hb : b < wspqBrackets) :
    (w.setQ b ts).queued + (w.q b : Multiset Task) = w.queued + (ts : Multiset Task) :=
  sum_update _ (Finset.mem_range.mpr hb) w.q ts

theorem ret_hand : w.ret.hand = 0 := by
  rcases ret_point (w := w) with hp | hp <;> simp only [hand, hp] <;> rfl

theorem taken_some {j : Job} (hj : w.job = some j) : w.taken = {j.task} := by simp [taken, hj]

theorem ret_owed : w.ret.owed = 0 := by
  rcases ret_point (w := w) with hp | hp <;> simp only [owed, hp]

end Worker

namespace Ctx

variable {n : Nat} {u : Setup} {root : Task} {s s' t : Ctx n} {me : Fin n} {p : Point}
  {w : Worker}

def held (s : Ctx n) : Multiset Task := ∑ i, (s.W i).held

def owed (s : Ctx n) : Multiset Task := ∑ i, (s.W i).owed

structure Kept (u : Setup) (root : Task) (s : Ctx n) : Prop where
  held : root ::ₘ (s.pushed : Multiset Task) = s.processed + s.dropped + s.held
  owed : (s.pushed : Multiset Task) + s.owed = (s.processed : Multiset Task).bind (children u)

theorem held_set {x y : Multiset Task} (h : w.held + y = (s.W me).held + x) :
    (s.set me w).held + y = s.held + x :=
  sum_set Worker.held h

theorem owed_set {x y : Multiset Task} (h : w.owed + y = (s.W me).owed + x) :
    (s.set me w).owed + y = s.owed + x :=
  sum_set Worker.owed h

/-- The worker has the locations it had. -/
theorem Kept.same (h : s.Kept u root)
    (ht : t.W = (s.set me w).W ∧ t.pushed = s.pushed ∧ t.processed = s.processed ∧
      t.dropped = s.dropped)
    (hh : w.held = (s.W me).held) (ho : w.owed = (s.W me).owed) : t.Kept u root := by
  have h1 : (s.set me w).held + 0 = s.held + 0 := held_set (by rw [hh])
  have h2 : (s.set me w).owed + 0 = s.owed + 0 := owed_set (by rw [ho])
  rw [add_zero, add_zero] at h1 h2
  obtain ⟨hW, hp, hc, hd⟩ := ht
  constructor
  · have hs : t.held = s.held := by rw [← h1, Ctx.held, Ctx.held, hW]
    rw [hp, hc, hd, hs]
    exact h.held
  · have hs : t.owed = s.owed := by rw [← h2, Ctx.owed, Ctx.owed, hW]
    rw [hp, hc, hs]
    exact h.owed

theorem Kept.plain (h : s.Kept u root)
    (ht : t.W = (s.set me w).W ∧ t.pushed = s.pushed ∧ t.processed = s.processed ∧
      t.dropped = s.dropped)
    (hq : w.q = (s.W me).q) (hh : w.hand = (s.W me).hand) (ho : w.owed = (s.W me).owed) :
    t.Kept u root := by
  refine h.same ht ?_ ho
  rw [Worker.held, Worker.held, Worker.queued, Worker.queued, hq, hh]

theorem Go.kept (h : Go s me (s.W me).point p) (hk : s.Kept u root) :
    (s.set me { s.W me with point := p }).Kept u root := by
  generalize hp : (s.W me).point = q at h
  cases h with
  | _ =>
    exact hk.plain ⟨rfl, rfl, rfl, rfl⟩ rfl (by simp [Worker.hand, hp, Worker.taken])
      (by simp [Worker.owed, hp])

/-- The location in hand is dropped. -/
theorem Kept.drop (h : s.Kept u root) {j : Job} (hp : (s.W me).point = .enter)
    (hj : (s.W me).job = some j) :
    Kept u root { s.set me (s.W me).ret with dropped := s.dropped ++ [j.task] } := by
  have hh : (s.set me (s.W me).ret).held + {j.task} = s.held + 0 := by
    refine held_set ?_
    rw [Worker.held, Worker.held, Worker.ret_hand]
    simp [Worker.hand, hp, Worker.taken_some hj, Worker.queued, Worker.ret]
  have ho : (s.set me (s.W me).ret).owed + 0 = s.owed + 0 := by
    refine owed_set ?_
    rw [Worker.ret_owed]
    simp [Worker.owed, hp]
  rw [add_zero] at hh ho
  constructor
  · change root ::ₘ (s.pushed : Multiset Task) =
      s.processed + (s.dropped ++ [j.task] : List Task) + (s.set me (s.W me).ret).held
    rw [h.held, ← hh, ← Multiset.coe_add, Multiset.coe_singleton]
    abel
  · change (s.pushed : Multiset Task) + (s.set me (s.W me).ret).owed = _
    rw [ho, add_zero]
    exact h.owed

/-- The location in hand is processed. -/
theorem Kept.process (h : s.Kept u root) {j : Job} (hp : (s.W me).point = .cnf)
    (hj : (s.W me).job = some j) (hq : w.q = (s.W me).q) (hh : w.hand = 0)
    (ho : w.owed = children u j.task) :
    Kept u root { s.set me w with processed := s.processed ++ [j.task] } := by
  have hh' : (s.set me w).held + {j.task} = s.held + 0 := by
    refine held_set ?_
    rw [Worker.held, Worker.held, hh, Worker.queued, Worker.queued, hq]
    simp [Worker.hand, hp, Worker.taken_some hj]
  have ho' : (s.set me w).owed + 0 = s.owed + children u j.task := by
    refine owed_set ?_
    rw [ho]
    simp [Worker.owed, hp]
  rw [add_zero] at hh' ho'
  constructor
  · change root ::ₘ (s.pushed : Multiset Task) =
      (s.processed ++ [j.task] : List Task) + s.dropped + (s.set me w).held
    rw [h.held, ← hh', ← Multiset.coe_add, Multiset.coe_singleton]
    abel
  · change (s.pushed : Multiset Task) + (s.set me w).owed =
      Multiset.bind (s.processed ++ [j.task] : List Task) (children u)
    rw [ho', ← Multiset.coe_add, Multiset.coe_singleton, Multiset.add_bind, Multiset.singleton_bind,
      ← h.owed]
    abel

theorem bucket_lt (key : Nat) : wspqKeyBucket key < wspqBrackets := by
  unfold wspqKeyBucket wspqBrackets
  split_ifs <;> omega

/-- A branch comes into its bucket. -/
theorem Kept.put (h : s.Kept u root) {key : Nat} {t : Task} {k : After}
    (hp : (s.W me).point = .push key t k) (hk : k = .done ∨ ∃ key' t', k = .second key' t') :
    Kept u root { s.set me { (s.W me).setQ (wspqKeyBucket key)
        ((s.W me).q (wspqKeyBucket key) ++ [t]) with point := .mark (wspqKeyBucket key) k } with
      pushed := s.pushed ++ [t] } := by
  set w : Worker := { (s.W me).setQ (wspqKeyBucket key) ((s.W me).q (wspqKeyBucket key) ++ [t]) with
    point := .mark (wspqKeyBucket key) k } with hw
  have hq : w.queued + (s.W me).q (wspqKeyBucket key) =
      (s.W me).queued + ((s.W me).q (wspqKeyBucket key) ++ [t] : List Task) :=
    Worker.queued_setQ (bucket_lt key)
  have hh : (s.set me w).held + 0 = s.held + {t} := by
    refine held_set ?_
    have hhand : w.hand = 0 ∧ (s.W me).hand = 0 := by
      rcases hk with rfl | ⟨key', t', rfl⟩ <;> simp [Worker.hand, hp, hw]
    rw [Worker.held, Worker.held, hhand.1, hhand.2, add_zero, add_zero, add_zero]
    refine add_right_cancel (b := ((s.W me).q (wspqKeyBucket key) : Multiset Task)) ?_
    rw [hq, ← Multiset.coe_add, Multiset.coe_singleton]
    abel
  have ho : (s.set me w).owed + {t} = s.owed + 0 := by
    refine owed_set ?_
    rcases hk with rfl | ⟨key', t', rfl⟩
    · simp [Worker.owed, hp, hw]
    · simp only [Worker.owed, hp, hw, add_zero]
      exact Multiset.pair_comm ..
  rw [add_zero] at hh ho
  constructor
  · change root ::ₘ ((s.pushed ++ [t] : List Task) : Multiset Task) =
      s.processed + s.dropped + (s.set me w).held
    rw [hh, ← add_assoc, ← h.held, ← Multiset.coe_add, Multiset.coe_singleton, Multiset.cons_add]
  · change ((s.pushed ++ [t] : List Task) : Multiset Task) + (s.set me w).owed =
      (s.processed : Multiset Task).bind (children u)
    rw [← h.owed, ← ho, ← Multiset.coe_add, Multiset.coe_singleton]
    abel

/-- A location goes from a bucket into the hand of its owner. -/
theorem Kept.take (h : s.Kept u root) (hok : (s.W me).Ok) {m : Finset Nat} {b : Nat} {t : Task}
    {ts : List Task} {j : Job} (hp : (s.W me).point = .scan m)
    (hq : (s.W me).q b = t :: ts ∨ (s.W me).q b = ts ++ [t]) (hj : j.task = t) :
    (s.set me { (s.W me).setQ b ts with job := some j, point := .enter }).Kept u root := by
  have hb : b < wspqBrackets := by
    by_contra hb
    have hnil := hok.low b (by omega)
    rcases hq with hq | hq <;> simp [hnil] at hq
  have hqb : ((s.W me).q b : Multiset Task) = (ts : Multiset Task) + {t} := by
    rcases hq with hq | hq <;> rw [hq]
    · exact (Multiset.singleton_add t ts).symm.trans (add_comm _ _)
    · rfl
  have hnone : (s.W me).job = none := by
    have hph := hok.phase
    rw [hp] at hph
    exact hph.1
  refine h.same ⟨rfl, rfl, rfl, rfl⟩ ?_ (by simp [Worker.owed, hp])
  have hs : ((s.W me).setQ b ts).queued + {t} = (s.W me).queued := by
    apply add_right_cancel (b := (ts : Multiset Task))
    rw [← Worker.queued_setQ hb, hqb]
    abel
  calc ((s.W me).setQ b ts).queued + {j.task} = (s.W me).queued := by rw [hj, hs]
    _ = (s.W me).held := by simp [Worker.held, Worker.hand, hp, Worker.taken, hnone]

/-- The location that was stolen comes into the bank of the thief. -/
theorem Kept.keep (h : s.Kept u root) {key k vic b got lim : Nat} {t : Task}
    (hp : (s.W me).point = .push key t (.steal k vic b got lim)) :
    (s.set me { (s.W me).setQ (wspqKeyBucket key) ((s.W me).q (wspqKeyBucket key) ++ [t]) with
      point := .mark (wspqKeyBucket key) (.steal k vic b got lim) }).Kept u root := by
  refine h.same ⟨rfl, rfl, rfl, rfl⟩ ?_ (by simp [Worker.owed, hp])
  have hs : ((s.W me).setQ (wspqKeyBucket key) ((s.W me).q (wspqKeyBucket key) ++ [t])).queued =
      (s.W me).queued + {t} := by
    apply add_right_cancel (b := ((s.W me).q (wspqKeyBucket key) : Multiset Task))
    rw [Worker.queued_setQ (bucket_lt key), ← Multiset.coe_add, Multiset.coe_singleton]
    abel
  calc ((s.W me).setQ (wspqKeyBucket key) ((s.W me).q (wspqKeyBucket key) ++ [t])).queued + 0 =
        (s.W me).queued + {t} := by rw [hs, add_zero]
    _ = (s.W me).held := by simp [Worker.held, Worker.hand, hp]

/-- A location goes from a bucket into the hand of another worker. -/
theorem Kept.steal (h : s.Kept u root) (hok : ∀ i, (s.W i).Ok) {k vic b got lim : Nat} {v : Fin n}
    {t : Task} {ts : List Task} (hp : (s.W me).point = .steal k vic b got lim) (hv : v ≠ me)
    (hq : (s.W v).q b = t :: ts) :
    ((s.set v ((s.W v).setQ b ts)).set me
      { s.W me with point := .push b t (.steal k vic b got lim) }).Kept u root := by
  have hb : b < wspqBrackets := by
    by_contra hb
    have hnil := (hok v).low b (by omega)
    simp [hnil] at hq
  have hnone : (s.W me).job = none := by
    have hph := (hok me).phase
    rw [hp] at hph
    cases got with
    | zero => exact hph.1
    | succ got => exact hph.1
  have hme : (s.set v ((s.W v).setQ b ts)).W me = s.W me := set_of_ne (Ne.symm hv)
  have hh1 : (s.set v ((s.W v).setQ b ts)).held + {t} = s.held + 0 := by
    refine held_set ?_
    have hs : ((s.W v).setQ b ts).queued + {t} = (s.W v).queued := by
      apply add_right_cancel (b := (ts : Multiset Task))
      rw [← Worker.queued_setQ hb, hq, ← Multiset.cons_coe, ← Multiset.singleton_add]
      abel
    have hhand : ((s.W v).setQ b ts).hand = (s.W v).hand := rfl
    rw [Worker.held, Worker.held, hhand, ← hs, add_zero]
    abel
  have hh2 : ((s.set v ((s.W v).setQ b ts)).set me
      { s.W me with point := .push b t (.steal k vic b got lim) }).held + 0 =
      (s.set v ((s.W v).setQ b ts)).held + {t} := by
    refine held_set ?_
    rw [hme]
    simp [Worker.held, Worker.hand, hp, Worker.taken, hnone, Worker.queued]
  have ho1 : (s.set v ((s.W v).setQ b ts)).owed + 0 = s.owed + 0 := owed_set rfl
  have ho2 : ((s.set v ((s.W v).setQ b ts)).set me
      { s.W me with point := .push b t (.steal k vic b got lim) }).owed + 0 =
      (s.set v ((s.W v).setQ b ts)).owed + 0 := by
    refine owed_set ?_
    rw [hme]
    simp [Worker.owed, hp]
  constructor
  · rw [← add_zero (Ctx.held _), hh2, hh1, add_zero]
    exact h.held
  · rw [← add_zero (Ctx.owed _), ho2, ho1, add_zero]
    exact h.owed

theorem Move.kept (h : Move u s me s') (hok : ∀ i, (s.W i).Ok) (hk : s.Kept u root) :
    s'.Kept u root := by
  have hph := (hok me).phase
  cases h
  case go h => exact h.kept hk
  case take m b t ts hp hb hq => exact hk.take (hok me) hp (hq.imp And.right And.right) rfl
  case drop j hp hj hs => exact hk.drop hp hj
  case era j hp hc hj hi ho =>
    refine hk.process hp hj rfl Worker.ret_hand ?_
    rw [Worker.ret_owed, children, ho]
  case leaf j hp hc hj hi ho =>
    exact hk.process hp hj rfl rfl (by simp [Worker.owed, children, ho])
  case sup j loc hp hc hj hi ho =>
    exact hk.process hp hj rfl rfl (by simp [Worker.owed, children, ho])
  case put key t k hp hk' => exact hk.put hp hk'
  case keep hp => exact hk.keep hp
  case steal hp hv hq => exact hk.steal hok hp hv hq
  case inc j hp hc hj hi =>
    exact hk.plain ⟨rfl, rfl, rfl, rfl⟩ rfl (by simp [Worker.hand, hp, Worker.taken, hj])
      (by simp [Worker.owed, hp])
  case print hp _ _ | skip hp _ _ =>
    refine hk.plain ⟨rfl, rfl, rfl, rfl⟩ rfl ?_ ?_
    · rw [Worker.ret_hand]
      simp [Worker.hand, hp]
    · rw [Worker.ret_owed]
      simp [Worker.owed, hp]
  case mark b k hp =>
    cases k with
    | second key t =>
      exact hk.plain ⟨rfl, rfl, rfl, rfl⟩ rfl (by simp [Worker.pushed, Worker.hand, hp])
        (by simp [Worker.pushed, Worker.owed, hp])
    | done =>
      refine hk.plain ⟨rfl, rfl, rfl, rfl⟩ rfl ?_ ?_
      · rw [Worker.pushed, Worker.ret_hand]
        simp [Worker.hand, hp]
      · rw [Worker.pushed, Worker.ret_owed]
        simp [Worker.owed, hp]
    | steal k vic b' got lim =>
      rw [hp] at hph
      have hnone : (s.W me).job = none := hph.1
      exact hk.plain ⟨rfl, rfl, rfl, rfl⟩ rfl
        (by simp [Worker.pushed, Worker.hand, Worker.taken, hp, hnone])
        (by simp [Worker.pushed, Worker.owed, hp])
  case count j p hp hj hl hp' =>
    rcases hp' with rfl | rfl <;>
      exact hk.plain ⟨rfl, rfl, rfl, rfl⟩ rfl (by simp [Worker.hand, hp]) (by simp [Worker.owed, hp])
  case rouse p hp hp' =>
    rcases hp' with rfl | rfl <;>
      exact hk.plain ⟨rfl, rfl, rfl, rfl⟩ rfl (by simp [Worker.hand, Worker.taken, hp])
        (by simp [Worker.owed, hp])
  case reach hp _ _ | announce hp | flush hp =>
    exact hk.plain ⟨rfl, rfl, rfl, rfl⟩ rfl (by simp [Worker.hand, hp]) (by simp [Worker.owed, hp])
  case finish g calls hp hc =>
    have hr : ((s.W me).resume calls).q = (s.W me).q ∧
        ((s.W me).resume calls).hand = (s.W me).hand ∧ ((s.W me).resume calls).owed = 0 := by
      unfold Worker.resume
      split <;> simp [Worker.hand, Worker.taken, hp, Worker.owed]
    refine hk.plain ⟨rfl, rfl, rfl, rfl⟩ hr.1 hr.2.1 ?_
    rw [hr.2.2]
    simp [Worker.owed, hp]
  case poolSteal k g dq vic hp hv hd =>
    have hme : (s.set vic { s.W vic with dq := dq }).W me = s.W me := set_of_ne (Ne.symm hv)
    have h1 : (s.set vic { s.W vic with dq := dq }).Kept u root :=
      hk.plain ⟨rfl, rfl, rfl, rfl⟩ rfl rfl rfl
    exact h1.plain ⟨rfl, rfl, rfl, rfl⟩ (by rw [hme]) (by rw [hme]; simp [Worker.hand, Worker.taken, hp])
      (by rw [hme]; simp [Worker.owed, hp])
  case empty hp _ | clear hp | fork hp _ | spawn hp | full hp | wait hp | poolPop hp _ | poolIdle hp =>
    exact hk.plain ⟨rfl, rfl, rfl, rfl⟩ rfl
      (by simp [Worker.runTask, Worker.hand, Worker.taken, hp]) (by simp [Worker.runTask, Worker.owed, hp])
  case poolOff hp | poolTook hp | poolWake hp | poolOn hp | poolBack hp _ | noVictim hp | loot hp =>
    exact hk.plain ⟨rfl, rfl, rfl, rfl⟩ rfl
      (by simp [Worker.runTask, Worker.hand, Worker.taken, hp]) (by simp [Worker.runTask, Worker.owed, hp])
  case leave hp _ _ | quit hp | exit hp =>
    exact hk.plain ⟨rfl, rfl, rfl, rfl⟩ rfl (by simp [Worker.hand, Worker.taken, hp])
      (by simp [Worker.owed, hp])

end Ctx

end Hvm.Collapse
