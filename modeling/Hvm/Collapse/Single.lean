import Hvm.Collapse.Limit
import Hvm.Collapse.Search

/-! One worker. Its buckets are the queue of a search, key by key; it takes the next location of
the search, and prints its lines. -/

namespace Hvm.Collapse

open Search (pick branches line)

/-- The buckets hold the queue. -/
def Worker.Matches (w : Worker) (q : List (Nat × Task)) : Prop :=
  ∀ b, w.q b = (q.filter fun e => e.1 = b).map Prod.snd

/-- What the worker and the search share. -/
structure View where
  w : Worker
  stop : Bool
  processed : List Task
  counted : List (List Bool)

/-- No location is in hand. -/
structure View.Between (u : Setup) (v : View) (σ : Search) : Prop where
  bank : v.w.Matches σ.queue
  processed : v.processed = σ.processed
  counted : v.counted = σ.lines
  room : v.stop = false → σ.lines.length < u.limit
  full : v.stop = true → u.limit ≤ σ.lines.length ∨ σ.queue = []
  stolen : v.w.stolen = 0

/-- The entry `e` has been taken. -/
structure View.Taken (u : Setup) (v : View) (σ : Search) (e : Nat × Task) (q : List (Nat × Task)) :
    Prop where
  pick : pick σ.queue = some e
  room : σ.lines.length < u.limit
  bank : v.w.Matches (σ.queue.erase e ++ q)
  job : ∃ j, v.w.job = some j ∧ j.task = e.2

/-- The entry `e` has been processed. -/
structure View.Lifted (u : Setup) (v : View) (σ : Search) (e : Nat × Task) (q : List (Nat × Task)) :
    Prop extends v.Taken u σ e q where
  processed : v.processed = σ.processed ++ [e.2]
  counted : v.counted = σ.lines
  running : v.stop = false

/-- The leaf `e` has been counted. -/
structure View.Asked (u : Setup) (v : View) (σ : Search) (e : Nat × Task) : Prop
    extends v.Taken u σ e [] where
  leaf : (u.tree e.2.path).out = .leaf
  processed : v.processed = σ.processed ++ [e.2]
  counted : v.counted = σ.lines ++ [e.2.path]

def View.At (u : Setup) (v : View) (σ : Search) : Point → Prop
  | .check | .exit | .left | .tryRun | .leave | .readCnf | .quit => v.Between u σ
  | .pop | .scan _ => v.Between u σ ∧ v.stop = false
  | .clear m b => v.Between u σ ∧ v.stop = false ∧ b ∈ m
  | .canSteal k => v.Between u σ ∧ k = 1
  | .readPending => v.Between u σ ∧ (v.w.popped = false → v.w.active = false)
  | .enter | .cnf =>
    v.processed = σ.processed ∧ v.counted = σ.lines ∧ v.stop = false ∧ v.w.calls = [] ∧
      ∃ e j, v.Taken u σ e [] ∧ v.w.job = some j ∧ j.incs ≤ (u.tree e.2.path).incs ∧
        j.key = e.1 - ((u.tree e.2.path).incs - j.incs)
  | .tally => ∃ e, v.Lifted u σ e [] ∧ (u.tree e.2.path).out = .leaf
  | .announce => ∃ e, v.Asked u σ e ∧ u.limit ≤ σ.lines.length + 1
  | .flush | .recheck =>
    ∃ e, v.Asked u σ e ∧ (v.stop = false → σ.lines.length + 1 < u.limit) ∧
      (v.stop = true → u.limit ≤ σ.lines.length + 1)
  | .push key t (.second key' t') =>
    ∃ e, v.Lifted u σ e [] ∧ branches u e = [(wspqKeyBucket key, t), (wspqKeyBucket key', t')]
  | .mark b (.second key t) =>
    ∃ e t', v.Lifted u σ e [(b, t')] ∧ branches u e = [(b, t'), (wspqKeyBucket key, t)]
  | .push key t .done => ∃ e x, v.Lifted u σ e [x] ∧ branches u e = [x, (wspqKeyBucket key, t)]
  | .mark _ .done => ∃ e, v.Lifted u σ e (branches u e) ∧ (u.tree e.2.path).out.isSup
  | _ => False

namespace Worker

variable {w : Worker} {q : List (Nat × Task)} {b : Nat} {t : Task} {ts : List Task}

theorem Matches.mem (h : w.Matches q) {e : Nat × Task} (he : e ∈ q) : w.q e.1 ≠ [] := by
  rw [h e.1]
  refine List.ne_nil_of_mem (List.mem_map_of_mem (a := e) (List.mem_filter.mpr ⟨he, ?_⟩))
  exact decide_eq_true rfl

theorem Matches.nil (h : w.Matches q) (hd : w.Drained) : q = [] := by
  by_contra hne
  obtain ⟨e, he⟩ := List.exists_mem_of_ne_nil q hne
  exact h.mem he (hd e.1)

theorem Matches.head (h : w.Matches q) (hq : w.q b = t :: ts) :
    ∃ es, (q.filter fun e => e.1 = b) = (b, t) :: es ∧ es.map Prod.snd = ts := by
  have hhead : (q.filter fun e => e.1 = b).map Prod.snd = t :: ts := (h b).symm.trans hq
  obtain ⟨e, es, hes, het, hmap⟩ := List.map_eq_cons_iff.mp hhead
  have hmem : e ∈ q.filter fun e => e.1 = b := by
    rw [hes]
    exact List.mem_cons_self
  have heb : e.1 = b := by simpa using (List.mem_filter.mp hmem).2
  have he : e = (b, t) := Prod.ext heb het
  rw [he] at hes
  exact ⟨es, hes, hmap⟩

/-- The head of the least bucket is the next of the queue. -/
theorem Matches.pick (h : w.Matches q) (hq : w.q b = t :: ts)
    (hmin : ∀ b', w.q b' ≠ [] → b ≤ b') : pick q = some (b, t) := by
  obtain ⟨es, hes, -⟩ := h.head hq
  have hmem : (b, t) ∈ q := List.mem_of_mem_filter (by rw [hes]; exact List.mem_cons_self)
  have hcongr : q.find? (fun e => q.all fun e' => e.1 ≤ e'.1) = q.find? fun e => e.1 = b := by
    refine List.find?_congr fun e he => ?_
    have hle := hmin e.1 (h.mem he)
    refine Bool.eq_iff_iff.mpr ?_
    simp only [List.all_eq_true, decide_eq_true_eq]
    refine ⟨fun hall => ?_, fun hb e' he' => ?_⟩
    · exact Nat.le_antisymm (hall _ hmem) hle
    · rw [hb]
      exact hmin e'.1 (h.mem he')
  rw [Search.pick, hcongr, ← List.head?_filter, hes, List.head?_cons]

theorem Matches.take (h : w.Matches q) (hq : w.q b = t :: ts) :
    (w.setQ b ts).Matches (q.erase (b, t)) := by
  obtain ⟨es, hes, hmap⟩ := h.head hq
  intro b'
  rw [← List.erase_filter]
  by_cases hb : b' = b
  · rw [hb, hes, List.erase_cons_head, hmap]
    exact Function.update_self ..
  · have hnot : (b, t) ∉ q.filter fun e => e.1 = b' := by simp [Ne.symm hb]
    rw [List.erase_of_not_mem hnot, ← h b']
    exact Function.update_of_ne hb ..

theorem Matches.put (h : w.Matches q) : (w.setQ b (w.q b ++ [t])).Matches (q ++ [(b, t)]) := by
  intro b'
  by_cases hb : b' = b
  · rw [hb]
    simp [setQ, h b]
  · simp [setQ, Function.update_of_ne hb, h b', Ne.symm hb]

end Worker

/-- The worker goes on with the same bank. -/
theorem View.Between.goOn {u : Setup} {v : View} {σ : Search} {w : Worker} (h : v.Between u σ)
    (hq : w.q = v.w.q) (hs : w.stolen = 0) :
    View.Between u ⟨w, v.stop, v.processed, v.counted⟩ σ := by
  refine ⟨fun b => ?_, h.processed, h.counted, h.room, h.full, hs⟩
  change w.q b = _
  rw [hq]
  exact h.bank b

theorem lsb_some {m : Finset Nat} {b : Nat} (h : wspqLsb m = some b) :
    b ∈ m ∧ ∀ b' ∈ m, b ≤ b' := by
  unfold wspqLsb at h
  split_ifs at h with hm
  cases h
  exact ⟨m.min'_mem hm, fun b' hb' => m.min'_le b' hb'⟩

/-- What the end of a location makes of the search. -/
theorem View.Taken.step {u : Setup} {v : View} {σ : Search} {e : Nat × Task} {q : List (Nat × Task)}
    (h : v.Taken u σ e q) : Search.Step u σ (Search.process u σ e) := by
  rw [Search.Step, Search.next, if_neg (Nat.not_le.mpr h.room), h.pick]
  rfl

theorem View.Taken.task {u : Setup} {v : View} {σ : Search} {e : Nat × Task}
    {q : List (Nat × Task)} (h : v.Taken u σ e q) {j : Job} (hj : v.w.job = some j) :
    j.task = e.2 := by
  obtain ⟨j', hj', ht⟩ := h.job
  cases hj.symm.trans hj'
  exact ht

theorem View.Between.ret {u : Setup} {v : View} {σ : Search} (h : v.Between u σ) {w : Worker} :
    v.At u σ w.ret.point := by
  rcases Worker.ret_point (w := w) with hp | hp <;> rw [hp]
  · exact h
  · exact ⟨h, rfl⟩

namespace Ctx

def view (s : Ctx 1) : View := ⟨s.W 0, s.stop, s.processed, s.counted⟩

/-- The worker is where the search is. -/
structure Follows (u : Setup) (s : Ctx 1) (σ : Search) : Prop where
  printed : s.printed + (s.W 0).localPrinted = s.counted.length
  lines : s.lines = σ.lines
  cnfPending : s.cnfPending = 0
  at_ : s.view.At u σ (s.W 0).point

/-- Goes down until the search goes on. -/
def pointRank (w : Worker) (stop : Bool) : Nat :=
  let bank := 2 * w.nonempty.card
  let idle := if w.popped then bank + 15 else 5
  match w.point, w.job with
  | .left, _ => 0
  | .exit, _ => 1
  | .check, _ => if stop then 2 else bank + 14
  | .quit, _ => 3
  | .readCnf, _ => 4
  | .pop, _ => bank + 13
  | .scan m, _ => 2 * m.card + 12
  | .clear m _, _ => 2 * m.card + 11
  | .canSteal _, _ => idle + 3
  | .tryRun, _ => idle + 2
  | .leave, _ => idle + 1
  | .readPending, _ => idle
  | .enter, some j => 2 * j.incs + 10
  | .cnf, some j => 2 * j.incs + 9
  | .tally, _ => 8
  | .announce, _ => 7
  | .flush, _ => 6
  | .recheck, _ => 5
  | .push _ _ (.second ..), _ => 8
  | .mark _ (.second ..), _ => 7
  | .push .., _ => 6
  | .mark .., _ => 5
  | _, _ => 0

def rank (s : Ctx 1) : ℕ ×ₗ ℕ :=
  toLex (if (s.W 0).job = none then 1 else 0, pointRank (s.W 0) s.stop)

variable {u : Setup} {root : Task} {s s' t : Ctx 1} {σ σ' : Search} {p : Point} {w : Worker}

theorem Follows.of (hW : t.W = (s.set 0 w).W) (hprinted : t.printed + w.localPrinted = t.counted.length)
    (hlines : t.lines = σ.lines) (hcnf : t.cnfPending = 0)
    (hat : View.At u ⟨w, t.stop, t.processed, t.counted⟩ σ w.point) : Follows u t σ := by
  have hw : t.W 0 = w := by rw [hW, set_self]
  subst hw
  exact ⟨hprinted, hlines, hcnf, hat⟩

theorem Go.at_ (h : Go s 0 (s.W 0).point p) (hi : s.Inv u root) (hf : Follows u s σ) :
    View.At u ⟨{ s.W 0 with point := p }, s.stop, s.processed, s.counted⟩ σ p ∧
      pointRank { s.W 0 with point := p } s.stop < pointRank (s.W 0) s.stop := by
  have hat := hf.at_
  generalize hp : (s.W 0).point = q at h hat
  cases h with
  | stopped hs => exact ⟨hat.goOn rfl hat.stolen, by simp [pointRank, hp, hs]⟩
  | running hs => exact ⟨⟨hat.goOn rfl hat.stolen, hs⟩, by simp [pointRank, hp, hs]⟩
  | load => exact ⟨⟨hat.1.goOn rfl hat.1.stolen, hat.2⟩, by simp [pointRank, hp]⟩
  | missed hb => exact ⟨⟨hat.1.goOn rfl hat.1.stolen, hat.2, (lsb_some hb).1⟩, by simp [pointRank, hp]⟩
  | enter hs =>
    obtain ⟨h1, h2, h3, h4, e, j, ht, hj, hle, hkey⟩ := hat
    have hj' : (s.W 0).job = some j := hj
    refine ⟨⟨h1, h2, h3, h4, e, j, ⟨ht.pick, ht.room, ht.bank, ht.job⟩, hj, hle, hkey⟩, ?_⟩
    simp [pointRank, hp, hj']
  | seen hk | unseen hk =>
    obtain ⟨-, rfl⟩ := hat
    exact absurd hk (lt_irrefl 1)
  | none => exact ⟨hat.1.goOn rfl hat.1.stolen, by simp [pointRank, hp]⟩
  | noPool => exact ⟨hat.goOn rfl hat.stolen, by simp [pointRank, hp]⟩
  | pool hn => exact absurd hn (lt_irrefl 1)
  | stay hst =>
    refine ⟨⟨hat.goOn rfl hat.stolen, fun hpop => ?_⟩, by simp [pointRank, hp]⟩
    rcases hst with ha | hpop' | hst
    · exact ha
    · have hpop : (s.W 0).popped = false := hpop
      rw [hpop] at hpop'
      cases hpop'
    · exact absurd hat.stolen hst
  | none_pending hz =>
    refine ⟨hat.1.goOn rfl hat.1.stolen, ?_⟩
    simp only [pointRank, hp]
    split_ifs <;> omega
  | some_pending hz =>
    refine ⟨hat.1.goOn rfl hat.1.stolen, ?_⟩
    have hpop : (s.W 0).popped = true := by
      by_contra hpop
      have ha : (s.W 0).active = false := hat.2 (by simpa [view] using hpop)
      refine hz (hi.pending.trans ?_)
      simp [Ctx.actives, ha]
    simp only [pointRank, hp, hpop, if_true]
    split_ifs <;> omega
  | none_cnf => exact ⟨hat.goOn rfl hat.stolen, by simp [pointRank, hp]⟩
  | some_cnf hz => exact absurd hf.cnfPending hz
  | _ => exact hat.elim

theorem Follows.take (hf : Follows u s σ) (hi : s.Inv u root) {m : Finset Nat} {b : Nat} {t : Task}
    {ts : List Task} (hp : (s.W 0).point = .scan m) (hb : wspqLsb m = some b)
    (hq : (s.W 0).q b = t :: ts) :
    Follows u (s.set 0 { (s.W 0).setQ b ts with
      job := some ⟨b, (u.tree t.path).incs, t⟩, point := .enter }) σ := by
  have hat := hf.at_
  rw [hp] at hat
  obtain ⟨hbt, hrun⟩ := hat
  have hsc := (hi.ok 0).scanned
  have hph := (hi.ok 0).phase
  rw [Worker.Scanned, hp] at hsc
  rw [hp] at hph
  have hroom : σ.lines.length < u.limit := hbt.room hrun
  have hpick : pick σ.queue = some (b, t) :=
    hbt.bank.pick hq fun b' hb' => (lsb_some hb).2 b' (hsc b' hb')
  refine .of rfl hf.printed hf.lines hf.cnfPending
    ⟨hbt.processed, hbt.counted, hrun, hph.2.1, (b, t), _, ⟨hpick, hroom, ?_, _, rfl, rfl⟩, rfl, le_rfl, ?_⟩
  · rw [List.append_nil]
    exact hbt.bank.take hq
  · simp

/-- The search goes on when the worker returns from `eval_collapse_process_loc`. -/
theorem Follows.ret {e : Nat × Task} {q : List (Nat × Task)} {v : View} (ht : v.Taken u σ e q)
    (hW : t.W = (s.set 0 v.w.ret).W) (hs : t.stop = v.stop)
    (hprinted : t.printed + v.w.localPrinted = t.counted.length)
    (hlines : t.lines = σ.lines ++ line u e.2)
    (hcnf : t.cnfPending = 0) (hq : branches u e = q) (hp : t.processed = σ.processed ++ [e.2])
    (hc : t.counted = σ.lines ++ line u e.2)
    (hroom : v.stop = false → t.counted.length < u.limit)
    (hfull : v.stop = true → u.limit ≤ t.counted.length) :
    ∃ σ', Search.Step u σ σ' ∧ Follows u t σ' ∧ t.processed = σ'.processed := by
  refine ⟨_, ht.step, Follows.of hW hprinted hlines hcnf (View.Between.ret ?_), hp⟩
  refine ⟨?_, hp, hc, fun hst => ?_, fun hst => .inl ?_, rfl⟩
  · have hbank := ht.bank
    rw [← hq] at hbank
    exact hbank
  · have hlen := hroom (hs ▸ hst)
    rwa [hc] at hlen
  · have hlen := hfull (hs ▸ hst)
    rwa [hc] at hlen

/-- A worker that has left has no search to go on with. -/
theorem Follows.left (hf : Follows u s σ) (hs : s.Stopped) (hp : (s.W 0).point = .left) :
    u.limit ≤ σ.lines.length ∨ σ.queue = [] := by
  have hat := hf.at_
  rw [hp] at hat
  exact hat.full (hs 0 (.inr hp))

end Ctx

section Runs

open Ctx

variable {u : Setup} {rootLoc : Nat} {s : Ctx 1}

end Runs

end Hvm.Collapse
