import Hvm.Term

/-! The workers of `eval_normalize` (`eval/normalize.c`): their deques, the set of locations
seen and the counter `pending` by which they decide to stop. An operation on a deque is one
step, and `wnf_at` may return any term. -/

namespace Hvm.Normalize

/-- Where a worker is in `eval_normalize_worker` and the `eval_normalize_go` it calls. -/
inductive Point where
  /-- At the head of the loop, before `pending` is read. -/
  | check
  | pop
  /-- At the head of the loop of `eval_normalize_go`. -/
  | go (loc : Nat)
  /-- `wnf_at` runs. -/
  | wnf (loc : Nat)
  /-- At the head of the loop that enqueues the fields of the node at `tloc`. -/
  | push (tloc i : Nat)
  /-- At victim `k` of the loop over the other workers. -/
  | scan (start k : Nat)
  /-- `wsq_can_steal` has said yes. -/
  | found (start k : Nat)
  | steal (start k : Nat)
  /-- Nothing was stolen. -/
  | idle
  | left
  deriving DecidableEq, Repr

/-- One `EvalNormalizeWorker`, with the locals of its thread. `waiting` are the calls of
`eval_normalize_go` that wait in `eval_normalize_enqueue`, because their deque was full. -/
structure Worker where
  dq : List Nat
  active : Bool
  r : Nat
  waiting : List (Nat × Nat)
  point : Point
  deriving DecidableEq

/-- `EvalNormalizeCtx`, with the locations enqueued and the locations normalised so far. -/
structure Ctx (n : Nat) where
  W : Fin n → Worker
  seen : Finset Nat
  pending : Int
  queued : Finset Nat
  normal : Finset Nat

/-- The term `wnf_at` returns, a steal that loses its race, or any other step. -/
inductive Act where
  | step
  | normalised (t : Term)
  | lost

def wsqCap : Nat := 2 ^ 21

/-- The locations `uset_add` has a bit for. -/
def InHeap (loc : Nat) : Prop := loc ≠ 0 ∧ loc / 64 < heapCap / 64

instance : DecidablePred InHeap := fun _ => inferInstanceAs (Decidable (_ ∧ _))

namespace Worker

/-- `eval_normalize_go` returns. -/
def ret (w : Worker) : Worker :=
  match w.waiting with
  | [] => { w with point := .check }
  | (tloc, i) :: waiting => { w with waiting := waiting, point := .push tloc i }

/-- `eval_normalize_enqueue`, called in the loop that `point` goes on with. -/
def enqueue (w : Worker) (loc tloc i : Nat) : Worker :=
  if w.dq.length < wsqCap then { w with dq := w.dq ++ [loc], point := .push tloc i }
  else { w with waiting := (tloc, i) :: w.waiting, point := .go loc }

end Worker

def xorshift (r : Nat) : Nat :=
  let r := r ^^^ (r <<< 13 % 2 ^ 32)
  let r := r ^^^ (r >>> 17)
  r ^^^ (r <<< 5 % 2 ^ 32)

namespace Ctx

variable {n : Nat}

def set (s : Ctx n) (me : Fin n) (w : Worker) : Ctx n := { s with W := Function.update s.W me w }

def victim (me : Fin n) (start k : Nat) : Fin n :=
  ⟨(start + k) % n, Nat.mod_lt _ (Nat.zero_lt_of_lt me.isLt)⟩

/-- A step of worker `me`. -/
def turn (s : Ctx n) (me : Fin n) (a : Act) : Option (Ctx n) :=
  let w := s.W me
  match w.point, a with
  | .check, .step =>
    if s.pending = 0 then some (s.set me { w with point := .left })
    else some (s.set me { w with point := .pop })
  | .pop, .step =>
    match w.dq.getLast? with
    | some loc => some (s.set me { w with dq := w.dq.dropLast, point := .go loc })
    | none =>
      let start := (me + 1 + w.r % 8) % n
      some (s.set me { w with r := xorshift w.r, point := .scan start 0 })
  | .go loc, .step =>
    if InHeap loc ∧ loc ∉ s.seen then
      some { s.set me { w with point := .wnf loc } with seen := insert loc s.seen }
    else some (s.set me w.ret)
  | .wnf loc, .normalised t =>
    let w :=
      if t.tag = .dp0 ∨ t.tag = .dp1 then { w with point := .go t.val }
      else if termArity t = 0 then w.ret
      else { w with point := .push t.val (termArity t) }
    some { s.set me w with normal := insert loc s.normal }
  | .push tloc i, .step =>
    if i > 1 then
      let loc := tloc + (i - 1)
      some { s.set me (w.enqueue loc tloc (i - 1)) with queued := insert loc s.queued }
    else some (s.set me { w with point := .go tloc })
  | .scan start k, .step =>
    if k < n - 1 then
      let vic := victim me start k
      if vic ≠ me ∧ (s.W vic).dq ≠ [] then some (s.set me { w with point := .found start k })
      else some (s.set me { w with point := .scan start (k + 1) })
    else some (s.set me { w with point := .idle })
  | .found start k, .step =>
    let pending := if w.active then s.pending else s.pending + 1
    some { s.set me { w with active := true, point := .steal start k } with pending := pending }
  | .steal start k, .step =>
    let vic := victim me start k
    match (s.W vic).dq with
    | loc :: dq =>
      some ((s.set vic { s.W vic with dq := dq }).set me { w with point := .go loc })
    | [] => some (s.set me { w with point := .scan start (k + 1) })
  | .steal start k, .lost => some (s.set me { w with point := .scan start (k + 1) })
  | .idle, .step =>
    let pending := if w.active then s.pending - 1 else s.pending
    some { s.set me { w with active := false, point := .check } with pending := pending }
  | _, _ => none

/-- `eval_normalize` has put the root in the deque of worker 0, and all workers start. -/
def start (n rootLoc : Nat) : Ctx n where
  W i := ⟨if i.val = 0 then [rootLoc] else [], true, (0x9E3779B9 ^^^ i) % 2 ^ 32, [], .check⟩
  seen := ∅
  pending := n
  queued := {rootLoc}
  normal := ∅

/-- Some worker takes a step. -/
def Step (s s' : Ctx n) : Prop := ∃ me a, s.turn me a = some s'

end Ctx

/-! Invariants -/

/-- A task is in the hands of the worker. -/
def Point.Busy : Point → Prop
  | .go _ | .wnf _ | .push _ _ => True
  | _ => False

/-- Nothing is queued in the deque of the worker, and nothing is being processed. -/
def Worker.Quiet (w : Worker) : Prop := w.dq = [] ∧ w.waiting = [] ∧ ¬ w.point.Busy

/-- What holds of one worker at each program point. -/
def Worker.Ok (w : Worker) : Prop :=
  match w.point with
  | .check | .pop => w.waiting = [] ∧ (w.active = false → w.dq = [])
  | .go _ | .wnf _ | .push _ _ => w.active = true
  | .scan _ _ | .found _ _ | .idle | .left => w.waiting = [] ∧ w.dq = []
  | .steal _ _ => w.waiting = [] ∧ w.dq = [] ∧ w.active = true

/-- The number of workers whose active flag is set. -/
def Ctx.actives {n : Nat} (s : Ctx n) : Nat :=
  (Finset.univ.filter fun i => (s.W i).active = true).card

/-- A location is in a deque, or about to be taken up. -/
def Ctx.Waits {n : Nat} (s : Ctx n) (loc : Nat) : Prop :=
  ∃ i, loc ∈ (s.W i).dq ∨ (s.W i).point = .go loc

structure Ctx.Inv {n : Nat} (s : Ctx n) : Prop where
  pending : s.pending = s.actives
  ok : ∀ i, (s.W i).Ok
  left : ∀ i, (s.W i).point = .left → ∀ j, (s.W j).Quiet
  queued : ∀ loc ∈ s.queued, InHeap loc → s.Waits loc ∨ loc ∈ s.seen
  seen : ∀ loc ∈ s.seen, loc ∈ s.normal ∨ ∃ i, (s.W i).point = .wnf loc

variable {n : Nat} {s s' : Ctx n} {me : Fin n} {w : Worker}

theorem Worker.Ok.quiet (h : w.Ok) (ha : w.active = false) : w.Quiet := by
  obtain ⟨dq, active, r, waiting, point⟩ := w
  obtain rfl : active = false := ha
  cases point <;> simp_all [Worker.Ok, Worker.Quiet, Point.Busy]

namespace Ctx

@[simp] theorem set_self : (s.set me w).W me = w := Function.update_self ..

theorem set_of_ne {i : Fin n} (h : i ≠ me) : (s.set me w).W i = s.W i := Function.update_of_ne h ..

theorem actives_set : ((s.set me w).actives : Int) =
    s.actives + (if w.active then 1 else 0) - if (s.W me).active then 1 else 0 := by
  have hsum : ∀ t : Ctx n, (t.actives : Int) = ∑ i, if (t.W i).active then 1 else 0 := by
    intro t
    simp [actives]
  have hrest : ∑ i ∈ Finset.univ.erase me, (if ((s.set me w).W i).active then (1 : Int) else 0) =
      ∑ i ∈ Finset.univ.erase me, if (s.W i).active then 1 else 0 :=
    Finset.sum_congr rfl fun i hi => by rw [set_of_ne (Finset.ne_of_mem_erase hi)]
  rw [hsum, hsum, ← Finset.add_sum_erase _ _ (Finset.mem_univ me), hrest,
    ← Finset.add_sum_erase _ (fun i => if (s.W i).active then (1 : Int) else 0) (Finset.mem_univ me),
    set_self]
  omega

/-- A worker's step that leaves the deques of the others alone. -/
theorem Inv.set (h : s.Inv) {pending : Int} {seen queued normal : Finset Nat}
    (hp : pending = s.pending + (if w.active then 1 else 0) - if (s.W me).active then 1 else 0)
    (hok : w.Ok) (hleft : w.point = .left → ∀ j, ((s.set me w).W j).Quiet)
    (hstill : ∀ i, (s.W i).point = .left → w.Quiet)
    (hqueued : ∀ loc ∈ queued, InHeap loc → (s.set me w).Waits loc ∨ loc ∈ seen)
    (hseen : ∀ loc ∈ seen, loc ∈ normal ∨ ∃ i, ((s.set me w).W i).point = .wnf loc) :
    Inv { s.set me w with pending := pending, seen := seen, queued := queued, normal := normal } := by
  refine ⟨?_, fun i => ?_, fun i hi j => ?_, hqueued, hseen⟩
  · have ha : ((s.set me w).actives : Int) = _ := actives_set
    have he := h.pending
    change pending = ((s.set me w).actives : Int)
    omega
  · change ((s.set me w).W i).Ok
    by_cases hi : i = me
    · rw [hi, set_self]
      exact hok
    · rw [set_of_ne hi]
      exact h.ok i
  · change ((s.set me w).W i).point = .left at hi
    change ((s.set me w).W j).Quiet
    by_cases him : i = me
    · rw [him, set_self] at hi
      exact hleft hi j
    · rw [set_of_ne him] at hi
      have hq := h.left i hi
      by_cases hj : j = me
      · rw [hj, set_self]
        exact hstill i hi
      · rw [set_of_ne hj]
        exact hq j

/-- What was waiting still is, but for what worker `me` takes up. -/
theorem Inv.queued_set (h : s.Inv) {seen : Finset Nat} (hsub : s.seen ⊆ seen)
    (hme : ∀ loc, InHeap loc → loc ∈ (s.W me).dq ∨ (s.W me).point = .go loc →
      (loc ∈ w.dq ∨ w.point = .go loc) ∨ loc ∈ seen) :
    ∀ loc ∈ s.queued, InHeap loc → (s.set me w).Waits loc ∨ loc ∈ seen := by
  intro loc hl hin
  rcases h.queued loc hl hin with ⟨i, hi⟩ | hs
  · by_cases him : i = me
    · rw [him] at hi
      exact (hme loc hin hi).imp (fun hm => ⟨me, by rwa [set_self]⟩) id
    · exact .inl ⟨i, by rwa [set_of_ne him]⟩
  · exact .inr (hsub hs)

/-- What `wnf_at` was called on is still in the works, but for what worker `me` has done. -/
theorem Inv.seen_set (h : s.Inv) {normal : Finset Nat} (hsub : s.normal ⊆ normal)
    (hme : ∀ loc, (s.W me).point = .wnf loc → w.point = .wnf loc ∨ loc ∈ normal) :
    ∀ loc ∈ s.seen, loc ∈ normal ∨ ∃ i, ((s.set me w).W i).point = .wnf loc := by
  intro loc hl
  rcases h.seen loc hl with hn | ⟨i, hi⟩
  · exact .inl (hsub hn)
  · by_cases him : i = me
    · rw [him] at hi
      exact (hme loc hi).symm.imp id fun hm => ⟨me, by rwa [set_self]⟩
    · exact .inr ⟨i, by rwa [set_of_ne him]⟩

/-- A step of a worker without a task in hand, which keeps its deque. -/
theorem Inv.move (h : s.Inv) {pending : Int} (hb : ¬ (s.W me).point.Busy)
    (hdq : w.dq = (s.W me).dq) (hw : w.waiting = (s.W me).waiting)
    (hp : pending = s.pending + (if w.active then 1 else 0) - if (s.W me).active then 1 else 0)
    (hok : w.Ok) (hbusy : ¬ w.point.Busy)
    (hleft : w.point = .left → ∀ j, ((s.set me w).W j).Quiet) :
    Inv { s.set me w with pending := pending } := by
  refine h.set hp hok hleft (fun i hi => ?_) (h.queued_set subset_rfl fun loc _ hm => ?_)
    (h.seen_set subset_rfl fun loc hm => ?_)
  · obtain ⟨h1, h2, -⟩ := h.left i hi me
    exact ⟨hdq.trans h1, hw.trans h2, hbusy⟩
  · rcases hm with hm | hm
    · exact .inl (.inl (hdq ▸ hm))
    · rw [hm] at hb
      exact (hb trivial).elim
  · rw [hm] at hb
    exact (hb trivial).elim

theorem Inv.stay (h : s.Inv) (hb : ¬ (s.W me).point.Busy) (hdq : w.dq = (s.W me).dq)
    (hw : w.waiting = (s.W me).waiting) (ha : w.active = (s.W me).active) (hok : w.Ok)
    (hbusy : ¬ w.point.Busy) (hleft : w.point = .left → ∀ j, ((s.set me w).W j).Quiet) :
    (s.set me w).Inv :=
  h.move hb hdq hw (by rw [ha]; exact (add_sub_cancel_right _ _).symm) hok hbusy hleft

/-- A step of a worker with a task in hand. -/
theorem Inv.work (h : s.Inv) {seen queued normal : Finset Nat} (hb : (s.W me).point.Busy)
    (ha : w.active = (s.W me).active) (hok : w.Ok) (hleft : w.point ≠ .left)
    (hqueued : ∀ loc ∈ queued, InHeap loc → (s.set me w).Waits loc ∨ loc ∈ seen)
    (hseen : ∀ loc ∈ seen, loc ∈ normal ∨ ∃ i, ((s.set me w).W i).point = .wnf loc) :
    Inv { s.set me w with seen := seen, queued := queued, normal := normal } :=
  h.set (by rw [ha]; exact (add_sub_cancel_right _ _).symm) hok (fun hl => (hleft hl).elim) (fun i hi => ((h.left i hi me).2.2 hb).elim)
    hqueued hseen

end Ctx

theorem Worker.ret_ok (ha : w.active = true) : w.ret.Ok := by
  unfold Worker.ret
  split
  case h_1 hw => exact ⟨hw, fun hf => by rw [ha] at hf; cases hf⟩
  case h_2 => exact ha

@[simp] theorem Worker.ret_dq : w.ret.dq = w.dq := by
  unfold Worker.ret
  split <;> rfl

@[simp] theorem Worker.ret_active : w.ret.active = w.active := by
  unfold Worker.ret
  split <;> rfl

theorem Worker.ret_point : w.ret.point ≠ .left := by
  unfold Worker.ret
  split <;> nofun

/-- What `eval_normalize_enqueue` does to the worker. -/
theorem Worker.enqueue_spec (loc tloc i : Nat) (ha : w.active = true) :
    (w.enqueue loc tloc i).active = w.active ∧ (w.enqueue loc tloc i).point ≠ .left ∧
      (w.enqueue loc tloc i).Ok ∧ (∀ l ∈ w.dq, l ∈ (w.enqueue loc tloc i).dq) ∧
      (loc ∈ (w.enqueue loc tloc i).dq ∨ (w.enqueue loc tloc i).point = .go loc) := by
  unfold Worker.enqueue
  split_ifs
  · exact ⟨rfl, nofun, ha, fun l hl => List.mem_append_left _ hl, .inl (by simp)⟩
  · exact ⟨rfl, nofun, ha, fun l hl => hl, .inr rfl⟩

theorem Worker.Ok.take {loc : Nat} {dq : List Nat} (h : w.Ok) (hdq : w.dq = loc :: dq) :
    w.point ≠ .left ∧ Worker.Ok { w with dq := dq } := by
  unfold Worker.Ok at h ⊢
  rw [hdq] at h
  cases hp : w.point <;> rw [hp] at h <;> simp_all

namespace Ctx

/-- Whoever reads 0 in `pending` finds all workers quiet. -/
theorem Inv.quiet (h : s.Inv) (hp : s.pending = 0) (j : Fin n) : (s.W j).Quiet := by
  have hzero : s.actives = 0 := by
    have hc := h.pending
    omega
  refine (h.ok j).quiet ?_
  by_contra ha
  have hpos : j ∈ Finset.univ.filter fun i => (s.W i).active = true := by simpa using ha
  rw [Finset.card_eq_zero.mp hzero] at hpos
  cases hpos

/-- A task goes from the deque of `vic` to worker `me`, first leaving the set of what is queued. -/
theorem Inv.steal (h : s.Inv) {vic : Fin n} {loc : Nat} {dq : List Nat} (hme : me ≠ vic)
    (hv : (s.W vic).dq = loc :: dq)
    (hok : (s.W me).waiting = [] ∧ (s.W me).dq = [] ∧ (s.W me).active = true)
    (hb : ¬ (s.W me).point.Busy) (hwnf : ∀ l, (s.W me).point ≠ .wnf l) :
    ((s.set vic { s.W vic with dq := dq }).set me { s.W me with point := .go loc }).Inv := by
  have hnone : ∀ i, (s.W i).point ≠ .left := by
    intro i hi
    have hnil := (h.left i hi vic).1
    rw [hv] at hnil
    cases hnil
  obtain ⟨hleft, hvic⟩ := (h.ok vic).take hv
  have h1 : Inv { s.set vic { s.W vic with dq := dq } with queued := s.queued.erase loc } := by
    refine h.set (add_sub_cancel_right _ _).symm hvic (fun hl => (hleft hl).elim)
      (fun i hi => (hnone i hi).elim) (fun l hl hin => ?_) (h.seen_set subset_rfl fun l hm => .inl hm)
    · obtain ⟨hne, hl⟩ := Finset.mem_erase.mp hl
      refine (h.queued l hl hin).imp (fun ⟨i, hi⟩ => ⟨i, ?_⟩) id
      by_cases hiv : i = vic
      · rw [hiv, hv, List.mem_cons] at hi
        rw [hiv, set_self]
        exact hi.imp (fun hm => hm.resolve_left hne) id
      · rwa [set_of_ne hiv]
  have hsame : (s.set vic { s.W vic with dq := dq }).W me = s.W me := set_of_ne hme
  refine h1.set ?_ hok.2.2 nofun (fun i hi => ?_) (fun l hl hin => ?_)
    (h1.seen_set subset_rfl fun l hm => ?_)
  · change s.pending = s.pending + _ - _
    rw [hsame]
    exact (add_sub_cancel_right _ _).symm
  · by_cases hiv : i = vic
    · change ((s.set vic { s.W vic with dq := dq }).W i).point = .left at hi
      rw [hiv, set_self] at hi
      exact (hleft hi).elim
    · change ((s.set vic { s.W vic with dq := dq }).W i).point = .left at hi
      rw [set_of_ne hiv] at hi
      exact (hnone i hi).elim
  · by_cases he : l = loc
    · exact .inl ⟨me, by rw [he, set_self]; exact .inr rfl⟩
    · refine h1.queued_set subset_rfl (fun l hin hm => ?_) l (Finset.mem_erase.mpr ⟨he, hl⟩) hin
      change l ∈ ((s.set vic { s.W vic with dq := dq }).W me).dq ∨
        ((s.set vic { s.W vic with dq := dq }).W me).point = .go l at hm
      rw [hsame] at hm
      rcases hm with hm | hm
      · exact .inl (.inl hm)
      · rw [hm] at hb
        exact (hb trivial).elim
  · change ((s.set vic { s.W vic with dq := dq }).W me).point = .wnf l at hm
    rw [hsame] at hm
    exact (hwnf l hm).elim

/-- The invariant survives a turn of any worker. -/
theorem turn_inv {a : Act} (h : s.Inv) (ht : s.turn me a = some s') : s'.Inv := by
  have hok := h.ok me
  unfold Worker.Ok at hok
  unfold turn at ht
  dsimp only at ht
  split at ht
  case h_1 hpt =>
    rw [hpt] at hok
    split_ifs at ht with hp
    · obtain rfl := Option.some.inj ht
      refine h.stay (by rw [hpt]; exact id) rfl rfl rfl ⟨hok.1, (h.quiet hp me).1⟩ id fun _ j => ?_
      by_cases hj : j = me
      · rw [hj, set_self]
        exact ⟨(h.quiet hp me).1, hok.1, id⟩
      · rw [set_of_ne hj]
        exact h.quiet hp j
    · obtain rfl := Option.some.inj ht
      exact h.stay (by rw [hpt]; exact id) rfl rfl rfl hok id nofun
  case h_2 hpt =>
    rw [hpt] at hok
    split at ht
    case h_1 loc hlast =>
      obtain rfl := Option.some.inj ht
      obtain ⟨init, hdq⟩ := List.getLast?_eq_some_iff.mp hlast
      have hact : (s.W me).active = true := by
        by_contra hn
        rw [hok.2 (by simpa using hn)] at hlast
        cases hlast
      refine h.set (add_sub_cancel_right _ _).symm hact nofun (fun i hi => ?_)
        (h.queued_set subset_rfl fun l _ hm => .inl ?_) (h.seen_set subset_rfl fun l hm => ?_)
      · rw [(h.left i hi me).1] at hlast
        cases hlast
      · rcases hm with hm | hm
        · rw [hdq, List.mem_append, List.mem_singleton] at hm
          rcases hm with hm | rfl
          · exact .inl (by rwa [hdq, List.dropLast_concat])
          · exact .inr rfl
        · rw [hpt] at hm
          cases hm
      · rw [hpt] at hm
        cases hm
    case h_2 hlast =>
      obtain rfl := Option.some.inj ht
      have hdq : (s.W me).dq = [] := List.getLast?_eq_none_iff.mp hlast
      exact h.stay (by rw [hpt]; exact id) rfl rfl rfl ⟨hok.1, hdq⟩ id nofun
  case h_3 loc hpt =>
    rw [hpt] at hok
    have hb : (s.W me).point.Busy := by rw [hpt]; trivial
    split_ifs at ht with hnew
    · obtain rfl := Option.some.inj ht
      refine h.work hb rfl hok nofun (h.queued_set (Finset.subset_insert _ _) fun l _ hm => ?_)
        fun l hl => ?_
      · rcases hm with hm | hm
        · exact .inl (.inl hm)
        · rw [hpt] at hm
          exact .inr (by simp [Point.go.inj hm])
      · rcases Finset.mem_insert.mp hl with rfl | hs
        · exact .inr ⟨me, by rw [set_self]⟩
        · refine h.seen_set subset_rfl (fun l hm => ?_) l hs
          rw [hpt] at hm
          cases hm
    · obtain rfl := Option.some.inj ht
      refine h.work hb Worker.ret_active (Worker.ret_ok hok) Worker.ret_point
        (h.queued_set subset_rfl fun l hin hm => ?_) (h.seen_set subset_rfl fun l hm => ?_)
      · rcases hm with hm | hm
        · exact .inl (.inl (by rwa [Worker.ret_dq]))
        · rw [hpt] at hm
          rw [Point.go.inj hm] at hnew
          exact .inr (by simpa [hin] using hnew)
      · rw [hpt] at hm
        cases hm
  case h_4 loc t hpt =>
    rw [hpt] at hok
    have hb : (s.W me).point.Busy := by rw [hpt]; trivial
    obtain rfl := Option.some.inj ht
    -- where the worker goes on depends on the term, its deque and its flag do not
    generalize hw : (if t.tag = .dp0 ∨ t.tag = .dp1 then { s.W me with point := .go t.val }
      else if termArity t = 0 then (s.W me).ret
      else { s.W me with point := .push t.val (termArity t) } : Worker) = w
    obtain ⟨hdq, hact, hleft, hok'⟩ : w.dq = (s.W me).dq ∧ w.active = (s.W me).active ∧
        w.point ≠ .left ∧ w.Ok := by
      rw [← hw]
      split_ifs
      · exact ⟨rfl, rfl, nofun, hok⟩
      · exact ⟨Worker.ret_dq, Worker.ret_active, Worker.ret_point, Worker.ret_ok hok⟩
      · exact ⟨rfl, rfl, nofun, hok⟩
    refine h.work hb hact hok' hleft (h.queued_set subset_rfl fun l _ hm => ?_)
      (h.seen_set (Finset.subset_insert _ _) fun l hm => ?_)
    · rcases hm with hm | hm
      · exact .inl (.inl (hdq ▸ hm))
      · rw [hpt] at hm
        cases hm
    · rw [hpt] at hm
      exact .inr (by simp [Point.wnf.inj hm])
  case h_5 tloc i hpt =>
    rw [hpt] at hok
    have hb : (s.W me).point.Busy := by rw [hpt]; trivial
    have hnot : ∀ l, (s.W me).point ≠ .go l ∧ (s.W me).point ≠ .wnf l := fun l => by
      rw [hpt]
      exact ⟨nofun, nofun⟩
    split_ifs at ht with hi
    · obtain rfl := Option.some.inj ht
      obtain ⟨hact, hleft, hok', hdq, hloc⟩ := Worker.enqueue_spec (w := s.W me)
        (tloc + (i - 1)) tloc (i - 1) hok
      refine h.work hb hact hok' hleft (fun l hl hin => ?_)
        (h.seen_set subset_rfl fun l hm => ((hnot l).2 hm).elim)
      rcases Finset.mem_insert.mp hl with rfl | hq
      · exact .inl ⟨me, by rwa [set_self]⟩
      · refine h.queued_set subset_rfl (fun l _ hm => ?_) l hq hin
        exact .inl (.inl (hdq l (hm.resolve_right (hnot l).1)))
    · obtain rfl := Option.some.inj ht
      exact h.work hb rfl hok nofun
        (h.queued_set subset_rfl fun l _ hm => .inl (.inl (hm.resolve_right (hnot l).1)))
        (h.seen_set subset_rfl fun l hm => ((hnot l).2 hm).elim)
  case h_6 start k hpt =>
    rw [hpt] at hok
    split_ifs at ht with hk hv
    · obtain rfl := Option.some.inj ht
      exact h.stay (by rw [hpt]; exact id) rfl rfl rfl hok id nofun
    · obtain rfl := Option.some.inj ht
      exact h.stay (by rw [hpt]; exact id) rfl rfl rfl hok id nofun
    · obtain rfl := Option.some.inj ht
      exact h.stay (by rw [hpt]; exact id) rfl rfl rfl hok id nofun
  case h_7 start k hpt =>
    rw [hpt] at hok
    obtain rfl := Option.some.inj ht
    refine h.move (by rw [hpt]; exact id) rfl rfl ?_ ⟨hok.1, hok.2, rfl⟩ id nofun
    cases (s.W me).active <;> simp
  case h_8 start k hpt =>
    rw [hpt] at hok
    generalize victim me start k = vic at ht
    split at ht
    case h_1 loc dq hv =>
      obtain rfl := Option.some.inj ht
      have hme : me ≠ vic := by
        rintro rfl
        rw [hok.2.1] at hv
        cases hv
      exact h.steal hme hv hok (by rw [hpt]; exact id) fun l hm => by rw [hpt] at hm; cases hm
    case h_2 hv =>
      obtain rfl := Option.some.inj ht
      exact h.stay (by rw [hpt]; exact id) rfl rfl rfl ⟨hok.1, hok.2.1⟩ id nofun
  case h_9 start k hpt =>
    rw [hpt] at hok
    obtain rfl := Option.some.inj ht
    exact h.stay (by rw [hpt]; exact id) rfl rfl rfl ⟨hok.1, hok.2.1⟩ id nofun
  case h_10 hpt =>
    rw [hpt] at hok
    obtain rfl := Option.some.inj ht
    refine h.move (by rw [hpt]; exact id) rfl rfl ?_ ⟨hok.1, fun _ => hok.2⟩ id nofun
    cases (s.W me).active <;> simp
  case h_11 => cases ht

theorem start_inv (rootLoc : Nat) : (start (n + 1) rootLoc).Inv := by
  refine ⟨?_, fun i => ?_, fun i hi => ?_, fun loc hl _ => ?_, fun loc hl => ?_⟩
  · simp [start, actives]
  · exact ⟨rfl, nofun⟩
  · cases hi
  · rw [Finset.mem_singleton.mp hl]
    exact .inl ⟨0, .inl (by simp [start])⟩
  · cases hl

theorem Step.inv (h : s.Inv) (hr : Relation.ReflTransGen Step s s') : s'.Inv := by
  induction hr with
  | refl => exact h
  | tail _ hs ih =>
    obtain ⟨me, a, ht⟩ := hs
    exact turn_inv ih ht

/-- The turns of a schedule. -/
def run (s : Ctx n) : List (Fin n × Act) → Option (Ctx n)
  | [] => some s
  | (me, a) :: as => (s.turn me a).bind (run · as)

theorem run_reaches {as : List (Fin n × Act)} (h : s.run as = some s') :
    Relation.ReflTransGen Step s s' := by
  induction as generalizing s with
  | nil => rw [Option.some.inj h]
  | cons a as ih =>
    obtain ⟨t, ht, hn⟩ := Option.bind_eq_some_iff.mp h
    exact .head ⟨a.1, a.2, ht⟩ (ih hn)

end Ctx

/-- In every state the workers reach, `pending` counts the active ones, and the others have
nothing queued and nothing in hand. Once a worker has left its loop nothing is queued or being
processed, and every location of the heap ever enqueued has been normalised. -/
theorem workers_stop {rootLoc : Nat} {s : Ctx (n + 1)}
    (hr : Relation.ReflTransGen Ctx.Step (Ctx.start (n + 1) rootLoc) s) :
    s.pending = s.actives ∧ (∀ i, (s.W i).active = false → (s.W i).Quiet) ∧
      ∀ i, (s.W i).point = .left →
        (∀ j, (s.W j).Quiet) ∧ ∀ loc ∈ s.queued, InHeap loc → loc ∈ s.normal := by
  have h := Ctx.Step.inv (Ctx.start_inv rootLoc) hr
  refine ⟨h.pending, fun i ha => (h.ok i).quiet ha, fun i hi => ⟨h.left i hi, fun loc hl hin => ?_⟩⟩
  have hquiet := h.left i hi
  rcases h.queued loc hl hin with ⟨j, hd | hg⟩ | hs
  · rw [(hquiet j).1] at hd
    cases hd
  · exact ((hquiet j).2.2 (by rw [hg]; trivial)).elim
  · rcases h.seen loc hs with hn | ⟨j, hj⟩
    · exact hn
    · exact ((hquiet j).2.2 (by rw [hj]; trivial)).elim

/-- Two workers on a pair of numbers: worker 1 steals a field, and both stop. -/
def pairSchedule : List (Fin 2 × Act) :=
  let pair := termNew false (.ctr 2) 0 5
  [(0, .step), (0, .step), (0, .step), (0, .normalised pair), (0, .step),
    (1, .step), (1, .step), (1, .step), (1, .step), (1, .step),
    (1, .step), (1, .normalised (termNewNum 1)),
    (0, .step), (0, .step), (0, .normalised (termNewNum 2)),
    (0, .step), (0, .step), (0, .step), (0, .step), (0, .step),
    (1, .step), (1, .step), (1, .step), (1, .step), (1, .step), (1, .step)]

theorem workers_stop_pair : ∃ s : Ctx 2, (s.W 1).point = .left ∧ s.queued = {1, 6} ∧
    (∀ j, (s.W j).Quiet) ∧ ∀ loc ∈ s.queued, InHeap loc → loc ∈ s.normal := by
  have hrun : ((Ctx.start 2 1).run pairSchedule).map (fun s => ((s.W 1).point, s.queued)) =
      some (.left, {1, 6}) := by
    decide +kernel
  obtain ⟨s, hs, hst⟩ := Option.map_eq_some_iff.mp hrun
  obtain ⟨hpoint, hqueued⟩ := Prod.mk.inj hst
  obtain ⟨-, -, hstop⟩ := workers_stop (Ctx.run_reaches hs)
  exact ⟨s, hpoint, hqueued, hstop 1 hpoint⟩

end Hvm.Normalize
