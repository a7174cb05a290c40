import Hvm.Normalize.Workers
import Hvm.Normalize.Traversal

/-! What the workers of `eval_normalize` visit. A run is a traversal of the graph that the
results of `wnf_at` span: the agenda is spread over deques, calls that wait and tasks in hand. -/

namespace Hvm.Normalize

open Traversal

/-- The locations that `eval_normalize_go` goes on with after the term `t`. -/
def fields (t : Term) : List Nat :=
  if t.tag = .dp0 ∨ t.tag = .dp1 then [t.val] else List.range' t.val (termArity t)

variable {n : Nat}

/-- What a turn adds to the visits: the location and the term `wnf_at` returned for it. -/
def Ctx.visit (s : Ctx n) (me : Fin n) (a : Act) : List (Nat × Term) :=
  match (s.W me).point, a with
  | .wnf loc, .normalised t => [(loc, t)]
  | _, _ => []

/-- The states the workers reach, with the visits on the way there, latest first. -/
inductive Visits (n rootLoc : Nat) : List (Nat × Term) → Ctx n → Prop
  | start : Visits n rootLoc [] (Ctx.start n rootLoc)
  | turn {h : List (Nat × Term)} {s s' : Ctx n} {me : Fin n} {a : Act} : Visits n rootLoc h s →
    s.turn me a = some s' → Visits n rootLoc (s.visit me a ++ h) s'

/-- The locations a loop over `i` fields still has to enqueue or go on with. -/
def InLoop (tloc i loc : Nat) : Prop := loc = tloc ∨ tloc ≤ loc ∧ loc < tloc + i

def Point.Owes : Point → Nat → Prop
  | .go loc, x => x = loc
  | .push tloc i, x => InLoop tloc i x
  | _, _ => False

def Point.visiting : Point → Option Nat
  | .wnf loc => some loc
  | _ => none

/-- A location the worker still has to deal with. -/
def Worker.Owes (w : Worker) (x : Nat) : Prop :=
  x ∈ w.dq ∨ (∃ p ∈ w.waiting, InLoop p.1 p.2 x) ∨ w.point.Owes x

/-- The traversal behind a state of the workers. -/
def Ctx.tour (s : Ctx n) (h : List (Nat × Term)) : Tour (Fin n) Nat where
  todo x := ∃ i, (s.W i).Owes x
  seen x := x ∈ s.seen
  busy i := (s.W i).point.visiting
  found := h.map fun p => (p.1, fields p.2)

variable {s s' : Ctx n} {me : Fin n} {w : Worker} {h : List (Nat × Term)} {x : Nat}

/-! ### One worker -/

theorem inLoop_succ {tloc i : Nat} (hi : i > 1) :
    InLoop tloc i x ↔ x = tloc + (i - 1) ∨ InLoop tloc (i - 1) x := by
  unfold InLoop
  omega

theorem inLoop_one {tloc i : Nat} (hi : ¬ i > 1) : InLoop tloc i x ↔ x = tloc := by
  unfold InLoop
  omega

theorem Worker.ret_owes : w.ret.Owes x ↔ x ∈ w.dq ∨ ∃ p ∈ w.waiting, InLoop p.1 p.2 x := by
  unfold Worker.ret
  cases hw : w.waiting with
  | nil => simp [Worker.Owes, Point.Owes]
  | cons p waiting =>
    simp only [Worker.Owes, Point.Owes, List.mem_cons, exists_eq_or_imp]
    rw [or_comm (a := InLoop p.1 p.2 x)]

theorem Worker.ret_visiting : w.ret.point.visiting = none := by
  unfold Worker.ret
  split <;> rfl

/-- Enqueueing the last field of a loop. -/
theorem Worker.enqueue_owes {tloc i : Nat} (hp : w.point = .push tloc i) (hi : i > 1) :
    (w.enqueue (tloc + (i - 1)) tloc (i - 1)).Owes x ↔ w.Owes x := by
  have hw : w.Owes x ↔ x ∈ w.dq ∨ (∃ p ∈ w.waiting, InLoop p.1 p.2 x) ∨
      x = tloc + (i - 1) ∨ InLoop tloc (i - 1) x := by
    rw [Worker.Owes, hp, Point.Owes, inLoop_succ hi]
  rw [hw]
  unfold Worker.enqueue
  split_ifs
  · simp only [Worker.Owes, Point.Owes, List.mem_append, List.mem_singleton]
    grind
  · simp only [Worker.Owes, Point.Owes, List.mem_cons, exists_eq_or_imp]
    grind

theorem Worker.enqueue_visiting (loc tloc i : Nat) : (w.enqueue loc tloc i).point.visiting = none := by
  unfold Worker.enqueue
  split_ifs <;> rfl

theorem mem_fields {t : Term} (ht : ¬ (t.tag = .dp0 ∨ t.tag = .dp1)) (ha : termArity t ≠ 0) :
    x ∈ fields t ↔ InLoop t.val (termArity t) x := by
  rw [fields, if_neg ht, List.mem_range'_1, InLoop]
  omega

namespace Ctx

/-- What the workers owe after a step that leaves the others alone. -/
theorem owes_set : (∃ i, ((s.set me w).W i).Owes x) ↔ w.Owes x ∨ ∃ i, i ≠ me ∧ (s.W i).Owes x := by
  constructor
  · rintro ⟨i, hi⟩
    by_cases him : i = me
    · rw [him, set_self] at hi
      exact .inl hi
    · rw [set_of_ne him] at hi
      exact .inr ⟨i, him, hi⟩
  · rintro (hw | ⟨i, him, hi⟩)
    · exact ⟨me, by rwa [set_self]⟩
    · exact ⟨i, by rwa [set_of_ne him]⟩

theorem owes_split (s : Ctx n) (me : Fin n) : (∃ i, (s.W i).Owes x) ↔ (s.W me).Owes x ∨ ∃ i, i ≠ me ∧ (s.W i).Owes x := by
  constructor
  · rintro ⟨i, hi⟩
    by_cases him : i = me
    · exact .inl (him ▸ hi)
    · exact .inr ⟨i, him, hi⟩
  · rintro (hi | ⟨i, -, hi⟩)
    · exact ⟨me, hi⟩
    · exact ⟨i, hi⟩

theorem busy_set : (fun i => ((s.set me w).W i).point.visiting) =
    Function.update (fun i => (s.W i).point.visiting) me w.point.visiting := by
  funext i
  by_cases him : i = me
  · rw [him, set_self, Function.update_self]
  · rw [set_of_ne him, Function.update_of_ne him]

theorem busy_same (hw : w.point.visiting = (s.W me).point.visiting) :
    (fun i => ((s.set me w).W i).point.visiting) = fun i => (s.W i).point.visiting := by
  rw [busy_set, hw]
  exact Function.update_eq_self me _

/-- A worker goes on, and owes what it owed. -/
theorem keep {pending : Int} {queued : Finset Nat} (hw : ∀ x, w.Owes x ↔ (s.W me).Owes x)
    (hv : w.point.visiting = (s.W me).point.visiting) :
    Move InHeap (s.tour h) (tour { s.set me w with pending := pending, queued := queued } h) := by
  refine .keep (fun x => ?_) (fun _ => Iff.rfl) (busy_same hv) rfl
  exact owes_set.trans ((or_congr_left (hw x)).trans (owes_split s me).symm)

/-- A task goes from the deque of `vic` to worker `me`. -/
theorem steal_keep {vic : Fin n} {loc : Nat} {dq : List Nat} (hdq : (s.W vic).dq = loc :: dq)
    (hne : me ≠ vic) (hp : ∀ x, ¬ (s.W me).point.Owes x) (hv : (s.W me).point.visiting = none) :
    Move InHeap (s.tour h)
      (tour ((s.set vic { s.W vic with dq := dq }).set me { s.W me with point := .go loc }) h) := by
  have hsame : (s.set vic { s.W vic with dq := dq }).W me = s.W me := set_of_ne hne
  refine .keep (fun x => ?_) (fun _ => Iff.rfl) ?_ rfl
  · have hvic : (s.W vic).Owes x ↔ x = loc ∨ Worker.Owes { s.W vic with dq := dq } x := by
      simp only [Worker.Owes, hdq, List.mem_cons, or_assoc]
    have hme : Worker.Owes { s.W me with point := .go loc } x ↔ x = loc ∨ (s.W me).Owes x := by
      simp only [Worker.Owes, Point.Owes.eq_1, iff_false_intro (hp x), or_false]
      grind
    change (∃ i, _) ↔ ∃ i, (s.W i).Owes x
    rw [owes_set, hme, or_assoc]
    have hmid := owes_split (x := x) (s.set vic { s.W vic with dq := dq }) me
    rw [hsame] at hmid
    rw [← hmid, owes_set, owes_split s vic, hvic, or_assoc]
  · change (fun i => (((s.set vic { s.W vic with dq := dq }).set me
      { s.W me with point := .go loc }).W i).point.visiting) = fun i => (s.W i).point.visiting
    rw [busy_same (by rw [hsame, hv]; rfl)]
    exact busy_same rfl

/-- Every turn is a move of the traversal. -/
theorem turn_move {a : Act} (hinv : s.Inv) (ht : s.turn me a = some s') :
    Move InHeap (s.tour h) (s'.tour (s.visit me a ++ h)) := by
  have hok := hinv.ok me
  unfold Worker.Ok at hok
  unfold turn at ht
  unfold visit
  dsimp only at ht
  split at ht
  case h_1 hpt =>
    rw [hpt]
    split_ifs at ht
    all_goals
      obtain rfl := Option.some.inj ht
      refine keep (fun x => ?_) (by rw [hpt]; rfl)
      simp only [Worker.Owes, hpt, Point.Owes]
  case h_2 hpt =>
    rw [hpt]
    split at ht
    case h_1 loc hlast =>
      obtain rfl := Option.some.inj ht
      obtain ⟨init, hdq⟩ := List.getLast?_eq_some_iff.mp hlast
      refine keep (fun x => ?_) (by rw [hpt]; rfl)
      simp only [Worker.Owes, hpt, Point.Owes, hdq, List.dropLast_concat, List.mem_append,
        List.mem_singleton]
      grind
    case h_2 hlast =>
      obtain rfl := Option.some.inj ht
      refine keep (fun x => ?_) (by rw [hpt]; rfl)
      simp only [Worker.Owes, hpt, Point.Owes]
  case h_3 loc hpt =>
    rw [hpt]
    have howes (x : Nat) : (s.W me).Owes x ↔
        (x ∈ (s.W me).dq ∨ ∃ p ∈ (s.W me).waiting, InLoop p.1 p.2 x) ∨ x = loc := by
      simp only [Worker.Owes, hpt, Point.Owes, or_assoc]
    split_ifs at ht with hnew
    · obtain rfl := Option.some.inj ht
      refine .take me loc hnew.1 hnew.2 (congrArg Point.visiting hpt) (fun x => ?_)
        (fun x => Finset.mem_insert) ?_ rfl
      · refine (owes_split s me).trans ?_
        rw [howes]
        change _ ↔ (∃ i, ((s.set me { s.W me with point := .wnf loc }).W i).Owes x) ∨ x = loc
        rw [owes_set]
        simp only [Worker.Owes, Point.Owes, or_false]
        grind
      · exact busy_set
    · obtain rfl := Option.some.inj ht
      refine .drop loc ?_ (fun x => ?_) (fun _ => Iff.rfl) ?_ rfl
      · by_contra hc
        rw [not_or, not_not] at hc
        exact hnew ⟨hc.1, hc.2⟩
      · refine (owes_split s me).trans ?_
        rw [howes]
        change _ ↔ (∃ i, ((s.set me (s.W me).ret).W i).Owes x) ∨ x = loc
        rw [owes_set, Worker.ret_owes]
        grind
      · exact busy_same (by rw [Worker.ret_visiting, hpt]; rfl)
  case h_4 loc t hpt =>
    rw [hpt]
    obtain rfl := Option.some.inj ht
    have hold (x : Nat) : (s.W me).Owes x ↔
        x ∈ (s.W me).dq ∨ ∃ p ∈ (s.W me).waiting, InLoop p.1 p.2 x := by
      simp only [Worker.Owes, hpt, Point.Owes, or_false]
    generalize hw : (if t.tag = .dp0 ∨ t.tag = .dp1 then { s.W me with point := .go t.val }
      else if termArity t = 0 then (s.W me).ret
      else { s.W me with point := .push t.val (termArity t) } : Worker) = w
    obtain ⟨howes, hv⟩ : (∀ x, w.Owes x ↔ (s.W me).Owes x ∨ x ∈ fields t) ∧
        w.point.visiting = none := by
      rw [← hw]
      split_ifs with hdp hari
      · refine ⟨fun x => ?_, rfl⟩
        rw [hold, fields, if_pos hdp, List.mem_singleton]
        simp only [Worker.Owes, Point.Owes, or_assoc]
      · refine ⟨fun x => ?_, Worker.ret_visiting⟩
        rw [hold, fields, if_neg hdp, hari, Worker.ret_owes]
        simp
      · refine ⟨fun x => ?_, rfl⟩
        rw [hold, mem_fields hdp hari]
        simp only [Worker.Owes, Point.Owes, or_assoc]
    refine .finish me loc (fields t) (congrArg Point.visiting hpt) (fun x => ?_) (fun _ => Iff.rfl) ?_ rfl
    · change (∃ i, ((s.set me w).W i).Owes x) ↔ (∃ i, (s.W i).Owes x) ∨ x ∈ fields t
      rw [owes_set, howes, owes_split s me]
      grind
    · change (fun i => ((s.set me w).W i).point.visiting) = _
      rw [busy_set, hv]
      rfl
  case h_5 tloc i hpt =>
    rw [hpt]
    split_ifs at ht with hi
    · obtain rfl := Option.some.inj ht
      exact keep (fun x => Worker.enqueue_owes hpt hi) (by rw [Worker.enqueue_visiting, hpt]; rfl)
    · obtain rfl := Option.some.inj ht
      refine keep (fun x => ?_) (by rw [hpt]; rfl)
      simp only [Worker.Owes, hpt, Point.Owes, inLoop_one hi]
  case h_6 start k hpt =>
    rw [hpt]
    split_ifs at ht
    all_goals
      obtain rfl := Option.some.inj ht
      refine keep (fun x => ?_) (by rw [hpt]; rfl)
      simp only [Worker.Owes, hpt, Point.Owes]
  case h_7 start k hpt =>
    rw [hpt]
    obtain rfl := Option.some.inj ht
    refine keep (fun x => ?_) (by rw [hpt]; rfl)
    simp only [Worker.Owes, hpt, Point.Owes]
  case h_8 start k hpt =>
    rw [hpt]
    rw [hpt] at hok
    generalize victim me start k = vic at ht
    split at ht
    case h_1 loc dq hv =>
      obtain rfl := Option.some.inj ht
      have hme : me ≠ vic := by
        rintro rfl
        rw [hok.2.1] at hv
        cases hv
      exact steal_keep hv hme (fun x => by rw [hpt]; exact id) (by rw [hpt]; rfl)
    case h_2 hv =>
      obtain rfl := Option.some.inj ht
      refine keep (fun x => ?_) (by rw [hpt]; rfl)
      simp only [Worker.Owes, hpt, Point.Owes]
  case h_9 start k hpt =>
    rw [hpt]
    obtain rfl := Option.some.inj ht
    refine keep (fun x => ?_) (by rw [hpt]; rfl)
    simp only [Worker.Owes, hpt, Point.Owes]
  case h_10 hpt =>
    rw [hpt]
    obtain rfl := Option.some.inj ht
    refine keep (fun x => ?_) (by rw [hpt]; rfl)
    simp only [Worker.Owes, hpt, Point.Owes]
  case h_11 => cases ht

theorem start_tour (rootLoc : Nat) : ((start (n + 1) rootLoc).tour []).Starts rootLoc := by
  refine ⟨fun x => ?_, fun x hx => ?_, fun i => rfl, rfl⟩
  · constructor
    · rintro ⟨i, hd | ⟨p, hp, -⟩ | hp⟩
      · simp only [start] at hd
        split_ifs at hd
        · exact List.mem_singleton.mp hd
        · cases hd
      · cases hp
      · exact hp.elim
    · rintro rfl
      exact ⟨0, .inl (by simp [start])⟩
  · cases hx

end Ctx

variable {rootLoc : Nat}

theorem Visits.inv {s : Ctx (n + 1)} (hv : Visits (n + 1) rootLoc h s) :
    s.Inv ∧ (s.tour h).Inv InHeap rootLoc := by
  induction hv with
  | start => exact ⟨Ctx.start_inv rootLoc, (Ctx.start_tour rootLoc).inv⟩
  | turn _ ht ih =>
    obtain ⟨hinv, htour⟩ := ih
    exact ⟨Ctx.turn_inv hinv ht, (Ctx.turn_move hinv ht).inv htour⟩

end Hvm.Normalize
