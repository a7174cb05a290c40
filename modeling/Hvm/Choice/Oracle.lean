import Mathlib.Data.Stream.Init
import Mathlib.Data.List.Count
import Mathlib.Logic.Function.Basic

/-! Values that depend on labelled choices. Every label has a stream of sides still to be
taken: a choice under the label takes the next one, and looking at a value from one side of
the label puts that side back. A choice then meets a look as an inverse, and passes through
everything else. -/

namespace Oracle

variable {L V W : Type} [DecidableEq L]

/-- For every label, the sides still to be taken; `true` is the right one. -/
abbrev Sides (L : Type) := L → Stream' Bool

def push (l : L) (r : Bool) (s : Sides L) : Sides L := Function.update s l (Stream'.cons r (s l))

def pop (l : L) (s : Sides L) : Sides L := Function.update s l (s l).tail

def next (l : L) (s : Sides L) : Bool := (s l).head

variable {l m : L} {r : Bool} {s t : Sides L}

@[simp] theorem next_push : next l (push l r s) = r := by
  rw [next, push, Function.update_self, Stream'.head_cons]

@[simp] theorem pop_push : pop l (push l r s) = s := by
  rw [pop, push, Function.update_self, Stream'.tail_cons, Function.update_idem,
    Function.update_eq_self]

@[simp] theorem push_next : push l (next l s) (pop l s) = s := by
  rw [push, pop, Function.update_self, Function.update_idem, next, Stream'.eta,
    Function.update_eq_self]

theorem next_push_of_ne (h : m ≠ l) : next m (push l r s) = next m s := by
  rw [next, push, Function.update_of_ne h, next]

theorem pop_push_of_ne (h : m ≠ l) : pop m (push l r s) = push l r (pop m s) := by
  have hl : pop m s l = s l := Function.update_of_ne h.symm _ _
  have hm : push l r s m = s m := Function.update_of_ne h _ _
  calc pop m (push l r s) = Function.update (push l r s) m (s m).tail := by rw [pop, hm]
    _ = Function.update (pop m s) l (Stream'.cons r (s l)) := Function.update_comm h.symm _ _ _
    _ = push l r (pop m s) := by rw [push, hl]

/-! ### Superposed values -/

/-- A value that depends on the sides taken. -/
abbrev Many (L V : Type) := Sides L → V

def choice (l : L) (a b : Many L V) : Many L V := fun s =>
  if next l s then b (pop l s) else a (pop l s)

/-- A value as it looks from one side of a label. -/
def side (l : L) (r : Bool) (a : Many L V) : Many L V := fun s => a (push l r s)

/-- A function applied at every choice of sides. -/
def gather (f : List V → W) (as : List (Many L V)) : Many L W := fun s => f (as.map (· s))

variable {a b : Many L V} {f : List V → W} {as bs : List (Many L V)}

theorem side_choice : side l r (choice l a b) = if r then b else a := by
  funext s
  rw [side, choice, next_push, pop_push]
  cases r <;> rfl

theorem side_choice_of_ne (h : m ≠ l) :
    side l r (choice m a b) = choice m (side l r a) (side l r b) := by
  funext s
  rw [side, choice, next_push_of_ne h, pop_push_of_ne h]
  rfl

theorem side_gather : side l r (gather f as) = gather f (as.map (side l r)) := by
  funext s
  rw [side, gather, gather, List.map_map]
  rfl

/-- A choice among the arguments becomes a choice of the results; the other arguments are
looked at from its two sides. -/
theorem gather_choice (as bs : List (Many L V)) :
    gather f (as ++ choice l a b :: bs) =
      choice l (gather f (as.map (side l false) ++ a :: bs.map (side l false)))
        (gather f (as.map (side l true) ++ b :: bs.map (side l true))) := by
  funext s
  have hside (x : Many L V) (r : Bool) (hr : next l s = r) : side l r x (pop l s) = x s := by
    rw [side, ← hr, push_next]
  have hmap (xs : List (Many L V)) (r : Bool) (hr : next l s = r) :
      (xs.map (side l r)).map (· (pop l s)) = xs.map (· s) := by
    rw [List.map_map]
    exact List.map_congr_left fun x _ => hside x r hr
  cases hr : next l s with
  | false =>
    simp only [gather, choice, hr, List.map_append, List.map_cons, hmap _ _ hr]
    rfl
  | true =>
    simp only [gather, choice, hr, List.map_append, List.map_cons, hmap _ _ hr]
    rfl

/-! ### Paths -/

/-- Labels met one after the other, and the sides taken. -/
abbrev Route (L : Type) := List (L × Bool)

/-- What is left of the sides past a path they take. -/
def follow : Route L → Sides L → Option (Sides L)
  | [], s => some s
  | (l, r) :: p, s => if next l s = r then follow p (pop l s) else none

def Takes (s : Sides L) (p : Route L) : Bool := (follow p s).isSome

theorem follow_concat (p : Route L) (l : L) (r : Bool) (s : Sides L) :
    follow (p ++ [(l, r)]) s =
      (follow p s).bind fun t => if next l t = r then some (pop l t) else none := by
  induction p generalizing s with
  | nil => rfl
  | cons q p ih =>
    rw [List.cons_append, follow, follow]
    by_cases h : next q.1 s = q.2
    · rw [if_pos h, if_pos h, ih]
    · rw [if_neg h, if_neg h]
      rfl

/-- Whatever the sides, exactly one of the paths is taken. -/
def ExactCover (ps : List (Route L)) : Prop := ∀ s, ps.countP (Takes s) = 1

variable {p : Route L} {ps qs : List (Route L)}

theorem ExactCover.perm (h : ExactCover ps) (hp : ps.Perm qs) : ExactCover qs := fun s => by
  rw [← hp.countP_eq, h s]

/-- A path is replaced by the two that go one choice further. -/
theorem ExactCover.split (h : ExactCover (p :: ps)) (l : L) :
    ExactCover ((p ++ [(l, false)]) :: (p ++ [(l, true)]) :: ps) := by
  intro s
  have hs := h s
  rw [List.countP_cons] at hs
  rw [List.countP_cons, List.countP_cons, Takes, Takes, follow_concat, follow_concat]
  rw [Takes] at hs
  cases ht : follow p s with
  | none =>
    rw [ht] at hs
    exact hs
  | some t =>
    rw [ht] at hs
    cases hr : next l t <;> simpa [hr] using hs

/-- Past the path `p`, the value `d` is all that is left of `D`. -/
def Along (D : Many L V) (p : Route L) (d : Many L V) : Prop :=
  ∀ s t, follow p s = some t → D s = d t

theorem Along.exists_eq {D d : Many L V} (h : Along D p d) (s : Sides L) (hs : Takes s p = true) :
    ∃ t, D s = d t := by
  obtain ⟨t, ht⟩ := Option.isSome_iff_exists.mp hs
  exact ⟨t, h s t ht⟩

theorem Along.choose {D : Many L V} (h : Along D p (choice l a b)) (r : Bool) :
    Along D (p ++ [(l, r)]) (if r then b else a) := by
  intro s t ht
  rw [follow_concat] at ht
  obtain ⟨u, hu, ht⟩ := Option.bind_eq_some_iff.mp ht
  by_cases hr : next l u = r
  · rw [if_pos hr] at ht
    obtain rfl := Option.some.inj ht
    rw [h s u hu, choice, hr]
    cases r <;> rfl
  · rw [if_neg hr] at ht
    cases ht

end Oracle
