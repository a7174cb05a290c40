import Mathlib.Data.List.Nodup
import Mathlib.Logic.Function.Basic
import Mathlib.Logic.Relation

/-! Traversal of a graph by several parties at once. The successors of a node are known when
its visit ends; a node on the agenda is dropped once it has been taken up before. -/

namespace Traversal

variable {ι α : Type} [DecidableEq ι]

/-- What is on the agenda, what has been taken up, what each party visits, and the nodes
visited with the successors they had. -/
structure Tour (ι α : Type) where
  todo : α → Prop
  seen : α → Prop
  busy : ι → Option α
  found : List (α × List α)

/-- The nodes reached from `root` along the successors found. -/
inductive Reach (found : List (α × List α)) (root : α) : α → Prop
  | root : Reach found root root
  | step {x y : α} {ys : List α} : Reach found root x → (x, ys) ∈ found → y ∈ ys → Reach found root y

theorem Reach.mono {found found' : List (α × List α)} {root x : α} (h : Reach found root x)
    (hsub : found ⊆ found') : Reach found' root x := by
  induction h with
  | root => exact .root
  | step _ hm hy ih => exact .step ih (hsub hm) hy

/-- A move of the traversal of the nodes of which `ok` holds. -/
inductive Move (ok : α → Prop) (t t' : Tour ι α) : Prop
  /-- The agenda is passed around. -/
  | keep (htodo : ∀ x, t'.todo x ↔ t.todo x) (hseen : ∀ x, t'.seen x ↔ t.seen x)
    (hbusy : t'.busy = t.busy) (hfound : t'.found = t.found)
  | drop (x : α) (hx : ¬ ok x ∨ t.seen x) (htodo : ∀ y, t.todo y ↔ t'.todo y ∨ y = x)
    (hseen : ∀ y, t'.seen y ↔ t.seen y) (hbusy : t'.busy = t.busy) (hfound : t'.found = t.found)
  | take (i : ι) (x : α) (hx : ok x) (hnew : ¬ t.seen x) (hi : t.busy i = none)
    (htodo : ∀ y, t.todo y ↔ t'.todo y ∨ y = x) (hseen : ∀ y, t'.seen y ↔ y = x ∨ t.seen y)
    (hbusy : t'.busy = Function.update t.busy i (some x)) (hfound : t'.found = t.found)
  | finish (i : ι) (x : α) (ys : List α) (hi : t.busy i = some x)
    (htodo : ∀ y, t'.todo y ↔ t.todo y ∨ y ∈ ys) (hseen : ∀ y, t'.seen y ↔ t.seen y)
    (hbusy : t'.busy = Function.update t.busy i none) (hfound : t'.found = (x, ys) :: t.found)

/-- Only the root is on the agenda. -/
structure Tour.Starts (t : Tour ι α) (root : α) : Prop where
  todo : ∀ x, t.todo x ↔ x = root
  seen : ∀ x, ¬ t.seen x
  busy : ∀ i, t.busy i = none
  found : t.found = []

/-- Every node is taken up once, by one party, and nothing gets lost. -/
structure Tour.Inv (ok : α → Prop) (root : α) (t : Tour ι α) : Prop where
  nodup : (t.found.map Prod.fst).Nodup
  seen : ∀ x, t.seen x ↔ x ∈ t.found.map Prod.fst ∨ ∃ i, t.busy i = some x
  apart : ∀ i x, t.busy i = some x → x ∉ t.found.map Prod.fst
  alone : ∀ i j x, t.busy i = some x → t.busy j = some x → i = j
  kept : ∀ p ∈ t.found, ∀ y ∈ p.2, ok y → t.todo y ∨ t.seen y
  entry : ok root → t.todo root ∨ t.seen root
  reach : ∀ x, t.todo x ∨ t.seen x → Reach t.found root x
  fit : ∀ x, t.seen x → ok x

variable {ok : α → Prop} {root : α} {t t' : Tour ι α}

omit [DecidableEq ι] in
theorem Tour.Starts.inv (h : t.Starts root) : t.Inv ok root := by
  obtain ⟨htodo, hseen, hbusy, hfound⟩ := h
  refine ⟨?_, fun x => ?_, fun i x hi => ?_, fun i j x hi => ?_, fun p hp => ?_, fun _ => ?_,
    fun x hx => ?_, fun x hx => (hseen x hx).elim⟩
  · rw [hfound]
    exact List.nodup_nil
  · refine iff_of_false (hseen x) ?_
    rw [hfound]
    rintro (hm | ⟨i, hi⟩)
    · cases hm
    · rw [hbusy] at hi
      cases hi
  · rw [hbusy] at hi
    cases hi
  · rw [hbusy] at hi
    cases hi
  · rw [hfound] at hp
    cases hp
  · exact .inl ((htodo root).mpr rfl)
  · rcases hx with hx | hx
    · rw [(htodo x).mp hx]
      exact .root
    · exact (hseen x hx).elim

omit [DecidableEq ι] in
/-- What was owed still is, once `x` is off the agenda but taken up or of no concern. -/
theorem owed {x : α} (htodo : ∀ y, t.todo y ↔ t'.todo y ∨ y = x)
    (hseen : ∀ y, t.seen y → t'.seen y) (hx : ok x → t'.seen x) {y : α} (hy : ok y)
    (ho : t.todo y ∨ t.seen y) : t'.todo y ∨ t'.seen y := by
  rcases ho with ho | ho
  · rcases (htodo y).mp ho with ho | rfl
    · exact .inl ho
    · exact .inr (hx hy)
  · exact .inr (hseen y ho)

theorem Tour.Inv.take (h : t.Inv ok root) {i : ι} {x : α} (hx : ok x) (hnew : ¬ t.seen x)
    (htodo : ∀ y, t.todo y ↔ t'.todo y ∨ y = x) (hseen : ∀ y, t'.seen y ↔ y = x ∨ t.seen y)
    (hi : t.busy i = none) (hbusy : t'.busy = Function.update t.busy i (some x))
    (hfound : t'.found = t.found) : t'.Inv ok root := by
  have hself : t'.busy i = some x := by rw [hbusy, Function.update_self]
  have hother {j : ι} (hj : j ≠ i) : t'.busy j = t.busy j := by rw [hbusy, Function.update_of_ne hj]
  have hfresh : x ∉ t.found.map Prod.fst := fun hm => hnew ((h.seen x).mpr (.inl hm))
  have howed {y : α} (hok : ok y) (ho : t.todo y ∨ t.seen y) : t'.todo y ∨ t'.seen y :=
    owed htodo (fun y hy => (hseen y).mpr (.inr hy)) (fun _ => (hseen x).mpr (.inl rfl)) hok ho
  refine ⟨hfound ▸ h.nodup, fun y => ?_, fun j y hj => ?_, fun j k y hj hk => ?_, fun p hp y hy hok => ?_,
    fun hok => howed hok (h.entry hok), fun y hy => ?_, fun y hy => ?_⟩
  · rw [hseen, hfound]
    constructor
    · rintro (rfl | hy)
      · exact .inr ⟨i, hself⟩
      · refine ((h.seen y).mp hy).imp id fun ⟨j, hj⟩ => ⟨j, ?_⟩
        rw [hother (fun he => by rw [he, hi] at hj; cases hj), hj]
    · rintro (hm | ⟨j, hj⟩)
      · exact .inr ((h.seen y).mpr (.inl hm))
      · by_cases hji : j = i
        · rw [hji, hself] at hj
          exact .inl (Option.some.inj hj).symm
        · rw [hother hji] at hj
          exact .inr ((h.seen y).mpr (.inr ⟨j, hj⟩))
  · rw [hfound]
    by_cases hji : j = i
    · rw [hji, hself] at hj
      rwa [← Option.some.inj hj]
    · rw [hother hji] at hj
      exact h.apart j y hj
  · have hne {j : ι} (hj : t.busy j = some x) : False := hnew ((h.seen x).mpr (.inr ⟨j, hj⟩))
    by_cases hji : j = i <;> by_cases hki : k = i
    · rw [hji, hki]
    · rw [hji, hself] at hj
      rw [hother hki, ← Option.some.inj hj] at hk
      exact (hne hk).elim
    · rw [hki, hself] at hk
      rw [hother hji, ← Option.some.inj hk] at hj
      exact (hne hj).elim
    · rw [hother hji] at hj
      rw [hother hki] at hk
      exact h.alone j k y hj hk
  · rw [hfound] at hp
    exact howed hok (h.kept p hp y hy hok)
  · rw [hfound]
    refine h.reach y ?_
    rcases hy with hy | hy
    · exact .inl ((htodo y).mpr (.inl hy))
    · rcases (hseen y).mp hy with rfl | hy
      · exact .inl ((htodo y).mpr (.inr rfl))
      · exact .inr hy
  · rcases (hseen y).mp hy with rfl | hy
    · exact hx
    · exact h.fit y hy

theorem Tour.Inv.finish (h : t.Inv ok root) {i : ι} {x : α} {ys : List α} (hi : t.busy i = some x)
    (htodo : ∀ y, t'.todo y ↔ t.todo y ∨ y ∈ ys) (hseen : ∀ y, t'.seen y ↔ t.seen y)
    (hbusy : t'.busy = Function.update t.busy i none) (hfound : t'.found = (x, ys) :: t.found) :
    t'.Inv ok root := by
  have hself : t'.busy i = none := by rw [hbusy, Function.update_self]
  have hother {j : ι} (hj : j ≠ i) : t'.busy j = t.busy j := by rw [hbusy, Function.update_of_ne hj]
  have hback {j : ι} {y : α} (hj : t'.busy j = some y) : j ≠ i ∧ t.busy j = some y := by
    have hji : j ≠ i := fun he => by rw [he, hself] at hj; cases hj
    exact ⟨hji, by rwa [hother hji] at hj⟩
  have hsub : t.found ⊆ t'.found := by
    rw [hfound]
    exact List.subset_cons_self _ _
  have hx : Reach t.found root x := h.reach x (.inr ((h.seen x).mpr (.inr ⟨i, hi⟩)))
  have howed {y : α} (ho : t.todo y ∨ t.seen y) : t'.todo y ∨ t'.seen y :=
    ho.imp (fun hy => (htodo y).mpr (.inl hy)) (hseen y).mpr
  have hmem (y : α) : y ∈ t'.found.map Prod.fst ↔ y = x ∨ y ∈ t.found.map Prod.fst := by
    rw [hfound, List.map_cons, List.mem_cons]
  refine ⟨?_, fun y => ?_, fun j y hj => ?_, fun j k y hj hk => ?_, fun p hp y hy hok => ?_,
    fun hok => howed (h.entry hok), fun y hy => ?_, fun y hy => h.fit y ((hseen y).mp hy)⟩
  · rw [hfound, List.map_cons]
    exact List.nodup_cons.mpr ⟨h.apart i x hi, h.nodup⟩
  · rw [hseen, h.seen, hmem]
    constructor
    · rintro (hm | ⟨j, hj⟩)
      · exact .inl (.inr hm)
      · by_cases hji : j = i
        · rw [hji, hi] at hj
          exact .inl (.inl (Option.some.inj hj).symm)
        · exact .inr ⟨j, by rw [hother hji, hj]⟩
    · rintro ((rfl | hm) | ⟨j, hj⟩)
      · exact .inr ⟨i, hi⟩
      · exact .inl hm
      · exact .inr ⟨j, (hback hj).2⟩
  · obtain ⟨hji, hj⟩ := hback hj
    rw [hmem]
    rintro (rfl | hm)
    · exact hji (h.alone j i y hj hi)
    · exact h.apart j y hj hm
  · exact h.alone j k y (hback hj).2 (hback hk).2
  · rw [hfound] at hp
    rcases List.mem_cons.mp hp with rfl | hp
    · exact .inl ((htodo y).mpr (.inr hy))
    · exact howed (h.kept p hp y hy hok)
  · rw [htodo, hseen] at hy
    rcases hy with (hy | hy) | hy
    · exact (h.reach y (.inl hy)).mono hsub
    · have hp : (x, ys) ∈ t'.found := by
        rw [hfound]
        exact List.mem_cons_self
      exact .step (hx.mono hsub) hp hy
    · exact (h.reach y (.inr hy)).mono hsub

/-- The invariant survives a move. -/
theorem Move.inv (hm : Move ok t t') (h : t.Inv ok root) : t'.Inv ok root := by
  cases hm with
  | keep htodo hseen hbusy hfound =>
    have howed {y : α} (ho : t.todo y ∨ t.seen y) : t'.todo y ∨ t'.seen y :=
      ho.imp (htodo y).mpr (hseen y).mpr
    refine ⟨hfound ▸ h.nodup, fun x => ?_, fun i x => ?_, fun i j x => ?_, fun p hp y hy hok => ?_,
      fun hok => howed (h.entry hok), fun x hx => ?_, fun x hx => h.fit x ((hseen x).mp hx)⟩
    · rw [hseen, hfound, hbusy, h.seen]
    · rw [hbusy, hfound]
      exact h.apart i x
    · rw [hbusy]
      exact h.alone i j x
    · rw [hfound] at hp
      exact howed (h.kept p hp y hy hok)
    · rw [hfound]
      exact h.reach x (hx.imp (htodo x).mp (hseen x).mp)
  | drop x hx htodo hseen hbusy hfound =>
    have howed {y : α} (hok : ok y) (ho : t.todo y ∨ t.seen y) : t'.todo y ∨ t'.seen y :=
      owed htodo (fun y hy => (hseen y).mpr hy)
        (fun hok => (hseen x).mpr (hx.resolve_left (not_not.mpr hok))) hok ho
    refine ⟨hfound ▸ h.nodup, fun x => ?_, fun i x => ?_, fun i j x => ?_, fun p hp y hy hok => ?_,
      fun hok => howed hok (h.entry hok), fun x hx => ?_, fun x hx => h.fit x ((hseen x).mp hx)⟩
    · rw [hseen, hfound, hbusy, h.seen]
    · rw [hbusy, hfound]
      exact h.apart i x
    · rw [hbusy]
      exact h.alone i j x
    · rw [hfound] at hp
      exact howed hok (h.kept p hp y hy hok)
    · rw [hfound]
      exact h.reach x (hx.imp (fun hy => (htodo x).mpr (.inl hy)) (hseen x).mp)
  | take i x hx hnew hi htodo hseen hbusy hfound => exact h.take hx hnew htodo hseen hi hbusy hfound
  | finish i x ys hi htodo hseen hbusy hfound => exact h.finish hi htodo hseen hbusy hfound

omit [DecidableEq ι] in
/-- With nothing left to do, the nodes visited are those reached. -/
theorem Tour.Inv.exact (h : t.Inv ok root) (htodo : ∀ x, ¬ t.todo x) (hbusy : ∀ i, t.busy i = none)
    (x : α) : x ∈ t.found.map Prod.fst ↔ ok x ∧ Reach t.found root x := by
  have hseen (y : α) : t.seen y ↔ y ∈ t.found.map Prod.fst := by
    rw [h.seen]
    refine or_iff_left ?_
    rintro ⟨i, hi⟩
    rw [hbusy] at hi
    cases hi
  constructor
  · intro hm
    have hs := (hseen x).mpr hm
    exact ⟨h.fit x hs, h.reach x (.inr hs)⟩
  · rintro ⟨hok, hr⟩
    cases hr with
    | root => exact (hseen _).mp ((h.entry hok).resolve_left (htodo _))
    | step _ hm hy => exact (hseen x).mp ((h.kept _ hm x hy hok).resolve_left (htodo x))

end Traversal
