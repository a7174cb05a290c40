import Hvm.Data.Printed

/-! A heap that holds a term and nothing behind its cells. -/

namespace Hvm.Data

/-- Past `next`, and in the two cells before the first that is handed out, there are no terms. -/
structure Unused (rt : Rt) : Prop where
  two : 2 ≤ rt.next
  sub : ∀ c, c < 2 ∨ rt.next ≤ c → (heapRead rt c).sub = true

/-- The first heap got longer, and kept its cells. -/
structure Grown (rt rt' : Rt) : Prop where
  next : rt.next ≤ rt'.next
  keep : ∀ c < rt.next, heapRead rt' c = heapRead rt c

theorem Grown.refl (rt : Rt) : Grown rt rt := ⟨Nat.le_refl _, fun _ _ => rfl⟩

theorem Grown.trans {rt rt' rt'' : Rt} (h : Grown rt rt') (h' : Grown rt' rt'') : Grown rt rt'' := by
  refine ⟨h.next.trans h'.next, fun c hc => ?_⟩
  rw [h'.keep c (hc.trans_le h.next), h.keep c hc]

/-- The word stands for the term, and for nothing more, however the heap grows. -/
def Lasting (rt : Rt) (t : Term) (d : Datum) : Prop := ∀ rt', Grown rt rt' → Held true rt' t d

variable {table : List Text} {rt rt' : Rt} {t : Term} {d : Datum} {nam : Nat} {args : List Datum}

theorem Lasting.grown (h : Lasting rt t d) (hg : Grown rt rt') : Lasting rt' t d :=
  fun _ hg' => h _ (hg.trans hg')

/-- A node is built, and two cells behind it are left out. -/
theorem place_node {ws : List Term} (hrt : Unused rt) (hnam : nam ≤ extMask) (hlen : args.length ≤ 16)
    (hws : List.Forall₂ (Lasting rt) ws args) :
    ∃ rt' t, Unused rt' ∧ Grown rt rt' ∧ Lasting rt' t (.ctr nam args) := by
  have hwlen : ws.length = args.length := hws.length_eq
  set node := (termNewNode rt (.ctr (Fin.ofNat 17 args.length)) nam ws).1 with hnode
  have hnext : node.next = rt.next + args.length := by
    rw [hnode, termNewNode_next, hwlen]
  have hin : ∀ i (h : i < ws.length), heapRead node (rt.next + i) = ws[i] := by
    intro i hi
    rw [hnode]
    exact termNewNode_read rt _ _ _ hi
  have hout : ∀ c, c < rt.next ∨ rt.next + args.length ≤ c → heapRead node c = heapRead rt c := by
    intro c hc
    rw [hnode, termNewNode, termNewAt, termNewAt_go_read]
    by_cases hlt : rt.next ≤ c
    · rw [if_pos hlt, List.getD_eq_default _ _ (by omega)]
      rfl
    · rw [if_neg hlt]
      rfl
  set rt' : Rt := { node with next := node.next + 2 } with hrt'
  have hread' : ∀ c, heapRead rt' c = heapRead node c := fun _ => rfl
  have hnext' : rt'.next = rt.next + args.length + 2 := by rw [hrt', ← hnext]
  have htwo := hrt.two
  have hg : Grown rt rt' := by
    refine ⟨by omega, fun c hc => ?_⟩
    rw [hread', hout c (.inl hc)]
  have hari : args.length = ((Fin.ofNat 17 args.length : Fin 17) : Nat) := by
    rw [Fin.val_ofNat, Nat.mod_eq_of_lt (by omega)]
  refine ⟨rt', ⟨false, .ctr (Fin.ofNat 17 args.length), nam, rt.next⟩, ⟨by omega, fun c hc => ?_⟩, hg,
    fun rt'' hg' => ?_⟩
  · rw [hread', hout c (by omega)]
    exact hrt.sub c (by omega)
  · have hfield : ∀ i (h : i < args.length), Held true rt'' (heapRead rt'' (rt.next + i)) args[i] := by
      intro i hi
      have hi' : i < ws.length := by omega
      have hw : heapRead rt'' (rt.next + i) = ws[i] := by
        rw [hg'.keep _ (by omega), hread', hin i hi']
      rw [hw]
      have hget := (List.forall₂_iff_get.mp hws).2 i hi' hi
      exact hget _ (hg.trans hg')
    refine ⟨.ctr hnam hari (fun _ => ?_) fun i hi => (hfield i hi).holds, fun _ =>
      .ctr (fun i hi => (hfield i hi).wall rfl) fun i hi hle => ?_⟩
    · have := hg'.next
      omega
    · change (heapRead rt'' (rt.next + i)).sub = true
      rw [hg'.keep _ (by omega), hread', hout _ (by omega)]
      exact hrt.sub _ (by omega)

/-- Every term has a place. -/
theorem exists_place (hd : Named table d) (hrt : Unused rt) :
    ∃ rt' t, Unused rt' ∧ Grown rt rt' ∧ Lasting rt' t d := by
  induction d generalizing rt with
  | num n =>
    cases hd with
    | num hn => exact ⟨rt, termNewNum n, hrt, .refl rt, fun _ _ => ⟨.num hn, fun _ => .num _ _⟩⟩
  | ctr nam args ih =>
    cases hd with
    | ctr _ hext _ hlen hargs =>
      have hall : ∃ rt' ws, Unused rt' ∧ Grown rt rt' ∧ List.Forall₂ (Lasting rt') ws args := by
        clear hlen
        induction args generalizing rt with
        | nil => exact ⟨rt, [], hrt, .refl rt, .nil⟩
        | cons a args iha =>
          obtain ⟨rt1, w, hrt1, hg1, hw⟩ := ih a List.mem_cons_self (hargs a List.mem_cons_self) hrt
          obtain ⟨rt2, ws, hrt2, hg2, hws⟩ := iha (fun x hx => ih x (List.mem_cons_of_mem _ hx)) hrt1
            fun x hx => hargs x (List.mem_cons_of_mem _ hx)
          exact ⟨rt2, w :: ws, hrt2, hg1.trans hg2, .cons (hw.grown hg2) hws⟩
      obtain ⟨rt1, ws, hrt1, hg1, hws⟩ := hall
      by_cases hne : args = []
      · subst hne
        refine ⟨rt, ⟨false, .ctr 0, nam, 0⟩, hrt, .refl rt, fun rt' hg => ⟨?_, fun _ => ?_⟩⟩
        · exact .ctr hext rfl (fun h => absurd rfl h) fun i hi => absurd hi (Nat.not_lt_zero i)
        · refine .ctr (fun i hi => absurd hi (Nat.not_lt_zero i)) fun i hi _ => ?_
          have htwo := hrt.two
          change (heapRead rt' (0 + i)).sub = true
          rw [hg.keep _ (by omega)]
          exact hrt.sub _ (by omega)
      · obtain ⟨rt2, t, hrt2, hg2, ht⟩ := place_node hrt1 hext hlen hws
        exact ⟨rt2, t, hrt2, hg1.trans hg2, ht⟩

theorem exists_held (hd : Named table d) : ∃ rt t, Held true rt t d := by
  have hrt : Unused ⟨fun _ => .tm (termSubSet Term.zero true), 2, 0, 0, []⟩ :=
    ⟨Nat.le_refl _, fun _ _ => rfl⟩
  obtain ⟨rt, t, -, -, ht⟩ := exists_place hd hrt
  exact ⟨rt, t, ht rt (.refl rt)⟩

end Hvm.Data
