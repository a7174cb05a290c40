import Hvm.Data.Placed
import Hvm.Infix.Sequence

/-! Building data while parsing, and runs of the parser that are sure to end. -/

namespace Hvm.Data

open Effect

variable {p q : Parse} {t : Term} {d : Datum} {ds : List Datum} {ws : List Term}

/-! ### Nodes -/

/-- A run that does nothing but build `k` cells: it gives a term as `P` says, or there is no room. -/
def Makes (p : Parse) (k : Nat) (P : Rt → Term → Prop) (res : Except ParseStop (Term × Parse)) : Prop :=
  (∃ t rt, res = .ok (t, { p with rt := rt }) ∧ Grown p.rt rt ∧ rt.next = p.rt.next + k ∧ P rt t) ∨
    (res = .error .outOfHeap ∧ heapCap < p.rt.next + k)

theorem Makes.bind {k l : Nat} {P Q : Rt → Term → Prop} {m : Parser Term} {f : Term → Parser Term}
    (hm : Makes p k P (m p))
    (hf : ∀ t rt, P rt t → Grown p.rt rt → Makes { p with rt := rt } l Q (f t { p with rt := rt })) :
    Makes p (k + l) Q ((m >>= f) p) := by
  rcases hm with ⟨t, rt, hrun, hg, hnext, hP⟩ | ⟨hrun, hcap⟩
  · rw [run_bind hrun]
    rcases hf t rt hP hg with ⟨t', rt', hrun', hg', hnext', hQ⟩ | ⟨hrun', hcap⟩
    · refine .inl ⟨t', rt', hrun', hg.trans hg', ?_, hQ⟩
      have hn : rt'.next = rt.next + l := hnext'
      omega
    · refine .inr ⟨hrun', ?_⟩
      have hc : heapCap < rt.next + l := hcap
      omega
  · exact .inr ⟨error_bind f hrun, by omega⟩

theorem Holds.grown {rt rt' : Rt} (h : Holds rt t d) (hg : Grown rt rt') : Holds rt' t d :=
  h.keep hg.next hg.keep

theorem holds_grown {rt rt' : Rt} (h : List.Forall₂ (Holds rt) ws ds) (hg : Grown rt rt') :
    List.Forall₂ (Holds rt') ws ds := h.imp fun _ _ hd => hd.grown hg

theorem build_data {nam : Nat} (p : Parse) (hnam : nam ≤ extMask) (hlen : ds.length ≤ 16)
    (hws : List.Forall₂ (Holds p.rt) ws ds) :
    Makes p ds.length (fun rt t => Holds rt t (.ctr nam ds)) (build (fun rt => termNewCtr rt nam ws) p) := by
  have hwlen : ws.length = ds.length := hws.length_eq
  have hext : nam % (extMask + 1) = nam := Nat.mod_eq_of_lt (by omega)
  by_cases hzero : ws.length = 0
  · obtain rfl : ds = [] := List.length_eq_zero_iff.mp (hwlen ▸ hzero)
    have hctr : ∀ rt, termNewCtr rt nam ws = (rt, ⟨false, .ctr 0, nam, 0⟩) := by
      intro rt
      rw [termNewCtr, if_pos hzero, termNew, hext]
    rw [build_run, hctr]
    by_cases hcap : heapCap < p.rt.next
    · exact .inr ⟨if_pos hcap, hcap⟩
    · exact .inl ⟨_, p.rt, if_neg hcap, .refl _, rfl,
        .ctr hnam rfl (fun h => absurd rfl h) fun i hi => absurd hi (Nat.not_lt_zero i)⟩
  · have hctr : ∀ rt, termNewCtr rt nam ws = termNewNode rt (.ctr (Fin.ofNat 17 ws.length)) nam ws := by
      intro rt
      rw [termNewCtr, if_neg hzero]
    have hnext := termNewNode_next p.rt (.ctr (Fin.ofNat 17 ws.length)) nam ws
    have hgrown : Grown p.rt (termNewNode p.rt (.ctr (Fin.ofNat 17 ws.length)) nam ws).1 :=
      ⟨by omega, fun c hc => termNewNode_frame _ _ _ _ hc⟩
    rw [build_run, hctr]
    by_cases hcap : heapCap < (termNewNode p.rt (.ctr (Fin.ofNat 17 ws.length)) nam ws).1.next
    · exact .inr ⟨if_pos hcap, by omega⟩
    · refine .inl ⟨_, _, if_neg hcap, hgrown, by omega, ?_⟩
      have hari : ds.length = ((Fin.ofNat 17 ws.length : Fin 17) : Nat) := by
        rw [Fin.val_ofNat, Nat.mod_eq_of_lt (by omega), hwlen]
      rw [termNewNode_snd, termNew, hext]
      refine .ctr hnam hari (fun _ => by omega) fun i hi => ?_
      have hi' : i < ws.length := by omega
      rw [termNewNode_read _ _ _ _ hi']
      have hget := (List.forall₂_iff_get.mp hws).2 i hi' hi
      exact Holds.grown hget hgrown

theorem build_sucs (k : Nat) (h : Holds p.rt t d) :
    Makes p k (fun rt t => Holds rt t (peano k d)) (sucs k t p) := by
  induction k generalizing p t d with
  | zero => exact .inl ⟨t, p.rt, rfl, .refl _, rfl, h⟩
  | succ k ih =>
    have hlen : [d].length ≤ 16 := Nat.succ_le_succ (Nat.zero_le 15)
    have hsuc : symSuc ≤ extMask := by decide
    have hone := build_data p hsuc hlen (.cons h .nil)
    have hsum : Makes p (1 + k) (fun rt t => Holds rt t (peano (k + 1) d)) (sucs (k + 1) t p) := by
      refine hone.bind fun t' rt' ht' _ => ?_
      have hrest := ih (p := { p with rt := rt' }) ht'
      have hpeano : peano k (.ctr symSuc [d]) = peano (k + 1) d := (peano_add k 1 d).symm
      rwa [hpeano] at hrest
    rwa [Nat.add_comm] at hsum

theorem build_chain (hws : List.Forall₂ (Holds p.rt) ws ds) {es : List Datum}
    (h : Holds p.rt t (chain es)) :
    Makes p (2 * ws.length) (fun rt t => Holds rt t (chain (ds ++ es)))
      (ws.foldrM (fun e t => build fun rt => termNewCtr rt symCon [e, t]) t p) := by
  induction hws with
  | nil => exact .inl ⟨t, p.rt, rfl, .refl _, rfl, h⟩
  | @cons w d ws ds hw _ ih =>
    have hlen : 2 * (w :: ws).length = 2 * ws.length + 2 := by
      rw [List.length_cons]
      omega
    have htwo : [d, chain (ds ++ es)].length ≤ 16 := Nat.succ_le_succ (Nat.succ_le_succ (Nat.zero_le 14))
    have hcon : symCon ≤ extMask := by decide
    rw [List.foldrM_cons, hlen]
    exact ih.bind fun t' rt' ht' hg =>
      build_data { p with rt := rt' } hcon htwo (.cons (hw.grown hg) (.cons ht' .nil))

/-! ### Runs that end -/

/-- From some fuel on the run is the same and ends with `Q`, or, where that is not sure, in an
error. -/
def Lands {α : Type} (sure : Prop) (m : Nat → Parser α) (p : Parse) (Q : α → Parse → Prop) : Prop :=
  ∃ N, (∃ a q, (∀ n ≥ N, m n p = .ok (a, q)) ∧ Q a q) ∨ (¬ sure ∧ ∀ n ≥ N, ∃ e, m n p = .error e)

variable {α β : Type} {sure : Prop} {m m' : Nat → Parser α} {f : Nat → α → Parser β} {a : α}
  {Q : α → Parse → Prop} {R : β → Parse → Prop}

theorem Lands.ok (h : ∀ n, m n p = .ok (a, q)) (hQ : Q a q) : Lands sure m p Q :=
  ⟨0, .inl ⟨a, q, fun n _ => h n, hQ⟩⟩

theorem Lands.fail (h : ∀ n, ∃ e, m n p = .error e) (hs : ¬ sure) : Lands sure m p Q :=
  ⟨0, .inr ⟨hs, fun n _ => h n⟩⟩

theorem Lands.congr (h : ∀ n, m n p = m' n q) (h' : Lands sure m' q Q) : Lands sure m p Q := by
  obtain ⟨N, ⟨a, r, hrun, hQ⟩ | ⟨hs, hrun⟩⟩ := h'
  · exact ⟨N, .inl ⟨a, r, fun n hn => (h n).trans (hrun n hn), hQ⟩⟩
  · refine ⟨N, .inr ⟨hs, fun n hn => ?_⟩⟩
    rw [h n]
    exact hrun n hn

/-- Levels of fuel more. -/
theorem Lands.shift (k : Nat) (h : Lands sure (fun n => m (n + k)) p Q) : Lands sure m p Q := by
  obtain ⟨N, ⟨a, r, hrun, hQ⟩ | ⟨hs, hrun⟩⟩ := h
  · refine ⟨N + k, .inl ⟨a, r, fun n hn => ?_, hQ⟩⟩
    have hn' : m (n - k + k) p = _ := hrun (n - k) (by omega)
    rwa [Nat.sub_add_cancel (by omega)] at hn'
  · refine ⟨N + k, .inr ⟨hs, fun n hn => ?_⟩⟩
    have hn' : ∃ e, m (n - k + k) p = .error e := hrun (n - k) (by omega)
    rwa [Nat.sub_add_cancel (by omega)] at hn'

theorem Lands.bind (h : Lands sure m p Q) (hf : ∀ a q, Q a q → Lands sure (fun n => f n a) q R) :
    Lands sure (fun n => m n >>= f n) p R := by
  obtain ⟨N, ⟨a, q, hrun, hQ⟩ | ⟨hs, hrun⟩⟩ := h
  · obtain ⟨M, ⟨b, r, hrun', hR⟩ | ⟨hs, hrun'⟩⟩ := hf a q hQ
    · refine ⟨max N M, .inl ⟨b, r, fun n hn => ?_, hR⟩⟩
      dsimp only
      rw [run_bind (hrun n (by omega))]
      exact hrun' n (by omega)
    · refine ⟨max N M, .inr ⟨hs, fun n hn => ?_⟩⟩
      dsimp only
      rw [run_bind (hrun n (by omega))]
      exact hrun' n (by omega)
  · refine ⟨N, .inr ⟨hs, fun n hn => ?_⟩⟩
    obtain ⟨e, he⟩ := hrun n hn
    exact ⟨e, error_bind (f n) he⟩

theorem Lands.makes {mk : Parser Term} {k : Nat} {P : Rt → Term → Prop} {Q : Term → Parse → Prop}
    (h : Makes p k P (mk p)) (hroom : sure → p.rt.next + k ≤ heapCap)
    (hQ : ∀ t rt, Grown p.rt rt → rt.next = p.rt.next + k → P rt t → Q t { p with rt := rt }) :
    Lands sure (fun _ => mk) p Q := by
  rcases h with ⟨t, rt, hrun, hg, hnext, hP⟩ | ⟨hrun, hcap⟩
  · exact .ok (fun _ => hrun) (hQ t rt hg hnext hP)
  · refine .fail (fun _ => ⟨_, hrun⟩) fun hs => ?_
    have := hroom hs
    omega

end Hvm.Data
