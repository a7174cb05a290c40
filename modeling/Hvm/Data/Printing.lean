import Hvm.Data.Fine

/-! What `print_term` writes for data in the heap. -/

namespace Hvm.Data

/-- The cells behind the fields of a constructor of fewer than two fields are no terms: they are
marked as substitutions. -/
inductive Walled (rt : Rt) : Term → Datum → Prop where
  | num (t : Term) (n : Nat) : Walled rt t (.num n)
  | ctr {t : Term} {nam : Nat} {args : List Datum} :
    (∀ i (h : i < args.length), Walled rt (heapRead rt (t.val + i)) args[i]) →
    (∀ i < 2, args.length ≤ i → (heapRead rt (t.val + i)).sub = true) → Walled rt t (.ctr nam args)

/-- The heap holds a term, and where `walled` is asked for, nothing is behind its cells. -/
structure Held (walled : Bool) (rt : Rt) (t : Term) (d : Datum) : Prop where
  holds : Holds rt t d
  wall : walled = true → Walled rt t d

variable {walled : Bool} {rt : Rt} {t : Term} {d y : Datum} {nam k : Nat} {args ds : List Datum}

theorem Held.field (h : Held walled rt t (.ctr nam args)) {i : Nat} (hi : i < args.length) :
    Held walled rt (heapRead rt (t.val + i)) args[i] := by
  obtain ⟨hh, hw⟩ := h
  refine ⟨?_, fun hwalled => ?_⟩
  · cases hh with
    | ctr _ _ _ hargs => exact hargs i hi
  · cases hw hwalled with
    | ctr hargs _ => exact hargs i hi

theorem Holds.ctr_iff (h : Holds rt t d) (k : Fin 17) (nam : Nat) :
    (t.tag = .ctr k ∧ t.ext = nam) ↔ ∃ args : List Datum, args.length = k ∧ d = .ctr nam args := by
  cases h with
  | num =>
    constructor
    · rintro ⟨htag, -⟩
      cases htag
    · rintro ⟨args, -, hd⟩
      cases hd
  | @ctr nam' v ari args hnam hari _ _ =>
    constructor
    · rintro ⟨htag, rfl⟩
      cases htag
      exact ⟨args, hari, rfl⟩
    · rintro ⟨args', hlen, hd⟩
      cases hd
      exact ⟨by rw [Fin.ext (hari.symm.trans hlen)], rfl⟩

/-! ### The loops -/

/-- The loop over the `#SUC`s ends at what they stand over. -/
theorem sucSpine_run (h : Held walled rt t (peano k y)) (hy : y.Based) :
    ∃ ty, Held walled rt ty y ∧ ∀ fuel m, sucSpine rt fuel (u32 m) t =
      if k < fuel then .ok (u32 (m + k), ty) else .error .fuel := by
  induction k generalizing t with
  | zero =>
    refine ⟨t, h, fun fuel m => ?_⟩
    cases fuel with
    | zero => rfl
    | succ fuel =>
      have hno : ¬ (t.tag = .ctr 1 ∧ t.ext = symSuc) := by
        rw [h.holds.ctr_iff]
        rintro ⟨args, hlen, hd⟩
        obtain ⟨x, rfl⟩ := List.length_eq_one_iff.mp hlen
        exact hy x hd
      rw [sucSpine, if_neg hno, if_pos (Nat.succ_pos _), Nat.add_zero]
  | succ k ih =>
    have hfield : Held walled rt (heapRead rt (t.val + 0)) (peano k y) := h.field (Nat.succ_pos 0)
    obtain ⟨ty, hty, hrun⟩ := ih hfield
    refine ⟨ty, hty, fun fuel m => ?_⟩
    cases fuel with
    | zero => rfl
    | succ fuel =>
      have hyes : t.tag = .ctr 1 ∧ t.ext = symSuc :=
        (h.holds.ctr_iff 1 symSuc).mpr ⟨[peano k y], rfl, rfl⟩
      have hu : u32 (u32 m + 1) = u32 (m + 1) := Nat.mod_add_mod m (2 ^ 32) 1
      rw [sucSpine, if_pos hyes, hu]
      refine (hrun fuel (m + 1)).trans ?_
      by_cases hk : k < fuel
      · rw [if_pos hk, if_pos (Nat.succ_lt_succ hk), Nat.add_right_comm, Nat.add_assoc m k 1]
      · rw [if_neg hk, if_neg (by omega)]

/-- The printed words, separated by commas. -/
def printWords (at_ : Term → Except PrintStop Text) : Bool → List Term → Except PrintStop Text
  | _, [] => return []
  | first, w :: ws => do
    let e ← at_ w
    let rest ← printWords at_ false ws
    return (if first then [] else tok ',') ++ e ++ rest

/-- The words from a place on. -/
def wordsAt (rt : Rt) (loc : Nat) : Nat → Nat → List Term
  | _, 0 => []
  | i, k + 1 => heapRead rt (loc + i) :: wordsAt rt loc (i + 1) k

theorem printFields_eq (at_ : Term → Except PrintStop Text) (rt : Rt) (loc i k : Nat) :
    printFields at_ rt loc i k = printWords at_ (decide (i = 0)) (wordsAt rt loc i k) := by
  induction k generalizing i with
  | zero => rfl
  | succ k ih =>
    have hi : decide (i + 1 = 0) = false := decide_eq_false (Nat.succ_ne_zero i)
    rw [printFields, wordsAt, printWords, ih, hi]
    by_cases h0 : i = 0
    · rw [if_pos h0, decide_eq_true h0]
      rfl
    · rw [if_neg h0, decide_eq_false h0]
      rfl

theorem length_wordsAt (rt : Rt) (loc i k : Nat) : (wordsAt rt loc i k).length = k := by
  induction k generalizing i with
  | zero => rfl
  | succ k ih => rw [wordsAt, List.length_cons, ih]

theorem getElem_wordsAt {loc i k j : Nat} (h : j < (wordsAt rt loc i k).length) :
    (wordsAt rt loc i k)[j] = heapRead rt (loc + (i + j)) := by
  induction k generalizing i j with
  | zero => cases h
  | succ k ih =>
    cases j with
    | zero => rfl
    | succ j =>
      simp only [wordsAt, List.getElem_cons_succ]
      rw [ih, Nat.succ_add_eq_add_succ]

/-- The words of a list, each with its term. -/
def AllHeld (walled : Bool) (rt : Rt) (ws : List Term) (ds : List Datum) : Prop :=
  List.Forall₂ (Held walled rt) ws ds

theorem Held.fields (h : Held walled rt t (.ctr nam args)) :
    AllHeld walled rt (wordsAt rt t.val 0 args.length) args := by
  refine List.forall₂_iff_get.mpr ⟨length_wordsAt _ _ _ _, fun i hi hi' => ?_⟩
  rw [List.get_eq_getElem, getElem_wordsAt, Nat.zero_add]
  exact h.field hi'

/-- The loop over a proper list reads its elements. -/
theorem printList_run (h : Held walled rt t (chain ds)) : ∃ ws, AllHeld walled rt ws ds ∧
    ∀ at_ fuel first, (ws.length < fuel → printList at_ rt fuel first t = printWords at_ first ws) ∧
      (fuel ≤ ws.length → ∃ e, printList at_ rt fuel first t = .error e) := by
  induction ds generalizing t with
  | nil =>
    refine ⟨[], .nil, fun at_ fuel first => ⟨fun hf => ?_, fun hf => ?_⟩⟩
    · obtain ⟨fuel, rfl⟩ : ∃ f, fuel = f + 1 := ⟨fuel - 1, (Nat.sub_add_cancel hf).symm⟩
      have hno : t.tag ≠ .ctr 2 := by
        have htag := ((h.holds.ctr_iff 0 symNil).mpr ⟨[], rfl, rfl⟩).1
        rw [htag]
        decide
      rw [printList, if_neg hno]
      rfl
    · obtain rfl : fuel = 0 := Nat.le_zero.mp hf
      exact ⟨_, rfl⟩
  | cons d ds ih =>
    have hhead : Held walled rt (heapRead rt (t.val + 0)) d := h.field (Nat.succ_pos 1)
    have htail : Held walled rt (heapRead rt (t.val + 1)) (chain ds) := h.field (Nat.one_lt_two)
    obtain ⟨ws, hws, hrun⟩ := ih htail
    have hyes : t.tag = .ctr 2 := ((h.holds.ctr_iff 2 symCon).mpr ⟨[d, chain ds], rfl, rfl⟩).1
    refine ⟨heapRead rt (t.val + 0) :: ws, .cons hhead hws, fun at_ fuel first => ⟨fun hf => ?_, fun hf => ?_⟩⟩
    · rw [List.length_cons] at hf
      obtain ⟨fuel, rfl⟩ : ∃ f, fuel = f + 1 := ⟨fuel - 1, by omega⟩
      rw [printList, if_pos hyes, (hrun at_ fuel false).1 (by omega)]
      rfl
    · cases fuel with
      | zero => exact ⟨_, rfl⟩
      | succ fuel =>
        rw [List.length_cons] at hf
        obtain ⟨e, he⟩ := (hrun at_ fuel false).2 (by omega)
        rw [printList, if_pos hyes, he]
        cases at_ (heapRead rt t.val) with
        | error e' => exact ⟨e', rfl⟩
        | ok s => exact ⟨e, rfl⟩

/-- Pairs over each other, down to a term that is none. -/
def spine : List Datum → Datum → Datum
  | [], z => z
  | d :: ds, z => .ctr symCon [d, spine ds z]

theorem chain_eq (ds : List Datum) : chain ds = spine ds (.ctr symNil []) := by
  induction ds with
  | nil => rfl
  | cons d ds ih => rw [chain, ih, spine]

/-- Not one more pair. -/
def Datum.Ended (d : Datum) : Prop := ∀ x x', d ≠ .ctr symCon [x, x']

theorem exists_spine (d : Datum) : ∃ ds z, d = spine ds z ∧ z.Ended := by
  induction d with
  | num n => exact ⟨[], .num n, rfl, fun x x' h => by cases h⟩
  | ctr nam args ih =>
    by_cases h : ∃ x x', Datum.ctr nam args = .ctr symCon [x, x']
    · obtain ⟨x, x', hx⟩ := h
      injection hx with hnam hargs
      obtain ⟨ds, z, hz, hend⟩ := ih x' (by rw [hargs]; exact List.mem_cons_of_mem _ (List.mem_singleton_self x'))
      exact ⟨x :: ds, z, by rw [spine, ← hz, hnam, hargs], hend⟩
    · exact ⟨[], _, rfl, fun x x' hx => h ⟨x, x', hx⟩⟩

theorem proper_spine {z : Datum} (hz : z.Ended) : (spine ds z).Proper ↔ z = .ctr symNil [] := by
  constructor
  · rintro ⟨es, hes⟩
    rw [chain_eq] at hes
    induction ds generalizing es with
    | nil =>
      cases es with
      | nil => exact hes
      | cons e es => exact absurd hes (hz _ _)
    | cons d ds ih =>
      cases es with
      | nil => cases hes
      | cons e es =>
        injection hes with _ hes
        injection hes with _ hes
        injection hes with hes _
        exact ih es hes
  · rintro rfl
    exact ⟨ds, (chain_eq ds).symm⟩

/-- The loop over the pairs ends at the term below them. -/
theorem conEnd_run {z : Datum} (h : Held walled rt t (spine ds z)) (hz : z.Ended) :
    ∃ tz, Holds rt tz z ∧ ∀ fuel, conEnd rt fuel t =
      if ds.length < fuel then .ok tz else .error .fuel := by
  induction ds generalizing t with
  | nil =>
    refine ⟨t, h.holds, fun fuel => ?_⟩
    cases fuel with
    | zero => rfl
    | succ fuel =>
      have hno : ¬ (t.tag = .ctr 2 ∧ t.ext = symCon) := by
        rw [h.holds.ctr_iff]
        rintro ⟨args, hlen, hd⟩
        obtain ⟨x, x', rfl⟩ := List.length_eq_two.mp hlen
        exact hz x x' hd
      rw [conEnd, if_neg hno, List.length_nil, if_pos (Nat.succ_pos _)]
  | cons d ds ih =>
    have htail : Held walled rt (heapRead rt (t.val + 1)) (spine ds z) := h.field (Nat.one_lt_two)
    obtain ⟨tz, htz, hrun⟩ := ih htail
    refine ⟨tz, htz, fun fuel => ?_⟩
    cases fuel with
    | zero => rfl
    | succ fuel =>
      have hyes : t.tag = .ctr 2 ∧ t.ext = symCon :=
        (h.holds.ctr_iff 2 symCon).mpr ⟨[d, spine ds z], rfl, rfl⟩
      rw [conEnd, if_pos hyes, List.length_cons]
      refine (hrun fuel).trans ?_
      by_cases hk : ds.length < fuel
      · rw [if_pos hk, if_pos (Nat.succ_lt_succ hk)]
      · rw [if_neg hk, if_neg (by omega)]

/-! ### The sugars -/

theorem isZer_iff (h : Holds rt t d) : isZer t = true ↔ d = zero := by
  rw [isZer, decide_eq_true_iff]
  refine (h.ctr_iff 0 symZer).trans ⟨?_, fun hd => ⟨[], rfl, hd⟩⟩
  rintro ⟨args, hlen, hd⟩
  rw [hd, List.length_eq_zero_iff.mp hlen, zero]

theorem isNil_iff (h : Holds rt t d) : isNil t = true ↔ d = .ctr symNil [] := by
  rw [isNil, decide_eq_true_iff]
  refine (h.ctr_iff 0 symNil).trans ⟨?_, fun hd => ⟨[], rfl, hd⟩⟩
  rintro ⟨args, hlen, hd⟩
  rw [hd, List.length_eq_zero_iff.mp hlen]

/-- A natural: its number, and what is under its `#SUC`s where that is not `#ZER`. -/
theorem printNat_run (h : Held walled rt t (peano k y)) (hy : y.Based) :
    ∃ ty, Held walled rt ty y ∧ ∀ at_ fuel,
      (k < fuel → y = zero → printNat at_ rt fuel t = .ok (printDecimal (u32 k) ++ tok 'n')) ∧
      (k < fuel → y ≠ zero → printNat at_ rt fuel t = do
        let x ← at_ ty
        return printDecimal (u32 k) ++ tok 'n' ++ tok '+' ++ x) ∧
      (fuel ≤ k → printNat at_ rt fuel t = .error .fuel) := by
  obtain ⟨ty, hty, hrun⟩ := sucSpine_run h hy
  refine ⟨ty, hty, fun at_ fuel => ?_⟩
  have hspine : sucSpine rt fuel 0 t = if k < fuel then .ok (u32 k, ty) else .error .fuel := by
    have h0 := hrun fuel 0
    rwa [Nat.zero_add] at h0
  refine ⟨fun hk hzero => ?_, fun hk hzero => ?_, fun hk => ?_⟩
  · rw [if_pos hk] at hspine
    simp only [printNat, hspine, bind, Except.bind, (isZer_iff hty.holds).mpr hzero, if_true]
    rfl
  · rw [if_pos hk] at hspine
    have hno : isZer ty = false := by
      rw [Bool.eq_false_iff]
      exact fun hz => hzero ((isZer_iff hty.holds).mp hz)
    simp only [printNat, hspine, bind, Except.bind, hno, Bool.false_eq_true, if_false]
  · rw [if_neg (by omega)] at hspine
    simp only [printNat, hspine, bind, Except.bind]

/-- No list of data without `#CHR` is a string. -/
theorem isStr_run {table : List Text} (h : Holds rt t (.ctr nam args)) (hnamed : Named table (.ctr nam args))
    (hext : t.ext = symCon) {fuel : Nat} (hf : 0 < fuel) :
    ∃ b, isStr rt fuel t = .ok b ∧ (b = true → ¬ (Datum.ctr nam args).Proper) := by
  obtain ⟨fuel, rfl⟩ : ∃ f, fuel = f + 1 := ⟨fuel - 1, (Nat.sub_add_cancel hf).symm⟩
  rw [isStr]
  by_cases htag : t.tag = .ctr 2 ∧ t.ext = symCon
  · refine ⟨false, ?_, fun hb => by cases hb⟩
    obtain ⟨args', hlen, hd⟩ := (h.ctr_iff 2 symCon).mp htag
    obtain ⟨x, x', rfl⟩ := List.length_eq_two.mp hlen
    cases hd
    have hheld : Held false rt t (.ctr symCon [x, x']) := ⟨h, fun hb => by cases hb⟩
    have hx : Held false rt (heapRead rt (t.val + 0)) x := hheld.field (Nat.succ_pos 1)
    have hno : ¬ ((heapRead rt t.val).tag = .ctr 1 ∧ (heapRead rt t.val).ext = symChr) := by
      intro hchr
      obtain ⟨cs, -, rfl⟩ := (hx.holds.ctr_iff 1 symChr).mp hchr
      cases hnamed with
      | ctr _ _ _ _ hargs =>
        cases hargs _ List.mem_cons_self with
        | ctr _ _ hne _ _ => exact hne rfl
    rw [if_pos htag]
    exact if_pos hno
  · refine ⟨true, if_neg htag, fun _ => ?_⟩
    rintro ⟨ds, hds⟩
    cases ds with
    | nil =>
      have hnil := ((h.ctr_iff 0 symNil).mpr ⟨[], rfl, hds⟩).2
      rw [hext] at hnil
      cases hnil
    | cons x xs => exact htag ((h.ctr_iff 2 symCon).mpr ⟨[x, chain xs], rfl, hds⟩)

/-- The three ways the list sugars go, and the one way they stop. -/
structure ConCases (at_ : Term → Except PrintStop Text) (rt : Rt) (t : Term) (d : Datum) (len fuel : Nat) :
    Prop where
  list : len < fuel → d.Proper → printCon at_ rt fuel t = do
    let es ← printList at_ rt fuel true t
    return some (tok '[' ++ es ++ tok ']')
  pair : len < fuel → ¬ d.Proper → t.ext = symCon → printCon at_ rt fuel t = do
    let h ← at_ (heapRead rt t.val)
    let x ← at_ (heapRead rt (t.val + 1))
    return some (h ++ tok '<' ++ tok '>' ++ x)
  none : len < fuel → ¬ d.Proper → t.ext ≠ symCon → printCon at_ rt fuel t = .ok none
  stop : fuel ≤ len → ∃ e, printCon at_ rt fuel t = .error e

theorem printCon_run {table : List Text} {z : Datum} (h : Held walled rt t (.ctr nam args))
    (hnamed : Named table (.ctr nam args)) (hspine : Datum.ctr nam args = spine ds z) (hz : z.Ended)
    (at_ : Term → Except PrintStop Text) (fuel : Nat) :
    ConCases at_ rt t (.ctr nam args) ds.length fuel := by
  have hheld : Held walled rt t (spine ds z) := hspine ▸ h
  obtain ⟨tz, htz, hend⟩ := conEnd_run hheld hz
  have hproper : (Datum.ctr nam args).Proper ↔ isNil tz = true := by
    rw [hspine, proper_spine hz, isNil_iff htz]
  have hno (hp : ¬ (Datum.ctr nam args).Proper) : isNil tz = false := by
    rw [Bool.eq_false_iff]
    exact fun hn => hp (hproper.mpr hn)
  have hlast := hend fuel
  refine ⟨fun hlt hp => ?_, fun hlt hp hext => ?_, fun hlt hp hext => ?_, fun hle => ?_⟩
  · rw [if_pos hlt] at hlast
    by_cases hext : t.ext = symCon
    · obtain ⟨b, hb, hbp⟩ := isStr_run h.holds hnamed hext (Nat.zero_lt_of_lt hlt)
      have hfalse : b = false := by
        rw [Bool.eq_false_iff]
        exact fun hbt => hbp hbt hp
      simp only [printCon, hext, hb, hfalse, hlast, bind, Except.bind, hproper.mp hp, Bool.false_eq_true,
        false_and, if_false, if_true]
    · simp only [printCon, hext, hlast, bind, Except.bind, hproper.mp hp, Bool.false_eq_true,
        false_and, if_false, if_true]
  · rw [if_pos hlt] at hlast
    obtain ⟨b, hb, -⟩ := isStr_run h.holds hnamed hext (Nat.zero_lt_of_lt hlt)
    simp only [printCon, hext, hb, hlast, bind, Except.bind, hno hp, Bool.false_eq_true, and_false, if_false,
      if_true]
  · rw [if_pos hlt] at hlast
    simp only [printCon, hext, hlast, bind, Except.bind, hno hp, Bool.false_eq_true, and_false, if_false]
    rfl
  · rw [if_neg (by omega)] at hlast
    by_cases hext : t.ext = symCon
    · simp only [printCon, hext, hlast, bind, Except.bind, if_true]
      cases isStr rt fuel t with
      | error e => exact ⟨e, rfl⟩
      | ok b => exact ⟨_, rfl⟩
    · simp only [printCon, hext, hlast, bind, Except.bind, if_false]
      exact ⟨_, rfl⟩

end Hvm.Data
