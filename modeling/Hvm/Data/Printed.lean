import Hvm.Data.Printing

/-! The printer spells data: it writes the text of each term that has one, and of no other. -/

namespace Hvm.Data

variable {other : Term → Text} {table : List Text} {walled : Bool} {rt : Rt} {t : Term} {d y : Datum}
  {nam k fuel : Nat} {args ds : List Datum} {ari : Nat} {e : Expr} {txt : Text}
  {at_ : Term → Except PrintStop Text}

/-! ### One level -/

theorem ok_of_bind {α β : Type} {x : Except PrintStop α} {f : α → Except PrintStop β} {b : β}
    (h : (x >>= f) = .ok b) : ∃ a, x = .ok a ∧ f a = .ok b := by
  cases x with
  | error e => cases h
  | ok a => exact ⟨a, rfl, h⟩

theorem printAt_num {n : Nat} (h : Holds rt t (.num n)) (m : Nat) :
    printTermAt other table rt (m + 1) t = .ok (printDecimal n) := by
  cases h with
  | num hn =>
    have hu : u32 n = n := Nat.mod_eq_of_lt hn
    simp only [printTermAt, termNewNum, termNew, Bool.false_eq_true, if_false, hu]
    rfl

theorem printAt_ctr (other : Term → Text) (table : List Text) (h : Holds rt t (.ctr nam args)) : t.ext = nam ∧
    ∀ m, printTermAt other table rt (m + 1) t =
      printCtr (printTermAt other table rt m) table rt m t args.length := by
  cases h with
  | @ctr _ v ari _ _ hari _ _ =>
    refine ⟨rfl, fun m => ?_⟩
    rw [hari]
    simp only [printTermAt, Bool.false_eq_true, if_false]

theorem printAt_sub (other : Term → Text) (table : List Text) (h : t.sub = true) (n : Nat) : ∃ e, printTermAt other table rt n t = .error e := by
  cases n with
  | zero => exact ⟨_, rfl⟩
  | succ n => exact ⟨.assertion, by rw [printTermAt, if_pos h]⟩

theorem printCtr_nat (h : t.ext = symZer ∨ t.ext = symSuc) :
    printCtr at_ table rt fuel t ari = printNat at_ rt fuel t := by
  rw [printCtr, if_pos h]

theorem printChr_none (h : t.ext ≠ symChr) : printChr rt t ari = none := by
  rw [printChr, if_neg]
  exact fun hc => h hc.1

theorem printCtr_con (h : t.ext = symNil ∨ t.ext = symCon) :
    printCtr at_ table rt fuel t ari = printCon at_ rt fuel t >>=
      fun s => s.elim (printPlain at_ table rt t ari) .ok := by
  have hz : ¬ (t.ext = symZer ∨ t.ext = symSuc) := by
    rcases h with h | h <;> rw [h] <;> decide
  have hc : t.ext ≠ symChr := by
    rcases h with h | h <;> rw [h] <;> decide
  rw [printCtr, if_neg hz, printChr_none hc]
  simp only [if_pos h]
  refine bind_congr fun s => ?_
  cases s <;> rfl

theorem printCtr_plain (hz : t.ext ≠ symZer) (hs : t.ext ≠ symSuc) (hn : t.ext ≠ symNil) (hc : t.ext ≠ symCon)
    (hchr : t.ext ≠ symChr) : printCtr at_ table rt fuel t ari = printPlain at_ table rt t ari := by
  have h1 : ¬ (t.ext = symZer ∨ t.ext = symSuc) := fun h => h.elim hz hs
  have h2 : ¬ (t.ext = symNil ∨ t.ext = symCon) := fun h => h.elim hn hc
  rw [printCtr, if_neg h1, printChr_none hchr]
  simp only [if_neg h2]
  rfl

/-! ### Lists of terms -/

theorem printWords_run {ws : List Term} {es : List Expr} (hlen : ws.length = es.length)
    (h : ∀ i (hi : i < ws.length) (hi' : i < es.length), at_ ws[i] = .ok (es[i].text table)) (first : Bool) :
    printWords at_ first ws = .ok (textAll table first es) := by
  induction ws generalizing es first with
  | nil =>
    cases es with
    | nil => rfl
    | cons e es => cases hlen
  | cons w ws ih =>
    cases es with
    | nil => cases hlen
    | cons e es =>
      have hw : at_ w = .ok (e.text table) := h 0 (Nat.succ_pos _) (Nat.succ_pos _)
      have hws := ih (Nat.succ.inj hlen) (fun i hi hi' =>
        h (i + 1) (Nat.succ_lt_succ hi) (Nat.succ_lt_succ hi')) false
      rw [printWords, hw, hws]
      rfl

/-- From some fuel on, all of finitely many words are printed. -/
theorem eventually_all (other : Term → Text) (table : List Text) (rt : Rt) {es : List Expr} {ws : List Term} (hlen : ws.length = es.length)
    (h : ∀ i (hi : i < ws.length) (hi' : i < es.length), ∃ N, ∀ n ≥ N,
      printTermAt other table rt n ws[i] = .ok (es[i].text table)) :
    ∃ N, ∀ n ≥ N, ∀ first, printWords (printTermAt other table rt n) first ws = .ok (textAll table first es) := by
  have hall : ∃ N, ∀ n ≥ N, ∀ i (hi : i < ws.length) (hi' : i < es.length),
      printTermAt other table rt n ws[i] = .ok (es[i].text table) := by
    induction ws generalizing es with
    | nil => exact ⟨0, fun n _ i hi => absurd hi (Nat.not_lt_zero i)⟩
    | cons w ws ih =>
      cases es with
      | nil => cases hlen
      | cons e es =>
        obtain ⟨N, hN⟩ := h 0 (Nat.succ_pos _) (Nat.succ_pos _)
        obtain ⟨M, hM⟩ := ih (Nat.succ.inj hlen) fun i hi hi' =>
          h (i + 1) (Nat.succ_lt_succ hi) (Nat.succ_lt_succ hi')
        refine ⟨max N M, fun n hn i hi hi' => ?_⟩
        cases i with
        | zero => exact hN n (le_trans (le_max_left N M) hn)
        | succ i =>
          exact hM n (le_trans (le_max_right N M) hn) i (Nat.lt_of_succ_lt_succ hi) (Nat.lt_of_succ_lt_succ hi')
  obtain ⟨N, hN⟩ := hall
  exact ⟨N, fun n hn first => printWords_run hlen (hN n hn) first⟩

theorem AllHeld.at {ws : List Term} (h : AllHeld walled rt ws ds) {i : Nat} (hi : i < ws.length)
    (hi' : i < ds.length) : Held walled rt ws[i] ds[i] := by
  have hget := (List.forall₂_iff_get.mp h).2 i hi hi'
  rwa [List.get_eq_getElem, List.get_eq_getElem] at hget

/-- Where all words are printed, each of them is. -/
theorem printWords_ok {ws : List Term} {first : Bool} (h : AllHeld walled rt ws ds)
    (hat : ∀ w d s, d ∈ ds → Held walled rt w d → at_ w = .ok s → ∃ e, Spells d e)
    (hok : printWords at_ first ws = .ok txt) : ∃ es : List Expr, ds.length = es.length ∧
      ∀ i (hi : i < ds.length) (hi' : i < es.length), Spells ds[i] es[i] := by
  induction h generalizing first txt with
  | nil => exact ⟨[], rfl, fun i hi => absurd hi (Nat.not_lt_zero i)⟩
  | @cons w d ws ds hw _ ih =>
    rw [printWords] at hok
    obtain ⟨s, hs, hok⟩ := ok_of_bind hok
    obtain ⟨s', hs', -⟩ := ok_of_bind hok
    obtain ⟨e, he⟩ := hat w d s List.mem_cons_self hw hs
    obtain ⟨es, hlen, hes⟩ := ih (fun w d s hd => hat w d s (List.mem_cons_of_mem _ hd)) hs'
    refine ⟨e :: es, congrArg Nat.succ hlen, fun i hi hi' => ?_⟩
    cases i with
    | zero => exact he
    | succ i => exact hes i (Nat.lt_of_succ_lt_succ hi) (Nat.lt_of_succ_lt_succ hi')

theorem printPlain_eq (h : Holds rt t (.ctr nam args)) : printPlain at_ table rt t args.length = do
    let s ← printWords at_ true (wordsAt rt t.val 0 args.length)
    return tok '#' ++ printSymName table nam ++ tok '\x7b' ++ s ++ tok '\x7d' := by
  rw [printPlain, printFields_eq, (printAt_ctr (fun _ => []) [] h).1]
  rfl

/-! ### What is written -/

theorem eventually_succ {s : Text} {N : Nat} (h : ∀ m ≥ N, printTermAt other table rt (m + 1) t = .ok s) :
    ∃ N, ∀ n ≥ N, printTermAt other table rt n t = .ok s := by
  refine ⟨N + 1, fun n hn => ?_⟩
  obtain ⟨m, rfl⟩ : ∃ m, n = m + 1 := ⟨n - 1, by omega⟩
  exact h m (by omega)

/-- The printer writes the text of a term, wherever the heap holds it. -/
theorem Spells.prints (hs : Spells d e) (hd : Named table d) (h : Held walled rt t d) :
    ∃ N, ∀ n ≥ N, printTermAt other table rt n t = .ok (e.text table) := by
  induction hs generalizing t with
  | num n => exact ⟨1, fun m hm => by
      obtain ⟨m, rfl⟩ : ∃ l, m = l + 1 := ⟨m - 1, by omega⟩
      exact printAt_num h.holds m⟩
  | nat k =>
    obtain ⟨ty, -, hrun⟩ := printNat_run h zero_based
    refine eventually_succ (N := k + 1) fun m hm => ?_
    have hnat := (hrun (printTermAt other table rt m) m).1 (by omega) rfl
    cases k with
    | zero =>
      obtain ⟨hext, heq⟩ := printAt_ctr other table h.holds
      rw [heq m, printCtr_nat (.inl hext)]
      exact hnat
    | succ k =>
      obtain ⟨hext, heq⟩ := printAt_ctr other table h.holds
      rw [heq m, printCtr_nat (.inr hext)]
      exact hnat
  | @suc k d e hk hy hne _ ih =>
    obtain ⟨ty, hty, hrun⟩ := printNat_run h hy
    obtain ⟨N, hN⟩ := ih hd.base hty
    refine eventually_succ (N := max N (k + 1)) fun m hm => ?_
    have hnat := (hrun (printTermAt other table rt m) m).2.1 (by omega) hne
    obtain ⟨k, rfl⟩ : ∃ l, k = l + 1 := ⟨k - 1, by omega⟩
    obtain ⟨hext, heq⟩ := printAt_ctr other table h.holds
    rw [heq m, printCtr_nat (.inr hext)]
    rw [hN m (by omega)] at hnat
    exact hnat
  | @list ds es hlen _ ih =>
    obtain ⟨ws, hws, hrun⟩ := printList_run h
    have hwlen : ws.length = ds.length := hws.length_eq
    obtain ⟨N, hN⟩ := eventually_all other table rt (hwlen.trans hlen)
      fun i hi hi' => ih i (hlen ▸ hi') hi' (hd.element _ (List.getElem_mem _)) (hws.at hi (hlen ▸ hi'))
    obtain ⟨nam, args, hctr, hnam⟩ : ∃ nam args, chain ds = .ctr nam args ∧ (nam = symNil ∨ nam = symCon) := by
      cases ds with
      | nil => exact ⟨_, _, rfl, .inl rfl⟩
      | cons x xs => exact ⟨_, _, rfl, .inr rfl⟩
    obtain ⟨hs, z, hspine, hz⟩ := exists_spine (chain ds)
    have hproper : (chain ds).Proper := ⟨ds, rfl⟩
    rw [hctr] at hspine hproper hd h
    refine eventually_succ (N := max N (max (ds.length + 1) (hs.length + 1))) fun m hm => ?_
    obtain ⟨hext, heq⟩ := printAt_ctr other table h.holds
    have hcon := (printCon_run h hd hspine hz (printTermAt other table rt m) m).list (by omega) hproper
    rw [(hrun _ m true).1 (by omega), hN m (by omega)] at hcon
    rw [heq m, printCtr_con (by rw [hext]; exact hnam), hcon]
    rfl
  | @con hd' tl ds e f hno _ _ ihh iht =>
    have hargs : ∀ a ∈ hd' :: tl :: ds, Named table a := by
      cases hd with
      | ctr _ _ _ _ hargs => exact hargs
    have hfst : Held walled rt (heapRead rt (t.val + 0)) hd' := h.field (Nat.succ_pos _)
    have hsnd : Held walled rt (heapRead rt (t.val + 1)) tl := h.field (Nat.succ_lt_succ (Nat.succ_pos _))
    obtain ⟨N, hN⟩ := ihh (hargs _ List.mem_cons_self) hfst
    obtain ⟨M, hM⟩ := iht (hargs _ (List.mem_cons_of_mem _ List.mem_cons_self)) hsnd
    obtain ⟨hs, z, hspine, hz⟩ := exists_spine (.ctr symCon (hd' :: tl :: ds))
    refine eventually_succ (N := max (max N M) (hs.length + 1)) fun m hm => ?_
    obtain ⟨hext, heq⟩ := printAt_ctr other table h.holds
    have hcon := (printCon_run h hd hspine hz (printTermAt other table rt m) m).pair (by omega) hno hext
    have hfirst : printTermAt other table rt m (heapRead rt t.val) = .ok (e.text table) := hN m (by omega)
    rw [hfirst, hM m (by omega)] at hcon
    rw [heq m, printCtr_con (by rw [hext]; exact .inr rfl), hcon, graft_text]
    rfl
  | @plain nam ds es hzer hsuc hcon hnil hlen _ ih =>
    have hargs : ∀ a ∈ ds, Named table a := by
      cases hd with
      | ctr _ _ _ _ hargs => exact hargs
    have hchr : nam ≠ symChr := by
      cases hd with
      | ctr _ _ hchr _ _ => exact hchr
    have hwlen := length_wordsAt rt t.val 0 ds.length
    obtain ⟨N, hN⟩ := eventually_all other table rt (hwlen.trans hlen)
      fun i hi hi' => ih i (hlen ▸ hi') hi' (hargs _ (List.getElem_mem _)) (h.fields.at hi (hlen ▸ hi'))
    obtain ⟨hs, z, hspine, hz⟩ := exists_spine (.ctr nam ds)
    refine eventually_succ (N := max N (hs.length + 1)) fun m hm => ?_
    obtain ⟨hext, heq⟩ := printAt_ctr other table h.holds
    have hplain : printPlain (printTermAt other table rt m) table rt t ds.length =
        .ok ((Expr.plain nam es).text table) := by
      rw [printPlain_eq h.holds, hN m (by omega)]
      rfl
    by_cases hn : nam = symNil
    · have hno : ¬ (Datum.ctr nam ds).Proper := by
        rintro ⟨xs, hxs⟩
        exact hnil hn (chain_ctr hcon hxs).2.2
      have hrun := (printCon_run h hd hspine hz (printTermAt other table rt m) m).none (by omega) hno
        (by rw [hext]; exact hcon)
      rw [heq m, printCtr_con (by rw [hext]; exact .inl hn), hrun]
      exact hplain
    · rw [heq m, printCtr_plain (by rw [hext]; exact hzer) (by rw [hext]; exact hsuc) (by rw [hext]; exact hn)
        (by rw [hext]; exact hcon) (by rw [hext]; exact hchr)]
      exact hplain

theorem printPlain_ok (h : Held walled rt t (.ctr nam args))
    (hat : ∀ w d s, d ∈ args → Held walled rt w d → at_ w = .ok s → ∃ e, Spells d e)
    (hok : printPlain at_ table rt t args.length = .ok txt) : ∃ es : List Expr, args.length = es.length ∧
      ∀ i (hi : i < args.length) (hi' : i < es.length), Spells args[i] es[i] := by
  rw [printPlain_eq h.holds] at hok
  obtain ⟨s, hs, -⟩ := ok_of_bind hok
  exact printWords_ok h.fields hat hs

/-- Where the printer ends, and nothing is behind the cells of the term, the term has a text: by
induction on the fuel, as the printer may come back to the term it started from. -/
theorem spells_of_prints {n : Nat} (hd : Named table d) (h : Held true rt t d)
    (hok : printTermAt other table rt n t = .ok txt) : ∃ e, Spells d e := by
  induction n generalizing t d txt with
  | zero => cases hok
  | succ m ih =>
    cases d with
    | num n => exact ⟨_, .num n⟩
    | ctr nam args =>
      obtain ⟨hext, heq⟩ := printAt_ctr other table h.holds
      have hargs : ∀ a ∈ args, Named table a := by
        cases hd with
        | ctr _ _ _ _ hargs => exact hargs
      have hchr : nam ≠ symChr := by
        cases hd with
        | ctr _ _ hchr _ _ => exact hchr
      have hat : ∀ w d s, d ∈ args → Held true rt w d → printTermAt other table rt m w = .ok s →
          ∃ e, Spells d e := fun w d s hmem hw => ih (hargs d hmem) hw
      rw [heq m] at hok
      by_cases hnat : nam = symZer ∨ nam = symSuc
      · rw [printCtr_nat (by rw [hext]; exact hnat)] at hok
        obtain ⟨k, y, hpeano, hy⟩ := exists_peano (.ctr nam args)
        have hheld : Held true rt t (peano k y) := hpeano ▸ h
        obtain ⟨ty, hty, hrun⟩ := printNat_run hheld hy
        obtain ⟨-, hbase, hstop⟩ := hrun (printTermAt other table rt m) m
        rw [hpeano] at hd ⊢
        by_cases hlt : k < m
        · by_cases hzero : y = zero
          · rw [hzero]
            exact ⟨_, .nat k⟩
          · rw [hbase hlt hzero] at hok
            obtain ⟨s, hs, -⟩ := ok_of_bind hok
            obtain ⟨e, he⟩ := ih hd.base hty hs
            by_cases hk : k = 0
            · rw [hk]
              exact ⟨e, he⟩
            · exact ⟨_, .suc (by omega) hy hzero he⟩
        · rw [hstop (by omega)] at hok
          cases hok
      · have hzer : nam ≠ symZer := fun hz => hnat (.inl hz)
        have hsuc : nam ≠ symSuc := fun hs => hnat (.inr hs)
        by_cases hsugar : nam = symNil ∨ nam = symCon
        · rw [printCtr_con (by rw [hext]; exact hsugar)] at hok
          obtain ⟨hs, z, hspine, hz⟩ := exists_spine (.ctr nam args)
          have hcases := printCon_run h hd hspine hz (printTermAt other table rt m) m
          by_cases hlt : hs.length < m
          · by_cases hproper : (Datum.ctr nam args).Proper
            · rw [hcases.list hlt hproper] at hok
              obtain ⟨s, hs', -⟩ := ok_of_bind hok
              obtain ⟨s', hlist, -⟩ := ok_of_bind hs'
              obtain ⟨ds, hds⟩ := hproper
              have hheld : Held true rt t (chain ds) := hds ▸ h
              have hnamed : Named table (chain ds) := hds ▸ hd
              obtain ⟨ws, hws, hrun⟩ := printList_run hheld
              by_cases hlen : ws.length < m
              · rw [(hrun _ m true).1 hlen] at hlist
                obtain ⟨es, hlen, hes⟩ := printWords_ok hws
                  (fun w d s hmem hw => ih (hnamed.element d hmem) hw) hlist
                rw [hds]
                exact ⟨_, .list hlen hes⟩
              · obtain ⟨e, he⟩ := (hrun (printTermAt other table rt m) m true).2 (by omega)
                rw [he] at hlist
                cases hlist
            · by_cases hcon : nam = symCon
              · rw [hcases.pair hlt hproper (by rw [hext]; exact hcon)] at hok
                obtain ⟨s, hs', -⟩ := ok_of_bind hok
                obtain ⟨s1, h1, hs'⟩ := ok_of_bind hs'
                obtain ⟨s2, h2, -⟩ := ok_of_bind hs'
                -- a field that is not there is a marked cell, which is not printed
                have hwall : ∀ i < 2, args.length ≤ i → (heapRead rt (t.val + i)).sub = true := by
                  cases h.wall rfl with
                  | ctr _ hwall => exact hwall
                have hlen : 2 ≤ args.length := by
                  by_contra hlen
                  have hsub := hwall 1 Nat.one_lt_two (by omega)
                  obtain ⟨e, he⟩ := printAt_sub other table hsub m
                  rw [he] at h2
                  cases h2
                have hfst : Held true rt (heapRead rt (t.val + 0)) args[0] := h.field (by omega)
                have hsnd : Held true rt (heapRead rt (t.val + 1)) args[1] := h.field (by omega)
                obtain ⟨e, he⟩ := hat _ _ _ (List.getElem_mem _) hfst h1
                obtain ⟨f, hf⟩ := hat _ _ _ (List.getElem_mem _) hsnd h2
                subst hcon
                cases args with
                | nil => cases hlen
                | cons x xs =>
                  cases xs with
                  | nil => exact absurd hlen (Nat.not_succ_le_self 1)
                  | cons x' xs => exact ⟨_, .con hproper he hf⟩
              · rw [hcases.none hlt hproper (by rw [hext]; exact hcon)] at hok
                obtain ⟨es, hlen, hes⟩ := printPlain_ok h hat hok
                refine ⟨_, .plain hzer hsuc hcon (fun hnil hempty => ?_) hlen hes⟩
                exact hproper ⟨[], by rw [hnil, hempty, chain]⟩
          · obtain ⟨e, he⟩ := hcases.stop (by omega)
            rw [he] at hok
            cases hok
        · have hnil : nam ≠ symNil := fun hn => hsugar (.inl hn)
          have hcon : nam ≠ symCon := fun hc => hsugar (.inr hc)
          rw [printCtr_plain (by rw [hext]; exact hzer) (by rw [hext]; exact hsuc) (by rw [hext]; exact hnil)
            (by rw [hext]; exact hcon) (by rw [hext]; exact hchr)] at hok
          obtain ⟨es, hlen, hes⟩ := printPlain_ok h hat hok
          exact ⟨_, .plain hzer hsuc hcon (fun hn => absurd hn hnil) hlen hes⟩

end Hvm.Data
