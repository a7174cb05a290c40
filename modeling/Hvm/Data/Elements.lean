import Hvm.Data.Reading

/-! The loops over what is separated by commas: elements of a list, fields of a constructor. -/

namespace Hvm.Data

open Effect Infix

variable {p q : Parse} {table : List Text} {e : Expr} {es : List Expr} {rest : Text} {d cap : Nat}
  {close : UInt8} {sure : Prop}

/-- A turn of such a loop: it stops at `close`, and adds a term while there is room for it. -/
structure Turns (cap : Nat) (close : UInt8) (term : Parser Term)
    (turn : List Term → Parser (List Term ⊕ List Term)) : Prop where
  stop : ∀ acc p, p.s.peek = close → turn acc p = .ok (.inr acc, p)
  more : ∀ acc p t p1, p.s.peek ≠ close → acc.length < cap → term p = .ok (t, p1) →
    turn acc p = .ok (.inl (acc ++ [t]), { p1 with s := p1.s.pastElement })
  bad : ∀ acc p err, p.s.peek ≠ close → term p = .error err → ∃ err', turn acc p = .error err'
  full : ∀ acc p, p.s.peek ≠ close → cap ≤ acc.length → ∃ err, turn acc p = .error err

/-- A turn of `parse_term_lst`. -/
def elementTurn (r : Calls) (depth : Nat) (es : List Term) : Parser (List Term ⊕ List Term) := do
  if (← parsePeek) = byte ']' then
    return .inr es
  let e ← r.term depth
  stopIf (literalCap ≤ es.length) fun _ => .overrun
  parseSkip
  let _ ← parseMatch (tok ',')
  parseSkip
  return .inl (es ++ [e])

/-- A turn of `parse_term_ctr`. -/
def fieldTurn (r : Calls) (depth : Nat) (ts : List Term) : Parser (List Term ⊕ List Term) := do
  if (← parsePeek) = byte '\x7d' then
    return .inr ts
  stopIf (16 ≤ ts.length) (parseError (utf8 "at most 16 constructor fields"))
  let t ← r.term depth
  parseSkip
  let _ ← parseMatch (tok ',')
  parseSkip
  return .inl (ts ++ [t])

/-- What a turn does behind the term. -/
theorem past_run (acc : List Term) (t : Term) (p : Parse) :
    (do
      parseSkip
      let _ ← parseMatch (tok ',')
      parseSkip
      return .inl (acc ++ [t]) : Parser (List Term ⊕ List Term)) p =
      .ok (.inl (acc ++ [t]), { p with s := p.s.pastElement }) := by
  rw [skip_bind, match_bind]
  by_cases hcomma : (skipped p).s.startsWith (tok ',') = true
  · have hc : p.s.skip.startsWith (tok ',') = true := hcomma
    rw [if_pos hcomma, PState.pastElement, if_pos hc]
    rfl
  · have hc : ¬ p.s.skip.startsWith (tok ',') = true := hcomma
    rw [if_neg hcomma, PState.pastElement, if_neg hc]
    rfl

theorem element_turns (r : Calls) (depth : Nat) :
    Turns literalCap (byte ']') (r.term depth) (elementTurn r depth) := by
  refine ⟨fun acc p hp => ?_, fun acc p t p1 hp hroom hrun => ?_, fun acc p err hp hrun => ?_,
    fun acc p hp hfull => ?_⟩
  · rw [elementTurn, peek_bind, if_pos hp]
    rfl
  · have hstop : stopIf (decide (literalCap ≤ acc.length)) (fun _ => .overrun) p1 = .ok ((), p1) :=
      stopIf_run p1 (decide_eq_false (by omega))
    rw [elementTurn, peek_bind, if_neg hp, run_bind hrun, run_bind hstop]
    exact past_run acc t p1
  · rw [elementTurn, peek_bind, if_neg hp]
    exact ⟨err, error_bind _ hrun⟩
  · rw [elementTurn, peek_bind, if_neg hp]
    cases hrun : r.term depth p with
    | error err => exact ⟨err, error_bind _ hrun⟩
    | ok res =>
      rw [run_bind (a := res.1) (q := res.2) hrun, decide_eq_true hfull]
      exact ⟨.overrun, rfl⟩

theorem field_turns (r : Calls) (depth : Nat) :
    Turns 16 (byte '\x7d') (r.term depth) (fieldTurn r depth) := by
  have hgo {acc : List Term} (p : Parse) (h : acc.length < 16) : stopIf (decide (16 ≤ acc.length))
      (parseError (utf8 "at most 16 constructor fields")) p = .ok ((), p) :=
    stopIf_run p (decide_eq_false (by omega))
  have hstop {acc : List Term} (p : Parse) (h : 16 ≤ acc.length) : ∃ err, stopIf (decide (16 ≤ acc.length))
      (parseError (utf8 "at most 16 constructor fields")) p = .error err := by
    rw [decide_eq_true h]
    exact ⟨_, rfl⟩
  refine ⟨fun acc p hp => ?_, fun acc p t p1 hp hroom hrun => ?_, fun acc p err hp hrun => ?_,
    fun acc p hp hfull => ?_⟩
  · rw [fieldTurn, peek_bind, if_pos hp]
    rfl
  · rw [fieldTurn, peek_bind, if_neg hp, run_bind (hgo p hroom), run_bind hrun]
    exact past_run acc t p1
  · rw [fieldTurn, peek_bind, if_neg hp]
    by_cases hroom : acc.length < 16
    · rw [run_bind (hgo p hroom)]
      exact ⟨err, error_bind _ hrun⟩
    · have hfull : 16 ≤ acc.length := by omega
      obtain ⟨err', he⟩ := hstop p hfull
      exact ⟨err', error_bind _ he⟩
  · rw [fieldTurn, peek_bind, if_neg hp]
    obtain ⟨err', he⟩ := hstop p hfull
    exact ⟨err', error_bind _ he⟩

/-! ### The texts between the commas -/

theorem textAll_comma (table : List Text) (e : Expr) (es : List Expr) :
    textAll table false (e :: es) = byte ',' :: textAll table true (e :: es) := rfl

theorem textAll_first (table : List Text) (e : Expr) (es : List Expr) :
    textAll table true (e :: es) = e.text table ++ textAll table false es := rfl

/-- The bracket or brace at the end. -/
def Closing (close : UInt8) : Prop := close = byte ']' ∨ close = byte '\x7d'

theorem Closing.stops (h : Closing close) (rest : Text) : Stops (close :: rest) := by
  rcases h with rfl | rfl
  · exact stops_cons (by decide) (by decide)
  · exact stops_cons (by decide) (by decide)

theorem Closing.closes (h : Closing close) (rest : Text) : Closes (close :: rest) := by
  rcases h with rfl | rfl
  · exact closes_cons (by rw [close_bytes]; decide)
  · exact closes_cons (by rw [close_bytes]; decide)

theorem text_open (hc : Closing close) (table : List Text) (e : Expr) {more : Text} {s : PState}
    (hs : s.rest = e.text table ++ more) : s.peek ≠ close := by
  obtain ⟨c, cs, h, hhead⟩ := e.text_head table
  rw [h] at hs
  have hpeek : s.peek = c := peek_cons hs
  rw [hpeek]
  clear h hs
  rintro rfl
  rcases hc with rfl | rfl
  · revert hhead
    decide
  · revert hhead
    decide

theorem rest_pastElement (hc : Closing close) {s : PState}
    (hs : s.rest = textAll table false es ++ close :: rest) :
    s.pastElement.rest = textAll table true es ++ close :: rest := by
  cases es with
  | nil =>
    have hskip : s.skip = s := skip_stops (by rw [hs]; exact hc.stops rest)
    have hno : s.startsWith (tok ',') = false := by
      rcases hc with rfl | rfl <;> exact startsWith_no hs (by decide)
    rw [PState.pastElement, hskip, hno, if_neg Bool.false_ne_true, hskip]
    exact hs
  | cons e es =>
    rw [textAll_comma] at hs
    have hskip : s.skip = s := skip_stops (by rw [hs]; exact stops_cons (by decide) (by decide))
    have hyes : s.startsWith (tok ',') = true := by
      rw [PState.startsWith, hs]
      rfl
    have hadv : (s.advanceBy 1).rest = textAll table true (e :: es) ++ close :: rest := by
      rw [rest_advanceBy, hs]
      rfl
    have hstops : Stops (s.advanceBy 1).rest := by
      rw [hadv, textAll_first, List.append_assoc]
      exact text_stops table e _
    rw [PState.pastElement, hskip, hyes, if_pos rfl, skip_stops hstops]
    exact hadv

theorem closes_textAll (hc : Closing close) (table : List Text) (es : List Expr) (rest : Text) :
    Closes (textAll table false es ++ close :: rest) := by
  cases es with
  | nil => exact hc.closes rest
  | cons e es =>
    rw [textAll_comma]
    exact closes_cons mem_closes.2

/-! ### The loop -/

/-- What the loop has collected. -/
structure Collected (cap : Nat) (p : Parse) (vs : List Datum) (es : List Expr) (close : UInt8) (rest : Text)
    (ws : List Term) (q : Parse) : Prop where
  table : q.table = p.table
  grown : Grown p.rt q.rt
  next : q.rt.next + es.length = p.rt.next + cellsAll (valueAll es)
  holds : List.Forall₂ (Holds q.rt) ws (vs ++ valueAll es)
  short : ∀ e ∈ es, Short e
  fits : ws.length ≤ cap
  rest : q.s.rest = close :: rest

/-- Room for what is still to be collected. -/
structure Spare (cap : Nat) (p : Parse) (len : Nat) (es : List Expr) : Prop where
  short : ∀ e ∈ es, Short e
  fits : len + es.length ≤ cap
  room : p.rt.next + cellsAll (valueAll es) ≤ heapCap + es.length

theorem elements_loop {turn : Nat → List Term → Parser (List Term ⊕ List Term)}
    (hturn : ∀ n, Turns cap close ((calls n).term d) (turn n)) (hc : Closing close)
    (hes : ∀ e ∈ es, TermReads table sure e) (htable : p.table = table)
    (hp : p.s.rest = textAll table true es ++ close :: rest) {acc : List Term} {vs : List Datum}
    (hacc : List.Forall₂ (Holds p.rt) acc vs) (hlen : acc.length ≤ cap)
    (hspare : sure → Spare cap p acc.length es) (j : Nat) :
    Lands sure (fun n => loopM (turn n) (n - j) acc) p (Collected cap p vs es close rest) := by
  induction es generalizing p acc vs j with
  | nil =>
    have hpeek : p.s.peek = close := peek_cons hp
    refine ⟨j + 1, .inl ⟨acc, p, fun n hn => ?_, ⟨rfl, .refl _, rfl, ?_, fun e he => ?_, hlen, hp⟩⟩⟩
    · obtain ⟨k, hk⟩ : ∃ k, n - j = k + 1 := ⟨n - j - 1, by omega⟩
      dsimp only
      rw [hk, loopM, run_bind ((hturn n).stop acc p hpeek)]
      rfl
    · rw [valueAll, List.append_nil]
      exact hacc
    · cases he
  | cons e es ih =>
    rw [textAll_first, List.append_assoc] at hp
    have hpeek : p.s.peek ≠ close := text_open hc table e hp
    have hcloses := closes_textAll hc table es rest
    have heroom : sure → Room e p := by
      intro hs
      obtain ⟨hshort, -, hroom⟩ := hspare hs
      refine ⟨hshort e List.mem_cons_self, ?_⟩
      have hall : es.length ≤ cellsAll (valueAll es) := by
        clear ih hes hp hpeek hcloses hspare hshort hroom
        induction es with
        | nil => exact Nat.zero_le _
        | cons x xs ihx =>
          rw [List.length_cons, valueAll, cellsAll]
          omega
      rw [valueAll, cellsAll, List.length_cons] at hroom
      omega
    -- a run of the loop is a turn and then the rest of it
    have hstep (n : Nat) (hn : n ≥ j + 1) : loopM (turn n) (n - j) acc p =
        (turn n acc >>= Sum.elim (loopM (turn n) (n - (j + 1))) pure) p := by
      obtain ⟨k, hk⟩ : ∃ k, n - j = k + 1 := ⟨n - j - 1, by omega⟩
      have hk' : n - (j + 1) = k := by omega
      rw [hk, hk', loopM]
      refine congrFun (bind_congr fun r => ?_) p
      cases r <;> rfl
    rcases hes e List.mem_cons_self p d _ htable hp hcloses heroom with ⟨N, ⟨t, q, hrun, hgot⟩ | ⟨hs, herr⟩⟩
    · by_cases hroom : acc.length < cap
      · set q1 : Parse := { q with s := q.s.pastElement } with hq1
        have hq1r : q1.s.rest = textAll table true es ++ close :: rest := rest_pastElement hc hgot.rest
        have hacc' : List.Forall₂ (Holds q1.rt) (acc ++ [t]) (vs ++ [e.value]) := by
          have hold := holds_grown hacc hgot.grown
          exact List.rel_append hold (.cons hgot.holds .nil)
        have hnext : q1.rt.next = p.rt.next + e.value.cells := hgot.next
        have hloop := ih (fun x hx => hes x (List.mem_cons_of_mem _ hx)) (p := q1) (hgot.table.trans htable)
          hq1r hacc' (by rw [List.length_append]; exact hroom) (fun hs => by
            obtain ⟨hshort, hfits, hr⟩ := hspare hs
            rw [valueAll, cellsAll, List.length_cons] at hr
            rw [List.length_cons] at hfits
            refine ⟨fun x hx => hshort x (List.mem_cons_of_mem _ hx), ?_, by omega⟩
            rw [List.length_append, List.length_singleton]
            omega) (j + 1)
        have hturns (n : Nat) (hn : n ≥ max N (j + 1)) : loopM (turn n) (n - j) acc p =
            loopM (turn n) (n - (j + 1)) (acc ++ [t]) q1 := by
          rw [hstep n (by omega), run_bind ((hturn n).more acc p t q hpeek hroom (hrun n (by omega)))]
          rfl
        rcases hloop with ⟨M, ⟨ws, r, hrun', hcol⟩ | ⟨hs, herr⟩⟩
        · refine ⟨max (max N (j + 1)) M, .inl ⟨ws, r, fun n hn => ?_, ?_⟩⟩
          · exact (hturns n (by omega)).trans (hrun' n (by omega))
          · have hn' := hcol.next
            refine ⟨hcol.table.trans hgot.table, hgot.grown.trans hcol.grown, ?_, ?_, fun x hx => ?_,
              hcol.fits, hcol.rest⟩
            · rw [valueAll, cellsAll, List.length_cons]
              omega
            · have hh := hcol.holds
              rwa [List.append_assoc, List.singleton_append] at hh
            · rcases List.mem_cons.mp hx with rfl | hx
              · exact hgot.short
              · exact hcol.short x hx
        · refine ⟨max (max N (j + 1)) M, .inr ⟨hs, fun n hn => ?_⟩⟩
          obtain ⟨err, he⟩ := herr n (by omega)
          exact ⟨err, (hturns n (by omega)).trans he⟩
      · refine ⟨j + 1, .inr ⟨fun hs => ?_, fun n hn => ?_⟩⟩
        · have hfits := (hspare hs).fits
          rw [List.length_cons] at hfits
          omega
        · obtain ⟨err, he⟩ := (hturn n).full acc p hpeek (by omega)
          exact ⟨err, (hstep n hn).trans (error_bind _ he)⟩
    · refine ⟨max N (j + 1), .inr ⟨hs, fun n hn => ?_⟩⟩
      obtain ⟨err, he⟩ := herr n (by omega)
      obtain ⟨err', he'⟩ := (hturn n).bad acc p err hpeek he
      exact ⟨err', (hstep n (by omega)).trans (error_bind _ he')⟩

end Hvm.Data
