import Hvm.Data.Building
import Hvm.Match.Literals
import Hvm.Parse.Interned

/-! What the parser reads from the text of data. -/

namespace Hvm.Data

open Effect Infix

variable {p q : Parse} {table : List Text} {e : Expr} {es : List Expr} {rest : Text} {n d : Nat}
  {name : Text} {sure : Prop}

/-! ### Digits and names -/

theorem digit_byte {c : Char} (h : c.isDigit = true) :
    isDigit (byte c) = true ∧ digitVal (byte c) = c.toNat - '0'.toNat := by
  obtain ⟨hlo, hhi⟩ : 48 ≤ c.toNat ∧ c.toNat ≤ 57 := by
    simp only [Char.isDigit, Bool.and_eq_true, decide_eq_true_eq, ge_iff_le, UInt32.le_iff_toNat_le] at h
    exact h
  have hbyte : byte c = UInt8.ofNat c.toNat := rfl
  rw [hbyte]
  generalize c.toNat = k at hlo hhi
  interval_cases k <;> exact ⟨rfl, rfl⟩

theorem printDecimal_digits (n : Nat) : printDecimal n ≠ [] ∧ ∀ c ∈ printDecimal n, isDigit c = true := by
  refine ⟨?_, fun c hc => ?_⟩
  · rw [printDecimal]
    exact fun h => Nat.toDigits_ne_nil (List.map_eq_nil_iff.mp h)
  · obtain ⟨x, hx, rfl⟩ := List.mem_map.mp hc
    exact (digit_byte (Nat.isDigit_of_mem_toDigits (by decide) (by decide) hx)).1

theorem decimalValue_map (cs : List Char) (h : ∀ c ∈ cs, c.isDigit = true) (m : Nat) :
    (cs.map byte).foldl (fun n c => n * 10 + digitVal c) m = Nat.ofDigitChars 10 cs m := by
  induction cs generalizing m with
  | nil => rfl
  | cons c cs ih =>
    rw [List.map_cons, List.foldl_cons, ih (fun x hx => h x (List.mem_cons_of_mem _ hx)),
      (digit_byte (h c List.mem_cons_self)).2, Nat.ofDigitChars_cons, Nat.mul_comm]

/-- A printed number is read as itself. -/
theorem decimal_printDecimal (h : n < 2 ^ 32) : decimal (printDecimal n) = n := by
  have hval : Match.decimalValue (printDecimal n) = n := by
    have hmap := decimalValue_map (Nat.toDigits 10 n)
      (fun c hc => Nat.isDigit_of_mem_toDigits (by decide) (by decide) hc) 0
    rw [Nat.ofDigitChars_ten_toDigits] at hmap
    exact hmap
  rw [Match.decimal_eq, hval, Nat.mod_eq_of_lt h]

/-- The names of a table are those that `parse_name` reads, each once. -/
structure NameTable (table : List Text) : Prop where
  nodup : table.Nodup
  names : ∀ name ∈ table, Infix.IsName name

theorem name_known (hn : Infix.IsName name) (hm : name ∈ p.table) {c : UInt8} {cs : Text}
    (hp : p.s.rest = name ++ c :: cs) (hc : nickIsChar c = false) (hsp : PState.isSpace c = false)
    (hslash : c ≠ byte '/') :
    ∃ s, parseName p = .ok (p.table.idxOf name, { p with s := s }) ∧ s.rest = c :: cs := by
  have hchars : (name ++ c :: cs).takeWhile nickIsChar = name :=
    takeWhile_stop hn.chars fun x hx => by
      obtain rfl := Option.some.inj hx
      exact hc
  obtain ⟨x, xs, rfl, hx, hxs⟩ := hn
  have hskip : skipped p = p := skipped_stops (by rw [hp]; exact stops_char (char_of_init hx))
  have hpeek : p.s.peek = x := peek_cons hp
  have hstop : stopIf (!nickIsInit p.s.peek) (parseError (utf8 "name")) p = .ok ((), p) := by
    refine stopIf_run _ ?_
    rw [hpeek, hx]
    rfl
  set p1 : Parse := { p with s := p.s.advanceBy (x :: xs).length } with hp1
  have hp1r : p1.s.rest = c :: cs := by
    change (p.s.advanceBy (x :: xs).length).rest = c :: cs
    rw [rest_advanceBy, hp]
    exact List.drop_left
  have hskip1 : skipped p1 = p1 := skipped_stops (by rw [hp1r]; exact stops_cons hsp hslash)
  refine ⟨p1.s, ?_, hp1r⟩
  rw [parseName, skip_bind, hskip, peek_bind, run_bind hstop, run_bind (a := p) (q := p) rfl, hp, hchars,
    run_bind (a := ()) (q := p1) rfl, run_bind (tableFind_known (p := p1) hm), skip_bind, hskip1]
  rfl

/-! ### Texts -/

/-- A text starts with a digit, a bracket or a hash. -/
theorem Expr.text_head (table : List Text) (e : Expr) :
    ∃ c cs, e.text table = c :: cs ∧ (isDigit c = true ∨ c = byte '[' ∨ c = byte '#') := by
  have hnum : ∀ n more, ∃ c cs, printDecimal n ++ more = c :: cs ∧
      (isDigit c = true ∨ c = byte '[' ∨ c = byte '#') := by
    intro n more
    obtain ⟨hne, hds⟩ := printDecimal_digits n
    obtain ⟨c, cs, hc⟩ := List.exists_cons_of_ne_nil hne
    exact ⟨c, cs ++ more, by rw [hc]; rfl, .inl (hds c (by rw [hc]; exact List.mem_cons_self))⟩
  induction e with
  | num n =>
    obtain ⟨c, cs, h, hc⟩ := hnum n []
    exact ⟨c, cs, by rw [← h, List.append_nil]; rfl, hc⟩
  | nat n => exact hnum n _
  | suc n x _ =>
    obtain ⟨c, cs, h, hc⟩ := hnum n (tok 'n' ++ (tok '+' ++ x.text table))
    exact ⟨c, cs, by rw [← h, Expr.text]; simp only [List.append_assoc], hc⟩
  | list es _ => exact ⟨_, _, rfl, .inr (.inl rfl)⟩
  | plain nam es _ => exact ⟨_, _, rfl, .inr (.inr rfl)⟩
  | cons h t ih _ =>
    obtain ⟨c, cs, hh, hc⟩ := ih
    refine ⟨c, cs ++ (tok '<' ++ tok '>' ++ t.text table), ?_, hc⟩
    rw [Expr.text, hh]
    simp only [List.append_assoc, List.cons_append]

theorem text_stops (table : List Text) (e : Expr) (more : Text) : Stops (e.text table ++ more) := by
  obtain ⟨c, cs, h, hc⟩ := e.text_head table
  rw [h]
  rcases hc with hc | rfl | rfl
  · exact stops_char (char_of_digit hc)
  · exact stops_cons (by decide) (by decide)
  · exact stops_cons (by decide) (by decide)

/-- What may stand behind a text that ends by itself. -/
def Beside (rest : Text) : Prop := Closes rest ∨ ∃ cs, rest = byte '<' :: byte '>' :: cs

theorem closes_stops (h : Closes rest) : Stops rest := by
  cases rest with
  | nil => exact stops_nil
  | cons c cs =>
    have hc : PState.isSpace c = false ∧ c ≠ byte '/' := by
      rcases close_cases (h c rfl) with rfl | rfl | rfl | rfl | rfl | rfl <;> decide
    exact stops_cons hc.1 hc.2

theorem Beside.stops (h : Beside rest) : Stops rest := by
  rcases h with h | ⟨cs, rfl⟩
  · exact closes_stops h
  · exact stops_cons (by decide) (by decide)

theorem Beside.no_char (h : Beside rest) : ∀ c ∈ rest.head?, nickIsChar c = false ∧ c ≠ byte '+' := by
  intro c hc
  rcases h with h | ⟨cs, rfl⟩
  · rcases close_cases (h c hc) with rfl | rfl | rfl | rfl | rfl | rfl <;> decide
  · obtain rfl := Option.some.inj hc
    decide

/-! ### Numbers and naturals -/

/-- The parser has read the text: its term is in the new cells, and `rest` is next. -/
structure Got (e : Expr) (rest : Text) (p : Parse) (t : Term) (q : Parse) : Prop where
  table : q.table = p.table
  grown : Grown p.rt q.rt
  next : q.rt.next = p.rt.next + e.value.cells
  holds : Holds q.rt t e.value
  short : Short e
  rest : q.s.rest = rest

/-- The text can be read from `p` on: its lists are short, and there is room. -/
def Room (e : Expr) (p : Parse) : Prop := Short e ∧ p.rt.next + e.value.cells ≤ heapCap

/-- As an atom the text is read as its value. -/
def AtomReads (table : List Text) (sure : Prop) (Next : Text → Prop) (e : Expr) : Prop :=
  ∀ p d rest, p.table = table → p.s.rest = e.text table ++ rest → Next rest → (sure → Room e p) →
    Lands sure (fun n => (calls n).atom d) p (Got e rest p)

/-- As a term the text is read as its value. -/
def TermReads (table : List Text) (sure : Prop) (e : Expr) : Prop :=
  ∀ p d rest, p.table = table → p.s.rest = e.text table ++ rest → Closes rest → (sure → Room e p) →
    Lands sure (fun n => (calls n).term d) p (Got e rest p)

variable {ds : Text}

theorem takeDigits_run (hds : ∀ x ∈ ds, isDigit x = true) {c : UInt8} {cs : Text}
    (hp : p.s.rest = ds ++ c :: cs) (hc : isDigit c = false) :
    ∃ s, takeDigits p = .ok (ds, { p with s := s }) ∧ s.rest = c :: cs := by
  have htake : (ds ++ c :: cs).takeWhile isDigit = ds := takeWhile_stop hds fun x hx => by
    obtain rfl := Option.some.inj hx
    exact hc
  refine ⟨p.s.advanceBy ds.length, ?_, ?_⟩
  · rw [takeDigits, run_bind (a := p) (q := p) rfl, hp, htake]
    rfl
  · rw [rest_advanceBy, hp, List.drop_left]

/-- Behind the digits of a natural is the letter, and then maybe a plus. -/
theorem nat_atom (hne : ds ≠ []) (hds : ∀ x ∈ ds, isDigit x = true) {cs : Text}
    (hp : p.s.rest = ds ++ byte 'n' :: cs) : ∃ s, s.rest = cs ∧ ∀ n d,
      (calls (n + 1)).atom d p = (parseMatch (tok '+') >>= fun plus =>
        (if plus then (calls n).term d else build fun rt => termNewCtr rt symZer []) >>=
          sucs (decimal ds)) { p with s := s } := by
  obtain ⟨s1, hrun, hs1⟩ := takeDigits_run hds hp (by decide)
  obtain ⟨c, cs', rfl⟩ := List.exists_cons_of_ne_nil hne
  have hc := hds c List.mem_cons_self
  have hchar := char_of_digit hc
  have hskip : skipped p = p := skipped_stops (by rw [hp]; exact stops_char hchar)
  have hrest : (skipped p).s.rest = c :: (cs' ++ byte 'n' :: cs) := by rw [hskip, hp]; rfl
  have hn : ¬ s1.peek ≠ byte 'n' := fun h => h (peek_cons hs1)
  refine ⟨s1.advance, by rw [rest_advance, hs1]; rfl, fun n d => ?_⟩
  rw [atom_plain hrest (plain_char hchar), num_plain hc hrest, hskip, parseTermNat]
  simp only [bind_assoc]
  rw [run_bind (a := p) (q := p) rfl, run_bind hrun, peek_bind, if_neg hn]
  simp only [bind_assoc]
  rw [run_bind (a := ()) (q := { p with s := s1.advance }) rfl, match_bind, match_bind]
  cases ({ p with s := s1.advance } : Parse).s.startsWith (tok '+') <;>
    simp only [bind_assoc, pure_bind, orNum, bind_pure, if_true, Bool.false_eq_true, if_false]

theorem num_data (sure : Prop) {k : Nat} (hk : k < 2 ^ 32) : AtomReads table sure Beside (.num k) := by
  intro p d rest _ hp hnext _
  obtain ⟨hne, hds⟩ := printDecimal_digits k
  have hend : ∀ c ∈ rest.head?, nickIsChar c = false := fun c hc => (hnext.no_char c hc).1
  have hskips : Skips rest rest := hnext.stops.skips
  obtain ⟨q, hrun, hq, hrest⟩ := num_run hne hds .nil hp hskips hend d
  rw [decimal_printDecimal hk] at hrun
  refine Lands.shift 1 (.ok hrun ?_)
  rw [hq] at hrest ⊢
  exact ⟨rfl, .refl _, rfl, .num hk, .num k, hrest⟩

theorem nat_data (sure : Prop) {k : Nat} (hk : k < 2 ^ 32) : AtomReads table sure Beside (.nat k) := by
  intro p d rest _ hp hnext hroom
  obtain ⟨hne, hds⟩ := printDecimal_digits k
  rw [Expr.text, List.append_assoc] at hp
  obtain ⟨s, hs, hrun⟩ := nat_atom hne hds hp
  rw [decimal_printDecimal hk] at hrun
  set p1 : Parse := { p with s := s } with hp1
  have hno : p1.s.startsWith (tok '+') = false := by
    cases hr : rest with
    | nil =>
      rw [PState.startsWith, hp1, hs, hr]
      rfl
    | cons c cs => exact startsWith_no (hs.trans hr) (hnext.no_char c (by rw [hr]; rfl)).2
  have hlen : ([] : List Datum).length ≤ 16 := Nat.zero_le 16
  have hzero : Makes p1 0 (fun rt t => Holds rt t zero) (build (fun rt => termNewCtr rt symZer []) p1) :=
    build_data p1 (by decide) hlen .nil
  have hmake : Makes p1 (0 + k) (fun rt t => Holds rt t (peano k zero))
      (((build fun rt => termNewCtr rt symZer []) >>= sucs k : Parser Term) p1) :=
    hzero.bind fun t rt ht _ => build_sucs k ht
  have hcells : (Expr.nat k).value.cells = k := cells_peano k zero
  refine Lands.shift 1 (.congr (fun n => (hrun n d).trans (match_no _ hno)) (.makes hmake (fun hs => ?_) ?_))
  · have hr := (hroom hs).2
    rw [hcells] at hr
    rw [Nat.zero_add]
    exact hr
  · intro t rt hg hn hh
    refine ⟨rfl, hg, ?_, hh, .nat k, hs⟩
    rw [hcells, ← Nat.zero_add k]
    exact hn

/-- A chain of `#SUC` takes the whole term behind the plus. -/
theorem suc_data {k : Nat} (hk : k < 2 ^ 32) {x : Expr} (hx : TermReads table sure x) :
    AtomReads table sure Closes (.suc k x) := by
  intro p d rest htable hp hnext hroom
  obtain ⟨hne, hds⟩ := printDecimal_digits k
  have htext : p.s.rest = printDecimal k ++ byte 'n' :: (byte '+' :: (x.text table ++ rest)) := by
    rw [hp, Expr.text]
    simp only [List.append_assoc]
    rfl
  obtain ⟨s, hs, hrun⟩ := nat_atom hne hds htext
  rw [decimal_printDecimal hk] at hrun
  set p1 : Parse := { p with s := s } with hp1
  have hyes : p1.s.startsWith (tok '+') = true := by
    rw [PState.startsWith, hs]
    rfl
  set p2 : Parse := { p1 with s := p1.s.advanceBy (tok '+').length } with hp2
  have hp2r : p2.s.rest = x.text table ++ rest := by
    change (s.advanceBy 1).rest = _
    rw [rest_advanceBy, hs]
    rfl
  have hcells : (Expr.suc k x).value.cells = k + x.value.cells := cells_peano k x.value
  have hxroom : sure → Room x p2 := by
    intro hs
    obtain ⟨hshort, hr⟩ := hroom hs
    rw [hcells] at hr
    cases hshort with
    | suc _ hshort => exact ⟨hshort, by change p.rt.next + x.value.cells ≤ heapCap; omega⟩
  refine Lands.shift 1 (.congr (fun n => (hrun n d).trans (match_yes _ hyes)) ?_)
  refine (hx p2 d rest htable hp2r hnext hxroom).bind fun t q hq => ?_
  have hqn : q.rt.next = p.rt.next + x.value.cells := hq.next
  refine .makes (build_sucs k hq.holds) (fun hs => ?_) fun t' rt hg hn hh =>
    ⟨hq.table, hq.grown.trans hg, ?_, hh, .suc k hq.short, hq.rest⟩
  · have hr := (hroom hs).2
    omega
  · change rt.next = p.rt.next + _
    omega

end Hvm.Data
