import Hvm.Data.Elements

/-! Printing data and reading it back. -/

namespace Hvm.Data

open Effect Infix

variable {p q : Parse} {table : List Text} {e h t : Expr} {es : List Expr} {rest : Text} {d nam : Nat}
  {sure : Prop}

/-! ### Lists and constructors -/

theorem consume_close {c : Char} {cs : Text} (hrest : p.s.rest = byte c :: cs) (hcs : Stops cs)
    (hsp : PState.isSpace (byte c) = false) (hslash : byte c ≠ byte '/') (hz : byte c ≠ 0) :
    ∃ s, parseConsume (tok c) p = .ok ((), { p with s := s }) ∧ s.rest = cs := by
  have hadv : p.s.advance.rest = cs := by
    rw [rest_advance, hrest]
    rfl
  refine ⟨p.s.advance.skip, consume_peek rfl (peek_cons hrest) hsp hslash hz, ?_⟩
  rw [skip_stops (by rw [hadv]; exact hcs), hadv]

theorem length_le_cells (es : List Expr) : es.length ≤ cellsAll (valueAll es) := by
  induction es with
  | nil => exact Nat.zero_le _
  | cons e es ih =>
    rw [List.length_cons, valueAll, cellsAll]
    omega

theorem list_data (hes : ∀ e ∈ es, TermReads table sure e) : AtomReads table sure Beside (.list es) := by
  intro p d rest htable hp hnext hroom
  have htext : p.s.rest = byte '[' :: (textAll table true es ++ byte ']' :: rest) := by
    rw [hp, Expr.text]
    simp only [List.append_assoc]
    rfl
  have hcells : (Expr.list es).value.cells = cellsAll (valueAll es) + es.length := by
    rw [Expr.value, cells_chain, length_valueAll]
  have hskip : skipped p = p := skipped_stops (by rw [htext]; exact stops_cons (by decide) (by decide))
  set p1 : Parse := { p with s := p.s.advance } with hp1
  have hp1r : p1.s.rest = textAll table true es ++ byte ']' :: rest := by
    change p.s.advance.rest = _
    rw [rest_advance, htext]
    rfl
  have hclosing : Closing (byte ']') := .inl rfl
  have hstops1 : Stops p1.s.rest := by
    rw [hp1r]
    cases es with
    | nil => exact hclosing.stops rest
    | cons e es =>
      rw [textAll_first, List.append_assoc]
      exact text_stops table e _
  have hskip1 : skipped p1 = p1 := skipped_stops hstops1
  have hatom (n : Nat) : (calls (n + 1)).atom d p = parseTermLst (calls n) n d p := by
    rw [atom_plain (hskip.symm ▸ htext) (by decide), hskip, parseTermPlain, peek_bind, peek_cons htext, if_pos rfl]
  have hnil (p : Parse) : Makes p 0 (fun rt t => Holds rt t (chain []))
      (build (fun rt => termNewCtr rt symNil []) p) :=
    have hlen : ([] : List Datum).length ≤ 16 := Nat.zero_le 16
    build_data p (by decide) hlen .nil
  cases es with
  | nil =>
    have hpeek : p1.s.peek = byte ']' := peek_cons hp1r
    set p2 : Parse := { p1 with s := p1.s.advance } with hp2
    have hp2r : p2.s.rest = rest := by
      change p1.s.advance.rest = rest
      rw [rest_advance, hp1r]
      rfl
    have hrun (n : Nat) : (calls (n + 1)).atom d p = build (fun rt => termNewCtr rt symNil []) p2 := by
      rw [hatom, parseTermLst, run_bind (a := ()) (q := p1) rfl, skip_bind, hskip1, peek_bind, if_pos hpeek]
      rfl
    refine Lands.shift 1 (.congr (fun n => hrun n) (.makes (hnil p2) ?_ ?_))
    · intro hs
      have hr := (hroom hs).2
      exact le_trans (Nat.le_of_eq rfl) hr
    · intro t rt hg hn hh
      exact ⟨rfl, hg, hn, hh, .list (Nat.zero_le _) fun e he => absurd he List.not_mem_nil, hp2r⟩
  | cons e es =>
    have hopen : p1.s.peek ≠ byte ']' := by
      have htext1 := hp1r
      rw [textAll_first, List.append_assoc] at htext1
      exact text_open hclosing table e htext1
    have hspare : sure → Spare literalCap p1 0 (e :: es) := by
      intro hs
      obtain ⟨hshort, hr⟩ := hroom hs
      rw [hcells] at hr
      cases hshort with
      | list hcap hshort =>
        refine ⟨hshort, by omega, ?_⟩
        change p.rt.next + _ ≤ _
        omega
    have hnone : List.Forall₂ (Holds p1.rt) [] [] := .nil
    have hloop := elements_loop (p := p1) (fun n => element_turns (calls n) d) hclosing hes htable hp1r hnone
      (Nat.zero_le _) hspare 0
    have hrun (n : Nat) : (calls (n + 1)).atom d p = (loopM (elementTurn (calls n) d) (n - 0) [] >>= fun ws => do
        parseConsume (tok ']')
        let nil ← build fun rt => termNewCtr rt symNil []
        ws.foldrM (fun e t => build fun rt => termNewCtr rt symCon [e, t]) nil) p1 := by
      rw [hatom, parseTermLst, run_bind (a := ()) (q := p1) rfl, skip_bind, hskip1, peek_bind, if_neg hopen]
      rfl
    refine Lands.shift 1 (.congr (fun n => hrun n) (hloop.bind fun ws q hcol => ?_))
    obtain ⟨s, hconsume, hs⟩ := consume_close hcol.rest hnext.stops (by decide) (by decide) (by decide)
    set q1 : Parse := { q with s := s } with hq1
    have hwlen : ws.length = (e :: es).length := by
      have hlen := hcol.holds.length_eq
      rwa [List.nil_append, length_valueAll] at hlen
    have hmake : Makes q1 (0 + 2 * ws.length) (fun rt t => Holds rt t (chain (valueAll (e :: es))))
        ((build (fun rt => termNewCtr rt symNil []) >>= fun nil =>
          ws.foldrM (fun e t => build fun rt => termNewCtr rt symCon [e, t]) nil : Parser Term) q1) := by
      refine (hnil q1).bind fun t rt ht hg => ?_
      have hws : List.Forall₂ (Holds rt) ws (valueAll (e :: es)) := holds_grown hcol.holds hg
      have hend : Holds ({ q1 with rt := rt } : Parse).rt t (chain []) := ht
      have hchain := build_chain hws hend
      rwa [List.append_nil] at hchain
    have hqn := hcol.next
    change q.rt.next + (e :: es).length = p.rt.next + cellsAll (valueAll (e :: es)) at hqn
    refine .congr (fun n => run_bind hconsume) (.makes hmake (fun hs => ?_) fun t rt hg hn hh => ?_)
    · have hr := (hroom hs).2
      change q.rt.next + _ ≤ _
      omega
    · refine ⟨hcol.table, hcol.grown.trans hg, ?_, hh, .list ?_ hcol.short, hs⟩
      · have hn' : rt.next = q.rt.next + (0 + 2 * ws.length) := hn
        change rt.next = p.rt.next + _
        omega
      · rw [← hwlen]
        exact hcol.fits

theorem plain_data (hnames : NameTable table) (hnam : nam < table.length) (hext : nam ≤ extMask)
    (hari : es.length ≤ 16) (hes : ∀ e ∈ es, TermReads table sure e) :
    AtomReads table sure Beside (.plain nam es) := by
  intro p d rest htable hp hnext hroom
  have hname : printSymName table nam = table[nam] := by
    rw [printSymName, List.getElem?_eq_getElem hnam]
    rfl
  have htext : p.s.rest = byte '#' :: (table[nam] ++ byte '\x7b' ::
      (textAll table true es ++ byte '\x7d' :: rest)) := by
    rw [hp, Expr.text, hname]
    simp only [List.append_assoc]
    rfl
  have hcells : (Expr.plain nam es).value.cells = cellsAll (valueAll es) := by
    rw [Expr.value, Datum.cells]
  have hskip : skipped p = p := skipped_stops (by rw [htext]; exact stops_cons (by decide) (by decide))
  set p1 : Parse := { p with s := p.s.advanceBy (tok '#').length } with hp1
  have hp1r : p1.s.rest = table[nam] ++ byte '\x7b' :: (textAll table true es ++ byte '\x7d' :: rest) := by
    change (p.s.advanceBy 1).rest = _
    rw [rest_advanceBy, htext]
    rfl
  have hmem : table[nam] ∈ p1.table := by
    change table[nam] ∈ p.table
    rw [htable]
    exact List.getElem_mem hnam
  obtain ⟨s2, hid, hs2⟩ := name_known (hnames.names _ (List.getElem_mem hnam)) hmem hp1r (by decide) (by decide)
    (by decide)
  have hidx : p1.table.idxOf table[nam] = nam := by
    change p.table.idxOf table[nam] = nam
    rw [htable]
    exact hnames.nodup.idxOf_getElem nam hnam
  rw [hidx] at hid
  set p2 : Parse := { p1 with s := s2 } with hp2
  have hskip2 : skipped p2 = p2 := skipped_stops (by
    change Stops s2.rest
    rw [hs2]
    exact stops_cons (by decide) (by decide))
  have hbrace : p2.s.startsWith (tok '\x7b') = true := by
    change s2.startsWith _ = true
    rw [PState.startsWith, hs2]
    rfl
  set p3 : Parse := { p2 with s := p2.s.advanceBy (tok '\x7b').length } with hp3
  have hp3r : p3.s.rest = textAll table true es ++ byte '\x7d' :: rest := by
    change (s2.advanceBy 1).rest = _
    rw [rest_advanceBy, hs2]
    rfl
  have hclosing : Closing (byte '\x7d') := .inr rfl
  have hskip3 : skipped p3 = p3 := by
    refine skipped_stops ?_
    rw [hp3r]
    cases es with
    | nil => exact hclosing.stops rest
    | cons e es =>
      rw [textAll_first, List.append_assoc]
      exact text_stops table e _
  have hyes : p.s.startsWith (tok '#') = true := by
    rw [PState.startsWith, htext]
    rfl
  have hatom (n : Nat) : (calls (n + 1)).atom d p = parseTermCtr (calls n) n d p1 := by
    have hf : ¬ (false = true) := Bool.false_ne_true
    change parseTermAtom (calls n) n d p = _
    rw [parseTermAtom, skip_bind, hskip, atom_prefixes.1, match_no _ (startsWith_no htext (by decide)), if_neg hf,
      match_tok _ htext (by decide), if_neg hf, match_tok _ htext (by decide), if_neg hf, match_yes _ hyes,
      if_pos rfl]
  have hrun (n : Nat) : (calls (n + 1)).atom d p = (loopM (fieldTurn (calls n) d) (n - 0) [] >>= fun ws => do
      parseConsume (tok '\x7d')
      build fun rt => termNewCtr rt nam ws) p3 := by
    rw [hatom, parseTermCtr, run_bind hid, skip_bind, hskip2, match_yes _ hbrace, if_pos rfl, skip_bind, hskip3]
    rfl
  have hle := length_le_cells es
  have hspare : sure → Spare 16 p3 0 es := by
    intro hs
    obtain ⟨hshort, hr⟩ := hroom hs
    rw [hcells] at hr
    cases hshort with
    | plain _ hshort =>
      refine ⟨hshort, by omega, ?_⟩
      change p.rt.next + _ ≤ _
      omega
  have hnone : List.Forall₂ (Holds p3.rt) [] [] := .nil
  have hloop := elements_loop (p := p3) (fun n => field_turns (calls n) d) hclosing hes htable hp3r hnone
    (Nat.zero_le _) hspare 0
  refine Lands.shift 1 (.congr (fun n => hrun n) (hloop.bind fun ws q hcol => ?_))
  obtain ⟨s, hconsume, hs⟩ := consume_close hcol.rest hnext.stops (by decide) (by decide) (by decide)
  set q1 : Parse := { q with s := s } with hq1
  have hvlen : (valueAll es).length = es.length := length_valueAll es
  have hws : List.Forall₂ (Holds q1.rt) ws (valueAll es) := hcol.holds
  have hmake := build_data q1 hext (hvlen ▸ hari) hws
  have hqn := hcol.next
  change q.rt.next + es.length = p.rt.next + cellsAll (valueAll es) at hqn
  refine .congr (fun n => run_bind hconsume) (.makes hmake (fun hs => ?_) fun t rt hg hn hh => ?_)
  · have hr := (hroom hs).2
    change q.rt.next + _ ≤ _
    omega
  · refine ⟨hcol.table, hcol.grown.trans hg, ?_, hh, .plain nam hcol.short, hs⟩
    have hn' : rt.next = q.rt.next + (valueAll es).length := hn
    change rt.next = p.rt.next + _
    omega

/-! ### Terms -/

theorem app_end (hp : p.s.rest = rest) (hc : Closes rest) (f : Term) (d n : Nat) :
    (calls (n + 1)).app f d 0 p = .ok (f, p) := by
  have hstops := closes_stops hc
  obtain ⟨hno, hfind, hpar⟩ := no_opr hc hstops
  have hskips : Skips p.s.rest rest := by
    rw [hp]
    exact hstops.skips
  have hskip : skipped p = p := skipped_stops (hp.symm ▸ hstops)
  rw [app_stop hskips hno (fun op hop => by rw [hfind] at hop; cases hop) hpar f d n, hskip]

theorem term_of_atom (he : AtomReads table sure Closes e) : TermReads table sure e := by
  intro p d rest htable hp hc hroom
  refine Lands.shift 1 ((he p d rest htable hp hc hroom).bind (f := fun n x => (calls n).app x d 0)
    fun x q hgot => Lands.shift 1 (.ok (fun n => app_end hgot.rest hc x d n) hgot))

/-- A pair: the head is an atom that ends before `<>`, the tail is a whole term. -/
theorem cons_data (hh : AtomReads table sure Beside h) (ht : TermReads table sure t) :
    TermReads table sure (.cons h t) := by
  intro p d rest htable hp hc hroom
  have htext : p.s.rest = h.text table ++ byte '<' :: byte '>' :: (t.text table ++ rest) := by
    rw [hp, Expr.text]
    simp only [List.append_assoc]
    rfl
  have hcells : (Expr.cons h t).value.cells = h.value.cells + t.value.cells + 2 := cells_pair symCon _ _
  have hhroom : sure → Room h p := by
    intro hs
    obtain ⟨hshort, hr⟩ := hroom hs
    rw [hcells] at hr
    cases hshort with
    | cons hsh _ => exact ⟨hsh, by omega⟩
  refine Lands.shift 1 ((hh p d _ htable htext (.inr ⟨_, rfl⟩) hhroom).bind (f := fun n x => (calls n).app x d 0)
    fun x q hx => ?_)
  set q1 : Parse := { q with s := q.s.advanceBy (utf8 "<>").length } with hq1
  have hcon : utf8 "<>" = [60, 62] := short_bytes.1
  have hq1r : q1.s.rest = t.text table ++ rest := by
    change (q.s.advanceBy _).rest = _
    rw [rest_advanceBy, hx.rest, hcon]
    rfl
  have hskip : skipped q = q := skipped_stops (by rw [hx.rest]; exact stops_cons (by decide) (by decide))
  have hyes : q.s.startsWith (utf8 "<>") = true := by
    rw [PState.startsWith, hx.rest, hcon]
    rfl
  have hrun (n : Nat) : (calls (n + 1)).app x d 0 q = ((calls n).term d >>= fun y =>
      build (fun rt => termNewCtr rt symCon [x, y]) >>= fun f => (calls n).app f d 0) q1 := by
    change parseTermAppPrec (calls n) n x d 0 q = _
    rw [parseTermAppPrec]
    simp only []
    rw [skip_bind, hskip, match_yes _ hyes, if_pos rfl]
  have hqn := hx.next
  have htroom : sure → Room t q1 := by
    intro hs
    obtain ⟨hshort, hr⟩ := hroom hs
    rw [hcells] at hr
    cases hshort with
    | cons _ hst =>
      refine ⟨hst, ?_⟩
      change q.rt.next + _ ≤ _
      omega
  refine Lands.shift 1 (.congr (fun n => hrun n)
    ((ht q1 d rest (hx.table.trans htable) hq1r hc htroom).bind fun y r hy => ?_))
  have hrn : r.rt.next = q.rt.next + t.value.cells := hy.next
  have hgx : Grown q.rt r.rt := hy.grown
  have htwo : [h.value, t.value].length ≤ 16 := Nat.succ_le_succ (Nat.succ_le_succ (Nat.zero_le 14))
  have hsym : symCon ≤ extMask := by decide
  have hmake := build_data r hsym htwo (.cons (hx.holds.grown hgx) (.cons hy.holds .nil))
  refine (Lands.makes (Q := Got (.cons h t) rest p) hmake (fun hs => ?_) fun f rt hg hn hh => ?_).bind
    fun f r' hf => Lands.shift 1 (.ok (fun n => app_end hf.rest hc f d n) hf)
  · have hr := (hroom hs).2
    change r.rt.next + 2 ≤ _
    omega
  · refine ⟨hy.table.trans hx.table, (hx.grown.trans hgx).trans hg, ?_, hh, .cons hx.short hy.short, hy.rest⟩
    have hn' : rt.next = r.rt.next + 2 := hn
    change rt.next = p.rt.next + _
    omega

/-- Good texts are read as their values: by induction on the text. -/
theorem Good.reads (hnames : NameTable table) (he : Good table e) (sure : Prop) :
    (e.Closed → AtomReads table sure Beside e) ∧ TermReads table sure e := by
  have hboth {e : Expr} (h : AtomReads table sure Beside e) :
      (e.Closed → AtomReads table sure Beside e) ∧ TermReads table sure e :=
    ⟨fun _ => h, term_of_atom fun p d rest htable hp hc => h p d rest htable hp (.inl hc)⟩
  induction he with
  | num hn => exact hboth (num_data sure hn)
  | nat hn => exact hboth (nat_data sure hn)
  | suc hn _ ih => exact ⟨fun h => absurd h id, term_of_atom (suc_data hn ih.2)⟩
  | list _ ih => exact hboth (list_data fun e he => (ih e he).2)
  | plain hnam hext hlen _ ih => exact hboth (plain_data hnames hnam hext hlen fun e he => (ih e he).2)
  | cons hclosed _ _ ihh iht => exact ⟨fun h => absurd h id, cons_data (ihh.1 hclosed) iht.2⟩

/-! ### The round trip -/

/-- `print_term` ends with the text `txt` wherever the heap holds the term, whatever is in the cells
that do not belong to it. -/
def Prints (other : Term → Text) (table : List Text) (d : Datum) (txt : Text) : Prop :=
  ∀ rt t, Holds rt t d → ∃ N, ∀ n ≥ N, printTermAt other table rt n t = .ok txt

/-- `parse_term` reads the term from the text, up to its end, where the heap has room for it. -/
def Rereads (table : List Text) (d : Datum) (txt : Text) : Prop :=
  ∀ p depth, p.table = table → p.s.rest = txt → p.rt.next + d.cells ≤ heapCap →
    ∃ N, ∀ n ≥ N, ∃ t q, (calls n).term depth p = .ok (t, q) ∧ Holds q.rt t d ∧ q.s.rest = []

/-- The term is printed, from its own cells only, and read back as it was. -/
def RoundTrips (other : Term → Text) (table : List Text) (d : Datum) : Prop :=
  ∃ txt, Prints other table d txt ∧ Rereads table d txt

variable {other : Term → Text} {x y : Datum} {txt txt' : Text}

/-- The parser at a text, with names in its table. -/
def atNamed (table : List Text) (src : Text) : Parse := { atText src with table := table }

theorem Prints.unique (hx : Named table x) (h : Prints other table x txt) (h' : Prints other table x txt') :
    txt = txt' := by
  obtain ⟨rt, t, ht⟩ := exists_held hx
  obtain ⟨N, hN⟩ := h rt t ht.holds
  obtain ⟨M, hM⟩ := h' rt t ht.holds
  have hboth := (hN (max N M) (le_max_left N M)).symm.trans (hM (max N M) (le_max_right N M))
  exact Except.ok.inj hboth

theorem Spells.prints_text (hs : Spells x e) (hx : Named table x) : Prints other table x (e.text table) := by
  intro rt t ht
  have hheld : Held false rt t x := ⟨ht, fun hw => by cases hw⟩
  exact hs.prints hx hheld

theorem fine_of_roundTrips (hnames : NameTable table) (hx : Named table x) (hcells : x.cells < heapCap)
    (h : RoundTrips other table x) : Fine x := by
  obtain ⟨txt, hprint, hread⟩ := h
  obtain ⟨rt, t, ht⟩ := exists_held hx
  obtain ⟨N, hN⟩ := hprint rt t ht.holds
  obtain ⟨e, hs⟩ := spells_of_prints hx ht (hN N (Nat.le_refl N))
  obtain rfl : e.text table = txt := (hs.prints_text hx).unique hx hprint
  have hroom : (atNamed table (e.text table)).rt.next + x.cells ≤ heapCap := by
    change 1 + x.cells ≤ heapCap
    omega
  obtain ⟨M, hM⟩ := hread (atNamed table (e.text table)) 0 rfl rfl hroom
  have hclose : Closes [] := fun c hc => by cases hc
  have htext : (atNamed table (e.text table)).s.rest = e.text table ++ [] := (List.append_nil _).symm
  rcases ((hs.good hx).reads hnames False).2 (atNamed table (e.text table)) 0 [] rfl htext hclose
    (fun hf => hf.elim) with ⟨K, ⟨t', q, hrun, hgot⟩ | ⟨-, herr⟩⟩
  · obtain ⟨t2, q2, hrun2, hholds, -⟩ := hM (max M K) (le_max_left M K)
    have heq := (hrun (max M K) (le_max_right M K)).symm.trans hrun2
    cases heq
    exact hs.fine (hgot.holds.inj hholds) hgot.short
  · obtain ⟨t2, q2, hrun2, -⟩ := hM (max M K) (le_max_left M K)
    obtain ⟨err, he⟩ := herr (max M K) (le_max_right M K)
    have heq := he.symm.trans hrun2
    cases heq

theorem Fine.rereads (hnames : NameTable table) (hx : Named table x) (hs : Spells x e) (hv : e.value = x)
    (hshort : Short e) : Rereads table x (e.text table) := by
  intro p depth htable hp hroom
  have hclose : Closes [] := fun c hc => by cases hc
  rcases ((hs.good hx).reads hnames True).2 p depth [] htable (by rw [hp, List.append_nil]) hclose
    (fun _ => ⟨hshort, by rw [hv]; exact hroom⟩) with ⟨N, ⟨t, q, hrun, hgot⟩ | ⟨hno, -⟩⟩
  · exact ⟨N, fun n hn => ⟨t, q, hrun n hn, hv ▸ hgot.holds, hgot.rest⟩⟩
  · exact absurd trivial hno

/-- Two terms that are read back from one text are the same. -/
theorem Rereads.inj (h : Rereads table x txt) (h' : Rereads table y txt) (hx : x.cells < heapCap)
    (hy : y.cells < heapCap) : x = y := by
  have hroom {z : Datum} (hz : z.cells < heapCap) : (atNamed table txt).rt.next + z.cells ≤ heapCap := by
    change 1 + z.cells ≤ heapCap
    omega
  obtain ⟨N, hN⟩ := h (atNamed table txt) 0 rfl rfl (hroom hx)
  obtain ⟨M, hM⟩ := h' (atNamed table txt) 0 rfl rfl (hroom hy)
  obtain ⟨t, q, hrun, hholds, -⟩ := hN (max N M) (le_max_left N M)
  obtain ⟨t', q', hrun', hholds', -⟩ := hM (max N M) (le_max_right N M)
  have heq := hrun.symm.trans hrun'
  cases heq
  exact hholds.inj hholds'

/-- A term that fits the heap is printed from its own cells and read back if and only if it is fine,
and no two fine terms are printed alike. -/
theorem roundTrips_iff (other : Term → Text) (hnames : NameTable table) :
    (∀ x, Named table x → x.cells < heapCap → (RoundTrips other table x ↔ Fine x)) ∧
    ∀ x y txt, Named table x → Named table y → x.cells < heapCap → y.cells < heapCap → Fine x → Fine y →
      Prints other table x txt → Prints other table y txt → x = y := by
  refine ⟨fun x hx hcells => ⟨fine_of_roundTrips hnames hx hcells, fun hfine => ?_⟩, ?_⟩
  · obtain ⟨e, hs, hv, hshort⟩ := hfine.spells
    exact ⟨e.text table, hs.prints_text hx, Fine.rereads hnames hx hs hv hshort⟩
  · intro x y txt hx hy hxc hyc hxf hyf hxp hyp
    obtain ⟨e, hs, hv, hshort⟩ := hxf.spells
    obtain ⟨f, hs', hv', hshort'⟩ := hyf.spells
    have htext : e.text table = txt := (hs.prints_text hx).unique hx hxp
    have htext' : f.text table = txt := (hs'.prints_text hy).unique hy hyp
    have hread := Fine.rereads hnames hx hs hv hshort
    have hread' := Fine.rereads hnames hy hs' hv' hshort'
    rw [htext] at hread
    rw [htext'] at hread'
    exact hread.inj hread' hxc hyc

/-! ### Pairs -/

theorem isName_of_check {name : Text} (h : (name.head?.any nickIsInit && name.tail.all nickIsChar) = true) :
    Infix.IsName name := by
  rw [Bool.and_eq_true] at h
  cases name with
  | nil => cases h.1
  | cons c cs => exact ⟨c, cs, rfl, h.1, fun x hx => List.all_eq_true.mp h.2 x hx⟩

/-- The names that are there before anything is parsed. -/
theorem init_names : NameTable parseInit.table := by
  refine ⟨parseInit_nodup, fun name hm => isName_of_check ?_⟩
  revert name
  rw [parseInit_bytes]
  decide

/-- `1<>2`. -/
def onePair : Datum := .ctr symCon [.num 1, .num 2]

/-- `#CON{#CON{1,2},3}`. -/
def leftPair : Datum := .ctr symCon [onePair, .num 3]

theorem pair_named {a b : Datum} (ha : Named parseInit.table a) (hb : Named parseInit.table b) :
    Named parseInit.table (.ctr symCon [a, b]) := by
  refine .ctr (by decide) (by decide) (by decide) (Nat.succ_le_succ (Nat.succ_le_succ (Nat.zero_le 14)))
    fun x hx => ?_
  rcases List.mem_cons.mp hx with rfl | hx
  · exact ha
  · rw [List.mem_singleton.mp hx]
    exact hb

theorem pair_improper {a : Datum} {n : Nat} : ¬ (Datum.ctr symCon [a, .num n]).Proper := by
  rintro ⟨ds, hds⟩
  cases ds with
  | nil => cases hds
  | cons x xs =>
    injection hds with _ hds
    injection hds with _ hds
    injection hds with hds _
    cases xs <;> cases hds

theorem onePair_fine : Fine onePair := by
  refine .ctr (fun a ha => ?_) (fun h => by cases h) (fun h => by cases h) (fun _ => rfl) (fun k d h => ?_)
    (fun ds h => absurd ⟨ds, h⟩ pair_improper) fun h t heq => .inr ?_
  · rcases List.mem_cons.mp ha with rfl | ha
    · exact .num 1
    · rw [List.mem_singleton.mp ha]
      exact .num 2
  · rw [peano_ctr (by decide) h]
    decide
  · injection heq with _ heq
    injection heq with heq _
    rw [← heq]
    exact id

theorem onePair_named : Named parseInit.table onePair := pair_named (.num (by decide)) (.num (by decide))

theorem onePair_roundTrips : RoundTrips (fun _ => []) parseInit.table onePair :=
  ((roundTrips_iff (fun _ => []) init_names).1 onePair onePair_named (by decide)).mpr onePair_fine

theorem leftPair_not_fine : ¬ Fine leftPair := by
  intro h
  cases h with
  | ctr _ _ _ _ _ _ hpair =>
    rcases hpair onePair (.num 3) rfl with hproper | hopen
    · exact pair_improper hproper
    · exact hopen (.inl ⟨rfl, pair_improper⟩)

/-- The left one of two pairs is printed without parentheses. -/
theorem leftPair_fails : ¬ ∀ x, Named parseInit.table x → x.cells < heapCap →
    RoundTrips (fun _ => []) parseInit.table x := by
  intro h
  have hnamed : Named parseInit.table leftPair := pair_named onePair_named (.num (by decide))
  have hcells : leftPair.cells < heapCap := by decide
  exact leftPair_not_fine (fine_of_roundTrips init_names hnamed hcells (h leftPair hnamed hcells))

end Hvm.Data
