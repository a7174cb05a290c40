import Hvm.Match.Compiled
import Hvm.Parse.Moves
import Hvm.Print.Utf8

/-! The literals of a numeric switch in the text, and the chain of SWI nodes that the parser
makes of them. -/

namespace Hvm.Match

open Effect

/-! ### Literals -/

/-- The number that decimal digits stand for. -/
def decimalValue (ds : Text) : Nat := ds.foldl (fun n c => n * 10 + digitVal c) 0

/-- A character between its quotes: as its UTF-8 bytes, or escaped. -/
inductive CharText : Text → Nat → Prop where
  | plain (c : Char) : c.toNat ≠ 0 → c.toNat ≠ 92 → CharText (String.utf8EncodeChar c) c.toNat
  | escape (c : UInt8) : c ≠ 0 → CharText [byte '\\', c] (charEsc c)

/-- The literal `N` of a switch case is at the cursor. -/
inductive LiteralAt (s : PState) (N : UInt32) : Prop where
  | decimal (ds more : Text) : ds ≠ [] → ds.all isDigit = true → s.rest = ds ++ more →
    more.takeWhile isDigit = [] → (s.advanceBy ds.length).skip.peek = byte ':' →
    decimalValue ds = N.toNat → LiteralAt s N
  | char (cs more : Text) : CharText cs N.toNat → s.rest = byte '\'' :: (cs ++ byte '\'' :: more) →
    LiteralAt s N

theorem decimal_eq (ds : Text) : decimal ds = decimalValue ds % 2 ^ 32 := by
  have hfold (n m : Nat) (h : n = m % 2 ^ 32) :
      ds.foldl (fun n c => u32 (n * 10 + digitVal c)) n =
        ds.foldl (fun n c => n * 10 + digitVal c) m % 2 ^ 32 := by
    induction ds generalizing n m with
    | nil => exact h
    | cons d ds ih =>
      rw [List.foldl_cons, List.foldl_cons]
      refine ih _ _ ?_
      rw [u32, h]
      omega
  exact hfold 0 0 rfl

theorem decimal_lt {ds : Text} {N : UInt32} (h : decimalValue ds = N.toNat) :
    decimal ds = N.toNat := by
  rw [decimal_eq, h]
  exact Nat.mod_eq_of_lt N.toNat_lt

variable {p q : Parse}

theorem CharText.parse {cs more : Text} {n : Nat} (h : CharText cs n)
    (hrest : p.s.rest = cs ++ more) : parseCharEsc p = .ok (n, p.past cs.length) := by
  cases h with
  | plain c h0 h92 =>
    have hlt : c.toNat < 0x200000 := by
      have hvalid := c.valid
      have hv : c.val.toNat = c.toNat := rfl
      simp only [UInt32.isValidChar, Nat.isValidChar, hv] at hvalid
      omega
    rw [← printUtf8_char] at hrest ⊢
    exact parseCharEsc_plain hlt h0 h92 hrest
  | escape c h0 => exact parseCharEsc_escape h0 hrest

theorem parseCharLit_run {cs more : Text} {n : Nat} (h : CharText cs n)
    (hrest : p.s.rest = byte '\'' :: (cs ++ byte '\'' :: more)) :
    parseCharLit p = .ok (n, p.past (cs.length + 2)) := by
  have hrest1 : (p.past 1).s.rest = cs ++ byte '\'' :: more := by
    rw [rest_past, hrest]
    rfl
  exact parseCharLit_quoted hrest (h.parse hrest1)

theorem takeDigits_run {ds more : Text} (hds : ds.all isDigit = true) (hrest : p.s.rest = ds ++ more)
    (hmore : more.takeWhile isDigit = []) : takeDigits p = .ok (ds, p.past ds.length) := by
  have htake : p.s.rest.takeWhile isDigit = ds := by
    rw [hrest, List.takeWhile_append_of_pos (fun d hd => List.all_eq_true.mp hds d hd), hmore,
      List.append_nil]
  rw [takeDigits, run_bind (a := p) rfl, htake]
  rfl

/-- A literal is read as the pattern of a SWI case, with its value. -/
theorem parseCase_literal {N : UInt32} (h : LiteralAt p.s N) :
    ∃ q, parseCase p = .ok (some (.swi, N.toNat), q) := by
  cases h with
  | decimal ds more hne hds hrest hmore hcolon hval =>
    obtain ⟨d, ds', rfl⟩ := List.exists_cons_of_ne_nil hne
    have hd : isDigit d = true := (List.all_eq_true.mp hds) d (by simp)
    have hpeek : p.s.peek = d := peek_rest (by rw [hrest]; rfl)
    have hnotq : d ≠ byte '\'' := by
      rintro rfl
      exact absurd hd (by decide)
    refine ⟨{ p.past (d :: ds').length with s := (p.past (d :: ds').length).s.skip }, ?_⟩
    rw [parseCase, run_bind (a := p.s.peek) rfl, run_bind (a := p.s.peekAt 1) rfl, hpeek, if_neg hnotq,
      if_pos hd, run_bind (takeDigits_run hds hrest hmore)]
    dsimp only
    rw [run_bind (a := ()) (q := { p.past (d :: ds').length with
      s := (p.past (d :: ds').length).s.skip }) rfl, run_bind (a := byte ':') (by rw [← hcolon]; rfl),
      run_bind (a := (p.past (d :: ds').length).s.skip.peekAt 1) rfl, if_pos rfl, decimal_lt hval]
    rfl
  | char cs more hcs hrest =>
    have hpeek : p.s.peek = byte '\'' := peek_rest hrest
    refine ⟨{ p.past (cs.length + 2) with s := (p.past (cs.length + 2)).s.skip }, ?_⟩
    rw [parseCase, run_bind (a := p.s.peek) rfl, run_bind (a := p.s.peekAt 1) rfl, hpeek, if_pos rfl,
      run_bind (parseCharLit_run hcs hrest)]
    rfl

/-! ### What the parser keeps -/

/-- Cells below `b`, bound variables aside, stay as they are. -/
def Spares (b : Nat) (p q : Parse) : Prop :=
  p.rt.next ≤ q.rt.next ∧ (b ≤ p.rt.next → ∀ c < b, ¬ isQuoted (heapRead p.rt c) →
    heapRead q.rt c = heapRead p.rt c)

theorem Spares.refl (b : Nat) (p : Parse) : Spares b p p := ⟨Nat.le_refl _, fun _ _ _ _ => rfl⟩

theorem Spares.trans {b : Nat} {p q t : Parse} (h : Spares b p q) (h' : Spares b q t) :
    Spares b p t := by
  refine ⟨Nat.le_trans h.1 h'.1, fun hb c hc hq => ?_⟩
  have heq := h.2 hb c hc hq
  rw [← heq] at hq
  exact (h'.2 (Nat.le_trans hb h.1) c hc hq).trans heq

theorem Spares.same {b : Nat} {p q : Parse} (h : q.rt = p.rt) : Spares b p q := by
  rw [Spares, h]
  exact ⟨Nat.le_refl _, fun _ _ _ _ => rfl⟩

instance spares_building (b : Nat) : Building (Spares b) where
  refl := Spares.refl b
  trans := fun _ _ _ h h' => h.trans h'
  cursor := fun _ _ => .same rfl
  intern := fun _ _ _ _ => .same rfl
  written := fun _ _ _ => .same rfl
  generated := fun _ _ _ => .same rfl
  next := fun _ _ h => h.1
  extend := fun _ _ hle hkeep => ⟨hle, fun hb c hc _ => hkeep c (Nat.lt_of_lt_of_le hc hb)⟩
  requote := fun _ _ hnext hkeep => ⟨Nat.le_of_eq hnext.symm, fun _ c _ hq => hkeep c hq⟩
  store := fun p q loc t h hloc => by
    refine ⟨h.1, fun hb c hc hq => ?_⟩
    have hne : c ≠ loc := by omega
    rw [heapRead_heapSet, if_neg hne]
    exact h.2 hb c hc hq
  binds := fun _ _ => .same rfl
  side := fun _ _ => .same rfl
  fork := fun _ _ => .same rfl

/-! ### The chain while it is parsed -/

/-- From the word `t` the nodes of the literals `Ns` follow each other up to the cell `tip`,
each taken after the one before. -/
inductive Path (rt : Rt) : Term → List UInt32 → List Nat → Nat → Prop where
  | last {t : Term} {N : UInt32} : t.tag = .swi → t.ext = cut N → Path rt t [N] [t.val] (t.val + 1)
  | node {t t' : Term} {N : UInt32} {Ns : List UInt32} {bs : List Nat} {tip : Nat} :
    t.tag = .swi → t.ext = cut N → heapRead rt (t.val + 1) = t' → t.val + 1 < t'.val →
    Path rt t' Ns bs tip → Path rt t (N :: Ns) (t.val :: bs) tip

variable {rt rt' : Rt} {t : Term} {Ns : List UInt32} {bs : List Nat} {tip : Nat}

theorem Path.swi (h : Path rt t Ns bs tip) : t.tag = .swi := by
  cases h <;> assumption

theorem Path.lt (h : Path rt t Ns bs tip) : t.val < tip := by
  induction h with
  | last => exact Nat.lt_succ_self _
  | node _ _ _ hlt _ ih => omega

theorem not_quoted_swi (h : t.tag = .swi) : ¬ isQuoted t := by
  simp [isQuoted, h]

theorem Path.congr (h : Path rt t Ns bs tip)
    (hkeep : ∀ c < tip, ¬ isQuoted (heapRead rt c) → heapRead rt' c = heapRead rt c) :
    Path rt' t Ns bs tip := by
  induction h with
  | last htag hext => exact .last htag hext
  | node htag hext hread hlt hp ih =>
    refine .node htag hext ?_ hlt (ih hkeep)
    have hq := not_quoted_swi hp.swi
    rw [← hread] at hq
    rw [hkeep _ (Nat.lt_trans hlt hp.lt) hq, hread]

/-- A new node is put where the path ends. -/
theorem Path.put (h : Path rt t Ns bs tip) {w : Term} {N : UInt32} (htag : w.tag = .swi)
    (hext : w.ext = cut N) (hlt : tip < w.val) :
    Path (heapSet rt tip w) t (Ns ++ [N]) (bs ++ [w.val]) (w.val + 1) := by
  induction h with
  | @last t N' ht he =>
    exact .node ht he (by rw [heapRead_heapSet, if_pos rfl]) hlt (.last htag hext)
  | @node t t' N' Ns bs tip ht he hread hlt' hp ih =>
    have htip := hp.lt
    have hne : t.val + 1 ≠ tip := by omega
    exact .node ht he (by rw [heapRead_heapSet, if_neg hne, hread]) hlt' (ih hlt)

/-- A finished path is a switch, in every heap that keeps its nodes. -/
theorem Path.switch (h : Path rt t Ns bs tip) {hp : Nat → Cell} {root : Nat}
    (hroot : hp root = .tm t)
    (hkeep : ∀ c < tip, ¬ isQuoted (heapRead rt c) → hp c = .tm (heapRead rt c)) :
    Switch hp root Ns bs tip := by
  induction h generalizing root with
  | last htag hext => exact .case hroot htag hext (.default _)
  | node htag hext hread hlt hpath ih =>
    refine .case hroot htag hext (ih ?_ hkeep)
    have hq := not_quoted_swi hpath.swi
    rw [← hread] at hq
    rw [hkeep _ (Nat.lt_trans hlt hpath.lt) hq, hread]

/-! ### The cases of a switch -/

/-- Reads a case up to the end of its branch. -/
def branchOf (r : Calls) (depth : Nat) : Parser Term := do
  parseSkip
  let _ ← parseCase
  parseSkip
  parseConsume (tok ':')
  r.term depth

/-- Turns of the loop over the cases, from `m` at `p` to `m'` at `q`: the cases have the
literals `Ns`, and their branches are parsed to `vals`. -/
inductive Cases (r : Calls) (depth : Nat) : Match → Parse → List UInt32 → List Term → Match →
    Parse → Prop where
  | nil (m : Match) (p : Parse) : Cases r depth m p [] [] m p
  | cons {m m' m'' : Match} {p p' q q' : Parse} {N : UInt32} {Ns : List UInt32} {val : Term}
    {vals : List Term} : LiteralAt p.s.skip N → branchOf r depth p = .ok (val, p') →
    parseMatchTurn r depth m p = .ok (.inl m', q) → Cases r depth m' q Ns vals m'' q' →
    Cases r depth m p (N :: Ns) (val :: vals) m'' q'

/-- The branches are in their cells; a bound variable may be renumbered later. -/
def Branches (rt : Rt) (tip : Nat) (bs : List Nat) (vals : List Term) : Prop :=
  List.Forall₂ (fun b val => b < tip ∧ (¬ isQuoted val → heapRead rt b = val)) bs vals

theorem Branches.congr {vals : List Term} (h : Branches rt tip bs vals) {tip' : Nat} (hle : tip ≤ tip')
    (hkeep : ∀ c < tip, ¬ isQuoted (heapRead rt c) → heapRead rt' c = heapRead rt c) :
    Branches rt' tip' bs vals := by
  refine h.imp fun b val hb => ⟨by omega, fun hq => ?_⟩
  have hval := hb.2 hq
  rw [← hval] at hq ⊢
  exact hkeep b hb.1 hq

/-- The match so far, at `p`. -/
inductive Pending (p : Parse) : Match → List UInt32 → List Nat → List Term → Prop where
  | start : Pending p ⟨termNewNum 0, none⟩ [] [] []
  | chain {t : Term} {tip : Nat} {Ns : List UInt32} {bs : List Nat} {vals : List Term} :
    Path p.rt t Ns bs tip → tip < p.rt.next → Branches p.rt tip bs vals →
    Pending p ⟨t, some tip⟩ Ns bs vals

/-- What a turn does at a literal: the branch is read, and a new node goes to the tip. -/
theorem turn_literal {r : Calls} (hr : ∀ b, r.Stays (Spares b)) {depth : Nat} {m m' : Match}
    {p p' q : Parse} {N : UInt32} {val : Term} (hl : LiteralAt p.s.skip N)
    (hbranch : branchOf r depth p = .ok (val, p'))
    (hturn : parseMatchTurn r depth m p = .ok (.inl m', q)) :
    ∃ p1 : Parse, (∀ b, Spares b p p1) ∧
      m'.tip = some (p1.rt.next + 1) ∧
      m.put (termNew false .swi N.toNat p1.rt.next)
        { p1 with rt := (termNewNode p1.rt .swi N.toNat [val, termNewNum 0]).1 } =
        .ok (m'.term, q) := by
  obtain ⟨p2, hcase⟩ := parseCase_literal (p := { p with s := p.s.skip }) hl
  rw [parseMatchTurn, run_bind (a := ()) (q := { p with s := p.s.skip }) rfl,
    run_bind (a := { p with s := p.s.skip }) rfl, run_bind hcase] at hturn
  rw [branchOf, run_bind (a := ()) (q := { p with s := p.s.skip }) rfl, run_bind hcase] at hbranch
  simp only [parseMatchCase, bind_ok, pure_ok, build_ok] at hturn hbranch
  obtain ⟨m1, q1, ⟨u1, p3, h3, u2, p4, h4, val', p5, h5, u3, p6, h6, b7, p7, h7, node, p8,
    ⟨-, rfl, rfl⟩, term, p9, h9, rfl, rfl⟩, hm, rfl⟩ := hturn
  obtain ⟨u1', p3', h3', u2', p4', h4', h5'⟩ := hbranch
  rw [h3] at h3'
  cases h3'
  rw [h4] at h4'
  cases h4'
  rw [h5] at h5'
  cases h5'
  cases hm
  refine ⟨p7, fun b => ?_, rfl, h9⟩
  have := hr b
  have hs2 : Spares b p p2 :=
    (Spares.same rfl : Spares b p { p with s := p.s.skip }).trans (parseCase_within.run _ _ _ hcase)
  have hs4 : Spares b p2 p4 :=
    (parseSkip_within.run _ _ _ h3 : Spares b p2 p3).trans ((parseConsume_within _).run _ _ _ h4)
  have hs7 : Spares b p' p7 :=
    (parseSkip_within.run _ _ _ h6 : Spares b p' p6).trans ((parseMatch_within _).run _ _ _ h7)
  exact (hs2.trans hs4).trans (((hr b).term depth).run _ _ _ h5 |>.trans hs7)

theorem swi_ext (N : UInt32) (loc : Nat) : (termNew false .swi N.toNat loc).ext = cut N := rfl

/-- A case is appended. -/
theorem Pending.case {r : Calls} (hr : ∀ b, r.Stays (Spares b)) {depth : Nat} {m m' : Match}
    {p p' q : Parse} {N : UInt32} {val : Term} {vals : List Term} (h : Pending p m Ns bs vals)
    (hl : LiteralAt p.s.skip N) (hbranch : branchOf r depth p = .ok (val, p'))
    (hturn : parseMatchTurn r depth m p = .ok (.inl m', q)) :
    ∃ b, Pending q m' (Ns ++ [N]) (bs ++ [b]) (vals ++ [val]) := by
  obtain ⟨p1, hs, htip, hput⟩ := turn_literal hr hl hbranch hturn
  have hnext : (termNewNode p1.rt .swi N.toNat [val, termNewNum 0]).1.next = p1.rt.next + 2 :=
    termNewNode_next ..
  have hbr : heapRead (termNewNode p1.rt .swi N.toNat [val, termNewNum 0]).1 p1.rt.next = val :=
    termNewNode_read p1.rt .swi N.toNat [val, termNewNum 0] (i := 0) (by simp)
  have hle := (hs 0).1
  obtain ⟨t', tip'⟩ := m'
  cases htip
  cases h with
  | start =>
    obtain ⟨ht, hq⟩ := pure_ok.mp hput
    cases ht
    refine ⟨p1.rt.next, hq ▸ .chain (.last rfl rfl) ?_ (.cons ⟨Nat.lt_succ_self _, fun _ => hbr⟩ .nil)⟩
    rw [hnext]
    exact Nat.lt_succ_self _
  | @chain t tip _ _ _ hpath hlt hbs =>
    simp only [Match.put, heapStore, bind_ok, modify_ok, pure_ok] at hput
    obtain ⟨u, q1, rfl, ht, hq⟩ := hput
    cases ht
    have hkeep : ∀ c < tip, ¬ isQuoted (heapRead p.rt c) →
        heapRead (termNewNode p1.rt .swi N.toNat [val, termNewNum 0]).1 c = heapRead p.rt c := by
      intro c hc hcq
      rw [termNewNode_frame _ _ _ _ (by omega)]
      exact (hs (tip + 1)).2 hlt c (by omega) hcq
    have hput := (hpath.congr hkeep).put (w := termNew false .swi N.toNat p1.rt.next) rfl
      (swi_ext N _) (Nat.lt_of_lt_of_le hlt hle)
    refine ⟨p1.rt.next, hq ▸ .chain hput ?_ ?_⟩
    · have hset : (heapSet (termNewNode p1.rt .swi N.toNat [val, termNewNum 0]).1 tip
          (termNew false .swi N.toNat p1.rt.next)).next = p1.rt.next + 2 := hnext
      rw [hset]
      exact Nat.lt_succ_self _
    · have hkeep' : ∀ c < tip, ¬ isQuoted (heapRead p.rt c) →
          heapRead (heapSet (termNewNode p1.rt .swi N.toNat [val, termNewNum 0]).1 tip
            (termNew false .swi N.toNat p1.rt.next)) c = heapRead p.rt c := by
        intro c hc hcq
        rw [heapRead_heapSet, if_neg (by omega), hkeep c hc hcq]
      have hle' : tip ≤ p1.rt.next + 1 := by omega
      refine List.rel_append (hbs.congr hle' hkeep') (.cons ⟨Nat.lt_succ_self _, fun _ => ?_⟩ .nil)
      rw [heapRead_heapSet, if_neg (by omega), hbr]

theorem Pending.cases {r : Calls} (hr : ∀ b, r.Stays (Spares b)) {depth : Nat} {m m' : Match}
    {p q : Parse} {Ns' : List UInt32} {vals vals' : List Term} (h : Pending p m Ns bs vals)
    (hc : Cases r depth m p Ns' vals' m' q) :
    ∃ bs', Pending q m' (Ns ++ Ns') bs' (vals ++ vals') := by
  induction hc generalizing Ns bs vals with
  | nil m p => exact ⟨bs, by simpa using h⟩
  | @cons m m' m'' p p' q q' N Ns' val vals' hl hbranch hturn hc ih =>
    obtain ⟨b, hb⟩ := h.case hr hl hbranch hturn
    obtain ⟨bs', hbs'⟩ := ih hb
    refine ⟨bs', ?_⟩
    rwa [List.append_assoc, List.append_assoc] at hbs'

/-- The default, read from after the last case. -/
def defaultOf (r : Calls) (depth : Nat) : Parser Term := do
  parseSkip
  let save := (← get).s
  let _ ← parseCase
  moveTo fun _ => save
  let _ ← parsePeek
  parseDefaultMark
  r.term depth

/-- The text from `p` on is a match in braces whose cases are the literals `Ns`, with a default;
`t` is what is returned for it, at `q`. -/
structure Parsed (r : Calls) (depth : Nat) (p : Parse) (Ns : List UInt32) (vals : List Term)
    (dval t : Term) (q : Parse) : Prop where
  ne : Ns ≠ []
  text : ∃ p1 m p2 p3,
    (do parseConsume (tok '{'); parseSkip : Parser Unit) p = .ok ((), p1) ∧
    p1.s.peek ≠ byte '}' ∧ Cases r depth ⟨termNewNum 0, none⟩ p1 Ns vals m p2 ∧
    p2.s.skip.peek ≠ byte '}' ∧ defaultOf r depth p2 = .ok (dval, p3) ∧
    parseMatchTurn r depth m p2 = .ok (.inr t, q)

theorem Cases.loop {r : Calls} {depth : Nat} {m m' : Match} {p q : Parse} {vals : List Term}
    (h : Cases r depth m p Ns vals m' q) (n : Nat) :
    loopM (parseMatchTurn r depth) (n + Ns.length) m p = loopM (parseMatchTurn r depth) n m' q := by
  induction h with
  | nil => rfl
  | cons _ _ hturn _ ih =>
    rw [List.length_cons, ← Nat.add_assoc, loopM, run_bind hturn]
    exact ih

/-- The default goes to the tip. -/
theorem Pending.default {r : Calls} (hr : ∀ b, r.Stays (Spares b)) {depth : Nat} {m : Match}
    {p p' q : Parse} {vals : List Term} {dval t : Term} (h : Pending p m Ns bs vals) (hne : Ns ≠ [])
    (hclose : p.s.skip.peek ≠ byte '}') (hd : defaultOf r depth p = .ok (dval, p'))
    (hturn : parseMatchTurn r depth m p = .ok (.inr t, q)) :
    ∃ d, Path q.rt t Ns bs d ∧ d < q.rt.next ∧ Branches q.rt d bs vals ∧
      (¬ isQuoted dval → heapRead q.rt d = dval) := by
  cases h with
  | start => exact absurd rfl hne
  | @chain w tip _ _ _ hpath hlt hbs =>
    rw [parseMatchTurn, run_bind (a := ()) (q := { p with s := p.s.skip }) rfl,
      run_bind (a := { p with s := p.s.skip }) rfl, bind_ok] at hturn
    rw [defaultOf, run_bind (a := ()) (q := { p with s := p.s.skip }) rfl,
      run_bind (a := { p with s := p.s.skip }) rfl, bind_ok] at hd
    obtain ⟨c, p1, hcase, hturn⟩ := hturn
    obtain ⟨c', p1', hcase', hd⟩ := hd
    rw [hcase] at hcase'
    cases hcase'
    rcases c with _ | ⟨tag, ext⟩
    · have hnum : ¬ w = termNewNum 0 := by
        rintro rfl
        exact absurd hpath.swi (by decide)
      have hbrace : ¬ ({ p1 with s := p.s.skip } : Parse).s.peek = byte '}' := hclose
      dsimp only at hturn
      rw [run_bind (a := ()) (q := { p1 with s := p.s.skip }) rfl] at hturn hd
      rw [run_bind (a := p.s.skip.peek) rfl] at hd
      rw [parseMatchEnd, if_neg hnum] at hturn
      obtain ⟨t', q', hend, ht⟩ := bind_ok.mp hturn
      rw [run_bind (a := p.s.skip.peek) rfl, if_neg hbrace] at hend
      simp only [bind_ok, pure_ok, Match.put, heapStore, modify_ok] at hend ht hd
      obtain ⟨u, p2, hmark, d, p3, hterm, t1, p4, ⟨u1, p5, rfl, rfl, rfl⟩, u2, p6, hskip, u3, p7,
        hclose', rfl, rfl⟩ := hend
      obtain ⟨u', p2', hmark', hd⟩ := hd
      rw [hmark] at hmark'
      cases hmark'
      rw [hterm] at hd
      cases hd
      obtain ⟨ht, rfl⟩ := ht
      cases ht
      have hs (b : Nat) : Spares b p p' := by
        have := hr b
        have h1 : Spares b p p1 :=
          (Spares.same rfl : Spares b p { p with s := p.s.skip }).trans
            (parseCase_within.run _ _ _ hcase)
        have h2 : Spares b p1 p2 :=
          (Spares.same rfl : Spares b p1 { p1 with s := p.s.skip }).trans
            (parseDefaultMark_within.run _ _ _ hmark)
        exact (h1.trans h2).trans (((hr b).term depth).run _ _ _ hterm)
      have ht (b : Nat) : Spares b { p' with rt := heapSet p'.rt tip dval } p7 :=
        (parseSkip_within.run _ _ _ hskip : Spares b _ p6).trans
          ((parseConsume_within _).run _ _ _ hclose')
      have hle := (hs 0).1
      have hlt' : tip + 1 ≤ p'.rt.next := by omega
      have hkeep : ∀ c < tip, ¬ isQuoted (heapRead p.rt c) →
          heapRead p7.rt c = heapRead p.rt c := by
        intro c hc hcq
        have h3 := (hs (tip + 1)).2 hlt c (by omega) hcq
        have h4 : heapRead (heapSet p'.rt tip dval) c = heapRead p'.rt c := by
          rw [heapRead_heapSet, if_neg (by omega)]
        have h5 := (ht (tip + 1)).2 hlt' c (by omega) (by rwa [h4, h3])
        exact h5.trans (h4.trans h3)
      refine ⟨tip, hpath.congr hkeep, Nat.lt_of_lt_of_le hlt' (ht 0).1,
        hbs.congr (Nat.le_refl _) hkeep, fun hq => ?_⟩
      have hset : heapRead (heapSet p'.rt tip dval) tip = dval := by
        rw [heapRead_heapSet, if_pos rfl]
      have hstay := (ht (tip + 1)).2 hlt' tip (Nat.lt_succ_self _) (by rwa [hset])
      exact hstay.trans hset
    · obtain ⟨m', q', -, hm⟩ := bind_ok.mp hturn
      cases (pure_ok.mp hm).1

/-- The parser makes a switch of the literals, each cut to 18 bits, whose branches and default
are those of the text. -/
theorem Parsed.switch {r : Calls} (hr : ∀ b, r.Stays (Spares b)) {depth : Nat} {vals : List Term}
    {dval : Term} (h : Parsed r depth p Ns vals dval t q) :
    (∀ n, Ns.length < n → parseLamMatch r n depth p = .ok (t, q)) ∧
    ∃ bs d, d < q.rt.next ∧ Branches q.rt d bs vals ∧ (¬ isQuoted dval → heapRead q.rt d = dval) ∧
      ∀ hp root, hp root = .tm t →
        (∀ c < q.rt.next, ¬ isQuoted (heapRead q.rt c) → hp c = .tm (heapRead q.rt c)) →
        Switch hp root Ns bs d := by
  obtain ⟨p1, m, p2, p3, hopen, hpeek, hcases, hclose, hd, hturn⟩ := h.text
  constructor
  · intro n hn
    obtain ⟨k, rfl⟩ : ∃ k, n = k + 1 + Ns.length := ⟨n - Ns.length - 1, by omega⟩
    have hloop : loopM (parseMatchTurn r depth) (k + 1 + Ns.length) ⟨termNewNum 0, none⟩ p1 =
        .ok (t, q) := by
      rw [hcases.loop, loopM, run_bind hturn]
      rfl
    obtain ⟨u, p0, hc, hs⟩ := bind_ok.mp hopen
    rw [parseLamMatch, run_bind hc, run_bind hs, run_bind (a := p1.s.peek) rfl, if_neg hpeek, hloop]
  · obtain ⟨bs, hpend⟩ := Pending.start.cases hr hcases
    obtain ⟨d, hpath, hlt, hbs, hdef⟩ := hpend.default hr h.ne hclose hd hturn
    refine ⟨bs, d, hlt, hbs, hdef, fun hp root hroot hkeep => ?_⟩
    exact hpath.switch hroot fun c hc hq => hkeep c (by omega) hq

/-! ### Numeric switches -/

/-- The chain that is parsed for the literals `N :: Ns` is a switch, and it takes the first
case whose literal is the number `v`, in the interpreter and in the emitted code, if and only if
no earlier literal has the same 18 low bits as `v`, no literal but `v` itself has them, and, for
a number that is not among the literals, the default's code finds it. -/
theorem switch_exact_iff (N : UInt32) (Ns : List UInt32) (v : UInt32) (keeps : Bool) :
    (∀ (n depth : Nat) (p q : Parse) (vals : List Term) (dval t : Term),
      Parsed (calls n) depth p (N :: Ns) vals dval t q →
        (∀ m, (N :: Ns).length < m → parseLamMatch (calls n) m depth p = .ok (t, q)) ∧
        ∃ bs d, d < q.rt.next ∧ Branches q.rt d bs vals ∧
          (¬ isQuoted dval → heapRead q.rt d = dval) ∧
          ∀ hp root, hp root = .tm t →
            (∀ c < q.rt.next, ¬ isQuoted (heapRead q.rt c) → hp c = .tm (heapRead q.rt c)) →
            Switch hp root (N :: Ns) bs d) ∧
    (Switches (N :: Ns) v ∧ Compiles (N :: Ns) v keeps ↔
      Faithful (N :: Ns) v ∧
        (v ∈ N :: Ns ∨ keeps = true ∨ aotEmitTmpLim < (N :: Ns).length)) := by
  refine ⟨fun n depth p q vals dval t h => h.switch fun b => calls_walk n, ?_⟩
  constructor
  · rintro ⟨hsw, hcomp⟩
    have hf := faithful_of_switches (by simp) hsw
    exact ⟨hf, keeps_of_compiles (by simp) hf hcomp⟩
  · rintro ⟨hf, hk⟩
    exact ⟨switches_of_faithful (by simp) hf, compiles_of_faithful (by simp) hf hk⟩

/-- The book term `λ{262144: 1; λx. 2}(0)`, its root at 7. -/
def cutOfZero : Rt where
  heap := fun
    | 1 => .tm (termNewNum 1)
    | 2 => .tm (termNew false .lam lamEraMask 3)
    | 3 => .tm (termNewNum 2)
    | 4 => .tm (termNew false .swi 262144 1)
    | 5 => .tm (termNewNum 0)
    | 7 => .tm (termNew false .app 0 4)
    | _ => .tm Term.zero
  next := 8
  itrs := 0
  fresh := 0
  log := []

/-- The number 0 takes the case of the literal `2 ^ 18`. -/
theorem zero_takes_cut :
    (∃ rt, run (fun _ => 0) 12 (start cutOfZero (termNew false .alo 0 7)) =
      some (.done rt (termNewNum 1))) ∧ ¬ Switches [262144] 0 := by
  refine ⟨⟨_, rfl⟩, fun h => ?_⟩
  have hf := faithful_of_switches (by simp) h
  exact absurd hf (by decide)

end Hvm.Match
