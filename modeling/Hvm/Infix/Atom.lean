import Hvm.Infix.Arguments

/-! Simple atoms: numbers, references, variables and terms in parentheses. -/

namespace Hvm.Infix

open Effect

/-! ### Names and digits -/

/-- A name: a letter, and then characters of names. -/
def IsName (name : Text) : Prop :=
  ∃ c cs, name = c :: cs ∧ nickIsInit c = true ∧ ∀ x ∈ cs, nickIsChar x = true

variable {p0 p q : Parse} {S : Sense} {d : Nat} {b name ds txt more rest : Text} {c : UInt8}

theorem follow_bytes : utf8 "=!<>&|+-*/%^(),;\x7d]@" =
    [61, 33, 60, 62, 38, 124, 43, 45, 42, 47, 37, 94, 40, 41, 44, 59, 125, 93, 64] := by
  simp [utf8_eq, String.utf8EncodeChar]

theorem no_char_of_follow : ∀ c ∈ utf8 "=!<>&|+-*/%^(),;\x7d]@", nickIsChar c = false := by
  intro c hc
  rw [follow_bytes] at hc
  exact no_char_of_any (by decide) hc

theorem stops_char {cs : Text} (h : nickIsChar c = true) : Stops (c :: cs) :=
  stops_cons (no_space_of_char h) (ne_of_char h (by decide))

/-- No character of a name stands behind an operand. -/
theorem Skips.no_char (h : Skips more rest) (hrest : ∀ c ∈ rest.head?, nickIsChar c = false) :
    ∀ c ∈ more.head?, nickIsChar c = false := by
  obtain ⟨b, hb, rfl, -⟩ := h
  intro c hc
  cases b with
  | nil => exact hrest c hc
  | cons x xs =>
    obtain rfl := Option.some.inj hc
    rcases hb.head x rfl with hsp | rfl
    · exact no_char_of_space hsp
    · decide

theorem takeWhile_stop {f : UInt8 → Bool} (h : ∀ x ∈ txt, f x = true) (hmore : ∀ c ∈ more.head?, f c = false) :
    (txt ++ more).takeWhile f = txt := by
  rw [List.takeWhile_append_of_pos h]
  cases more with
  | nil => simp
  | cons c cs => simp [hmore c rfl]

theorem IsName.chars (h : IsName name) : ∀ x ∈ name, nickIsChar x = true := by
  obtain ⟨c, cs, rfl, hc, hcs⟩ := h
  intro x hx
  rcases List.mem_cons.mp hx with rfl | hx
  · exact char_of_init hc
  · exact hcs x hx

theorem prefix_idxOf {l l' : List Text} (h : l <+: l') (hm : name ∈ l) : l'.idxOf name = l.idxOf name := by
  obtain ⟨r, rfl⟩ := h
  exact List.idxOf_append_of_mem hm

/-- The name table finds a name, or gets it. -/
theorem tableFind_ends (name : Text) (p : Parse) : Ends (fun _ => tableFind name) p fun id q =>
    Kept p q ∧ q.s = p.s ∧ name ∈ q.table ∧ id = q.table.idxOf name := by
  by_cases hm : name ∈ p.table
  · refine .ok (a := p.table.idxOf name) (q := p) (fun _ => ?_) ⟨.refl p, rfl, hm, rfl⟩
    rw [tableFind, run_bind (a := p) (q := p) rfl]
    exact congrFun (if_pos hm) p
  · by_cases hcap : bookCap ≤ p.table.length
    · refine .spent (e := .sysError (utf8 "name table overflow")) (fun _ => ?_) (.table _)
      rw [tableFind, run_bind (a := p) (q := p) rfl]
      refine (congrFun (if_neg hm) p).trans (error_bind _ ?_)
      rw [stopIf, run_bind (a := p) (q := p) rfl]
      simp only [hcap, decide_true]
      rfl
    · have hstop : stopIf (decide (bookCap ≤ p.table.length))
          (fun _ => .sysError (utf8 "name table overflow")) p = .ok ((), p) :=
        stopIf_run p (by simpa using hcap)
      refine .ok (a := p.table.length) (q := { p with table := p.table ++ [name] }) (fun _ => ?_) ?_
      · rw [tableFind, run_bind (a := p) (q := p) rfl]
        refine (congrFun (if_neg hm) p).trans ?_
        rw [run_bind hstop]
        rfl
      · refine ⟨⟨⟨⟨rfl, rfl, rfl, Nat.le_refl _⟩, Nat.le_refl _, fun _ _ => rfl⟩,
          List.prefix_append _ _⟩, rfl, List.mem_append_right _ List.mem_cons_self, ?_⟩
        change p.table.length = (p.table ++ [name]).idxOf name
        rw [List.idxOf_append_of_notMem hm]
        simp

theorem name_ends (hn : IsName name) (hb : Blank b) (hp : p.s.rest = b ++ (name ++ more))
    (hmore : Skips more rest) (hend : ∀ c ∈ more.head?, nickIsChar c = false) :
    Ends (fun _ => parseName) p fun id q =>
      Kept p q ∧ q.s.rest = rest ∧ name ∈ q.table ∧ id = q.table.idxOf name := by
  have hchars := takeWhile_stop hn.chars hend
  obtain ⟨c, cs, rfl, hc, hcs⟩ := hn
  have hskips : Skips p.s.rest (c :: (cs ++ more)) := ⟨b, hb, hp, stops_char (char_of_init hc)⟩
  have hrest := hskips.skipped
  have hpeek : (skipped p).s.peek = c := peek_cons hrest
  have hstop : stopIf (!nickIsInit (skipped p).s.peek) (parseError (utf8 "name")) (skipped p) =
      .ok ((), skipped p) := by
    refine stopIf_run _ ?_
    rw [hpeek, hc]
    rfl
  have hname : (skipped p).s.rest.takeWhile nickIsChar = c :: cs := by rw [hrest]; exact hchars
  set p1 : Parse := { skipped p with s := (skipped p).s.advanceBy (c :: cs).length } with hp1
  have hp1r : p1.s.rest = more := by
    rw [hp1]
    change ((skipped p).s.advanceBy (c :: cs).length).rest = more
    rw [rest_advanceBy, hrest]
    exact List.drop_left
  have hrun : parseName p = (do
      let id ← tableFind (c :: cs)
      parseSkip
      return id) p1 := by
    rw [parseName, skip_bind, peek_bind, run_bind hstop, run_bind (a := skipped p) (q := skipped p) rfl,
      hname]
    rfl
  refine Ends.congr (fun _ => hrun) ((tableFind_ends (c :: cs) p1).bind fun id q hq => ?_)
  obtain ⟨hk, hs, hm, hid⟩ := hq
  refine .ok (a := id) (q := skipped q) (fun _ => ?_) ⟨?_, ?_, hm, hid⟩
  · rw [skip_bind]
    rfl
  · exact ((Kept.moved p _).trans hk).trans (kept_skipped q)
  · have hq : Skips q.s.rest rest := by
      rw [hs, hp1r]
      exact hmore
    exact hq.skipped

/-! ### Atoms -/

/-- A word that is known beforehand. -/
def Sense.word (w : Term) : Sense where
  Is := fun _ t => t = w
  kept := fun _ h => h

/-- The reference to a definition, by its name. -/
def Sense.ref (name : Text) : Sense where
  Is := fun p t => name ∈ p.table ∧ t = termNewRef (p.table.idxOf name)
  kept := by
    rintro p q t hk ⟨hm, rfl⟩
    exact ⟨hk.table.subset hm, by rw [prefix_idxOf hk.table hm]⟩

/-- The marker of a side of a dup variable. -/
def sideMark : Option Bool → Text
  | none => []
  | some false => utf8 "₀"
  | some true => utf8 "₁"

/-- The text of a simple atom in the scope of `p0`, and what it stands for. -/
inductive Atom (p0 : Parse) (d : Nat) : Text → Sense → Prop where
  | num {ds : Text} : ds ≠ [] → (∀ c ∈ ds, isDigit c = true) →
    Atom p0 d ds (.word (termNewNum (decimal ds)))
  | ref {b name : Text} : Blank b → IsName name → Atom p0 d (byte '@' :: (b ++ name)) (.ref name)
  | var {name : Text} {side : Option Bool} {bind : PBind} {skipped : Bool} : IsName name →
    name ∈ p0.table →
    parseBindLookup (p0.table.idxOf name) side false p0.binds = (some bind, skipped) →
    Atom p0 d (name ++ sideMark side)
      (.word (varTerm bind (if side = none ∧ bind.forked then p0.forkSide else side)))
  | par {b b' txt : Text} {S : Sense} : Blank b → Blank b' →
    Reads Closes p0 (fun n => (calls n).term d) txt S →
    Atom p0 d (byte '(' :: (b ++ (txt ++ (b' ++ [byte ')'])))) S

theorem atom_prefixes : utf8 "λ" = [206, 187] ∧ utf8 "↑" = [226, 134, 145] := by
  simp [utf8_eq, String.utf8EncodeChar]

theorem startsWith_no {s : PState} {c x : UInt8} {cs xs : Text} (h : s.rest = c :: cs) (hne : c ≠ x) :
    s.startsWith (x :: xs) = false := by
  have hb : (x == c) = false := by simpa using Ne.symm hne
  rw [PState.startsWith, h, List.isPrefixOf_cons_cons, hb, Bool.false_and]

theorem match_tok {α : Type} {ch : Char} (f : Bool → Parser α) {x : UInt8} {cs : Text}
    (h : p.s.rest = x :: cs) (hne : x ≠ byte ch) : (parseMatch (tok ch) >>= f) p = f false p :=
  match_no f (startsWith_no h hne)

/-- Nothing that is told by its first character is here. -/
theorem atom_plain {cs : Text} (h : (skipped p).s.rest = c :: cs)
    (hc : c ∉ [206, byte '!', byte '&', byte '#', byte '@', byte '%', byte '^', 226, byte '*', byte '('])
    (d n : Nat) : (calls (n + 1)).atom d p = parseTermPlain (calls n) n d (skipped p) := by
  simp only [List.mem_cons, List.not_mem_nil, or_false, not_or] at hc
  obtain ⟨h1, h2, h3, h4, h5, h6, h7, h8, h9, h10⟩ := hc
  have hf : ¬ (false = true) := Bool.false_ne_true
  change parseTermAtom (calls n) n d p = _
  rw [parseTermAtom, skip_bind, atom_prefixes.1, atom_prefixes.2, match_no _ (startsWith_no h h1),
    if_neg hf, match_tok _ h h2, if_neg hf, match_tok _ h h3, if_neg hf, match_tok _ h h4, if_neg hf,
    match_tok _ h h5, if_neg hf, match_tok _ h h6, if_neg hf, match_tok _ h h7, if_neg hf,
    match_no _ (startsWith_no h h8), if_neg hf, match_tok _ h h9, if_neg hf, match_tok _ h h10, if_neg hf]

theorem plain_char (h : nickIsChar c = true) :
    c ∉ [206, byte '!', byte '&', byte '#', byte '@', byte '%', byte '^', 226, byte '*', byte '('] :=
  notMem_of_char h (by decide)

theorem digits_run (hds : ∀ x ∈ ds, isDigit x = true) (hp : p.s.rest = ds ++ more)
    (hmore : ∀ c ∈ more.head?, nickIsChar c = false) :
    takeDigits p = .ok (ds, { p with s := p.s.advanceBy ds.length }) ∧
      (p.s.advanceBy ds.length).rest = more := by
  have hend : ∀ c ∈ more.head?, isDigit c = false := by
    intro c hc
    have hno := hmore c hc
    by_contra hd
    rw [char_of_digit (by simpa using hd)] at hno
    cases hno
  refine ⟨?_, ?_⟩
  · rw [takeDigits, run_bind (a := p) (q := p) rfl, hp, takeWhile_stop hds hend]
    rfl
  · rw [rest_advanceBy, hp, List.drop_left]

theorem peek_ne {s : PState} {x : UInt8} (h : ∀ c ∈ s.rest.head?, nickIsChar c = false)
    (hx : nickIsChar x = true) (h0 : x ≠ 0) : s.peek ≠ x := by
  cases hr : s.rest with
  | nil =>
    rw [PState.peek, PState.peekAt, hr]
    exact Ne.symm h0
  | cons c cs =>
    rw [peek_cons hr]
    rintro rfl
    rw [h c (by rw [hr]; rfl)] at hx
    cases hx

theorem follows_char (h : Follows rest) : ∀ c ∈ rest.head?, nickIsChar c = false :=
  fun c hc => no_char_of_follow c (h c hc)

theorem num_plain {cs : Text} (hd : isDigit c = true) (hp : p.s.rest = c :: cs) (d n : Nat) :
    parseTermPlain (calls n) n d p = (parseTermNat (calls n) d >>= orNum) p := by
  have hchar := char_of_digit hd
  have hbr : c ≠ byte '[' := ne_of_char hchar (by decide)
  have hq : c ≠ byte '\'' := ne_of_char hchar (by decide)
  have hstr : ¬ (c = byte '"' ∨ c = 96) :=
    not_or.mpr ⟨ne_of_char hchar (by decide), ne_of_char hchar (by decide)⟩
  rw [parseTermPlain, peek_bind, peek_cons hp, if_neg hbr, if_neg hq, if_neg hstr, if_pos hd]

/-- The digits are read once to see whether an `n` follows, and then again. -/
theorem num_run (hne : ds ≠ []) (hds : ∀ c ∈ ds, isDigit c = true) (hb : Blank b)
    (hp : p.s.rest = b ++ (ds ++ more)) (hmore : Skips more rest)
    (hend : ∀ c ∈ more.head?, nickIsChar c = false) (d : Nat) :
    ∃ q, (∀ n, (calls (n + 1)).atom d p = .ok (termNewNum (decimal ds), q)) ∧ q = { p with s := q.s } ∧
      q.s.rest = rest := by
  obtain ⟨c, cs, rfl⟩ := List.exists_cons_of_ne_nil hne
  have hc := hds c List.mem_cons_self
  have hchar := char_of_digit hc
  have hstops : Stops (c :: cs ++ more) := stops_char hchar
  have hp1 : (skipped p).s.rest = c :: cs ++ more := Skips.skipped ⟨b, hb, hp, hstops⟩
  obtain ⟨hdig, hrest⟩ := digits_run hds hp1 hend
  set p2 : Parse := { skipped p with s := (skipped p).s.advanceBy (c :: cs).length } with hp2
  have hn : p2.s.peek ≠ byte 'n' := peek_ne (by rw [hp2, hrest]; exact hend) (by decide) (by decide)
  set p3 : Parse := { p2 with s := { p2.s with rest := c :: cs ++ more } } with hp3
  have hnat (n : Nat) : parseTermNat (calls n) d (skipped p) = .ok (none, p3) := by
    rw [parseTermNat, run_bind (a := skipped p) (q := skipped p) rfl, run_bind hdig, peek_bind, if_pos hn,
      hp1]
    rfl
  have hskip3 : skipped p3 = p3 := skipped_stops hstops
  obtain ⟨hdig3, hrest3⟩ := digits_run (p := p3) hds rfl hend
  set p4 : Parse := { p3 with s := p3.s.advanceBy (c :: cs).length } with hp4
  have hsome : stopIf (c :: cs).isEmpty (parseError (utf8 "number")) p4 = .ok ((), p4) :=
    stopIf_run p4 rfl
  have hnum : parseTermNum p3 = .ok (termNewNum (decimal (c :: cs)), skipped p4) := by
    rw [parseTermNum, skip_bind, hskip3, run_bind hdig3, run_bind hsome, skip_bind]
    rfl
  have hp4r : Skips p4.s.rest rest := by
    rw [hp4, hrest3]
    exact hmore
  refine ⟨skipped p4, fun n => ?_, rfl, hp4r.skipped⟩
  rw [atom_plain hp1 (plain_char hchar), num_plain hc hp1, run_bind (hnat n)]
  exact hnum

theorem num_reads (hne : ds ≠ []) (hds : ∀ c ∈ ds, isDigit c = true) :
    Reads Follows p0 (fun n => (calls n).atom d) ds (.word (termNewNum (decimal ds))) := by
  refine ⟨?_, ?_⟩
  · obtain ⟨c, cs, rfl⟩ := List.exists_cons_of_ne_nil hne
    have hc := hds c List.mem_cons_self
    have hchar := char_of_digit hc
    exact ⟨c, cs, rfl, no_space_of_char hchar, ne_of_char hchar (by decide), ne_of_char hchar (by decide)⟩
  · intro p b more rest hk hb hp hmore hfollow
    obtain ⟨q, hrun, hq, hrest⟩ := num_run hne hds hb hp hmore (hmore.no_char (follows_char hfollow)) d
    refine Ends.succ (.ok hrun ⟨?_, rfl, ?_⟩)
    · rw [hq]
      exact Kept.moved p _
    · rw [hrest]
      exact hmore.stops.skips

/-! ### References and variables -/

theorem ref_reads (hb : Blank b) (hn : IsName name) :
    Reads Follows p0 (fun n => (calls n).atom d) (byte '@' :: (b ++ name)) (.ref name) := by
  refine ⟨⟨byte '@', _, rfl, by decide, by decide, by decide⟩, ?_⟩
  intro p b' more rest hk hb' hp hmore hfollow
  have hp1 : (skipped p).s.rest = byte '@' :: (b ++ name ++ more) :=
    Skips.skipped ⟨b', hb', hp, stops_cons (by decide) (by decide)⟩
  have hyes : (skipped p).s.startsWith (tok '@') = true := by
    rw [PState.startsWith, hp1]
    rfl
  set p1 : Parse := { skipped p with s := (skipped p).s.advanceBy (tok '@').length } with hp1'
  have hp1r : p1.s.rest = b ++ (name ++ more) := by
    change ((skipped p).s.advanceBy 1).rest = _
    rw [rest_advanceBy, hp1, ← List.append_assoc]
    rfl
  have hrun (n : Nat) : (calls (n + 1)).atom d p = parseTermRef p1 := by
    have hf : ¬ (false = true) := Bool.false_ne_true
    change parseTermAtom (calls n) n d p = _
    rw [parseTermAtom, skip_bind, atom_prefixes.1, match_no _ (startsWith_no hp1 (by decide)), if_neg hf,
      match_tok _ hp1 (by decide), if_neg hf, match_tok _ hp1 (by decide), if_neg hf,
      match_tok _ hp1 (by decide), if_neg hf, match_yes _ hyes, if_pos rfl]
  have hname := name_ends hn hb hp1r hmore (hmore.no_char (follows_char hfollow))
  refine Ends.succ (Ends.congr (fun n => hrun n) (hname.bind fun id q hq => ?_))
  obtain ⟨hpq, hrest, hm, rfl⟩ := hq
  refine .ok (fun _ => rfl) ⟨(Kept.moved p _).trans hpq, ⟨hm, rfl⟩, ?_⟩
  rw [hrest]
  exact hmore.stops.skips

theorem side_bytes : utf8 "₀" = [226, 130, 128] ∧ utf8 "₁" = [226, 130, 129] := by
  simp [utf8_eq, String.utf8EncodeChar]

/-- A marker is read where there is one. -/
theorem side_run {side : Option Bool} (hp : p.s.rest = sideMark side ++ more)
    (hfollow : side = none → Follows more) :
    ∃ q, parseSide p = .ok (side, q) ∧ q = { p with s := q.s } ∧ q.s.rest = more := by
  cases side with
  | none =>
    have hno : ∀ c ∈ p.s.rest.head?, c ≠ 226 := by
      intro c hc
      rw [hp] at hc
      have hmem := hfollow rfl c hc
      rintro rfl
      rw [follow_bytes] at hmem
      revert hmem
      decide
    have hfalse (x : Text) : p.s.startsWith (226 :: x) = false := by
      cases hr : p.s.rest with
      | nil =>
        rw [PState.startsWith, hr]
        rfl
      | cons c cs => exact startsWith_no hr (hno c (by rw [hr]; rfl))
    refine ⟨p, ?_, rfl, hp⟩
    rw [parseSide, side_bytes.1, side_bytes.2, match_no _ (hfalse _), if_neg Bool.false_ne_true,
      match_no _ (hfalse _), if_neg Bool.false_ne_true]
    rfl
  | some side =>
    cases side with
    | false =>
      have hyes : p.s.startsWith (utf8 "₀") = true := by
        rw [PState.startsWith, hp, sideMark, side_bytes.1]
        simp
      refine ⟨{ p with s := p.s.advanceBy (utf8 "₀").length }, ?_, rfl, ?_⟩
      · rw [parseSide, match_yes _ hyes, if_pos rfl]
        rfl
      · change (p.s.advanceBy _).rest = more
        rw [rest_advanceBy, hp, sideMark, List.drop_left]
    | true =>
      have hno : p.s.startsWith (utf8 "₀") = false := by
        rw [PState.startsWith, hp, sideMark, side_bytes.1, side_bytes.2]
        rfl
      have hyes : p.s.startsWith (utf8 "₁") = true := by
        rw [PState.startsWith, hp, sideMark, side_bytes.2]
        simp
      refine ⟨{ p with s := p.s.advanceBy (utf8 "₁").length }, ?_, rfl, ?_⟩
      · rw [parseSide, match_no _ hno, if_neg Bool.false_ne_true, match_yes _ hyes, if_pos rfl]
        rfl
      · change (p.s.advanceBy _).rest = more
        rw [rest_advanceBy, hp, sideMark, List.drop_left]

/-- `parse_term_var` behind the name. -/
def varRest (nam : Nat) : Parser Term := do
  parseSkip
  let side ← parseSide
  parseSkip
  let p ← get
  let (bind, skipped) := parseBindLookup nam side false p.binds
  let bind ← orStop bind (.var · nam side.isNone skipped)
  return varTerm bind (if side = none ∧ bind.forked then p.forkSide else side)

theorem var_reads {side : Option Bool} {bind : PBind} {passed : Bool} (hn : IsName name)
    (hm : name ∈ p0.table)
    (hlook : parseBindLookup (p0.table.idxOf name) side false p0.binds = (some bind, passed)) :
    Reads Follows p0 (fun n => (calls n).atom d) (name ++ sideMark side)
      (.word (varTerm bind (if side = none ∧ bind.forked then p0.forkSide else side))) := by
  have hn' := hn
  obtain ⟨c, cs, rfl, hc, -⟩ := hn'
  have hchar := char_of_init hc
  have hstops (cs : Text) : Stops (c :: cs) := stops_char hchar
  have hbr : c ≠ byte '[' := ne_of_char hchar (by decide)
  have hq : c ≠ byte '\'' := ne_of_char hchar (by decide)
  have hstr : ¬ (c = byte '"' ∨ c = 96) :=
    not_or.mpr ⟨ne_of_char hchar (by decide), ne_of_char hchar (by decide)⟩
  have hdig := not_digit_of_init hc
  refine ⟨⟨c, _, rfl, no_space_of_char hchar, ne_of_char hchar (by decide), ne_of_char hchar (by decide)⟩, ?_⟩
  intro p b more rest hk hb hp hmore hfollow
  rw [List.append_assoc] at hp
  have hp1 : (skipped p).s.rest = c :: cs ++ (sideMark side ++ more) :=
    Skips.skipped ⟨b, hb, hp, hstops _⟩
  have hskip : skipped (skipped p) = skipped p :=
    skipped_stops (by rw [hp1]; exact hstops _)
  have hdig' : ¬ isDigit c = true := by rw [hdig]; exact Bool.false_ne_true
  have hrun (n : Nat) : (calls (n + 1)).atom d p = parseTermVar (skipped p) := by
    rw [atom_plain hp1 (plain_char hchar), parseTermPlain, peek_bind, peek_cons hp1, if_neg hbr, if_neg hq, if_neg hstr,
      if_neg hdig']
  -- behind the name: the marker, or what follows the operand
  have hback : ∃ after, Skips after rest ∧ Skips (sideMark side ++ more) (sideMark side ++ after) ∧
      (side = none → after = rest) ∧ ∀ c ∈ (sideMark side ++ more).head?, nickIsChar c = false := by
    cases side with
    | none => exact ⟨rest, hmore.stops.skips, hmore, fun _ => rfl, hmore.no_char (follows_char hfollow)⟩
    | some side =>
      have hhead : ∃ xs, sideMark (some side) ++ more = 226 :: xs := by
        cases side with
        | false => exact ⟨_, by rw [sideMark, side_bytes.1]; rfl⟩
        | true => exact ⟨_, by rw [sideMark, side_bytes.2]; rfl⟩
      obtain ⟨xs, hx⟩ := hhead
      have hstops : Stops (226 :: xs) := stops_cons (by decide) (by decide)
      have hsome : some side = none → more = rest := fun h => absurd h (Option.some_ne_none side)
      refine ⟨more, hmore, ?_, hsome, ?_⟩
      · rw [hx]
        exact hstops.skips
      · rw [hx]
        intro c hc
        obtain rfl := Option.some.inj hc
        decide
  obtain ⟨after, hafter, hr, hnone, hend⟩ := hback
  have hname := name_ends hn .nil hp1 hr hend
  refine Ends.succ (Ends.congr (fun n => ?_) (hname.bind (f := fun _ => varRest) fun id q hq => ?_))
  · rw [hrun n, parseTermVar, skip_bind, hskip]
    rfl
  · obtain ⟨hpq, hrest, -, rfl⟩ := hq
    have hkq : Kept p0 q := hk.trans ((kept_skipped p).trans hpq)
    have hskipq : skipped q = q := skipped_stops (by rw [hrest]; exact hr.stops)
    have hfollow' : side = none → Follows after := fun h => by rw [hnone h]; exact hfollow
    obtain ⟨q2, hside, hq2, hq2r⟩ := side_run hrest hfollow'
    have hbinds : q2.binds = p0.binds := by rw [hq2]; exact hkq.binds
    have hfork : q2.forkSide = p0.forkSide := by rw [hq2]; exact hkq.side
    have hid : q.table.idxOf (c :: cs) = p0.table.idxOf (c :: cs) := prefix_idxOf hkq.table hm
    have hq2s : Skips q2.s.rest rest := by
      rw [hq2r]
      exact hafter
    have hkq2 : Kept q q2 := by
      rw [hq2]
      exact Kept.moved q _
    refine .ok (q := skipped q2) (fun _ => ?_)
      ⟨(kept_skipped p).trans (hpq.trans (hkq2.trans (kept_skipped q2))), rfl, ?_⟩
    · rw [varRest, skip_bind, hskipq, run_bind hside, skip_bind, run_bind (a := skipped q2) (q := skipped q2) rfl]
      have hb2 : (skipped q2).binds = p0.binds := hbinds
      have hf2 : (skipped q2).forkSide = p0.forkSide := hfork
      rw [hb2, hid, hlook, hf2]
      rfl
    · rw [hq2s.skipped]
      exact hq2s.stops.skips

/-- A term in parentheses. -/
theorem par_reads {b' : Text} (hb : Blank b) (hb' : Blank b')
    (ht : Reads Closes p0 (fun n => (calls n).term d) txt S) :
    Reads Follows p0 (fun n => (calls n).atom d) (byte '(' :: (b ++ (txt ++ (b' ++ [byte ')'])))) S := by
  refine ⟨⟨byte '(', _, rfl, by decide, by decide, by decide⟩, ?_⟩
  intro p b0 more rest hk hb0 hp hmore hfollow
  have hp1 : (skipped p).s.rest = byte '(' :: (b ++ (txt ++ (b' ++ byte ')' :: more))) := by
    refine Skips.skipped ⟨b0, hb0, ?_, stops_cons (by decide) (by decide)⟩
    rw [hp]
    simp only [List.append_assoc, List.cons_append, List.nil_append]
  have hyes : (skipped p).s.startsWith (tok '(') = true := by
    rw [PState.startsWith, hp1]
    rfl
  set p1 : Parse := { skipped p with s := (skipped p).s.advanceBy (tok '(').length } with hp1'
  have hp1r : p1.s.rest = b ++ (txt ++ (b' ++ byte ')' :: more)) := by
    change ((skipped p).s.advanceBy 1).rest = _
    rw [rest_advanceBy, hp1]
    rfl
  have hrun (n : Nat) : (calls (n + 1)).atom d p = parseTermPar (calls n) d p1 := by
    have hf : ¬ (false = true) := Bool.false_ne_true
    change parseTermAtom (calls n) n d p = _
    rw [parseTermAtom, skip_bind, atom_prefixes.1, atom_prefixes.2,
      match_no _ (startsWith_no hp1 (by decide)), if_neg hf,
      match_tok _ hp1 (by decide), if_neg hf, match_tok _ hp1 (by decide), if_neg hf,
      match_tok _ hp1 (by decide), if_neg hf, match_tok _ hp1 (by decide), if_neg hf,
      match_tok _ hp1 (by decide), if_neg hf, match_tok _ hp1 (by decide), if_neg hf,
      match_no _ (startsWith_no hp1 (by decide)), if_neg hf,
      match_tok _ hp1 (by decide), if_neg hf, match_yes _ hyes, if_pos rfl]
  have hskips : Skips (b' ++ byte ')' :: more) (byte ')' :: more) :=
    skips_byte hb' (by decide) (by decide)
  have hkp : Kept p p1 := Kept.moved p _
  have hterm := ht.run p1 b _ _ (hk.trans hkp) hb hp1r hskips (closes_cons mem_closes.1)
  refine Ends.succ (Ends.congr (fun n => hrun n) (hterm.bind fun t q hq => ?_))
  obtain ⟨hpq, hts, hrest⟩ := hq
  have hclose : parseConsume (tok ')') q = .ok ((), opened q) := by
    have hpeek : (skipped q).s.peek = byte ')' := peek_cons hrest.skipped
    have hskip : skipped (skipped q) = skipped q :=
      skipped_stops (by rw [hrest.skipped]; exact hrest.stops)
    have hagain := consume_peek (c := ')') rfl hpeek (by decide) (by decide) (by decide)
    rw [parseConsume, skip_bind] at hagain ⊢
    rw [hskip] at hagain
    exact hagain
  refine .ok (a := t) (q := opened q) (fun _ => ?_)
    ⟨hkp.trans (hpq.trans (kept_opened q)), S.kept (kept_opened q) hts, ?_⟩
  · rw [run_bind hclose]
    rfl
  · rw [rest_opened hrest hmore]
    exact hmore.stops.skips

theorem Atom.reads (h : Atom p0 d txt S) : Reads Follows p0 (fun n => (calls n).atom d) txt S := by
  cases h with
  | num hne hds => exact num_reads hne hds
  | ref hb hn => exact ref_reads hb hn
  | var hn hm hlook => exact var_reads hn hm hlook
  | par hb hb' ht => exact par_reads hb hb' ht

end Hvm.Infix
