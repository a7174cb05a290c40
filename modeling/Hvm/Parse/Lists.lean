import Hvm.Parse.Fields
import Hvm.Parse.Grammar
import Hvm.Print.Utf8

/-! List and string literals (`parse/term/lst.c`, `parse/term/str.c`): the chain of `#CON` they
desugar to, and the arrays their elements are collected in. -/

namespace Hvm

open Effect

/-! ### Chains of `#CON` -/

/-- From `t` on the heap holds a chain of `#CON` with the elements `es`, up to a `#NIL`. -/
inductive ConChain (rt : Rt) : Term → List Term → Prop where
  | nil : ConChain rt (termNew false (.ctr 0) symNil 0) []
  | cons {t e t' : Term} {es : List Term} : t.tag = .ctr 2 → t.ext = symCon →
    heapRead rt t.val = e → heapRead rt (t.val + 1) = t' → t.val + 1 < rt.next →
    ConChain rt t' es → ConChain rt t (e :: es)

theorem ConChain.keep {rt rt' : Rt} {t : Term} {es : List Term} (h : ConChain rt t es)
    (hnext : rt.next ≤ rt'.next) (hkeep : ∀ c < rt.next, heapRead rt' c = heapRead rt c) :
    ConChain rt' t es := by
  induction h with
  | nil => exact .nil
  | cons htag hext he ht hlt _ ih =>
    exact .cons htag hext ((hkeep _ (by omega)).trans he) ((hkeep _ hlt).trans ht) (by omega) ih

theorem ConChain.inj {rt : Rt} {t : Term} {es es' : List Term} (h : ConChain rt t es)
    (h' : ConChain rt t es') : es = es' := by
  induction h generalizing es' with
  | nil =>
    cases h' with
    | nil => rfl
    | cons htag => cases htag
  | cons htag _ he ht _ _ ih =>
    cases h' with
    | nil => cases htag
    | cons _ _ he' ht' _ h' =>
      rw [← he, ← he', ih (ht ▸ ht'.symm ▸ h')]

/-! ### Building the chain -/

variable {p q : Parse}

/-- `k` cells more are taken, and the earlier ones stay. -/
structure Appended (p q : Parse) (k : Nat) : Prop where
  next : q.rt.next = p.rt.next + k
  keep : ∀ c < p.rt.next, heapRead q.rt c = heapRead p.rt c
  cursor : q.s = p.s

theorem Appended.refl (p : Parse) : Appended p p 0 := ⟨rfl, fun _ _ => rfl, rfl⟩

theorem Appended.trans {t : Parse} {k l : Nat} (h : Appended p q k) (h' : Appended q t l) :
    Appended p t (k + l) := by
  have hn := h.next
  refine ⟨by rw [h'.next, hn, Nat.add_assoc], fun c hc => ?_, h'.cursor.trans h.cursor⟩
  rw [h'.keep c (by omega), h.keep c hc]

/-- A run that builds `k` cells: it gives a term as `P` says, or there is no room. -/
def Builds (p : Parse) (k : Nat) (P : Term → Parse → Prop) (res : Except ParseStop (Term × Parse)) :
    Prop :=
  (∃ t q, res = .ok (t, q) ∧ Appended p q k ∧ P t q) ∨
    res = .error .outOfHeap ∧ heapCap < p.rt.next + k

theorem Builds.bind {k l : Nat} {P : Term → Parse → Prop} {Q : Term → Parse → Prop}
    {m : Parser Term} {f : Term → Parser Term} (hm : Builds p k P (m p))
    (hf : ∀ t q, P t q → Appended p q k → Builds q l Q (f t q)) : Builds p (k + l) Q ((m >>= f) p) := by
  rcases hm with ⟨t, q, hrun, hext, hP⟩ | ⟨hrun, hcap⟩
  · rw [run_bind hrun]
    have hn := hext.next
    rcases hf t q hP hext with ⟨t', q', hrun', hext', hQ⟩ | ⟨hrun', hcap⟩
    · exact .inl ⟨t', q', hrun', hext.trans hext', hQ⟩
    · exact .inr ⟨hrun', by omega⟩
  · exact .inr ⟨error_bind f hrun, by omega⟩

theorem build_node (tag : Tag) (ext : Nat) (args : List Term) (p : Parse) :
    Builds p args.length (fun t q => t = termNew false tag ext p.rt.next ∧
      ∀ i (h : i < args.length), heapRead q.rt (p.rt.next + i) = args[i])
      (build (fun rt => termNewNode rt tag ext args) p) := by
  rw [build_run]
  have hnext := termNewNode_next p.rt tag ext args
  by_cases h : heapCap < (termNewNode p.rt tag ext args).1.next
  · exact .inr ⟨if_pos h, by omega⟩
  · exact .inl ⟨_, _, if_neg h, ⟨hnext, fun c hc => termNewNode_frame p.rt tag ext args hc, rfl⟩,
      rfl, fun i hi => termNewNode_read p.rt tag ext args hi⟩

theorem build_con {t : Term} {es : List Term} (e : Term) (h : ConChain p.rt t es) :
    Builds p 2 (fun t' q => ConChain q.rt t' (e :: es))
      (build (fun rt => termNewCtr rt symCon [e, t]) p) := by
  rcases build_node (.ctr 2) symCon [e, t] p with ⟨t', q, hrun, hext, rfl, hread⟩ | hout
  · refine .inl ⟨_, q, hrun, hext, ?_⟩
    have hn : q.rt.next = p.rt.next + 2 := hext.next
    have he : heapRead q.rt (p.rt.next + 0) = e := hread 0 (Nat.zero_lt_succ _)
    have ht : heapRead q.rt (p.rt.next + 1) = t := hread 1 (Nat.one_lt_succ_succ 0)
    refine .cons rfl rfl he ht ?_ (h.keep (by omega) hext.keep)
    change p.rt.next + 1 < q.rt.next
    omega
  · exact .inr hout

/-- The elements are put in front of a chain from the last to the first. -/
theorem fold_con (es : List Term) {t : Term} {es' : List Term} (h : ConChain p.rt t es') :
    Builds p (2 * es.length) (fun t' q => ConChain q.rt t' (es ++ es'))
      (es.foldrM (fun e t => build fun rt => termNewCtr rt symCon [e, t]) t p) := by
  induction es with
  | nil => exact .inl ⟨t, p, rfl, .refl p, h⟩
  | cons e es ih =>
    have hlen : 2 * (e :: es).length = 2 * es.length + 2 := by
      simp only [List.length_cons]
      omega
    rw [List.foldrM_cons, hlen]
    exact ih.bind fun t' q ht _ => build_con e ht

/-- `#CHR` of a code point. -/
def IsChr (rt : Rt) (e : Term) (c : Nat) : Prop :=
  e.tag = .ctr 1 ∧ e.ext = symChr ∧ heapRead rt e.val = termNewNum c ∧ e.val < rt.next

theorem IsChr.keep {rt rt' : Rt} {e : Term} {c : Nat} (h : IsChr rt e c)
    (hnext : rt.next ≤ rt'.next) (hkeep : ∀ c < rt.next, heapRead rt' c = heapRead rt c) :
    IsChr rt' e c :=
  ⟨h.1, h.2.1, (hkeep _ h.2.2.2).trans h.2.2.1, Nat.lt_of_lt_of_le h.2.2.2 hnext⟩

/-- A string: a chain of characters. -/
def IsString (rt : Rt) (t : Term) (cs : List Nat) : Prop :=
  ∃ es, ConChain rt t es ∧ List.Forall₂ (IsChr rt) es cs

theorem build_chr (c : Nat) (p : Parse) :
    Builds p 1 (fun e q => IsChr q.rt e c)
      (build (fun rt => termNewCtr rt symChr [termNewNum c]) p) := by
  rcases build_node (.ctr 1) symChr [termNewNum c] p with ⟨e, q, hrun, hext, rfl, hread⟩ | hout
  · have hn : q.rt.next = p.rt.next + 1 := hext.next
    refine .inl ⟨_, q, hrun, hext, rfl, rfl, hread 0 (Nat.zero_lt_succ _), ?_⟩
    change p.rt.next < q.rt.next
    omega
  · exact .inr hout

theorem fold_chr (cs : List Nat) {t : Term} {cs' : List Nat} (h : IsString p.rt t cs') :
    Builds p (3 * cs.length) (fun t' q => IsString q.rt t' (cs ++ cs'))
      ((cs.foldrM (fun c t => do
        let h ← build fun rt => termNewCtr rt symChr [termNewNum c]
        build fun rt => termNewCtr rt symCon [h, t]) t : Parser Term) p) := by
  induction cs with
  | nil => exact .inl ⟨t, p, rfl, .refl p, h⟩
  | cons c cs ih =>
    have hlen : 3 * (c :: cs).length = 3 * cs.length + (1 + 2) := by
      simp only [List.length_cons]
      omega
    rw [List.foldrM_cons, hlen]
    refine ih.bind fun t' q ht _ => (build_chr c q).bind fun e q1 he hext => ?_
    obtain ⟨es, hes, hcs⟩ := ht
    have hn := hext.next
    have hle : q.rt.next ≤ q1.rt.next := by omega
    rcases build_con e (hes.keep hle hext.keep) with ⟨t2, q2, hrun, hext2, hchain⟩ | hout
    · have hn2 := hext2.next
      have hle2 : q1.rt.next ≤ q2.rt.next := by omega
      refine .inl ⟨t2, q2, hrun, hext2, _, hchain, .cons (he.keep hle2 hext2.keep) ?_⟩
      exact hcs.imp fun e c hec => (hec.keep hle hext.keep).keep hle2 hext2.keep
    · exact .inr hout

/-! ### Collecting the elements -/

/-- Items read one after the other. -/
inductive Items {β : Type} (item : Parse → β → Parse → Prop) : Parse → List β → Parse → Prop where
  | nil (p : Parse) : Items item p [] p
  | cons {p p' q : Parse} {b : β} {bs : List β} : item p b p' → Items item p' bs q →
    Items item p (b :: bs) q

/-- A loop that stores each item in an array of `literalCap` entries. -/
theorem Items.loop {β : Type} {item : Parse → β → Parse → Prop}
    {turn : List β → Parser (List β ⊕ List β)} {bs : List β} (h : Items item p bs q)
    (hturn : ∀ acc p b p', item p b p' → turn acc p =
      if literalCap ≤ acc.length then .error .overrun else .ok (.inl (acc ++ [b]), p'))
    (acc : List β) (hacc : acc.length ≤ literalCap) (n : Nat) :
    loopM turn (n + bs.length) acc p =
      if acc.length + bs.length ≤ literalCap then loopM turn n (acc ++ bs) q
      else .error .overrun := by
  induction h generalizing acc with
  | nil p =>
    rw [List.length_nil, Nat.add_zero, Nat.add_zero, if_pos hacc, List.append_nil]
  | @cons p p' q b bs hb _ ih =>
    have hrun := hturn acc p b p' hb
    rw [List.length_cons, ← Nat.add_assoc, loopM]
    by_cases hcap : literalCap ≤ acc.length
    · rw [if_pos hcap] at hrun
      rw [if_neg (by omega), error_bind _ hrun]
    · rw [if_neg hcap] at hrun
      rw [run_bind hrun]
      have hlen : (acc ++ [b]).length = acc.length + 1 := by rw [List.length_append]; rfl
      dsimp only
      rw [ih (acc ++ [b]) (by omega), hlen, List.append_assoc, List.singleton_append, Nat.add_right_comm,
        Nat.add_assoc]

theorem Items.run {β : Type} {item : Parse → β → Parse → Prop}
    {turn : List β → Parser (List β ⊕ List β)} {bs : List β} (h : Items item p bs q)
    (hturn : ∀ acc p b p', item p b p' → turn acc p =
      if literalCap ≤ acc.length then .error .overrun else .ok (.inl (acc ++ [b]), p'))
    (hstop : turn bs q = .ok (.inr bs, q)) {n : Nat} (hn : bs.length < n) :
    loopM turn n [] p = if bs.length ≤ literalCap then .ok (bs, q) else .error .overrun := by
  obtain ⟨k, rfl⟩ : ∃ k, n = k + 1 + bs.length := ⟨n - bs.length - 1, by omega⟩
  rw [h.loop hturn [] (Nat.zero_le _) (k + 1), List.length_nil, Nat.zero_add, List.nil_append, loopM,
    run_bind hstop]
  rfl

/-- The cursor behind an element and the comma after it. -/
def PState.pastElement (s : PState) : PState :=
  (if s.skip.startsWith (tok ',') then s.skip.advanceBy 1 else s.skip).skip

/-- An element of a list. -/
def Element (r : Calls) (depth : Nat) (p : Parse) (e : Term) (p' : Parse) : Prop :=
  p.s.peek ≠ byte ']' ∧
    ∃ p1, r.term depth p = .ok (e, p1) ∧ p' = { p1 with s := p1.s.pastElement }

/-- A character before the fence. -/
def Character (fence : UInt8) (p : Parse) (c : Nat) (p' : Parse) : Prop :=
  p.s.peek ≠ fence ∧ parseCharEsc p = .ok (c, p')

/-- At `p` is a list in brackets with the elements `es`; `q` is before the closing bracket. -/
def ListText (r : Calls) (depth : Nat) (p : Parse) (es : List Term) (q : Parse) : Prop :=
  Items (Element r depth) { p with s := p.s.advance.skip } es q ∧ q.s.peek = byte ']'

/-- At `p` is a string with the characters `cs`; `q` is before the closing fence. -/
def StrText (p : Parse) (cs : List Nat) (q : Parse) : Prop :=
  Items (Character p.s.peek) (p.past 1) cs q ∧ q.s.peek = p.s.peek

theorem element_turn {r : Calls} {depth : Nat} (acc : List Term) (p : Parse) (e : Term) (p' : Parse)
    (h : Element r depth p e p') :
    (do
      if (← parsePeek) = byte ']' then
        return .inr acc
      let e ← r.term depth
      stopIf (literalCap ≤ acc.length) fun _ => .overrun
      parseSkip
      let _ ← parseMatch (tok ',')
      parseSkip
      return .inl (acc ++ [e]) : Parser (List Term ⊕ List Term)) p =
      if literalCap ≤ acc.length then .error .overrun else .ok (.inl (acc ++ [e]), p') := by
  obtain ⟨hpeek, p1, hterm, rfl⟩ := h
  rw [run_bind (a := p.s.peek) rfl, if_neg hpeek, run_bind hterm]
  by_cases hcap : literalCap ≤ acc.length
  · rw [if_pos hcap, decide_eq_true hcap]
    rfl
  · rw [if_neg hcap, run_bind (stopIf_run p1 (decide_eq_false hcap)),
      run_bind (a := ()) (q := { p1 with s := p1.s.skip }) rfl, run_bind (parseMatch_run _ _)]
    by_cases hcomma : p1.s.skip.startsWith (tok ',') = true
    · rw [if_pos hcomma, PState.pastElement, if_pos hcomma]
      rfl
    · rw [if_neg hcomma, PState.pastElement, if_neg hcomma]
      rfl

theorem character_turn {fence : UInt8} (acc : List Nat) (p : Parse) (c : Nat) (p' : Parse)
    (h : Character fence p c p') :
    (do
      if (← parsePeek) = fence then
        return .inr acc
      let c ← parseCharEsc
      stopIf (literalCap ≤ acc.length) fun _ => .overrun
      return .inl (acc ++ [c]) : Parser (List Nat ⊕ List Nat)) p =
      if literalCap ≤ acc.length then .error .overrun else .ok (.inl (acc ++ [c]), p') := by
  obtain ⟨hpeek, hesc⟩ := h
  rw [run_bind (a := p.s.peek) rfl, if_neg hpeek, run_bind hesc]
  by_cases hcap : literalCap ≤ acc.length
  · rw [if_pos hcap, decide_eq_true hcap]
    rfl
  · rw [if_neg hcap, run_bind (stopIf_run p' (decide_eq_false hcap))]
    rfl

theorem build_nil (p : Parse) :
    Builds p 0 (fun t q => ConChain q.rt t []) (build (fun rt => termNewCtr rt symNil []) p) := by
  rw [build_run]
  by_cases h : heapCap < p.rt.next
  · exact .inr ⟨if_pos h, h⟩
  · exact .inl ⟨_, p, if_neg h, .refl p, .nil⟩

theorem parseElements_run {r : Calls} {depth n : Nat} {es : List Term}
    (h : Items (Element r depth) p es q) (hclose : q.s.peek = byte ']') (hn : es.length < n) :
    parseElements r n depth p =
      if es.length ≤ literalCap then .ok (es, q) else .error .overrun := by
  refine h.run element_turn ?_ hn
  rw [run_bind (a := q.s.peek) rfl, if_pos hclose]
  rfl

/-- A list of at most `literalCap` elements is desugared to their chain. -/
theorem parseTermLst_builds {r : Calls} {depth n : Nat} {es : List Term}
    (h : ListText r depth p es q) (hn : es.length < n) (hcap : es.length ≤ literalCap) :
    ∃ s, Builds { q with s := s } (2 * es.length) (fun t q' => ConChain q'.rt t es)
      (parseTermLst r n depth p) := by
  obtain ⟨hitems, hclose⟩ := h
  rw [parseTermLst, run_bind (a := ()) (q := p.past 1) rfl,
    run_bind (a := ()) (q := { p with s := p.s.advance.skip }) rfl,
    run_bind (a := p.s.advance.skip.peek) rfl]
  by_cases hempty : p.s.advance.skip.peek = byte ']'
  · cases hitems with
    | nil =>
      rw [if_pos hempty]
      exact ⟨p.s.advance.skip.advance, build_nil _⟩
    | cons hb => exact absurd hempty hb.1
  · have hloop := parseElements_run hitems hclose hn
    rw [if_pos hcap] at hloop
    rw [if_neg hempty, run_bind hloop,
      run_bind (consume_peek rfl hclose (by decide) (by decide) (by decide))]
    refine ⟨q.s.advance.skip, ?_⟩
    have hnil := build_nil { q with s := q.s.advance.skip }
    have hsum : 2 * es.length = 0 + 2 * es.length := by omega
    rw [hsum]
    refine hnil.bind fun t q' ht _ => ?_
    have hfold := fold_con es ht
    rwa [List.append_nil] at hfold

theorem parseTermLst_overruns {r : Calls} {depth n : Nat} {es : List Term}
    (h : ListText r depth p es q) (hn : es.length < n) (hcap : literalCap < es.length) :
    parseTermLst r n depth p = .error .overrun := by
  obtain ⟨hitems, hclose⟩ := h
  have hpeek : p.s.advance.skip.peek ≠ byte ']' := by
    cases hitems with
    | nil => exact absurd hcap (Nat.not_lt_zero _)
    | cons hb => exact hb.1
  have hloop := parseElements_run hitems hclose hn
  rw [if_neg (by omega)] at hloop
  rw [parseTermLst, run_bind (a := ()) (q := p.past 1) rfl,
    run_bind (a := ()) (q := { p with s := p.s.advance.skip }) rfl,
    run_bind (a := p.s.advance.skip.peek) rfl, if_neg hpeek, error_bind _ hloop]

theorem parseChars_run {fence : UInt8} {n : Nat} {cs : List Nat}
    (h : Items (Character fence) p cs q) (hclose : q.s.peek = fence) (hn : cs.length < n) :
    loopM (fun cs => do
      if (← parsePeek) = fence then
        return .inr cs
      let c ← parseCharEsc
      stopIf (literalCap ≤ cs.length) fun _ => .overrun
      return .inl (cs ++ [c])) n [] p =
      if cs.length ≤ literalCap then .ok (cs, q) else .error .overrun := by
  refine h.run character_turn ?_ hn
  rw [run_bind (a := q.s.peek) rfl, if_pos hclose]
  rfl

theorem parseTermStr_builds {n : Nat} {cs : List Nat} (h : StrText p cs q) (hn : cs.length < n)
    (hcap : cs.length ≤ literalCap) :
    Builds (q.past 1) (3 * cs.length) (fun t q' => IsString q'.rt t cs) (parseTermStr n p) := by
  obtain ⟨hitems, hclose⟩ := h
  have hloop := parseChars_run hitems hclose hn
  rw [if_pos hcap] at hloop
  rw [parseTermStr, run_bind (a := p.s.peek) rfl, run_bind (a := ()) (q := p.past 1) rfl]
  refine (congrArg (Builds _ _ _) (run_bind hloop)).mpr ?_
  have hnil := build_nil (q.past 1)
  have hsum : 3 * cs.length = 0 + 3 * cs.length := by omega
  rw [run_bind (a := ()) (q := q.past 1) rfl, hsum]
  refine hnil.bind fun t q' ht _ => ?_
  have hempty : IsString q'.rt t [] := ⟨[], ht, .nil⟩
  have hfold := fold_chr cs hempty
  rwa [List.append_nil] at hfold

theorem parseTermStr_overruns {n : Nat} {cs : List Nat} (h : StrText p cs q) (hn : cs.length < n)
    (hcap : literalCap < cs.length) : parseTermStr n p = .error .overrun := by
  obtain ⟨hitems, hclose⟩ := h
  have hloop := parseChars_run hitems hclose hn
  rw [if_neg (by omega)] at hloop
  rw [parseTermStr, run_bind (a := p.s.peek) rfl, run_bind (a := ()) (q := p.past 1) rfl]
  exact error_bind _ hloop

/-! ### Literals of any length -/

/-- The term as `P` says, or an exit that is no write past the end of an array. -/
def Desugars (P : Rt → Term → Prop) (res : Except ParseStop (Term × Parse)) : Prop :=
  (∃ t q, res = .ok (t, q) ∧ P q.rt t) ∨ ∃ e, res = .error e ∧ e ≠ .overrun ∧ e ≠ .fuel

theorem Builds.desugars {k : Nat} {P : Rt → Term → Prop}
    {res : Except ParseStop (Term × Parse)} (h : Builds p k (fun t q => P q.rt t) res) :
    Desugars P res := by
  rcases h with ⟨t, q, hres, -, hP⟩ | ⟨hres, -⟩
  · exact .inl ⟨t, q, hres, hP⟩
  · exact .inr ⟨_, hres, by decide, by decide⟩

theorem not_desugars {P : Rt → Term → Prop} : ¬ Desugars P (.error .overrun) := by
  rintro (⟨t, q, hres, -⟩ | ⟨e, hres, hne, -⟩)
  · cases hres
  · cases hres
    exact hne rfl

/-- A list or string literal is desugared to the chain of its elements if and only if they fit
the array they are collected in. -/
theorem literal_desugars_iff (r : Calls) (depth n : Nat) (p q : Parse) :
    (∀ es, ListText r depth p es q → es.length < n →
      (Desugars (ConChain · · es) (parseTermLst r n depth p) ↔ es.length ≤ literalCap)) ∧
    ∀ cs, StrText p cs q → cs.length < n →
      (Desugars (IsString · · cs) (parseTermStr n p) ↔ cs.length ≤ literalCap) := by
  refine ⟨fun es h hn => ⟨fun hd => ?_, fun hcap => ?_⟩, fun cs h hn => ⟨fun hd => ?_, fun hcap => ?_⟩⟩
  · by_contra hcap
    rw [parseTermLst_overruns h hn (by omega)] at hd
    exact not_desugars hd
  · obtain ⟨s, hb⟩ := parseTermLst_builds h hn hcap
    exact hb.desugars
  · by_contra hcap
    rw [parseTermStr_overruns h hn (by omega)] at hd
    exact not_desugars hd
  · exact (parseTermStr_builds h hn hcap).desugars

/-- A string of `k` letters `a`. -/
def letters (k : Nat) : Text := byte '"' :: (List.replicate k (byte 'a') ++ [byte '"'])

theorem letters_text (k : Nat) {p : Parse} (h : p.s.rest = letters k) :
    StrText p (List.replicate k 97) (p.past (k + 1)) := by
  have hpeek : p.s.peek = byte '"' := peek_rest h
  have hitems (i j : Nat) (q : Parse)
      (hq : q.s.rest = List.replicate i (byte 'a') ++ [byte '"']) (hj : q.past i = p.past j) :
      Items (Character (byte '"')) q (List.replicate i 97) (p.past j) := by
    induction i generalizing q with
    | zero =>
      have hqp : q = p.past j := hj
      rw [hqp]
      exact .nil _
    | succ i ih =>
      have hesc : parseCharEsc q = .ok (97, q.past 1) :=
        parseCharEsc_plain (c := 97) (by decide) (by decide) (by decide) hq
      refine .cons ⟨?_, hesc⟩ (ih (q.past 1) ?_ ?_)
      · rw [peek_rest (p := q) hq]
        decide
      · rw [rest_past, hq]
        rfl
      · rw [past_past, ← hj, Nat.add_comm]
  refine ⟨?_, ?_⟩
  · rw [hpeek]
    refine hitems k (k + 1) (p.past 1) ?_ ?_
    · rw [rest_past, h]
      rfl
    · rw [past_past, Nat.add_comm]
  · rw [hpeek]
    refine peek_past ?_
    rw [h, letters, List.getElem?_cons_succ, List.getElem?_append_right (by simp)]
    simp

/-- The parser at the start of a text. -/
def atText (src : Text) : Parse where
  s := ⟨[], src, 1, 1⟩
  table := []
  rt := ⟨fun _ => .tm Term.zero, 1, 0, 0, []⟩
  book := fun _ => 0
  binds := []
  freshLab := parseFreshBase
  forkSide := none
  seenFiles := []
  labels := []
  forks := []

theorem one_letter_desugars :
    Desugars (IsString · · [97]) (parseTermStr 2 (atText (letters 1))) :=
  ((literal_desugars_iff (calls 0) 0 2 (atText (letters 1)) ((atText (letters 1)).past 2)).2 [97]
    (letters_text 1 rfl) (by decide)).mpr (by decide)

/-- The array of a string is overrun by its 4097th character. -/
theorem letters_overrun :
    ¬ Desugars (IsString · · (List.replicate 4097 97)) (parseTermStr 4098 (atText (letters 4097))) := by
  have htext := letters_text 4097 (p := atText (letters 4097)) rfl
  have hlen : (List.replicate 4097 97).length = 4097 := List.length_replicate
  rw [parseTermStr_overruns htext (by rw [hlen]; decide) (by rw [hlen]; decide)]
  exact not_desugars

end Hvm
