import Hvm.Parse.Lists
import Hvm.Print.Term

/-! Strings and characters as they are printed, and their text as it is parsed. -/

namespace Hvm

open Effect

/-- What is written for a code point that can be printed. -/
def escText (mode : PrintEsc) (c : Nat) : Text := (printUtf8Escape c mode).getD []

/-- The quote around a literal, and the character it is escaped as. -/
def PrintEsc.quote : PrintEsc → UInt8
  | .char => byte '\''
  | .str => byte '"'

/-! ### Reading an escape back -/

theorem canEscape_le {c : Nat} {mode : PrintEsc} (h : printUtf8CanEscape c mode = true) :
    c ≤ 0x10FFFF := by
  by_contra hc
  rw [printUtf8CanEscape, if_pos (by omega)] at h
  cases h

/-- An escaped code point is written with a backslash and a character that stands for it, any
other one plainly, with its first byte neither a backslash nor the quote. -/
theorem escText_cases {c : Nat} {mode : PrintEsc} (h : printUtf8CanEscape c mode = true) :
    (∃ k, escText mode c = [byte '\\', k] ∧ k ≠ 0 ∧ charEsc k = c) ∨
      escText mode c = printUtf8 c ∧ c ≠ 0 ∧ c ≠ 92 ∧ c ≠ mode.quote.toNat := by
  have hb : (!printUtf8CanEscape c mode) = false := by rw [h]; rfl
  unfold escText printUtf8Escape
  rw [hb]
  by_cases h10 : c = 10
  · exact .inl ⟨byte 'n', by rw [h10]; rfl, by decide, by rw [h10]; rfl⟩
  by_cases h9 : c = 9
  · exact .inl ⟨byte 't', by rw [h9]; rfl, by decide, by rw [h9]; rfl⟩
  by_cases h13 : c = 13
  · exact .inl ⟨byte 'r', by rw [h13]; rfl, by decide, by rw [h13]; rfl⟩
  by_cases h0 : c = 0
  · exact .inl ⟨byte '0', by rw [h0]; rfl, by decide, by rw [h0]; rfl⟩
  by_cases h92 : c = 92
  · exact .inl ⟨byte '\\', by rw [h92]; rfl, by decide, by rw [h92]; rfl⟩
  by_cases h39 : c = 39 ∧ mode = .char
  · obtain ⟨rfl, rfl⟩ := h39
    exact .inl ⟨byte '\'', rfl, by decide, rfl⟩
  by_cases h34 : c = 34 ∧ mode = .str
  · obtain ⟨rfl, rfl⟩ := h34
    exact .inl ⟨byte '"', rfl, by decide, rfl⟩
  right
  rw [if_neg (by decide), if_neg h10, if_neg h9, if_neg h13, if_neg h0, if_neg h92, if_neg h39,
    if_neg h34]
  refine ⟨rfl, h0, h92, fun hq => ?_⟩
  cases mode with
  | char => exact h39 ⟨hq, rfl⟩
  | str => exact h34 ⟨hq, rfl⟩

theorem quote_eq (mode : PrintEsc) : mode.quote = UInt8.ofNat mode.quote.toNat := by
  cases mode <;> rfl

variable {p : Parse} {more : Text} {c : Nat} {mode : PrintEsc}

theorem parseCharEsc_esc (h : printUtf8CanEscape c mode = true)
    (hrest : p.s.rest = escText mode c ++ more) :
    p.s.peek ≠ mode.quote ∧ parseCharEsc p = .ok (c, p.past (escText mode c).length) := by
  have hle := canEscape_le h
  rcases escText_cases h with ⟨k, htext, hk, hval⟩ | ⟨htext, h0, h92, hq⟩
  · rw [htext] at hrest ⊢
    have hpeek : p.s.peek = byte '\\' := peek_rest hrest
    refine ⟨?_, by rw [parseCharEsc_escape hk hrest, hval]; rfl⟩
    rw [hpeek]
    cases mode <;> decide
  · rw [htext] at hrest ⊢
    obtain ⟨b, bs, hb, -⟩ := printUtf8_head c
    have hpeek : p.s.peek = b := peek_rest (by rw [hrest, hb, List.cons_append])
    have hlt : mode.quote.toNat < 0x80 := by cases mode <;> decide
    refine ⟨?_, parseCharEsc_plain (by omega) h0 h92 hrest⟩
    rw [hpeek, quote_eq]
    exact head_ne (by omega) hlt hq hb

/-! ### The text of a string -/

/-- The characters between the quotes. -/
def strText (cs : List Nat) : Text := cs.flatMap (escText .str)

theorem strText_items {cs : List Nat} (hcs : ∀ c ∈ cs, printUtf8CanEscape c .str = true)
    (hrest : p.s.rest = strText cs ++ more) :
    Items (Character (byte '"')) p cs (p.past (strText cs).length) := by
  induction cs generalizing p with
  | nil => exact .nil p
  | cons c cs ih =>
    have hsplit : strText (c :: cs) = escText .str c ++ strText cs := rfl
    rw [hsplit, List.append_assoc] at hrest
    obtain ⟨hpeek, hesc⟩ := parseCharEsc_esc (hcs c (by simp)) hrest
    have hrest' : (p.past (escText .str c).length).s.rest = strText cs ++ more := by
      rw [rest_past, hrest, List.drop_left]
    have hitems := ih (fun c hc => hcs c (List.mem_cons_of_mem _ hc)) hrest'
    rw [past_past, ← List.length_append, ← hsplit] at hitems
    exact .cons ⟨hpeek, hesc⟩ hitems

theorem strText_parses {cs : List Nat} (hcs : ∀ c ∈ cs, printUtf8CanEscape c .str = true)
    (hlen : cs.length ≤ literalCap) {n : Nat} (hn : cs.length < n)
    (hrest : p.s.rest = byte '"' :: (strText cs ++ byte '"' :: more)) :
    Builds (p.past ((strText cs).length + 2)) (3 * cs.length) (fun t q => IsString q.rt t cs)
      (parseTermStr n p) := by
  have hrest1 : (p.past 1).s.rest = strText cs ++ byte '"' :: more := by
    rw [rest_past, hrest]
    rfl
  have hpeek : p.s.peek = byte '"' := peek_rest hrest
  have hitems := strText_items hcs hrest1
  rw [past_past] at hitems
  have hclose : (p.past (1 + (strText cs).length)).s.peek = byte '"' := by
    refine peek_past ?_
    rw [hrest, Nat.add_comm, List.getElem?_cons_succ, List.getElem?_append_right (Nat.le_refl _),
      Nat.sub_self]
    rfl
  have htext : StrText p cs (p.past (1 + (strText cs).length)) := by
    rw [StrText, hpeek]
    exact ⟨hitems, hclose⟩
  have hbuild := parseTermStr_builds htext hn hlen
  rw [past_past] at hbuild
  have hsum : 1 + (strText cs).length + 1 = (strText cs).length + 2 := by omega
  rwa [hsum] at hbuild

theorem chrText_parses (h : printUtf8CanEscape c .char = true)
    (hrest : p.s.rest = byte '\'' :: (escText .char c ++ byte '\'' :: more)) :
    Builds (p.past ((escText .char c).length + 2)) 1 (fun t q => IsChr q.rt t c) (parseTermChr p) := by
  have hrest1 : (p.past 1).s.rest = escText .char c ++ byte '\'' :: more := by
    rw [rest_past, hrest]
    rfl
  obtain ⟨-, hesc⟩ := parseCharEsc_esc h hrest1
  have hlit := parseCharLit_quoted hrest hesc
  rw [parseTermChr, run_bind hlit]
  exact build_chr c _

/-! ### Printing a string -/

section Print

variable {rt : Rt} {t : Term} {es : List Term} {cs : List Nat} {fuel : Nat}

theorem IsChr.code {e : Term} (h : IsChr rt e c) (hc : c ≤ 0x10FFFF) :
    (heapRead rt e.val).tag = .num ∧ chrCode rt e = c := by
  obtain ⟨-, -, hread, -⟩ := h
  rw [chrCode, hread]
  exact ⟨rfl, Nat.mod_eq_of_lt (show c < 2 ^ 32 by omega)⟩

theorem isStr_chain (h : ConChain rt t es) (hchr : List.Forall₂ (IsChr rt) es cs)
    (hcs : ∀ c ∈ cs, printUtf8CanEscape c .str = true) (hfuel : es.length < fuel) :
    isStr rt fuel t = .ok true := by
  induction h generalizing cs fuel with
  | nil =>
    cases fuel with
    | zero => exact absurd hfuel (Nat.not_lt_zero _)
    | succ fuel => rfl
  | @cons t e t' es htag hext he ht _ _ ih =>
    cases fuel with
    | zero => exact absurd hfuel (Nat.not_lt_zero _)
    | succ fuel =>
      cases hchr with
      | @cons _ c _ cs hc hchr =>
        have hesc := hcs c (by simp)
        obtain ⟨hnum, hcode⟩ := hc.code (canEscape_le hesc)
        have hnext := ih hchr (fun c hc => hcs c (List.mem_cons_of_mem _ hc))
          (Nat.lt_of_succ_lt_succ hfuel)
        simp only [isStr, htag, hext, he, ht, hc.1, hc.2.1, hnum, hcode, hesc, hnext, and_self,
          not_true, if_true, if_false, ne_eq, Bool.not_true, Bool.false_eq_true]

theorem conEnd_chain (h : ConChain rt t es) (hfuel : es.length < fuel) :
    conEnd rt fuel t = .ok (termNew false (.ctr 0) symNil 0) := by
  induction h generalizing fuel with
  | nil =>
    cases fuel with
    | zero => exact absurd hfuel (Nat.not_lt_zero _)
    | succ fuel => rfl
  | cons htag hext he ht _ _ ih =>
    cases fuel with
    | zero => exact absurd hfuel (Nat.not_lt_zero _)
    | succ fuel =>
      rw [conEnd, if_pos ⟨htag, hext⟩, ht]
      exact ih (Nat.lt_of_succ_lt_succ hfuel)

theorem printStr_chain (h : ConChain rt t es) (hchr : List.Forall₂ (IsChr rt) es cs)
    (hcs : ∀ c ∈ cs, c ≤ 0x10FFFF) (hfuel : es.length < fuel) :
    printStr rt fuel t = .ok (strText cs) := by
  induction h generalizing cs fuel with
  | nil =>
    cases fuel with
    | zero => exact absurd hfuel (Nat.not_lt_zero _)
    | succ fuel =>
      cases hchr
      rfl
  | @cons t e t' es htag hext he ht _ _ ih =>
    cases fuel with
    | zero => exact absurd hfuel (Nat.not_lt_zero _)
    | succ fuel =>
      cases hchr with
      | @cons _ c _ cs hc hchr =>
        obtain ⟨-, hcode⟩ := hc.code (hcs c (by simp))
        have hnext := ih hchr (fun c hc => hcs c (List.mem_cons_of_mem _ hc))
          (Nat.lt_of_succ_lt_succ hfuel)
        rw [printStr, if_pos htag, ht, hnext, he, hcode]
        rfl

theorem printCtr_string (at_ : Term → Except PrintStop Text) (table : List Text)
    (h : IsString rt t cs) (hne : cs ≠ []) (hcs : ∀ c ∈ cs, printUtf8CanEscape c .str = true)
    (hfuel : cs.length < fuel) :
    printCtr at_ table rt fuel t 2 = .ok (byte '"' :: (strText cs ++ [byte '"'])) := by
  obtain ⟨es, hes, hchr⟩ := h
  have hlen := hchr.length_eq
  have hstr := isStr_chain hes hchr hcs (by omega : es.length < fuel)
  have hend := conEnd_chain hes (by omega : es.length < fuel)
  have hbody := printStr_chain hes hchr (fun c hc => canEscape_le (hcs c hc))
    (by omega : es.length < fuel)
  have hext : t.ext = symCon := by
    cases hes with
    | nil =>
      cases hchr
      exact absurd rfl hne
    | cons _ hext => exact hext
  have hnat : ¬ (t.ext = symZer ∨ t.ext = symSuc) := by rw [hext]; decide
  have hchr : printChr rt t 2 = none := if_neg fun h => absurd h.2.1 (by decide)
  have hcon : printCon at_ rt fuel t = .ok (some (byte '"' :: (strText cs ++ [byte '"']))) := by
    rw [printCon, if_pos hext, hstr, hend, hbody]
    rfl
  rw [printCtr, if_neg hnat, hchr]
  simp only [hext, hcon, or_true, if_true]
  rfl

theorem printCtr_chr (at_ : Term → Except PrintStop Text) (table : List Text)
    (h : IsChr rt t c) (hc : printUtf8CanEscape c .char = true) :
    printCtr at_ table rt fuel t 1 = .ok (byte '\'' :: (escText .char c ++ [byte '\''])) := by
  obtain ⟨hnum, hcode⟩ := h.code (canEscape_le hc)
  have hnat : ¬ (t.ext = symZer ∨ t.ext = symSuc) := by rw [h.2.1]; decide
  have hchr : printChr rt t 1 = some (byte '\'' :: (escText .char c ++ [byte '\''])) := by
    rw [printChr, if_pos ⟨h.2.1, rfl, hnum, by rw [hcode]; exact hc⟩, hcode]
    rfl
  rw [printCtr, if_neg hnat, hchr]
  rfl

theorem IsChr.inj {e : Term} {c' : Nat} (h : IsChr rt e c) (h' : IsChr rt e c') : c = c' := by
  have hnum := h.2.2.1.symm.trans h'.2.2.1
  exact congrArg Term.val hnum

theorem IsString.inj {cs' : List Nat} (h : IsString rt t cs) (h' : IsString rt t cs') :
    cs = cs' := by
  obtain ⟨es, hes, hcs⟩ := h
  obtain ⟨es', hes', hcs'⟩ := h'
  obtain rfl := hes.inj hes'
  clear hes hes'
  induction hcs generalizing cs' with
  | nil =>
    cases hcs'
    rfl
  | cons hc _ ih =>
    cases hcs' with
    | cons hc' hcs' => rw [hc.inj hc', ih hcs']

end Print

/-! ### Round trips -/

/-- What is printed for a string or a character is read back as its code points, up to the
closing quote. -/
theorem codec_round_trip :
    (∀ cs : List Nat, cs.length ≤ literalCap → (∀ c ∈ cs, printUtf8CanEscape c .str = true) →
      (∀ (at_ : Term → Except PrintStop Text) (table : List Text) (rt : Rt) (t : Term) (fuel : Nat),
        IsString rt t cs → cs ≠ [] → cs.length < fuel →
        printCtr at_ table rt fuel t 2 = .ok (byte '"' :: (strText cs ++ [byte '"']))) ∧
      ∀ (p : Parse) (more : Text) (n : Nat), cs.length < n →
        p.s.rest = byte '"' :: (strText cs ++ byte '"' :: more) →
        Builds (p.past ((strText cs).length + 2)) (3 * cs.length)
          (fun t q => q.s.rest = more ∧ IsString q.rt t cs ∧ ∀ cs', IsString q.rt t cs' → cs' = cs)
          (parseTermStr n p)) ∧
    ∀ c, printUtf8CanEscape c .char = true →
      (∀ (at_ : Term → Except PrintStop Text) (table : List Text) (rt : Rt) (t : Term) (fuel : Nat),
        IsChr rt t c →
        printCtr at_ table rt fuel t 1 = .ok (byte '\'' :: (escText .char c ++ [byte '\'']))) ∧
      ∀ (p : Parse) (more : Text),
        p.s.rest = byte '\'' :: (escText .char c ++ byte '\'' :: more) →
        Builds (p.past ((escText .char c).length + 2)) 1
          (fun t q => q.s.rest = more ∧ IsChr q.rt t c ∧ ∀ c', IsChr q.rt t c' → c' = c)
          (parseTermChr p) := by
  have hstop {text more : Text} {b : UInt8} {p q : Parse} {k : Nat}
      (hrest : p.s.rest = b :: (text ++ b :: more)) (h : Appended (p.past (text.length + 2)) q k) :
      q.s.rest = more := by
    rw [h.cursor, rest_past, hrest, List.drop_succ_cons, List.drop_append,
      List.drop_eq_nil_of_le (Nat.le_succ _), Nat.add_sub_cancel_left]
    rfl
  refine ⟨fun cs hlen hcs => ⟨fun at_ table rt t fuel h hne hfuel => ?_, fun p more n hn hrest => ?_⟩,
    fun c hc => ⟨fun at_ table rt t fuel h => printCtr_chr at_ table h hc, fun p more hrest => ?_⟩⟩
  · exact printCtr_string at_ table h hne hcs hfuel
  · rcases strText_parses hcs hlen hn hrest with ⟨t, q, hres, hext, h⟩ | hout
    · exact .inl ⟨t, q, hres, hext, hstop hrest hext, h, fun cs' h' => h'.inj h⟩
    · exact .inr hout
  · rcases chrText_parses hc hrest with ⟨t, q, hres, hext, h⟩ | hout
    · exact .inl ⟨t, q, hres, hext, hstop hrest hext, h, fun c' h' => h'.inj h⟩
    · exact .inr hout

theorem letter_round_trip :
    ∃ t q, parseTermStr 2 (atText (letters 1)) = .ok (t, q) ∧ IsString q.rt t [97] := by
  have hrest : (atText (letters 1)).s.rest = byte '"' :: (strText [97] ++ byte '"' :: []) := by
    decide
  rcases (codec_round_trip.1 [97] (by decide) (by decide)).2 (atText (letters 1)) [] 2 (by decide)
    hrest with ⟨t, q, hres, -, -, h, -⟩ | ⟨-, hcap⟩
  · exact ⟨t, q, hres, h⟩
  · exact absurd hcap (by decide)

end Hvm
