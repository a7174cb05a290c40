import Hvm.Parse.Cursor

/-! Code points as text: the printer's encoding and escapes (`print/utf8.c`) and the parser's
decoding of them. -/

namespace Hvm

open Effect

/-- `print_utf8`, the bytes it writes. -/
def printUtf8 (c : Nat) : Text :=
  if c < 0x80 then
    [UInt8.ofNat c]
  else if c < 0x800 then
    [UInt8.ofNat (0xC0 ||| c >>> 6), UInt8.ofNat (0x80 ||| c &&& 0x3F)]
  else if c < 0x10000 then
    [UInt8.ofNat (0xE0 ||| c >>> 12), UInt8.ofNat (0x80 ||| c >>> 6 &&& 0x3F),
      UInt8.ofNat (0x80 ||| c &&& 0x3F)]
  else
    [UInt8.ofNat (0xF0 ||| c >>> 18), UInt8.ofNat (0x80 ||| c >>> 12 &&& 0x3F),
      UInt8.ofNat (0x80 ||| c >>> 6 &&& 0x3F), UInt8.ofNat (0x80 ||| c &&& 0x3F)]

/-- `PRINT_ESC_CHAR` and `PRINT_ESC_STR`. -/
inductive PrintEsc where
  | char
  | str
  deriving DecidableEq, Repr

def printUtf8CanEscape (c : Nat) (mode : PrintEsc) : Bool :=
  if 0x10FFFF < c then false
  else if 0xD800 ≤ c ∧ c ≤ 0xDFFF then false
  else if c = 10 ∨ c = 9 ∨ c = 13 ∨ c = 0 ∨ c = 92 then true
  else if c = 39 ∧ mode = .char then true
  else if c = 34 ∧ mode = .str then true
  else if c < 0x20 then false
  else if c = 0x7F then false
  else if 0x80 ≤ c ∧ c ≤ 0x9F then false
  else true

/-- `print_utf8_escape`, where it succeeds: the bytes it writes. -/
def printUtf8Escape (c : Nat) (mode : PrintEsc) : Option Text :=
  if !printUtf8CanEscape c mode then none
  else if c = 10 then some [byte '\\', byte 'n']
  else if c = 9 then some [byte '\\', byte 't']
  else if c = 13 then some [byte '\\', byte 'r']
  else if c = 0 then some [byte '\\', byte '0']
  else if c = 92 then some [byte '\\', byte '\\']
  else if c = 39 ∧ mode = .char then some [byte '\\', byte '\'']
  else if c = 34 ∧ mode = .str then some [byte '\\', byte '"']
  else some (printUtf8 c)

/-! ### Characters -/

theorem lead_two : ∀ y < 32, ¬ (UInt8.ofNat (0xC0 ||| y)).toNat < 0x80 ∧
    (UInt8.ofNat (0xC0 ||| y)).toNat &&& 0xE0 = 0xC0 ∧
    (UInt8.ofNat (0xC0 ||| y)).toNat &&& 0x1F = y := by decide

theorem lead_three : ∀ y < 16, ¬ (UInt8.ofNat (0xE0 ||| y)).toNat < 0x80 ∧
    ¬ (UInt8.ofNat (0xE0 ||| y)).toNat &&& 0xE0 = 0xC0 ∧
    (UInt8.ofNat (0xE0 ||| y)).toNat &&& 0xF0 = 0xE0 ∧
    (UInt8.ofNat (0xE0 ||| y)).toNat &&& 0x0F = y := by decide

theorem lead_four : ∀ y < 8, ¬ (UInt8.ofNat (0xF0 ||| y)).toNat < 0x80 ∧
    ¬ (UInt8.ofNat (0xF0 ||| y)).toNat &&& 0xE0 = 0xC0 ∧
    ¬ (UInt8.ofNat (0xF0 ||| y)).toNat &&& 0xF0 = 0xE0 ∧
    (UInt8.ofNat (0xF0 ||| y)).toNat &&& 0xF8 = 0xF0 ∧
    (UInt8.ofNat (0xF0 ||| y)).toNat &&& 0x07 = y := by decide

theorem low_six (x : Nat) : x &&& 0x3F = x % 64 := Nat.and_two_pow_sub_one_eq_mod x 6

theorem next_six (x : Nat) : (UInt8.ofNat (0x80 ||| x &&& 0x3F)).toNat &&& 0x3F = x % 64 := by
  have h : ∀ y < 64, (UInt8.ofNat (0x80 ||| y)).toNat &&& 0x3F = y := by decide
  rw [low_six x]
  exact h (x % 64) (Nat.mod_lt _ (by decide))

theorem shift_or {a b : Nat} (k : Nat) (h : b < 2 ^ k) : a <<< k ||| b = a * 2 ^ k + b := by
  rw [← Nat.shiftLeft_add_eq_or_of_lt h, Nat.shiftLeft_eq]

theorem six_lt (x : Nat) : x % 64 < 2 ^ 6 := Nat.mod_lt x (by decide)

section Decode

variable {p : Parse} {b0 b1 b2 b3 : UInt8} {more : Text}

/-- A continuation byte is read. -/
theorem next_run {n : Nat} (h : p.s.rest[n]? = some b1) :
    (do
      let b := (← parsePeek).toNat
      parseAdvance
      return b &&& 0x3F : Parser Nat) (p.past n) = .ok (b1.toNat &&& 0x3F, p.past (n + 1)) :=
  read_bind h _

theorem left_past (h : p.s.rest = b0 :: more) : (p.past 1).s.rest.length = more.length := by
  rw [rest_past, h]
  rfl

theorem parseUtf8_one (hrest : p.s.rest = b0 :: more) (h0 : b0.toNat < 0x80) :
    parseUtf8 p = .ok (b0.toNat, p.past 1) := by
  have hp : p.s.rest[0]? = some b0 := by rw [hrest]; rfl
  rw [parseUtf8]
  refine (read_bind (p := p) (n := 0) hp _).trans ?_
  rw [run_bind (a := p.past 1) rfl, if_pos h0]
  rfl

theorem parseUtf8_two (hrest : p.s.rest = b0 :: b1 :: more) (h0 : ¬ b0.toNat < 0x80)
    (h1 : b0.toNat &&& 0xE0 = 0xC0) :
    parseUtf8 p = .ok ((b0.toNat &&& 0x1F) <<< 6 ||| b1.toNat &&& 0x3F, p.past 2) := by
  have hp : p.s.rest[0]? = some b0 := by rw [hrest]; rfl
  have hp1 : p.s.rest[1]? = some b1 := by rw [hrest]; rfl
  have hleft := left_past hrest
  rw [List.length_cons] at hleft
  rw [parseUtf8]
  refine (read_bind (p := p) (n := 0) hp _).trans ?_
  rw [run_bind (a := p.past 1) rfl, if_neg h0, if_pos ⟨h1, by omega⟩, run_bind (next_run hp1)]
  rfl

theorem parseUtf8_three (hrest : p.s.rest = b0 :: b1 :: b2 :: more) (h0 : ¬ b0.toNat < 0x80)
    (h1 : ¬ b0.toNat &&& 0xE0 = 0xC0) (h2 : b0.toNat &&& 0xF0 = 0xE0) :
    parseUtf8 p = .ok ((b0.toNat &&& 0x0F) <<< 12 ||| (b1.toNat &&& 0x3F) <<< 6 |||
      b2.toNat &&& 0x3F, p.past 3) := by
  have hp : p.s.rest[0]? = some b0 := by rw [hrest]; rfl
  have hp1 : p.s.rest[1]? = some b1 := by rw [hrest]; rfl
  have hp2 : p.s.rest[2]? = some b2 := by rw [hrest]; rfl
  have hleft := left_past hrest
  simp only [List.length_cons] at hleft
  rw [parseUtf8]
  refine (read_bind (p := p) (n := 0) hp _).trans ?_
  rw [run_bind (a := p.past 1) rfl, if_neg h0, if_neg (fun h => h1 h.1), if_pos ⟨h2, by omega⟩,
    run_bind (next_run hp1), run_bind (next_run hp2)]
  rfl

theorem parseUtf8_four (hrest : p.s.rest = b0 :: b1 :: b2 :: b3 :: more) (h0 : ¬ b0.toNat < 0x80)
    (h1 : ¬ b0.toNat &&& 0xE0 = 0xC0) (h2 : ¬ b0.toNat &&& 0xF0 = 0xE0)
    (h3 : b0.toNat &&& 0xF8 = 0xF0) :
    parseUtf8 p = .ok ((b0.toNat &&& 0x07) <<< 18 ||| (b1.toNat &&& 0x3F) <<< 12 |||
      (b2.toNat &&& 0x3F) <<< 6 ||| b3.toNat &&& 0x3F, p.past 4) := by
  have hp : p.s.rest[0]? = some b0 := by rw [hrest]; rfl
  have hp1 : p.s.rest[1]? = some b1 := by rw [hrest]; rfl
  have hp2 : p.s.rest[2]? = some b2 := by rw [hrest]; rfl
  have hp3 : p.s.rest[3]? = some b3 := by rw [hrest]; rfl
  have hleft := left_past hrest
  simp only [List.length_cons] at hleft
  rw [parseUtf8]
  refine (read_bind (p := p) (n := 0) hp _).trans ?_
  rw [run_bind (a := p.past 1) rfl, if_neg h0, if_neg (fun h => h1 h.1), if_neg (fun h => h2 h.1),
    if_pos ⟨h3, by omega⟩, run_bind (next_run hp1), run_bind (next_run hp2),
    run_bind (next_run hp3)]
  rfl

/-- What is written for a code point is decoded to it. -/
theorem parseUtf8_print {c : Nat} (hc : c < 0x200000) (hrest : p.s.rest = printUtf8 c ++ more) :
    parseUtf8 p = .ok (c, p.past (printUtf8 c).length) := by
  by_cases h1 : c < 0x80
  · rw [printUtf8, if_pos h1] at hrest ⊢
    have hb : (UInt8.ofNat c).toNat = c := Nat.mod_eq_of_lt (by omega)
    rw [parseUtf8_one hrest (by omega), hb]
    rfl
  · by_cases h2 : c < 0x800
    · rw [printUtf8, if_neg h1, if_pos h2] at hrest ⊢
      have hlead := lead_two (c >>> 6) (by rw [Nat.shiftRight_eq_div_pow]; omega)
      rw [parseUtf8_two hrest hlead.1 hlead.2.1, hlead.2.2, next_six,
        shift_or 6 (six_lt c), Nat.shiftRight_eq_div_pow]
      have hsum : c / 2 ^ 6 * 2 ^ 6 + c % 64 = c := by omega
      rw [hsum]
      rfl
    · by_cases h3 : c < 0x10000
      · rw [printUtf8, if_neg h1, if_neg h2, if_pos h3] at hrest ⊢
        have hlead := lead_three (c >>> 12) (by rw [Nat.shiftRight_eq_div_pow]; omega)
        have hlow : (c >>> 6 % 64) <<< 6 ||| c % 64 < 2 ^ 12 := by
          have hc6 := six_lt (c >>> 6)
          rw [shift_or 6 (six_lt c)]
          omega
        rw [parseUtf8_three hrest hlead.1 hlead.2.1 hlead.2.2.1, hlead.2.2.2, next_six, next_six,
          Nat.or_assoc, shift_or 12 hlow, shift_or 6 (six_lt c),
          Nat.shiftRight_eq_div_pow, Nat.shiftRight_eq_div_pow]
        have hsum : c / 2 ^ 12 * 2 ^ 12 + (c / 2 ^ 6 % 64 * 2 ^ 6 + c % 64) = c := by omega
        rw [hsum]
        rfl
      · rw [printUtf8, if_neg h1, if_neg h2, if_neg h3] at hrest ⊢
        have hlead := lead_four (c >>> 18) (by rw [Nat.shiftRight_eq_div_pow]; omega)
        have hlow : (c >>> 6 % 64) <<< 6 ||| c % 64 < 2 ^ 12 := by
          have hc6 := six_lt (c >>> 6)
          rw [shift_or 6 (six_lt c)]
          omega
        have hmid : (c >>> 12 % 64) <<< 12 ||| ((c >>> 6 % 64) <<< 6 ||| c % 64) < 2 ^ 18 := by
          have hc12 := six_lt (c >>> 12)
          rw [shift_or 12 hlow]
          omega
        rw [parseUtf8_four hrest hlead.1 hlead.2.1 hlead.2.2.1 hlead.2.2.2.1, hlead.2.2.2.2,
          next_six, next_six, next_six, Nat.or_assoc, Nat.or_assoc, shift_or 18 hmid,
          shift_or 12 hlow, shift_or 6 (six_lt c), Nat.shiftRight_eq_div_pow,
          Nat.shiftRight_eq_div_pow, Nat.shiftRight_eq_div_pow]
        have hsum : c / 2 ^ 18 * 2 ^ 18 +
            (c / 2 ^ 12 % 64 * 2 ^ 12 + (c / 2 ^ 6 % 64 * 2 ^ 6 + c % 64)) = c := by omega
        rw [hsum]
        rfl

end Decode

/-- The printer's encoding is UTF-8. -/
theorem printUtf8_char (c : Char) : printUtf8 c.toNat = String.utf8EncodeChar c := by
  have hv : c.val.toNat = c.toNat := rfl
  have hle : c.toNat < 0x110000 := by
    have hvalid := c.valid
    simp only [UInt32.isValidChar, Nat.isValidChar, hv] at hvalid
    omega
  have htwo : ∀ y < 32, UInt8.ofNat (0xC0 ||| y) = UInt8.ofNat (y + 0xC0) := by decide
  have hthree : ∀ y < 16, UInt8.ofNat (0xE0 ||| y) = UInt8.ofNat (y + 0xE0) := by decide
  have hfour : ∀ y < 8, UInt8.ofNat (0xF0 ||| y) = UInt8.ofNat (y + 0xF0) := by decide
  have hnext : ∀ y < 64, UInt8.ofNat (0x80 ||| y) = UInt8.ofNat (y + 0x80) := by decide
  have hsix (x : Nat) : UInt8.ofNat (0x80 ||| x &&& 0x3F) = UInt8.ofNat (x % 64 + 0x80) := by
    rw [low_six x, hnext (x % 64) (six_lt x)]
  unfold printUtf8 String.utf8EncodeChar
  simp only [hsix, Nat.shiftRight_eq_div_pow]
  rw [hv]
  by_cases h1 : c.toNat < 0x80
  · rw [if_pos h1, if_pos (show c.toNat ≤ 0x7F by omega)]
  · rw [if_neg h1, if_neg (show ¬ c.toNat ≤ 0x7F by omega)]
    by_cases h2 : c.toNat < 0x800
    · rw [if_pos h2, if_pos (show c.toNat ≤ 0x7FF by omega), htwo _ (by omega)]
      have hmod : c.toNat / 2 ^ 6 = c.toNat / 64 % 32 := by omega
      rw [hmod]
    · rw [if_neg h2, if_neg (show ¬ c.toNat ≤ 0x7FF by omega)]
      by_cases h3 : c.toNat < 0x10000
      · rw [if_pos h3, if_pos (show c.toNat ≤ 0xFFFF by omega), hthree _ (by omega)]
        have hmod : c.toNat / 2 ^ 12 = c.toNat / 4096 % 16 := by omega
        rw [hmod]
      · rw [if_neg h3, if_neg (show ¬ c.toNat ≤ 0xFFFF by omega), hfour _ (by omega)]
        have hmod : c.toNat / 2 ^ 18 = c.toNat / 262144 % 8 := by omega
        rw [hmod]

/-! ### Escapes -/

/-- A code point is written as its own byte, or with a first byte that is none. -/
theorem printUtf8_head (c : Nat) : ∃ b bs, printUtf8 c = b :: bs ∧
    (c < 0x80 ∧ b = UInt8.ofNat c ∨ 0x80 ≤ c ∧ (c < 0x200000 → 0xC0 ≤ b.toNat)) := by
  have htwo : ∀ y < 32, 0xC0 ≤ (UInt8.ofNat (0xC0 ||| y)).toNat := by decide
  have hthree : ∀ y < 16, 0xC0 ≤ (UInt8.ofNat (0xE0 ||| y)).toNat := by decide
  have hfour : ∀ y < 8, 0xC0 ≤ (UInt8.ofNat (0xF0 ||| y)).toNat := by decide
  unfold printUtf8
  by_cases h1 : c < 0x80
  · exact ⟨_, _, if_pos h1, .inl ⟨h1, rfl⟩⟩
  · rw [if_neg h1]
    by_cases h2 : c < 0x800
    · refine ⟨_, _, if_pos h2, .inr ⟨by omega, fun _ => htwo _ ?_⟩⟩
      rw [Nat.shiftRight_eq_div_pow]
      omega
    · rw [if_neg h2]
      by_cases h3 : c < 0x10000
      · refine ⟨_, _, if_pos h3, .inr ⟨by omega, fun _ => hthree _ ?_⟩⟩
        rw [Nat.shiftRight_eq_div_pow]
        omega
      · refine ⟨_, _, if_neg h3, .inr ⟨by omega, fun hc => hfour _ ?_⟩⟩
        rw [Nat.shiftRight_eq_div_pow]
        omega

/-- The first byte is that of a character of the ASCII range only for this character. -/
theorem head_ne {c k : Nat} (hc : c < 0x200000) (hk : k < 0x80) (hne : c ≠ k) {b : UInt8}
    {bs : Text} (h : printUtf8 c = b :: bs) : b ≠ UInt8.ofNat k := by
  obtain ⟨b', bs', heq, hb⟩ := printUtf8_head c
  rw [h] at heq
  cases heq
  have hkk : (UInt8.ofNat k).toNat = k := Nat.mod_eq_of_lt (by omega)
  intro hbk
  rcases hb with ⟨hlt, rfl⟩ | ⟨_, hge⟩
  · have hcc : (UInt8.ofNat c).toNat = c := Nat.mod_eq_of_lt (by omega)
    exact hne (by rw [← hcc, hbk, hkk])
  · have hge := hge hc
    rw [hbk, hkk] at hge
    omega

section Escape

variable {p : Parse} {more : Text}

/-- A character that is not escaped. -/
theorem parseCharEsc_plain {c : Nat} (hc : c < 0x200000) (h0 : c ≠ 0) (h92 : c ≠ 92)
    (hrest : p.s.rest = printUtf8 c ++ more) :
    parseCharEsc p = .ok (c, p.past (printUtf8 c).length) := by
  obtain ⟨b, bs, hb, -⟩ := printUtf8_head c
  have hb0 : b ≠ 0 := head_ne (k := 0) hc (by decide) h0 hb
  have hb92 : b ≠ byte '\\' := head_ne (k := 92) hc (by decide) h92 hb
  have hpeek : p.s.peek = b := peek_rest (by rw [hrest, hb, List.cons_append])
  rw [parseCharEsc, run_bind (a := p.s.peek) rfl, hpeek, run_bind (stopIf_run p (by simpa using hb0)),
    if_neg hb92]
  exact parseUtf8_print hc hrest

/-- An escape. -/
theorem parseCharEsc_escape {c : UInt8} (h0 : c ≠ 0) (hrest : p.s.rest = byte '\\' :: c :: more) :
    parseCharEsc p = .ok (charEsc c, p.past 2) := by
  have hpeek : p.s.peek = byte '\\' := peek_rest hrest
  have hpeek1 : (p.past 1).s.peek = c := peek_past (by rw [hrest]; rfl)
  rw [parseCharEsc, run_bind (a := p.s.peek) rfl, hpeek, run_bind (stopIf_run p (by decide)),
    if_pos rfl, run_bind (a := ()) (q := p.past 1) rfl, run_bind (a := (p.past 1).s.peek) rfl, hpeek1,
    run_bind (stopIf_run _ (by simpa using h0)), ← past_past p 1 1]
  rfl

/-- A character in quotes, told how it is read between them. -/
theorem parseCharLit_quoted {cs : Text} {n : Nat}
    (hrest : p.s.rest = byte '\'' :: (cs ++ byte '\'' :: more))
    (hesc : parseCharEsc (p.past 1) = .ok (n, (p.past 1).past cs.length)) :
    parseCharLit p = .ok (n, p.past (cs.length + 2)) := by
  have hquote : (p.past (1 + cs.length)).s.peek = byte '\'' := by
    refine peek_past ?_
    rw [hrest, List.getElem?_cons, if_neg (by omega), Nat.add_sub_cancel_left,
      List.getElem?_append_right (Nat.le_refl _), Nat.sub_self]
    rfl
  rw [parseCharLit, run_bind (a := ()) (q := p.past 1) rfl, run_bind hesc, past_past,
    run_bind (a := (p.past (1 + cs.length)).s.peek) rfl, hquote,
    run_bind (stopIf_run _ (by decide)), run_bind (a := ()) (q := (p.past (1 + cs.length)).past 1) rfl,
    past_past]
  have hlen : 1 + cs.length + 1 = cs.length + 2 := by omega
  rw [hlen]
  rfl

end Escape

end Hvm
