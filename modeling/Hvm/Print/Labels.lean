import Hvm.Infix.Atom
import Hvm.Parse.Lists
import Hvm.Print.Term

/-! Static labels and stuck names: `print_name` writes a number in base 64 and
`parse_name_num` reads it. -/

namespace Hvm

open Infix

variable {p : Parse} {b name more rest : Text} {c : UInt8} {d k n : Nat}

/-- The number that the loop of `parse_name_num` makes of a name, from `k` on. -/
def nameValue (k : Nat) (name : Text) : Nat :=
  name.foldl (fun k c => 64 * k + (nickLetterToB64 c).getD 0) k

theorem alphabet_of_letter : ∀ c, (nickLetterToB64 c).all (fun d => d < 64 && nickAlphabet d == c) = true := by
  decide +kernel

theorem letter_of_alphabet : ∀ d < 64, nickLetterToB64 (nickAlphabet d) = some d := by
  decide

theorem exists_letter (h : nickIsChar c = true) :
    ∃ d, nickLetterToB64 c = some d ∧ d < 64 ∧ nickAlphabet d = c := by
  obtain ⟨d, hd⟩ := Option.isSome_iff_exists.mp h
  have hall := alphabet_of_letter c
  rw [hd, Option.all_some, Bool.and_eq_true, decide_eq_true_eq, beq_iff_eq] at hall
  exact ⟨d, hd, hall⟩

theorem printName_digit (hd : d < 64) : printName d = [nickAlphabet d] := by
  rw [printName, if_pos hd]

theorem printName_step (hk : 0 < k) (hd : d < 64) :
    printName (64 * k + d) = printName k ++ [nickAlphabet d] := by
  rw [printName, if_neg (by omega)]
  have hdiv : (64 * k + d) / 64 = k := by omega
  have hmod : (64 * k + d) % 64 = d := by omega
  rw [hdiv, hmod]

/-- A name behind the digits of `k` prints as it stands. -/
theorem printName_value (hname : ∀ c ∈ name, nickIsChar c = true) (hk : 0 < k) :
    printName (nameValue k name) = printName k ++ name := by
  induction name generalizing k with
  | nil => exact (List.append_nil _).symm
  | cons c cs ih =>
    obtain ⟨d, hd, hlt, hc⟩ := exists_letter (hname c List.mem_cons_self)
    have hstep : nameValue k (c :: cs) = nameValue (64 * k + d) cs := by
      rw [nameValue, List.foldl_cons, hd]
      rfl
    rw [hstep, ih (fun x hx => hname x (List.mem_cons_of_mem c hx)) (by omega), printName_step hk hlt, hc,
      List.append_assoc]
    rfl

/-- Leading underscores are no part of a name, so a name is told by its number. -/
theorem printName_nameValue (hn : Infix.IsName name) : printName (nameValue 0 name) = name := by
  obtain ⟨c, cs, rfl, hinit, hcs⟩ := hn
  obtain ⟨d, hd, hlt, hc⟩ := exists_letter (char_of_init hinit)
  have hpos := (nickLetter_of_init hinit).1
  rw [hd, Option.getD_some] at hpos
  have hstep : nameValue 0 (c :: cs) = nameValue d cs := by
    rw [nameValue, List.foldl_cons, hd, Nat.mul_zero, Nat.zero_add]
    rfl
  rw [hstep, printName_value hcs hpos, printName_digit hlt, hc]
  rfl

theorem nameValue_printName (n : Nat) : nameValue 0 (printName n) = n := by
  induction n using Nat.strong_induction_on with
  | h n ih =>
    by_cases hn : n < 64
    · rw [printName_digit hn, nameValue, List.foldl_cons, letter_of_alphabet n hn]
      exact Nat.zero_add n
    · have hmod : n % 64 < 64 := Nat.mod_lt n (by decide)
      have ih := ih (n / 64) (by omega)
      rw [nameValue] at ih
      rw [printName, if_neg hn, nameValue, List.foldl_append, ih, List.foldl_cons,
        letter_of_alphabet _ hmod]
      exact Nat.div_add_mod n 64

theorem le_nameValue (k : Nat) (name : Text) : k ≤ nameValue k name := by
  induction name generalizing k with
  | nil => exact Nat.le_refl k
  | cons c cs ih =>
    have hh := ih (64 * k + (nickLetterToB64 c).getD 0)
    rw [nameValue, List.foldl_cons]
    rw [nameValue] at hh
    omega

/-! ### The loop of `parse_name_num` -/

theorem nameNumChar_eq (hc : nickIsChar c = true) (k : Nat) (p : Parse) :
    nameNumChar k c p = if extMask < nameValue k [c] then .error (.nameTooLong p.s (nameValue k [c]))
      else .ok (nameValue k [c], { p with s := p.s.advance }) := by
  obtain ⟨d, hd, hlt, -⟩ := exists_letter hc
  have hval : k <<< 6 ||| (nickLetterToB64 c).getD 0 = nameValue k [c] := by
    rw [hd, Option.getD_some, ← Nat.shiftLeft_add_eq_or_of_lt hlt, Nat.shiftLeft_eq, nameValue,
      List.foldl_cons, hd, Nat.mul_comm]
    rfl
  rw [nameNumChar, hval]
  by_cases hlong : extMask < nameValue k [c]
  · rw [if_pos hlong]
    refine error_bind _ ?_
    rw [stopIf, run_bind (a := p) (q := p) rfl, if_pos (decide_eq_true hlong)]
    rfl
  · rw [if_neg hlong, run_bind (stopIf_run p (decide_eq_false hlong))]
    rfl

/-- The loop reads a name whose number fits, and stops at the first digit with which it does not. -/
theorem nameLoop_eq (hname : ∀ c ∈ name, nickIsChar c = true) (k : Nat) (p : Parse) :
    (nameValue k name ≤ extMask ∧
      name.foldlM nameNumChar k p = .ok (nameValue k name, { p with s := p.s.advanceBy name.length })) ∨
    (k ≤ extMask → ∃ pre s, pre <+: name ∧ extMask < nameValue k pre ∧
      name.foldlM nameNumChar k p = .error (.nameTooLong s (nameValue k pre))) := by
  induction name generalizing k p with
  | nil =>
    by_cases hk : k ≤ extMask
    · exact .inl ⟨hk, rfl⟩
    · exact .inr fun h => absurd h hk
  | cons c cs ih =>
    have hturn := nameNumChar_eq (hname c List.mem_cons_self) k p
    have hpre (pre : Text) : nameValue k (c :: pre) = nameValue (nameValue k [c]) pre := rfl
    rw [List.foldlM_cons]
    by_cases hlong : extMask < nameValue k [c]
    · rw [if_pos hlong] at hturn
      exact .inr fun _ => ⟨[c], p.s, ⟨cs, rfl⟩, hlong, error_bind _ hturn⟩
    · rw [if_neg hlong] at hturn
      rw [run_bind hturn, hpre]
      rcases ih (fun x hx => hname x (List.mem_cons_of_mem c hx)) (nameValue k [c])
        { p with s := p.s.advance } with ⟨hle, hrun⟩ | hrun
      · exact .inl ⟨hle, hrun⟩
      · refine .inr fun _ => ?_
        obtain ⟨pre, s, hp, hgt, hrun⟩ := hrun (Nat.le_of_not_lt hlong)
        exact ⟨c :: pre, s, List.cons_prefix_cons.mpr ⟨rfl, hp⟩, hgt, hrun⟩

/-- `parse_name_num` on a name: what `print_name` writes as that name, or an error with the
number of a prefix. -/
theorem parseNameNum_eq (hn : Infix.IsName name) (hb : Blank b) (hp : p.s.rest = b ++ (name ++ more))
    (hmore : Skips more rest) (hend : ∀ c ∈ more.head?, nickIsChar c = false) :
    (nameValue 0 name ≤ extMask ∧ ∃ q, parseNameNum p = .ok (nameValue 0 name, q) ∧ q.s.rest = rest) ∨
    ∃ pre s, pre <+: name ∧ extMask < nameValue 0 pre ∧
      parseNameNum p = .error (.nameTooLong s (nameValue 0 pre)) := by
  have hchars := takeWhile_stop hn.chars hend
  have hloop := nameLoop_eq hn.chars 0 (skipped p)
  obtain ⟨c, cs, rfl, hc, -⟩ := hn
  have hrest : (skipped p).s.rest = c :: (cs ++ more) :=
    Skips.skipped ⟨b, hb, hp, stops_char (char_of_init hc)⟩
  have hinit : stopIf (!nickIsInit (skipped p).s.peek) (parseError (utf8 "name")) (skipped p) =
      .ok ((), skipped p) := by
    refine stopIf_run _ ?_
    rw [peek_cons hrest, hc]
    rfl
  have hname : (skipped p).s.rest.takeWhile nickIsChar = c :: cs := by
    rw [hrest]
    exact hchars
  have hrun : parseNameNum p = (do
      let k ← (c :: cs).foldlM nameNumChar 0
      parseSkip
      return k) (skipped p) := by
    rw [parseNameNum, skip_bind, peek_bind, run_bind hinit, run_bind (a := skipped p) (q := skipped p) rfl,
      hname]
  rw [hrun]
  rcases hloop with ⟨hle, hloop⟩ | hloop
  · refine .inl ⟨hle, _, by rw [run_bind hloop, skip_bind]; rfl, ?_⟩
    have hskips : Skips ((skipped p).s.advanceBy (c :: cs).length).rest rest := by
      rw [rest_advanceBy, hrest, ← List.cons_append, List.drop_left]
      exact hmore
    exact Skips.skipped (p := { skipped p with s := (skipped p).s.advanceBy (c :: cs).length }) hskips
  · obtain ⟨pre, s, hpre, hgt, hloop⟩ := hloop (Nat.zero_le _)
    exact .inr ⟨pre, s, hpre, hgt, error_bind _ hloop⟩

/-- A name is read as the number that `print_name` writes as that name, up to the characters
behind it; where there is none of 18 bits, the error has a number that prints as a prefix. -/
theorem parseNameNum_inverse (hn : Infix.IsName name) (hb : Blank b)
    (hp : p.s.rest = b ++ (name ++ more)) (hmore : Skips more rest)
    (hend : ∀ c ∈ more.head?, nickIsChar c = false) :
    (∀ n, (∃ q, parseNameNum p = .ok (n, q) ∧ q.s.rest = rest) ↔ n ≤ extMask ∧ printName n = name) ∧
    ((∀ n ≤ extMask, printName n ≠ name) →
      ∃ s k, parseNameNum p = .error (.nameTooLong s k) ∧ extMask < k ∧ printName k <+: name) := by
  have hback := printName_nameValue hn
  rcases parseNameNum_eq hn hb hp hmore hend with ⟨hle, q, hrun, hq⟩ | ⟨pre, s, hpre, hgt, hrun⟩
  · constructor
    · intro n
      constructor
      · rintro ⟨q', hrun', -⟩
        rw [hrun] at hrun'
        obtain ⟨rfl, -⟩ := Prod.mk.inj (Except.ok.inj hrun')
        exact ⟨hle, hback⟩
      · rintro ⟨-, rfl⟩
        rw [nameValue_printName] at hrun
        exact ⟨q, hrun, hq⟩
    · intro hnone
      exact absurd hback (hnone _ hle)
  · have hpos : pre ≠ [] := by
      rintro rfl
      exact absurd hgt (Nat.not_lt_zero _)
    have hprename : Infix.IsName pre := by
      obtain ⟨c, cs, rfl, hc, hcs⟩ := hn
      obtain ⟨x, xs, rfl⟩ := List.exists_cons_of_ne_nil hpos
      obtain ⟨rfl, hxs⟩ := List.cons_prefix_cons.mp hpre
      exact ⟨x, xs, rfl, hc, fun y hy => hcs y (hxs.subset hy)⟩
    constructor
    · intro n
      constructor
      · rintro ⟨q', hrun', -⟩
        rw [hrun] at hrun'
        cases hrun'
      · rintro ⟨hle, rfl⟩
        obtain ⟨post, hpost⟩ := hpre
        have hmono := le_nameValue (nameValue 0 pre) post
        have hwhole : nameValue (nameValue 0 pre) post = nameValue 0 (printName n) := by
          rw [← hpost, nameValue, nameValue, nameValue, List.foldl_append]
        rw [hwhole, nameValue_printName] at hmono
        omega
    · intro _
      refine ⟨s, nameValue 0 pre, hrun, hgt, ?_⟩
      rw [printName_nameValue hprename]
      exact hpre

/-- `ab)` is the label 66, and prints as `ab` again. -/
theorem parseNameNum_inverse_ab :
    ∃ q, parseNameNum (atText [97, 98, 41]) = .ok (66, q) ∧ q.s.rest = [41] := by
  have hn : Infix.IsName [97, 98] := ⟨97, [98], rfl, by decide, fun x hx => by
    obtain rfl := List.mem_singleton.mp hx
    rfl⟩
  have hs : Skips [41] [41] := (stops_cons (by decide) (by decide)).skips
  have hp : (atText [97, 98, 41]).s.rest = [] ++ ([97, 98] ++ [41]) := rfl
  have hprint : printName (64 * 1 + 2) = [97] ++ [98] := by
    rw [printName_step (by decide) (by decide), printName_digit (by decide)]
    rfl
  have hend : ∀ c ∈ ([41] : Text).head?, nickIsChar c = false := fun c hc => by
    obtain rfl := Option.some.inj hc
    rfl
  exact ((parseNameNum_inverse hn .nil hp hs hend).1 66).mpr ⟨by decide, hprint⟩

end Hvm
