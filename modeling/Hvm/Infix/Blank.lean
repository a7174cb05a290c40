import Hvm.Parse.Cursor
import Hvm.Parse.Outcome

/-! Blanks between tokens, and runs of the parser that end once there is fuel enough. -/

namespace Hvm.Infix

open Effect

/-! ### Blanks -/

/-- Whitespace and comments; a comment has its newline. -/
inductive Blank : Text → Prop where
  | nil : Blank []
  | space {c : UInt8} {b : Text} : PState.isSpace c = true → Blank b → Blank (c :: b)
  | comment {line b : Text} : byte '\n' ∉ line → Blank b →
    Blank (byte '/' :: byte '/' :: (line ++ byte '\n' :: b))

/-- At this text `parse_skip` stops. -/
structure Stops (rest : Text) : Prop where
  space : ∀ c ∈ rest.head?, PState.isSpace c = false
  comment : (utf8 "//").isPrefixOf rest = false

/-- A blank, and then `rest`, which is none. -/
def Skips (txt rest : Text) : Prop := ∃ b, Blank b ∧ txt = b ++ rest ∧ Stops rest

variable {s : PState} {b rest txt : Text} {n : Nat}

theorem Skips.stops (h : Skips txt rest) : Stops rest := by
  obtain ⟨_, _, _, hs⟩ := h
  exact hs

theorem Stops.skips (h : Stops rest) : Skips rest rest := ⟨[], .nil, rfl, h⟩

theorem stops_nil : Stops [] where
  space := by
    intro c hc
    cases hc
  comment := by
    rw [utf8_comment]
    rfl

theorem peek_cons {c : UInt8} {cs : Text} (h : s.rest = c :: cs) : s.peek = c := by
  rw [PState.peek, PState.peekAt, h]
  rfl

theorem stops_cons {c : UInt8} {cs : Text} (hsp : PState.isSpace c = false) (hc : c ≠ byte '/') :
    Stops (c :: cs) where
  space := by
    intro c' hc'
    obtain rfl : c = c' := Option.some.inj hc'
    exact hsp
  comment := by
    have hne : (byte '/' == c) = false := by simpa using Ne.symm hc
    rw [utf8_comment, List.isPrefixOf_cons_cons, hne, Bool.false_and]

theorem skipLoop_stops (h : Stops s.rest) : PState.skipLoop n s = s := by
  cases n with
  | zero => rfl
  | succ n =>
    cases hr : s.rest with
    | nil => simp [PState.skipLoop, PState.atEnd, hr]
    | cons c cs =>
      have hsp : PState.isSpace s.peek = false := by
        rw [peek_cons hr]
        exact h.space c (by rw [hr]; rfl)
      have hcm : s.startsWith (utf8 "//") = false := h.comment
      rw [PState.skipLoop, PState.atEnd, hr, hsp, hcm]
      rfl

theorem skip_stops (h : Stops s.rest) : s.skip = s := skipLoop_stops h

theorem takeWhile_line {line : Text} (h : byte '\n' ∉ line) (rest : Text) :
    (line ++ byte '\n' :: rest).takeWhile (· != byte '\n') = line := by
  rw [List.takeWhile_append_of_pos]
  · simp
  · intro c hc
    have hne : c ≠ byte '\n' := fun he => h (he ▸ hc)
    simpa using hne

theorem rest_skipComment {line rest : Text} (h : byte '\n' ∉ line)
    (hr : s.rest = byte '/' :: byte '/' :: (line ++ byte '\n' :: rest)) :
    s.skipComment.rest = byte '\n' :: rest := by
  have hnl : byte '\n' ∉ byte '/' :: byte '/' :: line := by
    intro hm
    rcases List.mem_cons.mp hm with he | hm
    · revert he
      decide
    · rcases List.mem_cons.mp hm with he | hm
      · revert he
        decide
      · exact h hm
  have htake := takeWhile_line hnl rest
  rw [List.cons_append, List.cons_append] at htake
  rw [PState.skipComment, rest_advanceBy, hr, htake, ← List.cons_append, ← List.cons_append,
    List.drop_left]

theorem skipLoop_blank (hb : Blank b) (hrest : Stops rest) (h : s.rest = b ++ rest)
    (hn : s.rest.length ≤ n) : (PState.skipLoop n s).rest = rest := by
  induction hb generalizing s n with
  | nil =>
    rw [List.nil_append] at h
    rw [skipLoop_stops (by rw [h]; exact hrest), h]
  | @space c b hsp _ ih =>
    rw [h, List.cons_append, List.length_cons] at hn
    obtain ⟨n, rfl⟩ : ∃ k, n = k + 1 := ⟨n - 1, by omega⟩
    have hadv : s.advance.rest = b ++ rest := by
      rw [rest_advance, h]
      rfl
    have hpeek : PState.isSpace s.peek = true := by
      rw [peek_cons h]
      exact hsp
    have hend : s.atEnd = false := by
      rw [PState.atEnd, h]
      rfl
    rw [PState.skipLoop, hend, hpeek]
    refine ih hadv ?_
    rw [hadv]
    omega
  | @comment line b hline _ ih =>
    rw [List.cons_append, List.cons_append, List.append_assoc, List.cons_append] at h
    rw [h, List.length_cons, List.length_cons, List.length_append, List.length_cons] at hn
    obtain ⟨n, rfl⟩ : ∃ k, n = k + 2 := ⟨n - 2, by omega⟩
    have hpeek : PState.isSpace s.peek = false := by
      rw [peek_cons h]
      decide
    have hend : s.atEnd = false := by
      rw [PState.atEnd, h]
      rfl
    have hstart : s.startsWith (utf8 "//") = true := by
      rw [PState.startsWith, h, utf8_comment]
      simp
    have hcom := rest_skipComment hline h
    have hadv : s.skipComment.advance.rest = b ++ rest := by
      rw [rest_advance, hcom]
      rfl
    have hpeek' : PState.isSpace s.skipComment.peek = true := by
      rw [peek_cons hcom]
      decide
    have hend' : s.skipComment.atEnd = false := by
      rw [PState.atEnd, hcom]
      rfl
    rw [PState.skipLoop, hend, hpeek, hstart]
    simp only [Bool.false_eq_true, if_false, if_true]
    rw [PState.skipLoop, hend', hpeek']
    refine ih hadv ?_
    rw [hadv]
    omega

theorem Skips.rest_skip (h : Skips s.rest rest) : s.skip.rest = rest := by
  obtain ⟨b, hb, hs, hrest⟩ := h
  exact skipLoop_blank hb hrest hs (Nat.le_refl _)

theorem Blank.append {b' : Text} (hb : Blank b) (hb' : Blank b') : Blank (b ++ b') := by
  induction hb with
  | nil => exact hb'
  | space hsp _ ih => exact .space hsp ih
  | comment hline _ ih =>
    rw [List.cons_append, List.cons_append, List.append_assoc, List.cons_append]
    exact .comment hline ih

theorem Skips.blank (h : Skips txt rest) (hb : Blank b) : Skips (b ++ txt) rest := by
  obtain ⟨b', hb', rfl, hrest⟩ := h
  exact ⟨b ++ b', hb.append hb', (List.append_assoc b b' rest).symm, hrest⟩

/-- A blank is empty or starts with a space or a slash. -/
theorem Blank.head (hb : Blank b) : ∀ c ∈ b.head?, PState.isSpace c = true ∨ c = byte '/' := by
  intro c hc
  cases hb with
  | nil => cases hc
  | space hsp _ =>
    obtain rfl := Option.some.inj hc
    exact .inl hsp
  | comment _ _ => exact .inr (Option.some.inj hc).symm

/-! ### Runs that end -/

/-- Ways the parser ends for want of storage: heap, name table, labels. -/
inductive Spent : ParseStop → Prop where
  | outOfHeap : Spent .outOfHeap
  | table (msg : Text) : Spent (.sysError msg)
  | autoDupLabels : Spent .autoDupLabels
  | autoLabel (s : PState) (c : UInt8) :
    Spent (.expected s (utf8 "available auto-dup label (< 0x3FFFF)") c)

/-- From some fuel on the run is the same, and ends with `Q`, unless storage is used up. -/
def Ends {α : Type} (m : Nat → Parser α) (p : Parse) (Q : α → Parse → Prop) : Prop :=
  ∃ N, (∃ a q, (∀ n ≥ N, m n p = .ok (a, q)) ∧ Q a q) ∨ ∃ e, Spent e ∧ ∀ n ≥ N, m n p = .error e

variable {α β : Type} {m m' : Nat → Parser α} {f : Nat → α → Parser β} {p q : Parse} {a : α}
  {Q Q' : α → Parse → Prop} {R : β → Parse → Prop}

theorem Ends.ok (h : ∀ n, m n p = .ok (a, q)) (hQ : Q a q) : Ends m p Q :=
  ⟨0, .inl ⟨a, q, fun n _ => h n, hQ⟩⟩

theorem Ends.spent {e : ParseStop} (h : ∀ n, m n p = .error e) (he : Spent e) : Ends m p Q :=
  ⟨0, .inr ⟨e, he, fun n _ => h n⟩⟩

/-- What the run does first does not matter. -/
theorem Ends.congr_ge (M : Nat) (h : ∀ n ≥ M, m n p = m' n q) (h' : Ends m' q Q) : Ends m p Q := by
  obtain ⟨N, ⟨a, r, hrun, hQ⟩ | ⟨e, he, hrun⟩⟩ := h'
  · exact ⟨max M N, .inl ⟨a, r, fun n hn => (h n (by omega)).trans (hrun n (by omega)), hQ⟩⟩
  · exact ⟨max M N, .inr ⟨e, he, fun n hn => (h n (by omega)).trans (hrun n (by omega))⟩⟩

theorem Ends.congr (h : ∀ n, m n p = m' n q) (h' : Ends m' q Q) : Ends m p Q :=
  h'.congr_ge 0 fun n _ => h n

theorem Ends.mono (h : Ends m p Q) (hQ : ∀ a q, Q a q → Q' a q) : Ends m p Q' := by
  obtain ⟨N, ⟨a, r, hrun, hq⟩ | hspent⟩ := h
  · exact ⟨N, .inl ⟨a, r, hrun, hQ a r hq⟩⟩
  · exact ⟨N, .inr hspent⟩

/-- One level of fuel more. -/
theorem Ends.succ (h : Ends (fun n => m (n + 1)) p Q) : Ends m p Q := by
  have hpred {N n : Nat} (hn : n ≥ N + 1) : n - 1 ≥ N ∧ n - 1 + 1 = n := by omega
  obtain ⟨N, ⟨a, r, hrun, hQ⟩ | ⟨e, he, hrun⟩⟩ := h
  · refine ⟨N + 1, .inl ⟨a, r, fun n hn => ?_, hQ⟩⟩
    have hn' : m (n - 1 + 1) p = _ := hrun (n - 1) (hpred hn).1
    rwa [(hpred hn).2] at hn'
  · refine ⟨N + 1, .inr ⟨e, he, fun n hn => ?_⟩⟩
    have hn' : m (n - 1 + 1) p = _ := hrun (n - 1) (hpred hn).1
    rwa [(hpred hn).2] at hn'

theorem Ends.bind (h : Ends m p Q) (hf : ∀ a q, Q a q → Ends (fun n => f n a) q R) :
    Ends (fun n => m n >>= f n) p R := by
  obtain ⟨N, ⟨a, q, hrun, hQ⟩ | ⟨e, he, hrun⟩⟩ := h
  · obtain ⟨M, ⟨b, r, hrun', hR⟩ | ⟨e, he, hrun'⟩⟩ := hf a q hQ
    · refine ⟨max N M, .inl ⟨b, r, fun n hn => ?_, hR⟩⟩
      dsimp only
      rw [run_bind (hrun n (by omega))]
      exact hrun' n (by omega)
    · refine ⟨max N M, .inr ⟨e, he, fun n hn => ?_⟩⟩
      dsimp only
      rw [run_bind (hrun n (by omega))]
      exact hrun' n (by omega)
  · exact ⟨N, .inr ⟨e, he, fun n hn => error_bind (f n) (hrun n hn)⟩⟩

theorem Ends.build {g : Rt → Rt × α} (h : ∀ q, q = { p with rt := (g p.rt).1 } → Q (g p.rt).2 q) :
    Ends (fun _ => build g) p Q := by
  by_cases hcap : heapCap < (g p.rt).1.next
  · refine .spent (fun n => ?_) .outOfHeap
    rw [build_run, if_pos hcap]
  · refine .ok (fun n => ?_) (h _ rfl)
    rw [build_run, if_neg hcap]

end Hvm.Infix
