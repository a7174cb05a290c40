import Hvm.Parse.Atoms
import Hvm.Parse.Bytes

/-! The cursor over a text, and runs of the token functions at it. -/

namespace Hvm

open Effect

theorem rest_advance (s : PState) : s.advance.rest = s.rest.drop 1 := by
  unfold PState.advance
  cases h : s.rest with
  | nil => simp [h]
  | cons c cs =>
    dsimp only
    split <;> rfl

theorem rest_advanceBy (s : PState) (n : Nat) : (s.advanceBy n).rest = s.rest.drop n := by
  induction n generalizing s with
  | zero => rfl
  | succ n ih => rw [PState.advanceBy, ih, rest_advance, List.drop_drop, Nat.add_comm]

theorem advanceBy_add (s : PState) (m n : Nat) :
    (s.advanceBy m).advanceBy n = s.advanceBy (m + n) := by
  induction m generalizing s with
  | zero => rw [PState.advanceBy, Nat.zero_add]
  | succ m ih =>
    rw [PState.advanceBy, ih, Nat.add_right_comm]
    rfl

/-- `p` with its cursor `n` bytes on. -/
def Parse.past (p : Parse) (n : Nat) : Parse := { p with s := p.s.advanceBy n }

theorem past_past (p : Parse) (m n : Nat) : (p.past m).past n = p.past (m + n) := by
  simp only [Parse.past, advanceBy_add]

theorem rest_past (p : Parse) (n : Nat) : (p.past n).s.rest = p.s.rest.drop n :=
  rest_advanceBy p.s n

theorem peek_past {p : Parse} {n : Nat} {c : UInt8} (h : p.s.rest[n]? = some c) :
    (p.past n).s.peek = c := by
  rw [PState.peek, PState.peekAt, rest_past, List.getD_eq_getElem?_getD, List.getElem?_drop,
    Nat.add_zero, h]
  rfl

theorem run_bind {α β : Type} {m : Parser α} {f : α → Parser β} {p q : Parse} {a : α}
    (h : m p = .ok (a, q)) : (m >>= f) p = f a q := by
  simp only [bind, StateT.bind, h, Except.bind]

theorem error_bind {α β : Type} {m : Parser α} (f : α → Parser β) {p : Parse} {e : ParseStop}
    (h : m p = .error e) : (m >>= f) p = .error e := by
  simp only [bind, StateT.bind, h, Except.bind]

/-- The byte `n` bytes on is read, and the cursor moves past it. -/
theorem read_bind {β : Type} {p : Parse} {n : Nat} {c : UInt8} (h : p.s.rest[n]? = some c)
    (f : UInt8 → Parser β) :
    (do
      let b ← parsePeek
      parseAdvance
      f b) (p.past n) = f c (p.past (n + 1)) := by
  rw [run_bind (a := (p.past n).s.peek) rfl, peek_past h, ← past_past]
  rfl

theorem peek_rest {p : Parse} {b : UInt8} {bs : Text} (h : p.s.rest = b :: bs) :
    p.s.peek = b := by
  rw [PState.peek, PState.peekAt, h]
  rfl

theorem stopIf_run {bad : Bool} {e : PState → ParseStop} (p : Parse) (h : bad = false) :
    stopIf bad e p = .ok ((), p) := stopIf_ok.mpr ⟨h, rfl⟩

theorem build_run {α : Type} (f : Rt → Rt × α) (p : Parse) :
    build f p = if heapCap < (f p.rt).1.next then .error .outOfHeap
      else .ok ((f p.rt).2, { p with rt := (f p.rt).1 }) := by
  by_cases h : heapCap < (f p.rt).1.next
  · simp only [build, stopIf, h, bind, StateT.bind, Except.bind, get, getThe, MonadStateOf.get,
      StateT.get, pure, Except.pure, decide_true, if_true]
    rfl
  · rw [if_neg h]
    exact build_ok.mpr ⟨by omega, rfl, rfl⟩

theorem utf8_comment : utf8 "//" = [byte '/', byte '/'] := by
  simp [utf8_eq, String.utf8EncodeChar, byte]

theorem parseMatch_run (str : Text) (p : Parse) :
    parseMatch str p = .ok (p.s.startsWith str,
      if p.s.startsWith str then { p with s := p.s.advanceBy str.length } else p) := by
  rw [parseMatch, run_bind (a := p) (q := p) rfl]
  by_cases h : p.s.startsWith str = true
  · rw [if_pos h, if_pos h, h]
    rfl
  · rw [if_neg h, if_neg h, Bool.not_eq_true _ |>.mp h]
    rfl

theorem skip_peek {s : PState} {c : UInt8} (h : s.peek = c) (hsp : PState.isSpace c = false)
    (hslash : c ≠ byte '/') : s.skip = s := by
  cases hr : s.rest with
  | nil => simp [PState.skip, hr, PState.skipLoop]
  | cons b bs =>
    have hb : b = c := by
      rw [← h, PState.peek, PState.peekAt, hr]
      rfl
    subst hb
    have hstart : s.startsWith (utf8 "//") = false := by
      rw [PState.startsWith, hr, utf8_comment, List.isPrefixOf_cons_cons]
      have hne : (byte '/' == b) = false := by simpa using fun h => hslash h.symm
      rw [hne, Bool.false_and]
    rw [PState.skip, hr, List.length_cons, PState.skipLoop, PState.atEnd, hr, h, hsp, hstart]
    rfl

theorem consume_peek {p : Parse} {c : Char} {b : UInt8} (hb : byte c = b) (h : p.s.peek = b)
    (hsp : PState.isSpace b = false) (hslash : b ≠ byte '/') (hz : b ≠ 0) :
    parseConsume (tok c) p = .ok ((), { p with s := p.s.advance.skip }) := by
  have hskip := skip_peek h hsp hslash
  have hstart : p.s.startsWith (tok c) = true := by
    cases hr : p.s.rest with
    | nil =>
      rw [PState.peek, PState.peekAt, hr] at h
      exact absurd h.symm hz
    | cons x xs =>
      have hx : x = b := by
        rw [← h, PState.peek, PState.peekAt, hr]
        rfl
      rw [PState.startsWith, hr, tok, hb, hx]
      simp
  have hrun : parseSkip p = .ok ((), p) := by
    change Except.ok ((), { p with s := p.s.skip }) = _
    rw [hskip]
  rw [parseConsume, run_bind hrun, run_bind (parseMatch_run _ p), hstart, if_pos rfl]
  rfl

end Hvm
