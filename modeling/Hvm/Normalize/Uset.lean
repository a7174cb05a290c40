import Hvm.Normalize.Workers

/-! The set of seen locations as it is stored (`data/uset.c`), one bit a location, and that the
workers do the same with the bits as with the set of `Ctx.seen`. -/

namespace Hvm

structure Uset where
  words : Nat → BitVec 64
  wordCount : Nat

def usetInit : Uset := ⟨fun _ => 0, heapCap >>> 6⟩

/-- `uset_add`, and whether it has inserted the key. The fetch-and-or is one step. -/
def usetAdd (set : Uset) (key : Nat) : Uset × Bool :=
  let wordIdx := key >>> 6
  if set.wordCount ≤ wordIdx then (set, false)
  else
    let bitMask := 1#64 <<< (key &&& 63)
    let prev := set.words wordIdx
    ({ set with words := Function.update set.words wordIdx (prev ||| bitMask) }, prev &&& bitMask == 0)

namespace Uset

/-- The bit of the key is set. -/
def Has (set : Uset) (key : Nat) : Prop := (set.words (key / 64)).getLsbD (key % 64) = true

end Uset

variable {set : Uset} {key k : Nat}

theorem usetAdd_eq (set : Uset) (key : Nat) : usetAdd set key =
    if set.wordCount ≤ key / 64 then (set, false)
    else
      let prev := set.words (key / 64)
      ({ set with words := Function.update set.words (key / 64) (prev ||| BitVec.twoPow 64 (key % 64)) },
        !prev.getLsbD (key % 64)) := by
  have hmod : key &&& 63 = key % 64 := Nat.and_two_pow_sub_one_eq_mod key 6
  have hdiv : key >>> 6 = key / 64 := Nat.shiftRight_eq_div_pow key 6
  have hnew (x : BitVec 64) : (x &&& BitVec.twoPow 64 (key % 64) == 0) = !x.getLsbD (key % 64) := by
    rw [BitVec.and_twoPow]
    by_cases hx : x.getLsbD (key % 64) = true
    · have hne : BitVec.twoPow 64 (key % 64) ≠ 0 := by
        intro he
        have hbit := congrArg (BitVec.getLsbD · (key % 64)) he
        simp [Nat.mod_lt] at hbit
      rw [if_pos hx, hx]
      simpa using hne
    · rw [if_neg hx]
      simp [hx]
  unfold usetAdd
  rw [hmod, hdiv, ← BitVec.twoPow_eq]
  dsimp only
  rw [hnew]

/-- Adding a key sets its bit and no other, and tells whether it was clear; a key without a bit
is never added. -/
theorem usetAdd_spec (set : Uset) (key : Nat) :
    (usetAdd set key).1.wordCount = set.wordCount ∧
      (∀ k, (usetAdd set key).1.Has k ↔ set.Has k ∨ key / 64 < set.wordCount ∧ k = key) ∧
      ((usetAdd set key).2 = true ↔ key / 64 < set.wordCount ∧ ¬ set.Has key) := by
  rw [usetAdd_eq]
  by_cases hlt : key / 64 < set.wordCount
  · rw [if_neg (Nat.not_le.mpr hlt)]
    refine ⟨rfl, fun k => ?_, ?_⟩
    · unfold Uset.Has
      dsimp only
      by_cases hword : k / 64 = key / 64
      · have hmod : key % 64 = k % 64 ↔ k = key := by omega
        rw [hword, Function.update_self, BitVec.getLsbD_or, BitVec.getLsbD_twoPow, Bool.or_eq_true,
          Bool.and_eq_true, decide_eq_true_eq, decide_eq_true_eq, hmod]
        have hbit : key % 64 < 64 := Nat.mod_lt key (by decide)
        simp only [hbit, hlt, true_and]
      · have hne : k ≠ key := fun he => hword (he ▸ rfl)
        rw [Function.update_of_ne hword]
        simp only [hne, and_false, or_false]
    · unfold Uset.Has
      simp [hlt]
  · rw [if_pos (Nat.not_lt.mp hlt)]
    refine ⟨rfl, fun k => ?_, ?_⟩
    · simp only [hlt, false_and, or_false]
    · simp [hlt]

namespace Normalize

/-! ### The workers over the words -/

/-- The workers with the words of the set; nothing reads the field `seen` of `ctx`. -/
structure Bits (n : Nat) where
  ctx : Ctx n
  set : Uset

namespace Bits

variable {n : Nat}

/-- A step of worker `me`: the condition of `eval_normalize_go` as it stands, all else as
before. -/
def turn (b : Bits n) (me : Fin n) (a : Act) : Option (Bits n) :=
  let w := b.ctx.W me
  match w.point, a with
  | .go loc, .step =>
    if loc = 0 then some ⟨b.ctx.set me w.ret, b.set⟩
    else
      let (set, added) := usetAdd b.set loc
      some ⟨b.ctx.set me (if added then { w with point := .wnf loc } else w.ret), set⟩
  | _, _ => (b.ctx.turn me a).map fun ctx => ⟨ctx, b.set⟩

def start (n rootLoc : Nat) : Bits n := ⟨Ctx.start n rootLoc, usetInit⟩

def Step (b b' : Bits n) : Prop := ∃ me a, b.turn me a = some b'

/-- The words say what the field `seen` says. -/
structure Reads (b : Bits n) (s : Ctx n) : Prop where
  ctx : s = { b.ctx with seen := s.seen }
  count : b.set.wordCount = heapCap / 64
  seen : ∀ loc, loc ∈ s.seen ↔ b.set.Has loc

end Bits

variable {n : Nat} {b b' : Bits n} {s s' : Ctx n} {me : Fin n} {a : Act}

theorem Bits.Reads.has_iff (h : b.Reads s) {loc : Nat} (hz : loc ≠ 0) :
    (usetAdd b.set loc).2 = true ↔ InHeap loc ∧ loc ∉ s.seen := by
  rw [(usetAdd_spec b.set loc).2.2, h.count, h.seen, InHeap]
  simp only [hz, ne_eq, not_false_eq_true, true_and]

theorem Bits.Reads.add (h : b.Reads s) {loc : Nat} (hz : loc ≠ 0) (hadd : (usetAdd b.set loc).2 = true)
    (w : Worker) :
    Bits.Reads ⟨b.ctx.set me w, (usetAdd b.set loc).1⟩ { s.set me w with seen := insert loc s.seen } := by
  obtain ⟨hcount, hhas, -⟩ := usetAdd_spec b.set loc
  have hin := ((h.has_iff hz).mp hadd).1.2
  refine ⟨?_, hcount.trans h.count, fun k => ?_⟩
  · rw [h.ctx]
    rfl
  · rw [Finset.mem_insert, h.seen, hhas, h.count]
    simp only [hin, true_and]
    exact or_comm

theorem Bits.Reads.pass (h : b.Reads s) {loc : Nat} (hz : loc ≠ 0) (hadd : ¬ (usetAdd b.set loc).2 = true)
    (w : Worker) : Bits.Reads ⟨b.ctx.set me w, (usetAdd b.set loc).1⟩ (s.set me w) := by
  obtain ⟨hcount, hhas, hnew⟩ := usetAdd_spec b.set loc
  refine ⟨?_, hcount.trans h.count, fun k => ?_⟩
  · rw [h.ctx]
    rfl
  · have hold : loc / 64 < b.set.wordCount → b.set.Has loc := by
      intro hlt
      by_contra hno
      exact hadd (hnew.mpr ⟨hlt, hno⟩)
    have hseen : k ∈ (s.set me w).seen ↔ b.set.Has k := h.seen k
    rw [hseen, hhas]
    constructor
    · exact .inl
    · rintro (hk | ⟨hlt, rfl⟩)
      · exact hk
      · exact hold hlt

end Normalize

end Hvm
