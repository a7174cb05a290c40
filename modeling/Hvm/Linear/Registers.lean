import Hvm.Linear.Book

/-! The tokens of runtime words, and a register file of resources: the words and cells a
rule works on. Each operation of the runtime consumes registers and appends its results,
so the other registers keep their numbers. -/

namespace Hvm

open LinearHeap

/-- Tags whose words own the cells of their node. -/
def Tag.owns : Tag → Bool
  | .lam | .var | .dp0 | .dp1 | .alo | .fOp2Num | .fEqlR => false
  | _ => true

def cellToks (loc n : Nat) : Toks := ((List.range' loc n).map fun l => {.own l .term}).sum

def wordToks (w : Term) : Toks :=
  match w.tag with
  | .lam => {.bind w.val .term}
  | .var => {.use w.val .term}
  | .dp0 => {.share w.val (.lab w.ext) false}
  | .dp1 => {.share w.val (.lab w.ext) true}
  | .alo => if w.ext = 0 then 0 else {.own w.val (.pack w.ext)}
  | _ => cellToks w.val (termArity w)

theorem wordToks_of_owns {w : Term} (h : w.tag.owns = true) :
    wordToks w = cellToks w.val (termArity w) := by
  unfold wordToks
  split <;> simp_all [Tag.owns]

/-- The arity of the nodes of a tag, where the tag alone decides it. -/
def Tag.fixedArity : Tag → Option Nat
  | .lam | .var | .dp0 | .dp1 | .alo | .pri | .fOp2Num | .fEqlR => none
  | t => some (tagArity t)

theorem Tag.owns_of_fixedArity {tag : Tag} {n : Nat} (h : tag.fixedArity = some n) :
    tag.owns = true := by
  cases tag <;> first | rfl | cases h

theorem termArity_of_fixedArity {w : Term} {tag : Tag} {n : Nat} (ht : w.tag = tag)
    (h : tag.fixedArity = some n) : termArity w = n := by
  subst ht
  unfold termArity
  split
  · rename_i hp
    rw [hp] at h
    cases h
  · cases hw : w.tag <;> rw [hw] at h <;> first | cases h; done | exact Option.some.inj h

/-- A live word is unmarked and no frame, and an ALO without bind list points to a closed
book term. -/
structure WordOk (K : Statics) (w : Term) : Prop where
  plain : w.Plain
  word : w.tag.isWord = true
  alo : w.tag = .alo → w.ext = 0 → ∃ b, K w.val = some (.tm b) ∧ BookTm K 0 b 0

theorem WordOk.of_word {K : Statics} {w : Term} (hp : w.Plain)
    (ht : w.tag ≠ .alo ∧ w.tag.isWord = true) : WordOk K w :=
  ⟨hp, ht.2, fun he => (ht.1 he).elim⟩

/-- What `ls`, `tm` of an ALO over the binder cells `bs` stand for. -/
def Suspends (K : Statics) (ls tm : Nat) (bs : List Nat) (O : Multiset Occ) : Prop :=
  BindList K ls bs ∧ ∃ w, K tm = some (.tm w) ∧ BookTm K bs.length w O

def Holds (K : Statics) : Attr → Cell → Toks → Prop
  | .pack len, .alo ls tm, σ =>
    ∃ bs O, bs.length = len ∧ Suspends K ls tm bs O ∧ σ = occToks bs O
  | .term, .tm t, σ | .lab _, .tm t, σ => WordOk K t ∧ σ = wordToks t
  | _, _, _ => False

variable {K K' : Statics}

theorem WordOk.mono (hK : K.Le K') {w : Term} (h : WordOk K w) : WordOk K' w := by
  refine ⟨h.plain, h.word, fun ht he => ?_⟩
  obtain ⟨b, hb, hbook⟩ := h.alo ht he
  exact ⟨b, hK _ _ hb, hbook.mono hK⟩

theorem Suspends.mono (hK : K.Le K') {ls tm : Nat} {bs : List Nat} {O : Multiset Occ}
    (h : Suspends K ls tm bs O) : Suspends K' ls tm bs O := by
  obtain ⟨hb, w, hw, hbook⟩ := h
  exact ⟨hb.mono hK, w, hK _ _ hw, hbook.mono hK⟩

theorem Holds.mono (hK : K.Le K') {a : Attr} {c : Cell} {σ : Toks} (h : Holds K a c σ) :
    Holds K' a c σ := by
  cases a <;> cases c <;> first
    | exact h.elim
    | exact ⟨h.1.mono hK, h.2⟩
    | (obtain ⟨bs, O, hl, hs, rfl⟩ := h
       exact ⟨bs, O, hl, hs.mono hK, rfl⟩)

theorem Holds.word {a : Attr} {c : Cell} {σ : Toks} (h : Holds K a c σ) (ha : ∀ n, a ≠ .pack n) :
    ∃ w, c = .tm w ∧ WordOk K w ∧ σ = wordToks w := by
  cases a <;> cases c <;> first
    | exact h.elim
    | exact ⟨_, rfl, h⟩
    | exact (ha _ rfl).elim

/-- The reading of the runtime's heap: the SUB bit marks a substitution. -/
def discipline : Discipline Attr Cell where
  marked
    | .tm t => t.sub
    | .alo _ _ => false
  unmark
    | .tm t => .tm (termSubSet t false)
    | .alo ls tm => .alo ls tm
  Holds := Holds
  mono hK h := Holds.mono hK h

/-- The runtime `rt` is linear with the tokens `τ` in hand. -/
abbrev Linear (K : Statics) (rt : Rt) (τ : Toks) : Prop :=
  LinearHeap.Inv discipline K rt.heap rt.next τ

theorem Linear.weaken {rt : Rt} {σ σ' ρ : Toks} (hl : Linear K rt (σ + ρ)) (hle : σ' ≤ σ)
    (hp : ∀ t ∈ σ, ¬ t.Pins) : Linear K rt (σ' + ρ) := by
  obtain ⟨δ, rfl⟩ := Multiset.le_iff_exists_add.mp hle
  have he : σ' + δ + ρ = δ + (σ' + ρ) := by abel
  rw [he] at hl
  exact LinearHeap.Inv.drop hl fun t ht => hp t (Multiset.mem_add.mpr (.inr ht))

/-- A register: words, cells with a content, cells without one, what an operation leaves
unfinished (the body of a binder is out, the content of a dup cell is out), and the free
references of book terms, with or without the book term. -/
inductive Res where
  | nil
  | word (t : Term)
  | words (ts : List Term)
  | cell (l : Nat)
  | cells (l n : Nat)
  | hole (l : Nat)
  | holes (l n : Nat)
  | filled (l : Nat) (c : Cell)
  | bindHole (l : Nat)
  | taken (l lab : Nat) (side : Bool)
  | refs (bs : List Nat) (O : Multiset Occ)
  | susp (ls tm : Nat) (bs : List Nat) (O : Multiset Occ)

namespace Res

def toks : Res → Toks
  | .nil => 0
  | .word t => wordToks t
  | .words ts => (ts.map wordToks).sum
  | .cell l => {.own l .term}
  | .cells l n => cellToks l n
  | .hole l => {.held l none}
  | .holes l n => ((List.range' l n).map fun l => {.held l none}).sum
  | .filled l c => {.held l (some c)}
  | .bindHole l => {.bindHeld l .term}
  | .taken l lab side => {.shareHeld l (.lab lab) side}
  | .refs bs O | .susp _ _ bs O => occToks bs O

def Ok (K : Statics) : Res → Prop
  | .word t => WordOk K t
  | .words ts => ∀ t ∈ ts, WordOk K t
  | .susp ls tm bs O => Suspends K ls tm bs O
  | _ => True

def pins : Res → Bool
  | .bindHole _ | .taken _ _ _ => true
  | _ => false

theorem Ok.mono (hK : K.Le K') {r : Res} (h : r.Ok K) : r.Ok K' := by
  cases r <;> first
    | trivial
    | exact WordOk.mono hK h
    | exact Suspends.mono hK h
    | exact fun t ht => (h t ht).mono hK

end Res

theorem mem_sum_map {α : Type} {xs : List α} {f : α → Toks} {t : Tok} :
    t ∈ (xs.map f).sum ↔ ∃ x ∈ xs, t ∈ f x := by
  induction xs with
  | nil => simp
  | cons x xs ih => simp [Multiset.mem_add, ih]

theorem wordToks_not_pins {w : Term} {t : Tok} (h : t ∈ wordToks w) : ¬ t.Pins := by
  unfold wordToks at h
  split at h
  case h_5 => split at h <;> simp at h; subst h; exact id
  case h_6 =>
    obtain ⟨l, -, hm⟩ := mem_sum_map.mp h
    rw [Multiset.mem_singleton.mp hm]
    exact id
  all_goals (rw [Multiset.mem_singleton.mp h]; exact id)

theorem Res.not_pins {r : Res} (hr : r.pins = false) {t : Tok} (h : t ∈ r.toks) : ¬ t.Pins := by
  cases r with
  | nil => simp [toks] at h
  | word w => exact wordToks_not_pins h
  | words ts =>
    obtain ⟨w, -, hm⟩ := mem_sum_map.mp h
    exact wordToks_not_pins hm
  | cells l n =>
    obtain ⟨l, -, hm⟩ := mem_sum_map.mp h
    rw [Multiset.mem_singleton.mp hm]
    exact id
  | holes l n =>
    obtain ⟨l, -, hm⟩ := mem_sum_map.mp h
    rw [Multiset.mem_singleton.mp hm]
    exact id
  | bindHole l => simp [pins] at hr
  | taken l lab side => simp [pins] at hr
  | refs bs O => exact occToks_not_pins h
  | susp ls tm bs O => exact occToks_not_pins h
  | _ => rw [Multiset.mem_singleton.mp h]; exact id

/-! Register files -/

/-- The tokens of a list of resources. -/
def resToks (S : List Res) : Toks := (S.map Res.toks).sum

@[simp] theorem resToks_nil : resToks [] = 0 := rfl

@[simp] theorem resToks_cons (r : Res) (S : List Res) : resToks (r :: S) = r.toks + resToks S := by
  simp [resToks]

@[simp] theorem resToks_append (S T : List Res) : resToks (S ++ T) = resToks S + resToks T := by
  simp [resToks]

/-- Registers by number. -/
abbrev File := Nat → Res

namespace File

def ofList (S : List Res) : File := fun i => S.getD i .nil

def set (R : File) (k : Nat) (r : Res) : File := fun i => bif Nat.beq i k then r else R i

/-- The registers `is` are emptied. -/
def clear (R : File) : List Nat → File
  | [] => R
  | i :: is => clear (R.set i .nil) is

/-- `P` is put into the registers `n, n + 1, ..`. -/
def add (R : File) (n : Nat) : List Res → File
  | [] => R
  | p :: P => add (R.set n p) (n + 1) P

/-- The tokens of the registers below `n`. -/
def toks (R : File) (n : Nat) : Toks := ∑ i ∈ Finset.range n, (R i).toks

variable {R : File} {n i k : Nat}

@[simp] theorem set_self (R : File) (k : Nat) (r : Res) : R.set k r k = r := by simp [set]

theorem set_of_ne {r : Res} (h : i ≠ k) : R.set k r i = R i := by
  cases hb : Nat.beq i k with
  | false => simp [set, hb]
  | true => exact (h (Nat.eq_of_beq_eq_true hb)).elim

theorem clear_eq_or (R : File) (is : List Nat) (i : Nat) :
    R.clear is i = R i ∨ R.clear is i = .nil := by
  induction is generalizing R with
  | nil => exact .inl rfl
  | cons k is ih =>
    by_cases hk : i = k
    · subst hk
      right
      rcases ih (R.set i .nil) with hh | hh
      · rw [clear, hh, set_self]
      · exact hh
    · rcases ih (R.set k .nil) with hh | hh
      · rw [clear, hh, set_of_ne hk]
        exact .inl rfl
      · exact .inr hh

theorem clear_mem {is : List Nat} (hi : i ∈ is) : R.clear is i = .nil := by
  induction is generalizing R with
  | nil => simp at hi
  | cons k is ih =>
    rcases List.mem_cons.mp hi with rfl | hm
    · rcases clear_eq_or (R.set i .nil) is i with hc | hc
      · rw [clear, hc, set_self]
      · exact hc
    · exact ih hm

theorem toks_set (hout : ∀ i, n ≤ i → R i = .nil) (i : Nat) :
    R.toks n = (R i).toks + (R.set i .nil).toks n := by
  by_cases hi : i < n
  · have hr : ∑ x ∈ (Finset.range n).erase i, (R.set i .nil x).toks =
        ∑ x ∈ (Finset.range n).erase i, (R x).toks :=
      Finset.sum_congr rfl fun x hx => by rw [set_of_ne (Finset.ne_of_mem_erase hx)]
    rw [toks, toks, ← Finset.add_sum_erase _ _ (Finset.mem_range.mpr hi),
      ← Finset.add_sum_erase _ (fun x => (R.set i .nil x).toks) (Finset.mem_range.mpr hi), hr,
      set_self]
    simp [Res.toks]
  · have hr : (R.set i .nil).toks n = R.toks n := by
      refine Finset.sum_congr rfl fun x hx => ?_
      have hlt := Finset.mem_range.mp hx
      rw [set_of_ne (by omega)]
    rw [hout i (by omega), hr]
    simp [Res.toks]

theorem clear_out (hout : ∀ i, n ≤ i → R i = .nil) (is : List Nat) :
    ∀ i, n ≤ i → R.clear is i = .nil := by
  intro i hi
  rcases clear_eq_or R is i with hc | hc
  · rw [hc, hout i hi]
  · exact hc

theorem toks_clear (hout : ∀ i, n ≤ i → R i = .nil) {is : List Nat} (hn : is.Nodup) :
    R.toks n = resToks (is.map R) + (R.clear is).toks n := by
  induction is generalizing R with
  | nil => simp [clear]
  | cons i is ih =>
    obtain ⟨hi, hn⟩ := List.nodup_cons.mp hn
    have hm : is.map (R.set i .nil) = is.map R := by
      refine List.map_congr_left fun j hj => set_of_ne ?_
      rintro rfl
      exact hi hj
    have hout' : ∀ j, n ≤ j → R.set i .nil j = .nil := clear_out hout [i]
    rw [clear, toks_set hout i, ih hout' hn, hm, List.map_cons, resToks_cons]
    abel

theorem toks_add (R : File) (n : Nat) (P : List Res) :
    (R.add n P).toks (n + P.length) = R.toks n + resToks P := by
  induction P generalizing R n with
  | nil => simp [add]
  | cons p P ih =>
    have hs : (R.set n p).toks (n + 1) = R.toks n + p.toks := by
      rw [toks, Finset.sum_range_succ, set_self]
      congr 1
      exact Finset.sum_congr rfl fun x hx => by rw [set_of_ne (Finset.mem_range.mp hx).ne]
    have hl : n + (p :: P).length = n + 1 + P.length := by
      rw [List.length_cons]
      omega
    rw [hl, add, ih, hs, resToks_cons, add_assoc]

theorem add_mem (R : File) (n : Nat) (P : List Res) (i : Nat) :
    R.add n P i = R i ∨ R.add n P i ∈ P := by
  induction P generalizing R n with
  | nil => exact .inl rfl
  | cons p P ih =>
    rcases ih (R.set n p) (n + 1) with hh | hh
    · by_cases hi : i = n
      · subst hi
        rw [add, hh, set_self]
        exact .inr (by simp)
      · rw [add, hh, set_of_ne hi]
        exact .inl rfl
    · exact .inr (List.mem_cons_of_mem _ hh)

theorem add_out {P : List Res} (hi : n + P.length ≤ i) : R.add n P i = R i := by
  induction P generalizing R n with
  | nil => rfl
  | cons p P ih =>
    rw [List.length_cons] at hi
    rw [add, ih (by omega), set_of_ne (by omega)]

theorem toks_ofList (S : List Res) : (ofList S).toks S.length = resToks S := by
  induction S with
  | nil => simp [toks]
  | cons r S ih =>
    rw [toks, List.length_cons, Finset.sum_range_succ', resToks_cons, ← ih, toks, add_comm]
    rfl

end File

/-- The runtime is linear with the registers below `n` of `R` and the further tokens `τ`
in hand. -/
structure Own (K : Statics) (rt : Rt) (n : Nat) (R : File) (τ : Toks) : Prop where
  ok : ∀ i, (R i).Ok K
  out : ∀ i, n ≤ i → R i = .nil
  linear : Linear K rt (R.toks n + τ)

/-- `Own` for a list of resources, numbered from 0. -/
abbrev Has (K : Statics) (rt : Rt) (S : List Res) (τ : Toks) : Prop :=
  Own K rt S.length (.ofList S) τ

namespace Own

variable {rt rt' : Rt} {n : Nat} {R : File} {τ : Toks} {i j : Nat} {l : Nat} {t : Term}

theorem clear_ok (h : Own K rt n R τ) (is : List Nat) (i : Nat) : (R.clear is i).Ok K := by
  rcases File.clear_eq_or R is i with hc | hc
  · rw [hc]
    exact h.ok i
  · rw [hc]
    trivial

/-- The registers `is` are exchanged for new ones at the end. -/
theorem replaceLe (h : Own K rt n R τ) (is : List Nat) (hn : is.Nodup) {G : List Res}
    (P : List Res) (hG : is.map R = G) (hK : K.Le K') (hok : ∀ r ∈ P, r.Ok K')
    (hmove : ∀ ρ, Linear K rt (resToks G + ρ) → Linear K' rt' (resToks P + ρ)) :
    Own K' rt' (n + P.length) ((R.clear is).add n P) τ := by
  subst hG
  refine ⟨fun i => ?_, fun i hi => ?_, ?_⟩
  · rcases File.add_mem (R.clear is) n P i with he | hm
    · rw [he]
      exact (h.clear_ok is i).mono hK
    · exact hok _ hm
  · rw [File.add_out hi]
    exact File.clear_out h.out is i (by omega)
  · have hl := h.linear
    rw [File.toks_clear h.out hn, add_assoc] at hl
    have hl' := hmove _ hl
    have he : resToks P + ((R.clear is).toks n + τ) =
        ((R.clear is).add n P).toks (n + P.length) + τ := by
      rw [File.toks_add]
      abel
    rw [he] at hl'
    exact hl'

theorem replace (h : Own K rt n R τ) (is : List Nat) (hn : is.Nodup) {G : List Res}
    (P : List Res) (hG : is.map R = G) (hok : ∀ r ∈ P, r.Ok K)
    (hmove : ∀ ρ, Linear K rt (resToks G + ρ) → Linear K rt' (resToks P + ρ)) :
    Own K rt' (n + P.length) ((R.clear is).add n P) τ :=
  h.replaceLe is hn P hG (Frozen.Le.refl K) hok hmove

/-- Registers are exchanged for others that hold no more tokens. -/
theorem recast (h : Own K rt n R τ) (is : List Nat) (hn : is.Nodup) {G : List Res} (P : List Res)
    (hG : is.map R = G) (hok : ∀ r ∈ P, r.Ok K) (hle : resToks P ≤ resToks G)
    (hp : ∀ r ∈ G, r.pins = false) : Own K rt (n + P.length) ((R.clear is).add n P) τ := by
  refine h.replace is hn P hG hok fun ρ hl => hl.weaken hle fun t ht => ?_
  obtain ⟨r, hr, hm⟩ := mem_sum_map.mp ht
  exact Res.not_pins (hp r hr) hm

theorem tick (h : Own K rt n R τ) : Own K rt.tick n R τ := ⟨h.ok, h.out, h.linear⟩

theorem fresh (h : Own K rt n R τ) (k : Nat) : Own K { rt with fresh := k } n R τ :=
  ⟨h.ok, h.out, h.linear⟩

theorem log (h : Own K rt n R τ) (s : List Nat) : Own K { rt with log := s } n R τ :=
  ⟨h.ok, h.out, h.linear⟩

theorem ofList {S : List Res} (hS : ∀ r ∈ S, r.Ok K) (hl : Linear K rt (resToks S + τ)) :
    Has K rt S τ := by
  refine ⟨fun i => ?_, fun i hi => List.getD_eq_default _ _ hi, ?_⟩
  · by_cases hi : i < S.length
    · rw [File.ofList, List.getD_eq_getElem _ _ hi]
      exact hS _ (List.getElem_mem hi)
    · rw [File.ofList, List.getD_eq_default _ _ (by omega)]
      trivial
  · rw [File.toks_ofList]
    exact hl

theorem list_linear {S : List Res} (h : Has K rt S τ) : Linear K rt (resToks S + τ) := by
  have hl := h.linear
  rwa [File.toks_ofList] at hl

/-- Some registers are kept, in the given order; the others are forgotten. -/
theorem keep (h : Own K rt n R τ) (is : List Nat) (hn : is.Nodup)
    (hp : (List.range n).all (fun i => is.elem i || !(R i).pins) = true) :
    Has K rt (is.map R) τ := by
  refine ofList (fun r hr => ?_) ?_
  · obtain ⟨i, -, rfl⟩ := List.mem_map.mp hr
    exact h.ok i
  · have hl := h.linear
    rw [File.toks_clear h.out hn, add_comm (resToks _) ((R.clear is).toks n), add_assoc] at hl
    refine LinearHeap.Inv.drop hl fun t ht => ?_
    obtain ⟨i, hi, hm⟩ := Multiset.mem_sum.mp ht
    have hpi := List.all_eq_true.mp hp i (by simpa using hi)
    by_cases hmem : i ∈ is
    · rw [File.clear_mem hmem] at hm
      simp [Res.toks] at hm
    · rcases File.clear_eq_or R is i with hc | hc
      · rw [hc] at hm
        exact Res.not_pins (by simpa [hmem] using hpi) hm
      · rw [hc] at hm
        simp [Res.toks] at hm

/-- The registers `is` join the tokens of the context. -/
theorem push (h : Own K rt n R τ) (is : List Nat) (hn : is.Nodup) :
    Own K rt n (R.clear is) (resToks (is.map R) + τ) := by
  refine ⟨h.clear_ok is, File.clear_out h.out is, ?_⟩
  have hl := h.linear
  rw [File.toks_clear h.out hn] at hl
  have he : (R.clear is).toks n + (resToks (is.map R) + τ) =
      resToks (is.map R) + (R.clear is).toks n + τ := by
    abel
  rw [he]
  exact hl

/-- Tokens of the context come back into registers. -/
theorem pop {S : List Res} (h : Own K rt n R (resToks S + τ)) (hS : ∀ r ∈ S, r.Ok K) :
    Own K rt (n + S.length) (R.add n S) τ := by
  refine ⟨fun i => ?_, fun i hi => ?_, ?_⟩
  · rcases File.add_mem R n S i with he | hm
    · rw [he]
      exact h.ok i
    · exact hS _ hm
  · rw [File.add_out hi]
    exact h.out i (by omega)
  · rw [File.toks_add, add_assoc]
    exact h.linear

theorem static (h : Own K rt n R τ) {c : Cell} (hc : K l = some c) : rt.heap l = c := by
  obtain ⟨st, hI⟩ := h.linear
  exact (hI.frozen l c hc).2.1

/-! Cells -/

/-- The content of a plain cell is out: its word joins the registers. -/
theorem takeWord (h : Own K rt n R τ) (i : Nat) {c : Cell} {σ : Toks} {a : Attr} {S : Res}
    (hh : Holds K a c σ) (ha : ∀ n, a ≠ .pack n) (hS : S.Ok K) (hc : rt.heap l = c)
    (hl : Linear K rt (S.toks + (σ + ((R.set i .nil).toks n + τ)))) :
    Own K rt (n + 2) ((R.clear [i]).add n [S, .word (heapRead rt l)]) τ := by
  obtain ⟨w, rfl, hw, rfl⟩ := hh.word ha
  have hread : heapRead rt l = w := by rw [heapRead, hc]; rfl
  rw [hread]
  have he : S.toks + (wordToks w + ((R.set i .nil).toks n + τ)) =
      (R.set i .nil).toks n + (resToks [S, .word w] + τ) := by
    simp only [resToks_cons, resToks_nil, Res.toks]
    abel
  rw [he] at hl
  have h' : Own K rt n (R.clear [i]) (resToks [S, .word w] + τ) :=
    ⟨h.clear_ok [i], File.clear_out h.out [i], hl⟩
  refine h'.pop fun r hr => ?_
  simp only [List.mem_cons, List.not_mem_nil, or_false] at hr
  rcases hr with rfl | rfl
  · exact hS
  · exact hw

/-- The word in a cell is read, and the cell left without content. -/
theorem load (h : Own K rt n R τ) (i : Nat) (hi : R i = .cell l) :
    Own K rt (n + 2) ((R.clear [i]).add n [.hole l, .word (heapRead rt l)]) τ := by
  have hl := h.linear
  rw [File.toks_set h.out i, hi, add_assoc] at hl
  obtain ⟨σ, -, hh, hl'⟩ := LinearHeap.Inv.load hl
  exact h.takeWord i hh (by simp) trivial rfl hl'

end Own

section Stores

variable {rt : Rt} {l : Nat} {o : Option Cell} {t : Term} {ρ : Toks}

theorem Linear.store (hl : Linear K rt ({.held l o} + (wordToks t + ρ))) (ht : WordOk K t) :
    Linear K (heapSet rt l t) ({.own l .term} + ρ) :=
  LinearHeap.Inv.store hl .term ht.1.1 ⟨ht, rfl⟩ fun _ => wordToks_not_pins

theorem cellToks_succ (loc n : Nat) : cellToks loc (n + 1) = {.own loc .term} + cellToks (loc + 1) n := by
  simp [cellToks, List.range'_succ]

theorem holes_succ (loc n : Nat) :
    (Res.holes loc (n + 1)).toks = {.held loc none} + (Res.holes (loc + 1) n).toks := by
  simp [Res.toks, List.range'_succ]

/-- `termNewAt` fills the cells from `loc` on. -/
theorem Linear.storeAll {args : List Term} {loc : Nat}
    (hl : Linear K rt ((Res.holes loc args.length).toks + ((args.map wordToks).sum + ρ)))
    (hargs : ∀ t ∈ args, WordOk K t) :
    Linear K (termNewAt.go rt loc args) (cellToks loc args.length + ρ) := by
  induction args generalizing rt loc ρ with
  | nil => simpa [Res.toks, cellToks, termNewAt.go] using hl
  | cons a args ih =>
    have he : (Res.holes loc (a :: args).length).toks + (((a :: args).map wordToks).sum + ρ) =
        {.held loc none} + (wordToks a + ((Res.holes (loc + 1) args.length).toks +
          ((args.map wordToks).sum + ρ))) := by
      rw [List.length_cons, holes_succ, List.map_cons, List.sum_cons]
      abel
    rw [he] at hl
    have hs := hl.store (hargs a (by simp))
    have he' : {.own loc .term} + ((Res.holes (loc + 1) args.length).toks +
        ((args.map wordToks).sum + ρ)) = (Res.holes (loc + 1) args.length).toks +
          ((args.map wordToks).sum + ({.own loc .term} + ρ)) := by
      abel
    rw [he'] at hs
    have hr := ih hs fun t ht => hargs t (by simp [ht])
    have he'' : cellToks (loc + 1) args.length + ({.own loc .term} + ρ) =
        cellToks loc (a :: args).length + ρ := by
      rw [List.length_cons, cellToks_succ]
      abel
    rw [he''] at hr
    exact hr

/-- Fresh cells. -/
theorem Linear.alloc (n : Nat) (hl : Linear K rt ρ) :
    Linear K { rt with next := rt.next + n } ((Res.holes rt.next n).toks + ρ) := by
  induction n with
  | zero => simpa [Res.toks] using hl
  | succ n ih =>
    have ha := LinearHeap.Inv.alloc ih
    have he : (Res.holes rt.next (n + 1)).toks + ρ =
        {.held (rt.next + n) none} + ((Res.holes rt.next n).toks + ρ) := by
      simp only [Res.toks, List.range'_concat, List.map_append, List.sum_append, List.map_cons,
        List.map_nil, List.sum_cons, List.sum_nil, Nat.one_mul]
      abel
    rw [he]
    exact ha

/-- `termNewNode` on fresh cells. -/
theorem Linear.newNode {tag : Tag} {ext : Nat} {args : List Term}
    (hl : Linear K rt ((args.map wordToks).sum + ρ)) (hargs : ∀ t ∈ args, WordOk K t)
    (ht : tag.owns = true) (hn : termArity (termNew false tag ext rt.next) = args.length) :
    Linear K (termNewNode rt tag ext args).1 (wordToks (termNew false tag ext rt.next) + ρ) := by
  have hw : wordToks (termNew false tag ext rt.next) = cellToks rt.next args.length := by
    rw [wordToks_of_owns ht, hn]
    rfl
  rw [hw]
  exact (hl.alloc args.length).storeAll hargs

theorem termNew_plain (tag : Tag) (ext val : Nat) : (termNew false tag ext val).Plain :=
  ⟨rfl, Nat.le_of_lt_succ (Nat.mod_lt _ (Nat.succ_pos _))⟩

theorem termNew_ok {tag : Tag} (ht : tag ≠ .alo ∧ tag.isWord = true) (ext val : Nat) :
    WordOk K (termNew false tag ext val) :=
  .of_word (termNew_plain tag ext val) ht

theorem Tag.word_of_owns {tag : Tag} (h : tag.owns = true) : tag ≠ .alo ∧ tag.isWord = true := by
  cases tag <;> first | (cases h; done) | exact ⟨nofun, rfl⟩

theorem termArity_termNew {w : Term} (hp : w.Plain) (l : Nat) :
    termArity (termNew false w.tag w.ext l) = termArity w := by
  have he : w.ext % (extMask + 1) = w.ext := Nat.mod_eq_of_lt (Nat.lt_succ_of_le hp.2)
  simp [termArity, termNew, he]

theorem copy_ok (l lab : Nat) :
    ∀ r ∈ [Res.word (termCloneAt l lab).k0, .word (termCloneAt l lab).k1], r.Ok K := by
  intro r hr
  simp only [List.mem_cons, List.not_mem_nil, or_false] at hr
  rcases hr with rfl | rfl
  · exact termNew_ok (by decide) lab l
  · exact termNew_ok (by decide) lab l

/-- A cell becomes a dup cell in place. -/
theorem Linear.share (hl : Linear K rt ({.own l .term} + ρ)) (lab : Nat) :
    Linear K rt (resToks [.word (termCloneAt l lab).k0, .word (termCloneAt l lab).k1] + ρ) := by
  have hs := LinearHeap.Inv.share hl (.lab (lab % (extMask + 1))) fun c σ hh => by
    cases c with
    | alo ls tm => exact hh.elim
    | tm w => exact ⟨hh, by rw [hh.2]; exact fun _ => wordToks_not_pins⟩
  simp only [resToks_cons, resToks_nil, add_zero, add_assoc]
  exact hs

theorem set_eq_self {c : Cell} (hc : rt.heap l = c) : rt.set l c = rt := by
  have he : Function.update rt.heap l c = rt.heap := by
    rw [← hc]
    exact Function.update_eq_self l rt.heap
  rw [Rt.set, he]

theorem marked_eq (c : Cell) : discipline.marked c = c.toTerm.sub := by
  cases c <;> rfl

/-- A substitution that is read holds its unmarked word. -/
theorem Holds.substituted {a : Attr} {c : Cell} {σ : Toks} (h : Holds K a (discipline.unmark c) σ)
    (ha : ∀ n, a ≠ .pack n) :
    WordOk K (termSubSet c.toTerm false) ∧ σ = wordToks (termSubSet c.toTerm false) := by
  obtain ⟨w, hc, hw, rfl⟩ := h.word ha
  cases c with
  | alo ls tm => simp [discipline] at hc
  | tm t =>
    obtain rfl : termSubSet t false = w := by simpa [discipline] using hc
    exact ⟨hw, rfl⟩

/-- The tag of a dup variable. -/
def dupTag (side : Bool) : Tag := if side then .dp1 else .dp0

theorem wordToks_dup {side : Bool} (ht : t.tag = dupTag side) :
    wordToks t = {.share t.val (.lab t.ext) side} := by
  unfold wordToks
  rw [ht]
  cases side <;> rfl

theorem unmark_subst {w : Term} (hw : w.Plain) :
    discipline.unmark (.tm (termSubSet w true)) = .tm w := by
  obtain ⟨sub, tag, ext, val⟩ := w
  obtain ⟨rfl, -⟩ := hw
  rfl

end Stores

namespace Own

variable {rt rt' : Rt} {n : Nat} {R : File} {τ : Toks} {i j : Nat} {l : Nat} {t : Term}

attribute [local simp] Res.Ok Res.toks

/-- A word is written to an empty cell. -/
theorem store (h : Own K rt n R τ) (i j : Nat) (hi : R i = .hole l) (hj : R j = .word t)
    (hn : [i, j].Nodup) :
    Own K (heapSet rt l t) (n + 1) ((R.clear [i, j]).add n [.cell l]) τ := by
  have hw := h.ok j
  rw [hj] at hw
  refine h.replace [i, j] hn (G := [.hole l, .word t]) [.cell l] (by simp [hi, hj])
    (by simp) fun ρ hl => ?_
  simp only [resToks_cons, resToks_nil, Res.toks, add_zero, add_assoc] at hl ⊢
  exact hl.store hw

theorem alloc (h : Own K rt n R τ) (k : Nat) :
    Own K { rt with next := rt.next + k } (n + 1) (R.add n [.holes rt.next k]) τ :=
  h.replace [] List.nodup_nil [.holes rt.next k] rfl (by simp)
    fun ρ hl => by simpa using hl.alloc k

/-- One fresh cell. -/
theorem alloc₁ (h : Own K rt n R τ) :
    Own K { rt with next := rt.next + 1 } (n + 1) (R.add n [.hole rt.next]) τ :=
  h.replace [] List.nodup_nil [.hole rt.next] rfl (by simp)
    fun ρ hl => by simpa using hl.alloc 1

/-- A node word is given up for its cells. -/
theorem «open» (h : Own K rt n R τ) (i : Nat) (hi : R i = .word t) (ht : t.tag.owns = true) :
    Own K rt (n + 1) ((R.clear [i]).add n [.cells t.val (termArity t)]) τ := by
  refine h.replace [i] (List.nodup_singleton i) (G := [.word t]) [.cells t.val (termArity t)]
    (by simp [hi]) (by simp) fun ρ hl => ?_
  simpa [wordToks_of_owns ht] using hl

theorem open₁ {tag : Tag} (h : Own K rt n R τ) (i : Nat) (hi : R i = .word t) (ht : t.tag = tag)
    (hn : tag.fixedArity = some 1) : Own K rt (n + 1) ((R.clear [i]).add n [.cell t.val]) τ := by
  have ho : t.tag.owns = true := ht ▸ Tag.owns_of_fixedArity hn
  refine h.replace [i] (List.nodup_singleton i) (G := [.word t]) [.cell t.val] (by simp [hi])
    (by simp) fun ρ hl => ?_
  simpa [wordToks_of_owns ho, cellToks, termArity_of_fixedArity ht hn] using hl

theorem open₂ {tag : Tag} (h : Own K rt n R τ) (i : Nat) (hi : R i = .word t) (ht : t.tag = tag)
    (hn : tag.fixedArity = some 2) :
    Own K rt (n + 2) ((R.clear [i]).add n [.cell t.val, .cell (t.val + 1)]) τ := by
  have ho : t.tag.owns = true := ht ▸ Tag.owns_of_fixedArity hn
  refine h.replace [i] (List.nodup_singleton i) (G := [.word t])
    [.cell t.val, .cell (t.val + 1)] (by simp [hi]) (by simp) fun ρ hl => ?_
  simpa [wordToks_of_owns ho, cellToks, termArity_of_fixedArity ht hn, List.range'_succ]
    using hl

theorem open₃ {tag : Tag} (h : Own K rt n R τ) (i : Nat) (hi : R i = .word t) (ht : t.tag = tag)
    (hn : tag.fixedArity = some 3) : Own K rt (n + 3)
      ((R.clear [i]).add n [.cell t.val, .cell (t.val + 1), .cell (t.val + 2)]) τ := by
  have ho : t.tag.owns = true := ht ▸ Tag.owns_of_fixedArity hn
  refine h.replace [i] (List.nodup_singleton i) (G := [.word t])
    [.cell t.val, .cell (t.val + 1), .cell (t.val + 2)] (by simp [hi]) (by simp)
    fun ρ hl => ?_
  simpa [wordToks_of_owns ho, cellToks, termArity_of_fixedArity ht hn, List.range'_succ]
    using hl

/-- The first cell of a block. -/
theorem splitCell {k : Nat} (h : Own K rt n R τ) (i : Nat) (hi : R i = .cells l (k + 1)) :
    Own K rt (n + 2) ((R.clear [i]).add n [.cell l, .cells (l + 1) k]) τ := by
  refine h.replace [i] (List.nodup_singleton i) (G := [.cells l (k + 1)])
    [.cell l, .cells (l + 1) k] (by simp [hi]) (by simp) fun ρ hl => ?_
  simpa [cellToks_succ] using hl

theorem splitHole {k : Nat} (h : Own K rt n R τ) (i : Nat) (hi : R i = .holes l (k + 1)) :
    Own K rt (n + 2) ((R.clear [i]).add n [.hole l, .holes (l + 1) k]) τ := by
  refine h.replace [i] (List.nodup_singleton i) (G := [.holes l (k + 1)])
    [.hole l, .holes (l + 1) k] (by simp [hi]) (by simp) fun ρ hl => ?_
  simpa [List.range'_succ] using hl

theorem joinCells {k : Nat} (h : Own K rt n R τ) (i j : Nat) (hi : R i = .cell l)
    (hj : R j = .cells (l + 1) k) (hn : [i, j].Nodup) :
    Own K rt (n + 1) ((R.clear [i, j]).add n [.cells l (k + 1)]) τ := by
  refine h.replace [i, j] hn (G := [.cell l, .cells (l + 1) k]) [.cells l (k + 1)]
    (by simp [hi, hj]) (by simp) fun ρ hl => ?_
  simpa [cellToks_succ] using hl

theorem splitHoles (h : Own K rt n R τ) (j k i : Nat) (hi : R i = .holes l (j + k)) :
    Own K rt (n + 2) ((R.clear [i]).add n [.holes l j, .holes (l + j) k]) τ := by
  refine h.replace [i] (List.nodup_singleton i) (G := [.holes l (j + k)])
    [.holes l j, .holes (l + j) k] (by simp [hi]) (by simp) fun ρ hl => ?_
  have he : (Res.holes l (j + k)).toks = (Res.holes l j).toks + (Res.holes (l + j) k).toks := by
    simp only [Res.toks]
    rw [← List.range'_append_1, List.map_append, List.sum_append]
  simpa only [resToks_cons, resToks_nil, add_zero, he] using hl

/-! Building nodes -/

/-- The cells `l, l + 1, ..` become a node. -/
theorem close (h : Own K rt n R τ) (l : Nat) (tag : Tag) (ext : Nat) {js : List Nat}
    (hj : js.map R = (List.range' l js.length).map .cell) (hd : js.Nodup)
    (ht : tag.owns = true) (hn : termArity (termNew false tag ext l) = js.length) :
    Own K rt (n + 1) ((R.clear js).add n [.word (termNew false tag ext l)]) τ := by
  refine h.replace js hd [.word (termNew false tag ext l)] hj ?_ fun ρ hl => ?_
  · intro r hr
    rw [List.mem_singleton.mp hr]
    exact termNew_ok (Tag.word_of_owns ht) ext l
  · have hw : wordToks (termNew false tag ext l) = cellToks l js.length := by
      rw [wordToks_of_owns ht, hn]
      rfl
    simpa [resToks, hw, cellToks, Function.comp_def] using hl

theorem close₁ (h : Own K rt n R τ) (tag : Tag) (ext i : Nat) (hi : R i = .cell l)
    (ht : tag.owns = true) (hn : termArity (termNew false tag ext l) = 1) :
    Own K rt (n + 1) ((R.clear [i]).add n [.word (termNew false tag ext l)]) τ :=
  h.close l tag ext (by simp [hi]) (List.nodup_singleton i) ht hn

theorem close₂ (h : Own K rt n R τ) (tag : Tag) (ext i j : Nat) (hi : R i = .cell l)
    (hj : R j = .cell (l + 1)) (ht : tag.owns = true)
    (hn : termArity (termNew false tag ext l) = 2) (hd : [i, j].Nodup) :
    Own K rt (n + 1) ((R.clear [i, j]).add n [.word (termNew false tag ext l)]) τ :=
  h.close l tag ext (by simp [hi, hj, List.range'_succ]) hd ht hn

/-- A one-field node word comes back whole. -/
theorem wrap₁ {tag : Tag} (h : Own K rt n R τ) (i : Nat) (hi : R i = .cell t.val) (hp : t.Plain)
    (ht : t.tag = tag) (hn : tag.fixedArity = some 1) :
    Own K rt (n + 1) ((R.clear [i]).add n [.word t]) τ := by
  have ho : t.tag.owns = true := ht ▸ Tag.owns_of_fixedArity hn
  refine h.replace [i] (List.nodup_singleton i) (G := [.cell t.val]) [.word t] (by simp [hi]) ?_
    fun ρ hl => ?_
  · intro r hr
    rw [List.mem_singleton.mp hr]
    exact .of_word hp (Tag.word_of_owns ho)
  · simpa [wordToks_of_owns ho, cellToks, termArity_of_fixedArity ht hn] using hl

theorem wrap₂ {tag : Tag} (h : Own K rt n R τ) (i j : Nat) (hi : R i = .cell t.val)
    (hj : R j = .cell (t.val + 1)) (hp : t.Plain) (ht : t.tag = tag)
    (hn : tag.fixedArity = some 2) (hd : [i, j].Nodup) :
    Own K rt (n + 1) ((R.clear [i, j]).add n [.word t]) τ := by
  have ho : t.tag.owns = true := ht ▸ Tag.owns_of_fixedArity hn
  refine h.replace [i, j] hd (G := [.cell t.val, .cell (t.val + 1)]) [.word t] (by simp [hi, hj]) ?_
    fun ρ hl => ?_
  · intro r hr
    rw [List.mem_singleton.mp hr]
    exact .of_word hp (Tag.word_of_owns ho)
  · simpa [wordToks_of_owns ho, cellToks, termArity_of_fixedArity ht hn, List.range'_succ]
      using hl

theorem wrap₃ {tag : Tag} (h : Own K rt n R τ) (i j k : Nat) (hi : R i = .cell t.val)
    (hj : R j = .cell (t.val + 1)) (hk : R k = .cell (t.val + 2)) (hp : t.Plain)
    (ht : t.tag = tag) (hn : tag.fixedArity = some 3) (hd : [i, j, k].Nodup) :
    Own K rt (n + 1) ((R.clear [i, j, k]).add n [.word t]) τ := by
  have ho : t.tag.owns = true := ht ▸ Tag.owns_of_fixedArity hn
  refine h.replace [i, j, k] hd (G := [.cell t.val, .cell (t.val + 1), .cell (t.val + 2)]) [.word t]
    (by simp [hi, hj, hk]) ?_ fun ρ hl => ?_
  · intro r hr
    rw [List.mem_singleton.mp hr]
    exact .of_word hp (Tag.word_of_owns ho)
  · simpa [wordToks_of_owns ho, cellToks, termArity_of_fixedArity ht hn, List.range'_succ]
      using hl

/-- A block of cells becomes a node. -/
theorem closeCells {k : Nat} (h : Own K rt n R τ) (tag : Tag) (ext i : Nat)
    (hi : R i = .cells l k) (ht : tag.owns = true) (hn : termArity (termNew false tag ext l) = k) :
    Own K rt (n + 1) ((R.clear [i]).add n [.word (termNew false tag ext l)]) τ := by
  refine h.replace [i] (List.nodup_singleton i) (G := [.cells l k])
    [.word (termNew false tag ext l)] (by simp [hi]) ?_ fun ρ hl => ?_
  · intro r hr
    rw [List.mem_singleton.mp hr]
    exact termNew_ok (Tag.word_of_owns ht) ext l
  · have hw : wordToks (termNew false tag ext l) = cellToks l k := by
      rw [wordToks_of_owns ht, hn]
      rfl
    simpa [hw] using hl

theorem args_ok (h : Own K rt n R τ) {args : List Term} {is : List Nat}
    (hi : is.map R = args.map .word) : ∀ a ∈ args, WordOk K a := by
  intro a ha
  have hm : Res.word a ∈ is.map R := by
    rw [hi]
    exact List.mem_map_of_mem ha
  obtain ⟨k, -, hk⟩ := List.mem_map.mp hm
  have hw := h.ok k
  rwa [hk] at hw

/-- `termNewAt` on two cells at hand. -/
theorem newAt (h : Own K rt n R τ) (tag : Tag) (ext i j p q : Nat) {a b : Term}
    (hi : R i = .hole l) (hj : R j = .hole (l + 1)) (hp : R p = .word a)
    (hq : R q = .word b) (ht : tag.owns = true)
    (hn : termArity (termNew false tag ext l) = 2) (hd : [i, j, p, q].Nodup) :
    Own K (termNewAt rt l tag ext [a, b]).1
      (n + 1) ((R.clear [i, j, p, q]).add n [.word (termNew false tag ext l)]) τ := by
  have hargs : ∀ t ∈ [a, b], WordOk K t :=
    h.args_ok (show [p, q].map R = [a, b].map .word by simp [hp, hq])
  refine h.replace [i, j, p, q] hd (G := [.hole l, .hole (l + 1), .word a, .word b]) [.word (termNew false tag ext l)]
    (by simp [hi, hj, hp, hq]) ?_ fun ρ hl => ?_
  · intro r hr
    rw [List.mem_singleton.mp hr]
    exact termNew_ok (Tag.word_of_owns ht) ext l
  · have hw : wordToks (termNew false tag ext l) = cellToks l 2 := by
      rw [wordToks_of_owns ht, hn]
      rfl
    have he : resToks [.hole l, .hole (l + 1), .word a, .word b] + ρ =
        (Res.holes l [a, b].length).toks + (([a, b].map wordToks).sum + ρ) := by
      simpa [List.range'_succ] using Multiset.cons_swap _ _ _
    rw [he] at hl
    have hs := hl.storeAll hargs
    simpa [termNewAt, hw] using hs

/-- `termNewNode` on fresh cells. -/
theorem newNode (h : Own K rt n R τ) (tag : Tag) (ext : Nat) {args : List Term} {is : List Nat}
    (hi : is.map R = args.map .word) (hd : is.Nodup) (ht : tag.owns = true)
    (hn : termArity (termNew false tag ext rt.next) = args.length) :
    Own K (termNewNode rt tag ext args).1 (n + 1)
      ((R.clear is).add n [.word (termNew false tag ext rt.next)]) τ := by
  have hargs := h.args_ok hi
  refine h.replace is hd [.word (termNew false tag ext rt.next)] hi ?_ fun ρ hl => ?_
  · intro r hr
    rw [List.mem_singleton.mp hr]
    exact termNew_ok (Tag.word_of_owns ht) ext rt.next
  · have he : resToks (args.map .word) = (args.map wordToks).sum := by
      simp [resToks, Function.comp_def]
    rw [he] at hl
    simpa using hl.newNode hargs ht hn

theorem newNode₁ {a : Term} (h : Own K rt n R τ) (tag : Tag) (ext i : Nat)
    (hi : R i = .word a) (ht : tag.owns = true)
    (hn : termArity (termNew false tag ext rt.next) = 1) :
    Own K (termNewNode rt tag ext [a]).1
      (n + 1) ((R.clear [i]).add n [.word (termNew false tag ext rt.next)]) τ :=
  h.newNode tag ext (by simp [hi]) (List.nodup_singleton i) ht hn

theorem newNode₂ {a b : Term} (h : Own K rt n R τ) (tag : Tag) (ext i j : Nat)
    (hi : R i = .word a) (hj : R j = .word b) (ht : tag.owns = true)
    (hn : termArity (termNew false tag ext rt.next) = 2) (hd : [i, j].Nodup) :
    Own K (termNewNode rt tag ext [a, b]).1
      (n + 1) ((R.clear [i, j]).add n [.word (termNew false tag ext rt.next)]) τ :=
  h.newNode tag ext (by simp [hi, hj]) hd ht hn

theorem newNode₃ {a b c : Term} (h : Own K rt n R τ) (tag : Tag) (ext i j k : Nat)
    (hi : R i = .word a) (hj : R j = .word b) (hk : R k = .word c)
    (ht : tag.owns = true) (hn : termArity (termNew false tag ext rt.next) = 3)
    (hd : [i, j, k].Nodup) :
    Own K (termNewNode rt tag ext [a, b, c]).1
      (n + 1) ((R.clear [i, j, k]).add n [.word (termNew false tag ext rt.next)]) τ :=
  h.newNode tag ext (by simp [hi, hj, hk]) hd ht hn

theorem newCtr₁ {a : Term} (h : Own K rt n R τ) (nam i : Nat) (hi : R i = .word a) :
    Own K (termNewCtr rt nam [a]).1 (n + 1)
      ((R.clear [i]).add n [.word (termNewCtr rt nam [a]).2]) τ :=
  h.newNode₁ (.ctr 1) nam i hi rfl rfl

theorem newCtr₂ {a b : Term} (h : Own K rt n R τ) (nam i j : Nat) (hi : R i = .word a)
    (hj : R j = .word b) (hd : [i, j].Nodup) :
    Own K (termNewCtr rt nam [a, b]).1 (n + 1)
      ((R.clear [i, j]).add n [.word (termNewCtr rt nam [a, b]).2]) τ :=
  h.newNode₂ (.ctr 2) nam i j hi hj rfl rfl hd

/-- A fresh cell is filled. -/
theorem newCell (h : Own K rt n R τ) (i : Nat) (hi : R i = .word t) :
    Own K (heapSet { rt with next := rt.next + 1 } rt.next t) (n + 1) ((R.clear [i]).add n [.cell rt.next]) τ := by
  have hw := h.ok i
  rw [hi] at hw
  refine h.replace [i] (List.nodup_singleton i) (G := [.word t]) [.cell rt.next] (by simp [hi])
    (by simp) fun ρ hl => ?_
  have hl' := hl.alloc 1
  simp only [resToks_cons, resToks_nil, Res.toks, List.range'_one, List.map_cons, List.map_nil,
    List.sum_cons, List.sum_nil, add_zero] at hl' ⊢
  exact hl'.store hw

/-! Sharing -/

/-- A cell becomes a dup cell in place. -/
theorem share (h : Own K rt n R τ) (lab : Nat) (i : Nat) (hi : R i = .cell l) :
    Own K rt (n + 2) ((R.clear [i]).add n [.word (termCloneAt l lab).k0, .word (termCloneAt l lab).k1]) τ := by
  refine h.replace [i] (List.nodup_singleton i) (G := [.cell l]) 
    [.word (termCloneAt l lab).k0, .word (termCloneAt l lab).k1] (by simp [hi])
    ?_ fun ρ hl => ?_
  · exact copy_ok l lab
  · simp only [resToks_cons, resToks_nil, Res.toks, add_zero] at hl
    exact hl.share lab

theorem clone (h : Own K rt n R τ) (lab : Nat) (i : Nat) (hi : R i = .word t) :
    Own K (termClone rt lab t).1 (n + 2) ((R.clear [i]).add n [.word (termClone rt lab t).2.k0, .word (termClone rt lab t).2.k1]) τ := by
  have hw := h.ok i
  rw [hi] at hw
  refine h.replace [i] (List.nodup_singleton i) (G := [.word t]) 
    [.word (termClone rt lab t).2.k0, .word (termClone rt lab t).2.k1] (by simp [hi])
    ?_ fun ρ hl => ?_
  · exact copy_ok rt.next lab
  · have hl' := hl.alloc 1
    simp only [resToks_cons, resToks_nil, Res.toks, List.range'_one, List.map_cons, List.map_nil,
      List.sum_cons, List.sum_nil, add_zero] at hl'
    exact (hl'.store hw).share lab

/-! Binders -/

/-- An empty cell becomes a binder without a body yet. -/
theorem bindNew (h : Own K rt n R τ) (i : Nat) (hi : R i = .hole l) :
    Own K rt (n + 2) ((R.clear [i]).add n [.bindHole l, .word (termNewVar l)]) τ := by
  refine h.replace [i] (List.nodup_singleton i) (G := [.hole l]) [.bindHole l, .word (termNewVar l)] (by simp [hi])
    ?_ fun ρ hl => ?_
  · intro r hr
    simp only [List.mem_cons, List.not_mem_nil, or_false] at hr
    rcases hr with rfl | rfl
    · trivial
    · exact termNew_ok (by decide) 0 l
  · simp only [resToks_cons, resToks_nil, Res.toks, add_zero, add_assoc] at hl ⊢
    exact LinearHeap.Inv.bindNew hl .term

/-- The body of a binder is put in place. -/
theorem bindFill (h : Own K rt n R τ) (ext : Nat) (i j : Nat) (hi : R i = .bindHole l)
    (hj : R j = .word t) (hn : [i, j].Nodup) :
    Own K (heapSet rt l t) (n + 1) ((R.clear [i, j]).add n [.word (termNew false .lam ext l)]) τ := by
  have hw := h.ok j
  rw [hj] at hw
  refine h.replace [i, j] hn (G := [.bindHole l, .word t]) 
    [.word (termNew false .lam ext l)] (by simp [hi, hj])
    ?_ fun ρ hl => ?_
  · intro r hr
    rw [List.mem_singleton.mp hr]
    exact termNew_ok (by decide) ext l
  · simp only [resToks_cons, resToks_nil, Res.toks, add_zero, add_assoc] at hl ⊢
    exact LinearHeap.Inv.bindFill hl hw.1.1 ⟨hw, rfl⟩ fun _ => wordToks_not_pins

/-- The body of a lambda is taken out. -/
theorem bindLoad (h : Own K rt n R τ) (i : Nat) (hi : R i = .word t) (ht : t.tag = .lam) :
    Own K rt (n + 2) ((R.clear [i]).add n [.bindHole t.val, .word (heapRead rt t.val)]) τ := by
  have hl := h.linear
  have hw : wordToks t = {.bind t.val .term} := by
    unfold wordToks
    rw [ht]
  rw [File.toks_set h.out i, hi, add_assoc, Res.toks, hw] at hl
  obtain ⟨σ, -, hh, hl'⟩ := LinearHeap.Inv.bindLoad hl
  exact h.takeWord i hh (by simp) trivial rfl hl'

theorem bindLoad_unmarked (h : Own K rt n R τ) (i : Nat) (hi : R i = .word t) (ht : t.tag = .lam) :
    discipline.marked (rt.heap t.val) = false := by
  have hl := h.linear
  have hw : wordToks t = {.bind t.val .term} := by
    unfold wordToks
    rw [ht]
  rw [File.toks_set h.out i, hi, add_assoc, Res.toks, hw] at hl
  exact (LinearHeap.Inv.bindLoad hl).choose_spec.1

/-- A binder whose body is out gets its substitution. -/
theorem bindSubst (h : Own K rt n R τ) (i j : Nat) (hi : R i = .bindHole l)
    (hj : R j = .word t) (hn : [i, j].Nodup) :
    Own K (heapSubstVar rt l t) n (R.clear [i, j]) τ := by
  have hw := h.ok j
  rw [hj] at hw
  refine h.replace [i, j] hn (G := [.bindHole l, .word t]) [] (by simp [hi, hj])
    (by simp) fun ρ hl => ?_
  simp only [resToks_cons, resToks_nil, Res.toks, add_zero, zero_add, add_assoc] at hl ⊢
  refine LinearHeap.Inv.bindSubst hl rfl ?_ fun _ => wordToks_not_pins
  rw [unmark_subst hw.1]
  exact ⟨hw, rfl⟩

/-- A binder whose body is out is given up. -/
theorem bindDie (h : Own K rt n R τ) (i : Nat) (hi : R i = .bindHole l)
    (hm : discipline.marked (rt.heap l) = false) : Own K rt n (R.clear [i]) τ := by
  refine h.replace [i] (List.nodup_singleton i) (G := [.bindHole l]) [] (by simp [hi])
    (by simp) fun ρ hl => ?_
  simp only [resToks_cons, resToks_nil, Res.toks, add_zero, zero_add] at hl ⊢
  exact LinearHeap.Inv.bindDie hl hm

theorem ofWord (hw : WordOk K t) (hl : Linear K rt (wordToks t + τ)) : Has K rt [.word t] τ := by
  refine ofList (fun r hr => ?_) ?_
  · rw [List.mem_singleton.mp hr]
    exact hw
  · simpa using hl

/-- A variable with a substitution is replaced by it. -/
theorem use (h : Has K rt [.word t] τ) (ht : t.tag = .var)
    (hτ : ∀ a, LinearHeap.Tok.bindHeld t.val a ∉ τ) (hs : (heapRead rt t.val).sub = true) :
    Has K rt [.word (termSubSet (heapRead rt t.val) false)] τ := by
  have hl := h.list_linear
  have hw : wordToks t = {.use t.val .term} := by
    unfold wordToks
    rw [ht]
  simp only [resToks_cons, resToks_nil, Res.toks, add_zero, hw] at hl
  rcases LinearHeap.Inv.use hl hτ with ⟨-, σ, hh, hl'⟩ | hu
  · obtain ⟨hok, rfl⟩ := hh.substituted (by simp)
    exact ofWord hok hl'
  · rw [marked_eq] at hu
    rw [heapRead, hu] at hs
    cases hs

/-! Dup variables -/

/-- A dup variable takes the result its twin has left, or else the shared term. -/
theorem takeShare {side : Bool} (h : Has K rt [.word t] τ) (ht : t.tag = dupTag side)
    (hτ : ∀ a r, LinearHeap.Tok.shareHeld t.val a r ∉ τ) :
    if (heapRead rt t.val).sub then Has K rt [.word (termSubSet (heapRead rt t.val) false)] τ
    else Has K rt [.taken t.val t.ext side, .word (heapRead rt t.val)] τ := by
  have hl := h.list_linear
  simp only [resToks_cons, resToks_nil, Res.toks, add_zero, wordToks_dup ht] at hl
  rcases LinearHeap.Inv.takeShare hl hτ with ⟨hm, σ, hh, hl'⟩ | ⟨hm, σ, hh, hl'⟩
  · rw [marked_eq] at hm
    obtain ⟨hok, rfl⟩ := hh.substituted (by simp)
    rw [heapRead, if_pos hm]
    exact ofWord hok hl'
  · rw [marked_eq] at hm
    obtain ⟨w, hc, hok, rfl⟩ := hh.word (by simp)
    have hread : heapRead rt t.val = w := by rw [heapRead, hc]; rfl
    rw [if_neg (by simp [heapRead, hm]), hread]
    refine ofList ?_ (by simpa [add_assoc] using hl')
    simpa using hok

/-- The result for the twin is left in a dup cell. -/
theorem fire {lab : Nat} {side : Bool} (h : Own K rt n R τ) (i j : Nat)
    (hi : R i = .taken l lab side) (hj : R j = .word t) (hn : [i, j].Nodup) :
    Own K (heapSet rt l (termSubSet t true)) n (R.clear [i, j]) τ := by
  have hw := h.ok j
  rw [hj] at hw
  refine h.replace [i, j] hn (G := [.taken l lab side, .word t]) [] (by simp [hi, hj])
    (by simp) fun ρ hl => ?_
  simp only [resToks_cons, resToks_nil, Res.toks, add_zero, zero_add, add_assoc] at hl ⊢
  refine LinearHeap.Inv.fireShare hl rfl ?_ fun _ => wordToks_not_pins
  rw [unmark_subst hw.1]
  exact ⟨hw, rfl⟩

/-- A dup cell gets a term back, and the dup variable `t` stays stuck. -/
theorem putBack {u : Term} {side : Bool} (h : Own K rt n R τ) (i j : Nat)
    (hi : R i = .taken t.val t.ext side) (hj : R j = .word u) (ht : t.tag = dupTag side)
    (hp : t.Plain) (hn : [i, j].Nodup) :
    Own K (heapSet rt t.val u) (n + 1) ((R.clear [i, j]).add n [.word t]) τ := by
  have hw := h.ok j
  rw [hj] at hw
  refine h.replace [i, j] hn (G := [.taken t.val t.ext side, .word u]) [.word t] (by simp [hi, hj])
    ?_ fun ρ hl => ?_
  · intro r hr
    rw [List.mem_singleton.mp hr]
    exact .of_word hp (ht ▸ by cases side <;> decide)
  · simp only [resToks_cons, resToks_nil, Res.toks, add_zero, add_assoc, wordToks_dup ht] at hl ⊢
    exact LinearHeap.Inv.putBack hl hw.1.1 ⟨hw, rfl⟩ fun _ => wordToks_not_pins

/-! Cells with a known content -/

/-- A content is written to an empty cell, which stays in hand. -/
theorem write (h : Own K rt n R τ) (c : Cell) (i : Nat) (hi : R i = .hole l) :
    Own K (rt.set l c) (n + 1) ((R.clear [i]).add n [.filled l c]) τ := by
  refine h.replace [i] (List.nodup_singleton i) (G := [.hole l]) [.filled l c] (by simp [hi])
    (by simp) fun ρ hl => ?_
  simp only [resToks_cons, resToks_nil, Res.toks, add_zero] at hl ⊢
  exact LinearHeap.Inv.write hl c

/-- What lies in a cell in hand no longer matters. -/
theorem forget {c : Cell} (h : Own K rt n R τ) (i : Nat) (hi : R i = .filled l c) :
    Own K rt (n + 1) ((R.clear [i]).add n [.hole l]) τ := by
  refine h.replace [i] (List.nodup_singleton i) (G := [.filled l c]) [.hole l] (by simp [hi])
    (by simp) fun ρ hl => ?_
  simp only [resToks_cons, resToks_nil, Res.toks, add_zero] at hl ⊢
  exact LinearHeap.Inv.forget hl

/-- A cell in hand becomes static. -/
theorem freeze {c : Cell} (h : Own K rt n R τ) (i : Nat) (hi : R i = .filled l c) :
    K.Le (Function.update K l (some c)) ∧
      Own (Function.update K l (some c)) rt n (R.clear [i]) τ := by
  have hle : K.Le (Function.update K l (some c)) := by
    have hl := h.linear
    rw [File.toks_set h.out i, hi, add_assoc] at hl
    exact (LinearHeap.Inv.freeze hl).2
  refine ⟨hle, h.replaceLe [i] (List.nodup_singleton i) (G := [.filled l c]) [] (by simp [hi]) hle
    (by simp) fun ρ hl => ?_⟩
  simp only [resToks_cons, resToks_nil, Res.toks, add_zero, zero_add] at hl ⊢
  exact (LinearHeap.Inv.freeze hl).1

theorem filled_eq {c : Cell} (h : Own K rt n R τ) (i : Nat) (hi : R i = .filled l c) :
    rt.heap l = c := by
  have hl := h.linear
  rw [File.toks_set h.out i, hi, add_assoc] at hl
  exact LinearHeap.Inv.held_eq hl (by simp)

/-- Static cells lie below the allocation pointer. -/
theorem static_lt {c : Cell} (h : Own K rt n R τ) (hc : K l = some c) : l < rt.next := by
  obtain ⟨st, hI⟩ := h.linear
  exact (hI.frozen l c hc).2.2

/-- A word without tokens comes from nowhere. -/
theorem imm (h : Own K rt n R τ) (t : Term) (ht : WordOk K t) (hw : wordToks t = 0) :
    Own K rt (n + 1) (R.add n [.word t]) τ := by
  refine h.replace [] List.nodup_nil (G := []) [.word t] rfl ?_ fun ρ hl => ?_
  · intro r hr
    rw [List.mem_singleton.mp hr]
    exact ht
  · simpa [hw] using hl

end Own

theorem num_ok (v : Nat) : WordOk K (termNewNum v) := termNew_ok (by decide) 0 v

theorem num_toks (v : Nat) : wordToks (termNewNum v) = 0 := rfl

/-- The outcome of a rule: one word is left in hand. -/
def Yields (K : Statics) (τ : Toks) (r : Rt × Term) : Prop := Has K r.1 [.word r.2] τ

theorem Own.yield {rt : Rt} {n : Nat} {R : File} {τ : Toks} {t : Term} (h : Own K rt n R τ) (i : Nat)
    (hi : R i = .word t) (hp : (List.range n).all (fun k => [i].elem k || !(R k).pins) = true) :
    Yields K τ (rt, t) := by
  have hk := h.keep [i] (List.nodup_singleton i) hp
  rwa [List.map_singleton, hi] at hk

end Hvm
