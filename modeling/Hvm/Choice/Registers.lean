import Hvm.Choice.Claims

/-! The registers of a rule: words and cells with what they mean. Each operation of the runtime
consumes registers and appends its results. -/

namespace Hvm.Choice

open Oracle

/-- The runtime `rt` is linear with the tokens `τ` in hand. -/
abbrev Linear (K : Statics) (rt : Rt) (τ : Toks) : Prop := meaning.Inv K rt.heap rt.next τ

/-- The tokens of `n` empty cells. -/
def holeToks (l : Nat) : Nat → Toks
  | 0 => 0
  | n + 1 => {.held l none} + holeToks (l + 1) n

theorem holeToks_add (l a b : Nat) : holeToks l (a + b) = holeToks l a + holeToks (l + a) b := by
  induction a generalizing l with
  | zero => rw [holeToks, zero_add, zero_add, add_zero]
  | succ a ih =>
    rw [Nat.succ_add, holeToks, ih, holeToks, add_assoc, add_assoc, add_comm 1 a]

/-- Words and cells with a value and a bound on the ranks of the references in them; cells
without a content; the content of a dup cell is out; a suspended book term. -/
inductive Res where
  | nil
  | word (t : Term) (d : Den) (m : ℚ)
  | cell (l : Nat) (d : Den) (m : ℚ)
  | cells (l : Nat) (ds : List Den) (m : ℚ)
  | hole (l : Nat)
  | holes (l n : Nat)
  | filled (l : Nat) (c : Cell)
  | taken (l lab : Nat) (right : Bool) (d : Den) (k : ℚ)
  | refs (bs : List Nat) (ρ : Env) (O : Multiset Occ)
  | susp (ls tm : Nat) (bs : List Nat) (ρ : Env) (O : Multiset Occ) (e : Expr) (m : ℚ)

namespace Res

def Holds (K : Statics) : Res → Toks → Prop
  | .nil, σ => σ = 0
  | .word t d m, σ => Word K t d m σ
  | .cell l d m, σ => ∃ c : Claim, c.den = d ∧ c.rank ≤ m ∧ σ = {.own l (.cell c)}
  | .cells l ds m, σ =>
    ∃ cs : List Claim, cs.map Claim.den = ds ∧ (∀ c ∈ cs, c.rank ≤ m) ∧ σ = nodeToks l cs
  | .hole l, σ => σ = {.held l none}
  | .holes l n, σ => σ = holeToks l n
  | .filled l c, σ => σ = {.held l (some c)}
  | .taken l lab right d k, σ => σ = {.shareHeld l (.lab lab d k) right}
  | .refs bs ρ O, σ => σ = occToks bs ρ O
  | .susp ls tm bs ρ O e m, σ => Suspends K ls tm bs ρ O e m ∧ σ = occToks bs ρ O

def pins : Res → Bool
  | .taken .. => true
  | _ => false

variable {K K' : Statics} {σ : Toks} {r : Res}

theorem Holds.mono (hK : K.Le K') (h : r.Holds K σ) : r.Holds K' σ := by
  cases r <;> first
    | exact h
    | exact Word.mono hK h le_rfl
    | exact ⟨h.1.mono hK le_rfl, h.2⟩

theorem holeToks_not_pins {l n : Nat} : ∀ t ∈ holeToks l n, ¬ t.Pins := by
  induction n generalizing l with
  | zero =>
    intro t ht
    cases ht
  | succ n ih =>
    intro t ht
    rw [holeToks, Multiset.mem_add, Multiset.mem_singleton] at ht
    rcases ht with rfl | ht
    · exact id
    · exact ih t ht

theorem Holds.not_pins (hr : r.pins = false) (h : r.Holds K σ) : ∀ t ∈ σ, ¬ t.Pins := by
  have hone {x : Tok} (hx : ¬ x.Pins) : ∀ t ∈ ({x} : Toks), ¬ t.Pins := by
    intro t ht
    rwa [Multiset.mem_singleton.mp ht]
  cases r with
  | nil =>
    obtain rfl : σ = 0 := h
    intro t ht
    cases ht
  | word t d m => exact Word.not_pins h
  | cell l d m =>
    obtain ⟨c, -, -, rfl⟩ := h
    exact hone id
  | cells l ds m =>
    obtain ⟨cs, -, -, rfl⟩ := h
    exact nodeToks_not_pins
  | hole l =>
    obtain rfl : σ = _ := h
    exact hone id
  | holes l n =>
    obtain rfl : σ = _ := h
    exact holeToks_not_pins
  | filled l c =>
    obtain rfl : σ = _ := h
    exact hone id
  | taken l lab right d k => cases hr
  | refs bs ρ O =>
    obtain rfl : σ = _ := h
    exact occToks_not_pins
  | susp ls tm bs ρ O e m =>
    obtain ⟨-, rfl⟩ := h
    exact occToks_not_pins

end Res

def registers : LinearHeap.RegisterKind Mark Cell Res where
  empty := .nil
  Holds := Res.Holds
  empty_iff := Iff.rfl
  mono := Res.Holds.mono
  pins := Res.pins
  unpinned := Res.Holds.not_pins

/-- The runtime is linear with the registers below `n` of `R` and the further tokens `τ` in
hand. -/
abbrev Own (K : Statics) (rt : Rt) (n : Nat) (R : LinearHeap.Slots Res) (τ : Toks) : Prop :=
  LinearHeap.Ledger registers K (Linear K rt) n R τ

/-- `Own` for a list of registers, numbered from 0. -/
abbrev Has (K : Statics) (rt : Rt) (S : List Res) (τ : Toks) : Prop :=
  Own K rt S.length (LinearHeap.Slots.ofList .nil S) τ

/-- The registers after `is` have been used up. -/
abbrev spend (R : LinearHeap.Slots Res) (is : List Nat) : LinearHeap.Slots Res :=
  LinearHeap.Slots.clear .nil R is

variable {K K' : Statics} {rt rt' : Rt} {n : Nat} {R : LinearHeap.Slots Res} {τ : Toks} {t : Term}
  {d : Den} {m : ℚ} {right : Bool}

theorem Holds.exists_word {c : Claim} {x : Cell} {σ : Toks} {m : ℚ} (h : Holds K (.cell c) x σ)
    (hm : c.rank ≤ m) : ∃ t, x = .tm t ∧ Word K t c.den m σ := by
  cases x with
  | tm t => exact ⟨t, rfl, Word.weaken h hm⟩
  | alo ls tm => exact h.elim

theorem Linear.weaken {σ σ' ρ : Toks} (hl : Linear K rt (σ + ρ)) (hle : σ' ≤ σ)
    (hp : ∀ t ∈ σ, ¬ t.Pins) : Linear K rt (σ' + ρ) := by
  obtain ⟨δ, rfl⟩ := Multiset.le_iff_exists_add.mp hle
  have he : σ' + δ + ρ = δ + (σ' + ρ) := by abel
  rw [he] at hl
  exact LinearHeap.Meaning.Inv.drop hl fun t ht => hp t (Multiset.mem_add.mpr (.inr ht))

theorem Linear.alloc {ρ : Toks} (n : Nat) (hl : Linear K rt ρ) :
    Linear K { rt with next := rt.next + n } (holeToks rt.next n + ρ) := by
  induction n with
  | zero => rwa [holeToks, zero_add]
  | succ n ih =>
    rw [holeToks_add, add_comm (holeToks _ n), add_assoc]
    exact LinearHeap.Meaning.Inv.alloc ih

namespace Own

theorem replace (h : Own K rt n R τ) (is : List Nat) (hn : is.Nodup) {gs : List Res}
    (P : List Res) (hgs : is.map R = gs)
    (hmove : ∀ σs ρ, List.Forall₂ (Res.Holds K) gs σs → Linear K rt (σs.sum + ρ) →
      ∃ σs', List.Forall₂ (Res.Holds K) P σs' ∧ Linear K rt' (σs'.sum + ρ)) :
    Own K rt' (n + P.length) ((spend R is).add n P) τ := by
  obtain ⟨_, -, h⟩ := LinearHeap.Ledger.replace h is hn (fun _ : Unit => P) (fun _ => True) hgs
    (fun _ => rfl) (LinearHeap.Frozen.Le.refl K) fun σs ρ hS hI => by
      obtain ⟨σs, hP, hI⟩ := hmove σs ρ hS hI
      exact ⟨(), σs, trivial, hP, hI⟩
  exact h

/-- One register is exchanged for new ones, of which `Q` is known. -/
theorem expose {ι : Type} (h : Own K rt n R τ) (i : Nat) {g : Res} {k : Nat} (P : ι → List Res)
    (Q : ι → Prop) (hg : R i = g) (hk : ∀ x, (P x).length = k)
    (hmove : ∀ σ ρ, g.Holds K σ → Linear K rt (σ + ρ) →
      ∃ x σs, Q x ∧ List.Forall₂ (Res.Holds K) (P x) σs ∧ Linear K rt' (σs.sum + ρ)) :
    ∃ x, Q x ∧ Own K rt' (n + k) ((spend R [i]).add n (P x)) τ := by
  have hgs : [i].map R = [g] := by rw [List.map_singleton, hg]
  refine LinearHeap.Ledger.replace h [i] (List.nodup_singleton i) P Q hgs hk
    (LinearHeap.Frozen.Le.refl K) ?_
  intro σs ρ hS hI
  obtain ⟨σ, σs, hσ, hnil, rfl⟩ := List.forall₂_cons_left_iff.mp hS
  cases hnil
  rw [List.sum_singleton] at hI
  exact hmove σ ρ hσ hI

theorem replace₁ (h : Own K rt n R τ) (i : Nat) {g : Res} (P : List Res) (hg : R i = g)
    (hmove : ∀ σ ρ, g.Holds K σ → Linear K rt (σ + ρ) →
      ∃ σs, List.Forall₂ (Res.Holds K) P σs ∧ Linear K rt' (σs.sum + ρ)) :
    Own K rt' (n + P.length) ((spend R [i]).add n P) τ := by
  have hgs : [i].map R = [g] := by rw [List.map_singleton, hg]
  refine h.replace [i] (List.nodup_singleton i) P hgs fun σs ρ hS hI => ?_
  obtain ⟨σ, σs, hσ, hnil, rfl⟩ := List.forall₂_cons_left_iff.mp hS
  cases hnil
  rw [List.sum_singleton] at hI
  exact hmove σ ρ hσ hI

theorem replace₂ (h : Own K rt n R τ) (i j : Nat) (hn : [i, j].Nodup) {g g' : Res}
    (P : List Res) (hg : R i = g) (hg' : R j = g')
    (hmove : ∀ σ σ' ρ, g.Holds K σ → g'.Holds K σ' → Linear K rt (σ + (σ' + ρ)) →
      ∃ σs, List.Forall₂ (Res.Holds K) P σs ∧ Linear K rt' (σs.sum + ρ)) :
    Own K rt' (n + P.length) ((spend R [i, j]).add n P) τ := by
  have hgs : [i, j].map R = [g, g'] := by rw [List.map_cons, List.map_singleton, hg, hg']
  refine h.replace [i, j] hn P hgs fun σs ρ hS hI => ?_
  obtain ⟨σ, σs, hσ, hrest, rfl⟩ := List.forall₂_cons_left_iff.mp hS
  obtain ⟨σ', σs, hσ', hnil, rfl⟩ := List.forall₂_cons_left_iff.mp hrest
  cases hnil
  rw [List.sum_cons, List.sum_singleton, add_assoc] at hI
  exact hmove σ σ' ρ hσ hσ' hI

/-- Tokens that come from nowhere join the registers. -/
theorem obtain₀ (h : Own K rt n R τ) (p : Res) (σ : Toks) (hp : p.Holds K σ)
    (hmove : ∀ ρ, Linear K rt ρ → Linear K rt' (σ + ρ)) : Own K rt' (n + 1) (R.add n [p]) τ := by
  refine h.replace [] List.nodup_nil [p] rfl fun σs ρ hS hI => ?_
  cases hS
  rw [List.sum_nil, zero_add] at hI
  refine ⟨[σ], .cons hp .nil, ?_⟩
  rw [List.sum_singleton]
  exact hmove ρ hI

/-- A register is read as others that hold the same tokens. -/
theorem recast (h : Own K rt n R τ) (i : Nat) {g : Res} (P : List Res) (hg : R i = g)
    (hP : ∀ σ, g.Holds K σ → ∃ σs, List.Forall₂ (Res.Holds K) P σs ∧ σs.sum = σ) :
    Own K rt (n + P.length) ((spend R [i]).add n P) τ := by
  refine h.replace₁ i P hg fun σ ρ hσ hI => ?_
  obtain ⟨σs, hP, rfl⟩ := hP σ hσ
  exact ⟨σs, hP, hI⟩

theorem keep (h : Own K rt n R τ) (is : List Nat) (hn : is.Nodup)
    (hp : (List.range n).all (fun i => !(spend R is i).pins) = true) : Has K rt (is.map R) τ :=
  LinearHeap.Ledger.keep h (fun _ _ => LinearHeap.Meaning.Inv.drop) is hn hp

theorem tick (h : Own K rt n R τ) : Own K rt.tick n R τ := h

theorem linear (h : Own K rt n R τ) : ∃ ρ, Linear K rt ρ := by
  obtain ⟨s, -, -, hI⟩ := h
  exact ⟨_, hI⟩

theorem static (h : Own K rt n R τ) {l : Nat} {c : Cell} (hc : K l = some c) : rt.heap l = c := by
  obtain ⟨ρ, st, hI, -⟩ := h.linear
  exact (hI.frozen l c hc).2.1

/-- Static cells lie below the allocation pointer. -/
theorem static_lt (h : Own K rt n R τ) {l : Nat} {c : Cell} (hc : K l = some c) : l < rt.next := by
  obtain ⟨ρ, st, hI, -⟩ := h.linear
  exact (hI.frozen l c hc).2.2

/-! ### Words -/

theorem holds (h : Own K rt n R τ) (i : Nat) : ∃ σ, (R i).Holds K σ := by
  obtain ⟨s, hF, -⟩ := h
  exact ⟨s i, hF i⟩

theorem word_of (h : Own K rt n R τ) (i : Nat) {t : Term} {d : Den} {m : ℚ}
    (hi : R i = .word t d m) : ∃ σ, Word K t d m σ := by
  obtain ⟨σ, hσ⟩ := h.holds i
  rw [hi] at hσ
  exact ⟨σ, hσ⟩

theorem plain (h : Own K rt n R τ) (i : Nat) {t : Term} {d : Den} {m : ℚ}
    (hi : R i = .word t d m) : t.Plain := by
  obtain ⟨σ, hw⟩ := h.word_of i hi
  exact hw.plain

/-- A word without references comes from nowhere. -/
theorem imm (h : Own K rt n R τ) {t : Term} {d : Den} {m : ℚ} (ht : Word K t d m 0) :
    Own K rt (n + 1) (R.add n [.word t d m]) τ :=
  h.obtain₀ _ 0 ht fun ρ hI => by rwa [zero_add]

/-- A node word is given up for its fields. -/
theorem openNode (h : Own K rt n R τ) (i : Nat) {t : Term} {d : Den} {m : ℚ} {s : Shape}
    (hi : R i = .word t d m) (hs : Shape.ofTag t.tag t.ext = some s) :
    ∃ ds k, (k < m ∧ ds.length = s.arity ∧ d = s.den ds) ∧
      Own K rt (n + 1) ((spend R [i]).add n [.cells t.val ds k]) τ := by
  obtain ⟨⟨ds, k⟩, hq, h⟩ := h.expose i (fun x : List Den × ℚ => [.cells t.val x.1 x.2])
    (fun x => x.2 < m ∧ x.1.length = s.arity ∧ d = s.den x.1) hi (fun _ => rfl) fun σ ρ hw hI => by
      obtain ⟨cs, hlen, hb, rfl, rfl⟩ := Word.node_inv hw hs
      obtain ⟨k, hk, hcs⟩ := Claim.exists_bound hb
      refine ⟨(cs.map Claim.den, k), [nodeToks t.val cs], ⟨hk, ?_, rfl⟩,
        .cons ⟨cs, rfl, hcs, rfl⟩ .nil, ?_⟩
      · rw [List.length_map, hlen]
      · rwa [List.sum_singleton]
  exact ⟨ds, k, hq, h⟩

theorem weaken (h : Own K rt n R τ) (r : ℚ) (i : Nat) (hi : R i = .word t d m)
    (hr : m ≤ r) : Own K rt (n + 1) ((spend R [i]).add n [.word t d r]) τ := by
  refine h.recast i _ hi fun σ hw => ⟨[σ], .cons (Word.weaken hw hr) .nil, ?_⟩
  exact List.sum_singleton

/-! ### Cells -/

theorem load (h : Own K rt n R τ) (i : Nat) {l : Nat} {d : Den} {m : ℚ}
    (hi : R i = .cell l d m) :
    Own K rt (n + 2) ((spend R [i]).add n [.hole l, .word (heapRead rt l) d m]) τ := by
  refine h.replace₁ i _ hi ?_
  rintro σ ρ ⟨c, rfl, hm, rfl⟩ hI
  obtain ⟨σ, -, hh, hI⟩ := hI.load
  obtain ⟨t, hc, hw⟩ := hh.exists_word hm
  have hread : heapRead rt l = t := by rw [heapRead, hc]; rfl
  rw [hread]
  have hhole : (Res.hole l).Holds K ({.held l none} : Toks) := rfl
  refine ⟨[_, σ], .cons hhole (.cons hw .nil), ?_⟩
  simpa [add_assoc] using hI

theorem store (h : Own K rt n R τ) (i j : Nat) {l : Nat} {t : Term} {d : Den} {m : ℚ}
    (hi : R i = .hole l) (hj : R j = .word t d m) (hn : [i, j].Nodup) :
    Own K (heapSet rt l t) (n + 1) ((spend R [i, j]).add n [.cell l d m]) τ := by
  refine h.replace₂ i j hn _ hi hj ?_
  rintro σ σ' ρ rfl (hw : Word K t d m σ') hI
  refine ⟨[({.own l (.cell ⟨d, m⟩)} : Toks)], .cons ⟨⟨d, m⟩, rfl, le_refl m, rfl⟩ .nil, ?_⟩
  rw [List.sum_singleton]
  exact hI.store (.cell ⟨d, m⟩) hw.plain.1 hw hw.not_pins

/-- The first cell of a block. -/
theorem splitCell (h : Own K rt n R τ) (i : Nat) {l : Nat} {d : Den} {ds : List Den} {m : ℚ}
    (hi : R i = .cells l (d :: ds) m) :
    Own K rt (n + 2) ((spend R [i]).add n [.cell l d m, .cells (l + 1) ds m]) τ := by
  refine h.recast i _ hi ?_
  rintro σ ⟨cs, hcs, hm, rfl⟩
  obtain ⟨c, cs, rfl, rfl, rfl⟩ := List.map_eq_cons_iff.mp hcs
  have hc : (Res.cell l c.den m).Holds K {.own l (.cell c)} :=
    ⟨c, rfl, hm c List.mem_cons_self, rfl⟩
  have hrest : (Res.cells (l + 1) (cs.map Claim.den) m).Holds K (nodeToks (l + 1) cs) :=
    ⟨cs, rfl, fun c hc => hm c (List.mem_cons_of_mem _ hc), rfl⟩
  exact ⟨[_, _], .cons hc (.cons hrest .nil), by rw [List.sum_cons, List.sum_singleton, nodeToks]⟩

theorem joinCells (h : Own K rt n R τ) (i j : Nat) {l : Nat} {d : Den} {ds : List Den} {m : ℚ}
    (hi : R i = .cell l d m) (hj : R j = .cells (l + 1) ds m)
    (hn : [i, j].Nodup) : Own K rt (n + 1) ((spend R [i, j]).add n [.cells l (d :: ds) m]) τ := by
  refine h.replace₂ i j hn _ hi hj ?_
  rintro σ σ' ρ ⟨c, rfl, hc, rfl⟩ ⟨cs, rfl, hcs, rfl⟩ hI
  have hall : (Res.cells l (c.den :: cs.map Claim.den) m).Holds K (nodeToks l (c :: cs)) := by
    refine ⟨c :: cs, rfl, ?_, rfl⟩
    intro x hx
    rcases List.mem_cons.mp hx with rfl | hx
    · exact hc
    · exact hcs x hx
  refine ⟨[_], .cons hall .nil, ?_⟩
  rwa [List.sum_singleton, nodeToks, add_assoc]

/-- The empty block. -/
theorem noCells (h : Own K rt n R τ) (l : Nat) (m : ℚ) : Own K rt (n + 1) (R.add n [.cells l [] m]) τ := by
  refine h.obtain₀ _ 0 ⟨[], rfl, ?_, rfl⟩ fun ρ hI => by rwa [zero_add]
  intro c hc
  cases hc

/-- A block of filled cells becomes a node. -/
theorem closeCells (h : Own K rt n R τ) (r : ℚ) (i : Nat) {t : Term} {ds : List Den} {m : ℚ}
    {s : Shape} (hi : R i = .cells t.val ds m) (hp : t.Plain)
    (hs : Shape.ofTag t.tag t.ext = some s) (hlen : ds.length = s.arity) (hm : m < r) :
    Own K rt (n + 1) ((spend R [i]).add n [.word t (s.den ds) r]) τ := by
  refine h.recast i _ hi ?_
  rintro σ ⟨cs, rfl, hcs, rfl⟩
  rw [List.length_map] at hlen
  exact ⟨[_], .cons (Word.node hp hs hlen fun c hc => lt_of_le_of_lt (hcs c hc) hm) .nil,
    List.sum_singleton⟩

/-- A one-field node. -/
theorem close₁ (h : Own K rt n R τ) (r : ℚ) (i : Nat) {t : Term} {d : Den} {m : ℚ} {s : Shape}
    (hi : R i = .cell t.val d m) (hp : t.Plain)
    (hs : Shape.ofTag t.tag t.ext = some s) (hlen : s.arity = 1) (hm : m < r) :
    Own K rt (n + 1) ((spend R [i]).add n [.word t (s.den [d]) r]) τ := by
  refine h.recast i _ hi ?_
  rintro σ ⟨c, rfl, hc, rfl⟩
  have hw : Word K t (s.den ([c].map Claim.den)) r (nodeToks t.val [c]) := by
    refine Word.node hp hs hlen.symm fun x hx => ?_
    rw [List.mem_singleton.mp hx]
    exact lt_of_le_of_lt hc hm
  refine ⟨[_], .cons hw .nil, ?_⟩
  rw [List.sum_singleton, nodeToks, nodeToks, add_zero]

/-- A two-field node. -/
theorem close₂ (h : Own K rt n R τ) (r : ℚ) (i j : Nat) {t : Term} {d e : Den} {m k : ℚ}
    {s : Shape} (hi : R i = .cell t.val d m) (hj : R j = .cell (t.val + 1) e k)
    (hn : [i, j].Nodup) (hp : t.Plain) (hs : Shape.ofTag t.tag t.ext = some s)
    (hlen : s.arity = 2) (hm : m < r) (hk : k < r) :
    Own K rt (n + 1) ((spend R [i, j]).add n [.word t (s.den [d, e]) r]) τ := by
  refine h.replace₂ i j hn _ hi hj ?_
  rintro σ σ' ρ ⟨c, rfl, hc, rfl⟩ ⟨c', rfl, hc', rfl⟩ hI
  have hw : Word K t (s.den ([c, c'].map Claim.den)) r (nodeToks t.val [c, c']) := by
    refine Word.node hp hs hlen.symm fun x hx => ?_
    rcases List.mem_cons.mp hx with rfl | hx
    · exact lt_of_le_of_lt hc hm
    · rw [List.mem_singleton.mp hx]
      exact lt_of_le_of_lt hc' hk
  refine ⟨[_], .cons hw .nil, ?_⟩
  rwa [List.sum_singleton, nodeToks, nodeToks, nodeToks, add_zero, add_assoc]

/-- Fresh cells. -/
theorem alloc (h : Own K rt n R τ) (k : Nat) :
    Own K { rt with next := rt.next + k } (n + 1) (R.add n [.holes rt.next k]) τ := by
  have hholes : (Res.holes rt.next k).Holds K (holeToks rt.next k) := rfl
  exact h.obtain₀ _ _ hholes fun ρ hI => Linear.alloc k hI

theorem alloc₁ (h : Own K rt n R τ) :
    Own K { rt with next := rt.next + 1 } (n + 1) (R.add n [.hole rt.next]) τ := by
  have hhole : (Res.hole rt.next).Holds K ({.held rt.next none} : Toks) := rfl
  exact h.obtain₀ _ _ hhole fun _ hI => LinearHeap.Meaning.Inv.alloc hI

theorem splitHole (h : Own K rt n R τ) (i : Nat) {l k : Nat} (hi : R i = .holes l (k + 1)) :
    Own K rt (n + 2) ((spend R [i]).add n [.hole l, .holes (l + 1) k]) τ := by
  refine h.recast i _ hi ?_
  rintro σ rfl
  have hhole : (Res.hole l).Holds K ({.held l none} : Toks) := rfl
  have hrest : (Res.holes (l + 1) k).Holds K (holeToks (l + 1) k) := rfl
  exact ⟨[_, _], .cons hhole (.cons hrest .nil), by rw [List.sum_cons, List.sum_singleton, holeToks]⟩

theorem splitHoles (h : Own K rt n R τ) (a b i : Nat) {l : Nat}
    (hi : R i = .holes l (a + b)) :
    Own K rt (n + 2) ((spend R [i]).add n [.holes l a, .holes (l + a) b]) τ := by
  refine h.recast i _ hi ?_
  rintro σ rfl
  have ha : (Res.holes l a).Holds K (holeToks l a) := rfl
  have hb : (Res.holes (l + a) b).Holds K (holeToks (l + a) b) := rfl
  exact ⟨[_, _], .cons ha (.cons hb .nil), by
    rw [List.sum_cons, List.sum_singleton, holeToks_add]⟩

/-- The cell of a one-field node. -/
theorem open₁ (h : Own K rt n R τ) (i : Nat) {t : Term} {d : Den} {m : ℚ} {s : Shape}
    (hi : R i = .word t d m) (hs : Shape.ofTag t.tag t.ext = some s)
    (hlen : s.arity = 1) :
    ∃ e k, (k < m ∧ d = s.den [e]) ∧ Own K rt (n + 1) ((spend R [i]).add n [.cell t.val e k]) τ := by
  obtain ⟨⟨e, k⟩, hq, h⟩ := h.expose i (fun x : Den × ℚ => [.cell t.val x.1 x.2])
    (fun x => x.2 < m ∧ d = s.den [x.1]) hi (fun _ => rfl) fun σ ρ hw hI => by
      obtain ⟨cs, hcs, hb, rfl, rfl⟩ := Word.node_inv hw hs
      obtain ⟨k, hk, hat⟩ := Claim.exists_bound hb
      obtain ⟨c, rfl⟩ := List.length_eq_one_iff.mp (hcs.trans hlen)
      refine ⟨(c.den, k), [nodeToks t.val [c]], ⟨hk, rfl⟩, .cons ⟨c, rfl, hat c (by simp), ?_⟩ .nil, ?_⟩
      · rw [nodeToks, nodeToks, add_zero]
      · rwa [List.sum_singleton]
  exact ⟨e, k, hq, h⟩

/-- The cells of a two-field node. -/
theorem open₂ (h : Own K rt n R τ) (i : Nat) {t : Term} {d : Den} {m : ℚ} {s : Shape}
    (hi : R i = .word t d m) (hs : Shape.ofTag t.tag t.ext = some s)
    (hlen : s.arity = 2) :
    ∃ a b k, (k < m ∧ d = s.den [a, b]) ∧
      Own K rt (n + 2) ((spend R [i]).add n [.cell t.val a k, .cell (t.val + 1) b k]) τ := by
  obtain ⟨⟨a, b, k⟩, hq, h⟩ := h.expose (k := 2) i
    (fun x : Den × Den × ℚ => [.cell t.val x.1 x.2.2, .cell (t.val + 1) x.2.1 x.2.2])
    (fun x => x.2.2 < m ∧ d = s.den [x.1, x.2.1]) hi (fun _ => rfl) fun σ ρ hw hI => by
      obtain ⟨cs, hcs, hb, rfl, rfl⟩ := Word.node_inv hw hs
      obtain ⟨k, hk, hat⟩ := Claim.exists_bound hb
      obtain ⟨c, c', rfl⟩ := List.length_eq_two.mp (hcs.trans hlen)
      have hc : (Res.cell t.val c.den k).Holds K {.own t.val (.cell c)} :=
        ⟨c, rfl, hat c (by simp), rfl⟩
      have hc' : (Res.cell (t.val + 1) c'.den k).Holds K {.own (t.val + 1) (.cell c')} :=
        ⟨c', rfl, hat c' (by simp), rfl⟩
      refine ⟨(c.den, c'.den, k), [_, _], ⟨hk, rfl⟩, .cons hc (.cons hc' .nil), ?_⟩
      rwa [List.sum_cons, List.sum_singleton, ← add_zero {LinearHeap.Tok.own (t.val + 1) _}]
  exact ⟨a, b, k, hq, h⟩

end Own

/-! ### Building nodes -/

/-- A word with its value and the rank of its references. -/
structure Arg where
  term : Term
  den : Den
  rank : ℚ

def Arg.res (a : Arg) : Res := .word a.term a.den a.rank

def Arg.claim (a : Arg) : Claim := ⟨a.den, a.rank⟩

/-- `termNewAt` fills the cells from `l` on. -/
theorem Linear.storeAll (as : List Arg) (σs : List Toks) {l : Nat} {ρ : Toks}
    (hl : Linear K rt (holeToks l as.length + (σs.sum + ρ)))
    (ha : List.Forall₂ (Res.Holds K) (as.map Arg.res) σs) :
    Linear K (termNewAt.go rt l (as.map Arg.term)) (nodeToks l (as.map Arg.claim) + ρ) := by
  induction as generalizing rt l ρ σs with
  | nil =>
    cases ha
    simpa [holeToks, nodeToks, termNewAt.go] using hl
  | cons a as ih =>
    obtain ⟨σ, σs, hw, hrest, rfl⟩ := List.forall₂_cons_left_iff.mp ha
    have hw : Word K a.term a.den a.rank σ := hw
    have he : holeToks l (a :: as).length + ((σ :: σs).sum + ρ) =
        {.held l none} + (σ + (holeToks (l + 1) as.length + (σs.sum + ρ))) := by
      rw [List.length_cons, holeToks, List.sum_cons]
      abel
    rw [he] at hl
    have hstored : Linear K (heapSet rt l a.term)
        ({.own l (.cell a.claim)} + (holeToks (l + 1) as.length + (σs.sum + ρ))) :=
      LinearHeap.Meaning.Inv.store hl (.cell a.claim) hw.plain.1 hw hw.not_pins
    have he' : {.own l (.cell a.claim)} + (holeToks (l + 1) as.length + (σs.sum + ρ)) =
        holeToks (l + 1) as.length + (σs.sum + ({.own l (.cell a.claim)} + ρ)) := by
      abel
    rw [he'] at hstored
    have hall := ih σs hstored hrest
    rw [List.map_cons, List.map_cons, termNewAt.go, nodeToks]
    have he'' : {.own l (.cell a.claim)} + nodeToks (l + 1) (as.map Arg.claim) + ρ =
        nodeToks (l + 1) (as.map Arg.claim) + ({.own l (.cell a.claim)} + ρ) := by
      abel
    rw [he'']
    exact hall

/-- The word of a fresh node. -/
theorem newWord {tag : Tag} {ext l : Nat} {s : Shape} (as : List Arg) {r : ℚ}
    (hs : Shape.ofTag tag ext = some s) (he : ext ≤ extMask) (hlen : as.length = s.arity)
    (hr : ∀ a ∈ as, a.rank < r) :
    Word K (termNew false tag ext l) (s.den (as.map Arg.den)) r (nodeToks l (as.map Arg.claim)) := by
  have hext : (termNew false tag ext l).ext = ext := Nat.mod_eq_of_lt (Nat.lt_succ_of_le he)
  have hbelow : ∀ c ∈ as.map Arg.claim, c.rank < r := by
    intro c hc
    obtain ⟨a, ha, rfl⟩ := List.mem_map.mp hc
    exact hr a ha
  have hw := Word.node (K := K) (w := termNew false tag ext l) (s := s) (termNew_plain tag ext l)
    (by rw [hext]; exact hs) (by rw [List.length_map, hlen]) hbelow
  have hden : (as.map Arg.claim).map Claim.den = as.map Arg.den := by
    rw [List.map_map]
    rfl
  rwa [hden] at hw

/-- A dup variable of a shared cell. -/
theorem copWord {lab l : Nat} (right : Bool) {d : Den} {m r : ℚ} (hlab : lab ≤ extMask) (hr : m < r) :
    Word K (termNew false (dupTag right) lab l) (side lab right d) r
      {.share l (.lab lab d m) right} := by
  have hext : (termNew false (dupTag right) lab l).ext = lab :=
    Nat.mod_eq_of_lt (Nat.lt_succ_of_le hlab)
  have htag : (termNew false (dupTag right) lab l).tag = dupTag right := rfl
  have hw := Word.cop (K := K) (d := d) (termNew_plain _ _ _) htag hr
  rwa [hext] at hw

namespace Own

/-- `termNewNode` on fresh cells. -/
theorem newNode (h : Own K rt n R τ) (tag : Tag) (ext : Nat) (r : ℚ) (as : List Arg) (is : List Nat)
    {s : Shape} (hi : is.map R = as.map Arg.res) (hd : is.Nodup)
    (hs : Shape.ofTag tag ext = some s) (he : ext ≤ extMask) (hlen : as.length = s.arity)
    (hr : ∀ a ∈ as, a.rank < r) :
    Own K (termNewNode rt tag ext (as.map Arg.term)).1
      (n + 1) ((spend R is).add n [.word (termNew false tag ext rt.next) (s.den (as.map Arg.den)) r]) τ := by
  refine h.replace is hd _ hi fun σs ρ hS hI => ?_
  have hw := newWord as (K := K) (l := rt.next) hs he hlen hr
  refine ⟨[_], .cons hw .nil, ?_⟩
  have hall := Linear.storeAll as σs (Linear.alloc as.length hI) hS
  rw [List.sum_singleton, termNewNode, List.length_map]
  exact hall

theorem newNode₁ (h : Own K rt n R τ) (tag : Tag) (ext : Nat) (r : ℚ) (i : Nat) {a : Term} {d : Den}
    {m : ℚ} {s : Shape} (hi : R i = .word a d m) (hs : Shape.ofTag tag ext = some s)
    (he : ext ≤ extMask) (hlen : s.arity = 1) (hm : m < r) :
    Own K (termNewNode rt tag ext [a]).1
      (n + 1) ((spend R [i]).add n [.word (termNew false tag ext rt.next) (s.den [d]) r]) τ := by
  refine h.newNode tag ext r [⟨a, d, m⟩] [i] ?_ (List.nodup_singleton i) hs he hlen.symm ?_
  · rw [List.map_singleton, hi]
    rfl
  · intro x hx
    rwa [List.mem_singleton.mp hx]

theorem newNode₂ (h : Own K rt n R τ) (tag : Tag) (ext : Nat) (r : ℚ) (i j : Nat) {a b : Term}
    {d e : Den} {m k : ℚ} {s : Shape} (hi : R i = .word a d m)
    (hj : R j = .word b e k) (hs : Shape.ofTag tag ext = some s)
    (he : ext ≤ extMask) (hlen : s.arity = 2) (hm : m < r) (hk : k < r) (hd : [i, j].Nodup) :
    Own K (termNewNode rt tag ext [a, b]).1
      (n + 1) ((spend R [i, j]).add n [.word (termNew false tag ext rt.next) (s.den [d, e]) r]) τ := by
  refine h.newNode tag ext r [⟨a, d, m⟩, ⟨b, e, k⟩] [i, j] ?_ hd hs he hlen.symm ?_
  · rw [List.map_cons, List.map_singleton, hi, hj]
    rfl
  · intro x hx
    rcases List.mem_cons.mp hx with rfl | hx
    · exact hm
    · rwa [List.mem_singleton.mp hx]

/-- `termNewAt` on two cells in hand. -/
theorem newAt (h : Own K rt n R τ) (tag : Tag) (ext : Nat) (r : ℚ) (i j p q : Nat) {l : Nat}
    {a b : Term} {d e : Den} {m k : ℚ} {s : Shape} (hi : R i = .hole l)
    (hj : R j = .hole (l + 1)) (hp : R p = .word a d m)
    (hq : R q = .word b e k) (hs : Shape.ofTag tag ext = some s)
    (he : ext ≤ extMask) (hlen : s.arity = 2) (hm : m < r) (hk : k < r) (hd : [i, j, p, q].Nodup) :
    Own K (termNewAt rt l tag ext [a, b]).1
      (n + 1) ((spend R [i, j, p, q]).add n [.word (termNew false tag ext l) (s.den [d, e]) r]) τ := by
  have hgs : [i, j, p, q].map R = [.hole l, .hole (l + 1), .word a d m, .word b e k] := by
    simp only [List.map_cons, List.map_nil, hi, hj, hp, hq]
  have hranks : ∀ x ∈ [Arg.mk a d m, Arg.mk b e k], x.rank < r := by
    intro x hx
    rcases List.mem_cons.mp hx with rfl | hx
    · exact hm
    · rwa [List.mem_singleton.mp hx]
  refine h.replace [i, j, p, q] hd _ hgs fun σs ρ hS hI => ?_
  obtain ⟨σ₀, σs₁, h₀, hS₁, rfl⟩ := List.forall₂_cons_left_iff.mp hS
  obtain ⟨σ₁, σs, h₁, hwords, rfl⟩ := List.forall₂_cons_left_iff.mp hS₁
  obtain rfl : σ₀ = {.held l none} := h₀
  obtain rfl : σ₁ = {.held (l + 1) none} := h₁
  have hw := newWord [⟨a, d, m⟩, ⟨b, e, k⟩] (K := K) (l := l) hs he hlen.symm hranks
  refine ⟨[_], .cons hw .nil, ?_⟩
  rw [List.sum_singleton]
  refine Linear.storeAll [⟨a, d, m⟩, ⟨b, e, k⟩] σs ?_ hwords
  have hhole : holeToks l 2 = {.held l none} + {.held (l + 1) none} := by
    rw [holeToks, holeToks, holeToks, add_zero]
  have hsum : ({.held l none} :: {.held (l + 1) none} :: σs).sum + ρ =
      holeToks l 2 + (σs.sum + ρ) := by
    rw [hhole, List.sum_cons, List.sum_cons]
    abel
  rw [hsum] at hI
  exact hI

/-! ### Sharing -/

/-- A cell becomes a dup cell in place. -/
theorem share (h : Own K rt n R τ) (lab : Nat) (r : ℚ) (i : Nat) {l : Nat} {d : Den} {m : ℚ}
    (hi : R i = .cell l d m) (hlab : lab ≤ extMask) (hr : m < r) :
    Own K rt (n + 2) ((spend R [i]).add n [.word (termCloneAt l lab).k0 (side lab false d) r,
      .word (termCloneAt l lab).k1 (side lab true d) r]) τ := by
  refine h.replace₁ i _ hi ?_
  rintro σ ρ ⟨c, rfl, hc, rfl⟩ hI
  have hshared := LinearHeap.Meaning.Inv.share hI (.lab lab c.den m) fun x σ hx => by
    obtain ⟨t, rfl, hw⟩ := hx.exists_word hc
    exact ⟨hw, hw.not_pins⟩
  refine ⟨[_, _], .cons (copWord false hlab hr) (.cons (copWord true hlab hr) .nil),
    ?_⟩
  rwa [List.sum_cons, List.sum_singleton, add_assoc]

theorem clone (h : Own K rt n R τ) (lab : Nat) (r : ℚ) (i : Nat) {t : Term} {d : Den} {m : ℚ}
    (hi : R i = .word t d m) (hlab : lab ≤ extMask) (hr : m < r) :
    Own K (termClone rt lab t).1 (n + 2) ((spend R [i]).add n [.word (termClone rt lab t).2.k0 (side lab false d) r,
      .word (termClone rt lab t).2.k1 (side lab true d) r]) τ := by
  refine h.replace₁ i _ hi ?_
  rintro σ ρ (hw : Word K t d m σ) hI
  have hcell : Linear K (termClone rt lab t).1 ({.own rt.next (.cell ⟨d, m⟩)} + ρ) :=
    LinearHeap.Meaning.Inv.store (LinearHeap.Meaning.Inv.alloc hI) (.cell ⟨d, m⟩) hw.plain.1 hw
      hw.not_pins
  have hshared := LinearHeap.Meaning.Inv.share hcell (.lab lab d m) fun x σ hx => by
    obtain ⟨t, rfl, hw⟩ := Holds.exists_word (c := ⟨d, m⟩) hx (le_refl m)
    exact ⟨hw, hw.not_pins⟩
  refine ⟨[_, _], .cons (copWord false hlab hr) (.cons (copWord true hlab hr) .nil),
    ?_⟩
  rwa [List.sum_cons, List.sum_singleton, add_assoc]

/-- A dup variable whose cell no frame reduces takes the result its twin has left, or else the
shared term. -/
theorem takeShare (h : Has K rt [.word t d m] τ) (ht : t.tag = dupTag right)
    (hτ : ∀ a r, LinearHeap.Tok.shareHeld t.val a r ∈ τ → ∃ n e k, a = .lab n e k ∧ m ≤ k) :
    ((heapRead rt t.val).sub = true ∧
        Has K rt [.word (termSubSet (heapRead rt t.val) false) d m] τ) ∨
      ((heapRead rt t.val).sub = false ∧ ∃ e k, (k < m ∧ d = side t.ext right e) ∧
        Has K rt [.taken t.val t.ext right e k, .word (heapRead rt t.val) e k] τ) := by
  obtain ⟨σs, hS, hI⟩ := LinearHeap.Ledger.list_iff.mp h
  obtain ⟨σ, σs, hw, hnil, rfl⟩ := List.forall₂_cons_left_iff.mp hS
  cases hnil
  rw [List.sum_singleton] at hI
  obtain ⟨e, k, hk, rfl, rfl⟩ := Word.cop_inv hw ht
  have hfree : ∀ a r, LinearHeap.Tok.shareHeld t.val a r ∉ τ := by
    -- its claim has the rank of the frame, above the one of the variable
    intro a r hm
    have he : Mark.lab t.ext e k = a :=
      LinearHeap.Meaning.Inv.share_claim hI
        (Multiset.mem_add.mpr (.inl (Multiset.mem_singleton_self _)))
        (Multiset.mem_add.mpr (.inr hm))
    obtain ⟨n, e', k', ha, hle⟩ := hτ a r hm
    rw [ha] at he
    obtain ⟨-, -, rfl⟩ := Mark.lab.inj he
    exact absurd hk (not_lt.mpr hle)
  rcases LinearHeap.Meaning.Inv.takeShare hI hfree with ⟨hmark, σ, hleft, hI⟩ | ⟨hmark, σ, hh, hI⟩
  · have hsub : (heapRead rt t.val).sub = true := (marked_eq (rt.heap t.val)).symm.trans hmark
    have hread : discipline.unmark (rt.heap t.val) = .tm (termSubSet (heapRead rt t.val) false) := by
      obtain ⟨n, e', k', w, -, hc, -⟩ := Left.exists_word hleft
      cases hx : rt.heap t.val with
      | alo ls tm =>
        rw [hx] at hc
        cases hc
      | tm x =>
        rw [heapRead, hx]
        rfl
    rw [hread] at hleft
    have hw : Word K (termSubSet (heapRead rt t.val) false) (side t.ext right e) m σ :=
      Word.weaken hleft hk.le
    exact .inl ⟨hsub, LinearHeap.Ledger.list_iff.mpr ⟨[σ], .cons hw .nil, by rwa [List.sum_singleton]⟩⟩
  · have hsub : (heapRead rt t.val).sub = false := (marked_eq (rt.heap t.val)).symm.trans hmark
    obtain ⟨n, e', k', w, he, hc, hw⟩ := Shared.exists_word hh
    obtain ⟨rfl, rfl, rfl⟩ := Mark.lab.inj he
    have hread : heapRead rt t.val = w := by rw [heapRead, hc]; rfl
    have htaken : (Res.taken t.val t.ext right e k).Holds K
        ({.shareHeld t.val (.lab t.ext e k) right} : Toks) := rfl
    refine .inr ⟨hsub, e, k, ⟨hk, rfl⟩,
      LinearHeap.Ledger.list_iff.mpr ⟨[_, σ], .cons htaken (.cons ?_ .nil), ?_⟩⟩
    · rw [hread]
      exact hw
    · rwa [List.sum_cons, List.sum_singleton, add_assoc]

/-- The result for the twin is left in a dup cell. -/
theorem fire (h : Own K rt n R τ) (i j : Nat) {l lab : Nat} {k : ℚ}
    (hi : R i = .taken l lab right d k)
    (hj : R j = .word t (side lab (!right) d) k) (hn : [i, j].Nodup) :
    Own K (heapSet rt l (termSubSet t true)) n (spend R [i, j]) τ := by
  refine h.replace₂ i j hn [] hi hj ?_
  rintro σ σ' ρ rfl (hw : Word K t (side lab (!right) d) k σ') hI
  refine ⟨[], .nil, ?_⟩
  rw [List.sum_nil, zero_add]
  refine LinearHeap.Meaning.Inv.fireShare hI rfl ?_ hw.not_pins
  have hun : discipline.unmark (.tm (termSubSet t true)) = .tm t := unmark_subst hw.plain
  rw [hun]
  exact hw

/-- A dup cell gets a term back, and the dup variable stays stuck. -/
theorem putBack (h : Own K rt n R τ) (r : ℚ) (i j : Nat) {u : Term} {k : ℚ}
    (hi : R i = .taken t.val t.ext right d k) (hj : R j = .word u d k)
    (hp : t.Plain) (ht : t.tag = dupTag right) (hr : k < r) (hn : [i, j].Nodup) :
    Own K (heapSet rt t.val u) (n + 1) ((spend R [i, j]).add n [.word t (side t.ext right d) r]) τ := by
  refine h.replace₂ i j hn _ hi hj ?_
  rintro σ σ' ρ rfl (hw : Word K u d k σ') hI
  refine ⟨[_], .cons (Word.cop hp ht hr) .nil, ?_⟩
  rw [List.sum_singleton]
  exact LinearHeap.Meaning.Inv.putBack hI hw.plain.1 hw hw.not_pins

/-! ### Cells with a known content -/

/-- A content is written to an empty cell, which stays in hand. -/
theorem write (h : Own K rt n R τ) (c : Cell) (i : Nat) {l : Nat} (hi : R i = .hole l) :
    Own K (rt.set l c) (n + 1) ((spend R [i]).add n [.filled l c]) τ := by
  refine h.replace₁ i _ hi ?_
  rintro σ ρ rfl hI
  have hfilled : (Res.filled l c).Holds K ({.held l (some c)} : Toks) := rfl
  refine ⟨[_], .cons hfilled .nil, ?_⟩
  rw [List.sum_singleton]
  exact LinearHeap.Meaning.Inv.write hI c

/-- What lies in a cell in hand no longer matters. -/
theorem forget (h : Own K rt n R τ) (i : Nat) {l : Nat} {c : Cell}
    (hi : R i = .filled l c) : Own K rt (n + 1) ((spend R [i]).add n [.hole l]) τ := by
  refine h.replace₁ i _ hi ?_
  rintro σ ρ rfl hI
  have hhole : (Res.hole l).Holds K ({.held l none} : Toks) := rfl
  refine ⟨[_], .cons hhole .nil, ?_⟩
  rw [List.sum_singleton]
  exact LinearHeap.Meaning.Inv.forget hI

theorem filled_eq (h : Own K rt n R τ) (i : Nat) {l : Nat} {c : Cell}
    (hi : R i = .filled l c) : rt.heap l = c := by
  obtain ⟨σ, ρ, hσ, hI⟩ := h.holding i
  rw [hi] at hσ
  obtain rfl : σ = {.held l (some c)} := hσ
  exact LinearHeap.Inv.held_eq (LinearHeap.Meaning.Inv.plain hI)
    (Multiset.mem_add.mpr (.inl (Multiset.mem_singleton_self _)))

/-- A cell in hand becomes static. -/
theorem freeze (h : Own K rt n R τ) (i : Nat) {l : Nat} {c : Cell}
    (hi : R i = .filled l c) :
    K.Le (Function.update K l (some c)) ∧
      Own (Function.update K l (some c)) rt n (spend R [i]) τ := by
  have hgs : [i].map R = [.filled l c] := by rw [List.map_singleton, hi]
  have hK : K.Le (Function.update K l (some c)) := by
    obtain ⟨σ, ρ, hσ, hI⟩ := h.holding i
    rw [hi] at hσ
    obtain rfl : σ = {.held l (some c)} := hσ
    exact (LinearHeap.Meaning.Inv.freeze hI).2
  obtain ⟨_, -, h⟩ := LinearHeap.Ledger.replace h [i] (List.nodup_singleton i)
    (fun _ : Unit => []) (fun _ => True) hgs (fun _ => rfl) hK fun σs ρ hS hI => by
      obtain ⟨σ, σs, hσ, hnil, rfl⟩ := List.forall₂_cons_left_iff.mp hS
      cases hnil
      obtain rfl : σ = {.held l (some c)} := hσ
      rw [List.sum_singleton] at hI
      refine ⟨(), [], trivial, .nil, ?_⟩
      rw [List.sum_nil, zero_add]
      exact (LinearHeap.Meaning.Inv.freeze hI).1
  exact ⟨hK, h⟩

end Own

/-- The outcome of a rule: one word is left in hand. -/
def Yields (K : Statics) (τ : Toks) (d : Den) (m : ℚ) (r : Rt × Term) : Prop :=
  Has K r.1 [.word r.2 d m] τ

/-- A node is made of all that is in hand. -/
theorem newNode_yields (tag : Tag) (ext : Nat) (r : ℚ) {s : Shape} (as : List Arg)
    (h : Has K rt (as.map Arg.res) τ) (hs : Shape.ofTag tag ext = some s) (he : ext ≤ extMask)
    (hlen : as.length = s.arity) (hr : ∀ a ∈ as, a.rank < r) :
    Yields K τ (s.den (as.map Arg.den)) r (termNewNode rt tag ext (as.map Arg.term)) := by
  obtain ⟨σs, hS, hI⟩ := LinearHeap.Ledger.list_iff.mp h
  have hw := newWord as (K := K) (l := rt.next) hs he hlen hr
  have hall := Linear.storeAll as σs (Linear.alloc as.length hI) hS
  refine LinearHeap.Ledger.list_iff.mpr ⟨[_], .cons hw .nil, ?_⟩
  rw [List.sum_singleton, termNewNode, List.length_map]
  exact hall

theorem Own.yield (h : Own K rt n R τ) (i : Nat) (hi : R i = .word t d m)
    (hp : (List.range n).all (fun k => !(spend R [i] k).pins) = true) : Yields K τ d m (rt, t) := by
  have hk := h.keep [i] (List.nodup_singleton i) hp
  rwa [List.map_singleton, hi] at hk

end Hvm.Choice
