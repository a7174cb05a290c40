import Hvm.Parse.AffineAtoms
import Hvm.Parse.Bytes

/-! The binder forms: a body is parsed under the binders that its references may reach, its
uses are counted, and the binder's nodes close its environment. -/

namespace Hvm

open Effect

set_option synthInstance.maxSize 100000
set_option synthInstance.maxHeartbeats 200000

/-! ### Binders that are not built yet -/

/-- A binder that no reference may reach. -/
def hiddenBinder : Term := termNew false .era 0 0
def lamBinder : Term := termNew false .lam 0 0
def dupBinder (lab : Nat) : Term := termNew false .dup lab 0

theorem fits_hidden (b : Term) : Fits hiddenBinder b := ⟨nofun, nofun⟩

theorem fits_lam (ext loc : Nat) : Fits lamBinder (termNew false .lam ext loc) :=
  ⟨fun _ => rfl, nofun⟩

theorem fits_dup (lab loc : Nat) : Fits (dupBinder lab) (termNew false .dup lab loc) :=
  ⟨nofun, fun _ => ⟨rfl, rfl⟩⟩

theorem binderAt_length (env : List Term) (b : Term) (inner : List Term) :
    binderAt (env ++ b :: inner) (env.length + 1) = some b := by
  rw [binderAt_high (Nat.lt_succ_self _)]
  simp

theorem forall₂_fits_refl (env : List Term) : List.Forall₂ Fits env env :=
  List.forall₂_same.mpr fun x _ => Fits.refl x

/-- References to a hidden binder do not occur. -/
theorem Parsed.countP_hidden {env : List Term} {rt : Rt} {lo hi : Nat} {t : Term} {F : Fields}
    (h : Parsed env rt lo hi t F) {d : DupTarget} {b : Term}
    (hb : binderAt env d.lvl = some b) (hh : Hides b d) : (t :: F.words).countP d.hits = 0 := by
  have hsound : (Fields.cons t F .nil).Sound fun _ => env :=
    ⟨h.ref, h.binds, h.block.sound, trivial⟩
  have hc := hsound.countP_hidden fun _ => ⟨b, hb, hh⟩
  simpa only [Fields.words, List.append_nil] using hc

theorem hides_hidden {d : DupTarget} (hd : d.tgt = .bjv ∨ d.tgt = .bj0 ∨ d.tgt = .bj1) :
    Hides hiddenBinder d := by
  rcases hd with h | h | h
  · exact Or.inl ⟨h, nofun⟩
  · exact Or.inr ⟨Or.inl h, nofun⟩
  · exact Or.inr ⟨Or.inr h, nofun⟩

/-! ### Labels -/

/-- The numbers that names of one, two and three letters stand for. -/
def NameNum (k : Nat) : Prop :=
  1 ≤ k ∧ k ≤ 52 ∨ 64 ≤ k ∧ k < 53 * 64 ∨ 64 * 64 ≤ k ∧ k < 53 * 64 * 64

theorem nameNumChar_num {k k' : Nat} {c : UInt8} {p p' : Parse} (hk : NameNum k)
    (h : nameNumChar k c p = .ok (k', p')) : NameNum k' := by
  have hle := nameNumChar_le h
  simp only [nameNumChar, bind_ok, stopIf_ok, pure_ok] at h
  obtain ⟨u, q, -, u', q', -, rfl, -⟩ := h
  have hlt := nickLetter_lt c
  have hshift : k <<< 6 ||| (nickLetterToB64 c).getD 0 = k * 64 + (nickLetterToB64 c).getD 0 := by
    rw [← Nat.shiftLeft_add_eq_or_of_lt (i := 6) hlt, Nat.shiftLeft_eq]
  rw [hshift] at hle ⊢
  have hmask : extMask = 262143 := rfl
  unfold NameNum at hk ⊢
  omega

theorem nameNum_fold_num {cs : Text} {k k' : Nat} {p p' : Parse} (hk : NameNum k)
    (h : cs.foldlM nameNumChar k p = .ok (k', p')) : NameNum k' := by
  induction cs generalizing k p with
  | nil =>
    obtain ⟨rfl, -⟩ := pure_ok.mp h
    exact hk
  | cons c cs ih =>
    rw [List.foldlM_cons, bind_ok] at h
    obtain ⟨a, q, ha, h⟩ := h
    exact ih (nameNumChar_num hk ha) h

theorem parseNameNum_num {k : Nat} {p p' : Parse} (h : parseNameNum p = .ok (k, p')) :
    NameNum k := by
  simp only [parseNameNum, parsePeek, parsePeekAt, bind_ok, pure_ok, get_ok, stopIf_ok] at h
  obtain ⟨_, q, -, c, _, ⟨_, _, ⟨rfl, rfl⟩, rfl, rfl⟩, _, _, ⟨hinit, rfl⟩, _, _, ⟨rfl, rfl⟩, k',
    _, hk, _, _, -, rfl, -⟩ := h
  have hinit : nickIsInit (q.s.peekAt 0) = true := by simpa using hinit
  unfold PState.peekAt at hinit
  cases hrest : q.s.rest with
  | nil =>
    rw [hrest] at hinit
    cases hinit
  | cons c cs =>
    rw [hrest] at hinit hk
    rw [List.getD_cons_zero] at hinit
    rw [List.takeWhile_cons_of_pos (char_of_init hinit), List.foldlM_cons, bind_ok] at hk
    obtain ⟨k1, q1, hfirst, hk⟩ := hk
    refine nameNum_fold_num ?_ hk
    simp only [nameNumChar, bind_ok, stopIf_ok, pure_ok] at hfirst
    obtain ⟨_, _, -, _, _, -, rfl, -⟩ := hfirst
    rw [Nat.zero_shiftLeft, Nat.zero_or]
    exact Or.inl (nickLetter_of_init hinit)

theorem NameNum.lab {k : Nat} (h : NameNum k) : 0 < k ∧ k < parseDynLab := by
  have hmask : parseDynLab = 262143 := rfl
  unfold NameNum at h
  omega

theorem writtenLabel_gives {p : Parse} :
    Gives p writtenLabel fun lab q => Still p q ∧ 0 < lab ∧ lab < parseDynLab := by
  intro lab q h _
  refine ⟨writtenLabel_within.run p lab q h, ?_⟩
  simp only [writtenLabel, bind_ok, modify_ok, pure_ok] at h
  obtain ⟨k, q', hk, u, q'', -, rfl, -⟩ := h
  exact (parseNameNum_num hk).lab

theorem autoLabel_gives {p : Parse} (hfresh : 0 < p.freshLab) :
    Gives p autoLabel fun lab q => Still p q ∧ 0 < lab ∧ lab < parseDynLab := by
  intro lab q h _
  refine ⟨autoLabel_within.run p lab q h, ?_⟩
  simp only [autoLabel, takeLabels, bind_ok, get_ok, stopIf_ok, modify_ok, pure_ok] at h
  obtain ⟨_, _, ⟨rfl, rfl⟩, _, _, ⟨hroom, rfl⟩, _, _, ⟨rfl, rfl⟩, _, _, -, rfl, -⟩ := h
  simp only [decide_eq_false_iff_not] at hroom
  omega

/-! ### Pushing and popping -/

section Scoped

variable {β : Type} {env : List Term} {p q : Parse} {Q : β → Parse → Prop}

theorem push_bind {name depth lab : Nat} {forked cloned : Bool} {k : Unit → Parser β}
    (h : Gives { p with binds := ⟨name, depth + 1, lab, forked, cloned⟩ :: p.binds } (k ()) Q) :
    Gives p (parseBindPush name depth lab forked cloned >>= k) Q := by
  intro b r hr hl
  obtain ⟨u, t, hpush, hr⟩ := bind_ok.mp hr
  simp only [parseBindPush, bind_ok, get_ok, stopIf_ok, modify_ok] at hpush
  obtain ⟨_, _, ⟨rfl, rfl⟩, _, _, ⟨-, rfl⟩, rfl⟩ := hpush
  exact h b r hr hl

theorem pop_bind {k : Unit → Parser β}
    (h : Gives { p with binds := p.binds.tail } (k ()) Q) : Gives p (parseBindPop >>= k) Q :=
  Ensures.modify_bind h

/-- The environment grows by `inner`, and one binder of it may be reached. -/
theorem Scope.push {inner : List Term} {b : PBind} (h : Scope env p)
    (hb : BindIn (env ++ inner) b) (hf : b.forked → p.forkSide.isSome) :
    Scope (env ++ inner) { p with binds := b :: p.binds } where
  fresh := h.fresh
  binds := by
    intro c hc
    rcases List.mem_cons.mp hc with rfl | hc
    · exact hb
    · exact (h.binds c hc).append inner
  side := by
    intro c hc hcf
    rcases List.mem_cons.mp hc with rfl | hc
    · exact hf hcf
    · exact h.side c hc hcf

theorem Scope.append (h : Scope env p) (inner : List Term) : Scope (env ++ inner) p :=
  ⟨h.fresh, fun b hb => (h.binds b hb).append inner, h.side⟩

/-- What is kept once a binder is popped again. -/
theorem Retains.pop {b : PBind} (h : Retains { p with binds := b :: p.binds } q) :
    Retains p { q with binds := q.binds.tail } where
  binds := by
    show q.binds.tail = p.binds
    rw [h.binds]
    rfl
  side := h.side
  book := h.book
  fresh := h.fresh
  next := h.next
  keep := h.keep

theorem Retains.store {loc : Nat} {t : Term} (h : Retains p q) (hloc : p.rt.next ≤ loc) :
    Retains p { q with rt := heapSet q.rt loc t } where
  toAside := ⟨h.binds, h.side, h.book, h.fresh⟩
  next := h.next
  keep := by
    intro c hc
    have hne : c ≠ loc := by omega
    show heapRead (heapSet q.rt loc t) c = heapRead p.rt c
    rw [heapRead_heapSet, if_neg hne]
    exact h.keep c hc

theorem bindIn_lam {name lvl : Nat} {cloned : Bool} {b : Term}
    (hb : binderAt env lvl = some b) (ht : b.tag = .lam) :
    BindIn env ⟨name, lvl, 0, false, cloned⟩ where
  lam := fun _ => ⟨b, hb, ht⟩
  dyn := nofun
  dup := fun h0 _ => absurd rfl h0
  forked := nofun

theorem bindIn_dyn {name lvl : Nat} {forked cloned : Bool} {b b' : Term}
    (hb : binderAt env lvl = some b) (ht : b.tag = .lam)
    (hb' : binderAt env (lvl + 1) = some b') (ht' : b'.tag = .lam) :
    BindIn env ⟨name, lvl, parseDynLab, forked, cloned⟩ where
  lam := nofun
  dyn := by
    intro _ k hk
    obtain rfl | rfl : k = 0 ∨ k = 1 := by omega
    · exact ⟨b, hb, ht⟩
    · exact ⟨b', hb', ht'⟩
  dup := fun _ hd => absurd rfl hd
  forked := nofun

theorem bindIn_dup {name lvl lab : Nat} {forked cloned : Bool}
    (hlab : 0 < lab ∧ lab < parseDynLab) (hb : binderAt env lvl = some (dupBinder lab)) :
    BindIn env ⟨name, lvl, lab, forked, cloned⟩ where
  lam := fun h => absurd h (Nat.ne_of_gt hlab.1)
  dyn := fun h => absurd h (Nat.ne_of_lt hlab.2)
  dup := fun _ _ => ⟨hlab.2, _, hb, rfl, Nat.mod_eq_of_lt (Nat.lt_succ_of_lt hlab.2)⟩
  forked := fun _ => Nat.ne_of_gt hlab.1

/-- The rest of a function, once what it read so far built nothing it keeps. -/
theorem Scope.after {m : Parser Term} (hs : Scope env p) (hk : Retains p q)
    (hm : Scope env q → Gives q m (Yield q.rt.next env q)) :
    Gives q m (Yield p.rt.next env p) := by
  refine (hm (hs.aside hk.toAside)).mono fun t q' _ ⟨hk', F, hF⟩ => ?_
  exact ⟨hk.trans hk', F, hF.mono hk.next (Nat.le_refl _)⟩

end Scoped

/-! ### Uses -/

theorem countUses_bind {β : Type} {env : List Term} {p : Parse} {lo hi n : Nat} {t : Term}
    {F : Fields} {d : DupTarget} {k : Nat → Parser β} {Q : β → Parse → Prop}
    (hF : Parsed env p.rt lo hi t F) (hsmall : hi ≤ 2 ^ 32)
    (h : Gives p (k ((t :: F.words).countP d.hits)) Q) :
    Gives p (countUses n t d >>= k) Q := by
  intro b r hr hl
  obtain ⟨u, q, hcount, hr⟩ := bind_ok.mp hr
  simp only [countUses, bind_ok, get_ok] at hcount
  obtain ⟨_, _, ⟨rfl, rfl⟩, hcount⟩ := hcount
  cases hc : countUsesLoop p.rt d n [t] 0 with
  | error e =>
    rw [hc] at hcount
    cases hcount
  | ok u' =>
    rw [hc] at hcount
    cases hcount
    have hcounted : ∀ k ∈ [(t, F)], Counted p.rt k := by
      intro k hk
      rw [List.mem_singleton.mp hk]
      exact ⟨hF.arity, hF.block.stored, fun c hc =>
        Nat.lt_of_lt_of_le (hF.block.bound c hc).2 hsmall⟩
    have hexact := countUsesLoop_ok hcounted hc
    rw [Nat.zero_add, List.map_singleton, List.sum_singleton] at hexact
    rw [hexact] at hr
    exact h b r hr hl

instance : Textual Aside where
  refl := fun _ => ⟨rfl, rfl, rfl, Nat.le_refl _⟩
  trans := fun _ _ _ => Aside.trans
  cursor := fun _ _ => ⟨rfl, rfl, rfl, Nat.le_refl _⟩
  intern := fun _ _ _ _ => ⟨rfl, rfl, rfl, Nat.le_refl _⟩
  written := fun _ _ _ => ⟨rfl, rfl, rfl, Nat.le_refl _⟩
  generated := fun _ _ _ => ⟨rfl, rfl, rfl, Nat.le_add_right _ _⟩

theorem parseAutoDup_aside {fuel base uses : Nat} {t : DupTarget} {body res : Term}
    {p q : Parse} (h : parseAutoDup fuel body t base uses p = .ok (res, q)) : Aside p q := by
  by_cases hu : uses ≤ 1
  · simp only [parseAutoDup, if_pos hu] at h
    obtain ⟨-, rfl⟩ := pure_ok.mp h
    exact ⟨rfl, rfl, rfl, Nat.le_refl _⟩
  · obtain ⟨-, st, -, hchain⟩ := parseAutoDup_many (by omega) h
    have hbuilt : ∀ (i : Nat) (t' : Term) (p' : Parse),
        autoDupChain (dupChain t base uses p) i t' p' = .ok (res, q) → Aside p' q := by
      intro i
      induction i with
      | zero =>
        intro t' p' h
        obtain ⟨-, rfl⟩ := pure_ok.mp h
        exact ⟨rfl, rfl, rfl, Nat.le_refl _⟩
      | succ i ih =>
        intro t' p' h
        simp only [autoDupChain, bind_ok, build_ok] at h
        obtain ⟨t'', q', ⟨-, -, rfl⟩, h⟩ := h
        exact ⟨(ih _ _ h).binds, (ih _ _ h).side, (ih _ _ h).book, (ih _ _ h).fresh⟩
    have ha := hbuilt _ _ _ hchain
    exact ⟨ha.binds, ha.side, ha.book, Nat.le_trans (Nat.le_add_right _ _) ha.fresh⟩

/-- A body whose references to each of `ts` are at most one. -/
structure Spent (env : List Term) (lo : Nat) (ts : List DupTarget) (p : Parse) (t : Term)
    (F : Fields) (q : Parse) : Prop where
  aside : Aside p q
  next : p.rt.next ≤ q.rt.next
  keep : ∀ c < lo, heapRead q.rt c = heapRead p.rt c
  parsed : Parsed env q.rt lo q.rt.next t F
  once : ∀ d ∈ ts, (t :: F.words).countP d.hits ≤ 1

section Clones

variable {β : Type} {env : List Term} {lo n : Nat} {p : Parse} {t : DupTarget} {body : Term}
  {F : Fields} {Q : β → Parse → Prop}

theorem parseAutoDup_gives (ht : Target env t) (hF : Parsed env p.rt lo p.rt.next body F)
    (hlo : lo ≤ p.rt.next) (hl : p.Legit) :
    Gives p (parseAutoDup n body t env.length ((body :: F.words).countP t.hits))
      fun res q => ∃ F', Aside p q ∧ Cloned env t lo body F p res F' q := by
  intro res q h _
  obtain ⟨F', hc⟩ := parseAutoDup_parsed ht hF hlo rfl hl.small h
  exact ⟨F', parseAutoDup_aside h, hc⟩

theorem Spent.refl {ts : List DupTarget} (hF : Parsed env p.rt lo p.rt.next body F)
    (h : ∀ d ∈ ts, (body :: F.words).countP d.hits ≤ 1) : Spent env lo ts p body F p :=
  ⟨⟨rfl, rfl, rfl, Nat.le_refl _⟩, Nat.le_refl _, fun _ _ => rfl, hF, h⟩

theorem Spent.still {ts : List DupTarget} {q r : Parse} (h : Spent env lo ts p body F q)
    (hr : Still q r) : Spent env lo ts p body F r where
  aside := h.aside.trans hr.toAside
  next := by
    rw [hr.rt]
    exact h.next
  keep := by
    rw [hr.rt]
    exact h.keep
  parsed := by
    rw [hr.rt]
    exact h.parsed
  once := h.once

theorem checkAffine_bind {nam uses : Nat} {side : Option Bool} {k : Unit → Parser β}
    (h : uses ≤ 1 → Gives p (k ()) Q) : Gives p (checkAffine nam side uses >>= k) Q :=
  stopIf_bind fun hb => h (by simpa using hb)

/-- A cloned binder gets its chain, another one is checked. -/
theorem plainUses_gives {cloned : Bool} {nam base uses : Nat} {k : Term → Parser β}
    [∀ b, Walks (k b)] (hbase : base = env.length) (ht : Target env t) (hF : Parsed env p.rt lo p.rt.next body F)
    (hlo : lo ≤ p.rt.next) (hl : p.Legit) (hu : uses = (body :: F.words).countP t.hits)
    (hk : ∀ res F' q, Spent env lo [t] p res F' q → Gives q (k res) Q) :
    Gives p (if cloned then
        parseAutoDup n body t base uses >>= fun b =>
          checkPlain cloned nam uses >>= fun _ => k b
      else pure body >>= fun b => checkPlain cloned nam uses >>= fun _ => k b) Q := by
  subst hbase
  refine Ensures.ite (fun _ => ?_) fun hc => ?_
  · subst hu
    refine Gives.bind (parseAutoDup_gives ht hF hlo hl) fun res q _ ⟨F', ha, hcl⟩ => ?_
    have hspent : Spent env lo [t] p res F' q :=
      ⟨ha, hcl.next, hcl.keep, hcl.parsed, fun d hd => by
        rw [List.mem_singleton.mp hd]
        exact hcl.once⟩
    exact Gives.still fun _ r hr => hk res F' r (hspent.still hr)
  · rw [pure_bind, checkPlain, if_neg hc]
    refine checkAffine_bind fun hle => hk body F p (.refl hF fun d hd => ?_)
    rw [List.mem_singleton.mp hd, ← hu]
    exact hle

/-- The same for a binder with two sides, the chain of `tA` first. -/
theorem sidesUses_gives {cloned : Bool} {nam base uses0 uses1 usesA usesB : Nat}
    {tA tB : DupTarget} {k : Term → Parser β} [∀ b, Walks (k b)] (hbase : base = env.length)
    (hA : Target env tA) (hB : Target env tB) (hAB : tB.hits (termNew false tA.tgt tA.ext tA.lvl) = false)
    (hBA : tA.hits (termNew false tB.tgt tB.ext tB.lvl) = false)
    (hF : Parsed env p.rt lo p.rt.next body F) (hlo : lo ≤ p.rt.next) (hl : p.Legit)
    (huA : usesA = (body :: F.words).countP tA.hits)
    (huB : usesB = (body :: F.words).countP tB.hits)
    (hside : usesA = uses0 ∧ usesB = uses1 ∨ usesA = uses1 ∧ usesB = uses0)
    (hk : ∀ res F' q, Spent env lo [tA, tB] p res F' q → Gives q (k res) Q) :
    Gives p (if cloned then
        parseAutoDup n body tA base usesA >>= fun b =>
          parseAutoDup n b tB base usesB >>= fun b =>
            checkSides cloned nam uses0 uses1 >>= fun _ => k b
      else pure body >>= fun b => checkSides cloned nam uses0 uses1 >>= fun _ => k b) Q := by
  subst hbase
  refine Ensures.ite (fun _ => ?_) fun hc => ?_
  · subst huA
    have : tB.Bound := ⟨hB.tgt⟩
    refine Gives.bind (parseAutoDup_gives hA hF hlo hl) fun b q hlq ⟨G, haA, hclA⟩ => ?_
    have hsame := hclA.others tB hB.tgt hB.lvl hAB
    have hlo' : lo ≤ q.rt.next := Nat.le_trans hlo hclA.next
    rw [huB, ← hsame]
    refine Gives.bind (parseAutoDup_gives hB hclA.parsed hlo' hlq) fun res r _ ⟨F', haB, hclB⟩ => ?_
    have hsameA := hclB.others tA hA.tgt hA.lvl hBA
    have hspent : Spent env lo [tA, tB] p res F' r :=
      ⟨haA.trans haB, Nat.le_trans hclA.next hclB.next,
        fun c hc => (hclB.keep c hc).trans (hclA.keep c hc), hclB.parsed, fun d hd => by
          rcases List.mem_cons.mp hd with rfl | hd
          · rw [hsameA]
            exact hclA.once
          · rw [List.mem_singleton.mp hd]
            exact hclB.once⟩
    exact Gives.still fun _ r' hr => hk res F' r' (hspent.still hr)
  · rw [pure_bind, checkSides, if_neg hc, bind_assoc]
    refine checkAffine_bind fun hle0 => checkAffine_bind fun hle1 => hk body F p ?_
    refine .refl hF fun d hd => ?_
    rcases List.mem_cons.mp hd with rfl | hd
    · rw [← huA]
      omega
    · rw [List.mem_singleton.mp hd, ← huB]
      omega

end Clones

/-! ### The nodes of a binder -/

theorem countP_cons_lam {t : Term} {F : Fields} {ext loc : Nat} {d : DupTarget}
    (hd : d.tgt = .bjv ∨ d.tgt = .bj0 ∨ d.tgt = .bj1) :
    (termNew false .lam ext loc :: (Fields.cons t F .nil).words).countP d.hits =
      (t :: F.words).countP d.hits := by
  rw [List.countP_cons_of_neg fun hh => by cases hits_quoted hd hh]
  simp only [Fields.words, List.append_nil]

theorem newLam_gives {env : List Term} {b : Term} {lo ext : Nat} {p : Parse} {t : Term}
    {F : Fields} (h : Parsed (env ++ [b]) p.rt lo p.rt.next t F) (hlo : lo ≤ p.rt.next)
    (hb : ∀ loc, Fits b (termNew false .lam ext loc))
    (huse : (t :: F.words).countP (DupTarget.hits ⟨.bjv, env.length + 1, 0⟩) ≤ 1) :
    Gives p (newLam ext t) fun t' q => Retains p q ∧ t' = termNew false .lam ext p.rt.next ∧
      Parsed env q.rt lo q.rt.next t' (.cons t F .nil) := by
  have hbuild := build_gives (p := p) (fun rt => termNewNode rt .lam ext [t])
    ((termNewNode_grows .lam ext [t]).le p.rt) fun c hc => termNewNode_frame _ _ _ _ hc
  refine hbuild.mono ?_
  rintro t' q - ⟨rfl, hq, hk⟩
  refine ⟨hk, rfl, ?_⟩
  rw [hq]
  exact h.newLam hlo hb huse

theorem newDup_gives {env : List Term} {b : Term} {lo lab : Nat} {p : Parse} {v t : Term}
    {F : Fields} (hv : RefPlain v) (ha : termArity v = 0) (href : RefOk env v)
    (h : Parsed (env ++ [b]) p.rt lo p.rt.next t F) (hlo : lo ≤ p.rt.next)
    (hb : ∀ loc, Fits b (termNew false .dup lab loc))
    (huse : ∀ side : Bool, (t :: F.words).countP
      (DupTarget.hits ⟨if side then .bj1 else .bj0, env.length + 1, lab % (extMask + 1)⟩) ≤ 1) :
    Gives p (build fun rt => termNewDup rt lab v t) fun t' q => Retains p q ∧
      t' = termNew false .dup lab p.rt.next ∧
      Parsed env q.rt lo q.rt.next t' (.cons v .nil (.cons t F .nil)) := by
  have hbuild := build_gives (p := p) (fun rt => termNewDup rt lab v t)
    ((termNewDup_grows lab v t).le p.rt) fun c hc => termNewNode_frame _ _ _ _ hc
  refine hbuild.mono ?_
  rintro t' q - ⟨rfl, hq, hk⟩
  refine ⟨hk, rfl, ?_⟩
  rw [hq]
  exact h.newDup hv ha href hlo hb huse

theorem Spent.retains {env : List Term} {lo : Nat} {ts : List DupTarget} {p q r : Parse}
    {t : Term} {F : Fields} (h : Spent env lo ts q t F r) (hk : Retains p q)
    (hlo : p.rt.next ≤ lo) : Retains p r :=
  ⟨hk.toAside.trans h.aside, Nat.le_trans hk.next h.next, fun c hc =>
    (h.keep c (Nat.lt_of_lt_of_le hc hlo)).trans (hk.keep c hc)⟩

theorem le_of_binderAt {env : List Term} {l : Nat} {b : Term} (h : binderAt env l = some b) :
    l ≤ env.length := by
  unfold binderAt at h
  split at h
  · cases h
  · have hlt := (List.getElem?_eq_some_iff.mp h).1
    omega

theorem target_lam {env : List Term} {l : Nat} {b : Term} (hb : binderAt env l = some b)
    (ht : b.tag = .lam) : Target env ⟨.bjv, l, 0⟩ where
  tgt := Or.inl rfl
  lvl := le_of_binderAt hb
  ext := Nat.zero_le _
  bjv := fun _ => rfl
  ref := by
    refine ⟨fun _ => ⟨b, hb, ht⟩, fun h => ?_⟩
    rcases h with h | h <;> cases h

theorem target_side {env : List Term} {l lab : Nat} (side : Bool)
    (hlab : 0 < lab ∧ lab < parseDynLab) (hb : binderAt env l = some (dupBinder lab)) :
    Target env ⟨if side then .bj1 else .bj0, l, lab⟩ where
  tgt := by cases side <;> simp
  lvl := le_of_binderAt hb
  ext := Nat.le_of_lt hlab.2
  bjv := fun h => by cases side <;> cases h
  ref := by
    refine ⟨fun h => ?_, fun _ => ⟨_, hb, rfl, rfl⟩⟩
    cases side <;> cases h

/-- The occurrences of a variable in a term, its root included. -/
def uses (t : Term) (F : Fields) (d : DupTarget) : Nat := (t :: F.words).countP d.hits

/-- A term whose references to the levels up to `top` are those of another one. -/
def SameUses (top : Nat) (t : Term) (F : Fields) (t' : Term) (F' : Fields) : Prop :=
  ∀ d : DupTarget, (d.tgt = .bjv ∨ d.tgt = .bj0 ∨ d.tgt = .bj1) → d.lvl ≤ top →
    uses t' F' d = uses t F d

theorem hits_bjv {d : DupTarget} {l : Nat} (h : d.lvl ≠ l) :
    d.hits (termNew false .bjv 0 l) = false := by
  refine Bool.eq_false_iff.mpr fun hh => ?_
  exact h (of_decide_eq_true hh).2.1.symm

theorem uses_bjv (l : Nat) (d : DupTarget) : uses (termNew false .bjv 0 l) .nil d =
    if d.hits (termNew false .bjv 0 l) then 1 else 0 := by
  simp [uses, Fields.words]

theorem parsed_bjv {env : List Term} {rt : Rt} {lo hi l : Nat} {b : Term}
    (hb : binderAt env l = some b) (ht : b.tag = .lam) :
    Parsed env rt lo hi (termNew false .bjv 0 l) .nil := by
  refine .leaf (fun _ => ⟨rfl, Nat.zero_le _, fun _ => rfl⟩) rfl ⟨fun _ => ⟨b, hb, ht⟩, fun h => ?_⟩
  rcases h with h | h <;> cases h

theorem Parts.one {env : List Term} {rt : Rt} {lo hi : Nat} {t : Term} {F : Fields}
    (h : Parsed env rt lo hi t F) : Parts env rt lo hi [(t, F)] :=
  .cons h .nil fun _ _ _ _ ha => (List.not_mem_nil ha).elim

section Closing

variable {env : List Term} {lo lab : Nat} {q : Parse} {t : Term} {F : Fields}

/-- `λx&L`: a DUP of the variable of the LAM around it. -/
theorem lamOverDup_gives (ext : Nat)
    (hF : Parsed (env ++ [hiddenBinder] ++ [dupBinder lab]) q.rt lo q.rt.next t F)
    (hlo : lo ≤ q.rt.next) (hlab : 0 < lab ∧ lab < parseDynLab)
    (huse : ∀ side : Bool, uses t F ⟨if side then .bj1 else .bj0, env.length + 2, lab⟩ ≤ 1) :
    Gives q (build (fun rt => termNewDup rt lab (termNew false .bjv 0 (env.length + 1)) t) >>=
        fun dup => newLam ext dup) fun t' r => Retains q r ∧
      ∃ F', Parsed env r.rt lo r.rt.next t' F' ∧ SameUses env.length t F t' F' := by
  have hat : binderAt (env ++ [hiddenBinder] ++ [dupBinder lab]) (env.length + 1) =
      some hiddenBinder := by
    rw [List.append_assoc]
    exact binderAt_length env hiddenBinder [dupBinder lab]
  have hzero : uses t F ⟨.bjv, env.length + 1, 0⟩ = 0 :=
    hF.countP_hidden hat (hides_hidden (Or.inl rfl))
  have hlam : binderAt (env ++ [lamBinder]) (env.length + 1) = some lamBinder :=
    binderAt_length env lamBinder []
  have hfits : List.Forall₂ Fits (env ++ [hiddenBinder] ++ [dupBinder lab])
      (env ++ [lamBinder] ++ [dupBinder lab]) :=
    List.rel_append (Fits.last (fits_hidden _)) (forall₂_fits_refl _)
  have hmod : lab % (extMask + 1) = lab := Nat.mod_eq_of_lt (Nat.lt_succ_of_lt hlab.2)
  have hv : Parsed (env ++ [lamBinder]) q.rt lo lo (termNew false .bjv 0 (env.length + 1)) .nil :=
    parsed_bjv hlam rfl
  refine Gives.bind (newDup_gives hv.plain rfl hv.ref (hF.fits hfits) hlo
    (fun loc => fits_dup lab loc) fun side => ?_) fun dup q1 _ hq1 => ?_
  · rw [hmod, List.length_append]
    exact huse side
  · obtain ⟨hk1, hdup, hG⟩ := hq1
    have hcount (d : DupTarget) (hd : d.tgt = .bjv ∨ d.tgt = .bj0 ∨ d.tgt = .bj1) :
        uses dup (.cons (termNew false .bjv 0 (env.length + 1)) .nil (.cons t F .nil)) d =
          (if d.hits (termNew false .bjv 0 (env.length + 1)) then 1 else 0) + uses t F d := by
      have hno : ¬ d.hits dup := fun hh => by
        rw [hdup] at hh
        cases hits_quoted hd hh
      unfold uses
      rw [List.countP_cons_of_neg hno]
      simp only [Fields.words, List.nil_append, List.append_nil, List.countP_cons]
      omega
    refine (newLam_gives hG (Nat.le_trans hlo hk1.next) (fits_lam _) ?_).mono fun t' q2 _ hq2 => ?_
    · have hc := hcount ⟨.bjv, env.length + 1, 0⟩ (Or.inl rfl)
      rw [hzero] at hc
      show uses dup _ _ ≤ 1
      rw [hc]
      split <;> omega
    · obtain ⟨hk2, ht', hG2⟩ := hq2
      refine ⟨hk1.trans hk2, _, hG2, fun d hd hlvl => ?_⟩
      rw [uses, ht', countP_cons_lam hd]
      refine (hcount d hd).trans ?_
      rw [hits_bjv (by omega)]
      exact Nat.zero_add _

/-- The two nested lambdas of a dynamic dup. -/
theorem twoLams_gives {ext0 ext1 : Nat}
    (hF : Parsed (env ++ [lamBinder] ++ [lamBinder]) q.rt lo q.rt.next t F)
    (hlo : lo ≤ q.rt.next) (huse0 : uses t F ⟨.bjv, env.length + 1, 0⟩ ≤ 1)
    (huse1 : uses t F ⟨.bjv, env.length + 2, 0⟩ ≤ 1) :
    Gives q (newLam ext1 t >>= fun lam1 => newLam ext0 lam1) fun t' r => Retains q r ∧
      ∃ F', Parsed env r.rt lo r.rt.next t' F' ∧ SameUses env.length t F t' F' := by
  have hlen : (env ++ [lamBinder]).length + 1 = env.length + 2 := by simp
  refine Gives.bind (newLam_gives hF hlo (fits_lam _) (by rw [hlen]; exact huse1))
    fun lam1 q1 _ ⟨hk1, h1, hG1⟩ => ?_
  have hcount (d : DupTarget) (hd : d.tgt = .bjv ∨ d.tgt = .bj0 ∨ d.tgt = .bj1) :
      uses lam1 (.cons t F .nil) d = uses t F d := by
    rw [uses, h1]
    exact countP_cons_lam hd
  refine (newLam_gives hG1 (Nat.le_trans hlo hk1.next) (fits_lam _) ?_).mono
    fun t' q2 _ ⟨hk2, h2, hG2⟩ => ⟨hk1.trans hk2, _, hG2, fun d hd _ => ?_⟩
  · exact Nat.le_trans (Nat.le_of_eq (hcount _ (Or.inl rfl))) huse0
  · rw [uses, h2, countP_cons_lam hd]
    exact hcount d hd

theorem Fields.kids_ofKids (as : List (Term × Fields)) : (Fields.ofKids as).kids = as := by
  induction as with
  | nil => rfl
  | cons a as ih => exact congrArg _ ih

/-- A node that is no reference is used as often as its parts. -/
theorem uses_ofKids {w : Term} (hw : ¬ isQuoted w) (as : List (Term × Fields)) {d : DupTarget}
    (hd : d.tgt = .bjv ∨ d.tgt = .bj0 ∨ d.tgt = .bj1) :
    uses w (Fields.ofKids as) d = (as.map fun a => uses a.1 a.2 d).sum := by
  rw [uses, List.countP_cons_of_neg fun hh => hw (hits_quoted hd hh),
    Fields.countP_words_kids, Fields.kids_ofKids]
  rfl

theorem termNewNode_parsed (tag : Tag) (ext : Nat) (as : List (Term × Fields))
    (h : Parts env q.rt lo q.rt.next as) (hlo : lo ≤ q.rt.next) (ht : Inert tag)
    (ha : termArity (termNew false tag ext q.rt.next) = as.length) :
    Gives q (build fun rt => termNewNode rt tag ext (as.map Prod.fst)) fun t' r =>
      Retains q r ∧ Parsed env r.rt lo r.rt.next t' (Fields.ofKids as) ∧
        ∀ d : DupTarget, (d.tgt = .bjv ∨ d.tgt = .bj0 ∨ d.tgt = .bj1) →
          uses t' (Fields.ofKids as) d = (as.map fun a => uses a.1 a.2 d).sum := by
  have hbuild := build_gives (p := q) (fun rt => termNewNode rt tag ext (as.map Prod.fst))
    ((termNewNode_grows tag ext (as.map Prod.fst)).le q.rt)
    fun c hc => termNewNode_frame _ _ _ _ hc
  refine hbuild.mono ?_
  rintro t r - ⟨rfl, hr, hk⟩
  refine ⟨hk, ?_, fun d hd => uses_ofKids (Inert.not_quoted ht) as hd⟩
  rw [hr]
  exact h.node hlo ht ha

/-- `λx&(L)`: a DDU of the variable of the LAM around it. -/
theorem lamOverDdu_gives (ext : Nat) {labTerm : Term} {L : Fields}
    (h : Parts (env ++ [hiddenBinder]) q.rt lo q.rt.next [(labTerm, L), (t, F)])
    (hlo : lo ≤ q.rt.next) :
    Gives q (build (fun rt => termNewDdu rt labTerm (termNew false .bjv 0 (env.length + 1)) t) >>=
        fun ddu => newLam ext ddu) fun t' r => Retains q r ∧
      ∃ F', Parsed env r.rt lo r.rt.next t' F' ∧
        ∀ d : DupTarget, (d.tgt = .bjv ∨ d.tgt = .bj0 ∨ d.tgt = .bj1) → d.lvl ≤ env.length →
          uses t' F' d = uses labTerm L d + uses t F d := by
  have hat : binderAt (env ++ [hiddenBinder]) (env.length + 1) = some hiddenBinder :=
    binderAt_length env hiddenBinder []
  have hlam : binderAt (env ++ [lamBinder]) (env.length + 1) = some lamBinder :=
    binderAt_length env lamBinder []
  have hzero (a : Term × Fields) (ha : a ∈ [(labTerm, L), (t, F)]) :
      uses a.1 a.2 ⟨.bjv, env.length + 1, 0⟩ = 0 :=
    (h.held a ha).countP_hidden hat (hides_hidden (Or.inl rfl))
  have hparts : Parts (env ++ [lamBinder]) q.rt lo q.rt.next [(labTerm, L), (t, F)] :=
    ⟨fun a ha => (h.held a ha).fits (Fits.last (fits_hidden _)), h.once⟩
  have hv : Parsed (env ++ [lamBinder]) q.rt q.rt.next q.rt.next
      (termNew false .bjv 0 (env.length + 1)) .nil := parsed_bjv hlam rfl
  have hthree : Parts (env ++ [lamBinder]) q.rt lo q.rt.next
      [(labTerm, L), (termNew false .bjv 0 (env.length + 1), .nil), (t, F)] :=
    (hparts.snoc hv hlo (Nat.le_refl _)).perm (.cons _ (.swap _ _ _))
  have hnode := termNewNode_parsed .ddu 0 _ hthree hlo (by decide) rfl
  refine Gives.bind hnode fun ddu q1 _ ⟨hk1, hG, hcount⟩ => ?_
  simp only [List.map_cons, List.map_nil, List.sum_cons, List.sum_nil] at hcount
  refine (newLam_gives hG (Nat.le_trans hlo hk1.next) (fits_lam _) ?_).mono
    fun t' q2 _ ⟨hk2, ht', hG2⟩ => ⟨hk1.trans hk2, _, hG2, fun d hd hlvl => ?_⟩
  · have hL := hzero (labTerm, L) List.mem_cons_self
    have ht := hzero (t, F) (List.mem_cons_of_mem _ List.mem_cons_self)
    refine Nat.le_trans (Nat.le_of_eq (hcount _ (Or.inl rfl))) ?_
    rw [hL, ht, uses_bjv]
    split <;> omega
  · rw [uses, ht', countP_cons_lam hd]
    refine (hcount d hd).trans ?_
    rw [uses_bjv, hits_bjv (by omega)]
    simp

end Closing

end Hvm
