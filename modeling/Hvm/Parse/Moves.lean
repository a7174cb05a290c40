import Hvm.Parse.Fields
import Hvm.Parse.Program

/-! A run of the parser as a sequence of moves: the updates of its globals, each with the
check the code makes before it. What every move keeps, every run of `parse_program`
keeps. -/

namespace Hvm

open Effect Relation

set_option synthInstance.maxSize 100000
set_option synthInstance.maxHeartbeats 200000

/-- One update of the parser's state. -/
inductive Parse.Move (p : Parse) : Parse → Prop where
  | cursor (s : PState) : Move p { p with s := s }
  | intern (name : Text) (h : name ∉ p.table) (hcap : p.table.length < bookCap) :
    Move p { p with table := p.table ++ [name] }
  | memory (rt : Rt) (h : p.rt.next ≤ rt.next) : Move p { p with rt := rt }
  | binds (bs : List PBind) : Move p { p with binds := bs }
  | side (side : Option Bool) : Move p { p with forkSide := side }
  | written (lab : Nat) (h : lab ≤ extMask) :
    Move p { p with labels := .written lab :: p.labels }
  | generated (n : Nat) (h : p.freshLab + n ≤ parseDynLab) :
    Move p { p with
      freshLab := p.freshLab + n
      labels := ((List.range' p.freshLab n).map LabelUse.generated).reverse ++ p.labels }
  | seen (path : Text) : Move p { p with seenFiles := p.seenFiles ++ [path] }
  | define (id loc : Nat) : Move p { p with book := Function.update p.book id loc }
  | fork (site : ForkSite) : Move p { p with forks := site :: p.forks }

def Parse.Moves : Parse → Parse → Prop := ReflTransGen Parse.Move

instance Parse.moves_preorder : IsPreorder Parse Parse.Moves where
  refl := fun _ => .refl
  trans := fun _ _ _ => .trans

theorem Parse.Move.moves {p q : Parse} (h : p.Move q) : p.Moves q := .single h

/-- A computation of the parser that only makes moves. -/
abbrev Walks {α : Type} (m : Parser α) : Prop := Within Parse.Moves m

/-- Relations that allow what reading tokens and labels does. -/
class Textual (R : Parse → Parse → Prop) : Prop extends IsPreorder Parse R where
  cursor : ∀ (p : Parse) (s : PState), R p { p with s := s }
  intern : ∀ (p : Parse) (name : Text), name ∉ p.table → p.table.length < bookCap →
    R p { p with table := p.table ++ [name] }
  written : ∀ (p : Parse) (lab : Nat), lab ≤ extMask →
    R p { p with labels := .written lab :: p.labels }
  generated : ∀ (p : Parse) (n : Nat), p.freshLab + n ≤ parseDynLab → R p { p with
    freshLab := p.freshLab + n
    labels := ((List.range' p.freshLab n).map LabelUse.generated).reverse ++ p.labels }

theorem Parse.Moves.next_le {p q : Parse} (h : p.Moves q) : p.rt.next ≤ q.rt.next := by
  induction h with
  | refl => exact Nat.le_refl _
  | tail _ hmove ih =>
    refine Nat.le_trans ih ?_
    cases hmove with
    | memory rt h => exact h
    | _ => exact Nat.le_refl _

/-- Relations that also allow what building terms does. -/
class Building (R : Parse → Parse → Prop) : Prop extends Textual R where
  next : ∀ p q : Parse, R p q → p.rt.next ≤ q.rt.next
  extend : ∀ (p : Parse) (rt : Rt), p.rt.next ≤ rt.next →
    (∀ c < p.rt.next, heapRead rt c = heapRead p.rt c) → R p { p with rt := rt }
  requote : ∀ (p : Parse) (rt : Rt), rt.next = p.rt.next →
    (∀ c, ¬ isQuoted (heapRead p.rt c) → heapRead rt c = heapRead p.rt c) → R p { p with rt := rt }
  store : ∀ (p q : Parse) (loc : Nat) (t : Term), R p q → p.rt.next ≤ loc →
    R p { q with rt := heapSet q.rt loc t }
  binds : ∀ (p : Parse) (bs : List PBind), R p { p with binds := bs }
  side : ∀ (p : Parse) (side : Option Bool), R p { p with forkSide := side }
  fork : ∀ (p : Parse) (site : ForkSite), R p { p with forks := site :: p.forks }

instance : Textual Parse.Moves where
  cursor := fun _ s => (Parse.Move.cursor s).moves
  intern := fun _ name hnew hcap => (Parse.Move.intern name hnew hcap).moves
  written := fun _ lab hlab => (Parse.Move.written lab hlab).moves
  generated := fun _ n hroom => (Parse.Move.generated n hroom).moves

instance : Building Parse.Moves where
  next := fun _ _ h => h.next_le
  extend := fun _ rt hle _ => (Parse.Move.memory rt hle).moves
  requote := fun _ rt hnext _ => (Parse.Move.memory rt (Nat.le_of_eq hnext.symm)).moves
  store := fun _ q loc t h _ => h.tail (.memory (heapSet q.rt loc t) (Nat.le_refl _))
  binds := fun _ bs => (Parse.Move.binds bs).moves
  side := fun _ side => (Parse.Move.side side).moves
  fork := fun _ site => (Parse.Move.fork site).moves

section Textual

variable {R : Parse → Parse → Prop}

theorem modify_within {f : Parse → Parse} (h : ∀ p : Parse, R p (f p)) :
    Within R (modify f : Parser Unit) where
  run := by
    intro p u p' hr
    obtain rfl := modify_ok.mp hr
    exact h p

variable [Textual R]

/-! ### Cursor and names -/

instance moveTo_within (f : PState → PState) : Within R (moveTo f) :=
  modify_within fun p => Textual.cursor p (f p.s)

instance parsePeekAt_within (i : Nat) : Within R (parsePeekAt i) := by
  simp only [parsePeekAt]
  infer_instance

instance parsePeek_within : Within R parsePeek := parsePeekAt_within 0
instance parseAdvance_within : Within R parseAdvance := moveTo_within _
instance parseSkip_within : Within R parseSkip := moveTo_within _

instance parseMatch_within (str : Text) : Within R (parseMatch str) := by
  simp only [parseMatch]
  infer_instance

instance stopIf_within (bad : Bool) (e : PState → ParseStop) : Within R (stopIf bad e) := by
  simp only [stopIf]
  infer_instance

instance orStop_within {α : Type} (a : Option α) (e : PState → ParseStop) :
    Within R (orStop a e) := by
  simp only [orStop]
  refine @Within.bind _ _ _ _ _ _ _ _ _ fun p => ?_
  split <;> infer_instance

instance parseConsume_within (str : Text) : Within R (parseConsume str) := by
  simp only [parseConsume]
  infer_instance

instance tableFind_within (name : Text) : Within R (tableFind name) where
  run := by
    intro p id p' h
    simp only [tableFind, bind_ok, get_ok, ite_ok, pure_ok, stopIf_ok, modify_ok] at h
    obtain ⟨q, q', ⟨rfl, rfl⟩, ⟨-, -, rfl⟩ | ⟨hnew, u, q, ⟨hcap, rfl⟩, u', q', rfl, -, rfl⟩⟩ := h
    · exact refl p
    · exact Textual.intern p name hnew (by simpa using hcap)

instance parseName_within : Within R parseName := by
  simp only [parseName]
  infer_instance

instance nameNumChar_within (k : Nat) (c : UInt8) : Within R (nameNumChar k c) := by
  simp only [nameNumChar]
  infer_instance

instance parseNameNum_within : Within R parseNameNum := by
  simp only [parseNameNum]
  infer_instance

/-! ### Labels -/

omit [Textual R] in
theorem nameNumChar_le {k k' : Nat} {c : UInt8} {p p' : Parse}
    (h : nameNumChar k c p = .ok (k', p')) : k' ≤ extMask := by
  simp only [nameNumChar, bind_ok, stopIf_ok, pure_ok] at h
  obtain ⟨u, q, ⟨hk, rfl⟩, u', q', -, rfl, rfl⟩ := h
  simpa using hk

theorem nameNum_fold_le {cs : Text} {k k' : Nat} {p p' : Parse} (hk : k ≤ extMask)
    (h : cs.foldlM nameNumChar k p = .ok (k', p')) : k' ≤ extMask := by
  induction cs generalizing k p with
  | nil =>
    obtain ⟨rfl, -⟩ := pure_ok.mp h
    exact hk
  | cons c cs ih =>
    rw [List.foldlM_cons, bind_ok] at h
    obtain ⟨a, q, ha, h⟩ := h
    exact ih (nameNumChar_le ha) h

theorem parseNameNum_le {k : Nat} {p p' : Parse} (h : parseNameNum p = .ok (k, p')) :
    k ≤ extMask := by
  simp only [parseNameNum, bind_ok, pure_ok] at h
  obtain ⟨_, _, -, _, _, -, _, _, -, _, _, -, k', _, hk, _, _, -, rfl, -⟩ := h
  exact nameNum_fold_le (Nat.zero_le _) hk

instance writtenLabel_within : Within R writtenLabel where
  run := by
    intro p lab p' h
    simp only [writtenLabel, bind_ok, modify_ok, pure_ok] at h
    obtain ⟨k, q, hk, u, q', rfl, rfl, rfl⟩ := h
    exact IsTrans.trans _ _ _ (parseNameNum_within.run p k q hk)
      (Textual.written q k (parseNameNum_le hk))

/-- Labels are only taken under the check that they stay below the marker. -/
theorem takeLabels_within {n lab : Nat} {p p' : Parse}
    (hroom : p.freshLab + n ≤ parseDynLab) (h : takeLabels n p = .ok (lab, p')) :
    R p p' := by
  simp only [takeLabels, bind_ok, get_ok, modify_ok, pure_ok] at h
  obtain ⟨q, q', ⟨rfl, rfl⟩, u, q', rfl, -, rfl⟩ := h
  exact Textual.generated p n hroom

instance autoLabel_within : Within R autoLabel where
  run := by
    intro p lab p' h
    simp only [autoLabel, bind_ok, get_ok, stopIf_ok] at h
    obtain ⟨q, q', ⟨rfl, rfl⟩, u, q, ⟨hroom, rfl⟩, h⟩ := h
    refine takeLabels_within ?_ h
    simp only [decide_eq_false_iff_not] at hroom
    omega

instance countUses_within (fuel : Nat) (t : Term) (d : DupTarget) :
    Within R (countUses fuel t d) where
  run := by
    intro p n p' h
    simp only [countUses, bind_ok, get_ok] at h
    obtain ⟨q, q', ⟨rfl, rfl⟩, h⟩ := h
    cases hc : countUsesLoop p.rt d fuel [t] 0 with
    | error e =>
      rw [hc] at h
      cases h
    | ok k =>
      rw [hc] at h
      cases h
      exact refl p

/-! ### Reading without building -/

instance takeDigits_within : Within R takeDigits := by
  simp only [takeDigits]
  infer_instance

instance parseTermNum_within : Within R parseTermNum := by
  simp only [parseTermNum]
  infer_instance

instance parseUtf8_within : Within R parseUtf8 := by
  simp only [parseUtf8]
  infer_instance

instance parseCharEsc_within : Within R parseCharEsc := by
  simp only [parseCharEsc]
  infer_instance

instance parseCharLit_within : Within R parseCharLit := by
  simp only [parseCharLit]
  infer_instance

instance parseTermRef_within : Within R parseTermRef := by
  simp only [parseTermRef]
  infer_instance

instance parseTermOprPeek_within : Within R parseTermOprPeek := by
  simp only [parseTermOprPeek]
  infer_instance

instance parseTermOprConsume_within (op : Text) : Within R (parseTermOprConsume op) := by
  simp only [parseTermOprConsume]
  infer_instance

instance parseCase_within : Within R parseCase := by
  simp only [parseCase]
  infer_instance

instance parseDefaultMark_within : Within R parseDefaultMark := by
  simp only [parseDefaultMark]
  infer_instance

instance parseClonedMark_within : Within R parseClonedMark := by
  simp only [parseClonedMark]
  infer_instance

instance parseUnscopedMark_within : Within R parseUnscopedMark := by
  simp only [parseUnscopedMark]
  infer_instance

instance parseForkMark_within (mark : Text) : Within R (parseForkMark mark) := by
  simp only [parseForkMark]
  infer_instance

instance checkAffine_within (nam : Nat) (side : Option Bool) (uses : Nat) :
    Within R (checkAffine nam side uses) := by
  simp only [checkAffine]
  infer_instance

instance checkPlain_within (cloned : Bool) (nam uses : Nat) :
    Within R (checkPlain cloned nam uses) := by
  simp only [checkPlain]
  infer_instance

instance checkSides_within (cloned : Bool) (nam uses0 uses1 : Nat) :
    Within R (checkSides cloned nam uses0 uses1) := by
  simp only [checkSides]
  infer_instance

instance parseSide_within : Within R parseSide := by
  simp only [parseSide]
  infer_instance

instance parseTermVar_within : Within R parseTermVar := by
  simp only [parseTermVar]
  infer_instance

instance checkForkUses_within (n depth : Nat) (dyn : Bool) (lab : Nat) (left right : Term)
    (i : Nat) (names : List Nat) :
    Within R (checkForkUses n depth dyn lab left right i names) := by
  induction names generalizing i with
  | nil => exact Within.pure _
  | cons nam names ih =>
    simp only [checkForkUses]
    infer_instance

instance orNum_within (t : Option Term) : Within R (orNum t) := by
  cases t <;> simp only [orNum] <;> infer_instance

instance loopM_within {σ β : Type} (turn : σ → Parser (σ ⊕ β)) [hturn : ∀ x, Within R (turn x)]
    (n : Nat) (x : σ) : Within R (loopM turn n x) := by
  induction n generalizing x with
  | zero => exact Within.throw _
  | succ n ih =>
    simp only [loopM]
    refine @Within.bind _ _ _ _ _ _ _ _ _ fun y => ?_
    split <;> infer_instance

instance parseForkNames_within (n : Nat) : Within R (parseForkNames n) := by
  simp only [parseForkNames]
  infer_instance

end Textual

/-! ### Heap and binders -/

/-- A constructor of the book does not move the heap's end back, and writes past it only. -/
class Grows {α : Type} (f : Rt → Rt × α) : Prop where
  le : ∀ rt, rt.next ≤ (f rt).1.next
  frame : ∀ rt, ∀ c < rt.next, heapRead (f rt).1 c = heapRead rt c

instance termNewNode_grows (tag : Tag) (ext : Nat) (args : List Term) :
    Grows fun rt => termNewNode rt tag ext args where
  le := by
    intro rt
    rw [termNewNode_next]
    exact Nat.le_add_right _ _
  frame := fun rt _ hc => termNewNode_frame rt tag ext args hc

instance termNewApp_grows (f x : Term) : Grows fun rt => termNewApp rt f x :=
  termNewNode_grows .app 0 [f, x]

instance termNewSup_grows (lab : Nat) (a b : Term) : Grows fun rt => termNewSup rt lab a b :=
  termNewNode_grows .sup lab [a, b]

instance termNewDup_grows (lab : Nat) (v b : Term) : Grows fun rt => termNewDup rt lab v b :=
  termNewNode_grows .dup lab [v, b]

instance termNewUns_grows (b : Term) : Grows fun rt => termNewUns rt b :=
  termNewNode_grows .uns 0 [b]

instance termNewDry_grows (f x : Term) : Grows fun rt => termNewDry rt f x :=
  termNewNode_grows .dry 0 [f, x]

instance termNewUse_grows (f : Term) : Grows fun rt => termNewUse rt f :=
  termNewNode_grows .use 0 [f]

instance termNewOp2_grows (op : Nat) (x y : Term) : Grows fun rt => termNewOp2 rt op x y :=
  termNewNode_grows .op2 op [x, y]

instance termNewDsu_grows (lab a b : Term) : Grows fun rt => termNewDsu rt lab a b :=
  termNewNode_grows .dsu 0 [lab, a, b]

instance termNewDdu_grows (lab v b : Term) : Grows fun rt => termNewDdu rt lab v b :=
  termNewNode_grows .ddu 0 [lab, v, b]

instance termNewEql_grows (a b : Term) : Grows fun rt => termNewEql rt a b :=
  termNewNode_grows .eql 0 [a, b]

instance termNewAnd_grows (a b : Term) : Grows fun rt => termNewAnd rt a b :=
  termNewNode_grows .and 0 [a, b]

instance termNewOr_grows (a b : Term) : Grows fun rt => termNewOr rt a b :=
  termNewNode_grows .or 0 [a, b]

instance termNewInc_grows (x : Term) : Grows fun rt => termNewInc rt x :=
  termNewNode_grows .inc 0 [x]

instance termNewPri_grows (id : Nat) (args : List Term) : Grows fun rt => termNewPri rt id args :=
  termNewNode_grows .pri id args

instance termNewCtr_grows (nam : Nat) (args : List Term) :
    Grows fun rt => termNewCtr rt nam args where
  le := by
    intro rt
    unfold termNewCtr
    split
    · exact Nat.le_refl _
    · exact (termNewNode_grows _ nam args).le rt
  frame := by
    intro rt c hc
    unfold termNewCtr
    split
    · rfl
    · exact (termNewNode_grows _ nam args).frame rt c hc

instance heapAlloc_grows (size : Nat) : Grows fun rt => (heapAlloc rt size).swap where
  le := fun _ => Nat.le_add_right _ _
  frame := fun _ _ _ => rfl

instance ite_grows {α : Type} {c' : Prop} [Decidable c'] {f g : Rt → Rt × α} [hf : Grows f]
    [hg : Grows g] : Grows fun rt => if c' then f rt else g rt where
  le := by
    intro rt
    by_cases h : c'
    · simpa [h] using hf.le rt
    · simpa [h] using hg.le rt
  frame := by
    intro rt c hc
    by_cases h : c'
    · simpa [h] using hf.frame rt c hc
    · simpa [h] using hg.frame rt c hc

section Building

variable {R : Parse → Parse → Prop} [Building R]

instance build_walks {α : Type} (f : Rt → Rt × α) [hf : Grows f] : Within R (build f) where
  run := by
    intro p a p' h
    obtain ⟨-, -, rfl⟩ := build_ok.mp h
    exact Building.extend p _ (hf.le p.rt) (hf.frame p.rt)

instance parseBindPush_walks (name depth lab : Nat) (forked cloned : Bool) :
    Within R (parseBindPush name depth lab forked cloned) where
  run := by
    intro p u p' h
    simp only [parseBindPush, bind_ok, get_ok, stopIf_ok, modify_ok] at h
    obtain ⟨q, q', ⟨rfl, rfl⟩, u, q, ⟨-, rfl⟩, rfl⟩ := h
    exact Building.binds p _

instance parseBindPop_walks : Within R parseBindPop :=
  modify_within fun p => Building.binds p p.binds.tail

instance noteFork_walks (site : Rt → ForkSite) : Within R (noteFork site) :=
  modify_within fun p => Building.fork p (site p.rt)

/-! ### Storing into cells taken before -/

/-- Every run of `m` from `q` ends in a state related to `p`. -/
abbrev Leads {α : Type} (R : Parse → Parse → Prop) (p q : Parse) (m : Parser α) : Prop :=
  Ensures (fun _ => True) q m fun _ q' => R p q'

namespace Leads

variable {α β : Type} {p q : Parse} {m : Parser α} {f : α → Parser β}

omit [Building R] in
theorem within (h : ∀ p, Leads R p p m) : Within R m where
  run := fun p a q hm => h p a q hm trivial

theorem last (h : R p q) [hm : Within R m] : Leads R p q m :=
  fun a q' hr _ => IsTrans.trans _ _ _ h (hm.run q a q' hr)

theorem next (h : R p q) [Within R m] (hf : ∀ a t, R p t → Leads R p t (f a)) :
    Leads R p q (m >>= f) :=
  .step R fun a t ht => hf a t (IsTrans.trans _ _ _ h ht)

/-- Cells taken after `p` may be written. -/
theorem alloc (h : R p q) {size : Nat} {k : Nat → Parser β}
    (hk : ∀ loc t, R p t → p.rt.next ≤ loc → Leads R p t (k loc)) :
    Leads R p q ((build fun rt => (heapAlloc rt size).swap) >>= k) := by
  intro b q' hr hg
  obtain ⟨loc, t, hb, hr⟩ := bind_ok.mp hr
  have ht := (build_walks (R := R) _).run q loc t hb
  obtain ⟨-, rfl, -⟩ := build_ok.mp hb
  exact hk _ t (IsTrans.trans _ _ _ h ht) (Building.next p q h) b q' hr hg

theorem store (h : R p q) {loc : Nat} {t : Term} (hloc : p.rt.next ≤ loc) {k : Unit → Parser β}
    (hk : ∀ q', R p q' → Leads R p q' (k ())) : Leads R p q (heapStore loc t >>= k) :=
  .modify_bind (hk _ (Building.store p q loc t h hloc))

end Leads

/-! ### Counting and cloning -/

/-- A target that is a bound variable. -/
class DupTarget.Bound (d : DupTarget) : Prop where
  tag : d.tgt = .bjv ∨ d.tgt = .bj0 ∨ d.tgt = .bj1

instance bound_bjv (lvl ext : Nat) : DupTarget.Bound ⟨.bjv, lvl, ext⟩ := ⟨.inl rfl⟩

instance bound_bj0 (lvl ext : Nat) : DupTarget.Bound ⟨.bj0, lvl, ext⟩ := ⟨.inr (.inl rfl)⟩

instance bound_bj1 (lvl ext : Nat) : DupTarget.Bound ⟨.bj1, lvl, ext⟩ := ⟨.inr (.inr rfl)⟩

/-- `rt'` differs from `rt` in cells with bound variables only. -/
def Requoted (rt rt' : Rt) : Prop :=
  rt'.next = rt.next ∧ ∀ c, ¬ isQuoted (heapRead rt c) → heapRead rt' c = heapRead rt c

omit [Building R] in
theorem Requoted.trans {rt rt1 rt2 : Rt} (h : Requoted rt rt1) (h' : Requoted rt1 rt2) :
    Requoted rt rt2 := by
  refine ⟨h'.1.trans h.1, fun c hc => ?_⟩
  have heq := h.2 c hc
  rw [← heq] at hc
  exact (h'.2 c hc).trans heq

omit [Building R] in
theorem requoted_set {rt : Rt} {loc : Nat} (h : isQuoted (heapRead rt loc)) (t : Term) :
    Requoted rt (heapSet rt loc t) := by
  refine ⟨rfl, fun c hc => ?_⟩
  rw [heapRead_heapSet, if_neg]
  rintro rfl
  exact hc h

omit [Building R] in
theorem autoDupGo_requoted {d : DupChain} (hd : d.tgt = .bjv ∨ d.tgt = .bj0 ∨ d.tgt = .bj1)
    {fuel loc : Nat} {st st' : Rt × Nat} (h : autoDupGo d fuel st loc = some st') :
    Requoted st.1 st'.1 := by
  induction fuel generalizing loc st st' with
  | zero => cases h
  | succ fuel ih =>
    simp only [autoDupGo] at h
    split at h
    · rename_i hits
      cases h
      refine requoted_set ?_ _
      simp only [DupTarget.hits, decide_eq_true_eq] at hits
      simpa only [isQuoted, hits.1, decide_eq_true_eq] using hd
    · split at h
      · rename_i hq
        cases h
        exact requoted_set hq.1 _
      · exact fold ih h
where
  fold {d : DupChain} {fuel : Nat} {locs : List Nat} {st st' : Rt × Nat}
      (ih : ∀ {loc : Nat} {st st' : Rt × Nat},
        autoDupGo d fuel st loc = some st' → Requoted st.1 st'.1)
      (h : locs.foldlM (autoDupGo d fuel) st = some st') : Requoted st.1 st'.1 := by
    induction locs generalizing st with
    | nil =>
      cases h
      exact ⟨rfl, fun _ _ => rfl⟩
    | cons loc locs ihl =>
      simp only [List.foldlM_cons, Option.bind_eq_bind, Option.bind_eq_some_iff] at h
      obtain ⟨st1, h1, h⟩ := h
      exact (ih h1).trans (ihl h)

instance autoDupChain_walks (d : DupChain) (i : Nat) (t : Term) :
    Within R (autoDupChain d i t) := by
  induction i generalizing t with
  | zero => exact Within.pure t
  | succ i ih =>
    simp only [autoDupChain]
    infer_instance

theorem autoDupKids_within {d : DupChain} (hd : d.tgt = .bjv ∨ d.tgt = .bj0 ∨ d.tgt = .bj1)
    (fuel : Nat) (body : Term) : Within R (autoDupKids d fuel body) where
  run := by
    intro p u p' h
    simp only [autoDupKids, bind_ok, get_ok] at h
    obtain ⟨q, q', ⟨rfl, rfl⟩, h⟩ := h
    cases hwalk : (kidLocs body).foldlM (autoDupGo d fuel) (p.rt, 0) with
    | none =>
      rw [hwalk] at h
      exact (throw_ok h).elim
    | some st =>
      rw [hwalk] at h
      obtain rfl := modify_ok.mp h
      have hreq := autoDupGo_requoted.fold (autoDupGo_requoted hd) hwalk
      exact Building.requote p st.1 hreq.1 hreq.2

instance parseAutoDup_walks (fuel : Nat) (body : Term) (d : DupTarget) [hd : d.Bound]
    (base uses : Nat) : Within R (parseAutoDup fuel body d base uses) where
  run := by
    intro p t p' h
    simp only [parseAutoDup, ite_ok, bind_ok, get_ok, pure_ok, stopIf_ok] at h
    obtain ⟨-, -, rfl⟩ | ⟨-, q, q', ⟨rfl, rfl⟩, u, q, ⟨hroom, rfl⟩, lab, q, htake, h⟩ := h
    · exact refl p
    · obtain ⟨u', q', hkids, hchain⟩ := h
      have hr : p.freshLab + (uses - 1) ≤ parseDynLab := by
        simp only [decide_eq_false_iff_not, not_or, Nat.not_le, Nat.not_lt] at hroom
        exact hroom.2
      have hfirst := takeLabels_within (R := R) hr htake
      have hwalk := (autoDupKids_within (R := R) hd.tag fuel body).run q u' q' hkids
      have hlast := (autoDupChain_walks (R := R) _ _ _).run q' t p' hchain
      exact IsTrans.trans _ _ _ (IsTrans.trans _ _ _ hfirst hwalk) hlast

/-! ### Terms -/

/-- The functions called back keep to the relation. -/
class Calls.Stays (R : Parse → Parse → Prop) (r : Calls) : Prop where
  term : ∀ depth, Within R (r.term depth)
  atom : ∀ depth, Within R (r.atom depth)
  lam : ∀ depth, Within R (r.lam depth)
  app : ∀ f depth minPrec, Within R (r.app f depth minPrec)

abbrev Calls.Walk (r : Calls) : Prop := r.Stays Parse.Moves

attribute [instance] Calls.Stays.term Calls.Stays.atom Calls.Stays.lam Calls.Stays.app

instance repeatM_walks {β : Type} (turn : Parser β) [Within R turn] (n : Nat) :
    Within R (repeatM turn n) := by
  induction n with
  | zero => exact Within.pure _
  | succ n ih =>
    simp only [repeatM]
    infer_instance

instance sucs_walks (num : Nat) (t : Term) : Within R (sucs num t) := by
  induction num generalizing t with
  | zero => exact Within.pure _
  | succ num ih =>
    simp only [sucs]
    infer_instance

instance parseTermChr_walks : Within R (parseTermChr) := by
  simp only [parseTermChr]
  infer_instance

instance parseTermStr_walks (n : Nat) : Within R (parseTermStr n) := by
  simp only [parseTermStr]
  infer_instance

instance newLam_walks (ext : Nat) (body : Term) : Within R (newLam ext body) := by
  simp only [newLam]
  infer_instance

instance setForkSide_walks (side : Option Bool) : Within R (setForkSide side) :=
  modify_within fun p => Building.side p side

instance pushForkBinds_walks (depth d lab i : Nat) (names : List Nat) :
    Within R (pushForkBinds depth d lab i names) := by
  induction names generalizing i with
  | nil => exact Within.pure _
  | cons nam names ih =>
    simp only [pushForkBinds]
    infer_instance

instance popForkBinds_walks (names : List Nat) : Within R (popForkBinds names) := by
  induction names with
  | nil => exact Within.pure _
  | cons nam names ih =>
    simp only [popForkBinds]
    infer_instance

instance wrapFork_walks (depth : Nat) (dyn : Bool) (labTerm : Term) (lab i : Nat)
    (body : Term) : Within R (wrapFork depth dyn labTerm lab i body) := by
  induction i generalizing body with
  | zero => exact Within.pure _
  | succ i ih =>
    simp only [wrapFork]
    infer_instance

section Knot

variable {r : Calls} [r.Stays R]

instance parseTermNat_walks (depth : Nat) : Within R (parseTermNat r depth) := by
  simp only [parseTermNat]
  infer_instance

instance parseElements_walks (n depth : Nat) : Within R (parseElements r n depth) := by
  simp only [parseElements]
  infer_instance

instance parseFields_walks (n depth : Nat) : Within R (parseFields r n depth) := by
  simp only [parseFields]
  infer_instance

instance parseTermLst_walks (n depth : Nat) : Within R (parseTermLst r n depth) := by
  simp only [parseTermLst]
  infer_instance

instance parseTermCtr_walks (n depth : Nat) : Within R (parseTermCtr r n depth) := by
  simp only [parseTermCtr]
  infer_instance

instance parseTermPri_walks (depth : Nat) : Within R (parseTermPri r depth) := by
  simp only [parseTermPri]
  infer_instance

instance parseTermNam_walks (depth : Nat) : Within R (parseTermNam r depth) := by
  simp only [parseTermNam]
  infer_instance

instance parseTermInc_walks (depth : Nat) : Within R (parseTermInc r depth) := by
  simp only [parseTermInc]
  infer_instance

instance parseTermPar_walks (depth : Nat) : Within R (parseTermPar r depth) := by
  simp only [parseTermPar]
  infer_instance

instance lamBody_walks (depth : Nat) : Within R (lamBody r depth) := by
  simp only [lamBody]
  infer_instance

instance parseSupLabel_walks (depth : Nat) : Within R (parseSupLabel r depth) := by
  simp only [parseSupLabel]
  infer_instance

instance parseTerm_walks (depth : Nat) : Within R (parseTerm r depth) := by
  simp only [parseTerm]
  infer_instance

instance parseTermAppPrec_call_walks (n : Nat) (f : Term) (depth minPrec : Nat) :
    Within R (parseTermAppPrec.call r n f depth minPrec) := by
  simp only [parseTermAppPrec.call]
  infer_instance

instance parseTermAppPrec_opr_walks (n : Nat) (f : Term) (depth minPrec : Nat)
    (op : Option (Text × Nat)) : Within R (parseTermAppPrec.opr r n f depth minPrec op) := by
  rcases op with - | ⟨str, op⟩
  · simp only [parseTermAppPrec.opr]
    infer_instance
  · simp only [parseTermAppPrec.opr]
    infer_instance

instance parseTermAppPrec_walks (n : Nat) (f : Term) (depth minPrec : Nat) :
    Within R (parseTermAppPrec r n f depth minPrec) := by
  simp only [parseTermAppPrec]
  infer_instance

/-- The cell that waits for the rest of the match was taken after `p`. -/
def Match.After (p : Parse) (m : Match) : Prop := ∀ loc, m.tip = some loc → p.rt.next ≤ loc

omit [r.Stays R] in
theorem Match.put_leads {p q : Parse} {m : Match} (hm : m.After p) (h : R p q) (t : Term)
    {β : Type} {k : Term → Parser β} (hk : ∀ t' q', R p q' → Leads R p q' (k t')) :
    Leads R p q (m.put t >>= k) := by
  obtain ⟨term, _ | loc⟩ := m
  · simp only [Match.put, pure_bind]
    exact hk _ q h
  · simp only [Match.put, bind_assoc, pure_bind]
    exact .store h (hm loc rfl) fun q' h => hk _ q' h

theorem parseMatchCase_leads {p q : Parse} {m : Match} (hm : m.After p) (h : R p q) (depth : Nat)
    (tag : Tag) (ext : Nat) {β : Type} {k : Match → Parser β}
    (hk : ∀ m' q', Match.After p m' → R p q' → Leads R p q' (k m')) :
    Leads R p q (parseMatchCase r depth m tag ext >>= k) := by
  simp only [parseMatchCase, bind_assoc, pure_bind]
  refine .next h fun _ q1 h1 => .next h1 fun _ q2 h2 => .next h2 fun val q3 h3 => ?_
  refine .next h3 fun _ q4 h4 => .next h4 fun _ q5 h5 => ?_
  intro b q' hr hg
  obtain ⟨node, q6, hb, hr⟩ := bind_ok.mp hr
  have h6 := (build_walks (R := R) _).run q5 node q6 hb
  obtain ⟨-, rfl, -⟩ := build_ok.mp hb
  have hafter (t : Term) : Match.After p ⟨t, some (q5.rt.next + 1)⟩ := by
    rintro loc ⟨⟩
    exact Nat.le_succ_of_le (Building.next p q5 h5)
  exact Match.put_leads hm (IsTrans.trans _ _ _ h5 h6) _
    (fun t q' h => hk ⟨t, some (q5.rt.next + 1)⟩ q' (hafter t) h) b q' hr hg

theorem parseMatchEnd_leads {p q : Parse} {m : Match} (hm : m.After p) (h : R p q) (depth : Nat) :
    Leads R p q (parseMatchEnd r depth m) := by
  simp only [parseMatchEnd]
  refine .ite (fun _ => Leads.last h) fun _ => Leads.next h fun _ q1 h1 => ?_
  refine .ite (fun _ => Leads.last h1) fun _ => Leads.next h1 fun _ q2 h2 => ?_
  exact Leads.next h2 fun d q3 h3 => Match.put_leads hm h3 d fun t q4 h4 => Leads.last h4

theorem parseMatch_loop {p q : Parse} {m : Match} (hm : m.After p) (h : R p q) (n depth : Nat) :
    Leads R p q (loopM (parseMatchTurn r depth) n m) := by
  induction n generalizing q m with
  | zero => exact .throw
  | succ n ih =>
    simp only [loopM, parseMatchTurn, bind_assoc]
    refine .next h fun _ q1 h1 => .get_bind (Leads.next h1 fun pattern q2 h2 => ?_)
    rcases pattern with _ | ⟨tag, ext⟩
    · simp only [bind_assoc, pure_bind]
      refine .next h2 fun _ q3 h3 => ?_
      rw [bind_pure]
      exact parseMatchEnd_leads hm h3 depth
    · simp only [bind_assoc, pure_bind]
      exact parseMatchCase_leads hm h2 depth tag ext fun m' q' hm' h' => ih hm' h'

instance parseLamMatch_walks (n depth : Nat) : Within R (parseLamMatch r n depth) := by
  have (n depth : Nat) : Within R (loopM (parseMatchTurn r depth) n ⟨termNewNum 0, none⟩) :=
    Leads.within fun p => parseMatch_loop (fun _ h => (by cases h)) (refl p) n depth
  simp only [parseLamMatch]
  infer_instance

instance parseLamUnscoped_walks (n depth : Nat) : Within R (parseLamUnscoped r n depth) := by
  simp only [parseLamUnscoped]
  infer_instance

instance parseLamDyn_walks (n depth nam : Nat) (cloned : Bool) : Within R (parseLamDyn r n depth nam cloned) := by
  simp only [parseLamDyn]
  infer_instance

instance parseLamDup_walks (n depth nam : Nat) (cloned : Bool) : Within R (parseLamDup r n depth nam cloned) := by
  simp only [parseLamDup]
  infer_instance

instance parseLamPlain_walks (n depth nam : Nat) (cloned : Bool) : Within R (parseLamPlain r n depth nam cloned) := by
  simp only [parseLamPlain]
  infer_instance

instance parseDupDyn_walks (n depth nam : Nat) (cloned : Bool) : Within R (parseDupDyn r n depth nam cloned) := by
  simp only [parseDupDyn]
  refine Leads.within fun p => .next (refl p) fun _ q1 h1 => .next h1 fun labTerm q2 h2 => ?_
  refine .next h2 fun _ q3 h3 => .next h3 fun _ q4 h4 => .next h4 fun val q5 h5 => ?_
  refine .next h5 fun _ q6 h6 => .next h6 fun _ q7 h7 => .next h7 fun _ q8 h8 => ?_
  refine .next h8 fun _ q9 h9 => .next h9 fun body q10 h10 => .next h10 fun _ q11 h11 => ?_
  refine .next h11 fun uses0 q12 h12 => .next h12 fun uses1 q13 h13 => ?_
  refine .ite (fun _ => Leads.next h13 fun _ _ h => Leads.next h fun body q14 h14 => ?_) fun _ =>
    Leads.next h13 fun body q14 h14 => ?_
  all_goals
    refine .next h14 fun _ q15 h15 => ?_
    refine .alloc h15 fun loc0 q16 h16 h0 => .alloc h16 fun loc1 q17 h17 h1 => ?_
    exact .store h17 h1 fun q18 h18 => .store h18 h0 fun q19 h19 => .last h19

instance parseDupStatic_walks (n depth nam : Nat) (cloned : Bool) : Within R (parseDupStatic r n depth nam cloned) := by
  simp only [parseDupStatic]
  refine Leads.within fun p => .next (refl p) fun _ q1 h1 => ?_
  refine .ite (fun _ => Leads.next h1 fun lab q2 h2 => ?_) fun _ =>
    Leads.next h1 fun lab q2 h2 => ?_
  all_goals
    refine .alloc h2 fun loc q3 h3 hloc => .next h3 fun _ q4 h4 => .next h4 fun val q5 h5 => ?_
    refine .store h5 hloc fun q6 h6 => .next h6 fun _ q7 h7 => .next h7 fun _ q8 h8 => ?_
    refine .next h8 fun _ q9 h9 => .next h9 fun _ q10 h10 => .next h10 fun body q11 h11 => ?_
    refine .next h11 fun _ q12 h12 => .next h12 fun uses0 q13 h13 => ?_
    refine .next h13 fun uses1 q14 h14 => ?_
    refine .ite (fun _ => Leads.next h14 fun _ _ h => Leads.next h fun body q15 h15 => ?_) fun _ =>
      Leads.next h14 fun body q15 h15 => ?_
    all_goals
      refine .next h15 fun _ q16 h16 => ?_
      exact .store h16 (Nat.le_succ_of_le hloc) fun q17 h17 => .last h17

instance parseDupUnscoped_walks (n depth nam namV : Nat) : Within R (parseDupUnscoped r n depth nam namV) := by
  simp only [parseDupUnscoped]
  refine Leads.within fun p => .next (refl p) fun _ q1 h1 => .next h1 fun _ q2 h2 => ?_
  refine .next h2 fun _ q3 h3 => .alloc h3 fun locF q4 h4 hF => .alloc h4 fun locV q5 h5 hV => ?_
  refine .next h5 fun body q6 h6 => .next h6 fun _ q7 h7 => .next h7 fun _ q8 h8 => ?_
  refine .next h8 fun usesF q9 h9 => .next h9 fun usesV q10 h10 => ?_
  refine .next h10 fun _ q11 h11 => .next h11 fun _ q12 h12 => ?_
  exact .store h12 hV fun q13 h13 => .store h13 hF fun q14 h14 => .last h14

instance parseLet_walks (n depth nam : Nat) (strict cloned : Bool) : Within R (parseLet r n depth nam strict cloned) := by
  simp only [parseLet]
  refine Leads.within fun p => .next (refl p) fun val q1 h1 => .next h1 fun _ q2 h2 => ?_
  refine .next h2 fun _ q3 h3 => .next h3 fun _ q4 h4 => .alloc h4 fun loc q5 h5 hloc => ?_
  refine .next h5 fun body q6 h6 => .next h6 fun _ q7 h7 => .next h7 fun uses q8 h8 => ?_
  refine .ite (fun _ => Leads.next h8 fun body q9 h9 => ?_) fun _ =>
    Leads.next h8 fun body q9 h9 => ?_
  all_goals
    exact Leads.next h9 fun _ q10 h10 => .store h10 hloc fun q11 h11 => .last h11

instance parseLetForm_walks (n depth nam : Nat) (strict cloned : Bool) (save : PState)
    (namV : Option Nat) : Within R (parseLetForm r n depth nam strict cloned save namV) := by
  cases namV <;> simp only [parseLetForm] <;> infer_instance

instance parseForkBranches_walks (depth : Nat) : Within R (parseForkBranches r depth) := by
  simp only [parseForkBranches]
  infer_instance

instance parseTermFork_walks (n : Nat) (dyn : Bool) (labTerm : Term) (lab depth : Nat) : Within R (parseTermFork r n dyn labTerm lab depth) := by
  simp only [parseTermFork]
  infer_instance

instance parseTermLam_walks (n depth : Nat) : Within R (parseTermLam r n depth) := by
  simp only [parseTermLam]
  infer_instance

instance parseTermDup_walks (n depth : Nat) : Within R (parseTermDup r n depth) := by
  simp only [parseTermDup]
  infer_instance

instance parseTermSup_walks (n depth : Nat) : Within R (parseTermSup r n depth) := by
  simp only [parseTermSup]
  infer_instance

instance parseTermPlain_walks (n depth : Nat) : Within R (parseTermPlain r n depth) := by
  simp only [parseTermPlain]
  infer_instance

instance parseTermAtom_walks (n depth : Nat) : Within R (parseTermAtom r n depth) := by
  simp only [parseTermAtom]
  infer_instance

end Knot

instance calls_walk (n : Nat) : (calls n).Stays R := by
  induction n with
  | zero =>
    constructor
    all_goals
      intros
      exact Within.throw _
  | succ n ih =>
    constructor
    · exact parseTerm_walks
    · exact parseTermAtom_walks n
    · exact parseTermLam_walks n
    · exact parseTermAppPrec_walks n

end Building

/-! ### Stores anywhere -/

instance heapStore_walks (loc : Nat) (t : Term) : Walks (heapStore loc t) :=
  modify_within fun p => (Parse.Move.memory (heapSet p.rt loc t) (Nat.le_refl _)).moves

instance Match.put_walks (m : Match) (t : Term) : Walks (m.put t) := by
  simp only [Match.put]
  split <;> infer_instance

section Turns

variable {r : Calls} [r.Walk]

instance parseMatchCase_walks (depth : Nat) (m : Match) (tag : Tag) (ext : Nat) :
    Walks (parseMatchCase r depth m tag ext) := by
  simp only [parseMatchCase]
  infer_instance

instance parseMatchEnd_walks (depth : Nat) (m : Match) : Walks (parseMatchEnd r depth m) := by
  simp only [parseMatchEnd]
  infer_instance

instance parseMatchTurn_walks (depth : Nat) (m : Match) :
    Walks (parseMatchTurn r depth m) := by
  simp only [parseMatchTurn]
  refine @Within.bind _ _ _ _ _ _ _ _ _ fun _ => ?_
  refine @Within.bind _ _ _ _ _ _ _ _ _ fun p => ?_
  refine @Within.bind _ _ _ _ _ _ _ _ _ fun pattern => ?_
  split <;> infer_instance

end Turns

/-! ### Programs -/

instance seen_walks (path : Text) :
    Walks (modify fun p : Parse => { p with seenFiles := p.seenFiles ++ [path] }) :=
  modify_within fun _ => (Parse.Move.seen path).moves

instance clearBinds_walks : Walks (modify fun p : Parse => { p with binds := [] }) :=
  modify_within fun _ => (Parse.Move.binds []).moves

instance define_walks (id loc : Nat) :
    Walks (modify fun p : Parse => { p with book := Function.update p.book id loc }) :=
  modify_within fun _ => (Parse.Move.define id loc).moves

instance includePath_walks : Walks includePath := by
  simp only [includePath]
  infer_instance

instance parseDefBody_walks (r : Calls) [r.Walk] : Walks (parseDefBody r) := by
  simp only [parseDefBody]
  infer_instance

instance parseInclude_walks (files : Text → Option Text) (def_ : Parser Unit)
    [Walks def_] : Walks (parseInclude files def_) := by
  simp only [parseInclude]
  refine @Within.bind _ _ _ _ _ _ _ _ _ fun path => ?_
  split
  · infer_instance
  · split <;> infer_instance

instance parseDef_walks (files : Text → Option Text) (n : Nat) :
    Walks (parseDef files n) := by
  induction n with
  | zero => exact Within.throw _
  | succ n ih =>
    simp only [parseDef]
    infer_instance

/-- A whole run of the parser is a sequence of moves from the initial state. -/
theorem parseProgram_moves {files : Text → Option Text} {n : Nat} {path src : Text}
    {p : Parse} (h : parseProgram files n path src = .ok p) :
    ({ parseInit with s := ⟨path, src, 1, 1⟩, seenFiles := [path] } : Parse).Moves p := by
  unfold parseProgram at h
  split at h
  · cases h
    exact (parseDef_walks files n).run _ _ _ ‹_›
  · cases h

end Hvm
