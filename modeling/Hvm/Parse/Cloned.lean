import Hvm.Parse.Chain
import Hvm.Parse.Program

/-! `parse_auto_dup` on the bodies the parser hands it. A body is a tree except for the
label term of a dynamic fork, which its DSU and all its DDUs share. -/

namespace Hvm

open Effect

/-- What the parser promises of a call: the target is a variable bound at or below the base
level, the body lies in the heap, and the uses were counted. -/
structure AutoDupCall (t : DupTarget) (base uses : Nat) (body : Term) (F : Fields)
    (p : Parse) : Prop where
  tgt : t.tgt = .bjv ∨ t.tgt = .bj0 ∨ t.tgt = .bj1
  lvl : t.lvl ≤ base
  ext : t.ext ≤ extMask
  bjv : t.tgt = .bjv → t.ext = 0
  arity : F.length = termArity body
  stored : F.Stored p.rt body.val
  plain : ∀ w ∈ F.words, RefPlain w
  below : ∀ c ∈ F.cells body.val, c < p.rt.next
  uses : uses = (body :: F.words).countP t.hits

/-- The chain of a call: its labels are the next fresh ones. -/
def dupChain (t : DupTarget) (base uses : Nat) (p : Parse) : DupChain :=
  { t with base := base, n := uses - 1, lab := p.freshLab }

/-- The result of `parse_auto_dup` linearises the body; one use needs no chain. -/
def AutoDupCorrect (t : DupTarget) (base uses : Nat) (body res : Term) (F : Fields)
    (p p' : Parse) : Prop :=
  if uses ≤ 1 then res = body ∧ p' = p
  else ∃ ds F', LinearForm (dupChain t base uses p) p'.rt body res ds F F'

/-- A call with several uses, taken apart: the walk, then the chain. -/
theorem parseAutoDup_many {fuel : Nat} {t : DupTarget} {base uses : Nat} {body res : Term}
    {p p' : Parse} (hu : 2 ≤ uses)
    (h : parseAutoDup fuel body t base uses p = .ok (res, p')) :
    p.freshLab + (uses - 1) ≤ parseDynLab ∧ ∃ st : Rt × Nat,
      (kidLocs body).foldlM (autoDupGo (dupChain t base uses p) fuel) (p.rt, 0) = some st ∧
      autoDupChain (dupChain t base uses p) (uses - 1) body { p with
        rt := st.1
        freshLab := p.freshLab + (uses - 1)
        labels := ((List.range' p.freshLab (uses - 1)).map LabelUse.generated).reverse ++
          p.labels } = .ok (res, p') := by
  simp only [parseAutoDup, ite_ok, bind_ok, get_ok, stopIf_ok, takeLabels, pure_ok,
    modify_ok] at h
  obtain ⟨hle, -⟩ | ⟨-, h⟩ := h
  · omega
  · obtain ⟨q, q', ⟨rfl, rfl⟩, u, q, ⟨hroom, rfl⟩, lab, q, ⟨q1, q2, ⟨rfl, rfl⟩, u1, q2, rfl,
      rfl, rfl⟩, u2, q3, hkids, hchain⟩ := h
    refine ⟨?_, ?_⟩
    · simp only [decide_eq_false_iff_not, not_or, Nat.not_le, Nat.not_lt] at hroom
      exact hroom.2
    · simp only [autoDupKids, bind_ok, get_ok] at hkids
      obtain ⟨q4, q5, ⟨rfl, rfl⟩, hkids⟩ := hkids
      cases hwalk : (kidLocs body).foldlM (autoDupGo (dupChain t base uses p) fuel)
          (p.rt, 0) with
      | none =>
        erw [hwalk] at hkids
        exact (throw_ok hkids).elim
      | some st =>
        erw [hwalk] at hkids
        obtain rfl := modify_ok.mp hkids
        exact ⟨st, rfl, hchain⟩

/-- Linearised cells took a step of the walk each. -/
theorem LinearForm.cell {d : DupChain} (hd : d.Ok) {rt rt' : Rt} {body res : Term}
    {ds : List Term} {F F' : Fields} (h : LinearForm d rt' body res ds F F')
    (hF : F.Stored rt body.val) {c : Nat} (hc : c ∈ F.cells body.val) :
    d.Step (heapRead rt c) (heapRead rt' c) := by
  have hR (env env' : List Term) (w w' : Term) (hr : Relinked d ds env env' w w')
      (hq : ¬ isQuoted w) : w' = w := by
    unfold Relinked at hr
    rwa [if_neg fun hh => hq (isQuoted_of_hits hd hh), if_neg hq] at hr
  have hmatch := h.linked (List.replicate d.base body) List.length_replicate
  obtain ⟨env, env', hrel⟩ := hmatch.cell hR hF h.stored c hc
  unfold Relinked at hrel
  unfold DupChain.Step
  split at hrel
  · rename_i hh
    rw [if_pos hh]
    obtain ⟨i, hi, he, -⟩ := hrel
    exact ⟨i, hi, he⟩
  · rename_i hh
    rw [if_neg hh]
    split at hrel
    · rename_i hq
      obtain ⟨he, -⟩ := hrel
      by_cases hb : d.base < (heapRead rt c).val
      · rw [if_pos ⟨hq, hb⟩]
        rwa [if_pos hb] at he
      · rw [if_neg fun hc => hb hc.2]
        rwa [if_neg hb] at he
    · rename_i hq
      rw [if_neg fun hc => hq hc.1]
      exact hrel

/-- A rewritten cell that is visited twice does not end with a step's word. -/
theorem not_step_of_count {d : DupChain} (hd : d.Ok) (st : Rt × Nat) {cs : List Nat} {c : Nat}
    (ha : d.affects (heapRead st.1 c)) (hcount : 2 ≤ cs.count c) :
    ¬ d.Step (heapRead st.1 c) (heapRead (cs.foldl d.visit st).1 c) := by
  intro hstep
  have hpos := hd.pos
  unfold DupChain.Step at hstep
  by_cases hh : d.hits (heapRead st.1 c)
  · rw [if_pos hh] at hstep
    obtain ⟨i, -, he⟩ := hstep
    have hfar := visits_target hd hh hcount
    have hv := link_val hd i
    rw [he] at hfar
    omega
  · have hq := ha.resolve_left hh
    rw [if_neg hh, if_pos hq] at hstep
    have hfar := visits_moved hd cs hq.1 hq.2
    have hval : (d.shift (heapRead st.1 c)).val = (heapRead st.1 c).val + d.n := rfl
    rw [hstep, hval] at hfar
    have hmul : 2 * d.n ≤ cs.count c * d.n := Nat.mul_le_mul_right _ hcount
    omega

theorem AutoDupCall.chainOk {t : DupTarget} {base uses : Nat} {body : Term} {F : Fields}
    {p : Parse} (h : AutoDupCall t base uses body F p) (hu : 2 ≤ uses)
    (hroom : p.freshLab + (uses - 1) ≤ parseDynLab) : (dupChain t base uses p).Ok where
  tgt := h.tgt
  lvl := h.lvl
  ext := h.ext
  bjv := h.bjv
  labs := hroom
  pos := by
    show 0 < uses - 1
    omega

/-- The target occurrences of a body with several uses all lie below its root. -/
theorem AutoDupCall.countP {t : DupTarget} {base uses : Nat} {body : Term} {F : Fields}
    {p : Parse} (h : AutoDupCall t base uses body F p) (hu : 2 ≤ uses) :
    F.words.countP t.hits = uses := by
  have huses := h.uses
  rw [List.countP_cons] at huses
  by_cases hh : t.hits body
  · have hq : isQuoted body := by
      have hh' := hh
      simp only [DupTarget.hits, decide_eq_true_eq] at hh'
      simp only [isQuoted, hh'.1, decide_eq_true_eq]
      exact h.tgt
    have hnil : F = .nil := Fields.eq_nil_of_length (h.arity.trans (termArity_of_isQuoted hq))
    subst hnil
    rw [if_pos hh] at huses
    simp only [Fields.words, List.countP_nil] at huses
    omega
  · rw [if_neg hh] at huses
    exact huses.symm

theorem visits_next {d : DupChain} {st : Rt × Nat} {cs : List Nat} :
    (cs.foldl d.visit st).1.next = st.1.next := by
  induction cs generalizing st with
  | nil => rfl
  | cons c cs ih =>
    rw [List.foldl_cons, ih]
    simp only [DupChain.visit]
    split
    · rfl
    · split <;> rfl

/-- The heap after the walk of a call. -/
def walked (d : DupChain) (rt : Rt) (cs : List Nat) : Rt := (cs.foldl d.visit (rt, 0)).1

/-- A call with several uses is a walk over the cells of the body, and then the chain. -/
theorem parseAutoDup_walked {fuel : Nat} {t : DupTarget} {base uses : Nat} {body res : Term}
    {F : Fields} {p p' : Parse} (hcall : AutoDupCall t base uses body F p) (hu : 2 ≤ uses)
    (hcap : p.rt.next ≤ 2 ^ 32) (h : parseAutoDup fuel body t base uses p = .ok (res, p')) :
    (dupChain t base uses p).Ok ∧
      autoDupChain (dupChain t base uses p) (uses - 1) body { p with
        rt := walked (dupChain t base uses p) p.rt (F.cells body.val)
        freshLab := p.freshLab + (uses - 1)
        labels := ((List.range' p.freshLab (uses - 1)).map LabelUse.generated).reverse ++
          p.labels } = .ok (res, p') := by
  obtain ⟨hroom, st, hwalk, hchain⟩ := parseAutoDup_many hu h
  have hd := hcall.chainOk hu hroom
  have hsmall : ∀ c ∈ F.cells body.val, c < 2 ^ 32 := fun c hc =>
    Nat.lt_of_lt_of_le (hcall.below c hc) hcap
  rw [kidLocs_eq_range hcall.arity hsmall] at hwalk
  obtain ⟨rfl, -⟩ := autoDupGo_fold hd hcall.stored (fun _ => Or.inl rfl) hsmall hwalk
  exact ⟨hd, hchain⟩

/-- When every rewritten cell is come to once, each cell takes one step, and the words are
relinked in order. -/
theorem AutoDupCall.steps {t : DupTarget} {base uses : Nat} {body : Term} {F : Fields}
    {p : Parse} (h : AutoDupCall t base uses body F p) (hu : 2 ≤ uses)
    (honce : (dupChain t base uses p).VisitsOnce p.rt (F.cells body.val)) :
    (F.cells body.val).map
        (heapRead (walked (dupChain t base uses p) p.rt (F.cells body.val))) =
      (dupChain t base uses p).relink 0 F.words ∧
    ∀ c ∈ F.cells body.val, (dupChain t base uses p).Step (heapRead p.rt c)
      (heapRead (walked (dupChain t base uses p) p.rt (F.cells body.val)) c) := by
  have hcount : F.words.countP (dupChain t base uses p).hits = uses := h.countP hu
  have hn : (dupChain t base uses p).n = uses - 1 := rfl
  have hwords := h.stored.words_eq
  have hrelink := visits_relink (p.rt, 0) honce
  rw [← hwords] at hrelink
  refine ⟨hrelink, ?_⟩
  have hsteps := relink_step (d := dupChain t base uses p) 0 F.words (by omega)
  rw [← hrelink, hwords, List.forall₂_map_left_iff, List.forall₂_map_right_iff] at hsteps
  exact fun c hc => List.forall₂_same.mp hsteps c hc

/-- A body whose rewritten cells are come to once is linearised. -/
theorem parseAutoDup_linear {fuel : Nat} {t : DupTarget} {base uses : Nat} {body res : Term}
    {F : Fields} {p p' : Parse} (hcall : AutoDupCall t base uses body F p) (hu : 2 ≤ uses)
    (hcap : p.rt.next ≤ 2 ^ 32) (h : parseAutoDup fuel body t base uses p = .ok (res, p'))
    (honce : (dupChain t base uses p).VisitsOnce p.rt (F.cells body.val)) :
    ∃ ds F', LinearForm (dupChain t base uses p) p'.rt body res ds F F' := by
  obtain ⟨hd, hchain⟩ := parseAutoDup_walked hcall hu hcap h
  obtain ⟨hrelink, hsteps⟩ := hcall.steps hu honce
  have hcount := hcall.countP hu
  generalize hdef : dupChain t base uses p = d at *
  have hn : d.n = uses - 1 := by rw [← hdef]; rfl
  have hhits : d.hits = t.hits := by rw [← hdef]; rfl
  obtain ⟨ds, hlen, hof, -, hkeep, -, -⟩ := autoDupChain_ok hd (Nat.le_of_eq hn.symm)
    (show ChainOf d _ (uses - 1) [] body body from rfl) (fun _ hx => (List.not_mem_nil hx).elim)
    hchain
  have hkeep' : ∀ c ∈ F.cells body.val, heapRead p'.rt c =
      heapRead (walked d p.rt (F.cells body.val)) c := by
    intro c hc
    refine hkeep c ?_
    have hnext : (walked d p.rt (F.cells body.val)).next = p.rt.next := visits_next
    rw [hnext]
    exact hcall.below c hc
  have hall : F.words.countP d.hits = d.n + 1 := by
    rw [hhits, hcount]
    omega
  have hstep : ∀ c ∈ F.cells body.val, d.Step (heapRead p.rt c) (heapRead p'.rt c) := by
    intro c hc
    rw [hkeep' c hc]
    exact hsteps c hc
  have hread (env : List Term) (henv : env.length = d.base) :=
    have hds : ds.length = d.n := by simpa [hn] using hlen
    have hin (i : Nat) : Inserted d ds (fieldEnv body env i) (fieldEnv body (env ++ ds) i) :=
      Inserted.field ⟨env, [], henv, by simp, by simp⟩ body i
    hcall.stored.reread_match hd hds hin hstep
  obtain ⟨hstored, -, hre⟩ := hread (List.replicate d.base body) List.length_replicate
  have hafter : (F.reread p'.rt body.val).words = d.relink 0 F.words := by
    rw [hre, List.map_congr_left hkeep', hrelink]
  refine ⟨ds, F.reread p'.rt body.val, ?_⟩
  have hbase (w : Term) (_ : isQuoted w) (hb : d.base < w.val) := not_hits_of_base_lt hd hb
  constructor
  · exact hstored
  · simpa [hn] using hlen
  · exact hof
  · exact fun env henv => (hread env henv).2.1
  · intro i hi side
    rw [hafter]
    exact relink_sides hd hall hi side
  · rw [hafter, List.countP_append, values_countP hd hbase, if_pos (hits_target hd),
      relink_countP hd hbase]
    simp
  · intro t' hlvl hnot
    rw [hafter]
    exact relink_others hd hcall.plain hlvl hnot
  · rw [hre, List.map_map]
    conv_rhs => rw [hcall.stored.words_eq]
    refine List.map_congr_left fun c hc => ?_
    have hmem : heapRead p.rt c ∈ F.words := by
      rw [hcall.stored.words_eq]
      exact List.mem_map_of_mem hc
    exact restore_step hd (hcall.plain _ hmem) (hstep c hc)

/-- The body is linearised exactly when no word that the walk rewrites lies in a cell it
comes to twice. -/
theorem parseAutoDup_correct {fuel : Nat} {t : DupTarget} {base uses : Nat} {body res : Term}
    {F : Fields} {p p' : Parse} (hcall : AutoDupCall t base uses body F p)
    (hcap : p.rt.next ≤ 2 ^ 32)
    (h : parseAutoDup fuel body t base uses p = .ok (res, p')) :
    AutoDupCorrect t base uses body res F p p' ↔
      uses ≤ 1 ∨ (dupChain t base uses p).VisitsOnce p.rt (F.cells body.val) := by
  unfold AutoDupCorrect
  by_cases hu : uses ≤ 1
  · rw [if_pos hu]
    simp only [parseAutoDup, if_pos hu] at h
    obtain ⟨rfl, rfl⟩ := pure_ok.mp h
    exact iff_of_true ⟨rfl, rfl⟩ (Or.inl hu)
  · rw [if_neg hu]
    have hu2 : 2 ≤ uses := by omega
    constructor
    · rintro ⟨ds, F', hform⟩
      obtain ⟨hd, hchain⟩ := parseAutoDup_walked hcall hu2 hcap h
      have hn : (dupChain t base uses p).n = uses - 1 := rfl
      obtain ⟨-, -, -, -, hkeep, -, -⟩ := autoDupChain_ok hd (Nat.le_of_eq hn.symm)
        (show ChainOf _ _ (uses - 1) [] body body from rfl)
        (fun _ hx => (List.not_mem_nil hx).elim) hchain
      refine Or.inr fun c ha => ?_
      by_contra hc
      have hmem : c ∈ F.cells body.val := by
        by_contra hnot
        rw [List.count_eq_zero_of_not_mem hnot] at hc
        omega
      have hstep := hform.cell hd hcall.stored hmem
      have hnext : (walked (dupChain t base uses p) p.rt (F.cells body.val)).next = p.rt.next :=
        visits_next
      have hlt : c < (walked (dupChain t base uses p) p.rt (F.cells body.val)).next := by
        rw [hnext]
        exact hcall.below c hmem
      rw [hkeep c hlt] at hstep
      have htwice : 2 ≤ (F.cells body.val).count c := by omega
      exact not_step_of_count hd (p.rt, 0) ha htwice hstep
    · exact fun hcond => parseAutoDup_linear hcall hu2 hcap h (hcond.resolve_left hu)

/-- The body of `λ&x` at the top of a definition, as its walk finds it. -/
def clonedBody (src : Text) : Option (Term × Parse) :=
  let scan : Parser Term := do
    let nam ← parseName
    parseBindPush nam 0 0 false true
    let body ← lamBody (calls 30) 1
    parseBindPop
    return body
  match scan.run { parseInit with s := ⟨[], src, 1, 1⟩ } with
  | .ok r => some r
  | .error _ => none

/-- That body and state, and what the walk and the chain make of two uses. -/
def clonedRun (src : Text) : Option ((Term × Parse) × (Term × Parse)) := do
  let r ← clonedBody src
  match parseAutoDup 30 r.1 ⟨.bjv, 1, 0⟩ 1 2 r.2 with
  | .ok r' => return (r, r')
  | .error _ => none

theorem clonedRun_ok {src : Text} {r r' : Term × Parse} (h : clonedRun src = some (r, r')) :
    clonedBody src = some r ∧ parseAutoDup 30 r.1 ⟨.bjv, 1, 0⟩ 1 2 r.2 = .ok r' := by
  simp only [clonedRun, Option.bind_eq_bind, Option.bind_eq_some_iff] at h
  obtain ⟨q, hq, h⟩ := h
  split at h
  · rename_i q' hq'
    cases h
    exact ⟨hq, hq'⟩
  · cases h

def clonedFields (r : Term × Parse) : Fields :=
  Fields.load r.2.rt 20 r.1.val (termArity r.1)

/-- The conditions of a call that a run of the parser decides. -/
def ClonedCall (body : Term) (p : Parse) (F : Fields) : Prop :=
  F.length = termArity body ∧ F.Stored p.rt body.val ∧ (∀ w ∈ F.words, RefPlain w) ∧
    (∀ c ∈ F.cells body.val, c < p.rt.next) ∧
    2 = (body :: F.words).countP (DupTarget.hits ⟨.bjv, 1, 0⟩)

instance (body : Term) (p : Parse) (F : Fields) : Decidable (ClonedCall body p F) :=
  inferInstanceAs (Decidable (_ ∧ _ ∧ _ ∧ _ ∧ _))

theorem ClonedCall.call {body : Term} {p : Parse} {F : Fields} (h : ClonedCall body p F) :
    AutoDupCall ⟨.bjv, 1, 0⟩ 1 2 body F p where
  tgt := Or.inl rfl
  lvl := Nat.le_refl 1
  ext := Nat.zero_le _
  bjv := fun _ => rfl
  arity := h.1
  stored := h.2.1
  plain := h.2.2.1
  below := h.2.2.2.1
  uses := h.2.2.2.2

/-- `λ&x. [x,x]`. -/
theorem parseAutoDup_correct_pair :
    ∃ body res p p' F, clonedBody (utf8 "x.[x,x]") = some (body, p) ∧
      parseAutoDup 30 body ⟨.bjv, 1, 0⟩ 1 2 p = .ok (res, p') ∧
      AutoDupCorrect ⟨.bjv, 1, 0⟩ 1 2 body res F p p' := by
  have hrun : ∃ r ∈ clonedRun (utf8 "x.[x,x]"), ClonedCall r.1.1 r.1.2 (clonedFields r.1) ∧
      r.1.2.rt.next ≤ 2 ^ 32 ∧ ((clonedFields r.1).cells r.1.1.val).Nodup := by decide +kernel
  obtain ⟨⟨⟨body, p⟩, res, p'⟩, hrun, hcall, hcap, hnodup⟩ := hrun
  obtain ⟨hbody, hauto⟩ := clonedRun_ok hrun
  refine ⟨body, res, p, p', _, hbody, hauto, (parseAutoDup_correct hcall.call hcap hauto).mpr ?_⟩
  exact Or.inr fun c _ => List.nodup_iff_count_le_one.mp hnodup c

/-- `λ&x. &(x+1)λa{a;a}`: the DSU and the DDU share the node of the label, so the walk comes
to its `x` twice, and moves the link it has just written past the end of the chain. -/
theorem parseAutoDup_not_correct :
    ∃ body res p p' F, clonedBody (utf8 "x.&(x+1)λa\x7ba;a\x7d") = some (body, p) ∧
      AutoDupCall ⟨.bjv, 1, 0⟩ 1 2 body F p ∧
      parseAutoDup 30 body ⟨.bjv, 1, 0⟩ 1 2 p = .ok (res, p') ∧
      ¬ AutoDupCorrect ⟨.bjv, 1, 0⟩ 1 2 body res F p p' := by
  have hrun : ∃ r ∈ clonedRun (utf8 "x.&(x+1)λa\x7ba;a\x7d"),
      ClonedCall r.1.1 r.1.2 (clonedFields r.1) ∧ 1 ∈ (clonedFields r.1).cells r.1.1.val ∧
        DupTarget.hits ⟨.bjv, 1, 0⟩ (heapRead r.1.2.rt 1) ∧ (heapRead r.2.2.rt 1).val = 3 ∧
        r.1.2.freshLab + 1 ≤ parseDynLab := by decide +kernel
  obtain ⟨⟨⟨body, p⟩, res, p'⟩, hrun, hcall, hmem, hhit, hval, hroom⟩ := hrun
  obtain ⟨hbody, hauto⟩ := clonedRun_ok hrun
  refine ⟨body, res, p, p', _, hbody, hcall.call, hauto, fun hcorrect => ?_⟩
  rw [AutoDupCorrect, if_neg (by decide)] at hcorrect
  obtain ⟨ds, F', hform⟩ := hcorrect
  have hd := hcall.call.chainOk (Nat.le_refl 2) hroom
  have hstep := hform.cell hd hcall.2.1 hmem
  rw [DupChain.Step, if_pos (show (dupChain _ 1 2 p).hits (heapRead p.rt 1) from hhit)] at hstep
  obtain ⟨i, -, hlink⟩ := hstep
  have hle : (heapRead p'.rt 1).val ≤ 2 := hlink ▸ (link_val hd i).2
  have hthree : (heapRead p'.rt 1).val = 3 := hval
  omega

end Hvm
