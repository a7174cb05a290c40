import Hvm.Machine

/-! What `wnf` returns: the tags of its results, and what it leaves stuck. -/

namespace Hvm

open Machine

/-- The tags of the words the applying phase handles. -/
def Tag.isWhnf : Tag → Bool
  | .alo | .dup | .uns | .pri | .eql | .fOp2Num | .fEqlR => false
  | _ => true

/-- The weak normal forms a dup does not interact with. -/
def Tag.dupStuck : Tag → Bool
  | .app | .var | .dp0 | .dp1 | .ref | .and | .or => true
  | _ => false

/-- A word in weak normal form. A variable in head position has no substitution, and the
shared expression of a dup variable is one its dup does not interact with. -/
structure Whnf (rt : Rt) (w : Term) : Prop where
  tag : w.tag.isWhnf = true
  var : w.tag = .var → (heapRead rt w.val).sub = false
  dup : w.tag = .dp0 ∨ w.tag = .dp1 → ∃ x, rt.heap w.val = .tm x ∧ x.tag.dupStuck = true

/-- Tags that say all about a weak normal form. -/
def Tag.isRigid (tag : Tag) : Bool := tag.isWhnf && tag != .var && tag != .dp0 && tag != .dp1

theorem Whnf.of_rigid {rt : Rt} {w : Term} (h : w.tag.isRigid = true) : Whnf rt w := by
  simp only [Tag.isRigid, Bool.and_eq_true, bne_iff_ne] at h
  exact ⟨h.1.1.1, fun hv => (h.1.1.2 hv).elim, fun hd => (hd.elim h.1.2 h.2).elim⟩

/-- The turn goes on: in the entering phase, or with a weak normal form. -/
structure Applies (o : Outcome) : Prop where
  whnf : ∀ m w, o = .next m → m.mode = .apply w → Whnf m.rt w
  runs : ∀ rt w, o ≠ .done rt w

variable {rt : Rt} {stack : List Frame} {t w : Term}

theorem applies_exit (f : Fault) : Applies (.exit f) := by
  refine ⟨?_, nofun⟩
  intro m w hm
  cases hm

theorem applies_enter (rt : Rt) (stack : List Frame) (t : Term) :
    Applies (.next ⟨rt, stack, .enter t⟩) := by
  refine ⟨?_, nofun⟩
  rintro m w ⟨⟩ hw
  cases hw

theorem applies_goEnter (stack : List Frame) (r : Rt × Term) : Applies (goEnter stack r) :=
  applies_enter _ _ _

theorem applies_apply (h : Whnf rt w) : Applies (.next ⟨rt, stack, .apply w⟩) := by
  refine ⟨?_, nofun⟩
  rintro m w' ⟨⟩ ⟨⟩
  exact h

theorem applies_rigid {r : Rt × Term} (h : r.2.tag.isRigid = true) : Applies (goApply stack r) :=
  applies_apply (.of_rigid h)

/-- A frame whose content is stuck. -/
theorem applies_frame {tag : Tag} {loc : Nat} (ht : t.tag = tag) (h : tag.isRigid = true) :
    Applies (goApply stack (heapSet rt loc w, t)) := applies_rigid (ht ▸ h)

/-- A rule that gives back a priority wrapper. -/
theorem applies_inc {rt' : Rt} (hw : w.tag = .inc) : Applies (goApply stack (rt', w)) :=
  applies_rigid (by rw [hw]; rfl)

theorem applyApp_applies (ht : t.tag = .app) : Applies (applyApp rt stack t w) := by
  unfold applyApp
  dsimp only
  split <;> rename_i hw <;> first
    | exact applies_rigid rfl
    | exact applies_goEnter _ _
    | exact applies_enter _ _ _
    | exact applies_exit _
    | exact applies_inc hw
    | exact applies_frame ht rfl

theorem applyMat_applies : Applies (applyMat rt stack t w) := by
  unfold applyMat
  split <;> first
    | exact applies_rigid rfl
    | exact applies_goEnter _ _

theorem applyUse_applies : Applies (applyUse rt stack t w) := by
  unfold applyUse
  split <;> first
    | exact applies_rigid rfl
    | exact applies_goEnter _ _

theorem wnfDupLam_tag (lab loc : Nat) (side : Bool) : (wnfDupLam rt lab loc side w).2.tag = .lam := by
  unfold wnfDupLam
  dsimp only
  split_ifs <;> cases side <;> rfl

theorem wnfDupNod_tag (lab loc : Nat) (side : Bool) :
    (wnfDupNod rt lab loc side w).2.tag = w.tag := by
  unfold wnfDupNod
  dsimp only
  split_ifs
  · rfl
  · cases side <;> rfl

theorem applyDup_applies (ht : t.tag = .dp0 ∨ t.tag = .dp1) (hw : Whnf rt w) :
    Applies (applyDup rt stack t w) := by
  unfold applyDup
  dsimp only
  split
  case h_1 h | h_2 h | h_3 h | h_4 h =>
    refine applies_rigid ?_
    change w.tag.isRigid = true
    rw [h]
    rfl
  case h_5 => exact applies_rigid (by rw [wnfDupLam_tag]; rfl)
  case h_7 h | h_8 h | h_10 h =>
    refine applies_rigid ?_
    rw [wnfDupNod_tag, h]
    rfl
  case h_9 h =>
    have hh := hw.tag
    rw [h] at hh
    cases hh
  case h_20 =>
    -- the shared expression stays in the dup cell
    have hstuck : w.tag.dupStuck = true := by
      have hh := hw.tag
      cases hwt : w.tag <;> rw [hwt] at hh <;> first
        | rfl
        | (cases hh; done)
        | (exfalso; simp_all)
    refine applies_apply ⟨?_, fun hv => ?_, fun _ => ⟨w, by simp [heapSet], hstuck⟩⟩
    · rcases ht with ht | ht <;> rw [ht] <;> rfl
    · rw [hv] at ht
      rcases ht with ht | ht <;> cases ht
  all_goals exact applies_goEnter _ _

theorem applyOp2_applies (ht : t.tag = .op2) : Applies (applyOp2 rt stack t w) := by
  unfold applyOp2
  dsimp only
  split <;> rename_i hw <;> first
    | exact applies_rigid rfl
    | exact applies_inc hw
    | exact applies_frame ht rfl
    | (split_ifs <;> first | exact applies_rigid rfl | exact applies_enter _ _ _)

theorem applyOp2Num_applies : Applies (applyOp2Num rt stack t w) := by
  unfold applyOp2Num
  dsimp only
  split <;> rename_i hw <;> first
    | exact applies_rigid rfl
    | exact applies_inc hw

theorem applyEql_applies : Applies (applyEql rt stack t w) := by
  unfold applyEql
  dsimp only
  split <;> rename_i hw <;> first
    | exact applies_rigid rfl
    | exact applies_inc hw
    | exact applies_enter _ _ _

theorem applyEqlR_applies : Applies (applyEqlR rt stack t w) := by
  unfold applyEqlR
  dsimp only
  split <;> rename_i hw <;> first
    | exact applies_rigid rfl
    | exact applies_inc hw
    | (split_ifs <;> first | exact applies_rigid rfl | exact applies_goEnter _ _)

theorem applyDsu_applies (ht : t.tag = .dsu) : Applies (applyDsu rt stack t w) := by
  unfold applyDsu
  dsimp only
  split <;> rename_i hw <;> first
    | exact applies_rigid rfl
    | exact applies_inc hw
    | exact applies_frame ht rfl

theorem applyDdu_applies (ht : t.tag = .ddu) : Applies (applyDdu rt stack t w) := by
  unfold applyDdu
  dsimp only
  split <;> rename_i hw <;> first
    | exact applies_rigid rfl
    | exact applies_inc hw
    | exact applies_goEnter _ _
    | exact applies_frame ht rfl

theorem applyAnd_applies (ht : t.tag = .and) : Applies (applyAnd rt stack t w) := by
  unfold applyAnd
  dsimp only
  split <;> rename_i hw <;> first
    | exact applies_rigid rfl
    | exact applies_inc hw
    | exact applies_goEnter _ _
    | exact applies_frame ht rfl

theorem applyOr_applies (ht : t.tag = .or) : Applies (applyOr rt stack t w) := by
  unfold applyOr
  dsimp only
  split <;> rename_i hw <;> first
    | exact applies_rigid rfl
    | exact applies_inc hw
    | exact applies_goEnter _ _
    | exact applies_frame ht rfl

theorem nativeReturn_applies (k : Native) : Applies (nativeReturn rt stack w k) := by
  unfold nativeReturn
  dsimp only
  repeat' split
  all_goals first
    | exact applies_enter _ _ _
    | exact applies_goEnter _ _
    | exact applies_exit _

theorem applyFrame_applies {f : Frame} (hw : Whnf rt w) : Applies (applyFrame rt w (f :: stack)) := by
  cases f with
  | native k => exact nativeReturn_applies k
  | tm t =>
    unfold applyFrame
    dsimp only
    split
    case h_1 ht => exact applyApp_applies ht
    case h_2 | h_3 => exact applyMat_applies
    case h_4 => exact applyUse_applies
    case h_5 ht => exact applyDup_applies (.inl ht) hw
    case h_6 ht => exact applyDup_applies (.inr ht) hw
    case h_7 ht => exact applyOp2_applies ht
    case h_8 => exact applyOp2Num_applies
    case h_9 => exact applyEql_applies
    case h_10 => exact applyEqlR_applies
    case h_11 ht => exact applyDsu_applies ht
    case h_12 ht => exact applyDdu_applies ht
    case h_13 ht => exact applyAnd_applies ht
    case h_14 ht => exact applyOr_applies ht
    case h_15 => exact applies_apply hw

theorem wnfPri_applies : Applies (wnfPri rt stack t) := by
  unfold wnfPri
  dsimp only
  repeat' split
  all_goals first
    | exact applies_enter _ _ _
    | exact applies_exit _

theorem enter_applies (book : BookTable) (hw : t.tag.isWord = true) :
    Applies (enter book rt stack t) := by
  unfold enter
  dsimp only
  split
  case h_1 ht =>
    split_ifs with hs
    · exact applies_enter _ _ _
    · refine applies_apply ⟨by rw [ht]; rfl, fun _ => by simpa using hs, fun hd => ?_⟩
      rw [ht] at hd
      rcases hd with hd | hd <;> cases hd
  case h_2 | h_3 =>
    split_ifs
    · exact applies_exit _
    · exact applies_enter _ _ _
    · exact applies_enter _ _ _
  case h_12 => exact applies_goEnter _ _
  case h_13 ht =>
    split_ifs
    · exact applies_enter _ _ _
    · exact applies_apply (.of_rigid (by rw [ht]; rfl))
  case h_14 => exact wnfPri_applies
  case h_15 =>
    unfold enterAlo
    dsimp only
    split <;> first
      | exact applies_goEnter _ _
      | exact applies_enter _ _ _
  case h_4 | h_5 | h_6 | h_7 | h_8 | h_9 | h_10 | h_11 => exact applies_enter _ _ _
  all_goals
    rename_i ht
    rw [ht] at hw
    first
      | exact applies_apply (.of_rigid (by rw [ht]; rfl))
      | cases hw

/-- What a turn from a state on its way to a weak normal form does. -/
theorem step_applies (book : BookTable) {m : Machine}
    (he : ∀ t, m.mode = .enter t → t.tag.isWord = true)
    (ha : ∀ w, m.mode = .apply w → Whnf m.rt w) :
    Applies (turn book m) ∨ ∃ w, m.stack = [] ∧ m.mode = .apply w := by
  obtain ⟨rt, stack, md⟩ := m
  cases md with
  | enter t => exact .inl (enter_applies book (he t rfl))
  | apply w =>
    cases stack with
    | nil => exact .inr ⟨w, rfl, rfl⟩
    | cons f stack => exact .inl (applyFrame_applies (ha w rfl))

/-- Whatever `wnf` applies is in weak normal form. -/
theorem step_whnf {book : BookTable} {m m' : Machine} (hs : step book m = .next m')
    (he : ∀ t, m.mode = .enter t → t.tag.isWord = true)
    (ha : ∀ w, m.mode = .apply w → Whnf m.rt w) : ∀ w, m'.mode = .apply w → Whnf m'.rt w := by
  intro w hw
  rcases step_applies book he ha with h | ⟨v, hstack, hmode⟩
  · exact h.whnf m' w (checkHeap_next hs) hw
  · have hnext := checkHeap_next hs
    obtain ⟨rt, stack, md⟩ := m
    obtain rfl : stack = [] := hstack
    obtain rfl : md = .apply v := hmode
    cases hnext

/-- `wnf` returns what it applies to no frame. -/
theorem step_done {book : BookTable} {m : Machine} {rt : Rt} {w : Term}
    (hs : step book m = .done rt w) (he : ∀ t, m.mode = .enter t → t.tag.isWord = true)
    (ha : ∀ w, m.mode = .apply w → Whnf m.rt w) : m = ⟨rt, [], .apply w⟩ := by
  have hdone := checkHeap_done hs
  rcases step_applies book he ha with h | ⟨v, hstack, hmode⟩
  · exact (h.runs rt w hdone).elim
  · obtain ⟨rt', stack, md⟩ := m
    obtain rfl : stack = [] := hstack
    obtain rfl : md = .apply v := hmode
    obtain ⟨rfl, rfl⟩ := Outcome.done.inj hdone
    rfl

end Hvm
