import Hvm.Machine

/-! Evaluation one interaction at a time (`wnf_steps_at`): `wnf` runs with its limit one
interaction ahead, and rebuilds the term from its frames where it meets the limit. -/

namespace Hvm

/-- The tags at which `wnf_steps_at` returns at once. -/
def Tag.isReduced : Tag → Bool
  | .nam | .bjv | .bj0 | .bj1 | .dry | .era | .sup | .lam | .num | .mat | .swi | .use | .inc
  | .ctr _ => true
  | _ => false

/-- One turn of the loop of `wnf_rebuild`. -/
def rebuildFrame (rt : Rt) (frame cur : Term) : Rt × Term :=
  let loc := frame.val
  match frame.tag with
  | .app => termNewAppAt rt loc cur (heapRead rt (loc + 1))
  | .mat | .swi | .use => termNewApp rt frame cur
  | .dp0 | .dp1 | .op2 | .eql | .and | .or | .dsu | .ddu => (heapSet rt loc cur, frame)
  | .fOp2Num => termNewOp2 rt frame.ext (termNewNum (u32 frame.val)) cur
  | .fEqlR => (heapSet rt (loc + 1) cur, termNew false .eql 0 loc)
  | _ => (rt, cur)

/-- `wnf_rebuild`, from the top of the stack to the base of the activation. -/
def wnfRebuild (rt : Rt) (cur : Term) : List Frame → Rt × Term × List Frame
  | [] => (rt, cur, [])
  | .native k :: stack => (rt, cur, .native k :: stack)
  | .tm frame :: stack =>
    let (rt, cur) := rebuildFrame rt frame cur
    wnfRebuild rt cur stack

/-- `wnf` is about to enter a term or to pop a frame, and has used up its interactions. -/
def Machine.limited (lim : Nat) (m : Machine) : Bool :=
  match m.mode, m.stack with
  | .enter _, _ | .apply _, .tm _ :: _ => lim ≤ m.rt.itrs
  | .apply _, _ => false

/-- The rebuilt term is returned to whoever called. -/
def returnRebuilt (rt : Rt) (cur : Term) (stack : List Frame) : Outcome :=
  let (rt, cur, stack) := wnfRebuild rt cur stack
  if rt.next ≤ heapCap then applyFrame rt cur stack else .exit .outOfHeap

/-- A turn of `wnf` under the limit. -/
def limitedTurn (book : BookTable) (lim : Nat) (m : Machine) : Outcome :=
  if m.limited lim then
    match m.mode with
    | .enter next => returnRebuilt m.rt next m.stack
    | .apply whnf => returnRebuilt m.rt whnf m.stack
  else turn book m

/-- Where `wnf_steps_at` is. -/
inductive StepsMode where
  | look (rt : Rt)
  /-- At the head of its loop. -/
  | call (rt : Rt) (cur : Term)
  /-- `wnf` runs on `cur`, since `itrs` interactions. -/
  | run (cur : Term) (itrs : Nat) (m : Machine)

structure Stepper where
  loc : Nat
  mode : StepsMode

inductive StepsOutcome where
  | next (s : Stepper)
  | done (rt : Rt) (t : Term)
  | exit (f : Fault)

namespace Stepper

/-- `wnf` has returned `res`. -/
def returned (s : Stepper) (cur : Term) (itrs : Nat) (rt : Rt) (res : Term) : StepsOutcome :=
  let rt := if res ≠ cur then heapSet rt s.loc res else rt
  if rt.itrs = itrs then .done rt res else .next ⟨s.loc, .call rt res⟩

def step (book : BookTable) (s : Stepper) : StepsOutcome :=
  match s.mode with
  | .look rt =>
    let cur := heapRead rt s.loc
    if cur.tag.isReduced then .done rt cur else .next ⟨s.loc, .call rt cur⟩
  | .call rt cur => .next ⟨s.loc, .run cur rt.itrs (start rt cur)⟩
  | .run cur itrs m =>
    match checkHeap (limitedTurn book (itrs + 1) m) with
    | .next m => .next ⟨s.loc, .run cur itrs m⟩
    | .done rt res => s.returned cur itrs rt res
    | .exit f => .exit f

def Step (book : BookTable) (s s' : Stepper) : Prop := step book s = .next s'

/-- `Step`, computed. -/
def step? (book : BookTable) (s : Stepper) : Option Stepper :=
  match step book s with
  | .next s => some s
  | _ => none

theorem step?_step {book : BookTable} {s s' : Stepper} (h : step? book s = some s') : Step book s s' := by
  unfold step? at h
  split at h
  next s'' hs => rw [Step, hs, Option.some.inj h]
  next => cases h

/-- `wnf_steps_at` on a fresh cell that holds `term`. -/
def start (rt : Rt) (term : Term) : Stepper :=
  let (loc, rt) := heapAlloc rt 1
  ⟨loc, .look (heapSet rt loc term)⟩

def startAt (rt : Rt) (loc : Nat) : Stepper := start rt (termNew false .alo 0 loc)

end Stepper

/-! ### Interactions of a rebuild -/

theorem rebuildFrame_itrs (rt : Rt) (frame cur : Term) : (rebuildFrame rt frame cur).1.itrs = rt.itrs := by
  unfold rebuildFrame
  dsimp only
  split <;> rfl

/-- A rebuild is no interaction. -/
theorem wnfRebuild_itrs (rt : Rt) (cur : Term) (stack : List Frame) :
    (wnfRebuild rt cur stack).1.itrs = rt.itrs := by
  induction stack generalizing rt cur with
  | nil => rfl
  | cons f stack ih =>
    cases f with
    | native k => rfl
    | tm frame => exact (ih _ _).trans (rebuildFrame_itrs rt frame cur)

end Hvm
