import Hvm.Machine

/-! The collapser: `cnf_at` (`cnf/_.c`) on one thread, where its parallel branch is off.
The recursion of `cnf_at` is an explicit stack of calls, each waiting for the `cnf_at`
of a child, and `wnf` runs in between. -/

namespace Hvm

/-- A call of `cnf_at` that waits for the call on a child. -/
inductive CnfCall where
  /-- The body of a lambda that has become `level` deep. -/
  | lam (level : Nat)
  /-- Field `i` of `term`, which was `orig`; the fields before it are `children`. -/
  | node (term : Term) (depth i : Nat) (orig : Term) (children : List Term)
  deriving DecidableEq, Repr

inductive CnfMode where
  | call (term : Term) (depth : Nat)
  | wnf (stack : List Frame) (md : Mode) (depth : Nat)
  | ret (t : Term)
  deriving DecidableEq, Repr

structure Cnf where
  rt : Rt
  calls : List CnfCall
  mode : CnfMode

inductive CnfOutcome where
  | next (c : Cnf)
  | done (rt : Rt) (t : Term)
  | exit (f : Fault)

/-- The tags whose fields `cnf_at` collapses. -/
def Tag.collapses : Tag → Bool
  | .dup | .app | .dry | .mat | .swi | .use | .pri | .op2 | .dsu | .ddu | .eql | .and | .or
  | .uns => true
  | .ctr n => decide (n ≠ 0)
  | _ => false

namespace Cnf

/-- The fields of the two nodes of a lifted superposition: the superposed field gives its
sides, the others are cloned. `k` is the number of fields still before the superposed one. -/
def split (rt : Rt) (lab : Nat) (a b : Term) : Nat → List Term → Rt × List Term × List Term
  | _, [] => (rt, [], [])
  | 0, _ :: ts =>
    let (rt, args0, args1) := clones rt lab ts
    (rt, a :: args0, b :: args1)
  | k + 1, t :: ts =>
    let (rt, c) := termClone rt lab t
    let (rt, args0, args1) := split rt lab a b k ts
    (rt, c.k0 :: args0, c.k1 :: args1)
where
  clones (rt : Rt) (lab : Nat) : List Term → Rt × List Term × List Term
    | [] => (rt, [], [])
    | t :: ts =>
      let (rt, c) := termClone rt lab t
      let (rt, args0, args1) := clones rt lab ts
      (rt, c.k0 :: args0, c.k1 :: args1)

/-- All fields are collapsed: the first superposition is lifted. -/
def finish (rt : Rt) (term : Term) (children : List Term) : Rt × Term :=
  match children.findIdx? (·.tag == .sup) with
  | none => (rt, term)
  | some k =>
    let sup := children.getD k Term.zero
    let lab := sup.ext
    let a := heapRead rt sup.val
    let b := heapRead rt (sup.val + 1)
    let (rt, args0, args1) := split rt lab a b k children
    let (rt, node0) := termNewAt rt term.val term.tag term.ext args0
    let (rt, node1) := termNewNode rt term.tag term.ext args1
    termNewSup rt lab node0 node1

/-- The loop over the fields of `term`, at field `i`. -/
def fields (rt : Rt) (calls : List CnfCall) (term : Term) (depth i : Nat) (children : List Term) :
    Cnf :=
  if i < termArity term then
    let child := heapRead rt (term.val + i)
    ⟨rt, .node term depth i child children :: calls, .call child depth⟩
  else
    let (rt, t) := finish rt term children
    ⟨rt, calls, .ret t⟩

/-- `wnf` has returned: the switch of `cnf_at`. -/
def dispatch (rt : Rt) (calls : List CnfCall) (depth : Nat) (term : Term) : Cnf :=
  match term.tag with
  | .lam =>
    let body := heapRead rt term.val
    let level := depth + 1
    let rt := heapSubstVar rt term.val (termNew false .bjv 0 level)
    ⟨rt, .lam level :: calls, .call body level⟩
  | .dup | .app | .dry | .mat | .swi | .use | .pri | .op2 | .dsu | .ddu | .eql | .and | .or
  | .uns => fields rt calls term depth 0 []
  | .ctr n => if n = 0 then ⟨rt, calls, .ret term⟩ else fields rt calls term depth 0 []
  | _ => ⟨rt, calls, .ret term⟩

/-- The body of a lambda has been collapsed. -/
def lamReturn (rt : Rt) (level : Nat) (body : Term) : Rt × Term :=
  let (bodyLoc, rt) := heapAlloc rt 1
  let rt := heapSet rt bodyLoc body
  let lam := termNew false .lam level bodyLoc
  match body.tag with
  | .era => (rt, termNewEra)
  | .inc =>
    let rt := heapSet rt bodyLoc (heapRead rt body.val)
    termNewInc rt lam
  | .sup =>
    let lab := body.ext
    let a := heapRead rt body.val
    let b := heapRead rt (body.val + 1)
    let (loc0, rt) := heapAlloc rt 1
    let (loc1, rt) := heapAlloc rt 1
    let rt := heapSet rt loc0 a
    let rt := heapSet rt loc1 b
    termNewSup rt lab (termNew false .lam level loc0) (termNew false .lam level loc1)
  | _ => (rt, lam)

/-- Field `i` of `term` has been collapsed to `t`. -/
def nodeReturn (rt : Rt) (calls : List CnfCall) (term : Term) (depth i : Nat) (orig : Term)
    (children : List Term) (t : Term) : Cnf :=
  let rt := if t ≠ orig then heapSet rt (term.val + i) t else rt
  if t.tag = .era then ⟨rt, calls, .ret termNewEra⟩
  else fields rt calls term depth (i + 1) (children ++ [t])

/-- One step, without the exit of `heap_alloc`. -/
def turn (book : BookTable) (c : Cnf) : CnfOutcome :=
  match c.mode with
  | .call term depth => .next ⟨c.rt, c.calls, .wnf [] (.enter term) depth⟩
  | .wnf stack md depth =>
    match step book ⟨c.rt, stack, md⟩ with
    | .next m => .next ⟨m.rt, c.calls, .wnf m.stack m.mode depth⟩
    | .done rt whnf => .next (dispatch rt c.calls depth whnf)
    | .exit f => .exit f
  | .ret t =>
    match c.calls with
    | [] => .done c.rt t
    | .lam level :: calls =>
      let (rt, t) := lamReturn c.rt level t
      .next ⟨rt, calls, .ret t⟩
    | .node term depth i orig children :: calls =>
      .next (nodeReturn c.rt calls term depth i orig children t)

/-- One step of `cnf`. -/
def step (book : BookTable) (c : Cnf) : CnfOutcome :=
  match turn book c with
  | .next c => if c.rt.next ≤ heapCap then .next c else .exit .outOfHeap
  | o => o

theorem step_next {book : BookTable} {c c' : Cnf} (h : step book c = .next c') :
    turn book c = .next c' := by
  unfold step at h
  cases hturn : turn book c with
  | next d =>
    rw [hturn] at h
    dsimp only at h
    split_ifs at h
    exact h
  | done rt t =>
    rw [hturn] at h
    cases h
  | exit f =>
    rw [hturn] at h
    cases h

theorem step_done {book : BookTable} {c : Cnf} {rt : Rt} {t : Term} (h : step book c = .done rt t) :
    c = ⟨rt, [], .ret t⟩ := by
  obtain ⟨rt', calls, md⟩ := c
  unfold step at h
  cases hturn : turn book ⟨rt', calls, md⟩ with
  | next d =>
    rw [hturn] at h
    dsimp only at h
    split_ifs at h
  | done rt'' t' =>
    rw [hturn] at h
    obtain ⟨rfl, rfl⟩ := CnfOutcome.done.inj h
    cases md with
    | call term depth => cases hturn
    | wnf stack md depth =>
      unfold turn at hturn
      dsimp only at hturn
      cases hstep : Hvm.step book ⟨rt', stack, md⟩ <;> rw [hstep] at hturn <;> cases hturn
    | ret u =>
      cases calls with
      | nil =>
        cases hturn
        rfl
      | cons call calls => cases call <;> cases hturn
  | exit f =>
    rw [hturn] at h
    cases h

/-- `cnf` called on `term`. -/
def start (rt : Rt) (term : Term) : Cnf := ⟨rt, [], .call term 0⟩

def Step (book : BookTable) (c c' : Cnf) : Prop := step book c = .next c'

end Cnf

end Hvm
