import Hvm.Trace

/-! The workers of `eval_collapse` (`eval/collapse.c`): their banks of the key queue
(`data/wspq.c`), the pool of `cnf` tasks (`cnf/_.c`), and the cells by which they print and
stop. An access to a shared cell is one step, and so is an operation on a deque. What `cnf`
makes of a location is given: a tree of branches. -/

namespace Hvm.Collapse

/-! ### Branches -/

/-- What `cnf` gives once the priority wrappers are off. -/
inductive Out where
  | era
  | leaf
  | sup (loc : Nat)
  deriving DecidableEq

/-- A branch: how many priority wrappers come off, one after the other, and what is left. -/
structure Branch where
  incs : Nat
  out : Out
  deriving DecidableEq

/-- The branch at each path of sides from the root. -/
abbrev Tree := List Bool → Branch

/-- A queued location, with the path of the branch in it; the program has the location only.
No location is 0. -/
structure Task where
  loc : Nat
  path : List Bool
  deriving DecidableEq

/-! ### The key queue -/

def wspqBrackets : Nat := 64
def wspqStealAttempts : Nat := 2
def stealPeriod : Nat := 128
def stealBatch : Nat := 32

def wspqKeyBucket (key : Nat) : Nat :=
  if key ≥ wspqBrackets then wspqBrackets - 1 else key

/-- `wspq_lsb64`, `none` on an empty mask. -/
def wspqLsb (m : Finset Nat) : Option Nat := if h : m.Nonempty then some (m.min' h) else none

/-! ### Workers -/

/-- What `eval_collapse_process_loc` goes on with after a push, or `wspq_steal_some`. -/
inductive After where
  | second (key : Nat) (t : Task)
  | done
  | steal (k vic b got lim : Nat)
  deriving DecidableEq

/-- A C call that waits while the worker runs a `cnf` task. A group are the tasks that one
`cnf_at` has spawned. -/
inductive Call where
  /-- `cnf_task_run` on a task of group `g`. -/
  | task (g : Nat)
  /-- `cnf_pool_spawn`, with `k` children of the group still to come. -/
  | spawning (g k : Nat)
  /-- `cnf_pool_join`. -/
  | joining (g : Nat)
  deriving DecidableEq

/-- Where a worker is. -/
inductive Point where
  /-- At the head of the loop, before `stop` is read. -/
  | check
  | pop
  /-- `wspq_pop` with the buckets still to be tried. -/
  | scan (m : Finset Nat)
  | clear (m : Finset Nat) (b : Nat)
  /-- At the head of the loop of `eval_collapse_process_loc`. -/
  | enter
  /-- A leaf: before the first load of `printed`. -/
  | tally
  | announce
  | flush
  /-- Before the second load of `printed`. -/
  | recheck
  | push (key : Nat) (t : Task) (k : After)
  /-- `wspq_push` between the deque and the mask. -/
  | mark (b : Nat) (k : After)
  /-- `cnf_at` runs. -/
  | cnf
  | spawn (g k : Nat)
  | join (g : Nat)
  | poolPop
  | poolIdle
  | poolOff
  | poolScan (k : Nat)
  | poolTook (g : Nat)
  | poolOn (g : Nat)
  | canSteal (k : Nat)
  | rouse
  | ownMask
  | victim (k lim : Nat)
  | steal (k vic b got lim : Nat)
  | tryRun
  | leave
  | readPending
  | readCnf
  | quit
  | exit
  | left
  deriving DecidableEq

/-- A location that `eval_collapse_process_loc` works on: its key, and the wrappers `cnf` has
not met yet. -/
structure Job where
  key : Nat
  incs : Nat
  task : Task
  deriving DecidableEq

/-- A worker: its bank (`nonempty`, `q`), its deque of the pool and its flag there, and the
locals of its thread. -/
structure Worker where
  nonempty : Finset Nat
  q : Nat → List Task
  dq : List Nat
  busy : Bool
  iter : Nat
  cursor : Nat
  active : Bool
  popped : Bool
  stolen : Nat
  localPrinted : Nat
  job : Option Job
  calls : List Call
  point : Point

/-- `EvalCollapseCtx`. From `pushed` on the fields are records that the program does not
keep: the locations pushed, processed, and dropped because of `stop`, the leaves counted, the
lines printed, and whether the output limit was reached. -/
structure Ctx (n : Nat) where
  W : Fin n → Worker
  printed : Nat
  pending : Int
  stop : Bool
  cnfPending : Int
  groupPending : Nat → Int
  groups : Nat
  pushed : List Task
  processed : List Task
  dropped : List Task
  counted : List (List Bool)
  lines : List (List Bool)
  limited : Bool

/-- One choice of the environment: a steal loses its race, a pool deque is full, or `cnf_at`
meets a node of `k` fields while it may spawn. -/
inductive Act where
  | step
  | lost
  | full
  | fork (k : Nat)
  deriving DecidableEq

/-- What a call of `eval_collapse` is given. -/
structure Setup where
  tree : Tree
  limit : Nat

def printBatch (limit n : Nat) : Nat :=
  let batch := limit / (100 * n)
  let batch := if batch < 1 then 1 else batch
  if batch > 64 then 64 else batch

namespace Worker

/-- `eval_collapse_process_loc` returns. -/
def ret (w : Worker) : Worker :=
  { w with
    job := none, popped := true, stolen := 0, iter := w.iter + 1
    point := if w.iter + 1 < stealPeriod then .check else .canSteal 1 }

def setQ (w : Worker) (b : Nat) (ts : List Task) : Worker :=
  { w with q := Function.update w.q b ts }

/-- A task of the pool is run. -/
def runTask (w : Worker) (g : Nat) : Worker :=
  { w with calls := .task g :: w.calls, point := .cnf }

/-- `cnf_task_run` returns into the call below it. -/
def resume (w : Worker) : List Call → Worker
  | .spawning g k :: calls => { w with calls := calls, point := .spawn g k }
  | .joining g :: calls => { w with calls := calls, point := .join g }
  | calls => { w with calls := calls, point := .check }

/-- `cnf_pool_try_pop` returns `NULL`. -/
def poolNone (w : Worker) : Worker :=
  match w.calls with
  | .joining g :: calls => { w with calls := calls, point := .join g }
  | _ => { w with point := .leave }

/-- What follows `wspq_push`. -/
def pushed (w : Worker) : After → Worker
  | .second key t => { w with point := .push key t .done }
  | .done => w.ret
  | .steal k vic b got lim => { w with point := .steal k vic b (got + 1) lim }

/-- The steals from one victim are over. -/
def stealEnd (w : Worker) (k vic got lim : Nat) : Worker :=
  if got = 0 then { w with point := .victim (k + 1) lim }
  else { w with cursor := vic + 1, stolen := got, iter := 0, point := .check }

end Worker

namespace Ctx

variable {n : Nat}

def set (s : Ctx n) (me : Fin n) (w : Worker) : Ctx n := { s with W := Function.update s.W me w }

/-- The worker `(i + k) % n`. -/
def wrap (me : Fin n) (i : Nat) : Fin n := ⟨i % n, Nat.mod_lt _ (Nat.zero_lt_of_lt me.isLt)⟩

/-- `wspq_pop`, and `eval_collapse_process_loc` up to its loop. -/
def popTurn (u : Setup) (s : Ctx n) (me : Fin n) : Option (Ctx n) :=
  let w := s.W me
  match w.point with
  | .check => some (s.set me { w with point := if s.stop then .exit else .pop })
  | .pop => some (s.set me { w with point := .scan w.nonempty })
  | .scan m =>
    match wspqLsb m with
    | none =>
      some (s.set me
        { w with iter := stealPeriod, popped := false, stolen := 0, point := .canSteal 1 })
    | some b =>
      match if n = 1 then (w.q b).head? else (w.q b).getLast? with
      | some t =>
        let ts := if n = 1 then (w.q b).tail else (w.q b).dropLast
        some (s.set me
          { w.setQ b ts with job := some ⟨b, (u.tree t.path).incs, t⟩, point := .enter })
      | none => some (s.set me { w with point := .clear m b })
  | .clear m b =>
    some (s.set me { w with nonempty := w.nonempty.erase b, point := .scan (m.erase b) })
  | _ => none

/-- `cnf` has returned on the location. -/
def lifted (u : Setup) (s : Ctx n) (me : Fin n) (j : Job) : Ctx n :=
  let w := s.W me
  if 0 < j.incs then
    s.set me { w with job := some { j with key := j.key - 1, incs := j.incs - 1 }, point := .enter }
  else
    let s := { s with processed := s.processed ++ [j.task] }
    match (u.tree j.task.path).out with
    | .era => s.set me w.ret
    | .leaf => s.set me { w with point := .tally }
    | .sup loc =>
      let key := j.key + 1
      let next := After.second key ⟨loc + 1, j.task.path ++ [true]⟩
      s.set me { w with point := .push key ⟨loc, j.task.path ++ [false]⟩ next }

/-- The rest of `eval_collapse_process_loc`, and `wspq_push`. -/
def locTurn (u : Setup) (s : Ctx n) (me : Fin n) : Option (Ctx n) :=
  let w := s.W me
  match w.point, w.job with
  | .enter, some j =>
    if s.stop then some { s.set me w.ret with dropped := s.dropped ++ [j.task] }
    else some (s.set me { w with point := .cnf })
  | .tally, some j =>
    let w := { w with localPrinted := w.localPrinted + 1 }
    let s := { s with counted := s.counted ++ [j.task.path] }
    if s.printed + w.localPrinted ≥ u.limit then
      some { s.set me { w with point := .announce } with limited := true }
    else if w.localPrinted ≥ printBatch u.limit n then some (s.set me { w with point := .flush })
    else some (s.set me { w with point := .recheck })
  | .announce, _ => some { s.set me { w with point := .flush } with stop := true }
  | .flush, _ =>
    some { s.set me { w with localPrinted := 0, point := .recheck } with
      printed := s.printed + w.localPrinted }
  | .recheck, some j =>
    if s.printed + w.localPrinted ≤ u.limit then
      some { s.set me w.ret with lines := s.lines ++ [j.task.path] }
    else some (s.set me w.ret)
  | .push key t k, _ =>
    let b := wspqKeyBucket key
    let s' := s.set me { w.setQ b (w.q b ++ [t]) with point := .mark b k }
    match k with
    | .steal .. => some s'
    | _ => some { s' with pushed := s.pushed ++ [t] }
  | .mark b k, _ => some (s.set me (Worker.pushed { w with nonempty := insert b w.nonempty } k))
  | _, _ => none

/-- `cnf_at` and the pool it spawns into. -/
def cnfTurn (u : Setup) (s : Ctx n) (me : Fin n) (a : Act) : Option (Ctx n) :=
  let w := s.W me
  match w.point, a with
  | .cnf, .fork k =>
    if 1 < n ∧ 2 ≤ k ∧ k ≤ 16 then
      some { s.set me { w with point := .spawn s.groups k } with
        groups := s.groups + 1
        groupPending := Function.update s.groupPending s.groups k }
    else none
  | .cnf, .step =>
    match w.calls, w.job with
    | [], some j => some (lifted u s me j)
    | .task g :: calls, _ =>
      some { s.set me (w.resume calls) with
        groupPending := Function.update s.groupPending g (s.groupPending g - 1) }
    | _, _ => none
  | .spawn g 0, .step => some (s.set me { w with point := .join g })
  | .spawn g (k + 1), .step => some (s.set me { w with dq := w.dq ++ [g], point := .spawn g k })
  | .spawn g (k + 1), .full =>
    some (s.set me (Worker.runTask { w with calls := .spawning g k :: w.calls } g))
  | .join g, .step =>
    if s.groupPending g = 0 then some (s.set me { w with point := .cnf })
    else some (s.set me { w with calls := .joining g :: w.calls, point := .poolPop })
  | .poolPop, .step =>
    match w.dq.getLast? with
    | some g => some (s.set me (Worker.runTask { w with dq := w.dq.dropLast } g))
    | none => some (s.set me { w with point := .poolIdle })
  | .poolIdle, .step =>
    if w.busy then
      some { s.set me { w with point := .poolOff } with cnfPending := s.cnfPending - 1 }
    else some (s.set me { w with point := .poolScan 1 })
  | .poolOff, .step => some (s.set me { w with busy := false, point := .poolScan 1 })
  | .poolScan k, .step =>
    if k < n then
      let vic := wrap me (me + k)
      match (s.W vic).dq with
      | g :: dq =>
        if vic = me then none
        else
          some ((s.set vic { s.W vic with dq := dq }).set me { w with point := .poolTook g })
      | [] => some (s.set me { w with point := .poolScan (k + 1) })
    else some (s.set me w.poolNone)
  | .poolScan k, .lost =>
    if k < n then some (s.set me { w with point := .poolScan (k + 1) }) else none
  | .poolTook g, .step =>
    if w.busy then some (s.set me (w.runTask g))
    else some { s.set me { w with point := .poolOn g } with cnfPending := s.cnfPending + 1 }
  | .poolOn g, .step => some (s.set me (Worker.runTask { w with busy := true } g))
  | _, _ => none

/-- The rest of the loop of `eval_collapse_worker`. -/
def idleTurn (s : Ctx n) (me : Fin n) (a : Act) : Option (Ctx n) :=
  let w := s.W me
  match w.point, a with
  | .canSteal k, .step =>
    if k < n then
      if (s.W (wrap me (me + k))).nonempty ≠ ∅ then some (s.set me { w with point := .rouse })
      else some (s.set me { w with point := .canSteal (k + 1) })
    else some (s.set me { w with point := .tryRun })
  | .rouse, .step =>
    let pending := if w.active then s.pending else s.pending + 1
    let point := if w.popped then Point.ownMask else .victim 0 wspqBrackets
    some { s.set me { w with active := true, point := point } with pending := pending }
  | .ownMask, .step =>
    some (s.set me { w with point := .victim 0 ((wspqLsb w.nonempty).getD wspqBrackets) })
  | .victim k lim, .step =>
    if k < wspqStealAttempts then
      let vic := wrap me (w.cursor + k)
      if vic = me then some (s.set me { w with point := .victim (k + 1) lim })
      else
        match wspqLsb ((s.W vic).nonempty.filter (· < lim)) with
        | none => some (s.set me { w with point := .victim (k + 1) lim })
        | some b => some (s.set me { w with point := .steal k vic b 0 lim })
    else
      some (s.set me
        { w with cursor := w.cursor + wspqStealAttempts, iter := 0, point := .tryRun })
  | .steal k vic b got lim, .step =>
    if got < stealBatch then
      let v := wrap me vic
      match (s.W v).q b with
      | t :: ts =>
        if v = me then none
        else
          some ((s.set v ((s.W v).setQ b ts)).set me
            { w with point := .push b t (.steal k vic b got lim) })
      | [] => some (s.set me (w.stealEnd k vic got lim))
    else some (s.set me (w.stealEnd k vic got lim))
  | .steal k vic _ got lim, .lost =>
    if got < stealBatch then some (s.set me (w.stealEnd k vic got lim)) else none
  | .tryRun, .step =>
    some (s.set me { w with point := if n ≤ 1 ∨ s.cnfPending = 0 then .leave else .poolPop })
  | .leave, .step =>
    if w.active ∧ ¬ w.popped ∧ w.stolen = 0 then
      some { s.set me { w with active := false, point := .readPending } with
        pending := s.pending - 1 }
    else some (s.set me { w with point := .readPending })
  | .readPending, .step =>
    some (s.set me { w with point := if s.pending = 0 then .readCnf else .check })
  | .readCnf, .step =>
    some (s.set me { w with point := if s.cnfPending = 0 then .quit else .check })
  | .quit, .step => some { s.set me { w with point := .check } with stop := true }
  | .exit, .step =>
    some { s.set me { w with localPrinted := 0, point := .left } with
      printed := s.printed + w.localPrinted }
  | _, _ => none

/-- A step of worker `me`. -/
def turn (u : Setup) (s : Ctx n) (me : Fin n) (a : Act) : Option (Ctx n) :=
  match (s.W me).point with
  | .check | .pop | .scan _ | .clear _ _ => if a = .step then popTurn u s me else none
  | .enter | .tally | .announce | .flush | .recheck | .push _ _ _ | .mark _ _ =>
    if a = .step then locTurn u s me else none
  | .cnf | .spawn _ _ | .join _ | .poolPop | .poolIdle | .poolOff | .poolScan _ | .poolTook _
  | .poolOn _ => cnfTurn u s me a
  | _ => idleTurn s me a

/-- `eval_collapse` has queued the root and all workers start. -/
def start (n rootLoc : Nat) : Ctx n where
  W i :=
    { nonempty := if i.val = 0 then {0} else ∅
      q := fun b => if i.val = 0 ∧ b = 0 then [⟨rootLoc, []⟩] else []
      dq := [], busy := true, iter := 0, cursor := i + 1, active := true, popped := false
      stolen := 0, localPrinted := 0, job := none, calls := [], point := .check }
  printed := 0
  pending := n
  stop := false
  cnfPending := if n > 1 then n else 0
  groupPending := fun _ => 0
  groups := 0
  pushed := []
  processed := []
  dropped := []
  counted := []
  lines := []
  limited := false

/-- Some worker takes a step. -/
def Step (u : Setup) (s s' : Ctx n) : Prop := ∃ me a, turn u s me a = some s'

end Ctx

end Hvm.Collapse
