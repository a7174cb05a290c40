import Hvm.Wsq.Ring

/-! The work-stealing deque (`data/wsq.c`): one owner pushes and pops at the bottom, thieves
steal at the top. A step is one load, store or compare-exchange of one thread. -/

namespace Hvm

/-- The program point of the owner, with the locals it still needs. -/
inductive WsqOwner (α : Type*) where
  | idle
  /-- `wsq_push`: before the load of `bot`, the load of `top`, the store to the buffer and
  the store to `bot`. -/
  | push1 (x : α)
  | push2 (x : α) (b : Nat)
  | push3 (x : α) (b : Nat)
  | push4 (x : α) (b : Nat)
  /-- `wsq_pop`: before the load of `bot`, the store to `bot`, the load of `top`, the load
  from the buffer, the compare-exchange and the last store to `bot`. -/
  | pop1
  | pop2 (b : Nat)
  | pop3 (b1 : Nat)
  | pop4 (b1 t : Nat)
  | pop5 (t : Nat) (x : α)
  | pop6 (b : Nat) (out : Option α)
  deriving DecidableEq

/-- The program point of a thief in `wsq_steal`: before the load of `top`, the load of `bot`,
the load from the buffer and the compare-exchange. -/
inductive WsqThief (α : Type*) where
  | idle
  | steal1
  | steal2 (t : Nat)
  | steal3 (t : Nat)
  | steal4 (t : Nat) (x : α)
  deriving DecidableEq

/-- A deque of capacity `2 ^ k` and its threads. `pushed` are the values whose push returned
1, `popped` and `stolen` the values returned, in order. -/
structure Wsq (ι α : Type*) where
  k : Nat
  top : Nat
  bot : Nat
  buf : Nat → α
  owner : WsqOwner α
  thief : ι → WsqThief α
  pushed : List α
  popped : List α
  stolen : List α

/-- What the owner does: one more step of its operation, or a call. -/
inductive WsqAct (α : Type*) where
  | run
  | push (x : α)
  | pop

namespace Wsq

variable {ι α : Type*}

def cap (q : Wsq ι α) : Nat := 2 ^ q.k
def mask (q : Wsq ι α) : Nat := 2 ^ q.k - 1

/-- A step of the owner. -/
def own (q : Wsq ι α) (a : WsqAct α) : Option (Wsq ι α) :=
  match q.owner, a with
  | .idle, .push x => some { q with owner := .push1 x }
  | .idle, .pop => some { q with owner := .pop1 }
  | .push1 x, .run => some { q with owner := .push2 x q.bot }
  | .push2 x b, .run =>
    -- the difference of the `u64` counters is at least `cap` when it wraps
    if q.top ≤ b ∧ b - q.top < q.cap then some { q with owner := .push3 x b }
    else some { q with owner := .idle }
  | .push3 x b, .run =>
    some { q with buf := Function.update q.buf (b &&& q.mask) x, owner := .push4 x b }
  | .push4 x b, .run => some { q with bot := b + 1, owner := .idle, pushed := q.pushed ++ [x] }
  | .pop1, .run =>
    if q.bot = 0 then some { q with owner := .idle } else some { q with owner := .pop2 q.bot }
  | .pop2 b, .run => some { q with bot := b - 1, owner := .pop3 (b - 1) }
  | .pop3 b1, .run =>
    if q.top ≤ b1 then some { q with owner := .pop4 b1 q.top }
    else some { q with owner := .pop6 q.top none }
  | .pop4 b1 t, .run =>
    let x := q.buf (b1 &&& q.mask)
    if t = b1 then some { q with owner := .pop5 t x }
    else some { q with owner := .idle, popped := q.popped ++ [x] }
  | .pop5 t x, .run =>
    if q.top = t then some { q with top := t + 1, owner := .pop6 (t + 1) (some x) }
    else some { q with owner := .pop6 (t + 1) none }
  | .pop6 b out, .run => some { q with bot := b, owner := .idle, popped := q.popped ++ out.toList }
  | _, _ => none

/-- A step of thief `i`. -/
def steal [DecidableEq ι] (q : Wsq ι α) (i : ι) : Wsq ι α :=
  let go (th : WsqThief α) : Wsq ι α := { q with thief := Function.update q.thief i th }
  match q.thief i with
  | .idle => go .steal1
  | .steal1 => go (.steal2 q.top)
  | .steal2 t => if t ≥ q.bot then go .idle else go (.steal3 t)
  | .steal3 t => go (.steal4 t (q.buf (t &&& q.mask)))
  | .steal4 t x =>
    if q.top = t then { go .idle with top := t + 1, stolen := q.stolen ++ [x] } else go .idle

/-- One step of one thread. -/
def Step [DecidableEq ι] (q q' : Wsq ι α) : Prop := (∃ a, q.own a = some q') ∨ ∃ i, q.steal i = q'

/-- `wsq_init`. The buffer is not cleared. -/
def init (k : Nat) (buf : Nat → α) : Wsq ι α := ⟨k, 0, 0, buf, .idle, fun _ => .idle, [], [], []⟩

end Wsq

end Hvm
