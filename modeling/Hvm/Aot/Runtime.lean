import Hvm.Machine

/-! The runtime surface of compiled code (`aot/_.c`). A compiled function sees the
frames above its `base` only: its stack is the list of these frames, the top first, and
`*s_pos > base` is the list being nonempty. `s_pos` itself and its `UINT32_MAX` guards are
left out, as is the end of the heap bank, which is checked by the machine. -/

namespace Hvm

def aotSubCap : Nat := 16
def aotMaxDepth : Nat := 4096
def aotMaxHelperDepth : Nat := 256

/-- Ways compiled code does not return: the model ran out of fuel, the machine stopped
the process, or one of the two unwinding loops met a frame that is not APP. -/
inductive Stop where
  | fuel
  | fault (f : Fault)
  | refNonApp
  | exprNonApp
  deriving DecidableEq, Repr

def aotItrsAdd (rt : Rt) (amount : Nat) : Rt := { rt with itrs := rt.itrs + amount }

def aotItrsInc (rt : Rt) : Rt := aotItrsAdd rt 1

/-- `aot_fallback_alo_ls`. Its `len` is a `u16`. -/
def aotFallbackAloLs (rt : Rt) (tmLoc len lsLoc : Nat) : Rt × Term :=
  if len % 2 ^ 16 = 0 then (rt, termNew false .alo 0 tmLoc)
  else termNewAlo rt lsLoc (len % 2 ^ 16) tmLoc

/-- The loop shared by `aot_fallback_ref` and `aot_close_apps`. -/
def aotUnwind (stop : Stop) (rt : Rt) (out : Term) : List Term → Except Stop (Rt × Term)
  | [] => .ok (rt, out)
  | frm :: stack =>
    if frm.tag ≠ .app then .error stop
    else
      let arg := heapRead rt (frm.val + 1)
      let (rt, out) := termNewApp rt out arg
      aotUnwind stop rt out stack

def aotFallbackRef (rt : Rt) (refId : Nat) (stack : List Term) : Except Stop (Rt × Term) :=
  aotUnwind .refNonApp rt (termNewRef refId) stack

def aotCloseApps (rt : Rt) (out : Term) (stack : List Term) : Except Stop (Rt × Term) :=
  aotUnwind .exprNonApp rt out stack

def aotWrapCtr1 (rt : Rt) (ctrId reps : Nat) (bod : Term) : Rt × Term :=
  go (heapAlloc rt reps).2 rt.next bod reps
where
  go (rt : Rt) (loc : Nat) (bod : Term) : Nat → Rt × Term
    | 0 => (rt, bod)
    | n + 1 => go (heapSet rt loc bod) (loc + 1) (termNew false (.ctr 1) ctrId loc) n

def aotWrapOp2NumLhs (rt : Rt) (opr lhs : Nat) (bod : Term) : Nat → Rt × Term
  | 0 => (rt, bod)
  | n + 1 =>
    let (rt, bod) := termNewOp2 rt opr (termNewNum lhs) bod
    aotWrapOp2NumLhs rt opr lhs bod n

/-- The tags under which `aot_force` forces the shared expression itself first. -/
def Tag.isLink : Tag → Bool
  | .var | .dp0 | .dp1 => true
  | _ => false

/-- The last switch of `aot_force`: the dup interaction of `val`, or none. -/
def aotForceDup (rt : Rt) (term val : Term) : Option (Rt × Term) :=
  let side := term.tag == .dp1
  let loc := term.val
  let lab := term.ext
  match val.tag with
  | .nam | .bjv | .bj0 | .bj1 => some (wnfDupNam rt loc val)
  | .lam => some (wnfDupLam rt lab loc side val)
  | .sup => some (wnfDupSup rt lab loc side val)
  | .era | .any | .pri | .num | .dry | .mat | .swi | .use | .inc | .op2 | .dsu | .ddu
  | .ctr _ => some (wnfDupNod rt lab loc side val)
  | _ => none

def aotForce : Nat → Rt → Term → Except Stop (Rt × Term)
  | 0, _, _ => .error .fuel
  | fuel + 1, rt, term =>
    match term.tag with
    | .var =>
      let cell := heapRead rt term.val
      if cell.sub then aotForce fuel rt (termSubSet cell false) else .ok (rt, term)
    | .dp0 | .dp1 =>
      let loc := term.val
      let val := heapRead rt loc
      if val = Term.zero then .error (.fault (.takeZero loc))
      else if val.sub then aotForce fuel rt (termSubSet val false)
      else do
        let (rt, val) ← if val.tag.isLink then aotForce fuel rt val else pure (rt, val)
        match aotForceDup rt term val with
        | some (rt, term) => aotForce fuel rt term
        | none => .ok (heapSet rt loc val, term)
    | _ => .ok (rt, term)

/-- `aot_pop_app_arg`: the zero word when no APP frame is on top. -/
def aotPopAppArg (rt : Rt) : List Term → Term × List Term
  | [] => (Term.zero, [])
  | frm :: stack =>
    if frm.tag ≠ .app then (Term.zero, frm :: stack)
    else (heapRead rt (frm.val + 1), stack)

def aotPushAppArg (rt : Rt) (stack : List Term) (arg : Term) : Rt × List Term :=
  let (app, rt) := heapAlloc rt 2
  (heapSet rt (app + 1) arg, termNew false .app 0 app :: stack)

/-- The loop of `aot_push_fields`: fields `n - 1, .., 0` are pushed in this order. -/
def aotPushFieldsFrom (rt : Rt) (stack : List Term) (loc : Nat) : Nat → Rt × List Term
  | 0 => (rt, stack)
  | n + 1 =>
    let (rt, stack) := aotPushAppArg rt stack (heapRead rt (loc + n))
    aotPushFieldsFrom rt stack loc n

def aotPushFields (rt : Rt) (stack : List Term) (ctr : Term) : Rt × List Term :=
  aotPushFieldsFrom rt stack ctr.val (tagArity ctr.tag)

end Hvm
