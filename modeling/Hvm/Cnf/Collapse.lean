import Hvm.Cnf.Run

/-! `eval_collapse` (`eval/collapse.c`) on one thread: the key queue of locations
(`data/wspq.c`), and what gets printed. -/

namespace Hvm

open LinearHeap

/-- The key queue, with the bucket of each location, in the order of the pushes. -/
abbrev Wspq := List (Nat × Nat)

def wspqKeyBucket (key : Nat) : Nat := if key ≥ 64 then 63 else key

/-- No queue is left when the bucket is full: the push spins, and then exits. -/
def wspqPush (ws : Wspq) (key task : Nat) : Option Wspq :=
  if task = 0 then some ws
  else
    let bucket := wspqKeyBucket key
    if (ws.filter (·.1 == bucket)).length < 2 ^ 22 then some (ws ++ [(bucket, task)]) else none

/-- The oldest location of the lowest bucket. -/
def wspqPop : Wspq → Option ((Nat × Nat) × Wspq)
  | [] => none
  | e :: ws =>
    match wspqPop ws with
    | none => some (e, [])
    | some (f, rest) => if e.1 ≤ f.1 then some (e, ws) else some (f, e :: rest)

inductive CollapseMode where
  | pop
  /-- `cnf` runs in `eval_collapse_process_loc`. -/
  | run (key : Nat) (calls : List CnfCall) (md : CnfMode)
  | stop

/-- The worker, with the terms printed so far, each with its heap. -/
structure Collapse where
  rt : Rt
  ws : Wspq
  out : List (Rt × Term)
  mode : CollapseMode

inductive CollapseOutcome where
  | next (s : Collapse)
  | done (out : List (Rt × Term))
  | exit (f : Fault)
  | full

namespace Collapse

/-- `cnf` has returned `t`: the switch of `eval_collapse_process_loc`. -/
def process (limit : Nat) (s : Collapse) (rt : Rt) (key : Nat) (t : Term) : CollapseOutcome :=
  match t.tag with
  | .inc => .next { s with rt := rt, mode := .run (key - 1) [] (.call (heapRead rt t.val) 0) }
  | .sup =>
    let nkey := (key + 1) % 256
    match (wspqPush s.ws nkey t.val).bind (wspqPush · nkey (t.val + 1)) with
    | some ws => .next { s with rt := rt, ws := ws, mode := .pop }
    | none => .full
  | .era => .next { s with rt := rt, mode := .pop }
  | _ =>
    let printed := s.out.length + 1
    let out := if printed ≤ limit then s.out ++ [(rt, t)] else s.out
    .next { s with rt := rt, out := out, mode := if printed ≥ limit then .stop else .pop }

def step (book : BookTable) (limit : Nat) (s : Collapse) : CollapseOutcome :=
  match s.mode with
  | .pop =>
    match wspqPop s.ws with
    | none => .next { s with mode := .stop }
    | some ((key, loc), ws) =>
      .next { s with ws := ws, mode := .run key [] (.call (heapRead s.rt loc) 0) }
  | .run key calls md =>
    match Cnf.step book ⟨s.rt, calls, md⟩ with
    | .next c => .next { s with rt := c.rt, mode := .run key c.calls c.mode }
    | .done rt t => process limit s rt key t
    | .exit f => .exit f
  | .stop => .done s.out

/-- `eval_collapse` called on `term` with a limit other than 0. -/
def start (rt : Rt) (term : Term) : Collapse :=
  let (rootLoc, rt) := heapAlloc rt 1
  ⟨heapSet rt rootLoc term, [(0, rootLoc)], [], .pop⟩

def startAt (rt : Rt) (loc : Nat) : Collapse := start rt (termNew false .alo 0 loc)

/-- A step that stays clear of the defects. -/
def Undisturbed (s : Collapse) : Prop :=
  match s.mode with
  | .run _ calls md => Cnf.Undisturbed ⟨s.rt, calls, md⟩
  | .pop | .stop => True

instance : DecidablePred Undisturbed
  | ⟨rt, _, _, .run _ calls md⟩ => inferInstanceAs (Decidable (Cnf.Undisturbed ⟨rt, calls, md⟩))
  | ⟨_, _, _, .pop⟩ | ⟨_, _, _, .stop⟩ => .isTrue trivial

def Step (book : BookTable) (limit : Nat) (s s' : Collapse) : Prop := step book limit s = .next s'

def Turn (book : BookTable) (limit : Nat) (s s' : Collapse) : Prop :=
  s.Undisturbed ∧ Step book limit s s'

/-- One step from a state that satisfies `Q`, computed. -/
def step? (Q : Collapse → Prop) [DecidablePred Q] (book : BookTable) (limit : Nat) (s : Collapse) :
    Option Collapse :=
  if Q s then
    match step book limit s with
    | .next s => some s
    | _ => none
  else none

theorem step?_step {Q : Collapse → Prop} [DecidablePred Q] {book : BookTable} {limit : Nat}
    {s s' : Collapse} (h : step? Q book limit s = some s') : Q s ∧ Step book limit s s' := by
  unfold step? at h
  split_ifs at h with hQ
  refine ⟨hQ, ?_⟩
  split at h
  next s'' hs => rw [Step, hs, Option.some.inj h]
  next => cases h

theorem trace_steps {Q : Collapse → Prop} [DecidablePred Q] {book : BookTable} {limit n : Nat}
    {s s' : Collapse} (h : trace (step? Q book limit) n s = some s') :
    Relation.ReflTransGen (fun s s' => Q s ∧ Step book limit s s') s s' :=
  Relation.ReflTransGen.mono (fun _ _ => step?_step) _ _ (trace_reaches h)

end Collapse

/-! Its runs -/

/-- The cells of the locations in the queue. -/
def queueToks (ws : Wspq) : Toks := (ws.map fun e => {.own e.2 .term}).sum

/-- The state is linear, and nothing that lifts has been printed. -/
structure Collapse.Linear (K : Statics) (s : Collapse) : Prop where
  heap : match s.mode with
    | .run _ calls md => Cnf.Linear (fun _ => True) K (queueToks s.ws) ⟨s.rt, calls, md⟩
    | .pop | .stop => Hvm.Linear K s.rt (queueToks s.ws)
  printed : ∀ e ∈ s.out, ∀ u, Below e.1 e.2 u → u.tag.lifts = false

variable {K : Statics} {σ τ : Toks} {rt rt' : Rt} {book : BookTable} {limit loc : Nat} {t : Term}
  {ws ws' : Wspq} {s s' : Collapse}

theorem queueToks_not_pins : ∀ x ∈ queueToks ws, ¬ x.Pins := by
  intro x hx
  obtain ⟨e, -, hm⟩ := mem_sum_map.mp hx
  rw [Multiset.mem_singleton.mp hm]
  exact id

theorem wspqPop_perm {e : Nat × Nat} (h : wspqPop ws = some (e, ws')) : ws.Perm (e :: ws') := by
  induction ws generalizing e ws' with
  | nil => cases h
  | cons f ws ih =>
    unfold wspqPop at h
    cases hp : wspqPop ws with
    | none =>
      rw [hp] at h
      obtain ⟨rfl, rfl⟩ := Prod.mk.inj (Option.some.inj h)
      cases ws with
      | nil => exact .refl _
      | cons g ws =>
        unfold wspqPop at hp
        split at hp
        · cases hp
        · split_ifs at hp
    | some r =>
      obtain ⟨g, rest⟩ := r
      rw [hp] at h
      dsimp only at h
      split_ifs at h with hle
      · obtain ⟨rfl, rfl⟩ := Prod.mk.inj (Option.some.inj h)
        exact .refl _
      · obtain ⟨rfl, rfl⟩ := Prod.mk.inj (Option.some.inj h)
        exact ((ih hp).cons f).trans (.swap g f rest)

theorem wspqPop_toks {e : Nat × Nat} (h : wspqPop ws = some (e, ws')) :
    queueToks ws = {.own e.2 .term} + queueToks ws' := by
  have hp := ((wspqPop_perm h).map fun e => ({.own e.2 .term} : Toks)).sum_eq
  simpa [queueToks] using hp

/-- The location is in the queue, or it is 0. -/
theorem wspqPush_toks {key task : Nat} (h : wspqPush ws key task = some ws') :
    queueToks ws' ≤ queueToks ws + {.own task .term} := by
  unfold wspqPush at h
  dsimp only at h
  split_ifs at h with h0 hcap
  · obtain rfl := Option.some.inj h
    exact Multiset.le_add_right _ _
  · obtain rfl := Option.some.inj h
    simp [queueToks]

/-- `cnf` is called on a term in hand. -/
theorem Yields.call {P : Term → Prop} {depth : Nat} (h : Yields K σ (rt, t)) :
    Cnf.Linear P K σ ⟨rt, [], .call t depth⟩ := ⟨σ, .nil, h⟩

theorem Collapse.process_linear {key : Nat} (hout : ∀ e ∈ s.out, ∀ u, Below e.1 e.2 u → u.tag.lifts = false)
    (h : Returns (fun _ => True) K (queueToks s.ws) (rt, t))
    (hs : process limit s rt key t = .next s') : s'.Linear K := by
  obtain ⟨ρ, hr, hl⟩ := h
  have hcontract := hr.contract hl
  obtain ⟨hok, hrel⟩ := hr.release hl
  have hown := Own.ofWord hok hrel
  have hempty : Hvm.Linear K rt (queueToks s.ws) :=
    LinearHeap.Inv.drop hrel fun _ => wordToks_not_pins
  unfold process at hs
  split at hs
  case h_1 ht =>
    obtain rfl := CollapseOutcome.next.inj hs
    have hh := hown.open₁ 0 rfl ht rfl
    have hh := hh.load 1 rfl
    exact ⟨(hh.yield 3 rfl rfl).call, hout⟩
  case h_2 ht =>
    dsimp only at hs
    cases hpush : (wspqPush s.ws ((key + 1) % 256) t.val).bind
        (wspqPush · ((key + 1) % 256) (t.val + 1)) with
    | none =>
      rw [hpush] at hs
      cases hs
    | some ws =>
      rw [hpush] at hs
      obtain rfl := CollapseOutcome.next.inj hs
      obtain ⟨ws₁, h₁, h₂⟩ := Option.bind_eq_some_iff.mp hpush
      have hle : queueToks ws ≤ queueToks s.ws + resToks [.cell t.val, .cell (t.val + 1)] := by
        refine (wspqPush_toks h₂).trans ?_
        rw [resToks_cons, resToks_cons, resToks_nil, add_zero, ← add_assoc]
        exact add_le_add_left (wspqPush_toks h₁) _
      have hl' : Hvm.Linear K rt (resToks [.cell t.val, .cell (t.val + 1)] + queueToks s.ws) :=
        ((hown.open₂ 0 rfl ht rfl).keep [1, 2] (by decide) rfl).list_linear
      rw [← add_zero (resToks _ + _), add_comm (resToks _)] at hl'
      have hfin := hl'.weaken hle fun x hx => ?_
      · rw [add_zero] at hfin
        exact ⟨hfin, hout⟩
      · rcases Multiset.mem_add.mp hx with hm | hm
        · exact queueToks_not_pins x hm
        · exact @cellToks_not_pins t.val 2 x
            (by simpa [Res.toks, cellToks, List.range'_succ] using hm)
  case h_3 ht =>
    obtain rfl := CollapseOutcome.next.inj hs
    exact ⟨hempty, hout⟩
  case h_4 hinc hsup hera =>
    obtain rfl := CollapseOutcome.next.inj hs
    have hplain : t.tag.lifts = false := by
      cases htag : t.tag <;> first | rfl | (exfalso; simp_all)
    refine ⟨?_, ?_⟩
    · dsimp only
      split_ifs
      · exact hempty
      · exact hempty
    · intro e he
      dsimp only at he
      split_ifs at he
      · rcases List.mem_append.mp he with hm | hm
        · exact hout e hm
        · rw [List.mem_singleton.mp hm]
          rcases hcontract with hlift | hall
          · rw [hplain] at hlift
            cases hlift
          · exact hall
      · exact hout e he

/-- A step of the worker keeps the heap linear, and prints only what is collapsed. -/
theorem Collapse.step_linear (hb : BookOk K book) (h : s.Linear K) (hu : s.Undisturbed)
    (hs : step book limit s = .next s') : ∃ K', K.Le K' ∧ s'.Linear K' := by
  obtain ⟨rt, ws, out, md⟩ := s
  obtain ⟨hheap, hout⟩ := h
  cases md with
  | pop =>
    unfold step at hs
    dsimp only at hs
    cases hp : wspqPop ws with
    | none =>
      rw [hp] at hs
      obtain rfl := CollapseOutcome.next.inj hs
      exact ⟨K, Frozen.Le.refl K, hheap, hout⟩
    | some r =>
      obtain ⟨⟨key, loc⟩, ws'⟩ := r
      rw [hp] at hs
      obtain rfl := CollapseOutcome.next.inj hs
      have hl : Hvm.Linear K rt (queueToks ws) := hheap
      rw [wspqPop_toks hp] at hl
      obtain ⟨hok, -, hl⟩ := hl.loadFilled
      have hword : Hvm.Linear K rt (wordToks (heapRead rt loc) + queueToks ws') := by
        refine LinearHeap.Inv.drop hl fun x hx => ?_
        rw [Multiset.mem_singleton.mp hx]
        exact id
      exact ⟨K, Frozen.Le.refl K, Yields.call (Own.ofWord hok hword), hout⟩
  | run key calls md =>
    unfold step at hs
    dsimp only at hs
    cases hstep : Cnf.step book ⟨rt, calls, md⟩ with
    | next c =>
      rw [hstep] at hs
      obtain rfl := CollapseOutcome.next.inj hs
      obtain ⟨K', hK, hc⟩ := Cnf.step_linear hb queueToks_not_pins hheap hu
        (fun _ _ _ _ _ => trivial) hstep
      exact ⟨K', hK, hc, hout⟩
    | done rt' t =>
      rw [hstep] at hs
      obtain ⟨rfl, rfl, rfl⟩ := Cnf.mk.inj (Cnf.step_done hstep)
      obtain ⟨τ, hc, hret⟩ := hheap
      cases hc
      exact ⟨K, Frozen.Le.refl K, process_linear hout hret hs⟩
    | exit f =>
      rw [hstep] at hs
      cases hs
  | stop => cases hs

theorem Collapse.startAt_linear (hl : Loaded rt book loc) :
    (Collapse.startAt rt loc).Linear (statics rt) := by
  obtain ⟨b, hb, hbook⟩ := hl.main
  have hok : WordOk (statics rt) (termNew false .alo 0 loc) :=
    ⟨termNew_plain _ _ _, rfl, fun _ _ => ⟨b, hb, hbook⟩⟩
  have h0 : wordToks (termNew false .alo 0 loc) = 0 := by simp [wordToks, termNew]
  have halloc : Hvm.Linear (statics rt) { rt with next := rt.next + 1 }
      ({.held rt.next none} + 0) := LinearHeap.Inv.alloc (statics_linear rt)
  have hstore := Linear.store (t := termNew false .alo 0 loc)
    (by rw [h0, zero_add]; exact halloc) hok
  refine ⟨?_, by simp [startAt, start]⟩
  simpa [startAt, start, heapAlloc, queueToks] using hstore

/-- `#P{&A{1,2}, 3}` -/
def supField : Rt where
  heap l := match l with
    | 1 => .tm (termNew false (.ctr 2) 1 2)
    | 2 => .tm (termNew false .sup 1 4)
    | 3 => .tm (termNewNum 3)
    | 4 => .tm (termNewNum 1)
    | 5 => .tm (termNewNum 2)
    | _ => .tm Term.zero
  next := 6
  itrs := 0
  fresh := 0
  log := []

theorem supField_loaded : Loaded supField (fun _ => 0) 1 := by
  have hK : ∀ l, l < 6 → statics supField l = some (supField.heap l) := fun l hl => if_pos hl
  have hnum : ∀ v, v ≤ 3 → BookTm (statics supField) 0 (termNewNum v) 0 := fun v _ =>
    .leaf ⟨rfl, Nat.zero_le _⟩ rfl
  have hsup := BookTm.pair (w := termNew false .sup 1 4) (by decide) rfl rfl (hK 4 (by decide))
    (hK 5 (by decide)) (hnum 1 (by decide)) (hnum 2 (by decide))
  have hpair := BookTm.pair (w := termNew false (.ctr 2) 1 2) (by decide) rfl rfl
    (hK 2 (by decide)) (hK 3 (by decide)) hsup (hnum 3 (by decide))
  refine ⟨nofun, _, hK 1 (by decide), ?_⟩
  simpa using hpair

end Hvm
