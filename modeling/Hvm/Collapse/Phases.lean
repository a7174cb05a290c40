import Hvm.Collapse.Moves

/-! What a worker holds at each of its points, whatever the others do: its location, the stack
of its pending calls, its bank and the mask of the bank. -/

namespace Hvm.Collapse

/-- The group of the task that runs `cnf` below these calls. -/
def owner : List Call → Option Nat
  | .task g :: _ => some g
  | _ => none

/-- The calls above a running `cnf`. A group is made after the group of the task that makes it. -/
inductive Nested (job : Option Job) : List Call → Prop
  | base (h : job ≠ none) : Nested job []
  | run {g : Nat} (h : job = none) : Nested job [.task g]
  | spawning {g k : Nat} {calls : List Call} (h : Nested job calls)
      (ho : ∀ g', owner calls = some g' → g' < g) : Nested job (.task g :: .spawning g k :: calls)
  | joining {g g' : Nat} {calls : List Call} (h : Nested job calls)
      (ho : ∀ g'', owner calls = some g'' → g'' < g') :
      Nested job (.task g :: .joining g' :: calls)

/-- The calls above `cnf_pool_try_pop`. -/
inductive Popping (job : Option Job) : List Call → Prop
  | run (h : job = none) : Popping job []
  | joining {g : Nat} {calls : List Call} (h : Nested job calls)
      (ho : ∀ g', owner calls = some g' → g' < g) : Popping job (.joining g :: calls)

theorem Popping.task {job : Option Job} {calls : List Call} (h : Popping job calls) (g : Nat) :
    Nested job (.task g :: calls) := by
  cases h with
  | run h => exact .run h
  | joining h ho => exact .joining h ho

namespace Worker

/-- All buckets are empty. -/
def Drained (w : Worker) : Prop := ∀ b, w.q b = []

/-- A worker without a location has tried its own bank. -/
structure Base (w : Worker) : Prop where
  held : w.job ≠ none → w.active = true
  asleep : w.active = false → w.Drained
  tried : w.job = none → w.popped = false → w.Drained

end Worker

inductive Phase where
  | rest
  | idle
  | hunt
  | loot
  | work
  | run
  | hold (g : Nat)
  | pool
  deriving DecidableEq

def After.phase : After → Phase
  | .steal .. => .loot
  | _ => .work

def Point.phase : Point → Phase
  | .check | .pop | .scan _ | .clear _ _ | .readPending | .readCnf | .quit | .exit | .left => .rest
  | .canSteal _ | .rouse | .tryRun | .leave => .idle
  | .ownMask | .victim _ _ => .hunt
  | .steal _ _ _ got _ => if got = 0 then .hunt else .loot
  | .push _ _ k | .mark _ k => k.phase
  | .enter | .tally | .announce | .flush | .recheck => .work
  | .cnf => .run
  | .spawn g _ | .join g => .hold g
  | .poolPop | .poolIdle | .poolOff | .poolScan _ | .poolTook _ | .poolOn _ => .pool

/-- What worker `w` holds in a phase. -/
def Phase.Holds (w : Worker) : Phase → Prop
  | .rest => w.job = none ∧ w.calls = [] ∧ (w.active = false → w.Drained)
  | .idle => w.job = none ∧ w.calls = [] ∧ w.Base
  | .hunt => w.job = none ∧ w.calls = [] ∧ w.active = true ∧ (w.popped = false → w.Drained)
  | .loot => w.job = none ∧ w.calls = [] ∧ w.active = true
  | .work => w.job ≠ none ∧ w.calls = [] ∧ w.active = true
  | .run => Nested w.job w.calls ∧ w.Base
  | .hold g => Nested w.job w.calls ∧ (∀ g', owner w.calls = some g' → g' < g) ∧ w.Base
  | .pool => Popping w.job w.calls ∧ w.Base

namespace Worker

/-- A bucket with a location has its bit, except inside the owner's push. -/
def Masked (w : Worker) : Prop :=
  ∀ b, w.q b ≠ [] → b ∈ w.nonempty ∨ ∃ k, w.point = .mark b k

/-- `wspq_pop` has found the buckets that are no longer to be tried empty. -/
def Scanned (w : Worker) : Prop :=
  match w.point with
  | .scan m => ∀ b, w.q b ≠ [] → b ∈ m
  | .clear m b => w.q b = [] ∧ ∀ b', w.q b' ≠ [] → b' ∈ m
  | _ => True

structure Ok (w : Worker) : Prop where
  phase : w.point.phase.Holds w
  masked : w.Masked
  scanned : w.Scanned
  low : ∀ b, wspqBrackets ≤ b → w.q b = []

variable {w : Worker}

theorem Ok.active (h : w.Ok) (ha : w.active = false) :
    w.job = none ∧ w.Drained ∧ w.point.phase ≠ .work ∧ w.point.phase ≠ .loot := by
  have hph := h.phase
  cases hp : w.point.phase <;> rw [hp] at hph
  case rest => exact ⟨hph.1, hph.2.2 ha, by simp, by simp⟩
  case idle => exact ⟨hph.1, hph.2.2.asleep ha, by simp, by simp⟩
  case hunt => simp [hph.2.2.1] at ha
  case loot => simp [hph.2.2] at ha
  case work => simp [hph.2.2] at ha
  case run | hold | pool =>
    have hb : w.Base := by first | exact hph.2.2 | exact hph.2
    refine ⟨?_, hb.asleep ha, by simp, by simp⟩
    by_contra hj
    rw [hb.held hj] at ha
    cases ha

/-- Every bucket with a location has its bit. -/
def Marked (w : Worker) : Prop := ∀ b, w.q b ≠ [] → b ∈ w.nonempty

theorem Ok.marked (h : w.Ok) (hp : ∀ b k, w.point ≠ .mark b k) : w.Marked := by
  intro b hb
  rcases h.masked b hb with hm | ⟨k, hk⟩
  · exact hm
  · exact absurd hk (hp b k)

/-- Nothing comes into the bank. -/
theorem Ok.same {w' : Worker} (h : w.Ok) (hp : ∀ b k, w.point ≠ .mark b k)
    (hq : ∀ b, w.q b = [] → w'.q b = []) (hm : w'.nonempty = w.nonempty)
    (hph : w'.point.phase.Holds w') (hs : w'.Scanned) : w'.Ok := by
  refine ⟨hph, fun b hb => ?_, hs, fun b hb => hq b (h.low b hb)⟩
  rw [hm]
  exact .inl (h.marked hp b fun he => hb (hq b he))

theorem scanned_of_point (hs : ∀ m, w.point ≠ .scan m) (hc : ∀ m b, w.point ≠ .clear m b) :
    w.Scanned := by
  unfold Scanned
  split
  case h_1 m hp => exact absurd hp (hs m)
  case h_2 m b hp => exact absurd hp (hc m b)
  case h_3 => trivial

theorem Base.mono {w' : Worker} (h : w.Base) (hq : ∀ b, w.q b = [] → w'.q b = [])
    (ha : w'.active = w.active) (hpop : w'.popped = w.popped) (hj : w'.job = w.job) : w'.Base := by
  have hd : w.Drained → w'.Drained := fun hd b => hq b (hd b)
  refine ⟨?_, ?_, ?_⟩
  · rw [hj, ha]
    exact h.held
  · rw [ha]
    exact fun hf => hd (h.asleep hf)
  · rw [hj, hpop]
    exact fun hn hf => hd (h.tried hn hf)

/-- What a phase asks for, of a worker with the same locals and at most the same bank. -/
theorem holds_mono {w' : Worker} {φ : Phase} (h : φ.Holds w) (hq : ∀ b, w.q b = [] → w'.q b = [])
    (ha : w'.active = w.active) (hpop : w'.popped = w.popped) (hj : w'.job = w.job)
    (hc : w'.calls = w.calls) : φ.Holds w' := by
  have hd : w.Drained → w'.Drained := fun hd b => hq b (hd b)
  have hb : w.Base → w'.Base := fun hb => hb.mono hq ha hpop hj
  cases φ <;> simp only [Phase.Holds] at h ⊢ <;> rw [hj, hc]
  case rest => exact ⟨h.1, h.2.1, fun hf => hd (h.2.2 (ha ▸ hf))⟩
  case idle => exact ⟨h.1, h.2.1, hb h.2.2⟩
  case hunt => exact ⟨h.1, h.2.1, ha ▸ h.2.2.1, fun hf => hd (h.2.2.2 (hpop ▸ hf))⟩
  case loot => exact ⟨h.1, h.2.1, ha ▸ h.2.2⟩
  case work => exact ⟨h.1, h.2.1, ha ▸ h.2.2⟩
  case run => exact ⟨h.1, hb h.2⟩
  case hold => exact ⟨h.1, h.2.1, hb h.2.2⟩
  case pool => exact ⟨h.1, hb h.2⟩

/-- A location or a task is stolen. -/
theorem Ok.robbed {w' : Worker} (h : w.Ok) (hq : ∀ b, w.q b = [] → w'.q b = [])
    (hs : w'.nonempty = w.nonempty ∧ w'.active = w.active ∧ w'.popped = w.popped ∧
      w'.job = w.job ∧ w'.calls = w.calls ∧ w'.point = w.point) : w'.Ok := by
  obtain ⟨hm, ha, hpop, hj, hc, hp⟩ := hs
  have hne : ∀ b, w'.q b ≠ [] → w.q b ≠ [] := fun b hb he => hb (hq b he)
  refine ⟨?_, fun b hb => ?_, ?_, fun b hb => hq b (h.low b hb)⟩
  · rw [hp]
    exact holds_mono h.phase hq ha hpop hj hc
  · rw [hm, hp]
    exact h.masked b (hne b hb)
  · have hsc := h.scanned
    unfold Scanned at hsc ⊢
    rw [hp]
    split at hsc
    case h_1 m _ => exact fun b hb => hsc b (hne b hb)
    case h_2 m b _ => exact ⟨hq b hsc.1, fun b hb => hsc.2 b (hne b hb)⟩
    case h_3 => trivial

/-- A worker that is done with its location. -/
theorem Ok.ret (h : w.Ok) (hp : ∀ b k, w.point ≠ .mark b k) (hc : w.calls = [])
    (ha : w.active = true) : w.ret.Ok := by
  unfold Worker.ret
  refine h.same hp (fun _ hb => hb) rfl ?_ ?_
  · by_cases hi : w.iter + 1 < stealPeriod
    · simp only [if_pos hi]
      exact ⟨rfl, hc, fun hf => by simp [ha] at hf⟩
    · simp only [if_neg hi]
      exact ⟨rfl, hc, fun _ => ha, fun hf => by simp [ha] at hf, fun _ hf => by simp at hf⟩
  · by_cases hi : w.iter + 1 < stealPeriod
    · simp only [if_pos hi]
      trivial
    · simp only [if_neg hi]
      trivial

end Worker

namespace Ctx

variable {n : Nat} {u : Setup} {s s' : Ctx n} {me : Fin n} {p : Point}

/-- The phase a worker goes to without doing anything. -/
theorem Go.holds (h : Go s me (s.W me).point p) (hph : (s.W me).point.phase.Holds (s.W me)) :
    p.phase.Holds (s.W me) := by
  generalize hp : (s.W me).point = q at h
  rw [hp] at hph
  cases h with
  | stopped | running | load | missed | none_pending | some_pending | none_cnf | some_cnf =>
    exact hph
  | poolEmpty | poolQuiet | poolNext | seen | unseen | none | noPool | ownMask | nextVictim => exact hph
  | aim | lost | spawned => exact hph
  | enter =>
    have ha : (s.W me).active = true := hph.2.2
    refine ⟨?_, ⟨fun _ => ha, fun hf => ?_, fun hj => absurd hj hph.1⟩⟩
    · rw [hph.2.1]
      exact .base hph.1
    · rw [ha] at hf
      cases hf
  | joined => exact ⟨hph.1, hph.2.2⟩
  | poolGiveUp hno =>
    obtain ⟨hpop, hb⟩ := hph
    generalize hc : (s.W me).calls = calls at hpop
    cases hpop with
    | run hj => exact ⟨hj, hc, hb⟩
    | joining => exact absurd hc (hno _ _)
  | pool =>
    refine ⟨?_, hph.2.2⟩
    rw [hph.2.1]
    exact .run hph.1
  | stay => exact ⟨hph.1, hph.2.1, hph.2.2.asleep⟩

theorem Go.ok (h : Go s me (s.W me).point p) (hok : (s.W me).Ok) :
    Worker.Ok { s.W me with point := p } := by
  have hph := h.holds hok.phase
  have hmark : ∀ b k, (s.W me).point ≠ .mark b k := by
    intro b k hp
    rw [hp] at h
    cases h
  refine hok.same hmark (fun _ hb => hb) rfl ?_ ?_
  · exact Worker.holds_mono hph (fun _ hb => hb) rfl rfl rfl rfl
  · have hmarked := hok.marked hmark
    have hsc := hok.scanned
    unfold Worker.Scanned at hsc ⊢
    generalize hp : (s.W me).point = q at h hsc
    cases h with
    | load => exact hmarked
    | missed _ hq => exact ⟨hq, hsc⟩
    | _ => trivial

theorem set_self {w : Worker} : (s.set me w).W me = w := Function.update_self ..

theorem set_of_ne {w : Worker} {i : Fin n} (h : i ≠ me) : (s.set me w).W i = s.W i :=
  Function.update_of_ne h ..

/-- The workers that do not move keep what they have, up to a theft. -/
theorem Move.others (h : Move u s me s') {i : Fin n} (hi : i ≠ me) :
    s'.W i = s.W i ∨
      (∃ b t ts, (s.W i).q b = t :: ts ∧ s'.W i = (s.W i).setQ b ts) ∨
      ∃ g dq, (s.W i).dq = g :: dq ∧ s'.W i = { s.W i with dq := dq } := by
  cases h with
  | @poolSteal k g dq vic hp hv hd =>
    rw [set_of_ne hi]
    by_cases hvi : i = vic
    · rw [hvi, set_self]
      exact .inr (.inr ⟨g, dq, hd, rfl⟩)
    · rw [set_of_ne hvi]
      exact .inl rfl
  | @steal k vic b got lim v t ts hp hv hq =>
    rw [set_of_ne hi]
    by_cases hvi : i = v
    · rw [hvi, set_self]
      exact .inr (.inl ⟨b, t, ts, hq, rfl⟩)
    · rw [set_of_ne hvi]
      exact .inl rfl
  | _ => exact .inl (set_of_ne hi)

theorem Move.others_ok (h : Move u s me s') {i : Fin n} (hi : i ≠ me) (hok : (s.W i).Ok) :
    (s'.W i).Ok := by
  rcases h.others hi with he | ⟨b, t, ts, hq, he⟩ | ⟨g, dq, hd, he⟩
  · rwa [he]
  · rw [he]
    refine hok.robbed (fun b' hb' => ?_) ⟨rfl, rfl, rfl, rfl, rfl, rfl⟩
    by_cases hbb : b' = b
    · rw [hbb, hq] at hb'
      cases hb'
    · exact (Function.update_of_ne hbb ..).trans hb'
  · rw [he]
    exact hok.robbed (fun _ hb => hb) ⟨rfl, rfl, rfl, rfl, rfl, rfl⟩

end Ctx

namespace Worker

variable {w : Worker}

theorem Base.ofActive (ha : w.active = true) (hj : w.job ≠ none) : w.Base :=
  ⟨fun _ => ha, fun hf => by simp [ha] at hf, fun hn => absurd hn hj⟩

/-- A bucket gets a location and waits for its bit. -/
theorem Ok.fill (h : w.Ok) (hp : ∀ b k, w.point ≠ .mark b k) (key : Nat) (t : Task) (k : After)
    (hph : k.phase.Holds { w.setQ (wspqKeyBucket key) (w.q (wspqKeyBucket key) ++ [t]) with
      point := .mark (wspqKeyBucket key) k }) :
    Ok { w.setQ (wspqKeyBucket key) (w.q (wspqKeyBucket key) ++ [t]) with
      point := .mark (wspqKeyBucket key) k } := by
  refine ⟨hph, fun b hb => ?_, trivial, fun b hb => ?_⟩
  · by_cases hbk : b = wspqKeyBucket key
    · exact .inr ⟨k, by rw [hbk]⟩
    · exact .inl (h.marked hp b (by simpa [setQ, Function.update_of_ne hbk] using hb))
  · have hne : b ≠ wspqKeyBucket key := by
      unfold wspqKeyBucket wspqBrackets at *
      split_ifs <;> omega
    exact (Function.update_of_ne hne ..).trans (h.low b hb)

theorem Ok.setBit (h : w.Ok) {b : Nat} {k : After} (hp : w.point = .mark b k) :
    Ok (pushed { w with nonempty := insert b w.nonempty } k) := by
  have hph := h.phase
  rw [hp] at hph
  have hm : Marked { w with nonempty := insert b w.nonempty } := by
    intro b' hb'
    rcases h.masked b' hb' with hm | ⟨k', hk'⟩
    · exact Finset.mem_insert_of_mem hm
    · rw [hp] at hk'
      cases hk'
      exact Finset.mem_insert_self ..
  cases k with
  | second key t => exact ⟨hph, fun b' hb' => .inl (hm b' hb'), trivial, h.low⟩
  | done =>
    have hcheck : Ok { w with nonempty := insert b w.nonempty, job := none, point := .check } :=
      ⟨⟨rfl, hph.2.1, fun hf => by simp [hph.2.2] at hf⟩, fun b' hb' => .inl (hm b' hb'), trivial,
        h.low⟩
    exact hcheck.ret (by simp) hph.2.1 hph.2.2
  | steal k vic b' got lim =>
    exact ⟨hph, fun b' hb' => .inl (hm b' hb'), trivial, h.low⟩

theorem Ok.resume (h : w.Ok) {g : Nat} {calls : List Call} (hp : w.point = .cnf)
    (hc : w.calls = .task g :: calls) : (w.resume calls).Ok := by
  have hph := h.phase
  rw [hp] at hph
  obtain ⟨hn, hb⟩ := hph
  rw [hc] at hn
  have hmark : ∀ b k, w.point ≠ .mark b k := by simp [hp]
  cases hn with
  | run hj => exact h.same hmark (fun _ hb => hb) rfl ⟨hj, rfl, hb.asleep⟩ trivial
  | spawning hn ho =>
    exact h.same hmark (fun _ hb => hb) rfl ⟨hn, ho, hb.held, hb.asleep, hb.tried⟩ trivial
  | joining hn ho =>
    exact h.same hmark (fun _ hb => hb) rfl ⟨hn, ho, hb.held, hb.asleep, hb.tried⟩ trivial

end Worker

namespace Ctx

variable {n : Nat} {u : Setup} {s s' : Ctx n} {me : Fin n} {p : Point}

theorem Move.self_ok (h : Move u s me s') (hok : (s.W me).Ok)
    (hg : ∀ g, owner (s.W me).calls = some g → g < s.groups) : (s'.W me).Ok := by
  have hph := hok.phase
  have hsc := hok.scanned
  unfold Worker.Scanned at hsc
  have hq : ∀ b, (s.W me).q b = [] → (s.W me).q b = [] := fun _ hb => hb
  cases h <;> simp only [set_self]
  case go h => exact h.ok hok
  case empty m hp hm =>
    rw [hp] at hph hsc
    have hd : (s.W me).Drained := by
      intro b
      by_contra hb
      have hmem := hsc b hb
      have hem : ¬ m.Nonempty := by
        intro hne
        simp [wspqLsb, hne] at hm
      exact hem ⟨b, hmem⟩
    exact hok.same (by simp [hp]) hq rfl
      ⟨hph.1, hph.2.1, fun hj => absurd hph.1 hj, fun _ => hd, fun _ _ => hd⟩ trivial
  case take m b t ts hp hb hqb =>
    rw [hp] at hph
    have hne : (s.W me).q b ≠ [] := by rcases hqb with ⟨-, hqb⟩ | ⟨-, hqb⟩ <;> simp [hqb]
    have ha : (s.W me).active = true := by
      by_contra ha
      exact hne (hph.2.2 (by simpa using ha) b)
    refine hok.same (by simp [hp]) (fun b' hb' => ?_) rfl ⟨by simp, hph.2.1, ha⟩ trivial
    by_cases hbb : b' = b
    · exact absurd (hbb ▸ hb') hne
    · exact (Function.update_of_ne hbb ..).trans hb'
  case clear m b hp =>
    rw [hp] at hph hsc
    have hne : ∀ b', (s.W me).q b' ≠ [] → b' ≠ b := fun b' hb' he => hb' (he ▸ hsc.1)
    exact ⟨⟨hph.1, hph.2.1, hph.2.2⟩,
      fun b' hb' => .inl (Finset.mem_erase.mpr ⟨hne b' hb', hok.marked (by simp [hp]) b' hb'⟩),
      fun b' hb' => Finset.mem_erase.mpr ⟨hne b' hb', hsc.2 b' hb'⟩, hok.low⟩
  case drop j hp hj hs =>
    rw [hp] at hph
    exact hok.ret (by simp [hp]) hph.2.1 hph.2.2
  case inc j hp hc hj hi =>
    rw [hp] at hph
    exact hok.same (by simp [hp]) hq rfl ⟨by simp, hc, hph.2.held (by simp [hj])⟩ trivial
  case era j hp hc hj hi ho =>
    rw [hp] at hph
    exact hok.ret (by simp [hp]) hc (hph.2.held (by simp [hj]))
  case leaf j hp hc hj hi ho =>
    rw [hp] at hph
    exact hok.same (by simp [hp]) hq rfl ⟨by simp [hj], hc, hph.2.held (by simp [hj])⟩ trivial
  case sup j loc hp hc hj hi ho =>
    rw [hp] at hph
    exact hok.same (by simp [hp]) hq rfl ⟨by simp [hj], hc, hph.2.held (by simp [hj])⟩ trivial
  case reach j hp hj hl =>
    rw [hp] at hph
    exact hok.same (by simp [hp]) hq rfl hph trivial
  case count j p hp hj hl hp' =>
    rw [hp] at hph
    rcases hp' with rfl | rfl <;> exact hok.same (by simp [hp]) hq rfl hph trivial
  case announce hp =>
    rw [hp] at hph
    exact hok.same (by simp [hp]) hq rfl hph trivial
  case flush hp =>
    rw [hp] at hph
    exact hok.same (by simp [hp]) hq rfl hph trivial
  case print j hp hj hl =>
    rw [hp] at hph
    exact hok.ret (by simp [hp]) hph.2.1 hph.2.2
  case skip j hp hj hl =>
    rw [hp] at hph
    exact hok.ret (by simp [hp]) hph.2.1 hph.2.2
  case put key t k hp hk =>
    rw [hp] at hph
    refine hok.fill (by simp [hp]) key t k ?_
    rcases hk with rfl | ⟨key', t', rfl⟩ <;> exact hph
  case keep key k vic b got lim t hp =>
    rw [hp] at hph
    exact hok.fill (by simp [hp]) key t _ hph
  case mark b k hp => exact hok.setBit hp
  case fork k hp hk =>
    rw [hp] at hph
    exact hok.same (by simp [hp]) hq rfl ⟨hph.1, hg, hph.2.held, hph.2.asleep, hph.2.tried⟩ trivial
  case spawn g k hp =>
    rw [hp] at hph
    obtain ⟨h1, h2, hb⟩ := hph
    exact hok.same (by simp [hp]) hq rfl ⟨h1, h2, hb.held, hb.asleep, hb.tried⟩ trivial
  case full g k hp =>
    rw [hp] at hph
    obtain ⟨h1, h2, hb⟩ := hph
    exact hok.same (by simp [hp]) hq rfl ⟨.spawning h1 h2, hb.held, hb.asleep, hb.tried⟩ trivial
  case finish g calls hp hc => exact hok.resume hp hc
  case wait g hp =>
    rw [hp] at hph
    obtain ⟨h1, h2, hb⟩ := hph
    exact hok.same (by simp [hp]) hq rfl ⟨.joining h1 h2, hb.held, hb.asleep, hb.tried⟩ trivial
  case poolPop g dq hp hd =>
    rw [hp] at hph
    obtain ⟨h1, hb⟩ := hph
    exact hok.same (by simp [hp]) hq rfl ⟨h1.task g, hb.held, hb.asleep, hb.tried⟩ trivial
  case poolIdle hp =>
    rw [hp] at hph
    obtain ⟨h1, hb⟩ := hph
    exact hok.same (by simp [hp]) hq rfl ⟨h1, hb.held, hb.asleep, hb.tried⟩ trivial
  case poolOff hp =>
    rw [hp] at hph
    obtain ⟨h1, hb⟩ := hph
    exact hok.same (by simp [hp]) hq rfl ⟨h1, hb.held, hb.asleep, hb.tried⟩ trivial
  case poolSteal k g dq vic hp hv hd =>
    rw [hp] at hph
    obtain ⟨h1, hb⟩ := hph
    exact hok.same (by simp [hp]) hq rfl ⟨h1, hb.held, hb.asleep, hb.tried⟩ trivial
  case poolTook g hp =>
    rw [hp] at hph
    obtain ⟨h1, hb⟩ := hph
    exact hok.same (by simp [hp]) hq rfl ⟨h1.task g, hb.held, hb.asleep, hb.tried⟩ trivial
  case poolWake g hp =>
    rw [hp] at hph
    obtain ⟨h1, hb⟩ := hph
    exact hok.same (by simp [hp]) hq rfl ⟨h1, hb.held, hb.asleep, hb.tried⟩ trivial
  case poolOn g hp =>
    rw [hp] at hph
    obtain ⟨h1, hb⟩ := hph
    exact hok.same (by simp [hp]) hq rfl ⟨h1.task g, hb.held, hb.asleep, hb.tried⟩ trivial
  case poolBack k g calls hp hc =>
    rw [hp] at hph
    obtain ⟨h1, hb⟩ := hph
    rw [hc] at h1
    cases h1 with
    | joining h1 h2 =>
      exact hok.same (by simp [hp]) hq rfl ⟨h1, h2, hb.held, hb.asleep, hb.tried⟩ trivial
  case rouse p hp hp' =>
    rw [hp] at hph
    obtain ⟨hj, hc, hb⟩ := hph
    rcases hp' with rfl | rfl <;>
      exact hok.same (by simp [hp]) hq rfl ⟨hj, hc, rfl, hb.tried hj⟩ trivial
  case noVictim k lim hp =>
    rw [hp] at hph
    obtain ⟨hj, hc, ha, hd⟩ := hph
    exact hok.same (by simp [hp]) hq rfl
      ⟨hj, hc, fun _ => ha, fun hf => by simp [ha] at hf, fun _ => hd⟩ trivial
  case steal k vic b got lim v t ts hp hv hqv =>
    rw [hp] at hph
    refine hok.same (by simp [hp]) hq rfl ?_ trivial
    cases got with
    | zero => exact ⟨hph.1, hph.2.1, hph.2.2.1⟩
    | succ got => exact hph
  case loot k vic b got lim hp =>
    rw [hp] at hph
    exact hok.same (by simp [hp]) hq rfl ⟨hph.1, hph.2.1, fun hf => by simp [hph.2.2] at hf⟩ trivial
  case leave hp ha hpop =>
    rw [hp] at hph
    obtain ⟨hj, hc, hb⟩ := hph
    exact hok.same (by simp [hp]) hq rfl ⟨hj, hc, fun _ => hb.tried hj hpop⟩ trivial
  case quit hp =>
    rw [hp] at hph
    exact hok.same (by simp [hp]) hq rfl hph trivial
  case exit hp =>
    rw [hp] at hph
    exact hok.same (by simp [hp]) hq rfl hph trivial

end Ctx

end Hvm.Collapse
