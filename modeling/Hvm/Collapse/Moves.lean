import Hvm.Collapse.Worker

/-! What one step of a worker does. `Go` are the steps that move the worker to another point
and change nothing else. -/

namespace Hvm.Collapse

namespace Ctx

variable {n : Nat}

/-- Worker `me` goes from one point to another. -/
inductive Go (s : Ctx n) (me : Fin n) : Point → Point → Prop
  | stopped (h : s.stop = true) : Go s me .check .exit
  | running (h : s.stop = false) : Go s me .check .pop
  | load : Go s me .pop (.scan (s.W me).nonempty)
  | missed {m : Finset Nat} {b : Nat} (hb : wspqLsb m = some b) (hq : (s.W me).q b = []) :
      Go s me (.scan m) (.clear m b)
  | enter (h : s.stop = false) : Go s me .enter .cnf
  | spawned {g : Nat} : Go s me (.spawn g 0) (.join g)
  | joined {g : Nat} (h : s.groupPending g = 0) : Go s me (.join g) .cnf
  | poolEmpty (h : (s.W me).dq = []) : Go s me .poolPop .poolIdle
  | poolQuiet (h : (s.W me).busy = false) : Go s me .poolIdle (.poolScan 1)
  | poolNext {k : Nat} : Go s me (.poolScan k) (.poolScan (k + 1))
  | poolGiveUp {k : Nat} (h : ∀ g calls, (s.W me).calls ≠ .joining g :: calls) :
      Go s me (.poolScan k) .leave
  | seen {k : Nat} (hk : k < n) : Go s me (.canSteal k) .rouse
  | unseen {k : Nat} (hk : k < n) : Go s me (.canSteal k) (.canSteal (k + 1))
  | none {k : Nat} : Go s me (.canSteal k) .tryRun
  | ownMask {lim : Nat} : Go s me .ownMask (.victim 0 lim)
  | nextVictim {k lim : Nat} : Go s me (.victim k lim) (.victim (k + 1) lim)
  | aim {k lim vic b : Nat} : Go s me (.victim k lim) (.steal k vic b 0 lim)
  | lost {k vic b lim : Nat} : Go s me (.steal k vic b 0 lim) (.victim (k + 1) lim)
  | noPool : Go s me .tryRun .leave
  | pool (hn : 1 < n) : Go s me .tryRun .poolPop
  | stay (h : (s.W me).active = false ∨ (s.W me).popped = true ∨ (s.W me).stolen ≠ 0) :
      Go s me .leave .readPending
  | none_pending (h : s.pending = 0) : Go s me .readPending .readCnf
  | some_pending (h : s.pending ≠ 0) : Go s me .readPending .check
  | none_cnf : Go s me .readCnf .quit
  | some_cnf (h : s.cnfPending ≠ 0) : Go s me .readCnf .check

/-- A step of worker `me`, by what it does to the state. -/
inductive Move (u : Setup) (s : Ctx n) (me : Fin n) : Ctx n → Prop
  | go {p : Point} (h : Go s me (s.W me).point p) : Move u s me (s.set me { s.W me with point := p })
  | empty {m : Finset Nat} (hp : (s.W me).point = .scan m) (hm : wspqLsb m = none) :
      Move u s me (s.set me { s.W me with
        iter := stealPeriod, popped := false, stolen := 0, point := .canSteal 1 })
  | take {m : Finset Nat} {b : Nat} {t : Task} {ts : List Task} (hp : (s.W me).point = .scan m)
      (hb : wspqLsb m = some b)
      (hq : n = 1 ∧ (s.W me).q b = t :: ts ∨ n ≠ 1 ∧ (s.W me).q b = ts ++ [t]) :
      Move u s me (s.set me { (s.W me).setQ b ts with
        job := some ⟨b, (u.tree t.path).incs, t⟩, point := .enter })
  | clear {m : Finset Nat} {b : Nat} (hp : (s.W me).point = .clear m b) :
      Move u s me (s.set me { s.W me with
        nonempty := (s.W me).nonempty.erase b, point := .scan (m.erase b) })
  | drop {j : Job} (hp : (s.W me).point = .enter) (hj : (s.W me).job = some j)
      (hs : s.stop = true) :
      Move u s me { s.set me (s.W me).ret with dropped := s.dropped ++ [j.task] }
  | inc {j : Job} (hp : (s.W me).point = .cnf) (hc : (s.W me).calls = [])
      (hj : (s.W me).job = some j) (hi : 0 < j.incs) :
      Move u s me (s.set me { s.W me with
        job := some { j with key := j.key - 1, incs := j.incs - 1 }, point := .enter })
  | era {j : Job} (hp : (s.W me).point = .cnf) (hc : (s.W me).calls = [])
      (hj : (s.W me).job = some j) (hi : j.incs = 0) (ho : (u.tree j.task.path).out = .era) :
      Move u s me { s.set me (s.W me).ret with processed := s.processed ++ [j.task] }
  | leaf {j : Job} (hp : (s.W me).point = .cnf) (hc : (s.W me).calls = [])
      (hj : (s.W me).job = some j) (hi : j.incs = 0) (ho : (u.tree j.task.path).out = .leaf) :
      Move u s me { s.set me { s.W me with point := .tally } with
        processed := s.processed ++ [j.task] }
  | sup {j : Job} {loc : Nat} (hp : (s.W me).point = .cnf) (hc : (s.W me).calls = [])
      (hj : (s.W me).job = some j) (hi : j.incs = 0)
      (ho : (u.tree j.task.path).out = .sup loc) :
      Move u s me { s.set me { s.W me with
          point := .push (j.key + 1) ⟨loc, j.task.path ++ [false]⟩
            (.second (j.key + 1) ⟨loc + 1, j.task.path ++ [true]⟩) } with
        processed := s.processed ++ [j.task] }
  | reach {j : Job} (hp : (s.W me).point = .tally) (hj : (s.W me).job = some j)
      (hl : u.limit ≤ s.printed + ((s.W me).localPrinted + 1)) :
      Move u s me { s.set me { s.W me with
          localPrinted := (s.W me).localPrinted + 1, point := .announce } with
        counted := s.counted ++ [j.task.path], limited := true }
  | count {j : Job} {p : Point} (hp : (s.W me).point = .tally) (hj : (s.W me).job = some j)
      (hl : s.printed + ((s.W me).localPrinted + 1) < u.limit) (hp' : p = .flush ∨ p = .recheck) :
      Move u s me { s.set me { s.W me with
          localPrinted := (s.W me).localPrinted + 1, point := p } with
        counted := s.counted ++ [j.task.path] }
  | announce (hp : (s.W me).point = .announce) :
      Move u s me { s.set me { s.W me with point := .flush } with stop := true }
  | flush (hp : (s.W me).point = .flush) :
      Move u s me { s.set me { s.W me with localPrinted := 0, point := .recheck } with
        printed := s.printed + (s.W me).localPrinted }
  | print {j : Job} (hp : (s.W me).point = .recheck) (hj : (s.W me).job = some j)
      (hl : s.printed + (s.W me).localPrinted ≤ u.limit) :
      Move u s me { s.set me (s.W me).ret with lines := s.lines ++ [j.task.path] }
  | skip {j : Job} (hp : (s.W me).point = .recheck) (hj : (s.W me).job = some j)
      (hl : u.limit < s.printed + (s.W me).localPrinted) : Move u s me (s.set me (s.W me).ret)
  | put {key : Nat} {t : Task} {k : After} (hp : (s.W me).point = .push key t k)
      (hk : k = .done ∨ ∃ key' t', k = .second key' t') :
      Move u s me { s.set me { (s.W me).setQ (wspqKeyBucket key)
          ((s.W me).q (wspqKeyBucket key) ++ [t]) with point := .mark (wspqKeyBucket key) k } with
        pushed := s.pushed ++ [t] }
  | keep {key k vic b got lim : Nat} {t : Task}
      (hp : (s.W me).point = .push key t (.steal k vic b got lim)) :
      Move u s me (s.set me { (s.W me).setQ (wspqKeyBucket key)
          ((s.W me).q (wspqKeyBucket key) ++ [t]) with
        point := .mark (wspqKeyBucket key) (.steal k vic b got lim) })
  | mark {b : Nat} {k : After} (hp : (s.W me).point = .mark b k) :
      Move u s me (s.set me
        (Worker.pushed { s.W me with nonempty := insert b (s.W me).nonempty } k))
  | fork {k : Nat} (hp : (s.W me).point = .cnf) (hn : 1 < n) :
      Move u s me { s.set me { s.W me with point := .spawn s.groups k } with
        groups := s.groups + 1
        groupPending := Function.update s.groupPending s.groups k }
  | spawn {g k : Nat} (hp : (s.W me).point = .spawn g (k + 1)) :
      Move u s me (s.set me { s.W me with dq := (s.W me).dq ++ [g], point := .spawn g k })
  | full {g k : Nat} (hp : (s.W me).point = .spawn g (k + 1)) :
      Move u s me (s.set me
        (Worker.runTask { s.W me with calls := .spawning g k :: (s.W me).calls } g))
  | finish {g : Nat} {calls : List Call} (hp : (s.W me).point = .cnf)
      (hc : (s.W me).calls = .task g :: calls) :
      Move u s me { s.set me ((s.W me).resume calls) with
        groupPending := Function.update s.groupPending g (s.groupPending g - 1) }
  | wait {g : Nat} (hp : (s.W me).point = .join g) :
      Move u s me (s.set me { s.W me with
        calls := .joining g :: (s.W me).calls, point := .poolPop })
  | poolPop {g : Nat} {dq : List Nat} (hp : (s.W me).point = .poolPop)
      (hd : (s.W me).dq = dq ++ [g]) :
      Move u s me (s.set me (Worker.runTask { s.W me with dq := dq } g))
  | poolIdle (hp : (s.W me).point = .poolIdle) :
      Move u s me { s.set me { s.W me with point := .poolOff } with
        cnfPending := s.cnfPending - 1 }
  | poolOff (hp : (s.W me).point = .poolOff) :
      Move u s me (s.set me { s.W me with busy := false, point := .poolScan 1 })
  | poolSteal {k g : Nat} {dq : List Nat} {vic : Fin n} (hp : (s.W me).point = .poolScan k)
      (hv : vic ≠ me) (hd : (s.W vic).dq = g :: dq) :
      Move u s me ((s.set vic { s.W vic with dq := dq }).set me
        { s.W me with point := .poolTook g })
  | poolTook {g : Nat} (hp : (s.W me).point = .poolTook g) :
      Move u s me (s.set me ((s.W me).runTask g))
  | poolWake {g : Nat} (hp : (s.W me).point = .poolTook g) :
      Move u s me { s.set me { s.W me with point := .poolOn g } with
        cnfPending := s.cnfPending + 1 }
  | poolOn {g : Nat} (hp : (s.W me).point = .poolOn g) :
      Move u s me (s.set me (Worker.runTask { s.W me with busy := true } g))
  | poolBack {k g : Nat} {calls : List Call} (hp : (s.W me).point = .poolScan k)
      (hc : (s.W me).calls = .joining g :: calls) :
      Move u s me (s.set me { s.W me with calls := calls, point := .join g })
  | rouse {p : Point} (hp : (s.W me).point = .rouse)
      (hp' : p = .ownMask ∨ p = .victim 0 wspqBrackets) :
      Move u s me { s.set me { s.W me with active := true, point := p } with
        pending := if (s.W me).active then s.pending else s.pending + 1 }
  | noVictim {k lim : Nat} (hp : (s.W me).point = .victim k lim) :
      Move u s me (s.set me { s.W me with
        cursor := (s.W me).cursor + wspqStealAttempts, iter := 0, point := .tryRun })
  | steal {k vic b got lim : Nat} {v : Fin n} {t : Task} {ts : List Task}
      (hp : (s.W me).point = .steal k vic b got lim) (hv : v ≠ me)
      (hq : (s.W v).q b = t :: ts) :
      Move u s me ((s.set v ((s.W v).setQ b ts)).set me
        { s.W me with point := .push b t (.steal k vic b got lim) })
  | loot {k vic b got lim : Nat} (hp : (s.W me).point = .steal k vic b (got + 1) lim) :
      Move u s me (s.set me { s.W me with
        cursor := vic + 1, stolen := got + 1, iter := 0, point := .check })
  | leave (hp : (s.W me).point = .leave) (ha : (s.W me).active = true)
      (hpop : (s.W me).popped = false) :
      Move u s me { s.set me { s.W me with active := false, point := .readPending } with
        pending := s.pending - 1 }
  | quit (hp : (s.W me).point = .quit) :
      Move u s me { s.set me { s.W me with point := .check } with stop := true }
  | exit (hp : (s.W me).point = .exit) :
      Move u s me { s.set me { s.W me with localPrinted := 0, point := .left } with
        printed := s.printed + (s.W me).localPrinted }

variable {u : Setup} {s s' : Ctx n} {me : Fin n} {a : Act}

theorem popTurn_move (h : popTurn u s me = some s') : Move u s me s' := by
  unfold popTurn at h
  dsimp only at h
  split at h
  case h_1 hp =>
    obtain rfl := Option.some.inj h
    refine .go (hp ▸ ?_)
    cases hs : s.stop with
    | true => exact .stopped hs
    | false => exact .running hs
  case h_2 hp =>
    obtain rfl := Option.some.inj h
    exact .go (hp ▸ .load)
  case h_3 m hp =>
    split at h
    case h_1 hm =>
      obtain rfl := Option.some.inj h
      exact .empty hp hm
    case h_2 b hb =>
      by_cases hn : n = 1
      · simp only [if_pos hn] at h
        cases hq : (s.W me).q b with
        | nil =>
          simp only [hq, List.head?_nil, Option.some.injEq] at h
          subst h
          exact .go (hp ▸ .missed hb hq)
        | cons t ts =>
          simp only [hq, List.head?_cons, List.tail_cons, Option.some.injEq] at h
          subst h
          exact .take hp hb (.inl ⟨hn, hq⟩)
      · simp only [if_neg hn] at h
        cases hq : ((s.W me).q b).getLast? with
        | none =>
          simp only [hq, Option.some.injEq] at h
          subst h
          exact .go (hp ▸ .missed hb (List.getLast?_eq_none_iff.mp hq))
        | some t =>
          simp only [hq, Option.some.injEq] at h
          subst h
          obtain ⟨ts, hts⟩ := List.getLast?_eq_some_iff.mp hq
          rw [hts, List.dropLast_concat]
          exact .take hp hb (.inr ⟨hn, hts⟩)
  case h_4 m b hp =>
    obtain rfl := Option.some.inj h
    exact .clear hp
  case h_5 => cases h

theorem lifted_move {j : Job} (hp : (s.W me).point = .cnf) (hc : (s.W me).calls = [])
    (hj : (s.W me).job = some j) : Move u s me (lifted u s me j) := by
  unfold lifted
  dsimp only
  by_cases hi : 0 < j.incs
  · rw [if_pos hi]
    exact .inc hp hc hj hi
  · rw [if_neg hi]
    have hi : j.incs = 0 := by omega
    cases ho : (u.tree j.task.path).out with
    | era => exact .era hp hc hj hi ho
    | leaf => exact .leaf hp hc hj hi ho
    | sup loc => exact .sup hp hc hj hi ho

theorem locTurn_move (h : locTurn u s me = some s') : Move u s me s' := by
  unfold locTurn at h
  dsimp only at h
  split at h
  case h_1 j hp hj =>
    split_ifs at h with hs
    · obtain rfl := Option.some.inj h
      exact .drop hp hj hs
    · obtain rfl := Option.some.inj h
      exact .go (hp ▸ .enter (by simpa using hs))
  case h_2 j hp hj =>
    split_ifs at h with hl hb
    · obtain rfl := Option.some.inj h
      exact .reach hp hj hl
    · obtain rfl := Option.some.inj h
      exact .count hp hj (by omega) (.inl rfl)
    · obtain rfl := Option.some.inj h
      exact .count hp hj (by omega) (.inr rfl)
  case h_3 hp =>
    obtain rfl := Option.some.inj h
    exact .announce hp
  case h_4 hp =>
    obtain rfl := Option.some.inj h
    exact .flush hp
  case h_5 j hp hj =>
    split_ifs at h with hl
    · obtain rfl := Option.some.inj h
      exact .print hp hj hl
    · obtain rfl := Option.some.inj h
      exact .skip hp hj (by omega)
  case h_6 key t k hp =>
    cases k with
    | second key' t' =>
      obtain rfl := Option.some.inj h
      exact .put hp (.inr ⟨key', t', rfl⟩)
    | done =>
      obtain rfl := Option.some.inj h
      exact .put hp (.inl rfl)
    | steal k vic b got lim =>
      obtain rfl := Option.some.inj h
      exact .keep hp
  case h_7 b k hp =>
    obtain rfl := Option.some.inj h
    exact .mark hp
  case h_8 => cases h

theorem poolNone_move {k : Nat} (hp : (s.W me).point = .poolScan k) :
    Move u s me (s.set me (s.W me).poolNone) := by
  unfold Worker.poolNone
  split
  case h_1 g calls hc => exact .poolBack hp hc
  case h_2 hc => exact .go (hp.symm ▸ .poolGiveUp hc)

theorem cnfTurn_move (h : cnfTurn u s me a = some s') : Move u s me s' := by
  unfold cnfTurn at h
  dsimp only at h
  split at h
  case h_1 k hp =>
    split_ifs at h with hk
    obtain rfl := Option.some.inj h
    exact .fork hp hk.1
  case h_2 hp =>
    split at h
    case h_1 j hc hj =>
      obtain rfl := Option.some.inj h
      exact lifted_move hp hc hj
    case h_2 g calls hc =>
      obtain rfl := Option.some.inj h
      exact .finish hp hc
    case h_3 => cases h
  case h_3 g hp =>
    obtain rfl := Option.some.inj h
    exact .go (hp ▸ .spawned)
  case h_4 g k hp =>
    obtain rfl := Option.some.inj h
    exact .spawn hp
  case h_5 g k hp =>
    obtain rfl := Option.some.inj h
    exact .full hp
  case h_6 g hp =>
    split_ifs at h with hg
    · obtain rfl := Option.some.inj h
      exact .go (hp ▸ .joined hg)
    · obtain rfl := Option.some.inj h
      exact .wait hp
  case h_7 hp =>
    split at h
    case h_1 g hd =>
      obtain rfl := Option.some.inj h
      obtain ⟨dq, hdq⟩ := List.getLast?_eq_some_iff.mp hd
      rw [hdq, List.dropLast_concat]
      exact .poolPop hp hdq
    case h_2 hd =>
      obtain rfl := Option.some.inj h
      exact .go (hp ▸ .poolEmpty (List.getLast?_eq_none_iff.mp hd))
  case h_8 hp =>
    split_ifs at h with hb
    · obtain rfl := Option.some.inj h
      exact .poolIdle hp
    · obtain rfl := Option.some.inj h
      exact .go (hp ▸ .poolQuiet (by simpa using hb))
  case h_9 hp =>
    obtain rfl := Option.some.inj h
    exact .poolOff hp
  case h_10 k hp =>
    by_cases hk : k < n
    · rw [if_pos hk] at h
      split at h
      case h_1 g dq hd =>
        split_ifs at h with hv
        obtain rfl := Option.some.inj h
        exact .poolSteal hp hv hd
      case h_2 =>
        obtain rfl := Option.some.inj h
        exact .go (hp ▸ .poolNext)
    · rw [if_neg hk] at h
      obtain rfl := Option.some.inj h
      exact poolNone_move hp
  case h_11 k hp =>
    split_ifs at h with hk
    obtain rfl := Option.some.inj h
    exact .go (hp ▸ .poolNext)
  case h_12 g hp =>
    split_ifs at h with hb
    · obtain rfl := Option.some.inj h
      exact .poolTook hp
    · obtain rfl := Option.some.inj h
      exact .poolWake hp
  case h_13 g hp =>
    obtain rfl := Option.some.inj h
    exact .poolOn hp
  case h_14 => cases h

theorem stealEnd_move {k vic b got lim : Nat} (hp : (s.W me).point = .steal k vic b got lim) :
    Move u s me (s.set me ((s.W me).stealEnd k vic got lim)) := by
  unfold Worker.stealEnd
  cases got with
  | zero => exact .go (hp.symm ▸ .lost)
  | succ got => exact .loot hp

theorem idleTurn_move (h : idleTurn s me a = some s') : Move u s me s' := by
  unfold idleTurn at h
  dsimp only at h
  split at h
  case h_1 k hp =>
    split_ifs at h with hk hm
    · obtain rfl := Option.some.inj h
      exact .go (hp ▸ .seen hk)
    · obtain rfl := Option.some.inj h
      exact .go (hp ▸ .unseen hk)
    · obtain rfl := Option.some.inj h
      exact .go (hp ▸ .none)
  case h_2 hp =>
    obtain rfl := Option.some.inj h
    refine .rouse hp ?_
    by_cases hpop : (s.W me).popped = true
    · exact .inl (if_pos hpop)
    · exact .inr (if_neg hpop)
  case h_3 hp =>
    obtain rfl := Option.some.inj h
    exact .go (hp ▸ .ownMask)
  case h_4 k lim hp =>
    by_cases hk : k < wspqStealAttempts
    · rw [if_pos hk] at h
      by_cases hv : wrap me ((s.W me).cursor + k) = me
      · rw [if_pos hv] at h
        obtain rfl := Option.some.inj h
        exact .go (hp ▸ .nextVictim)
      · rw [if_neg hv] at h
        split at h
        case h_1 =>
          obtain rfl := Option.some.inj h
          exact .go (hp ▸ .nextVictim)
        case h_2 b _ =>
          obtain rfl := Option.some.inj h
          exact .go (hp ▸ .aim)
    · rw [if_neg hk] at h
      obtain rfl := Option.some.inj h
      exact .noVictim hp
  case h_5 k vic b got lim hp =>
    by_cases hg : got < stealBatch
    · rw [if_pos hg] at h
      split at h
      case h_1 t ts hq =>
        split_ifs at h with hv
        obtain rfl := Option.some.inj h
        exact .steal hp hv hq
      case h_2 =>
        obtain rfl := Option.some.inj h
        exact stealEnd_move hp
    · rw [if_neg hg] at h
      obtain rfl := Option.some.inj h
      exact stealEnd_move hp
  case h_6 k vic b got lim hp =>
    split_ifs at h with hg
    obtain rfl := Option.some.inj h
    exact stealEnd_move hp
  case h_7 hp =>
    obtain rfl := Option.some.inj h
    refine .go (hp ▸ ?_)
    by_cases hn : n ≤ 1 ∨ s.cnfPending = 0
    · rw [if_pos hn]
      exact .noPool
    · rw [if_neg hn]
      exact .pool (by omega)
  case h_8 hp =>
    split_ifs at h with hl
    · obtain rfl := Option.some.inj h
      exact .leave hp hl.1 (by simpa using hl.2.1)
    · obtain rfl := Option.some.inj h
      refine .go (hp ▸ .stay ?_)
      by_cases ha : (s.W me).active = true
      · by_cases hpop : (s.W me).popped = true
        · exact .inr (.inl hpop)
        · exact .inr (.inr fun hz => hl ⟨ha, hpop, hz⟩)
      · exact .inl (by simpa using ha)
  case h_9 hp =>
    obtain rfl := Option.some.inj h
    refine .go (hp ▸ ?_)
    by_cases hz : s.pending = 0
    · rw [if_pos hz]
      exact .none_pending hz
    · rw [if_neg hz]
      exact .some_pending hz
  case h_10 hp =>
    obtain rfl := Option.some.inj h
    refine .go (hp ▸ ?_)
    by_cases hz : s.cnfPending = 0
    · rw [if_pos hz]
      exact .none_cnf
    · rw [if_neg hz]
      exact .some_cnf hz
  case h_11 hp =>
    obtain rfl := Option.some.inj h
    exact .quit hp
  case h_12 hp =>
    obtain rfl := Option.some.inj h
    exact .exit hp
  case h_13 => cases h

theorem turn_move (h : turn u s me a = some s') : Move u s me s' := by
  unfold turn at h
  split at h
  case h_1 | h_2 | h_3 | h_4 =>
    split_ifs at h
    exact popTurn_move h
  case h_5 | h_6 | h_7 | h_8 | h_9 | h_10 | h_11 =>
    split_ifs at h
    exact locTurn_move h
  case h_12 | h_13 | h_14 | h_15 | h_16 | h_17 | h_18 | h_19 | h_20 => exact cnfTurn_move h
  case h_21 => exact idleTurn_move h

end Ctx

end Hvm.Collapse
