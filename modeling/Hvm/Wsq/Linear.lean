import Hvm.Wsq.Deque

/-! No interleaving of the owner and its thieves loses or duplicates a value. -/

namespace Hvm.Wsq

variable {ι α : Type*}

/-- The counter up to which values are in the deque: a popping owner has already lowered
`bot`, but thieves can still get the last value until it has won it. -/
def bottom (q : Wsq ι α) : Nat :=
  match q.owner with
  | .pop3 _ | .pop5 _ _ | .pop6 _ _ => q.bot + 1
  | .pop4 b1 t => if t = b1 then q.bot + 1 else q.bot
  | _ => q.bot

def content (q : Wsq ι α) : List α := Ring.slice q.cap q.buf q.top q.bottom

/-- The value a popping owner has won and not returned yet. -/
def hand (q : Wsq ι α) : List α :=
  match q.owner with
  | .pop4 b1 t => if t = b1 then [] else [q.buf (b1 % q.cap)]
  | .pop6 _ out => out.toList
  | _ => []

/-- What holds at each program point of the owner. -/
def OwnerOk (q : Wsq ι α) : Prop :=
  match q.owner with
  | .idle | .push1 _ | .pop1 => True
  | .push2 _ b => b = q.bot
  | .push3 _ b => b = q.bot ∧ q.bot - q.top < q.cap
  | .push4 x b => b = q.bot ∧ q.bot - q.top < q.cap ∧ q.buf (b % q.cap) = x
  | .pop2 b => b = q.bot ∧ 0 < b
  | .pop3 b1 => b1 = q.bot
  | .pop4 b1 t => b1 = q.bot ∧ t ≤ b1 ∧ t ≤ q.top
  | .pop5 t x => t = q.bot ∧ t ≤ q.top ∧ x = q.buf (t % q.cap)
  | .pop6 b _ => b = q.bot + 1 ∧ q.top = q.bot + 1

/-- What holds at each program point of a thief: if nobody has stolen since it loaded `top`,
the value it is after is still there. -/
def ThiefOk (q : Wsq ι α) : WsqThief α → Prop
  | .idle | .steal1 => True
  | .steal2 t => t ≤ q.top
  | .steal3 t => t ≤ q.top ∧ (t = q.top → q.top < q.bottom)
  | .steal4 t x => t ≤ q.top ∧ (t = q.top → q.top < q.bottom ∧ x = q.buf (t % q.cap))

structure Inv (q : Wsq ι α) : Prop where
  le : q.top ≤ q.bottom
  size : q.bottom - q.top ≤ q.cap
  owner : q.OwnerOk
  thief : ∀ i, q.ThiefOk (q.thief i)
  order : (q.stolen ++ q.content).Sublist q.pushed
  count : q.pushed.Perm (q.stolen ++ q.popped ++ q.hand ++ q.content)

variable {q q' : Wsq ι α}

theorem and_mask (q : Wsq ι α) (b : Nat) : b &&& q.mask = b % q.cap := Nat.and_two_pow_sub_one_eq_mod b q.k

theorem cap_pos (q : Wsq ι α) : 0 < q.cap := Nat.two_pow_pos q.k

theorem bot_le_bottom (q : Wsq ι α) : q.bot ≤ q.bottom := by
  unfold bottom
  split
  · exact Nat.le_succ _
  · exact Nat.le_succ _
  · exact Nat.le_succ _
  · split_ifs
    · exact Nat.le_succ _
    · exact le_rfl
  · exact le_rfl

/-- A thief does not notice a step that leaves the oldest value alone, or takes it. -/
theorem ThiefOk.step {th : WsqThief α} (h : q.ThiefOk th) (hcap : q'.cap = q.cap)
    (htop : q.top ≤ q'.top)
    (hbot : q'.top = q.top → q.top < q.bottom → q.top < q'.bottom)
    (hbuf : q'.top = q.top → q.top < q.bottom → q'.buf (q.top % q.cap) = q.buf (q.top % q.cap)) :
    q'.ThiefOk th := by
  cases th with
  | idle => trivial
  | steal1 => trivial
  | steal2 t => exact le_trans h htop
  | steal3 t =>
    obtain ⟨hle, hlt⟩ := h
    refine ⟨hle.trans htop, fun he => ?_⟩
    have htt : t = q.top := by omega
    have ht : q'.top = q.top := by omega
    rw [ht]
    exact hbot ht (hlt htt)
  | steal4 t x =>
    obtain ⟨hle, hlt⟩ := h
    refine ⟨hle.trans htop, fun he => ?_⟩
    have htt : t = q.top := by omega
    have ht : q'.top = q.top := by omega
    obtain ⟨hb, hx⟩ := hlt htt
    rw [ht, hcap, htt, hbuf ht hb, ← htt]
    exact ⟨htt ▸ hbot ht hb, hx⟩

/-- A step of the owner that only changes its program point. -/
theorem Inv.goto {o : WsqOwner α} (h : q.Inv) (hb : bottom { q with owner := o } = q.bottom)
    (hh : hand { q with owner := o } = q.hand) (ho : OwnerOk { q with owner := o }) :
    Inv { q with owner := o } := by
  have hc : content { q with owner := o } = q.content := by
    unfold content
    rw [hb]
    rfl
  refine ⟨?_, ?_, ho, fun i => (h.thief i).step rfl le_rfl (fun _ hlt => ?_) fun _ _ => rfl, ?_, ?_⟩
  · rw [hb]
    exact h.le
  · rw [hb]
    exact h.size
  · rw [hb]
    exact hlt
  · rw [hc]
    exact h.order
  · rw [hc, hh]
    exact h.count

/-- The owner writes the slot above the last value. -/
theorem Inv.store {x : α} {b : Nat} (h : q.Inv) (ho : q.owner = .push3 x b) :
    Inv { q with buf := Function.update q.buf (b &&& q.mask) x, owner := .push4 x b } := by
  have hok := h.owner
  rw [OwnerOk, ho] at hok
  obtain ⟨rfl, hroom⟩ := hok
  have hbot : q.bottom = q.bot := by rw [bottom, ho]
  have hle := h.le
  rw [hbot] at hle
  have hcontent : content { q with buf := Function.update q.buf (q.bot &&& q.mask) x, owner := .push4 x q.bot } =
      q.content := by
    unfold content
    rw [hbot, and_mask]
    exact Ring.slice_update hroom
  have hhand : q.hand = [] := by rw [hand, ho]
  refine ⟨hle, hroom.le, ⟨rfl, hroom, ?_⟩, fun i => (h.thief i).step rfl le_rfl (fun _ hlt => ?_)
    fun _ hlt => ?_, ?_, ?_⟩
  · rw [and_mask]
    exact Function.update_self ..
  · rwa [hbot] at hlt
  · rw [hbot] at hlt
    rw [and_mask]
    exact Function.update_of_ne (Ring.slot_ne hlt hroom) x q.buf
  · rw [hcontent]
    exact h.order
  · rw [hcontent]
    have hcount := h.count
    rwa [hhand] at hcount

/-- The pushed value becomes visible. -/
theorem Inv.publish {x : α} {b : Nat} (h : q.Inv) (ho : q.owner = .push4 x b) :
    Inv { q with bot := b + 1, owner := .idle, pushed := q.pushed ++ [x] } := by
  have hok := h.owner
  rw [OwnerOk, ho] at hok
  obtain ⟨rfl, hroom, hx⟩ := hok
  have hbot : q.bottom = q.bot := by rw [bottom, ho]
  have hle := h.le
  rw [hbot] at hle
  have hcontent : content { q with bot := q.bot + 1, owner := .idle, pushed := q.pushed ++ [x] } =
      q.content ++ [x] := by
    unfold content
    rw [hbot, ← hx]
    exact Ring.slice_concat hle
  have hhand : q.hand = [] := by rw [hand, ho]
  have hcount := h.count
  rw [hhand, List.append_nil] at hcount
  refine ⟨hle.trans (Nat.le_succ _), ?_, trivial, fun i => (h.thief i).step rfl le_rfl
    (fun _ hlt => ?_) fun _ _ => rfl, ?_, ?_⟩
  · change q.bot + 1 - q.top ≤ q.cap
    omega
  · change q.top < q.bot + 1
    omega
  · rw [hcontent, ← List.append_assoc]
    exact h.order.append (List.Sublist.refl _)
  · rw [hcontent, ← List.append_assoc]
    change (q.pushed ++ [x]).Perm (q.stolen ++ q.popped ++ [] ++ q.content ++ [x])
    rw [List.append_nil]
    exact hcount.append_right [x]

/-- The owner lowers `bot`: thieves that load it from now on leave the last value alone. -/
theorem Inv.lower {b : Nat} (h : q.Inv) (ho : q.owner = .pop2 b) :
    Inv { q with bot := b - 1, owner := .pop3 (b - 1) } := by
  have hok := h.owner
  rw [OwnerOk, ho] at hok
  obtain ⟨rfl, hpos⟩ := hok
  have hbot : q.bottom = q.bot := by rw [bottom, ho]
  have hbot' : bottom { q with bot := q.bot - 1, owner := .pop3 (q.bot - 1) } = q.bottom := by
    rw [hbot]
    exact Nat.sub_add_cancel hpos
  have hcontent : content { q with bot := q.bot - 1, owner := .pop3 (q.bot - 1) } = q.content := by
    unfold content
    rw [hbot']
    rfl
  have hhand : q.hand = [] := by rw [hand, ho]
  refine ⟨?_, ?_, rfl, fun i => (h.thief i).step rfl le_rfl (fun _ hlt => ?_) fun _ _ => rfl, ?_, ?_⟩
  · rw [hbot']
    exact h.le
  · rw [hbot']
    exact h.size
  · rwa [hbot']
  · rw [hcontent]
    exact h.order
  · rw [hcontent]
    have hcount := h.count
    rwa [hhand] at hcount

/-- With a value below the last one, the owner has won the last one. -/
theorem Inv.win {b1 : Nat} (h : q.Inv) (ho : q.owner = .pop3 b1) (hlt : q.top < b1) :
    Inv { q with owner := .pop4 b1 q.top } := by
  have hok := h.owner
  rw [OwnerOk, ho] at hok
  obtain rfl := hok
  have hbot : q.bottom = q.bot + 1 := by rw [bottom, ho]
  have hbot' : bottom { q with owner := .pop4 q.bot q.top } = q.bot := if_neg hlt.ne
  have hcontent : q.content =
      content { q with owner := .pop4 q.bot q.top } ++ [q.buf (q.bot % q.cap)] := by
    unfold content
    rw [hbot, hbot']
    exact Ring.slice_concat hlt.le
  have hhand : q.hand = [] := by rw [hand, ho]
  have hhand' : hand { q with owner := .pop4 q.bot q.top } = [q.buf (q.bot % q.cap)] :=
    if_neg hlt.ne
  have hcount := h.count
  rw [hhand, List.append_nil, hcontent] at hcount
  have horder := h.order
  rw [hcontent, ← List.append_assoc] at horder
  have hsize := h.size
  rw [hbot] at hsize
  refine ⟨?_, ?_, ⟨rfl, hlt.le, le_rfl⟩, fun i => (h.thief i).step rfl le_rfl (fun _ _ => ?_)
    fun _ _ => rfl, ?_, ?_⟩
  · rw [hbot']
    exact hlt.le
  · rw [hbot']
    change q.bot - q.top ≤ q.cap
    omega
  · rw [hbot']
    exact hlt
  · exact (List.sublist_append_left _ _).trans horder
  · rw [hhand']
    refine hcount.trans ?_
    rw [List.append_assoc (q.stolen ++ q.popped)]
    exact (List.perm_append_comm).append_left _

/-- The value that was won is returned. -/
theorem Inv.give {t : Nat} (h : q.Inv) (ho : q.owner = .pop4 q.bot t) (ht : t ≠ q.bot) :
    Inv { q with owner := .idle, popped := q.popped ++ [q.buf (q.bot &&& q.mask)] } := by
  have hbot : q.bottom = q.bot := by simp [bottom, ho, ht]
  have hhand : q.hand = [q.buf (q.bot % q.cap)] := by simp [hand, ho, ht]
  have hle := h.le
  have hsize := h.size
  have hcount := h.count
  have horder := h.order
  have hcontent : content { q with owner := .idle, popped := q.popped ++ [q.buf (q.bot &&& q.mask)] } =
      q.content := by
    unfold content
    rw [hbot]
    rfl
  rw [hhand] at hcount
  rw [hbot] at hle hsize
  refine ⟨hle, hsize, trivial, fun i => (h.thief i).step rfl le_rfl (fun _ hlt => ?_) fun _ _ => rfl,
    ?_, ?_⟩
  · rwa [hbot] at hlt
  · rw [hcontent]
    exact horder
  · rw [hcontent, and_mask]
    change q.pushed.Perm (q.stolen ++ (q.popped ++ [q.buf (q.bot % q.cap)]) ++ [] ++ q.content)
    rwa [List.append_nil, ← List.append_assoc q.stolen]

/-- The owner has won the race for the last value. -/
theorem Inv.take {t : Nat} {x : α} (h : q.Inv) (ho : q.owner = .pop5 t x) (ht : q.top = t) :
    Inv { q with top := t + 1, owner := .pop6 (t + 1) (some x) } := by
  have hok := h.owner
  rw [OwnerOk, ho] at hok
  obtain ⟨rfl, -, rfl⟩ := hok
  have hbot : q.bottom = q.bot + 1 := by rw [bottom, ho]
  have hcontent : q.content = [q.buf (q.bot % q.cap)] := by
    unfold content
    rw [hbot, ht, Ring.slice_cons (Nat.lt_succ_self _), Ring.slice_of_le le_rfl]
  have hcontent' : content { q with
      top := q.bot + 1
      owner := .pop6 (q.bot + 1) (some (q.buf (q.bot % q.cap))) } = [] :=
    Ring.slice_of_le le_rfl
  have hhand : q.hand = [] := by rw [hand, ho]
  have hcount := h.count
  rw [hhand, hcontent, List.append_nil] at hcount
  have horder := h.order
  refine ⟨le_rfl, ?_, ⟨rfl, rfl⟩, fun i => (h.thief i).step rfl ?_ (fun he _ => ?_)
    fun he _ => ?_, ?_, ?_⟩
  · change q.bot + 1 - (q.bot + 1) ≤ q.cap
    omega
  · change q.top ≤ q.bot + 1
    omega
  · change q.bot + 1 = q.top at he
    omega
  · change q.bot + 1 = q.top at he
    omega
  · rw [hcontent', List.append_nil]
    exact (List.sublist_append_left _ _).trans horder
  · rw [hcontent', List.append_nil]
    exact hcount

/-- The owner raises `bot` again and returns. -/
theorem Inv.finish {b : Nat} {out : Option α} (h : q.Inv) (ho : q.owner = .pop6 b out) :
    Inv { q with bot := b, owner := .idle, popped := q.popped ++ out.toList } := by
  have hok := h.owner
  rw [OwnerOk, ho] at hok
  obtain ⟨rfl, htop⟩ := hok
  have hbot : q.bottom = q.bot + 1 := by rw [bottom, ho]
  have hcontent : content { q with bot := q.bot + 1, owner := .idle, popped := q.popped ++ out.toList } =
      q.content := by
    unfold content
    rw [hbot]
    rfl
  have hhand : q.hand = out.toList := by rw [hand, ho]
  have hcount := h.count
  rw [hhand] at hcount
  have hle := h.le
  have hsize := h.size
  rw [hbot] at hle hsize
  refine ⟨hle, hsize, trivial, fun i => (h.thief i).step rfl le_rfl (fun _ hlt => ?_) fun _ _ => rfl,
    ?_, ?_⟩
  · rwa [hbot] at hlt
  · rw [hcontent]
    exact h.order
  · rw [hcontent]
    change q.pushed.Perm (q.stolen ++ (q.popped ++ out.toList) ++ [] ++ q.content)
    rwa [List.append_nil, ← List.append_assoc q.stolen]

theorem own_inv {a : WsqAct α} (h : q.Inv) (hq : q.own a = some q') : q'.Inv := by
  have hok := h.owner
  have hle := h.le
  unfold OwnerOk at hok
  unfold own at hq
  split at hq
  case h_1 x ho =>
    obtain rfl := Option.some.inj hq
    exact h.goto (by simp [bottom, ho]) (by simp [hand, ho]) trivial
  case h_2 ho =>
    obtain rfl := Option.some.inj hq
    exact h.goto (by simp [bottom, ho]) (by simp [hand, ho]) trivial
  case h_3 x ho =>
    obtain rfl := Option.some.inj hq
    exact h.goto (by simp [bottom, ho]) (by simp [hand, ho]) rfl
  case h_4 x b ho =>
    rw [ho] at hok
    obtain rfl := hok
    split_ifs at hq with hroom
    · obtain rfl := Option.some.inj hq
      exact h.goto (by simp [bottom, ho]) (by simp [hand, ho]) ⟨rfl, hroom.2⟩
    · obtain rfl := Option.some.inj hq
      exact h.goto (by simp [bottom, ho]) (by simp [hand, ho]) trivial
  case h_5 x b ho =>
    obtain rfl := Option.some.inj hq
    exact h.store ho
  case h_6 x b ho =>
    obtain rfl := Option.some.inj hq
    exact h.publish ho
  case h_7 ho =>
    split_ifs at hq with h0
    · obtain rfl := Option.some.inj hq
      exact h.goto (by simp [bottom, ho]) (by simp [hand, ho]) trivial
    · obtain rfl := Option.some.inj hq
      exact h.goto (by simp [bottom, ho]) (by simp [hand, ho]) ⟨rfl, Nat.pos_of_ne_zero h0⟩
  case h_8 b ho =>
    obtain rfl := Option.some.inj hq
    exact h.lower ho
  case h_9 b1 ho =>
    rw [ho] at hok
    have hbot : q.bottom = q.bot + 1 := by rw [bottom, ho]
    split_ifs at hq with ht
    · obtain rfl := Option.some.inj hq
      by_cases hlast : q.top = b1
      · exact h.goto (by simp [bottom, ho, hlast]) (by simp [hand, ho, hlast])
          ⟨hok, ht, le_rfl⟩
      · exact h.win ho (by omega)
    · obtain rfl := Option.some.inj hq
      have htop : q.top = q.bot + 1 := by omega
      exact h.goto (by simp [bottom, ho]) (by simp [hand, ho]) ⟨htop, htop⟩
  case h_10 b1 t ho =>
    rw [ho] at hok
    obtain ⟨rfl, -, ht⟩ := hok
    dsimp only at hq
    split_ifs at hq with hlast
    · obtain rfl := Option.some.inj hq
      refine h.goto (by simp [bottom, ho, hlast]) (by simp [hand, ho, hlast]) ⟨hlast, ht, ?_⟩
      rw [and_mask, hlast]
      rfl
    · obtain rfl := Option.some.inj hq
      exact h.give ho hlast
  case h_11 t x ho =>
    rw [ho] at hok
    obtain ⟨rfl, hlt, -⟩ := hok
    have hbot : q.bottom = q.bot + 1 := by rw [bottom, ho]
    split_ifs at hq with ht
    · obtain rfl := Option.some.inj hq
      exact h.take ho ht
    · obtain rfl := Option.some.inj hq
      have htop : q.top = q.bot + 1 := by omega
      exact h.goto (by simp [bottom, ho]) (by simp [hand, ho]) ⟨rfl, htop⟩
  case h_12 b out ho =>
    obtain rfl := Option.some.inj hq
    exact h.finish ho
  case h_13 => cases hq

/-- A thief that takes a value does not disturb the owner. -/
theorem OwnerOk.raise (h : q.OwnerOk) (hlt : q.top < q.bottom) (htop : q'.top = q.top + 1)
    (hbot : q'.bot = q.bot) (hcap : q'.k = q.k) (hbuf : q'.buf = q.buf) (ho : q'.owner = q.owner) :
    q'.OwnerOk := by
  obtain ⟨k, top, bot, buf, owner, thief, pushed, popped, stolen⟩ := q
  obtain ⟨k', top', bot', buf', owner', thief', pushed', popped', stolen'⟩ := q'
  dsimp only at htop hbot hcap hbuf ho
  subst htop hbot hcap hbuf ho
  cases owner' with
  | idle => trivial
  | push1 x => trivial
  | pop1 => trivial
  | push2 x b => exact h
  | push3 x b => exact ⟨h.1, lt_of_le_of_lt (Nat.sub_le_sub_left (Nat.le_succ _) _) h.2⟩
  | push4 x b => exact ⟨h.1, lt_of_le_of_lt (Nat.sub_le_sub_left (Nat.le_succ _) _) h.2.1, h.2.2⟩
  | pop2 b => exact h
  | pop3 b1 => exact h
  | pop4 b1 t => exact ⟨h.1, h.2.1, h.2.2.trans (Nat.le_succ _)⟩
  | pop5 t x => exact ⟨h.1, h.2.1.trans (Nat.le_succ _), h.2.2⟩
  | pop6 b out => exact absurd h.2 hlt.ne

section Thieves

variable [DecidableEq ι] {i : ι}

/-- A step of a thief that only changes its program point. -/
theorem Inv.prowl (h : q.Inv) (th : WsqThief α) (hth : q.ThiefOk th) :
    Inv { q with thief := Function.update q.thief i th } := by
  refine ⟨h.le, h.size, h.owner, fun j => ?_, h.order, h.count⟩
  change ThiefOk _ (Function.update q.thief i th j)
  by_cases hj : j = i
  · rw [hj, Function.update_self]
    exact hth.step rfl le_rfl (fun _ hlt => hlt) fun _ _ => rfl
  · rw [Function.update_of_ne hj]
    exact (h.thief j).step rfl le_rfl (fun _ hlt => hlt) fun _ _ => rfl

/-- The compare-exchange of a thief succeeds: it takes the oldest value. -/
theorem Inv.raise {t : Nat} {x : α} (h : q.Inv) (hi : q.thief i = .steal4 t x) (ht : q.top = t) :
    Inv { q with
      thief := Function.update q.thief i .idle
      top := t + 1
      stolen := q.stolen ++ [x] } := by
  have hth := h.thief i
  rw [hi] at hth
  obtain ⟨-, hkeep⟩ := hth
  obtain ⟨hlt, rfl⟩ := hkeep ht.symm
  subst ht
  set q' : Wsq ι α := { q with
    thief := Function.update q.thief i .idle
    top := q.top + 1
    stolen := q.stolen ++ [q.buf (q.top % q.cap)] } with hq'
  have hcontent : q.content = q.buf (q.top % q.cap) :: q'.content := Ring.slice_cons hlt
  have hok := h.owner
  have hsize := h.size
  have horder := h.order
  have hcount := h.count
  rw [hcontent] at horder hcount
  refine ⟨hlt, ?_, ?_, fun j => ?_, ?_, ?_⟩
  · change q.bottom - (q.top + 1) ≤ q.cap
    omega
  · exact hok.raise hlt rfl rfl rfl rfl rfl
  · change ThiefOk _ (Function.update q.thief i .idle j)
    by_cases hj : j = i
    · rw [hj, Function.update_self]
      trivial
    · rw [Function.update_of_ne hj]
      have hne : q'.top ≠ q.top := Nat.succ_ne_self _
      exact (h.thief j).step rfl (Nat.le_succ _) (fun he => (hne he).elim) fun he => (hne he).elim
  · change ((q.stolen ++ [q.buf (q.top % q.cap)]) ++ q'.content).Sublist q.pushed
    rwa [List.append_assoc]
  · change q.pushed.Perm (q.stolen ++ [q.buf (q.top % q.cap)] ++ q.popped ++ q.hand ++ q'.content)
    refine hcount.trans ?_
    have hmove : (q.stolen ++ (q.popped ++ q.hand) ++ q.buf (q.top % q.cap) :: q'.content).Perm
        (q.stolen ++ q.buf (q.top % q.cap) :: ((q.popped ++ q.hand) ++ q'.content)) := by
      rw [List.append_assoc]
      exact List.perm_middle.append_left _
    simpa [List.append_assoc] using hmove

theorem steal_inv (h : q.Inv) : (q.steal i).Inv := by
  have hth := h.thief i
  unfold steal
  split
  case h_1 => exact h.prowl _ trivial
  case h_2 => exact h.prowl (.steal2 q.top) (le_refl q.top)
  case h_3 t hi =>
    rw [hi] at hth
    split_ifs with hb
    · exact h.prowl _ trivial
    · refine h.prowl (.steal3 t) ⟨hth, fun he => ?_⟩
      have hle := q.bot_le_bottom
      omega
  case h_4 t hi =>
    rw [hi] at hth
    refine h.prowl (.steal4 t _) ⟨hth.1, fun he => ⟨hth.2 he, ?_⟩⟩
    rw [and_mask]
  case h_5 t x hi =>
    split_ifs with ht
    · exact h.raise hi ht
    · exact h.prowl _ trivial

theorem step_inv (h : q.Inv) (hs : Step q q') : q'.Inv := by
  rcases hs with ⟨a, hq⟩ | ⟨i, rfl⟩
  · exact own_inv h hq
  · exact steal_inv h

omit [DecidableEq ι] in
theorem init_inv (k : Nat) (buf : Nat → α) : (init k buf : Wsq ι α).Inv := by
  refine ⟨le_rfl, Nat.zero_le _, trivial, fun i => trivial, ?_, ?_⟩
  · exact List.Sublist.refl []
  · exact List.Perm.refl []

theorem reaches_inv (h : q.Inv) (hr : Relation.ReflTransGen Step q q') : q'.Inv := by
  induction hr with
  | refl => exact h
  | tail _ hs ih => exact step_inv ih hs

/-- Nothing ever lowers `top`, and the capacity stays. -/
theorem step_top (h : q.Inv) (hs : Step q q') : q.top ≤ q'.top := by
  rcases hs with ⟨a, hq⟩ | ⟨i, rfl⟩
  · have hok := h.owner
    unfold OwnerOk at hok
    unfold own at hq
    split at hq
    case h_11 t x ho =>
      split_ifs at hq with ht
      · obtain rfl := Option.some.inj hq
        change q.top ≤ t + 1
        omega
      · obtain rfl := Option.some.inj hq
        exact le_rfl
    all_goals
      try dsimp only at hq
      try split_ifs at hq
      all_goals
        first
        | (obtain rfl := Option.some.inj hq; exact le_rfl)
        | cases hq
  · unfold steal
    split
    case h_5 t x hi =>
      split_ifs with ht
      · exact ht ▸ Nat.le_succ _
      · exact le_rfl
    all_goals
      try split_ifs
      all_goals exact le_rfl

theorem reaches_top (h : q.Inv) (hr : Relation.ReflTransGen Step q q') : q.top ≤ q'.top := by
  induction hr with
  | refl => exact le_rfl
  | tail hr hs ih => exact ih.trans (step_top (reaches_inv h hr) hs)

/-- In every state any interleaving reaches: each pushed value is returned at most once, and
steals return values in the order of the pushes. Between operations the pushed values are those
returned and those in the buffer between `top` and `bot`. The slot an owner is about to write
is not the one a thief is about to read, if its compare-exchange can still succeed. -/
theorem wsq_exact {k : Nat} {buf : Nat → α} (hr : Relation.ReflTransGen Step (init k buf) q) :
    (q.stolen ++ q.popped).Subperm q.pushed ∧ q.stolen.Sublist q.pushed ∧
      (q.owner = .idle → (∀ i, q.thief i = .idle) → q.top ≤ q.bot ∧ q.bot - q.top ≤ q.cap ∧
        q.pushed.Perm (q.stolen ++ q.popped ++ Ring.slice q.cap q.buf q.top q.bot)) ∧
      ∀ x b i t q', q.owner = .push3 x b → q.thief i = .steal3 t →
        Relation.ReflTransGen Step q q' → q'.top = t → b &&& q.mask ≠ t &&& q.mask := by
  have h : q.Inv := reaches_inv (init_inv k buf) hr
  refine ⟨?_, ?_, fun ho _ => ?_, fun x b i t q' ho hi hr' ht => ?_⟩
  · have hsub := (List.sublist_append_left (q.stolen ++ q.popped) (q.hand ++ q.content)).subperm
    rw [← List.append_assoc] at hsub
    exact hsub.trans h.count.symm.subperm
  · exact (List.sublist_append_left _ _).trans h.order
  · have hbot : q.bottom = q.bot := by rw [bottom, ho]
    have hhand : q.hand = [] := by rw [hand, ho]
    have hcount := h.count
    rw [hhand, List.append_nil, content, hbot] at hcount
    exact ⟨hbot ▸ h.le, hbot ▸ h.size, hcount⟩
  · have hok := h.owner
    rw [OwnerOk, ho] at hok
    obtain ⟨rfl, hroom⟩ := hok
    have hth := h.thief i
    rw [hi] at hth
    obtain ⟨hle, hkeep⟩ := hth
    have htop : t = q.top := by
      have hmono := reaches_top h hr'
      omega
    have hlt := hkeep htop
    rw [bottom, ho] at hlt
    rw [and_mask, and_mask, htop]
    exact (Ring.slot_ne hlt hroom).symm

/-- The steps of a schedule. -/
def run (q : Wsq ι α) : List (WsqAct α ⊕ ι) → Option (Wsq ι α)
  | [] => some q
  | .inl a :: as => (q.own a).bind (run · as)
  | .inr i :: as => (q.steal i).run as

theorem run_reaches {as : List (WsqAct α ⊕ ι)} (h : q.run as = some q') :
    Relation.ReflTransGen Step q q' := by
  induction as generalizing q with
  | nil => rw [Option.some.inj h]
  | cons a as ih =>
    cases a with
    | inl a =>
      obtain ⟨r, hq, hr⟩ := Option.bind_eq_some_iff.mp h
      exact .head (.inl ⟨a, hq⟩) (ih hr)
    | inr i => exact .head (.inr ⟨i, rfl⟩) (ih h)

end Thieves

/-- Two values are pushed, and the owner and a thief race for the first: the thief has loaded
`top` before the owner pops both, and loses. -/
def race : List (WsqAct Nat ⊕ Unit) :=
  [.inl (.push 5), .inl .run, .inl .run, .inl .run, .inl .run,
    .inl (.push 6), .inl .run, .inl .run, .inl .run, .inl .run,
    .inr (), .inr (), .inr (), .inr (),
    .inl .pop, .inl .run, .inl .run, .inl .run, .inl .run,
    .inl .pop, .inl .run, .inl .run, .inl .run, .inl .run, .inl .run,
    .inr (), .inl .run]

theorem wsq_exact_race : ∃ q : Wsq Unit Nat, q.popped = [6, 5] ∧ q.stolen = [] ∧
    (q.stolen ++ q.popped).Subperm [5, 6] := by
  have hrun : ((init 1 fun _ => 0 : Wsq Unit Nat).run race).map
      (fun q => (q.pushed, q.popped, q.stolen)) = some ([5, 6], [6, 5], []) := by
    decide +kernel
  obtain ⟨q, hq, hst⟩ := Option.map_eq_some_iff.mp hrun
  simp only [Prod.mk.injEq] at hst
  obtain ⟨hpushed, hpopped, hstolen⟩ := hst
  exact ⟨q, hpopped, hstolen, hpushed ▸ (wsq_exact (run_reaches hq)).1⟩

end Hvm.Wsq
