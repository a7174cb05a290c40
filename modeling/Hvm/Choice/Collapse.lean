import Hvm.Choice.Cnf
import Hvm.Cnf.Collapse

/-! The collapser on first-order programs: it walks the tree of choices, and prints the value at
the end of every path, except where an erasure lies in it. -/

namespace Hvm.Choice

open Oracle

/-- A location in the queue, the path that leads to it, and what its cell holds. -/
structure Item where
  key : Nat
  loc : Nat
  path : Route Nat
  claim : Claim

def itemToks (items : List Item) : Toks :=
  (items.map fun i => LinearHeap.Tok.own i.loc (Mark.cell i.claim) : List Tok)

/-- What has been printed is the value of every choice of sides that takes the path, and no
priority wrapper. -/
def Printed (D : Den) (o : Rt × Term) (p : Route Nat) : Prop :=
  o.2.tag ≠ .inc ∧ ∀ s, Takes s p = true → Prints o.1 o.2 (D s)

def Erased (D : Den) (p : Route Nat) : Prop := ∀ s, Takes s p = true → (D s).erased = true

/-- The paths of the printed terms, of the erased ones, of the queue and of the term at hand
cover all choices, each of them once. -/
structure Explores (D : Den) (limit : Nat) (K : Statics) (ps es cur : List (Route Nat))
    (items : List Item) (s : Collapse) : Prop where
  zero : K 0 ≠ none
  queue : List.Forall₂ (fun e i => e = (i.key, i.loc)) s.ws items
  cover : ExactCover (ps ++ es ++ items.map Item.path ++ cur)
  printed : List.Forall₂ (Printed D) s.out ps
  erased : ∀ p ∈ es, Erased D p
  along : ∀ i ∈ items, Along D i.path i.claim.den
  mode : match s.mode with
    | .pop => cur = [] ∧ s.out.length < limit ∧ Linear K s.rt (itemToks items)
    | .run _ calls md => ∃ p d R, cur = [p] ∧ s.out.length < limit ∧ Along D p d ∧
        Working K d R (itemToks items) ⟨s.rt, calls, md⟩
    | .stop => cur = [] ∧ (s.out.length < limit → items = [])

variable {K K' : Statics} {rt : Rt} {t : Term} {D d : Den} {m R : ℚ} {σ τ ω : Toks} {limit key : Nat}
  {ps es cur : List (Route Nat)} {items : List Item} {p : Route Nat} {s s' : Collapse}
  {book : BookTable}

theorem itemToks_not_pins : ∀ t ∈ itemToks items, ¬ t.Pins := by
  intro t ht
  obtain ⟨i, -, rfl⟩ := List.mem_map.mp (Multiset.mem_coe.mp ht)
  exact id

/-- An owned cell is no static one. -/
theorem Linear.loc_ne_zero {l : Nat} {a : Mark} (h0 : K 0 ≠ none) (hl : Linear K rt τ)
    (hm : LinearHeap.Tok.own l a ∈ τ) : l ≠ 0 := by
  rintro rfl
  obtain ⟨st, hI, -⟩ := hl
  obtain ⟨σ, hs⟩ := hI.owned_of_mem hm
  exact h0 (hI.unfrozen (by rw [hs]; exact fun h => by cases h))

/-- The roots of returned terms. -/
theorem Part.sup_inv (h : Part K t d m σ) (ht : t.tag = .sup) : Word K t d m σ := by
  rcases h with h | ⟨-, h⟩
  · cases h with
    | leaf _ hl _ =>
      rw [ht] at hl
      cases hl
    | node _ _ hc _ _ _ _ =>
      rw [ht] at hc
      cases hc
  · exact h

theorem Part.inc_inv (h : Part K t d m σ) (ht : t.tag = .inc) : Word K t d m σ := by
  rcases h with h | ⟨-, h⟩
  · cases h with
    | leaf hw _ _ => exact hw
    | node _ _ hc _ _ _ _ =>
      rw [ht] at hc
      cases hc
  · exact h

theorem Part.done (h : Part K t d m σ) (ht : t.tag ≠ .sup) : Done K t d m σ :=
  h.resolve_right fun h => ht h.1

/-! ### Steps -/

theorem Item.itemToks_cons (i : Item) (items : List Item) :
    itemToks (i :: items) = {.own i.loc (.cell i.claim)} + itemToks items := by
  rw [itemToks, List.map_cons, ← Multiset.cons_coe, Multiset.singleton_add]
  rfl

/-- A location is pushed with its path. -/
theorem push_queue {ws ws' : Wspq} {loc : Nat} {c : Claim}
    (hq : List.Forall₂ (fun e i => e = (i.key, i.loc)) ws items) (h0 : loc ≠ 0)
    (hp : wspqPush ws key loc = some ws') :
    List.Forall₂ (fun e i => e = (i.key, i.loc)) ws' (items ++ [⟨wspqKeyBucket key, loc, p, c⟩]) := by
  unfold wspqPush at hp
  dsimp only at hp
  rw [if_neg h0] at hp
  split_ifs at hp
  obtain rfl := Option.some.inj hp
  exact List.rel_append hq (.cons rfl .nil)

/-- The oldest location of the lowest bucket is popped, with its path. -/
theorem pop_queue {ws ws' : Wspq} {e : Nat × Nat}
    (hq : List.Forall₂ (fun e i => e = (i.key, i.loc)) ws items) (hp : wspqPop ws = some (e, ws')) :
    ∃ i is, items.Perm (i :: is) ∧ e = (i.key, i.loc) ∧
      List.Forall₂ (fun e i => e = (i.key, i.loc)) ws' is := by
  obtain ⟨js, hjs, hperm⟩ := List.perm_comp_forall₂ (wspqPop_perm hp).symm hq
  obtain ⟨i, is, hi, his, rfl⟩ := List.forall₂_cons_left_iff.mp hjs
  exact ⟨i, is, hperm.symm, hi, his⟩

theorem wspqPop_none {ws : Wspq} (hp : wspqPop ws = none) : ws = [] := by
  cases ws with
  | nil => rfl
  | cons e ws =>
    unfold wspqPop at hp
    split at hp
    · cases hp
    · split_ifs at hp

theorem Explores.pop (h : Explores D limit K ps es cur items s) (hm : s.mode = .pop)
    (hs : Collapse.step book limit s = .next s') :
    ∃ cur' items', Explores D limit K ps es cur' items' s' := by
  obtain ⟨rt, ws, out, md⟩ := s
  obtain rfl : md = .pop := hm
  obtain ⟨hzero, hqueue, hcover, hprinted, herased, halong, rfl, hlim, hl⟩ := h
  unfold Collapse.step at hs
  dsimp only at hs
  cases hp : wspqPop ws with
  | none =>
    rw [hp] at hs
    obtain rfl := CollapseOutcome.next.inj hs
    obtain rfl := wspqPop_none hp
    have hnil : items = [] := List.forall₂_nil_left_iff.mp hqueue
    exact ⟨[], items, hzero, hqueue, hcover, hprinted, herased, halong, rfl, fun _ => hnil⟩
  | some r =>
    obtain ⟨⟨key, loc⟩, ws'⟩ := r
    rw [hp] at hs
    obtain rfl := CollapseOutcome.next.inj hs
    obtain ⟨i, is, hperm, he, hq'⟩ := pop_queue hqueue hp
    obtain ⟨rfl, rfl⟩ := Prod.mk.inj he
    have htoks : itemToks items = itemToks (i :: is) := Multiset.coe_eq_coe.mpr (hperm.map _)
    rw [htoks, Item.itemToks_cons] at hl
    obtain ⟨ω, -, hh, hl⟩ := LinearHeap.Meaning.Inv.load hl
    obtain ⟨x, hx, hw⟩ := Holds.exists_word hh (le_refl _)
    have hread : heapRead rt i.loc = x := by rw [heapRead, hx]; rfl
    have hl := LinearHeap.Meaning.Inv.drop hl (by
      intro t ht
      rw [Multiset.mem_singleton.mp ht]
      exact id)
    have hown : Has K rt [.word x i.claim.den i.claim.rank] (0 + itemToks is) :=
      LinearHeap.Ledger.list_iff.mpr ⟨[ω], .cons hw .nil, by rwa [List.sum_singleton, zero_add]⟩
    refine ⟨[i.path], is, hzero, hq', ?_, hprinted, herased,
      fun j hj => halong j (hperm.mem_iff.mpr (List.mem_cons_of_mem _ hj)), i.path, i.claim.den,
      i.claim.rank, rfl, hlim, halong i (hperm.mem_iff.mpr List.mem_cons_self), _, _, 0, .nil, ?_⟩
    · refine hcover.perm ?_
      have hpaths := hperm.map Item.path
      rw [List.append_nil, List.append_assoc _ _ [i.path]]
      exact List.Perm.append_left _ (hpaths.trans (List.perm_append_singleton _ _).symm)
    · rw [hread]
      exact hown

section Process

variable (hzero : K 0 ≠ none) (hqueue : List.Forall₂ (fun e i => e = (i.key, i.loc)) s.ws items)
  (hcover : ExactCover (ps ++ es ++ items.map Item.path ++ [p]))
  (hprinted : List.Forall₂ (Printed D) s.out ps) (herased : ∀ p ∈ es, Erased D p)
  (halong : ∀ i ∈ items, Along D i.path i.claim.den) (hlim : s.out.length < limit)
  (hp : Along D p d)

include hzero hqueue hcover hprinted herased halong hlim hp

/-- A priority wrapper is taken off. -/
theorem process_inc (ht : t.tag = .inc) (hw : Word K t d R ω) (hl : Linear K rt (ω + itemToks items))
    (hs : Collapse.process limit s rt key t = .next s') :
    ∃ ps' es' cur' items', Explores D limit K ps' es' cur' items' s' := by
  have hout : Collapse.process limit s rt key t =
      .next { s with rt := rt, mode := .run (key - 1) [] (.call (heapRead rt t.val) 0) } := by
    unfold Collapse.process
    rw [ht]
  rw [hout] at hs
  obtain rfl := CollapseOutcome.next.inj hs
  have h : Has K rt [.word t d R] (0 + itemToks items) :=
    LinearHeap.Ledger.list_iff.mpr ⟨[ω], .cons hw .nil, by rwa [List.sum_singleton, zero_add]⟩
  obtain ⟨e, k, ⟨-, rfl⟩, h⟩ := Own.open₁ h 0 rfl (s := .inc) (by rw [ht]; rfl) rfl
  have h := (h.load 1 rfl).keep [3] (by decide) rfl
  exact ⟨ps, es, [p], items, hzero, hqueue, hcover, hprinted, herased, halong, p, e, k, rfl, hlim, hp,
    e, k, 0, .nil, h⟩

/-- Both sides of a superposition are queued. -/
theorem process_sup (ht : t.tag = .sup) (hw : Word K t d R ω) (hl : Linear K rt (ω + itemToks items))
    (hs : Collapse.process limit s rt key t = .next s') :
    ∃ ps' es' cur' items', Explores D limit K ps' es' cur' items' s' := by
  obtain ⟨cs, hlen, -, rfl, rfl⟩ := hw.node_inv (s := .sup t.ext) (by rw [ht]; rfl)
  obtain ⟨a, b, rfl⟩ := List.length_eq_two.mp hlen
  have he : nodeToks t.val [a, b] + itemToks items =
      {.own t.val (.cell a)} + ({.own (t.val + 1) (.cell b)} + itemToks items) := by
    rw [nodeToks, nodeToks, nodeToks]
    abel
  rw [he] at hl
  have h0 : t.val ≠ 0 :=
    hl.loc_ne_zero hzero (Multiset.mem_add.mpr (.inl (Multiset.mem_singleton_self _)))
  unfold Collapse.process at hs
  rw [ht] at hs
  dsimp only at hs
  cases hpush : (wspqPush s.ws ((key + 1) % 256) t.val).bind
      (wspqPush · ((key + 1) % 256) (t.val + 1)) with
  | none =>
    rw [hpush] at hs
    cases hs
  | some ws =>
    rw [hpush] at hs
    obtain rfl := CollapseOutcome.next.inj hs
    obtain ⟨ws₁, h₁, h₂⟩ := Option.bind_eq_some_iff.mp hpush
    have hq₁ := push_queue (p := p ++ [(t.ext, false)]) (c := a) hqueue h0 h₁
    have hq₂ := push_queue (p := p ++ [(t.ext, true)]) (c := b) hq₁ (Nat.succ_ne_zero _) h₂
    refine ⟨ps, es, [], _, hzero, hq₂, ?_, hprinted, herased, ?_, rfl, hlim, ?_⟩
    · have hsplit := (hcover.perm (List.perm_append_singleton p _)).split t.ext
      refine hsplit.perm (Multiset.coe_eq_coe.mp ?_)
      simp only [List.map_append, List.map_cons, List.map_nil, ← Multiset.coe_add,
        ← Multiset.cons_coe, ← Multiset.singleton_add, Multiset.coe_nil]
      abel
    · intro i hi
      rcases List.mem_append.mp hi with hi | hi
      · rcases List.mem_append.mp hi with hi | hi
        · exact halong i hi
        · rw [List.mem_singleton.mp hi]
          exact hp.choose false
      · rw [List.mem_singleton.mp hi]
        exact hp.choose true
    · have hitems (k : Nat) : itemToks ((items ++ [⟨k, t.val, p ++ [(t.ext, false)], a⟩]) ++
            [⟨k, t.val + 1, p ++ [(t.ext, true)], b⟩]) =
          {.own t.val (.cell a)} + ({.own (t.val + 1) (.cell b)} + itemToks items) := by
        simp only [itemToks, List.map_append, List.map_cons, List.map_nil, ← Multiset.coe_add,
          ← Multiset.cons_coe, ← Multiset.singleton_add, Multiset.coe_nil]
        abel
      rw [hitems]
      exact hl

/-- `cnf` has returned a term with the value past the path `p`. -/
theorem process_explores (hret : Returns K t d R ω) (hl : Linear K rt (ω + itemToks items))
    (hs : Collapse.process limit s rt key t = .next s') :
    ∃ ps' es' cur' items', Explores D limit K ps' es' cur' items' s' := by
  rcases hret with hpart | ⟨hera, hd, rfl⟩
  · by_cases hinc : t.tag = .inc
    · exact process_inc hzero hqueue hcover hprinted herased halong hlim hp hinc (hpart.inc_inv hinc) hl hs
    by_cases hsup : t.tag = .sup
    · exact process_sup hzero hqueue hcover hprinted herased halong hlim hp hsup (hpart.sup_inv hsup) hl hs
    have hprint : Printed D (rt, t) p := by
      refine ⟨hinc, fun x hx => ?_⟩
      obtain ⟨y, hy⟩ := hp.exists_eq x hx
      rw [hy]
      exact (hpart.done hsup).prints hl (Multiset.le_add_right _ _) y
    have hout : Collapse.process limit s rt key t = .next { s with
        rt := rt
        out := if s.out.length + 1 ≤ limit then s.out ++ [(rt, t)] else s.out
        mode := if s.out.length + 1 ≥ limit then .stop else .pop } := by
      unfold Collapse.process
      have hera := hpart.tag_ne_era
      cases ht : t.tag <;> first | rfl | exact absurd ht ‹_›
    rw [hout] at hs
    obtain rfl := CollapseOutcome.next.inj hs
    have hcover' : ExactCover ((ps ++ [p]) ++ es ++ items.map Item.path ++ []) := by
      refine hcover.perm (Multiset.coe_eq_coe.mp ?_)
      simp only [← Multiset.coe_add, ← Multiset.cons_coe, ← Multiset.singleton_add, Multiset.coe_nil]
      abel
    have hprinted' : List.Forall₂ (Printed D) (s.out ++ [(rt, t)]) (ps ++ [p]) :=
      List.rel_append hprinted (.cons hprint .nil)
    refine ⟨ps ++ [p], es, [], items, hzero, hqueue, hcover', ?_, herased, halong, ?_⟩
    · dsimp only
      rw [if_pos (by omega)]
      exact hprinted'
    · dsimp only
      rw [if_pos (show s.out.length + 1 ≤ limit by omega)]
      split_ifs with hge
      · refine ⟨rfl, fun hlt => ?_⟩
        rw [List.length_append, List.length_singleton] at hlt
        omega
      · refine ⟨rfl, ?_, LinearHeap.Meaning.Inv.drop hl hpart.not_pins⟩
        rw [List.length_append, List.length_singleton]
        omega
  · have hout : Collapse.process limit s rt key t = .next { s with rt := rt, mode := .pop } := by
      unfold Collapse.process
      rw [hera]
    rw [hout] at hs
    obtain rfl := CollapseOutcome.next.inj hs
    have hcover' : ExactCover (ps ++ (es ++ [p]) ++ items.map Item.path ++ []) := by
      refine hcover.perm (Multiset.coe_eq_coe.mp ?_)
      simp only [← Multiset.coe_add, ← Multiset.cons_coe, ← Multiset.singleton_add, Multiset.coe_nil]
      abel
    refine ⟨ps, es ++ [p], [], items, hzero, hqueue, hcover', hprinted, ?_, halong, rfl, hlim,
      by rwa [zero_add] at hl⟩
    intro q hq
    rcases List.mem_append.mp hq with hq | hq
    · exact herased q hq
    · rw [List.mem_singleton.mp hq]
      intro x hx
      obtain ⟨y, hy⟩ := hp.exists_eq x hx
      rw [hy]
      exact hd y

end Process

/-- A step of the collapser goes on with the exploration. -/
theorem Explores.step (h : Explores D limit K ps es cur items s)
    (hs : Collapse.step book limit s = .next s') :
    ∃ K' ps' es' cur' items', Explores D limit K' ps' es' cur' items' s' := by
  obtain ⟨rt, ws, out, md⟩ := s
  cases md with
  | pop =>
    obtain ⟨cur', items', h'⟩ := h.pop rfl hs
    exact ⟨K, ps, es, cur', items', h'⟩
  | run key calls md =>
    obtain ⟨hzero, hqueue, hcover, hprinted, herased, halong, p, d, R, rfl, hlim, hp, hw⟩ := h
    unfold Collapse.step at hs
    dsimp only at hs
    rcases cnf_working book itemToks_not_pins hw with
      ⟨c', K', hc, hK, hw'⟩ | hc | ⟨rt', t, ω, hc, hret, hl⟩
    · rw [hc] at hs
      obtain rfl := CollapseOutcome.next.inj hs
      have hzero' : K' 0 ≠ none := by
        obtain ⟨c, hc⟩ := Option.ne_none_iff_exists'.mp hzero
        rw [hK _ _ hc]
        exact Option.some_ne_none c
      exact ⟨K', ps, es, [p], items, hzero', hqueue, hcover, hprinted, herased, halong, p, d, R, rfl,
        hlim, hp, hw'⟩
    · rw [hc] at hs
      cases hs
    · rw [hc] at hs
      exact ⟨K, process_explores hzero hqueue hcover hprinted herased halong hlim hp hret hl hs⟩
  | stop => cases hs

theorem Explores.exit (h : Explores D limit K ps es cur items s) {f : Fault}
    (hs : Collapse.step book limit s = .exit f) : f = .outOfHeap := by
  obtain ⟨rt, ws, out, md⟩ := s
  unfold Collapse.step at hs
  cases md with
  | pop =>
    dsimp only at hs
    split at hs <;> cases hs
  | run key calls md =>
    obtain ⟨-, -, -, -, -, -, p, d, R, rfl, -, -, hw⟩ := h
    dsimp only at hs
    rcases cnf_working book itemToks_not_pins hw with
      ⟨c', K', hc, -, -⟩ | hc | ⟨rt', t, ω, hc, -, -⟩
    · rw [hc] at hs
      cases hs
    · rw [hc] at hs
      exact (CollapseOutcome.exit.inj hs).symm
    · rw [hc] at hs
      unfold Collapse.process at hs
      dsimp only at hs
      split at hs
      case h_2 => split at hs <;> cases hs
      all_goals cases hs
  | stop => cases hs

/-! ### Runs -/

variable {loc : Nat} {e : Expr}

end Hvm.Choice
