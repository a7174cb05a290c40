import Hvm.Parse.Linearise

/-! The dup chain around a rewritten body, and what `parse_auto_dup` must give: each side
of the chain used once, every other reference still on its own binder, and the original
body back when the target is put in place of the links. -/

namespace Hvm

open Effect

variable {d : DupChain}

/-! ### References and their binders -/

/-- What becomes of a word, told by the binders its variable designates before and after. -/
def Relinked (d : DupChain) (ds : List Term) (env env' : List Term) (w w' : Term) : Prop :=
  if d.hits w then ∃ i ≤ d.n, w' = d.link i ∧ binderAt env' w'.val = ds[min i (d.n - 1)]?
  else if isQuoted w then
    w' = (if d.base < w.val then d.shift w else w) ∧ binderAt env' w'.val = binderAt env w.val
  else w' = w

/-- The environments of a place in the body before and after: `ds` is put in at the base
level. -/
def Inserted (d : DupChain) (ds env env' : List Term) : Prop :=
  ∃ outer inner, outer.length = d.base ∧ env = outer ++ inner ∧ env' = outer ++ ds ++ inner

theorem Inserted.field {ds env env' : List Term} (h : Inserted d ds env env') (w : Term)
    (i : Nat) : Inserted d ds (fieldEnv w env i) (fieldEnv w env' i) := by
  unfold fieldEnv
  split
  · obtain ⟨outer, inner, hlen, rfl, rfl⟩ := h
    exact ⟨outer, inner ++ [w], hlen, by simp, by simp⟩
  · exact h

theorem binderAt_low {outer inner : List Term} {l : Nat} (h : l ≤ outer.length) :
    binderAt (outer ++ inner) l = binderAt outer l := by
  unfold binderAt
  by_cases hl : l = 0
  · rw [if_pos hl, if_pos hl]
  · rw [if_neg hl, if_neg hl, List.getElem?_append_left (by omega)]

theorem binderAt_high {outer inner : List Term} {l : Nat} (h : outer.length < l) :
    binderAt (outer ++ inner) l = inner[l - outer.length - 1]? := by
  unfold binderAt
  rw [if_neg (by omega), List.getElem?_append_right (by omega)]
  congr 1
  omega

theorem DupChain.Step.relinked (hd : d.Ok) {ds env env' : List Term} {w w' : Term}
    (hds : ds.length = d.n) (henv : Inserted d ds env env') (h : d.Step w w') :
    Relinked d ds env env' w w' := by
  obtain ⟨outer, inner, hlen, rfl, rfl⟩ := henv
  have hpos := hd.pos
  unfold DupChain.Step at h
  unfold Relinked
  by_cases hh : d.hits w
  · rw [if_pos hh] at h ⊢
    obtain ⟨i, hi, rfl⟩ := h
    refine ⟨i, hi, rfl, ?_⟩
    have hval : (d.link i).val = d.base + 1 + min i (d.n - 1) := by
      unfold DupChain.link
      split
      · simp only [termNew]
        omega
      · simp only [termNew]
        omega
    rw [List.append_assoc, binderAt_high (by omega), hval, hlen,
      List.getElem?_append_left (by omega)]
    congr 1
    omega
  · rw [if_neg hh] at h ⊢
    by_cases hq : isQuoted w
    · rw [if_pos hq]
      by_cases hb : d.base < w.val
      · rw [if_pos ⟨hq, hb⟩] at h
        rw [if_pos hb]
        refine ⟨h, ?_⟩
        subst h
        have hval : (d.shift w).val = w.val + d.n := rfl
        rw [hval, binderAt_high (by simp only [List.length_append]; omega),
          binderAt_high (by omega)]
        congr 1
        simp only [List.length_append]
        omega
      · rw [if_neg fun hc => hb hc.2] at h
        rw [if_neg hb]
        refine ⟨h, ?_⟩
        subst h
        rw [List.append_assoc, binderAt_low (by omega), binderAt_low (by omega)]
    · rw [if_neg fun hc => hq hc.1] at h
      rw [if_neg hq]
      exact h

theorem DupChain.Step.of_not_quoted {w w' : Term} (hd : d.Ok) (h : d.Step w w')
    (hq : ¬ isQuoted w) : w' = w := by
  unfold DupChain.Step at h
  rwa [if_neg fun hh => hq (isQuoted_of_hits hd hh), if_neg fun hc => hq hc.1] at h

theorem DupChain.Step.quoted {w w' : Term} (h : d.Step w w') (hq : isQuoted w) :
    isQuoted w' := by
  unfold DupChain.Step at h
  split at h
  · obtain ⟨i, -, rfl⟩ := h
    exact isQuoted_link i
  · split at h
    · subst h
      exact hq
    · subst h
      exact hq

variable {rt rt' : Rt} {loc : Nat} {F F' : Fields}

/-- Fields whose cells took a step each are stored as they are read again, and match. -/
theorem Fields.Stored.reread_match (hd : d.Ok) {ds : List Term} (hds : ds.length = d.n)
    {E E' : Nat → List Term} (hE : ∀ i, Inserted d ds (E i) (E' i)) (h : F.Stored rt loc)
    (hstep : ∀ c ∈ F.cells loc, d.Step (heapRead rt c) (heapRead rt' c)) :
    (F.reread rt' loc).Stored rt' loc ∧ F.Match (Relinked d ds) E E' (F.reread rt' loc) ∧
      (F.reread rt' loc).words = (F.cells loc).map (heapRead rt') := by
  induction F generalizing loc E E' with
  | nil => exact ⟨trivial, trivial, rfl⟩
  | cons w sub rest ihs ihr =>
    obtain ⟨hw, hlen, hsub, hrest⟩ := h
    have hhead := hstep loc List.mem_cons_self
    rw [hw] at hhead
    have hstepSub : ∀ c ∈ sub.cells w.val, d.Step (heapRead rt c) (heapRead rt' c) := fun c hc =>
      hstep c (List.mem_cons_of_mem _ (List.mem_append_left _ hc))
    have hstepRest : ∀ c ∈ rest.cells (loc + 1), d.Step (heapRead rt c) (heapRead rt' c) :=
      fun c hc => hstep c (List.mem_cons_of_mem _ (List.mem_append_right _ hc))
    obtain ⟨hsr, hmr, hwr⟩ := ihr (fun i => hE (i + 1)) hrest hstepRest
    by_cases hq : Hvm.isQuoted w
    · have hnil : sub = .nil := Fields.eq_nil_of_length (hlen.trans (termArity_of_isQuoted hq))
      subst hnil
      have harity := termArity_of_isQuoted (hhead.quoted hq)
      refine ⟨⟨rfl, harity.symm, trivial, hsr⟩, ⟨hhead.relinked hd hds (hE 0), trivial, hmr⟩, ?_⟩
      simp only [reread, words, cells, List.nil_append, List.map_cons, hwr]
    · have hsame := hhead.of_not_quoted hd hq
      have hrel := hhead.relinked hd hds (hE 0)
      obtain ⟨hss, hms, hws⟩ := ihs (fun i => (hE 0).field w i) hsub hstepSub
      refine ⟨⟨rfl, ?_, ?_, hsr⟩, ⟨hrel, ?_, hmr⟩, ?_⟩
      · rw [length_reread, hlen, hsame]
      · rw [hsame]
        exact hss
      · rw [hsame]
        exact hms
      · simp only [reread, words, cells, List.map_cons, List.map_append, hwr, hws]

/-- Conversely, matching stored fields took such a step in every cell. -/
theorem Fields.Match.cell {R : List Term → List Term → Term → Term → Prop}
    (hR : ∀ env env' w w', R env env' w w' → ¬ Hvm.isQuoted w → w' = w)
    {E E' : Nat → List Term} (h : F.Match R E E' F') (hF : F.Stored rt loc)
    (hF' : F'.Stored rt' loc) :
    ∀ c ∈ F.cells loc, ∃ env env', R env env' (heapRead rt c) (heapRead rt' c) := by
  induction F generalizing loc E E' F' with
  | nil => exact fun c hc => (List.not_mem_nil hc).elim
  | cons w sub rest ihs ihr =>
    cases F' with
    | nil => exact h.elim
    | cons w' sub' rest' =>
      obtain ⟨hw, hlen, hsub, hrest⟩ := hF
      obtain ⟨hw', hlen', hsub', hrest'⟩ := hF'
      obtain ⟨hhead, hms, hmr⟩ := h
      intro c hc
      rcases List.mem_cons.mp hc with rfl | hc
      · rw [hw, hw']
        exact ⟨_, _, hhead⟩
      · rcases List.mem_append.mp hc with hc | hc
        · by_cases hq : Hvm.isQuoted w
          · rw [Fields.eq_nil_of_length (hlen.trans (termArity_of_isQuoted hq))] at hc
            exact (List.not_mem_nil hc).elim
          · have hsame := hR _ _ _ _ hhead hq
            rw [hsame] at hsub'
            exact ihs hms hsub hsub' c hc
        · exact ihr hmr hrest hrest' c hc

/-! ### Building the chain -/

/-- The dups of the chain from the `i`-th on, each above the next, down to the body. -/
def ChainOf (d : DupChain) (rt : Rt) : Nat → List Term → Term → Term → Prop
  | _, [], res, body => res = body
  | i, t :: ds, res, body =>
    res = t ∧ t.sub = false ∧ t.tag = .dup ∧ t.ext = d.lab + i ∧ heapRead rt t.val = d.value i ∧
      ChainOf d rt (i + 1) ds (heapRead rt (t.val + 1)) body

theorem ChainOf.frame {i : Nat} {ds : List Term} {res body : Term}
    (h : ChainOf d rt i ds res body)
    (hkeep : ∀ t ∈ ds, heapRead rt' t.val = heapRead rt t.val ∧
      heapRead rt' (t.val + 1) = heapRead rt (t.val + 1)) : ChainOf d rt' i ds res body := by
  induction ds generalizing i res with
  | nil => exact h
  | cons t ds ih =>
    obtain ⟨hres, hsub, htag, hext, hval, hrest⟩ := h
    obtain ⟨h0, h1⟩ := hkeep t List.mem_cons_self
    refine ⟨hres, hsub, htag, hext, h0.trans hval, ?_⟩
    rw [h1]
    exact ih hrest fun x hx => hkeep x (List.mem_cons_of_mem _ hx)

/-- The loop puts `i` dups around a chain that starts at the `i`-th, in fresh cells. -/
theorem autoDupChain_ok (hd : d.Ok) {i : Nat} {t res body : Term} {ds : List Term}
    {p p' : Parse} (hi : i ≤ d.n) (hc : ChainOf d p.rt i ds t body)
    (hb : ∀ x ∈ ds, x.val + 1 < p.rt.next) (h : autoDupChain d i t p = .ok (res, p')) :
    ∃ ds', ds'.length = i + ds.length ∧ ChainOf d p'.rt 0 ds' res body ∧
      (∀ x ∈ ds', x.val + 1 < p'.rt.next) ∧
      (∀ c < p.rt.next, heapRead p'.rt c = heapRead p.rt c) ∧
      p'.rt.next = p.rt.next + 2 * i ∧ p' = { p with rt := p'.rt } := by
  induction i generalizing t ds p with
  | zero =>
    obtain ⟨rfl, rfl⟩ := pure_ok.mp h
    exact ⟨ds, by simp, hc, hb, fun _ _ => rfl, rfl, rfl⟩
  | succ i ih =>
    simp only [autoDupChain, bind_ok] at h
    obtain ⟨dup, q, hbuild, h⟩ := h
    obtain ⟨-, hdup, hq⟩ := build_ok.mp hbuild
    have hnext : q.rt.next = p.rt.next + 2 := by
      rw [hq]
      exact termNewNode_next p.rt .dup (d.lab + i) [d.value i, t]
    have hframe : ∀ c < p.rt.next, heapRead q.rt c = heapRead p.rt c := by
      intro c hlt
      rw [hq]
      exact termNewNode_frame p.rt .dup (d.lab + i) [d.value i, t] hlt
    have hval : heapRead q.rt p.rt.next = d.value i := by
      rw [hq]
      exact termNewNode_read p.rt .dup (d.lab + i) [d.value i, t] (i := 0) (by simp)
    have hbod : heapRead q.rt (p.rt.next + 1) = t := by
      rw [hq]
      exact termNewNode_read p.rt .dup (d.lab + i) [d.value i, t] (i := 1) (by simp)
    have hdupEq : dup = ⟨false, .dup, d.lab + i, p.rt.next⟩ := by
      have hlabs := hd.labs
      rw [hdup]
      show termNew false .dup (d.lab + i) p.rt.next = _
      simp only [termNew, Nat.mod_eq_of_lt (show d.lab + i < extMask + 1 by omega)]
    have hcold : ChainOf d q.rt (i + 1) ds t body := hc.frame fun x hx => by
      have hlt := hb x hx
      exact ⟨hframe _ (by omega), hframe _ hlt⟩
    have hcnew : ChainOf d q.rt i (dup :: ds) dup body := by
      subst hdupEq
      refine ⟨rfl, rfl, rfl, rfl, hval, ?_⟩
      rw [hbod]
      exact hcold
    have hbnew : ∀ x ∈ dup :: ds, x.val + 1 < q.rt.next := by
      intro x hx
      rcases List.mem_cons.mp hx with rfl | hx
      · rw [hdupEq, hnext]
        exact Nat.lt_succ_self _
      · have hlt := hb x hx
        omega
    obtain ⟨ds', hlen, hchain, hbound, hkeep, hn, hp⟩ := ih (by omega) hcnew hbnew h
    refine ⟨ds', by simpa [Nat.add_assoc, Nat.add_comm 1] using hlen, hchain, hbound, ?_, ?_, ?_⟩
    · intro c hlt
      rw [hkeep c (by omega), hframe c hlt]
    · omega
    · rw [hp, hq]

/-! ### What a linearised body is -/

/-- The words the chain's dups duplicate. -/
def DupChain.values (d : DupChain) : List Term := (List.range d.n).map d.value

/-- The two variables of the `i`-th dup of the chain. -/
def DupChain.side (d : DupChain) (side : Bool) (i : Nat) : Term :=
  termNew false (if side then .bj1 else .bj0) (d.lab + i) (d.base + 1 + i)

structure LinearForm (d : DupChain) (rt : Rt) (body res : Term) (ds : List Term)
    (F F' : Fields) : Prop where
  stored : F'.Stored rt body.val
  dups : ds.length = d.n
  chain : ChainOf d rt 0 ds res body
  linked : ∀ env, env.length = d.base →
    F.Match (Relinked d ds) (fieldEnv body env) (fieldEnv body (env ++ ds)) F'
  sides : ∀ i < d.n, ∀ side, (d.values ++ F'.words).count (d.side side i) = 1
  target : (d.values ++ F'.words).countP d.hits = 1
  others : ∀ t : DupTarget, t.lvl ≤ d.base → t.hits d.target = false →
    (d.values ++ F'.words).countP t.hits = F.words.countP t.hits
  restored : F'.words.map d.restore = F.words

theorem value_zero (d : DupChain) : d.value 0 = d.target := rfl

theorem value_succ (d : DupChain) (i : Nat) : d.value (i + 1) = d.side true i := by
  simp only [DupChain.value, DupChain.side, Nat.add_one_ne_zero, if_false, if_true]
  congr 1
  omega

theorem side_false_eq_link {i : Nat} (hi : i < d.n) : d.side false i = d.link i := by
  rw [DupChain.link, if_pos hi]
  rfl

theorem side_true_eq_link (hd : d.Ok) : d.side true (d.n - 1) = d.link d.n := by
  have hpos := hd.pos
  rw [DupChain.link, if_neg (Nat.lt_irrefl _)]
  simp only [DupChain.side, if_true]
  congr 1 <;> omega

theorem values_nodup (hd : d.Ok) : d.values.Nodup := by
  have hl := hd.lvl
  refine List.Nodup.map_on ?_ List.nodup_range
  intro i _ j _ h
  have hval (k : Nat) : (d.value k).val = if k = 0 then d.lvl else d.base + k := by
    unfold DupChain.value
    split <;> rfl
  have he := congrArg Term.val h
  rw [hval, hval] at he
  split at he <;> split at he <;> omega

theorem mem_values {w : Term} : w ∈ d.values ↔ ∃ i < d.n, d.value i = w := by
  simp [DupChain.values]

/-- A test that no variable above the base level passes finds in the chain's values at most
the target. -/
theorem values_countP (hd : d.Ok) {P : Term → Bool}
    (hP : ∀ w, isQuoted w → d.base < w.val → P w = false) :
    d.values.countP P = if P d.target then 1 else 0 := by
  have hpos := hd.pos
  obtain ⟨n, hn⟩ : ∃ n, d.n = n + 1 := ⟨d.n - 1, by omega⟩
  have htail : ((List.range n).map fun i => d.value (i + 1)).countP P = 0 := by
    refine List.countP_eq_zero.mpr fun w hw => ?_
    obtain ⟨i, -, rfl⟩ := List.mem_map.mp hw
    rw [hP (d.value (i + 1))]
    · exact Bool.false_ne_true
    · rw [value_succ]
      rfl
    · rw [value_succ]
      show d.base < d.base + 1 + i
      omega
  rw [DupChain.values, hn, List.range_succ_eq_map, List.map_cons, List.map_map, List.countP_cons]
  show List.countP P ((List.range n).map fun i => d.value (i + 1)) + _ = _
  rw [htail, value_zero, Nat.zero_add]

theorem values_count_side (hd : d.Ok) {i : Nat} (side : Bool) :
    d.values.count (d.side side i) = if side ∧ i + 1 < d.n then 1 else 0 := by
  have hl := hd.lvl
  rw [(values_nodup hd).count]
  congr 1
  rw [mem_values, eq_iff_iff]
  constructor
  · rintro ⟨j, hj, he⟩
    have hval := congrArg Term.val he
    have htag := congrArg Term.tag he
    cases j with
    | zero =>
      have hv : d.lvl = d.base + 1 + i := hval
      omega
    | succ j =>
      rw [value_succ] at hval htag
      have hv : d.base + 1 + j = d.base + 1 + i := hval
      obtain rfl : j = i := by omega
      cases side with
      | false => cases htag
      | true => exact ⟨rfl, hj⟩
  · rintro ⟨rfl, hi⟩
    exact ⟨i + 1, hi, value_succ d i⟩

/-- Relinked words together with the chain's values use each side of the chain once. -/
theorem relink_sides (hd : d.Ok) {ws : List Term} (hw : ws.countP d.hits = d.n + 1) {i : Nat}
    (hi : i < d.n) (side : Bool) :
    (d.values ++ d.relink 0 ws).count (d.side side i) = 1 := by
  rw [List.count_append, values_count_side hd]
  have hlink (j : Nat) (hj : j ≤ d.n) : (d.relink 0 ws).count (d.link j) = 1 := by
    rw [relink_count_link hd hj (by omega), if_pos (by omega)]
  cases side with
  | false =>
    rw [side_false_eq_link hi, hlink i (by omega), if_neg (by simp)]
  | true =>
    by_cases hlast : i + 1 < d.n
    · rw [if_pos ⟨rfl, hlast⟩]
      have hnone : d.side true i ∉ d.relink 0 ws := by
        intro hm
        obtain ⟨k, hk, he⟩ := List.mem_iff_getElem.mp hm
        have hstep := relink_step (d := d) 0 ws (by omega)
        have hlen := hstep.length_eq
        have hget := (List.forall₂_iff_get.mp hstep).2 k (by omega) hk
        simp only [List.get_eq_getElem, he] at hget
        unfold DupChain.Step at hget
        split at hget
        · obtain ⟨j, hj, hj'⟩ := hget
          unfold DupChain.link at hj'
          split at hj'
          · cases congrArg Term.tag hj'
          · have hv : d.base + 1 + i = d.base + d.n := congrArg Term.val hj'
            omega
        · split at hget
          · rename_i hq
            have hv : d.base + 1 + i = _ + d.n := congrArg Term.val hget
            omega
          · rename_i hq
            refine hq ⟨?_, ?_⟩
            · rw [← hget]
              rfl
            · rw [← hget]
              show d.base < d.base + 1 + i
              omega
      rw [List.count_eq_zero_of_not_mem hnone]
    · obtain rfl : i = d.n - 1 := by omega
      rw [if_neg (by omega), side_true_eq_link hd, hlink d.n (Nat.le_refl _)]

/-- Any other variable at or below the base level occurs in the chain and the relinked
words as often as before. -/
theorem relink_others (hd : d.Ok) {ws : List Term} {t : DupTarget}
    (hplain : ∀ w ∈ ws, RefPlain w) (hlvl : t.lvl ≤ d.base) (hnot : t.hits d.target = false) :
    (d.values ++ d.relink 0 ws).countP t.hits = ws.countP t.hits := by
  have habove (w : Term) (_ : isQuoted w) (hb : d.base < w.val) : t.hits w = false := by
    refine Bool.eq_false_iff.mpr fun hh => ?_
    simp only [DupTarget.hits, decide_eq_true_eq] at hh
    omega
  rw [List.countP_append, values_countP hd habove, if_neg (by simp [hnot]),
    relink_countP hd habove, Nat.zero_add]
  refine List.countP_congr fun w hw => ?_
  by_cases hh : d.hits w
  · rw [eq_target_of_hits hd (hplain w hw) hh]
    simp [hnot]
  · simp [hh]

end Hvm
