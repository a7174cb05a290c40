import Hvm.Parse.Bytes

/-! The names of binders in printed terms (`print/term.c`): a lambda is known by the location of
its body, a dup by the location of its shared term, and each gets its name when it is first met. -/

namespace Hvm

/-- The loop of `print_alpha_name`. The last letter written to `buf` stands first, as it does
in what is printed. -/
def alphaLoop (base : UInt8) : Nat → Text → Text
  | 0, buf => buf
  | n + 1, buf => alphaLoop base (n / 26) ((base + UInt8.ofNat (n % 26)) :: buf)
termination_by n => n
decreasing_by omega

/-- `print_alpha_name`. -/
def printAlphaName (n : Nat) (base : UInt8) : Text :=
  if n = 0 then [byte '_'] else alphaLoop base n []

def printLamName (name : Nat) : Text := printAlphaName name (byte 'a')

def printDupName (name : Nat) : Text := printAlphaName name (byte 'A')

structure LamBind where
  loc : Nat
  name : Nat

structure DupBind where
  loc : Nat
  name : Nat
  lab : Nat

/-- The naming tables of `PrintState`, and its counters. -/
structure PrintState where
  lams : List LamBind
  dups : List DupBind
  nextLam : Nat
  nextDup : Nat

def printNameMax : Nat := 65536

def printStateInit : PrintState := ⟨[], [], 1, 1⟩

/-- `print_state_lam`; `none` where it exits. -/
def printStateLam (st : PrintState) (loc : Nat) : Option (Nat × PrintState) :=
  match st.lams.find? (·.loc = loc) with
  | some bind => some (bind.name, st)
  | none =>
    if printNameMax ≤ st.lams.length then none
    else some (st.nextLam,
      { st with lams := st.lams ++ [⟨loc, st.nextLam⟩], nextLam := st.nextLam + 1 })

/-- `print_state_dup`. -/
def printStateDup (st : PrintState) (loc lab : Nat) : Option (Nat × PrintState) :=
  match st.dups.find? (·.loc = loc) with
  | some bind => some (bind.name, st)
  | none =>
    if printNameMax ≤ st.dups.length then none
    else some (st.nextDup,
      { st with dups := st.dups ++ [⟨loc, st.nextDup, lab⟩], nextDup := st.nextDup + 1 })

/-- A place where the printer writes a name. -/
inductive Mention where
  | lam (loc : Nat)
  | dup (loc lab : Nat)

def printMention (st : PrintState) : Mention → Option (Text × PrintState)
  | .lam loc => (printStateLam st loc).map fun (name, st) => (printLamName name, st)
  | .dup loc lab => (printStateDup st loc lab).map fun (name, st) => (printDupName name, st)

/-- The names written one after the other. -/
def printMentions (st : PrintState) : List Mention → Option (List Text × PrintState)
  | [] => some ([], st)
  | m :: ms => do
    let (text, st) ← printMention st m
    let (texts, st) ← printMentions st ms
    return (text :: texts, st)

/-! ### Alphabetic names -/

/-- The number that a letter adds to. -/
def alphaValue (base : UInt8) (n : Nat) (c : UInt8) : Nat := n * 26 + (c - base).toNat + 1

variable {base : UInt8} {n m : Nat}

theorem alphaLoop_value (base : UInt8) (n : Nat) (buf : Text) :
    (alphaLoop base n buf).foldl (alphaValue base) 0 = buf.foldl (alphaValue base) n := by
  induction n using Nat.strongRecOn generalizing buf with
  | ind n ih =>
    cases n with
    | zero => rw [alphaLoop]
    | succ n =>
      have hlt : n / 26 < n + 1 := by omega
      have hmod : (UInt8.ofNat (n % 26)).toNat = n % 26 := by
        rw [UInt8.toNat_ofNat']
        omega
      have hval : alphaValue base (n / 26) (base + UInt8.ofNat (n % 26)) = n + 1 := by
        rw [alphaValue, UInt8.add_comm, UInt8.add_sub_cancel, hmod]
        omega
      rw [alphaLoop, ih _ hlt, List.foldl_cons, hval]

theorem alphaLoop_letters (base : UInt8) (n : Nat) (buf : Text) :
    ∀ c ∈ alphaLoop base n buf, c ∈ buf ∨ ∃ k < 26, c = base + UInt8.ofNat k := by
  induction n using Nat.strongRecOn generalizing buf with
  | ind n ih =>
    intro c hc
    cases n with
    | zero =>
      rw [alphaLoop] at hc
      exact .inl hc
    | succ n =>
      have hlt : n / 26 < n + 1 := by omega
      rw [alphaLoop] at hc
      rcases ih _ hlt _ c hc with hc | hc
      · rcases List.mem_cons.mp hc with rfl | hc
        · exact .inr ⟨n % 26, Nat.mod_lt _ (by decide), rfl⟩
        · exact .inl hc
      · exact .inr hc

theorem alphaName_letters (hn : n ≠ 0) {c : UInt8} (hc : c ∈ printAlphaName n base) :
    ∃ k < 26, c = base + UInt8.ofNat k := by
  rw [printAlphaName, if_neg hn] at hc
  exact (alphaLoop_letters base n [] c hc).resolve_left List.not_mem_nil

theorem alphaName_ne_nil (hn : n ≠ 0) : printAlphaName n base ≠ [] := by
  intro h
  rw [printAlphaName, if_neg hn] at h
  have hval := alphaLoop_value base n []
  rw [h] at hval
  exact hn hval.symm

theorem alphaName_inj (hn : n ≠ 0) (hm : m ≠ 0) (h : printAlphaName n base = printAlphaName m base) :
    n = m := by
  rw [printAlphaName, printAlphaName, if_neg hn, if_neg hm] at h
  have hval := alphaLoop_value base n []
  rw [h] at hval
  exact (hval.symm.trans (alphaLoop_value base m []))

/-- A small and a capital letter differ. -/
theorem letters_apart {j k : Nat} (hj : j < 26) (hk : k < 26) :
    byte 'a' + UInt8.ofNat j ≠ byte 'A' + UInt8.ofNat k := by
  intro h
  have hh := congrArg UInt8.toNat h
  have ha : (byte 'a').toNat = 97 := by decide
  have hA : (byte 'A').toNat = 65 := by decide
  rw [UInt8.toNat_add, UInt8.toNat_add, ha, hA, UInt8.toNat_ofNat', UInt8.toNat_ofNat'] at hh
  omega

theorem names_apart (hn : n ≠ 0) (hm : m ≠ 0) : printLamName n ≠ printDupName m := by
  intro h
  cases hl : printLamName n with
  | nil => exact alphaName_ne_nil hn hl
  | cons c cs =>
    have hc : c ∈ printLamName n := by
      rw [hl]
      exact List.mem_cons_self
    obtain ⟨j, hj, rfl⟩ := alphaName_letters hn hc
    rw [h] at hc
    obtain ⟨k, hk, he⟩ := alphaName_letters hm hc
    exact letters_apart hj hk he

/-! ### The tables -/

/-- The binder a name is for: the location of a lambda's body, or of a shared term. -/
def Mention.binder : Mention → Nat ⊕ Nat
  | .lam loc => .inl loc
  | .dup loc _ => .inr loc

/-- The entries of the tables, by binder. -/
def PrintState.Names (st : PrintState) : Nat ⊕ Nat → Nat → Prop
  | .inl loc, name => (⟨loc, name⟩ : LamBind) ∈ st.lams
  | .inr loc, name => ∃ lab, (⟨loc, name, lab⟩ : DupBind) ∈ st.dups

def nameText : Nat ⊕ Nat → Nat → Text
  | .inl _, name => printLamName name
  | .inr _, name => printDupName name

/-- Different binders of one table have different names, all of them handed out. -/
structure PrintState.Distinct (st : PrintState) : Prop where
  lams : st.lams.Pairwise fun a b => a.loc ≠ b.loc ∧ a.name ≠ b.name
  dups : st.dups.Pairwise fun a b => a.loc ≠ b.loc ∧ a.name ≠ b.name
  lamNames : ∀ b ∈ st.lams, b.name ≠ 0 ∧ b.name < st.nextLam
  dupNames : ∀ b ∈ st.dups, b.name ≠ 0 ∧ b.name < st.nextDup
  nextLam : st.nextLam ≠ 0
  nextDup : st.nextDup ≠ 0

variable {st st' : PrintState} {loc lab name : Nat}

theorem printStateInit_distinct : printStateInit.Distinct where
  lams := .nil
  dups := .nil
  lamNames := fun b hb => (by cases hb)
  dupNames := fun b hb => (by cases hb)
  nextLam := Nat.one_ne_zero
  nextDup := Nat.one_ne_zero

/-- What `print_state_lam` does: the name is in the table, and the table only grows. -/
theorem printStateLam_spec (h : st.Distinct) (hr : printStateLam st loc = some (name, st')) :
    st'.Distinct ∧ (⟨loc, name⟩ : LamBind) ∈ st'.lams ∧ st.lams ⊆ st'.lams ∧ st.dups ⊆ st'.dups := by
  unfold printStateLam at hr
  split at hr
  next bind hf =>
    obtain ⟨rfl, rfl⟩ := Prod.mk.inj (Option.some.inj hr)
    have hloc : bind.loc = loc := by simpa using List.find?_some hf
    refine ⟨h, ?_, List.Subset.refl _, List.Subset.refl _⟩
    rw [← hloc]
    exact List.mem_of_find?_eq_some hf
  next hf =>
    split_ifs at hr
    obtain ⟨rfl, rfl⟩ := Prod.mk.inj (Option.some.inj hr)
    refine ⟨⟨?_, h.dups, fun b hb => ?_, h.dupNames, Nat.succ_ne_zero _, h.nextDup⟩,
      List.mem_append_right _ (List.mem_singleton_self _), List.subset_append_left _ _, List.Subset.refl _⟩
    · refine List.pairwise_append.mpr ⟨h.lams, List.pairwise_singleton _ _, fun b hb c hc => ?_⟩
      rw [List.mem_singleton.mp hc]
      refine ⟨fun he => ?_, (h.lamNames b hb).2.ne⟩
      exact List.find?_eq_none.mp hf b hb (decide_eq_true he)
    · rcases List.mem_append.mp hb with hb | hb
      · exact ⟨(h.lamNames b hb).1, Nat.lt_succ_of_lt (h.lamNames b hb).2⟩
      · rw [List.mem_singleton.mp hb]
        exact ⟨h.nextLam, Nat.lt_succ_self _⟩

theorem printStateDup_spec (h : st.Distinct) (hr : printStateDup st loc lab = some (name, st')) :
    st'.Distinct ∧ (∃ lab, (⟨loc, name, lab⟩ : DupBind) ∈ st'.dups) ∧ st.lams ⊆ st'.lams ∧
      st.dups ⊆ st'.dups := by
  unfold printStateDup at hr
  split at hr
  next bind hf =>
    obtain ⟨rfl, rfl⟩ := Prod.mk.inj (Option.some.inj hr)
    have hloc : bind.loc = loc := by simpa using List.find?_some hf
    refine ⟨h, ⟨bind.lab, ?_⟩, List.Subset.refl _, List.Subset.refl _⟩
    rw [← hloc]
    exact List.mem_of_find?_eq_some hf
  next hf =>
    split_ifs at hr
    obtain ⟨rfl, rfl⟩ := Prod.mk.inj (Option.some.inj hr)
    refine ⟨⟨h.lams, ?_, h.lamNames, fun b hb => ?_, h.nextLam, Nat.succ_ne_zero _⟩,
      ⟨lab, List.mem_append_right _ (List.mem_singleton_self _)⟩, List.Subset.refl _,
      List.subset_append_left _ _⟩
    · refine List.pairwise_append.mpr ⟨h.dups, List.pairwise_singleton _ _, fun b hb c hc => ?_⟩
      rw [List.mem_singleton.mp hc]
      refine ⟨fun he => ?_, (h.dupNames b hb).2.ne⟩
      exact List.find?_eq_none.mp hf b hb (decide_eq_true he)
    · rcases List.mem_append.mp hb with hb | hb
      · exact ⟨(h.dupNames b hb).1, Nat.lt_succ_of_lt (h.dupNames b hb).2⟩
      · rw [List.mem_singleton.mp hb]
        exact ⟨h.nextDup, Nat.lt_succ_self _⟩

theorem PrintState.Names.mono {b : Nat ⊕ Nat} (h : st.Names b name) (hl : st.lams ⊆ st'.lams)
    (hd : st.dups ⊆ st'.dups) : st'.Names b name := by
  cases b with
  | inl loc => exact hl h
  | inr loc =>
    obtain ⟨lab, h⟩ := h
    exact ⟨lab, hd h⟩

/-- One name is written. -/
theorem printMention_spec {m : Mention} {text : Text} (h : st.Distinct)
    (hr : printMention st m = some (text, st')) :
    st'.Distinct ∧ (∃ name, st'.Names m.binder name ∧ text = nameText m.binder name) ∧
      st.lams ⊆ st'.lams ∧ st.dups ⊆ st'.dups := by
  cases m with
  | lam loc =>
    obtain ⟨⟨name, st''⟩, hs, he⟩ := Option.map_eq_some_iff.mp hr
    obtain ⟨rfl, rfl⟩ := Prod.mk.inj he
    obtain ⟨hd, hmem, hl, hdup⟩ := printStateLam_spec h hs
    exact ⟨hd, ⟨name, hmem, rfl⟩, hl, hdup⟩
  | dup loc lab =>
    obtain ⟨⟨name, st''⟩, hs, he⟩ := Option.map_eq_some_iff.mp hr
    obtain ⟨rfl, rfl⟩ := Prod.mk.inj he
    obtain ⟨hd, hmem, hl, hdup⟩ := printStateDup_spec h hs
    exact ⟨hd, ⟨name, hmem, rfl⟩, hl, hdup⟩

/-- Every name written is in the tables at the end. -/
theorem printMentions_spec {ms : List Mention} {texts : List Text} (h : st.Distinct)
    (hr : printMentions st ms = some (texts, st')) :
    st'.Distinct ∧ List.Forall₂ (fun m text => ∃ name, st'.Names m.binder name ∧
        text = nameText m.binder name) ms texts ∧ st.lams ⊆ st'.lams ∧ st.dups ⊆ st'.dups := by
  induction ms generalizing st texts with
  | nil =>
    obtain ⟨rfl, rfl⟩ := Prod.mk.inj (Option.some.inj hr)
    exact ⟨h, .nil, List.Subset.refl _, List.Subset.refl _⟩
  | cons m ms ih =>
    obtain ⟨⟨text, st₁⟩, hm, hr⟩ := Option.bind_eq_some_iff.mp hr
    obtain ⟨⟨rest, st₂⟩, hms, hr⟩ := Option.bind_eq_some_iff.mp hr
    obtain ⟨rfl, rfl⟩ := Prod.mk.inj (Option.some.inj hr)
    obtain ⟨h₁, ⟨name, hname, rfl⟩, hl₁, hd₁⟩ := printMention_spec h hm
    obtain ⟨h₂, hall, hl₂, hd₂⟩ := ih h₁ hms
    exact ⟨h₂, .cons ⟨name, hname.mono hl₂ hd₂, rfl⟩ hall, List.Subset.trans hl₁ hl₂, List.Subset.trans hd₁ hd₂⟩

theorem pairwise_eq_iff {α : Type} {f g : α → Nat} {xs : List α}
    (h : xs.Pairwise fun a b => f a ≠ f b ∧ g a ≠ g b) {a b : α} (ha : a ∈ xs) (hb : b ∈ xs) :
    f a = f b ↔ g a = g b := by
  induction h with
  | nil => cases ha
  | @cons x xs hx _ ih =>
    rcases List.mem_cons.mp ha with rfl | ha' <;> rcases List.mem_cons.mp hb with rfl | hb'
    · exact iff_of_true rfl rfl
    · exact iff_of_false (hx b hb').1 (hx b hb').2
    · exact iff_of_false (hx a ha').1.symm (hx a ha').2.symm
    · exact ih ha' hb'

/-- The text of a name tells its binder. -/
theorem PrintState.Distinct.text_iff (h : st.Distinct) {b c : Nat ⊕ Nat} {j k : Nat} (hb : st.Names b j)
    (hc : st.Names c k) : nameText b j = nameText c k ↔ b = c := by
  cases b with
  | inl l =>
    cases c with
    | inl l' =>
      have hj := (h.lamNames _ hb).1
      have hk := (h.lamNames _ hc).1
      have hiff : l = l' ↔ j = k := pairwise_eq_iff h.lams hb hc
      rw [Sum.inl.injEq, hiff]
      exact ⟨alphaName_inj hj hk, fun he => he ▸ rfl⟩
    | inr l' =>
      obtain ⟨lab, hc⟩ := hc
      exact iff_of_false (names_apart (h.lamNames _ hb).1 (h.dupNames _ hc).1) (fun he => (by cases he))
  | inr l =>
    obtain ⟨lab, hb⟩ := hb
    cases c with
    | inl l' =>
      exact iff_of_false (fun he => names_apart (h.lamNames _ hc).1 (h.dupNames _ hb).1 he.symm)
        (fun he => (by cases he))
    | inr l' =>
      obtain ⟨lab', hc⟩ := hc
      have hj := (h.dupNames _ hb).1
      have hk := (h.dupNames _ hc).1
      have hiff : l = l' ↔ j = k := pairwise_eq_iff h.dups hb hc
      rw [Sum.inr.injEq, hiff]
      exact ⟨alphaName_inj hj hk, fun he => he ▸ rfl⟩

/-- A text that is read back as one name. -/
def IsNick (text : Text) : Prop := text.head?.any nickIsInit = true ∧ text.all nickIsChar = true

theorem init_of_letter {k : Nat} (hb : base = byte 'a' ∨ base = byte 'A') (hk : k < 26) :
    nickIsInit (base + UInt8.ofNat k) = true := by
  rw [nickIsInit_iff, UInt8.toNat_add, UInt8.toNat_ofNat']
  rcases hb with rfl | rfl
  · have ha : (byte 'a').toNat = 97 := rfl
    omega
  · have hA : (byte 'A').toNat = 65 := rfl
    omega

theorem alphaName_isName (hn : n ≠ 0) (hb : base = byte 'a' ∨ base = byte 'A') :
    IsNick (printAlphaName n base) := by
  have hall : ∀ c ∈ printAlphaName n base, nickIsInit c = true := by
    intro c hc
    obtain ⟨k, hk, rfl⟩ := alphaName_letters hn hc
    exact init_of_letter hb hk
  constructor
  · cases hl : printAlphaName n base with
    | nil => exact (alphaName_ne_nil hn hl).elim
    | cons c cs =>
      rw [hl] at hall
      exact hall c List.mem_cons_self
  · exact List.all_eq_true.mpr fun c hc => char_of_init (hall c hc)

theorem PrintState.Distinct.isNick (h : st.Distinct) {b : Nat ⊕ Nat} (hb : st.Names b name) :
    IsNick (nameText b name) := by
  cases b with
  | inl loc => exact alphaName_isName (h.lamNames _ hb).1 (.inl rfl)
  | inr loc =>
    obtain ⟨lab, hb⟩ := hb
    exact alphaName_isName (h.dupNames _ hb).1 (.inr rfl)

/-- However the printer mentions the binders of a term, the names it writes are the same exactly
where the binders are, and each of them reads as one name. -/
theorem mentions_faithful {ms : List Mention} {texts : List Text}
    (hr : printMentions printStateInit ms = some (texts, st)) :
    texts.length = ms.length ∧ (∀ text ∈ texts, IsNick text) ∧
      ∀ (i j : Nat) (m m' : Mention) (text text' : Text), ms[i]? = some m → ms[j]? = some m' →
        texts[i]? = some text → texts[j]? = some text' → (text = text' ↔ m.binder = m'.binder) := by
  obtain ⟨hd, hall, -, -⟩ := printMentions_spec printStateInit_distinct hr
  have hget {i : Nat} {m : Mention} {text : Text} (hm : ms[i]? = some m) (ht : texts[i]? = some text) :
      ∃ name, st.Names m.binder name ∧ text = nameText m.binder name := by
    obtain ⟨hi, rfl⟩ := List.getElem?_eq_some_iff.mp hm
    obtain ⟨hi', rfl⟩ := List.getElem?_eq_some_iff.mp ht
    exact hall.get hi hi'
  refine ⟨hall.length_eq.symm, fun text ht => ?_, fun i j m m' text text' hm hm' ht ht' => ?_⟩
  · obtain ⟨i, hi, rfl⟩ := List.getElem_of_mem ht
    have him : i < ms.length := hall.length_eq ▸ hi
    obtain ⟨name, hname, he⟩ := hget (List.getElem?_eq_getElem him) (List.getElem?_eq_getElem hi)
    rw [he]
    exact hd.isNick hname
  · obtain ⟨name, hname, rfl⟩ := hget hm ht
    obtain ⟨name', hname', rfl⟩ := hget hm' ht'
    exact hd.text_iff hname hname'

/-- Two lambdas and a dup, the first lambda twice. -/
theorem mentions_faithful_four : ∃ texts st,
    printMentions printStateInit [.lam 7, .dup 7 1, .lam 9, .lam 7] = some (texts, st) ∧
      texts[0]? = texts[3]? ∧ texts[0]? ≠ texts[1]? ∧ texts[0]? ≠ texts[2]? := by
  refine ⟨[printLamName 1, printDupName 1, printLamName 2, printLamName 1],
    ⟨[⟨7, 1⟩, ⟨9, 2⟩], [⟨7, 1, 1⟩], 3, 2⟩, rfl, ?_⟩
  have hr : printMentions printStateInit [.lam 7, .dup 7 1, .lam 9, .lam 7] =
      some ([printLamName 1, printDupName 1, printLamName 2, printLamName 1],
        ⟨[⟨7, 1⟩, ⟨9, 2⟩], [⟨7, 1, 1⟩], 3, 2⟩) := rfl
  obtain ⟨-, -, h⟩ := mentions_faithful hr
  refine ⟨congrArg some ((h 0 3 _ _ _ _ rfl rfl rfl rfl).mpr rfl), fun he => ?_, fun he => ?_⟩
  · cases (h 0 1 _ _ _ _ rfl rfl rfl rfl).mp (Option.some.inj he)
  · cases (h 0 2 _ _ _ _ rfl rfl rfl rfl).mp (Option.some.inj he)

end Hvm
