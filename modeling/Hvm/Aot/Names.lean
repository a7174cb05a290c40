import Hvm.Aot.Emit

/-! The C identifiers of the emitted unit: the functions `FN_x`, `FN1_x` and `FN2_x`, and
the macros `C_X` and `F_X` of `aot_emit_named_consts`. -/

namespace Hvm

/-! ### Function names -/

/-- The byte that an identifier keeps for `c`. -/
def identChar (c : Char) : Char := if c.isAlphanum then c else '_'

/-- `aot_emit_prefixed_fun_name` into a buffer of 256 bytes; `none` is its `exit(1)`. -/
def aotEmitPrefixedFunName (pre name : List Char) : Option (List Char) :=
  if pre.length + 2 + name.length > 256 then none
  else
    let guarded := match name with
      | [] => ['_']
      | c :: _ => if c.isDigit then '_' :: name.map identChar else name.map identChar
    some ((pre ++ '_' :: guarded).take 255)

def aotEmitFunName (name : List Char) : Option (List Char) :=
  aotEmitPrefixedFunName ['F', 'N'] name

/-- The name in `aot_emit_get_mat1_name`. -/
def aotEmitMat1Name (name : List Char) : Option (List Char) :=
  aotEmitPrefixedFunName ['F', 'N', '1'] name

/-- The name in `aot_emit_get_direct2_name`. -/
def aotEmitDirect2Name (name : List Char) : Option (List Char) :=
  aotEmitPrefixedFunName ['F', 'N', '2'] name

/-- The C functions that `aot_emit_def` defines for `id`. The loop over `u32` makes the name
of its helper also where it emits none. -/
def aotEmitDefNames (p : Source) (id : Nat) : Option (List (List Char)) := do
  let name := p.table.getD id []
  let root := p.book id
  let fn ← aotEmitFunName name
  if (aotMatchLoopAdd p root id).isSome then
    let helper ← aotEmitDirect2Name name
    return [helper, fn]
  else
    match aotMatchLoopU32 p root id with
    | some loop =>
      let helper ← aotEmitDirect2Name name
      return if loop.tailAcc then [helper, fn] else [fn]
    | none =>
      if aotEmitHasDirectMat1 p id then
        let helper ← aotEmitMat1Name name
        return [helper, fn]
      else
        return [fn]

def aotDefined (p : Source) : List Nat := (List.range p.table.length).filter (p.book · ≠ 0)

/-- The functions of the whole unit, each with the definition it is compiled from. -/
def aotEmitFuns (p : Source) : Option (List (List Char × Nat)) := do
  let funs ← (aotDefined p).mapM fun id => do
    return (← aotEmitDefNames p id).map (·, id)
  return funs.flatten

/-! ### Names of a program -/

/-- A name that `parse_name` reads. -/
def IsName (name : List Char) : Prop :=
  ∃ c cs, name = c :: cs ∧ c.isAlpha = true ∧ ∀ d ∈ name, d.isAlphanum = true ∨ d = '_' ∨ d = '$'

instance : DecidablePred IsName
  | [] => .isFalse fun ⟨_, _, h, _⟩ => by cases h
  | c :: cs => decidable_of_iff
      (c.isAlpha = true ∧ (c :: cs).all fun d => d.isAlphanum || d == '_' || d == '$')
      ⟨fun h => ⟨c, cs, rfl, by simpa [or_assoc] using h⟩,
        fun ⟨_, _, he, h⟩ => by cases he; simpa [or_assoc] using h⟩

/-- What the emitter reads, with the name table as `table_find` leaves it. -/
structure NamedSource extends Source where
  names : ∀ name ∈ table, IsName name
  distinct : table.Nodup

/-- Letters compared without case, and `$` as `_`. -/
def SameLetter (c d : Char) : Prop :=
  c.toUpper = d.toUpper ∨ (c = '_' ∨ c = '$') ∧ (d = '_' ∨ d = '$')

/-- Names that agree in their first 255 letters. -/
def Alike (a b : List Char) : Prop := List.Forall₂ SameLetter (a.take 255) (b.take 255)

instance : DecidableRel SameLetter := fun c d =>
  inferInstanceAs (Decidable (c.toUpper = d.toUpper ∨ _))

instance : DecidableRel Alike := fun a b =>
  inferInstanceAs (Decidable (List.Forall₂ SameLetter (a.take 255) (b.take 255)))

/-! ### Constant names -/

/-- The byte of `aot_emit_upper_ident` for `c`. -/
def upperChar (c : Char) : Char := if c.isAlphanum then c.toUpper else '_'

theorem toUpper_isAlphanum {c : Char} (h : c.isAlphanum = true) :
    c.toUpper.isAlphanum = true := by
  by_cases hl : c.isLower = true
  · have ha : c.isAlpha = true := by simp [Char.isAlpha, hl]
    simp [Char.isAlphanum, ha]
  · rw [Char.toUpper_eq_of_not_isLower hl]
    exact h

theorem not_alphanum_of_mark {c : Char} (h : c = '_' ∨ c = '$') :
    c.isAlphanum = false ∧ c.toUpper = c := by
  rcases h with rfl | rfl <;> decide

theorem upperChar_eq_iff {c d : Char} (hc : c.isAlphanum = true ∨ c = '_' ∨ c = '$')
    (hd : d.isAlphanum = true ∨ d = '_' ∨ d = '$') :
    upperChar c = upperChar d ↔ SameLetter c d := by
  have hmix : ∀ {x y : Char}, x.isAlphanum = true → (y = '_' ∨ y = '$') → ∀ m : Char,
      (m = '_' ∨ m = '$') → x.toUpper ≠ m := by
    intro x y hx _ m hm he
    have h := toUpper_isAlphanum hx
    rw [he, (not_alphanum_of_mark hm).1] at h
    cases h
  by_cases hca : c.isAlphanum = true
  · by_cases hda : d.isAlphanum = true
    · have hcm : ¬ (c = '_' ∨ c = '$') := fun h => by
        simp [(not_alphanum_of_mark h).1] at hca
      simp [upperChar, SameLetter, hca, hda, hcm]
    · have hdm := hd.resolve_left hda
      have hcm : ¬ (c = '_' ∨ c = '$') := fun h => by
        simp [(not_alphanum_of_mark h).1] at hca
      have hne := hmix hca hdm
      simp only [upperChar, if_pos hca, if_neg hda, SameLetter, hcm, false_and, or_false]
      rw [(not_alphanum_of_mark hdm).2]
      exact iff_of_false (hne '_' (.inl rfl)) (hne d hdm)
  · have hcm := hc.resolve_left hca
    by_cases hda : d.isAlphanum = true
    · have hdm : ¬ (d = '_' ∨ d = '$') := fun h => by
        simp [(not_alphanum_of_mark h).1] at hda
      have hne := hmix hda hcm
      simp only [upperChar, if_neg hca, if_pos hda, SameLetter, hdm, and_false, or_false]
      rw [(not_alphanum_of_mark hcm).2]
      exact iff_of_false (fun h => hne '_' (.inl rfl) h.symm) (fun h => hne c hcm h.symm)
    · have hdm := hd.resolve_left hda
      simp [upperChar, hca, hda, SameLetter, hcm, hdm]

theorem IsName.upperIdent {name : List Char} (h : IsName name) :
    aotEmitUpperIdent name = (name.take 255).map upperChar := by
  obtain ⟨c, cs, rfl, -, -⟩ := h
  have hup : aotEmitUpperIdent (c :: cs) =
      if ((c :: cs).map upperChar).take 255 = [] then ['_']
      else ((c :: cs).map upperChar).take 255 := rfl
  rw [hup, ← List.map_take]
  simp

/-- Two names give the same macro suffix exactly when they are alike. -/
theorem upperIdent_eq_iff {a b : List Char} (ha : IsName a) (hb : IsName b) :
    aotEmitUpperIdent a = aotEmitUpperIdent b ↔ Alike a b := by
  rw [ha.upperIdent, hb.upperIdent, Alike]
  obtain ⟨-, -, -, -, ha⟩ := ha
  obtain ⟨-, -, -, -, hb⟩ := hb
  have ha : ∀ c ∈ a.take 255, _ := fun c h => ha c (List.mem_of_mem_take h)
  have hb : ∀ c ∈ b.take 255, _ := fun c h => hb c (List.mem_of_mem_take h)
  generalize a.take 255 = xs at ha ⊢
  generalize b.take 255 = ys at hb ⊢
  induction xs generalizing ys with
  | nil => cases ys <;> simp
  | cons x xs ih =>
    cases ys with
    | nil => simp
    | cons y ys =>
      rw [List.forall_mem_cons] at ha hb
      simp only [List.map_cons, List.cons.injEq, List.forall₂_cons,
        upperChar_eq_iff ha.1 hb.1, ih ha.2 ys hb.2]

/-! ### Resolution of names -/

theorem prefixedFunName_eq {pre name a : List Char} (hn : IsName name)
    (h : aotEmitPrefixedFunName pre name = some a) : a = pre ++ '_' :: name.map identChar := by
  obtain ⟨c, cs, rfl, hc, -⟩ := hn
  have hd : c.isDigit = false := by
    by_contra hd
    simp only [Bool.not_eq_false] at hd
    simp only [Char.isAlpha, Char.isUpper, Char.isLower, Char.isDigit, Bool.or_eq_true,
      Bool.and_eq_true, decide_eq_true_eq, ge_iff_le, UInt32.le_iff_toNat_le] at hc hd
    have h9 : '9'.val.toNat = 57 := rfl
    have hA : 'A'.val.toNat = 65 := rfl
    have ha : 'a'.val.toNat = 97 := rfl
    omega
  unfold aotEmitPrefixedFunName at h
  by_cases hlen : pre.length + 2 + (c :: cs).length > 256
  · rw [if_pos hlen] at h
    cases h
  · rw [if_neg hlen] at h
    simp only [hd, Bool.false_eq_true, if_false, Option.some.injEq] at h
    rw [← h, List.take_of_length_le]
    simp only [List.length_append, List.length_cons, List.length_map] at hlen ⊢
    omega

theorem identChar_upper (c : Char) : upperChar (identChar c) = upperChar c := by
  by_cases h : c.isAlphanum = true
  · simp [identChar, h]
  · simp [identChar, upperChar, h]

/-- Names with the same function suffix are alike. -/
theorem alike_of_identChar {a b : List Char} (ha : IsName a) (hb : IsName b)
    (h : a.map identChar = b.map identChar) : Alike a b := by
  rw [← upperIdent_eq_iff ha hb, ha.upperIdent, hb.upperIdent, ← List.map_take.symm,
    ← List.map_take.symm]
  have hu := congrArg (List.map upperChar) h
  simp only [List.map_map, Function.comp_def, identChar_upper] at hu
  exact congrArg (List.take 255) hu

/-- The three families of function names. -/
def funNames : List (List Char → Option (List Char)) :=
  [aotEmitFunName, aotEmitMat1Name, aotEmitDirect2Name]

theorem funNames_prefix {f : List Char → Option (List Char)} (hf : f ∈ funNames) :
    ∃ pre ∈ [['F', 'N'], ['F', 'N', '1'], ['F', 'N', '2']], f = aotEmitPrefixedFunName pre := by
  simp only [funNames, List.mem_cons, List.not_mem_nil, or_false] at hf
  rcases hf with rfl | rfl | rfl
  · exact ⟨_, by simp, rfl⟩
  · exact ⟨_, by simp, rfl⟩
  · exact ⟨_, by simp, rfl⟩

/-- A function identifier tells its family, and its name up to `$` and `_`. -/
theorem funNames_inj {f g : List Char → Option (List Char)} (hf : f ∈ funNames)
    (hg : g ∈ funNames) {m n a : List Char} (hm : IsName m) (hn : IsName n)
    (ha : f m = some a) (hb : g n = some a) : f = g ∧ m.map identChar = n.map identChar := by
  obtain ⟨pre, hpre, rfl⟩ := funNames_prefix hf
  obtain ⟨pre', hpre', rfl⟩ := funNames_prefix hg
  have he := (prefixedFunName_eq hm ha).symm.trans (prefixedFunName_eq hn hb)
  simp only [List.mem_cons, List.not_mem_nil, or_false] at hpre hpre'
  rcases hpre with rfl | rfl | rfl <;> rcases hpre' with rfl | rfl | rfl <;> simp_all

/-- With one `#define` for each name, a macro stands for its own id. -/
theorem aotMacro_eq {p : Source} (hn : ((aotEmitNamedConsts p).map Prod.fst).Nodup)
    {tok : List Char} {i : Nat} (h : (tok, i) ∈ aotEmitNamedConsts p) :
    aotMacro p tok = some i := by
  unfold aotMacro
  generalize aotEmitNamedConsts p = defs at hn h ⊢
  cases hf : defs.reverse.find? (·.1 = tok) with
  | none =>
    have := List.find?_eq_none.mp hf (tok, i) (List.mem_reverse.mpr h)
    simp at this
  | some d =>
    have ht : d.1 = tok := by simpa using List.find?_some hf
    have hd : d ∈ defs := List.mem_reverse.mp (List.mem_of_find?_eq_some hf)
    have he := List.inj_on_of_nodup_map hn hd h ht
    rw [he]
    rfl

namespace NamedSource

variable {p : NamedSource} {i j : Nat}

theorem name_spec (hi : i < p.table.length) :
    p.table[i]? = some (p.table.getD i []) ∧ IsName (p.table.getD i []) := by
  have hg : p.table.getD i [] = p.table[i] := by simp [hi]
  rw [hg]
  exact ⟨List.getElem?_eq_getElem hi, p.names _ (List.getElem_mem hi)⟩

theorem constName_eq (pre : Char) (hi : i < p.table.length) :
    aotEmitConstName p.toSource pre i =
      pre :: '_' :: aotEmitUpperIdent (p.table.getD i []) := by
  obtain ⟨hg, c, cs, hn, -⟩ := name_spec hi
  rw [aotEmitConstName, hg, hn]

theorem constName_eq_iff {pre : Char} (hi : i < p.table.length) (hj : j < p.table.length) :
    aotEmitConstName p.toSource pre i = aotEmitConstName p.toSource pre j ↔
      Alike (p.table.getD i []) (p.table.getD j []) := by
  rw [constName_eq pre hi, constName_eq pre hj, List.cons_inj_right, List.cons_inj_right,
    upperIdent_eq_iff (name_spec hi).2 (name_spec hj).2]

theorem mem_defined : i ∈ aotDefined p.toSource ↔ i < p.table.length ∧ p.book i ≠ 0 := by
  simp [aotDefined]

end NamedSource

/-- Every identifier of the unit belongs to one definition or constructor, and every token
stands for the id it was printed for. -/
structure NamesExact (p : Source) (funs : List (List Char × Nat)) : Prop where
  fun_names : ∀ i ∈ aotDefined p, ∀ j ∈ aotDefined p, i ≠ j →
    ∀ f ∈ funNames, ∀ g ∈ funNames, ∀ a b, f (p.table.getD i []) = some a → g (p.table.getD j []) = some b → a ≠ b
  ctr_names : ∀ i ∈ aotCtrUsed p, ∀ j ∈ aotCtrUsed p, i < p.table.length → j < p.table.length →
    i ≠ j → aotEmitConstName p 'C' i ≠ aotEmitConstName p 'C' j
  ref_names : ∀ i ∈ aotDefined p, ∀ j ∈ aotDefined p, i ≠ j →
    aotEmitConstName p 'F' i ≠ aotEmitConstName p 'F' j
  ctr_ids : ∀ i ∈ aotCtrUsed p, aotEmitCtrId p i = i
  ref_ids : ∀ i, aotEmitRefId p i = i
  calls : ∀ a i j, (a, i) ∈ funs → (a, j) ∈ funs → i = j
  fun_defs : (funs.map Prod.fst).Nodup
  macros : ((aotEmitNamedConsts p).map Prod.fst).Nodup

/-! ### Exactness -/

theorem mapM_flatten {g : Nat → Option (List (List Char))} {ids : List Nat}
    {defs : List (List (List Char × Nat))}
    (h : (ids.mapM fun id => do return (← g id).map (·, id)) = some defs) :
    defs.flatten = ids.flatMap fun id => ((g id).getD []).map (·, id) := by
  induction ids generalizing defs with
  | nil =>
    obtain rfl : [] = defs := by simpa using h
    rfl
  | cons id ids ih =>
    simp only [List.mapM_cons, Option.bind_eq_bind, Option.bind_eq_some_iff, Option.pure_def,
      Option.some.injEq] at h
    obtain ⟨_, ⟨names, hg, rfl⟩, rest, hr, rfl⟩ := h
    rw [List.flatten_cons, List.flatMap_cons, ih hr, hg]
    rfl

/-- The functions emitted for one definition have names of two families at most. -/
theorem aotEmitDefNames_spec {p : Source} {id : Nat} {names : List (List Char)}
    (h : aotEmitDefNames p id = some names) :
    ∃ fn, aotEmitFunName (p.table.getD id []) = some fn ∧ (names = [fn] ∨
      ∃ f ∈ [aotEmitMat1Name, aotEmitDirect2Name], ∃ helper,
        f (p.table.getD id []) = some helper ∧ names = [helper, fn]) := by
  simp only [aotEmitDefNames, Option.bind_eq_bind, Option.bind_eq_some_iff] at h
  obtain ⟨fn, hfn, h⟩ := h
  refine ⟨fn, hfn, ?_⟩
  by_cases hadd : (aotMatchLoopAdd p (p.book id) id).isSome = true
  · simp only [if_pos hadd, Option.bind_eq_some_iff, Option.pure_def, Option.some.injEq] at h
    obtain ⟨helper, hh, rfl⟩ := h
    exact .inr ⟨_, by simp, helper, hh, rfl⟩
  · rw [if_neg hadd] at h
    cases hu : aotMatchLoopU32 p (p.book id) id with
    | some loop =>
      simp only [hu, Option.bind_eq_some_iff, Option.pure_def, Option.some.injEq] at h
      obtain ⟨helper, hh, he⟩ := h
      by_cases ht : loop.tailAcc = true
      · rw [if_pos ht] at he
        exact .inr ⟨_, by simp, helper, hh, he.symm⟩
      · rw [if_neg ht] at he
        exact .inl he.symm
    | none =>
      simp only [hu] at h
      by_cases hm : aotEmitHasDirectMat1 p id = true
      · simp only [if_pos hm, Option.bind_eq_some_iff, Option.pure_def, Option.some.injEq] at h
        obtain ⟨helper, hh, rfl⟩ := h
        exact .inr ⟨_, by simp, helper, hh, rfl⟩
      · rw [if_neg hm] at h
        exact .inl (Option.some.inj h).symm

theorem helper_mem {f : List Char → Option (List Char)}
    (hf : f ∈ [aotEmitMat1Name, aotEmitDirect2Name]) : f ∈ funNames ∧ f ≠ aotEmitFunName := by
  simp only [List.mem_cons, List.not_mem_nil, or_false] at hf
  have hne : ∀ pre, pre ≠ ['F', 'N'] → pre.length = 3 →
      aotEmitPrefixedFunName pre ≠ aotEmitPrefixedFunName ['F', 'N'] := by
    intro pre _ hl he
    have h := congrFun he []
    simp only [aotEmitPrefixedFunName, hl] at h
    simp at h
    have := congrArg List.length h
    simp [hl] at this
  rcases hf with rfl | rfl
  · exact ⟨by simp [funNames], hne _ (by decide) rfl⟩
  · exact ⟨by simp [funNames], hne _ (by decide) rfl⟩

theorem mem_defNames {p : Source} {id : Nat} {names : List (List Char)} {a : List Char}
    (h : aotEmitDefNames p id = some names) (ha : a ∈ names) :
    ∃ f ∈ funNames, f (p.table.getD id []) = some a := by
  obtain ⟨fn, hfn, rfl | ⟨f, hf, helper, hh, rfl⟩⟩ := aotEmitDefNames_spec h
  · obtain rfl := List.mem_singleton.mp ha
    exact ⟨_, by simp [funNames], hfn⟩
  · rcases List.mem_cons.mp ha with rfl | ha
    · exact ⟨f, (helper_mem hf).1, hh⟩
    · obtain rfl := List.mem_singleton.mp ha
      exact ⟨_, by simp [funNames], hfn⟩

/-- The program's names, as the condition sees them: no two defined names are alike, and no
two names of constructors in the book. -/
structure NamesApart (p : Source) : Prop where
  defined : ∀ i ∈ aotDefined p, ∀ j ∈ aotDefined p, i ≠ j →
    ¬ Alike (p.table.getD i []) (p.table.getD j [])
  ctrs : ∀ i ∈ aotCtrUsed p, ∀ j ∈ aotCtrUsed p, i < p.table.length → j < p.table.length → i ≠ j →
    ¬ Alike (p.table.getD i []) (p.table.getD j [])

section Exact

variable {p : NamedSource} {funs : List (List Char × Nat)}

theorem mem_funs (h : aotEmitFuns p.toSource = some funs) {a : List Char} {i : Nat}
    (ha : (a, i) ∈ funs) : i ∈ aotDefined p.toSource ∧
      ∃ f ∈ funNames, f (p.table.getD i []) = some a := by
  simp only [aotEmitFuns, Option.bind_eq_bind, Option.bind_eq_some_iff, Option.pure_def,
    Option.some.injEq] at h
  obtain ⟨defs, hd, rfl⟩ := h
  rw [mapM_flatten hd, List.mem_flatMap] at ha
  obtain ⟨id, hid, ha⟩ := ha
  obtain ⟨b, hb, he⟩ := List.mem_map.mp ha
  obtain ⟨rfl, rfl⟩ := Prod.mk.inj he
  cases hg : aotEmitDefNames p.toSource id with
  | none => simp [hg] at hb
  | some names =>
    rw [hg] at hb
    exact ⟨hid, mem_defNames hg hb⟩

theorem funNames_apart (hn : NamesApart p.toSource) {i j : Nat} (hi : i ∈ aotDefined p.toSource)
    (hj : j ∈ aotDefined p.toSource) {f g : List Char → Option (List Char)} (hf : f ∈ funNames)
    (hg : g ∈ funNames) {a : List Char} (ha : f (p.table.getD i []) = some a)
    (hb : g (p.table.getD j []) = some a) : i = j := by
  by_contra hij
  have hni := (NamedSource.name_spec (NamedSource.mem_defined.mp hi).1).2
  have hnj := (NamedSource.name_spec (NamedSource.mem_defined.mp hj).1).2
  exact hn.defined i hi j hj hij
    (alike_of_identChar hni hnj (funNames_inj hf hg hni hnj ha hb).2)

/-- Apart names give every function of the unit an identifier of its own. -/
theorem funDefs_nodup (hn : NamesApart p.toSource) (h : aotEmitFuns p.toSource = some funs) :
    (funs.map Prod.fst).Nodup := by
  have hmem := @mem_funs p funs h
  simp only [aotEmitFuns, Option.bind_eq_bind, Option.bind_eq_some_iff, Option.pure_def,
    Option.some.injEq] at h
  obtain ⟨defs, hd, rfl⟩ := h
  rw [mapM_flatten hd] at hmem ⊢
  rw [List.map_flatMap, List.nodup_flatMap]
  refine ⟨fun id hid => ?_, ?_⟩
  · rw [List.map_map, Function.comp_def, List.map_id']
    cases hg : aotEmitDefNames p.toSource id with
    | none => exact List.nodup_nil
    | some names =>
      have hname := (NamedSource.name_spec (NamedSource.mem_defined.mp hid).1).2
      obtain ⟨fn, hfn, rfl | ⟨f, hf, helper, hh, rfl⟩⟩ := aotEmitDefNames_spec hg
      · exact List.nodup_singleton fn
      · have hne : helper ≠ fn := by
          rintro rfl
          obtain ⟨hmem, hne⟩ := helper_mem hf
          exact hne (funNames_inj hmem (by simp [funNames]) hname hname hh hfn).1
        simpa using hne
  · refine List.Pairwise.imp_of_mem ?_ (List.nodup_range.filter _)
    intro i j hi hj hij a hai haj
    have hall : ∀ {k : Nat}, k ∈ aotDefined p.toSource →
        a ∈ List.map Prod.fst (((aotEmitDefNames p.toSource k).getD []).map (·, k)) →
        ∃ f ∈ funNames, f (p.table.getD k []) = some a := by
      intro k hk hak
      obtain ⟨⟨b, k'⟩, hb, rfl⟩ := List.mem_map.mp hak
      obtain ⟨c, hc, he⟩ := List.mem_map.mp hb
      obtain ⟨rfl, rfl⟩ := Prod.mk.inj he
      exact (hmem (List.mem_flatMap.mpr ⟨k, hk, hb⟩)).2
    obtain ⟨f, hf, ha⟩ := hall hi hai
    obtain ⟨g, hg, hb⟩ := hall hj haj
    exact hij (funNames_apart hn hi hj hf hg ha hb)

/-- Apart names give every macro one `#define`. -/
theorem macros_nodup (hn : NamesApart p.toSource) :
    ((aotEmitNamedConsts p.toSource).map Prod.fst).Nodup := by
  rw [aotEmitNamedConsts, List.map_append, List.map_map, List.map_map, List.nodup_append]
  refine ⟨List.Nodup.map_on ?_ (List.nodup_range.filter _),
    List.Nodup.map_on ?_ (List.nodup_range.filter _), ?_⟩
  · intro i hi j hj he
    simp only [List.mem_filter, List.mem_range, decide_eq_true_eq] at hi hj
    by_contra hij
    exact hn.ctrs i hi.2 j hj.2 hi.1 hj.1 hij ((NamedSource.constName_eq_iff hi.1 hj.1).mp he)
  · intro i hi j hj he
    have hi' := NamedSource.mem_defined.mp hi
    have hj' := NamedSource.mem_defined.mp hj
    by_contra hij
    exact hn.defined i hi j hj hij ((NamedSource.constName_eq_iff hi'.1 hj'.1).mp he)
  · intro a ha b hb
    obtain ⟨i, hi, rfl⟩ := List.mem_map.mp ha
    obtain ⟨j, hj, rfl⟩ := List.mem_map.mp hb
    have hi' := List.mem_range.mp (List.mem_filter.mp hi).1
    have hj' := List.mem_range.mp (List.mem_filter.mp hj).1
    simp only [Function.comp_apply, NamedSource.constName_eq _ hi', NamedSource.constName_eq _ hj']
    intro h
    cases (List.cons.inj h).1

theorem ctrId_eq (hn : NamesApart p.toSource) {i : Nat} (hi : i ∈ aotCtrUsed p.toSource) :
    aotEmitCtrId p.toSource i = i := by
  unfold aotEmitCtrId
  by_cases hlen : i ≥ p.table.length
  · rw [if_pos hlen]
  · rw [if_neg hlen, aotMacro_eq (macros_nodup hn) (i := i)]
    · rfl
    · refine List.mem_append_left _ (List.mem_map.mpr ⟨i, ?_, rfl⟩)
      simp only [List.mem_filter, List.mem_range, decide_eq_true_eq]
      exact ⟨by omega, hi⟩

theorem refId_eq (hn : NamesApart p.toSource) (i : Nat) : aotEmitRefId p.toSource i = i := by
  unfold aotEmitRefId
  by_cases hdef : i ≥ p.table.length ∨ p.book i = 0
  · rw [if_pos hdef]
  · rw [if_neg hdef, aotMacro_eq (macros_nodup hn) (i := i)]
    · rfl
    · refine List.mem_append_right _ (List.mem_map.mpr ⟨i, ?_, rfl⟩)
      rw [not_or] at hdef
      exact NamedSource.mem_defined.mpr ⟨by omega, hdef.2⟩

/-- The identifiers of an emitted unit are exact if and only if its names are apart. -/
theorem names_exact_iff (p : NamedSource) (funs : List (List Char × Nat))
    (h : aotEmitFuns p.toSource = some funs) :
    NamesExact p.toSource funs ↔ NamesApart p.toSource := by
  constructor
  · intro hx
    refine ⟨fun i hi j hj hij ha => ?_, fun i hi j hj hil hjl hij ha => ?_⟩
    · have hi' := NamedSource.mem_defined.mp hi
      have hj' := NamedSource.mem_defined.mp hj
      exact hx.ref_names i hi j hj hij ((NamedSource.constName_eq_iff hi'.1 hj'.1).mpr ha)
    · exact hx.ctr_names i hi j hj hil hjl hij ((NamedSource.constName_eq_iff hil hjl).mpr ha)
  · intro hn
    exact
      { fun_names := by
          intro i hi j hj hij f hf g hg a b ha hb hab
          subst hab
          exact hij (funNames_apart hn hi hj hf hg ha hb)
        ctr_names := fun i hi j hj hil hjl hij he =>
          hn.ctrs i hi j hj hil hjl hij ((NamedSource.constName_eq_iff hil hjl).mp he)
        ref_names := fun i hi j hj hij he =>
          hn.defined i hi j hj hij ((NamedSource.constName_eq_iff
            (NamedSource.mem_defined.mp hi).1 (NamedSource.mem_defined.mp hj).1).mp he)
        ctr_ids := fun i hi => ctrId_eq hn hi
        ref_ids := refId_eq hn
        calls := by
          intro a i j hi hj
          obtain ⟨hi, f, hf, ha⟩ := mem_funs h hi
          obtain ⟨hj, g, hg, hb⟩ := mem_funs h hj
          exact funNames_apart hn hi hj hf hg ha hb
        fun_defs := funDefs_nodup hn h
        macros := macros_nodup hn }

end Exact

/-! ### Two constructors under one macro -/

/-- The names of `symbols_init` and `prim_init`. -/
def builtinNames : List (List Char) :=
  [['Z', 'E', 'R'], ['S', 'U', 'C'], ['N', 'I', 'L'], ['C', 'O', 'N'], ['C', 'H', 'R'],
    ['l', 'o', 'g'], ['l', 'o', 'g', '_', 'g', 'o', '_', '0'],
    ['l', 'o', 'g', '_', 'g', 'o', '_', '1'], ['l', 'o', 'g', '_', 'g', 'o', '_', '2']]

/-- `@f = λ{#A: 1; #B: 2}`, with the name of the second constructor given. -/
def twoCases (name : List Char) (hn : IsName name) (hd : name ∉ builtinNames ++ [['f'], ['A']]) :
    NamedSource where
  heap := fun
    | 1 => .tm (termNewNum 1)
    | 2 => .tm (termNew false .mat 11 3)
    | 3 => .tm (termNewNum 2)
    | 4 => .tm (termNewNum 0)
    | 5 => .tm (termNew false .mat 10 1)
    | _ => .tm Term.zero
  next := 6
  book := fun id => if id = 9 then 5 else 0
  table := builtinNames ++ [['f'], ['A']] ++ [name]
  names := by
    have hb : ∀ n ∈ builtinNames ++ [['f'], ['A']], IsName n := by decide +kernel
    intro n h
    rcases List.mem_append.mp h with h | h
    · exact hb n h
    · rwa [List.mem_singleton.mp h]
  distinct := by
    have hb : (builtinNames ++ [['f'], ['A']]).Nodup := by decide +kernel
    rw [List.nodup_append]
    refine ⟨hb, List.nodup_singleton _, fun a ha b hb he => hd ?_⟩
    rwa [← List.mem_singleton.mp hb, ← he]

/-- `#A` and `#a` share the macro `C_A`, so the case label of `#A` is the id of `#a`. -/
theorem names_collide :
    let p := twoCases ['a'] (by decide +kernel) (by decide +kernel)
    (aotEmitFuns p.toSource).isSome = true ∧
      aotEmitConstName p.toSource 'C' 10 = aotEmitConstName p.toSource 'C' 11 ∧
      aotEmitCtrId p.toSource 10 = 11 ∧
      ∀ funs, aotEmitFuns p.toSource = some funs → ¬ NamesExact p.toSource funs := by
  refine ⟨by decide +kernel, by decide +kernel, by decide +kernel, fun funs _ hx => ?_⟩
  have h := hx.ctr_ids 10 (by decide +kernel)
  revert h
  decide +kernel

theorem names_exact_twoCases :
    let p := twoCases ['B'] (by decide +kernel) (by decide +kernel)
    NamesExact p.toSource ((aotEmitFuns p.toSource).getD []) :=
  (names_exact_iff (twoCases ['B'] (by decide +kernel) (by decide +kernel)) _ rfl).mpr
    ⟨by decide +kernel, by decide +kernel⟩

end Hvm
