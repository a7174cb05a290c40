import Hvm.Parse.AutoDup

/-! A book term in the heap as the tree of its fields. The fields of a node lie next to
each other, so one type stands for the fields from a cell on: the word in that cell, the
fields of that word, and the fields after it. A cell that two nodes share is unfolded at
each of them. -/

namespace Hvm

@[simp] theorem heapRead_heapSet (rt : Rt) (loc c : Nat) (t : Term) :
    heapRead (heapSet rt loc t) c = if c = loc then t else heapRead rt c := by
  by_cases h : c = loc
  · subst h
    simp [heapRead, heapSet, Cell.toTerm]
  · simp [heapRead, heapSet, h]

/-! ### Building nodes -/

theorem termNewAt_go_next (rt : Rt) (loc : Nat) (args : List Term) :
    (termNewAt.go rt loc args).next = rt.next := by
  induction args generalizing rt loc with
  | nil => rfl
  | cons a args ih => exact ih (heapSet rt loc a) (loc + 1)

theorem termNewAt_go_read (rt : Rt) (loc : Nat) (args : List Term) (c : Nat) :
    heapRead (termNewAt.go rt loc args) c =
      if loc ≤ c then args.getD (c - loc) (heapRead rt c) else heapRead rt c := by
  induction args generalizing rt loc with
  | nil => simp [termNewAt.go]
  | cons a args ih =>
    rw [termNewAt.go, ih, heapRead_heapSet]
    by_cases hlt : c < loc
    · rw [if_neg (by omega), if_neg (by omega), if_neg (by omega)]
    · by_cases heq : c = loc
      · subst heq
        rw [if_neg (by omega), if_pos (Nat.le_refl c), if_pos rfl]
        simp
      · obtain ⟨k, rfl⟩ : ∃ k, c = loc + 1 + k := ⟨c - loc - 1, by omega⟩
        rw [if_pos (by omega), if_neg heq, if_pos (by omega)]
        have hk : loc + 1 + k - loc = k + 1 := by omega
        rw [hk, Nat.add_sub_cancel_left, List.getD_cons_succ]

variable (rt : Rt) (tag : Tag) (ext : Nat) (args : List Term)

theorem termNewNode_snd : (termNewNode rt tag ext args).2 = termNew false tag ext rt.next := rfl

theorem termNewNode_next : (termNewNode rt tag ext args).1.next = rt.next + args.length := by
  simp only [termNewNode, termNewAt, termNewAt_go_next]

theorem termNewNode_read {i : Nat} (hi : i < args.length) :
    heapRead (termNewNode rt tag ext args).1 (rt.next + i) = args[i] := by
  simp only [termNewNode, termNewAt, termNewAt_go_read]
  rw [if_pos (by omega), Nat.add_sub_cancel_left]
  simp [List.getD, hi]

theorem termNewNode_frame {c : Nat} (hc : c < rt.next) :
    heapRead (termNewNode rt tag ext args).1 c = heapRead rt c := by
  simp only [termNewNode, termNewAt, termNewAt_go_read]
  rw [if_neg (by omega)]
  rfl

/-! ### Fields -/

inductive Fields where
  | nil
  | cons (w : Term) (sub rest : Fields)

namespace Fields

def length : Fields → Nat
  | nil => 0
  | cons _ _ rest => rest.length + 1

/-- The cells of the fields and of all below them, in the order of a walk. -/
def cells : Nat → Fields → List Nat
  | _, nil => []
  | loc, cons w sub rest => loc :: (sub.cells w.val ++ rest.cells (loc + 1))

/-- The words in those cells. -/
def words : Fields → List Term
  | nil => []
  | cons w sub rest => w :: (sub.words ++ rest.words)

/-- The heap holds the fields from `loc` on, each node with as many as its arity. -/
def Stored (rt : Rt) : Nat → Fields → Prop
  | _, nil => True
  | loc, cons w sub rest =>
    heapRead rt loc = w ∧ sub.length = termArity w ∧ sub.Stored rt w.val ∧
      rest.Stored rt (loc + 1)

def decStored (rt : Rt) : (loc : Nat) → (F : Fields) → Decidable (F.Stored rt loc)
  | _, nil => .isTrue trivial
  | loc, cons w sub rest =>
    have := decStored rt w.val sub
    have := decStored rt (loc + 1) rest
    inferInstanceAs (Decidable (_ ∧ _ ∧ _ ∧ _))

instance (rt : Rt) (loc : Nat) (F : Fields) : Decidable (F.Stored rt loc) := decStored rt loc F

/-- `k` fields from `loc` on, and those below them `n` levels deep. -/
def load (rt : Rt) : (n loc k : Nat) → Fields
  | 0, _, _ | _ + 1, _, 0 => nil
  | n + 1, loc, k + 1 =>
    let w := heapRead rt loc
    cons w (load rt n w.val (termArity w)) (load rt n (loc + 1) k)

/-- The same fields as another heap holds them. -/
def reread (rt : Rt) : Nat → Fields → Fields
  | _, nil => nil
  | loc, cons w sub rest =>
    cons (heapRead rt loc) (sub.reread rt w.val) (rest.reread rt (loc + 1))

variable {rt rt' : Rt} {loc : Nat} {F : Fields}

@[simp] theorem length_reread : (F.reread rt loc).length = F.length := by
  induction F generalizing loc with
  | nil => rfl
  | cons w sub rest _ ih => simp [reread, length, ih]

theorem length_words : F.words.length = (F.cells loc).length := by
  induction F generalizing loc with
  | nil => rfl
  | cons w sub rest ihs ihr =>
    simp only [words, cells, List.length_cons, List.length_append, @ihs w.val, @ihr (loc + 1)]

theorem Stored.words_eq (h : F.Stored rt loc) : F.words = (F.cells loc).map (heapRead rt) := by
  induction F generalizing loc with
  | nil => rfl
  | cons w sub rest ihs ihr =>
    obtain ⟨hw, -, hsub, hrest⟩ := h
    simp only [words, cells, List.map_cons, List.map_append, hw, ihs hsub, ihr hrest]

theorem eq_nil_of_length (h : F.length = 0) : F = nil := by
  cases F with
  | nil => rfl
  | cons w sub rest => cases h

theorem mem_cells_of_lt (i : Nat) (hi : i < F.length) : loc + i ∈ F.cells loc := by
  induction F generalizing loc i with
  | nil => cases hi
  | cons w sub rest _ ih =>
    cases i with
    | zero => exact List.mem_cons_self
    | succ i =>
      have hrest := @ih (loc + 1) i (Nat.lt_of_succ_lt_succ hi)
      rw [Nat.add_right_comm, Nat.add_assoc] at hrest
      exact List.mem_cons_of_mem _ (List.mem_append_right _ hrest)

/-- Fields stay stored while their cells keep their words. -/
theorem Stored.frame (h : F.Stored rt loc)
    (hkeep : ∀ c ∈ F.cells loc, heapRead rt' c = heapRead rt c) : F.Stored rt' loc := by
  induction F generalizing loc with
  | nil => trivial
  | cons w sub rest ihs ihr =>
    obtain ⟨hw, hlen, hsub, hrest⟩ := h
    refine ⟨?_, hlen, ihs hsub fun c hc => hkeep c ?_, ihr hrest fun c hc => hkeep c ?_⟩
    · rw [hkeep loc List.mem_cons_self, hw]
    · exact List.mem_cons_of_mem _ (List.mem_append_left _ hc)
    · exact List.mem_cons_of_mem _ (List.mem_append_right _ hc)

end Fields

/-! ### Environments -/

/-- The binder a level designates among the words of the enclosing binders, the outermost
first. Levels start at 1. -/
def binderAt (env : List Term) (lvl : Nat) : Option Term :=
  if lvl = 0 then none else env[lvl - 1]?

/-- The enclosing binders of each field of a node: a LAM binds in its body, a DUP in its
second field. -/
def fieldEnv (w : Term) (env : List Term) (i : Nat) : List Term :=
  if w.tag = .lam ∨ w.tag = .dup ∧ i = 1 then env ++ [w] else env

/-- Two families of fields of one shape whose words are related field by field, each under
its own enclosing binders. -/
def Fields.Match (R : List Term → List Term → Term → Term → Prop) :
    (Nat → List Term) → (Nat → List Term) → Fields → Fields → Prop
  | _, _, .nil, .nil => True
  | E, E', .cons w sub rest, .cons w' sub' rest' =>
    R (E 0) (E' 0) w w' ∧ sub.Match R (fieldEnv w (E 0)) (fieldEnv w' (E' 0)) sub' ∧
      rest.Match R (fun i => E (i + 1)) (fun i => E' (i + 1)) rest'
  | _, _, _, _ => False

end Hvm
