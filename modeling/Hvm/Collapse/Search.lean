import Hvm.Collapse.Branches

/-! What the enumeration is for: locations wait in the order they were queued, the next one is the
first with the least key, and the lines are the leaves as they come. Without priority wrappers
this is a breadth-first search, left to right within a depth. -/

namespace Hvm.Collapse

structure Search where
  queue : List (Nat × Task)
  processed : List Task
  lines : List (List Bool)
  deriving DecidableEq

namespace Search

/-- The first entry with the least key. -/
def pick (q : List (Nat × Task)) : Option (Nat × Task) := q.find? fun e => q.all fun e' => e.1 ≤ e'.1

/-- The key of the two branches of a superposition that was queued at key `k` and came out of `w`
wrappers. -/
def branchKey (k w : Nat) : Nat := min 63 (k - w + 1)

/-- What is queued for a processed entry. -/
def branches (u : Setup) (e : Nat × Task) : List (Nat × Task) :=
  match (u.tree e.2.path).out with
  | .sup loc =>
    [(branchKey e.1 (u.tree e.2.path).incs, ⟨loc, e.2.path ++ [false]⟩),
      (branchKey e.1 (u.tree e.2.path).incs, ⟨loc + 1, e.2.path ++ [true]⟩)]
  | _ => []

/-- The line of a processed location. -/
def line (u : Setup) (t : Task) : List (List Bool) :=
  match (u.tree t.path).out with
  | .leaf => [t.path]
  | _ => []

def process (u : Setup) (σ : Search) (e : Nat × Task) : Search where
  queue := σ.queue.erase e ++ branches u e
  processed := σ.processed ++ [e.2]
  lines := σ.lines ++ line u e.2

/-- The next location is processed, while there are fewer lines than the limit allows. -/
def next (u : Setup) (σ : Search) : Option Search :=
  if u.limit ≤ σ.lines.length then none else (pick σ.queue).map (process u σ)

def start (root : Task) : Search := ⟨[(0, root)], [], []⟩

def Step (u : Setup) (σ σ' : Search) : Prop := next u σ = some σ'

variable {u : Setup} {σ σ' : Search} {e : Nat × Task} {root : Task}

theorem pick_le {q : List (Nat × Task)} (h : pick q = some e) : ∀ e' ∈ q, e.1 ≤ e'.1 := by
  simpa using List.find?_some h

/-- The depth of a branch, then its place within the depth. -/
def place (p : List Bool) : ℕ ×ₗ List Bool := toLex (p.length, p)

theorem place_lt {p q : List Bool} :
    place p < place q ↔ p.length < q.length ∨ p.length = q.length ∧ p < q := by
  rw [place, place, Prod.Lex.toLex_lt_toLex]

theorem place_length {p q : List Bool} (h : place p ≤ place q) : p.length ≤ q.length := by
  by_contra hlt
  exact absurd h (not_le.mpr (place_lt.mpr (.inl (by omega))))

theorem lt_append {p q : List Bool} (hlen : p.length = q.length) (h : p < q) (a b : Bool) :
    p ++ [a] < q ++ [b] := by
  induction p generalizing q with
  | nil =>
    cases q with
    | nil => exact absurd h (lt_irrefl _)
    | cons => simp at hlen
  | cons x p ih =>
    cases q with
    | nil => simp at hlen
    | cons y q =>
      rw [List.cons_append, List.cons_append, List.cons_lt_cons_iff]
      rcases List.cons_lt_cons_iff.mp h with hxy | ⟨rfl, hpq⟩
      · exact .inl hxy
      · exact .inr ⟨rfl, ih (by simpa using hlen) hpq⟩

def paths (σ : Search) : List (List Bool) :=
  σ.processed.map Task.path ++ σ.queue.map fun e => e.2.path

/-- What holds of every search. -/
structure Covers (u : Setup) (σ : Search) : Prop where
  branch : ∀ p ∈ σ.paths, IsBranch u.tree p
  covered : ∀ p, IsBranch u.tree p →
    p ∈ σ.processed.map Task.path ∨ ∃ e ∈ σ.queue, e.2.path <+: p
  lines : σ.lines = σ.processed.flatMap (line u)

/-- What holds of a search without wrappers: the queue goes on where the processed locations end. -/
structure Breadth (σ : Search) : Prop where
  order : (σ.paths.map place).Pairwise (· < ·)
  keys : ∀ e ∈ σ.queue, e.1 = min 63 e.2.path.length
  parent : ∀ e ∈ σ.queue, e.2.path = [] ∨
    ∃ q b, e.2.path = q ++ [b] ∧ q ∈ σ.processed.map Task.path

/-- What a processed entry queues. -/
theorem branch_cases {e' : Nat × Task} (h : e' ∈ branches u e) :
    (u.tree e.2.path).out.isSup ∧ e'.1 = branchKey e.1 (u.tree e.2.path).incs ∧
      ∃ b, e'.2.path = e.2.path ++ [b] := by
  unfold branches at h
  split at h
  case h_1 loc ho =>
    rw [ho]
    rcases List.mem_cons.mp h with rfl | h
    · exact ⟨rfl, rfl, false, rfl⟩
    · rw [List.mem_singleton.mp h]
      exact ⟨rfl, rfl, true, rfl⟩
  case h_2 => cases h

theorem branch_of_sup (ho : (u.tree e.2.path).out.isSup) (b : Bool) :
    ∃ e' ∈ branches u e, e'.2.path = e.2.path ++ [b] := by
  unfold branches
  split
  case h_1 loc _ =>
    cases b
    · exact ⟨_, List.mem_cons_self, rfl⟩
    · exact ⟨_, List.mem_cons_of_mem _ List.mem_cons_self, rfl⟩
  case h_2 hno =>
    unfold Out.isSup at ho
    split at ho
    · exact absurd (by assumption) (hno _)
    · cases ho

theorem IsBranch.sup_above {tree : Tree} {p : List Bool} (h : IsBranch tree p) :
    ∀ q b r, p = q ++ b :: r → (tree q).out.isSup := by
  induction h with
  | root =>
    intro q b r he
    simp at he
  | @side p h ho b' ih =>
    intro q b r he
    cases r using List.reverseRecOn with
    | nil =>
      have hp : p = q := (List.append_inj' he rfl).1
      rwa [← hp]
    | append_singleton r b'' =>
      refine ih q b r ?_
      rw [← List.cons_append, ← List.append_assoc] at he
      exact (List.append_inj' he rfl).1

theorem Covers.step (h : σ.Covers u) (he : e ∈ σ.queue) : (process u σ e).Covers u := by
  have hbranch : IsBranch u.tree e.2.path :=
    h.branch _ (List.mem_append_right _ (List.mem_map_of_mem he))
  constructor
  · intro p hp
    rcases List.mem_append.mp hp with hp | hp
    · change p ∈ (σ.processed ++ [e.2]).map Task.path at hp
      rw [List.map_append, List.mem_append] at hp
      rcases hp with hp | hp
      · exact h.branch p (List.mem_append_left _ hp)
      · rwa [List.mem_singleton.mp hp]
    · obtain ⟨e', he', rfl⟩ := List.mem_map.mp hp
      rcases List.mem_append.mp he' with he' | he'
      · exact h.branch _ (List.mem_append_right _ (List.mem_map_of_mem (List.mem_of_mem_erase he')))
      · obtain ⟨ho, -, b, hb⟩ := branch_cases he'
        rw [hb]
        exact hbranch.side ho b
  · intro p hp
    rcases h.covered p hp with hm | ⟨e', he', hpre⟩
    · exact .inl (by simp [process, List.mem_map.mp hm])
    · by_cases hee : e' = e
      · obtain ⟨r, hr⟩ := hpre
        rw [hee] at hr
        cases r with
        | nil =>
          refine .inl ?_
          rw [← hr]
          simp [process]
        | cons b r =>
          obtain ⟨e₁, he₁, hpath⟩ := branch_of_sup (IsBranch.sup_above hp e.2.path b r hr.symm) b
          refine .inr ⟨e₁, List.mem_append_right _ he₁, r, ?_⟩
          rw [hpath, ← hr, List.append_assoc]
          rfl
      · exact .inr ⟨e', List.mem_append_left _ ((List.mem_erase_of_ne hee).mpr he'), hpre⟩
  · change σ.lines ++ line u e.2 = (σ.processed ++ [e.2]).flatMap (line u)
    rw [List.flatMap_append, ← h.lines, List.flatMap_singleton]

theorem Breadth.lt_of_split (h : σ.Breadth) {p q : List Bool} (hp : p ∈ σ.processed.map Task.path)
    (hq : ∃ e ∈ σ.queue, e.2.path = q) : place p < place q := by
  have horder := h.order
  rw [paths, List.map_append, List.pairwise_append] at horder
  obtain ⟨e, he, rfl⟩ := hq
  exact horder.2.2 _ (List.mem_map_of_mem hp) _
    (List.mem_map_of_mem (List.mem_map_of_mem he))

/-- A branch of the head comes after all that is processed or queued. -/
theorem Breadth.lt_branch (h : σ.Breadth) {rest : List (Nat × Task)} (hq : σ.queue = e :: rest)
    {p : List Bool} (hp : p ∈ σ.paths) (b : Bool) : place p < place (e.2.path ++ [b]) := by
  have hlen : (e.2.path ++ [b]).length = e.2.path.length + 1 := by simp
  have hhead : ∀ q ∈ σ.processed.map Task.path, place q < place e.2.path := fun q hq' =>
    h.lt_of_split hq' ⟨e, by simp [hq], rfl⟩
  rcases List.mem_append.mp hp with hp | hp
  · have hle := place_length (hhead p hp).le
    exact place_lt.mpr (.inl (by omega))
  · obtain ⟨e', he', rfl⟩ := List.mem_map.mp hp
    rcases h.parent e' he' with hnil | ⟨q, c, hqc, hmem⟩
    · rw [hnil]
      exact place_lt.mpr (.inl (by simp))
    · rw [hqc]
      rcases place_lt.mp (hhead q hmem) with hlt | ⟨heq, hlt⟩
      · exact place_lt.mpr (.inl (by simpa using hlt))
      · exact place_lt.mpr (.inr ⟨by simpa using heq, lt_append heq hlt c b⟩)

theorem Breadth.step (h : σ.Breadth) (hw : (u.tree e.2.path).incs = 0)
    {rest : List (Nat × Task)} (hq : σ.queue = e :: rest) : (process u σ e).Breadth := by
  have hpaths : (process u σ e).paths = σ.paths ++ (branches u e).map fun e => e.2.path := by
    simp [paths, process, hq]
  constructor
  · rw [hpaths, List.map_append, List.pairwise_append]
    refine ⟨h.order, ?_, fun x hx y hy => ?_⟩
    · unfold branches
      split
      · have hlt : e.2.path ++ [false] < e.2.path ++ [true] :=
          List.append_left_lt (List.cons_lt_cons_iff.mpr (.inl rfl))
        simp [place_lt, hlt]
      · simp
    · obtain ⟨p, hp, rfl⟩ := List.mem_map.mp hx
      obtain ⟨p', hp', rfl⟩ := List.mem_map.mp hy
      obtain ⟨e', he', rfl⟩ := List.mem_map.mp hp'
      obtain ⟨-, -, b, hb⟩ := branch_cases he'
      rw [hb]
      exact h.lt_branch hq hp b
  · intro e' he'
    rcases List.mem_append.mp he' with he' | he'
    · exact h.keys e' (List.mem_of_mem_erase he')
    · obtain ⟨-, hkey, b, hb⟩ := branch_cases he'
      have hk := h.keys e (by simp [hq])
      rw [hkey, hb, hw, branchKey, List.length_append, List.length_singleton]
      omega
  · intro e' he'
    change e'.2.path = [] ∨ ∃ q b, e'.2.path = q ++ [b] ∧ q ∈ (σ.processed ++ [e.2]).map Task.path
    rcases List.mem_append.mp he' with he' | he'
    · refine (h.parent e' (List.mem_of_mem_erase he')).imp id fun ⟨q, b, hqb, hm⟩ => ⟨q, b, hqb, ?_⟩
      rw [List.map_append]
      exact List.mem_append_left _ hm
    · obtain ⟨-, -, b, hb⟩ := branch_cases he'
      exact .inr ⟨e.2.path, b, hb, by simp⟩

end Search

end Hvm.Collapse
