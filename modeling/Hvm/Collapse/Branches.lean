import Hvm.Collapse.Worker

/-! The branches of a tree. A list of locations that comes from the root and from the branches of
its own superpositions has every path at most once. -/

namespace Hvm.Collapse

def Out.isSup : Out → Bool
  | .sup _ => true
  | _ => false

/-- The two branches of a superposition. -/
def children (u : Setup) (t : Task) : Multiset Task :=
  match (u.tree t.path).out with
  | .sup loc => {⟨loc, t.path ++ [false]⟩, ⟨loc + 1, t.path ++ [true]⟩}
  | _ => 0

/-- The paths `cnf` gets to. -/
inductive IsBranch (tree : Tree) : List Bool → Prop
  | root : IsBranch tree []
  | side {p : List Bool} (h : IsBranch tree p) (ho : (tree p).out.isSup) (b : Bool) :
      IsBranch tree (p ++ [b])

def isLeaf (u : Setup) (t : Task) : Bool := (u.tree t.path).out = .leaf

variable {u : Setup}

variable {root : Task} {X : Multiset Task}

end Hvm.Collapse
