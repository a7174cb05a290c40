import Hvm.Machine

/-! Application spines: a word that reads as a head applied to a list of arguments. -/

namespace Hvm

/-- In heap `h`, `t` is `hd` applied to `args`, the first argument innermost. -/
inductive AppSpine (h : Nat → Cell) (hd : Term) : List Term → Term → Prop where
  | head : AppSpine h hd [] hd
  | app {args : List Term} {f a : Term} {loc : Nat} : AppSpine h hd args f →
      h loc = .tm f → h (loc + 1) = .tm a → AppSpine h hd (args ++ [a]) (termNew false .app 0 loc)

theorem AppSpine.single {h : Nat → Cell} {hd a : Term} {loc : Nat} (hf : h loc = .tm hd)
    (ha : h (loc + 1) = .tm a) : AppSpine h hd [a] (termNew false .app 0 loc) :=
  .app .head hf ha

theorem AppSpine.trans {h : Nat → Cell} {hd f t : Term} {as bs : List Term}
    (hf : AppSpine h hd as f) (ht : AppSpine h f bs t) : AppSpine h hd (as ++ bs) t := by
  induction ht with
  | head => simpa using hf
  | app _ h0 h1 ih =>
    rw [← List.append_assoc]
    exact .app ih h0 h1

theorem AppSpine.nil_inv {h : Nat → Cell} {hd t : Term} (ht : AppSpine h hd [] t) : t = hd := by
  generalize he : ([] : List Term) = as at ht
  cases ht with
  | head => rfl
  | app => simp at he

end Hvm
