import Hvm.Parse.Cursor
import Hvm.Parse.Moves

/-! The name table and the ids that terms carry: `table_find` hands out ids up to `BOOK_CAP`,
a term keeps them in the 18 bits of its EXT field. -/

namespace Hvm

open Effect

/-- States the parser reaches from a fresh process. -/
def Parse.Prepared (p : Parse) : Prop :=
  ∃ path src, ({ parseInit with s := ⟨path, src, 1, 1⟩, seenFiles := [path] } : Parse).Moves p

theorem parseProgram_prepared {files : Text → Option Text} {n : Nat} {path src : Text} {p : Parse}
    (h : parseProgram files n path src = .ok p) : p.Prepared :=
  ⟨path, src, parseProgram_moves h⟩

theorem parseInit_bytes : parseInit.table =
    [[90, 69, 82], [83, 85, 67], [78, 73, 76], [67, 79, 78], [67, 72, 82],
      [108, 111, 103], [108, 111, 103, 95, 103, 111, 95, 48],
      [108, 111, 103, 95, 103, 111, 95, 49], [108, 111, 103, 95, 103, 111, 95, 50]] := by
  simp [parseInit, utf8_eq, String.utf8EncodeChar]

theorem parseInit_nodup : parseInit.table.Nodup := by
  rw [parseInit_bytes]
  decide

theorem Parse.Move.nodup {p q : Parse} (h : p.Move q) (hp : p.table.Nodup) : q.table.Nodup := by
  cases h with
  | intern name hnew hcap =>
    refine hp.append (List.nodup_singleton name) fun a ha hname => ?_
    rw [List.mem_singleton.mp hname] at ha
    exact hnew ha
  | _ => exact hp

theorem Parse.Prepared.nodup {p : Parse} (h : p.Prepared) : p.table.Nodup := by
  obtain ⟨path, src, hmoves⟩ := h
  induction hmoves with
  | refl => exact parseInit_nodup
  | tail _ hmove ih => exact hmove.nodup ih

/-! ### Interning -/

section Interning

variable {p : Parse} {name : Text}

theorem tableFind_known (h : name ∈ p.table) : tableFind name p = .ok (p.table.idxOf name, p) := by
  rw [tableFind, run_bind (a := p) rfl, if_pos h]
  rfl

end Interning

/-! ### Ids in terms -/

/-- The terms made from the id of a name. -/
inductive SymbolTerm (id : Nat) : Term → Prop where
  | ref : SymbolTerm id (termNewRef id)
  | ctr (rt : Rt) (args : List Term) : SymbolTerm id (termNewCtr rt id args).2
  | mat (loc : Nat) : SymbolTerm id (termNew false .mat id loc)
  | pri (rt : Rt) (args : List Term) : SymbolTerm id (termNewPri rt id args).2

theorem SymbolTerm.ext {id : Nat} {t : Term} (h : SymbolTerm id t) : t.ext = id % (extMask + 1) := by
  cases h with
  | ctr rt args =>
    rw [termNewCtr]
    by_cases hargs : args.length = 0
    · rw [if_pos hargs]
      rfl
    · rw [if_neg hargs]
      rfl
  | _ => rfl

section Apart

variable {p : Parse}

end Apart

end Hvm
