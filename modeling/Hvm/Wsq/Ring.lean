import Mathlib

/-! Ring buffers: the elements between two counters, where counter `i` has slot `i % cap`. -/

namespace Ring

variable {α : Type*} {cap : Nat} {buf : Nat → α} {t b : Nat} {x : α}

/-- The elements of the counters from `t` up to `b`, the oldest first. -/
def slice (cap : Nat) (buf : Nat → α) (t b : Nat) : List α :=
  (List.range' t (b - t)).map fun i => buf (i % cap)

theorem slice_of_le (h : b ≤ t) : slice cap buf t b = [] := by
  have h0 : b - t = 0 := by omega
  rw [slice, h0]
  rfl

@[simp] theorem slice_length : (slice cap buf t b).length = b - t := by simp [slice]

theorem slice_cons (h : t < b) : slice cap buf t b = buf (t % cap) :: slice cap buf (t + 1) b := by
  obtain ⟨n, hn⟩ : ∃ n, b - t = n + 1 := ⟨b - t - 1, by omega⟩
  have hrest : b - (t + 1) = n := by omega
  rw [slice, slice, hn, hrest, List.range'_succ, List.map_cons]

theorem slice_concat (h : t ≤ b) : slice cap buf t (b + 1) = slice cap buf t b ++ [buf (b % cap)] := by
  have hn : b + 1 - t = b - t + 1 := by omega
  rw [slice, slice, hn, List.range'_concat, List.map_append, List.map_singleton]
  have hb : t + 1 * (b - t) = b := by omega
  rw [hb]

/-- Two counters less than `cap` apart have different slots. -/
theorem slot_ne (h : t < b) (hcap : b - t < cap) : t % cap ≠ b % cap := by
  intro he
  have hdvd := Nat.dvd_of_mod_eq_zero (Nat.sub_mod_eq_zero_of_mod_eq he.symm)
  have hle := Nat.le_of_dvd (by omega) hdvd
  omega

/-- Writing the slot of a counter less than `cap` above `t` leaves the elements below it. -/
theorem slice_update (hcap : b - t < cap) :
    slice cap (Function.update buf (b % cap) x) t b = slice cap buf t b := by
  refine List.map_congr_left fun i hi => ?_
  obtain ⟨hti, hib⟩ := List.mem_range'_1.mp hi
  have hlt : i < b := by omega
  have hic : b - i < cap := by omega
  exact Function.update_of_ne (slot_ne hlt hic) x buf

end Ring
