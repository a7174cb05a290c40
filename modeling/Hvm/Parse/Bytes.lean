import Hvm.Parse.Source

/-! The bytes of a literal text, and the classes of bytes the parser tells apart. -/

namespace Hvm

variable {c m : UInt8} {l : Text}

/-! ### Literal texts -/

/-- The loop of `ByteArray.toList` puts what is left behind what it has read. -/
theorem toList_loop (bs : ByteArray) (i : Nat) (read : Text) :
    ByteArray.toList.loop bs i read = read.reverse ++ bs.data.toList.drop i := by
  induction h : bs.size - i generalizing i read with
  | zero =>
    have hi : bs.size ≤ i := by omega
    rw [ByteArray.toList.loop, if_neg (by omega), List.drop_eq_nil_of_le hi, List.append_nil]
  | succ n ih =>
    have hi : i < bs.size := by omega
    have hget : bs.get! i = bs.data.toList[i] := by simp [ByteArray.get!, hi]
    rw [ByteArray.toList.loop, if_pos hi, ih (i + 1) _ (by omega), hget, List.reverse_cons,
      List.append_assoc, List.singleton_append, ← List.drop_eq_getElem_cons hi]

theorem utf8_eq (s : String) : utf8 s = s.toList.flatMap String.utf8EncodeChar := by
  have hs : s.toUTF8 = (s.toList.flatMap String.utf8EncodeChar).toByteArray :=
    String.utf8Encode_toList.symm
  rw [utf8, hs, ByteArray.toList, toList_loop, List.toList_data_toByteArray]
  rfl

/-! ### Names, digits and spaces -/

theorem isDigit_iff : isDigit c = true ↔ 48 ≤ c.toNat ∧ c.toNat ≤ 57 := by
  simp [isDigit, UInt8.le_iff_toNat_le, byte]

theorem nickIsInit_iff : nickIsInit c = true ↔
    97 ≤ c.toNat ∧ c.toNat ≤ 122 ∨ 65 ≤ c.toNat ∧ c.toNat ≤ 90 := by
  simp [nickIsInit, UInt8.le_iff_toNat_le, byte]

theorem isSpace_iff : PState.isSpace c = true ↔
    c = byte ' ' ∨ c = byte '\t' ∨ c = byte '\n' ∨ c = byte '\r' := by
  simp [PState.isSpace, or_assoc]

theorem nickIsChar_iff : nickIsChar c = true ↔
    c = byte '_' ∨ nickIsInit c = true ∨ isDigit c = true ∨ c = byte '$' := by
  simp only [nickIsChar, nickLetterToB64, nickIsInit, isDigit, Bool.or_eq_true, Bool.and_eq_true,
    decide_eq_true_eq]
  split_ifs <;> simp [*]

theorem char_of_init (h : nickIsInit c = true) : nickIsChar c = true := by
  rw [nickIsChar_iff]
  exact .inr (.inl h)

theorem char_of_digit (h : isDigit c = true) : nickIsChar c = true := by
  rw [nickIsChar_iff]
  exact .inr (.inr (.inl h))

theorem not_digit_of_init (h : nickIsInit c = true) : isDigit c = false := by
  rw [nickIsInit_iff] at h
  rw [← Bool.not_eq_true, isDigit_iff]
  omega

theorem no_char_of_space (h : PState.isSpace c = true) : nickIsChar c = false := by
  rw [isSpace_iff] at h
  rcases h with rfl | rfl | rfl | rfl <;> rfl

/-! ### The values of letters -/

theorem toNat_sub_le {lo hi : UInt8} (h : lo ≤ c ∧ c ≤ hi) : (c - lo).toNat ≤ hi.toNat - lo.toNat := by
  rw [UInt8.toNat_sub_of_le c lo h.1]
  have hle := UInt8.le_iff_toNat_le.mp h.2
  omega

theorem nickLetter_lt (c : UInt8) : (nickLetterToB64 c).getD 0 < 64 := by
  unfold nickLetterToB64
  split_ifs with h1 hlow hup hdig h5
  · decide
  · have hle : _ ≤ 25 := toNat_sub_le hlow
    rw [Option.getD_some]
    omega
  · have hle : _ ≤ 25 := toNat_sub_le hup
    rw [Option.getD_some]
    omega
  · have hle : _ ≤ 9 := toNat_sub_le hdig
    rw [Option.getD_some]
    omega
  · decide
  · decide

/-- A name starts with a letter, and no letter counts as zero. -/
theorem nickLetter_of_init (h : nickIsInit c = true) :
    1 ≤ (nickLetterToB64 c).getD 0 ∧ (nickLetterToB64 c).getD 0 ≤ 52 := by
  have hc : c ≠ byte '_' := by
    rintro rfl
    cases h
  simp only [nickIsInit, Bool.or_eq_true, Bool.and_eq_true, decide_eq_true_eq] at h
  rw [nickLetterToB64, if_neg hc]
  by_cases hlow : byte 'a' ≤ c ∧ c ≤ byte 'z'
  · have hle : _ ≤ 25 := toNat_sub_le hlow
    rw [if_pos hlow, Option.getD_some]
    omega
  · have hup := h.resolve_left hlow
    have hle : _ ≤ 25 := toNat_sub_le hup
    rw [if_neg hlow, if_pos hup, Option.getD_some]
    omega

/-! ### What a character of a name is not -/

theorem no_space_of_char (h : nickIsChar c = true) : PState.isSpace c = false := by
  by_contra hs
  rw [no_char_of_space (Bool.not_eq_false _ |>.mp hs)] at h
  cases h

theorem ne_of_char (h : nickIsChar c = true) (hm : nickIsChar m = false) : c ≠ m := by
  rintro rfl
  rw [hm] at h
  cases h

theorem no_char_of_any (hl : l.any nickIsChar = false) (hm : m ∈ l) : nickIsChar m = false :=
  Bool.not_eq_true _ |>.mp (List.any_eq_false.mp hl m hm)

theorem notMem_of_char (h : nickIsChar c = true) (hl : l.any nickIsChar = false) : c ∉ l :=
  fun hm => ne_of_char h (no_char_of_any hl hm) rfl

end Hvm
