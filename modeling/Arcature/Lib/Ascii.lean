import Arcature.Lib.Text

/-! ASCII: what holds of its characters one by one.

    A class of ASCII characters is finite, so a fact about it is a check of 128 cases, which
    `forall_ascii` carries over to characters. -/

namespace Arcature.Lib.Ascii

/-- What holds of the first 128 code points holds of every ASCII character. -/
theorem forall_ascii (P : Char → Prop) (h : ∀ n : Fin 128, P (Char.ofNat n.val)) {c : Char}
    (hc : c.toNat < 128) : P c := by
  have hn := h ⟨c.toNat, hc⟩
  rwa [Char.ofNat_toNat] at hn

/-- An ASCII text has a byte for each character. -/
theorem len_eq_length {s : Str} (h : ∀ c ∈ s, c.toNat < 128) : s.len = s.length := by
  induction s with
  | nil => rfl
  | cons c s ih =>
    have hsize : c.utf8Size = 1 := by
      rw [← String.length_utf8EncodeChar, Str.utf8EncodeChar_ascii (h c List.mem_cons_self), List.length_singleton]
    rw [Str.len, hsize, ih fun d hd => h d (List.mem_cons_of_mem c hd), List.length_cons, Nat.add_comm]

/-- Letters and digits are ASCII. -/
theorem toNat_lt_of_isAlphanum {c : Char} (h : c.isAlphanum = true) : c.toNat < 128 := by
  unfold Char.isAlphanum Char.isAlpha Char.isUpper Char.isLower Char.isDigit at h
  simp only [Bool.or_eq_true, Bool.and_eq_true, decide_eq_true_eq, ge_iff_le, UInt32.le_iff_toNat_le] at h
  have hZ : 'Z'.val.toNat = 90 := rfl
  have hz : 'z'.val.toNat = 122 := rfl
  have h9 : '9'.val.toNat = 57 := rfl
  rw [Char.toNat]
  omega

/-- What holds of the letters and digits among them holds of all letters and digits. -/
theorem forall_alphanum (P : Char → Prop)
    (h : ∀ n : Fin 128, (Char.ofNat n.val).isAlphanum = true → P (Char.ofNat n.val)) {c : Char}
    (hc : c.isAlphanum = true) : P c :=
  forall_ascii (fun c => c.isAlphanum = true → P c) h (toNat_lt_of_isAlphanum hc) hc

theorem isAlpha_of_isLower {c : Char} (h : c.isLower = true) : c.isAlpha = true := by
  unfold Char.isAlpha
  rw [h, Bool.or_true]

theorem isAlpha_of_isUpper {c : Char} (h : c.isUpper = true) : c.isAlpha = true := by
  unfold Char.isAlpha
  rw [h, Bool.true_or]

theorem isAlphanum_of_isLower {c : Char} (h : c.isLower = true) : c.isAlphanum = true := by
  simp [Char.isAlphanum, isAlpha_of_isLower h]

theorem isAlphanum_of_isDigit {c : Char} (h : c.isDigit = true) : c.isAlphanum = true := by
  simp [Char.isAlphanum, h]

/-- How a letter or a digit changes its case. -/
def Cased (c : Char) : Prop :=
  (c.isAlpha = true → c.toLower.isLower = true) ∧ (c.toLower.isLower = true ∨ c.toLower.isDigit = true) ∧
    (c.isLower = true → c.toLower = c ∧ c.isUpper = false ∧ c.toUpper.isUpper = true ∧ c.toUpper.toLower = c) ∧
      (c.isDigit = true → c.toLower = c ∧ c.isUpper = false ∧ c.isLower = false ∧ c.toUpper = c) ∧
        Str.isWhiteSpace c = false

instance (c : Char) : Decidable (Cased c) :=
  inferInstanceAs (Decidable ((_ → _) ∧ (_ ∨ _) ∧ (_ → _ ∧ _ ∧ _ ∧ _) ∧ (_ → _ ∧ _ ∧ _ ∧ _) ∧ _))

theorem cased {c : Char} (h : c.isAlphanum = true) : Cased c := forall_alphanum Cased (by decide +kernel) h

theorem isLower_toLower {c : Char} (h : c.isAlpha = true) : c.toLower.isLower = true := by
  have halnum : c.isAlphanum = true := by simp [Char.isAlphanum, h]
  exact (cased halnum).1 h

/-- Lower case keeps the digits and turns the letters into lower-case ones. -/
theorem toLower_of_isAlphanum {c : Char} (h : c.isAlphanum = true) :
    c.toLower.isLower = true ∨ c.toLower.isDigit = true := (cased h).2.1

/-- A letter in lower case stays, and is found again when it was put into upper case. -/
theorem cased_of_isLower {c : Char} (h : c.isLower = true) :
    c.toLower = c ∧ c.isUpper = false ∧ c.toUpper.isUpper = true ∧ c.toUpper.toLower = c :=
  (cased (isAlphanum_of_isLower h)).2.2.1 h

/-- A digit has no case. -/
theorem cased_of_isDigit {c : Char} (h : c.isDigit = true) :
    c.toLower = c ∧ c.isUpper = false ∧ c.isLower = false ∧ c.toUpper = c :=
  (cased (isAlphanum_of_isDigit h)).2.2.2.1 h

theorem toLower_of_isLower {c : Char} (h : c.isLower = true) : c.toLower = c := (cased_of_isLower h).1

theorem toLower_of_isDigit {c : Char} (h : c.isDigit = true) : c.toLower = c := (cased_of_isDigit h).1

theorem isUpper_toUpper {c : Char} (h : c.isLower = true) : c.toUpper.isUpper = true := (cased_of_isLower h).2.2.1

theorem toUpper_of_isDigit {c : Char} (h : c.isDigit = true) : c.toUpper = c := (cased_of_isDigit h).2.2.2

/-- Letters and digits are no white space. -/
theorem isWhiteSpace_of_isAlphanum {c : Char} (h : c.isAlphanum = true) : Str.isWhiteSpace c = false :=
  (cased h).2.2.2.2

end Arcature.Lib.Ascii
