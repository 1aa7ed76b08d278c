/-!
# ASCII letters and digits

A character is a capital, a small letter or a digit by its number (`isUpper_iff`, `isLower_iff`).
The small letters stand 32 places behind the capitals, so a change of case leads from one range to
the other, and leaves all other characters as they are.
-/

namespace SoapKit.Text

variable {c d : Char}

/-! ## Ranges -/

theorem isUpper_iff : c.isUpper = true ↔ 65 ≤ c.toNat ∧ c.toNat ≤ 90 :=
  decide_eq_true_iff

theorem isLower_iff : c.isLower = true ↔ 97 ≤ c.toNat ∧ c.toNat ≤ 122 :=
  Bool.and_eq_true_iff.trans (and_congr decide_eq_true_iff decide_eq_true_iff)

theorem isAlpha_iff : c.isAlpha = true ↔ c.isUpper = true ∨ c.isLower = true :=
  Bool.or_eq_true_iff

theorem isAlphanum_iff : c.isAlphanum = true ↔ c.isAlpha = true ∨ c.isDigit = true :=
  Bool.or_eq_true_iff

theorem isAlphanum_of_isUpper (h : c.isUpper = true) : c.isAlphanum = true :=
  isAlphanum_iff.2 (.inl (isAlpha_iff.2 (.inl h)))

theorem isAlphanum_of_isDigit (h : c.isDigit = true) : c.isAlphanum = true :=
  isAlphanum_iff.2 (.inr h)

theorem toNat_lt_of_isAlphanum (h : c.isAlphanum = true) : c.toNat < 128 := by
  rw [isAlphanum_iff, isAlpha_iff, isUpper_iff, isLower_iff, Char.isDigit_iff_toNat] at h
  have hnine : '9'.toNat = 57 := rfl
  omega

theorem isUpper_of_isDigit (h : c.isDigit = true) : c.isUpper = false := by
  rw [Char.isDigit_iff_toNat] at h
  rw [Bool.eq_false_iff, Ne, isUpper_iff]
  have hnine : '9'.toNat = 57 := rfl
  omega

theorem isDigit_of_isUpper (h : c.isUpper = true) : c.isDigit = false := by
  cases hdigit : c.isDigit with
  | false => rfl
  | true => rw [isUpper_of_isDigit hdigit] at h; cases h

theorem isLower_of_isUpper (h : c.isUpper = true) : c.isLower = false := by
  rw [isUpper_iff] at h
  rw [Bool.eq_false_iff, Ne, isLower_iff]
  omega

/-! ## Case -/

theorem toNat_toLower (h : c.isUpper = true) : c.toLower.toNat = c.toNat + 32 := by
  have hupper : c.val ≥ 'A'.val ∧ c.val ≤ 'Z'.val := of_decide_eq_true h
  have hsum : c.toLower.val = c.val + 32 := congrArg Char.val (dif_pos hupper)
  have hnumber : c.toLower.toNat = (c.toNat + 32) % 2 ^ 32 :=
    (congrArg UInt32.toNat hsum).trans (UInt32.toNat_add _ _)
  rw [isUpper_iff] at h
  omega

theorem toLower_of_not_isUpper (h : ¬c.isUpper = true) : c.toLower = c :=
  dif_neg fun hupper => h (decide_eq_true hupper)

theorem toNat_toUpper (h : c.isLower = true) : c.toUpper.toNat = c.toNat - 32 := by
  have hlower : 'a'.val ≤ c.val ∧ c.val ≤ 'z'.val := isLower_iff.1 h
  have hsum : c.toUpper.val = c.val + ('A'.val - 'a'.val) := by
    delta Char.toUpper
    rw [dif_pos hlower]
  have hnumber : c.toUpper.toNat = (c.toNat + ('A'.val - 'a'.val).toNat) % 2 ^ 32 :=
    (congrArg UInt32.toNat hsum).trans (UInt32.toNat_add _ _)
  -- The difference is negative, so it is counted from the top.
  have hdifference : ('A'.val - 'a'.val).toNat = 2 ^ 32 - 32 := by decide
  rw [isLower_iff] at h
  omega

theorem toUpper_of_not_isLower (h : ¬c.isLower = true) : c.toUpper = c :=
  dif_neg fun hlower => h (isLower_iff.2 hlower)

theorem toLower_inj (hc : c.isUpper = true) (hd : d.isUpper = true)
    (h : c.toLower = d.toLower) : c = d := by
  have hnumber := congrArg Char.toNat h
  rw [toNat_toLower hc, toNat_toLower hd] at hnumber
  exact Char.toNat_inj.1 (Nat.add_right_cancel hnumber)

theorem isDigit_toLower (h : c.isUpper = true) : c.toLower.isDigit = false := by
  have hnumber := toNat_toLower h
  rw [isUpper_iff] at h
  rw [Bool.eq_false_iff, Ne, Char.isDigit_iff_toNat]
  have hnine : '9'.toNat = 57 := rfl
  omega

theorem isAlpha_toLower (h : c.isUpper = true) : c.toLower.isAlpha = true := by
  have hnumber := toNat_toLower h
  rw [isUpper_iff] at h
  exact isAlpha_iff.2 (.inr (isLower_iff.2 (by omega)))

theorem isUpper_toUpper (h : c.isLower = true) : c.toUpper.isUpper = true := by
  have hnumber := toNat_toUpper h
  rw [isLower_iff] at h
  exact isUpper_iff.2 (by omega)

theorem isLower_toUpper (c : Char) : c.toUpper.isLower = false := by
  cases h : c.isLower with
  | true => exact isLower_of_isUpper (isUpper_toUpper h)
  | false => rw [toUpper_of_not_isLower (by simp [h]), h]

end SoapKit.Text
