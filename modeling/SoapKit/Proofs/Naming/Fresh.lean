import Mathlib.Data.List.Nodup
import Mathlib.Data.List.Perm.Subperm
import Mathlib.Order.Bounds.Basic
import SoapKit.Naming.Fresh

/-!
# Names that are free

Numbers are tried one after the other until the name with the number is free. The names with
different numbers are different, so there are fewer taken ones than numbers to try (`exists_free`);
as many steps as there are taken names find the first free number (`seek_isLeast`). Hence a name
that is handed out was not taken (`FreshNames.choose_not_mem`), and names that are taken one after
the other are all different (`FreshNames.nodup_allocate`).
-/

namespace SoapKit.Naming

/-! ## Trying numbers -/

/-- The first number from a given one on that is not taken, within some steps. -/
def seek (isTaken : Nat → Bool) : Nat → Nat → Nat
  | 0, number => number
  | steps + 1, number =>
    if isTaken number then seek isTaken steps (number + 1) else number

theorem seek_isLeast {isTaken : Nat → Bool} {steps start : Nat}
    (h : ∃ more ≤ steps, isTaken (start + more) = false) :
    IsLeast {number | start ≤ number ∧ isTaken number = false} (seek isTaken steps start) := by
  induction steps generalizing start with
  | zero =>
    obtain ⟨more, hmore, hfree⟩ := h
    obtain rfl : more = 0 := Nat.le_zero.1 hmore
    exact ⟨⟨Nat.le_refl _, hfree⟩, fun number hnumber => hnumber.1⟩
  | succ steps ih =>
    by_cases htaken : isTaken start = true
    · have hlater : ∃ more ≤ steps, isTaken (start + 1 + more) = false := by
        obtain ⟨more, hmore, hfree⟩ := h
        cases more with
        | zero =>
          rw [Nat.add_zero, htaken] at hfree
          cases hfree
        | succ more => exact ⟨more, by omega, by rwa [Nat.add_right_comm]⟩
      obtain ⟨⟨hle, hfree⟩, hleast⟩ := ih hlater
      rw [seek, if_pos htaken]
      refine ⟨⟨Nat.le_of_succ_le hle, hfree⟩, ?_⟩
      rintro number ⟨hnumber, hnot⟩
      refine hleast ⟨Nat.lt_of_le_of_ne hnumber ?_, hnot⟩
      rintro rfl
      rw [htaken] at hnot
      cases hnot
    · rw [seek, if_neg htaken]
      exact ⟨⟨Nat.le_refl _, by simpa using htaken⟩, fun number hnumber => hnumber.1⟩

theorem toString_injective : Function.Injective (toString : Nat → String) := by
  intro i j h
  have hdigits : Nat.toDigits 10 i = Nat.toDigits 10 j := by
    have hlists := congrArg String.toList h
    rwa [Nat.toString_eq_ofList_toDigits, Nat.toString_eq_ofList_toDigits, String.toList_ofList,
      String.toList_ofList] at hlists
  calc i = Nat.ofDigitChars 10 (Nat.toDigits 10 i) 0 := Nat.ofDigitChars_ten_toDigits.symm
    _ = Nat.ofDigitChars 10 (Nat.toDigits 10 j) 0 := by rw [hdigits]
    _ = j := Nat.ofDigitChars_ten_toDigits

/-- Of more names than are taken one is free. -/
theorem exists_free {name : Nat → String} (hname : Function.Injective name) (taken : List String)
    (start : Nat) : ∃ more ≤ taken.length, name (start + more) ∉ taken := by
  by_contra h
  push Not at h
  have hnodup : ((List.range (taken.length + 1)).map fun more => name (start + more)).Nodup :=
    List.Nodup.map (fun i j hij => Nat.add_left_cancel (hname hij)) List.nodup_range
  have hsubset : (List.range (taken.length + 1)).map (fun more => name (start + more)) ⊆ taken := by
    intro candidate hcandidate
    obtain ⟨more, hmore, rfl⟩ := List.mem_map.1 hcandidate
    exact h more (Nat.lt_succ_iff.1 (List.mem_range.1 hmore))
  have hlength := (hnodup.subperm hsubset).length_le
  rw [List.length_map, List.length_range] at hlength
  omega

/-! ## Fresh names -/

namespace FreshNames

variable {names : FreshNames} {base : String}

theorem numbered_injective (base : String) : Function.Injective (numbered base) := by
  intro i j h
  have hlist := congrArg String.toList h
  simp only [numbered, String.toList_append, List.append_cancel_left_eq] at hlist
  exact toString_injective (String.toList_inj.1 hlist)

theorem firstFree_eq_seek (taken : List String) (base : String) (steps number : Nat) :
    firstFree taken base steps number =
      seek (fun number => taken.contains (numbered base number)) steps number := by
  induction steps generalizing number with
  | zero => rfl
  | succ steps ih => rw [firstFree, seek, ih]

/-- The number that is found is the first one whose name is free. -/
theorem firstFree_isLeast (names : FreshNames) (base : String) :
    IsLeast {number | names.startNumber base ≤ number ∧ numbered base number ∉ names.taken}
      (firstFree names.taken base names.taken.length (names.startNumber base)) := by
  have hfree : ∃ more ≤ names.taken.length,
      names.taken.contains (numbered base (names.startNumber base + more)) = false := by
    simpa using exists_free (numbered_injective base) names.taken (names.startNumber base)
  have hleast : IsLeast _ (firstFree names.taken base _ (names.startNumber base)) :=
    firstFree_eq_seek .. ▸ seek_isLeast hfree
  simpa using hleast

/-- A name that is handed out was not taken before. -/
theorem choose_not_mem (names : FreshNames) (base : String) :
    names.choose base ∉ names.taken := by
  unfold choose
  split
  · exact (firstFree_isLeast names base).1.2
  · next h => simpa using h

theorem nodup_allocate (h : names.taken.Nodup) (base : String) :
    (names.allocate base).2.taken.Nodup := by
  rw [allocate, reserve, ← List.concat_eq_append, List.nodup_concat]
  exact ⟨names.choose_not_mem base, h⟩

/-- A name that is handed out for a base is the base, maybe with a number. -/
theorem choose_eq (names : FreshNames) (base : String) :
    names.choose base = base ∨ ∃ number, names.choose base = numbered base number := by
  unfold choose
  split
  · exact .inr ⟨_, rfl⟩
  · exact .inl rfl

end FreshNames

end SoapKit.Naming
