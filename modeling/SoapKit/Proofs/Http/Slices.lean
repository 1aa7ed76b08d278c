import SoapKit.Decimal.Integer
import SoapKit.Http.Multipart
import Mathlib.Data.List.Find
import Mathlib.Tactic.SplitIfs

/-!
# Offsets into bytes

A body can also be read in place, by offsets. A step on offsets may then leave the bytes, or need a
number that no 64-bit word holds. Here each step says so (`Stop`), and a computation from such steps
that gives the same as one on lists has stayed within bounds all along.
-/

namespace SoapKit.Http

/-- Why a computation on offsets stops. -/
inductive Stop where
  | refused (e : MultipartError)
  /-- A sum or a difference is not a number of 64 bits. -/
  | overflow
  /-- A slice or a byte is not within the bytes. -/
  | outside
  deriving Repr, DecidableEq

variable {s needle : Bytes} {start index : Nat}

/-! ## Slices and bytes -/

/-- The bytes from one offset up to another one. -/
def slice (s : Bytes) (start stop : Nat) : Except Stop Bytes :=
  if start ≤ stop ∧ stop ≤ s.length then .ok ((s.take stop).drop start) else .error .outside

theorem slice_eq_ok {stop : Nat} {bytes : Bytes} (h : slice s start stop = .ok bytes) :
    start + bytes.length = stop ∧ stop ≤ s.length := by
  rw [slice] at h
  split_ifs at h with hbounds
  cases h
  rw [List.length_drop, List.length_take]
  omega

theorem slice_to (h : index ≤ s.length) : slice s 0 index = .ok (s.take index) := by
  rw [slice, if_pos ⟨Nat.zero_le _, h⟩, List.drop_zero]

theorem slice_from (h : index ≤ s.length) : slice s index s.length = .ok (s.drop index) := by
  rw [slice, if_pos ⟨h, Nat.le_refl _⟩, List.take_length]

theorem slice_self (h : index ≤ s.length) : slice s index index = .ok [] := by
  rw [slice, if_pos ⟨Nat.le_refl _, h⟩, List.drop_take, Nat.sub_self, List.take_zero]

theorem slice_append (before middle after : Bytes) :
    slice (before ++ (middle ++ after)) before.length (before.length + middle.length) =
      .ok middle := by
  have hbound : before.length + middle.length ≤ (before ++ (middle ++ after)).length := by
    simp only [List.length_append]
    omega
  rw [slice, if_pos ⟨Nat.le_add_right _ _, hbound⟩, List.take_length_add_append,
    List.drop_left, List.take_left]

/-- The byte at an offset. -/
def byteAt (s : Bytes) (index : Nat) : Except Stop UInt8 :=
  match s[index]? with
  | some byte => .ok byte
  | none => .error .outside

theorem byteAt_append (before : Bytes) (byte : UInt8) (after : Bytes) :
    byteAt (before ++ byte :: after) before.length = .ok byte := by
  simp [byteAt]

/-! ## Words -/

/-- A sum of 64-bit words. -/
def wordSum (a b : Nat) : Except Stop Nat :=
  if a + b ≤ Decimal.maxWord then .ok (a + b) else .error .overflow

/-- A difference of 64-bit words. -/
def wordDifference (a b : Nat) : Except Stop Nat :=
  if b ≤ a then .ok (a - b) else .error .overflow

theorem wordDifference_add (a b : Nat) : wordDifference (a + b) b = .ok a := by
  rw [wordDifference, if_pos (Nat.le_add_left b a), Nat.add_sub_cancel]

/-! ## Searches -/

/-- The first offset at which bytes occur, from an offset on. -/
def offsetOf? (needle s : Bytes) (start : Nat) : Option Nat :=
  (List.range s.length).find? fun i => start ≤ i && needle.isPrefixOf (s.drop i)

theorem offsetOf?_eq_some_iff : offsetOf? needle s start = some index ↔
    start ≤ index ∧ index < s.length ∧ needle <+: s.drop index ∧
      ∀ i, start ≤ i → i < index → ¬needle <+: s.drop i := by
  simp only [offsetOf?, List.find?_range_eq_some, Bool.and_eq_true, decide_eq_true_eq,
    List.isPrefixOf_iff_prefix, List.mem_range, Bool.not_eq_true', ← Bool.not_eq_true]
  constructor
  · rintro ⟨⟨hstart, hprefix⟩, hlength, hfirst⟩
    exact ⟨hstart, hlength, hprefix, fun i hi hindex h => hfirst i hindex ⟨hi, h⟩⟩
  · rintro ⟨hstart, hlength, hprefix, hfirst⟩
    exact ⟨⟨hstart, hprefix⟩, hlength, fun i hindex h => hfirst i h.1 hindex h.2⟩

theorem offsetOf?_eq_none (h : s.length ≤ start) : offsetOf? needle s start = none := by
  rw [offsetOf?, List.find?_range_eq_none]
  intro i hi
  rw [decide_eq_false (by omega), Bool.false_and, Bool.not_false]

/-- Where the bytes do not occur, the search goes on. -/
theorem offsetOf?_succ (h : ¬needle <+: s.drop start) :
    offsetOf? needle s start = offsetOf? needle s (start + 1) := by
  refine List.find?_congr fun i _ => ?_
  by_cases hi : i = start
  · subst hi
    rw [← List.isPrefixOf_iff_prefix, Bool.not_eq_true] at h
    rw [h, Bool.and_false, Bool.and_false]
  · rw [decide_eq_decide.2 (show start ≤ i ↔ start + 1 ≤ i by omega)]

theorem offsetOf?_cons (needle : Bytes) (byte : UInt8) (rest : Bytes) :
    offsetOf? needle (byte :: rest) 0 =
      if needle.isPrefixOf (byte :: rest) then some 0
      else (offsetOf? needle rest 0).map (· + 1) := by
  simp only [offsetOf?, List.length_cons, List.range_succ_eq_map, List.find?_cons, List.drop_zero,
    List.find?_map, Nat.zero_le, decide_true, Bool.true_and]
  by_cases hprefix : needle.isPrefixOf (byte :: rest) = true
  · rw [if_pos hprefix, hprefix]
  · rw [if_neg hprefix, Bool.eq_false_iff.2 hprefix]
    rfl

theorem add_length_le_of_offsetOf? (h : offsetOf? needle s start = some index) :
    index + needle.length ≤ s.length := by
  obtain ⟨-, hindex, hprefix, -⟩ := offsetOf?_eq_some_iff.1 h
  have hlength := hprefix.length_le
  rw [List.length_drop] at hlength
  omega

end SoapKit.Http
