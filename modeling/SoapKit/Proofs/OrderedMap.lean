import SoapKit.OrderedMap
import Mathlib.Data.Nat.Init

/-!
# Maps of entries in parts

A map that is made of entries in several parts has the keys of the maps of the parts, in the order
in which they come first, and the value of a key in the last part that has it.
-/

namespace SoapKit

section EraseDups

variable {α : Type} [BEq α] [LawfulBEq α]

omit [LawfulBEq α] in
/-- Induction that goes from a list to what is left of it without its first member. -/
@[elab_as_elim]
theorem eraseDups_induction {motive : List α → Prop} (nil : motive [])
    (cons : ∀ x rest, motive (rest.filter (!· == x)) → motive (x :: rest)) (xs : List α) :
    motive xs := by
  induction hlength : xs.length using Nat.strong_induction_on generalizing xs with
  | _ length ih =>
    cases xs with
    | nil => exact nil
    | cons x rest =>
      refine cons x rest (ih _ ?_ _ rfl)
      rw [← hlength]
      exact Nat.lt_succ_of_le (List.length_filter_le _ rest)

theorem filter_eraseDups (p : α → Bool) (xs : List α) :
    xs.eraseDups.filter p = (xs.filter p).eraseDups := by
  induction xs using eraseDups_induction with
  | nil => rfl
  | cons x rest ih =>
    rw [List.eraseDups_cons]
    cases hx : p x with
    | true =>
      rw [List.filter_cons_of_pos hx, List.filter_cons_of_pos hx, List.eraseDups_cons, ih,
        List.filter_filter, List.filter_filter]
      simp only [Bool.and_comm]
    | false =>
      have hsame : rest.filter (fun y => p y && !y == x) = rest.filter p := by
        refine List.filter_congr fun y _ => ?_
        by_cases hy : y = x
        · simp [hy, hx]
        · simp [hy]
      rw [List.filter_cons_of_neg (by simp [hx]), List.filter_cons_of_neg (by simp [hx]), ih,
        List.filter_filter, hsame]

theorem eraseDups_eraseDups (xs : List α) : xs.eraseDups.eraseDups = xs.eraseDups := by
  induction xs using eraseDups_induction with
  | nil => rfl
  | cons x rest ih =>
    rw [List.eraseDups_cons, List.eraseDups_cons, ← filter_eraseDups, ih, filter_eraseDups,
      List.filter_filter]
    simp only [Bool.and_self]

/-- The first occurrences in lists one after the other are those among the first occurrences of
each. -/
theorem eraseDups_flatMap_eraseDups (lists : List (List α)) :
    (lists.flatMap (·.eraseDups)).eraseDups = lists.flatten.eraseDups := by
  induction lists with
  | nil => rfl
  | cons first rest ih =>
    rw [List.flatMap_cons, List.flatten_cons, List.eraseDups_append, List.eraseDups_append,
      eraseDups_eraseDups, List.removeAll, List.removeAll, ← filter_eraseDups, ih, filter_eraseDups]
    simp only [List.elem_eq_mem, List.mem_eraseDups]

end EraseDups

namespace OrderedMap

variable {κ ν : Type} [BEq κ] [LawfulBEq κ]

theorem keys_ofList_flatten (parts : List (List (κ × ν))) :
    (ofList parts.flatten).keys = ((parts.map ofList).flatMap keys).eraseDups := by
  have hkeys : (parts.map ofList).flatMap keys =
      (parts.map (·.map (·.1))).flatMap (·.eraseDups) := by
    rw [List.flatMap_map, List.flatMap_map]
    simp only [keys_ofList]
  rw [keys_ofList, hkeys, eraseDups_flatMap_eraseDups, List.map_flatten]

theorem get?_ofList_flatten (parts : List (List (κ × ν))) (key : κ) :
    (ofList parts.flatten).get? key = (parts.map ofList).reverse.findSome? (·.get? key) := by
  rw [get?_ofList, List.reverse_flatten, List.find?_flatten, ← List.map_reverse,
    List.findSome?_map, ← List.map_reverse, List.findSome?_map, List.map_findSome?]
  congr 1
  funext entries
  exact (get?_ofList entries key).symm

end OrderedMap

end SoapKit
