import Mathlib.Computability.StateTransition
import SoapKit.Proofs.Naming.Fresh

/-!
# Requests for names

Names are reserved and asked for in any order. What a request takes is one name: the one that is
reserved, or the one that is handed out.

**Theorem (`takes_allocate`).** Whatever was requested before, the search for a name comes to an
end, and the name that is handed out is none of those that earlier requests took. It is the name
that was asked for if that one is free, and otherwise this name with a number behind an underscore.

The search tries number after number, for as long as names are taken (`FreshNames.search`). All
numbers before the first free one are taken (`firstFree_isLeast`), so the search gets there
(`reaches_retry`). What is taken after some requests is what the requests took (`taken_after`); this
alone relates a name to the earlier ones, so it does not matter which of them look like numbered
names or begin alike.
-/

namespace SoapKit.Naming

open StateTransition (eval mem_eval Reaches)

namespace FreshNames

/-! ## The search for a free name -/

/-- A turn of the search: on to the next number, if the name with this one is taken. -/
def retry (taken : List String) (base : String) (number : Nat) : Option Nat :=
  if numbered base number ∈ taken then some (number + 1) else none

/-- The search for a free name, with as many turns as it takes. -/
noncomputable def search (names : FreshNames) (base : String) : Part String :=
  if base ∈ names.taken then
    (eval (retry names.taken base) (names.startNumber base)).map (numbered base)
  else Part.some base

variable {names : FreshNames} {base : String}

theorem reaches_retry {taken : List String} {start number : Nat} (hle : start ≤ number)
    (h : ∀ k, start ≤ k → k < number → numbered base k ∈ taken) :
    Reaches (retry taken base) start number := by
  induction number, hle using Nat.le_induction with
  | base => exact .refl
  | succ number hle ih =>
    have hearlier := ih fun k hk hlt => h k hk (Nat.lt_succ_of_lt hlt)
    exact hearlier.tail (if_pos (h number hle (Nat.lt_succ_self number)))

/-- Among the numbers before the one that is found, none has a free name; so the search finds it. -/
theorem eval_retry (names : FreshNames) (base : String) :
    eval (retry names.taken base) (names.startNumber base) =
      Part.some (firstFree names.taken base names.taken.length (names.startNumber base)) := by
  obtain ⟨⟨hle, hfree⟩, hleast⟩ := firstFree_isLeast names base
  refine Part.eq_some_iff.2 (mem_eval.2 ⟨reaches_retry hle fun k hk hlt => ?_, if_neg hfree⟩)
  by_contra hnot
  exact absurd (hleast ⟨hk, hnot⟩) (Nat.not_le_of_lt hlt)

/-- The search ends, and with the name that is chosen. -/
theorem search_eq (names : FreshNames) (base : String) :
    names.search base = Part.some (names.choose base) := by
  rw [search, choose, eval_retry, Part.map_some]
  simp only [List.contains_iff_mem]
  split <;> rfl

/-- The number begins above the count of some of the taken names and passes each of them at most
once. -/
theorem firstFree_le (names : FreshNames) (base : String) :
    firstFree names.taken base names.taken.length (names.startNumber base) ≤
      2 * names.taken.length + 1 := by
  obtain ⟨more, hmore, hfree⟩ :=
    exists_free (numbered_injective base) names.taken (names.startNumber base)
  have hfound := (firstFree_isLeast names base).2 ⟨Nat.le_add_right _ more, hfree⟩
  have hstart : names.startNumber base ≤ names.taken.length + 1 :=
    Nat.succ_le_succ List.countP_le_length
  omega

/-! ## One request after the other -/

/-- A name to be reserved, or a base for a name that is to be handed out. -/
inductive Request where
  | reserve (name : String)
  | allocate (base : String)
  deriving Repr, DecidableEq, Inhabited

/-- The name that a request takes, and the names after it. -/
def serve (names : FreshNames) : Request → String × FreshNames
  | .reserve name => (name, names.reserve name)
  | .allocate base => names.allocate base

/-- The names that requests take, one for each of them. -/
def takes (names : FreshNames) : List Request → List String
  | [] => []
  | request :: requests => (names.serve request).1 :: (names.serve request).2.takes requests

/-- The names after some requests. -/
def after (names : FreshNames) : List Request → FreshNames
  | [] => names
  | request :: requests => (names.serve request).2.after requests

/-- A request adds to the names the one that it takes. -/
theorem taken_serve (names : FreshNames) (request : Request) :
    (names.serve request).2.taken = names.taken ++ [(names.serve request).1] := by
  cases request <;> rfl

/-- Requests add to the names those that they take. -/
theorem taken_after (names : FreshNames) (requests : List Request) :
    (names.after requests).taken = names.taken ++ names.takes requests := by
  induction requests generalizing names with
  | nil => exact (List.append_nil _).symm
  | cons request requests ih =>
    rw [after, ih, taken_serve, takes, List.append_assoc, List.singleton_append]

theorem takes_append (names : FreshNames) (requests more : List Request) :
    names.takes (requests ++ more) =
      names.takes requests ++ (names.after requests).takes more := by
  induction requests generalizing names with
  | nil => rfl
  | cons request requests ih => rw [List.cons_append, takes, ih, takes, after, List.cons_append]

theorem length_takes (names : FreshNames) (requests : List Request) :
    (names.takes requests).length = requests.length := by
  induction requests generalizing names with
  | nil => rfl
  | cons request requests ih => rw [takes, List.length_cons, ih, List.length_cons]

/-- Whatever was requested before, a name is found that no earlier request took: the base itself if
it is free, and otherwise the base with a number. It is the first number that will do, above the
count of the names that begin with the base; numbers stay within twice the count of requests. -/
theorem takes_allocate (requests more : List Request) (base : String) :
    ∃ name others,
      empty.takes (requests ++ .allocate base :: more) =
        empty.takes requests ++ name :: others ∧
      (empty.after requests).search base = Part.some name ∧
      name ∉ empty.takes requests ∧
      (base ∉ empty.takes requests → name = base) ∧
      (base ∈ empty.takes requests → ∃ number, name = base ++ "_" ++ toString number ∧
        IsLeast {k | (empty.takes requests).countP
              (fun known => base.toList.isPrefixOf known.toList) < k ∧
            base ++ "_" ++ toString k ∉ empty.takes requests} number ∧
        number ≤ 2 * requests.length + 1) := by
  have htaken : (empty.after requests).taken = empty.takes requests := taken_after empty requests
  refine ⟨(empty.after requests).choose base, _, takes_append empty requests _, search_eq _ _,
    ?_, fun hfree => ?_, fun hbase => ?_⟩
  · exact htaken ▸ choose_not_mem _ base
  · rw [choose, if_neg]
    rwa [htaken, List.contains_iff_mem]
  · have hlength : (empty.after requests).taken.length = requests.length := by
      rw [htaken, length_takes]
    rw [← htaken] at hbase ⊢
    refine ⟨_, if_pos (List.contains_iff_mem.2 hbase), firstFree_isLeast _ base, ?_⟩
    calc _ ≤ 2 * (empty.after requests).taken.length + 1 := firstFree_le _ base
      _ = 2 * requests.length + 1 := by rw [hlength]

/-- Two names begin with the base, so the numbers begin at three, which is taken as well. -/
example : empty.takes [.reserve "a", .allocate "a_3", .allocate "a", .allocate "a_3"] =
    ["a", "a_3", "a_4", "a_3_2"] := by
  decide +kernel

end FreshNames

end SoapKit.Naming
