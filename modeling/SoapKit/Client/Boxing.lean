import SoapKit.Client.Record

/-!
# Boxed fields

A record that holds itself, directly or through other records, would be of infinite size. A field
whose record leads back to the record of the field is therefore boxed. Lists need no boxes, since
they are apart from the record anyway.
-/

namespace SoapKit.Client

/-- The records that a layout holds without a list between them. -/
def Layout.held (layout : Layout) : List Nat :=
  layout.fields.filterMap (·.source.held?)

/-- The records that the record at a position holds. -/
def heldBy (layouts : List Layout) (index : Nat) : List Nat :=
  ((layouts[index]?).map Layout.held).getD []

/-- How many of the first `count` positions have not been seen. -/
def unseenCount (count : Nat) (seen : List Nat) : Nat :=
  (List.range count).countP fun index => !seen.contains index

theorem unseenCount_cons_lt {count index : Nat} {seen : List Nat} (inside : index < count)
    (isNew : seen.contains index = false) :
    unseenCount count (index :: seen) < unseenCount count seen := by
  unfold unseenCount
  have split : (List.range count).countP (fun i => !(index :: seen).contains i) =
      ((List.range count).filter fun i => !seen.contains i).countP (fun i => !(i == index)) := by
    rw [List.countP_filter]
    apply List.countP_congr
    intro i _
    simp only [List.contains_cons, Bool.not_or, Bool.and_eq_true]
  rw [split, List.countP_eq_length_filter (p := fun i => !seen.contains i),
    List.countP_eq_length_filter]
  refine List.length_filter_lt_length_iff_exists.2 ⟨index, ?_, by simp⟩
  simp only [List.mem_filter, List.mem_range]
  exact ⟨inside, by simpa using isNew⟩

/-- Whether one of the pending positions leads to a target by way of positions that have not been
seen. -/
def leadsTo (layouts : List Layout) (target : Nat) (seen pending : List Nat) : Bool :=
  match pending with
  | [] => false
  | index :: rest =>
    if index = target then true
    else if _h : index < layouts.length ∧ seen.contains index = false then
      leadsTo layouts target (index :: seen) (heldBy layouts index ++ rest)
    else leadsTo layouts target seen rest
termination_by (unseenCount layouts.length seen, pending.length)
decreasing_by
  · exact Prod.Lex.left _ _ (unseenCount_cons_lt _h.1 _h.2)
  · exact Prod.Lex.right _ (by simp)

/-- Whether the record at one position holds the record at another one, or is it. -/
def reaches (layouts : List Layout) (source target : Nat) : Bool :=
  leadsTo layouts target [] [source]

/-- Whether a field of the record at a position has to be boxed. -/
def isBoxed (layouts : List Layout) (index : Nat) (field : Field) : Bool :=
  match field.source.held? with
  | some held => reaches layouts held index
  | none => false

end SoapKit.Client
