import SoapKit.Proofs.Xml.Draft.Filling
import Mathlib.Logic.Relation

/-!
# Programs that fill an element

A program that fills an element calls actions on it and on the elements inside of it, and whatever
else it does decides which. Of such a program only the calls matter: it leads from an element to one
that it `Fills` to, one call after the other. Each call keeps a well-formed element well formed and
leaves its name alone, and so does every program (`Fills.wellFormed`, `Fills.name_eq`).

The calls are those with names that are well formed, with attributes that are no declarations, and
with aliases that give a namespace to a qualifier other than `xml`. Markup is not among them.
-/

namespace SoapKit.Xml.DraftElement

open Relation (ReflTransGen)

/-- A call on an element, or on one inside of it. -/
inductive Fill : DraftElement → DraftElement → Prop where
  | register {e : DraftElement} {qualifier uri : String} : qualifier ≠ "xml" → uri ≠ "" →
      Fill e (DraftElement.alias qualifier uri e).2
  | declare {e : DraftElement} {qualifier : String} : IsNcName qualifier →
      Fill e (declare qualifier e).2
  | setValue {e : DraftElement} (v : Value) : Fill e (setValue v e).2
  | setAttribute {e : DraftElement} {key : String} (v : Value) : (Name.parse key).WellFormed →
      declaredBy key = none → Fill e (setAttribute key v e).2
  | add {e : DraftElement} {written : String} : IsWrittenName written →
      Fill e (add written (pure ()) e).2
  | inside {name : Name} {aliases : OrderedMap String String} {attributes : List (String × String)}
      {declared : List String} {before after : List DraftElement} {child child' : DraftElement}
      {value : Option DraftText} : Fill child child' →
      Fill (mk name aliases attributes declared (before ++ child :: after) value)
        (mk name aliases attributes declared (before ++ child' :: after) value)

/-- One call after the other. -/
def Fills : DraftElement → DraftElement → Prop :=
  ReflTransGen Fill

variable {e e' start : DraftElement}

/-! ## What calls keep -/

theorem Fill.name_eq (h : Fill e e') : e'.name = e.name := by
  cases h with
  | inside _ => rfl
  | _ =>
    cases e
    rfl

theorem Fill.wellFormed (h : Fill e e') (he : e.WellFormed) : e'.WellFormed := by
  induction h with
  | register hqualifier huri => exact keeps_alias hqualifier huri _ he
  | declare hqualifier => exact keeps_declare hqualifier _ he
  | setValue v => exact keeps_setValue v _ he
  | setAttribute v hkey hplain => exact keeps_setAttribute hkey hplain v _ he
  | add hwritten => exact keeps_add hwritten (keeps_pure ()) _ he
  | inside _ ih =>
    cases he with
    | mk hname haliases hattributes hnodup hdeclared hvalue hchildren =>
      rw [List.forall_mem_append, List.forall_mem_cons] at hchildren
      obtain ⟨hbefore, hchild, hafter⟩ := hchildren
      exact .mk hname haliases hattributes hnodup hdeclared hvalue
        (List.forall_mem_append.2 ⟨hbefore, List.forall_mem_cons.2 ⟨ih hchild, hafter⟩⟩)

theorem Fills.name_eq (h : Fills e e') : e'.name = e.name := by
  induction h with
  | refl => rfl
  | tail _ hstep ih => exact hstep.name_eq.trans ih

theorem Fills.wellFormed (h : Fills e e') (he : e.WellFormed) : e'.WellFormed := by
  induction h with
  | refl => exact he
  | tail _ hstep ih => exact hstep.wellFormed ih

/-! ## Actions that are put together from calls -/

/-- An action that is one call leads on from what an element has been filled to. -/
theorem keeps_fills {α : Type} {act : StateM DraftElement α} (h : ∀ e, Fill e (act e).2) :
    Keeps (Fills start) act := by
  intro e he
  exact he.tail (h e)

theorem Fills.inside {name : Name} {aliases : OrderedMap String String}
    {attributes : List (String × String)} {declared : List String}
    (before : List DraftElement) {child child' : DraftElement} (after : List DraftElement)
    {value : Option DraftText} (h : Fills child child') :
    Fills (mk name aliases attributes declared (before ++ child :: after) value)
      (mk name aliases attributes declared (before ++ child' :: after) value) := by
  induction h with
  | refl => exact .refl
  | tail _ hstep ih => exact ih.tail (.inside hstep)

theorem keeps_fills_add {α : Type} {written : String} {fill : StateM DraftElement α}
    (hwritten : IsWrittenName written) (hfill : ∀ child, Keeps (Fills child) fill) :
    Keeps (Fills start) (DraftElement.add written fill) := by
  intro e he
  have hadd : Fills start (DraftElement.add written (pure ()) e).2 := he.tail (.add hwritten)
  obtain ⟨name, aliases, attributes, declared, children, value⟩ := e
  have hchild := hfill _ (blank (childName name.qualifier written)) .refl
  exact hadd.trans (hchild.inside children [])

end SoapKit.Xml.DraftElement
