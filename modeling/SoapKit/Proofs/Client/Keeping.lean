import SoapKit.Proofs.Client.Source

/-!
# What writing a client keeps

Of all steps in which a client is written only three change the workbench: a namespace gets a
qualifier, a record is registered, and the fields of a layout are set. What these keep (`Lasting`)
is kept by everything that is written, from the start to the last record (`Completes.lasting`).
-/

namespace SoapKit.Client

open Naming (Aliases FreshNames)
open Rust (Expr)
open Wsdl (QName)

variable {α β : Type} {P : Workbench → Prop} {s : Setting}

/-- What holds before a step holds after it. -/
def Keeps (P : Workbench → Prop) (w : Writing α) : Prop :=
  ∀ ⦃bench a bench'⦄, P bench → w bench = .ok (a, bench') → P bench'

namespace Keeps

variable {w w' : Writing α}

protected theorem pure (a : α) : Keeps P (pure a : Writing α) := by
  intro bench a bench' h heq
  cases heq
  exact h

protected theorem throw (e : Error) : Keeps P (throw e : Writing α) := by
  intro bench a bench' h heq
  cases heq

theorem lift (x : Except Error α) : Keeps P (liftM x : Writing α) := by
  intro bench a bench' h heq
  obtain ⟨-, rfl⟩ := writing_lift_eq_ok.1 heq
  exact h

theorem bind {f : α → Writing β} (hw : Keeps P w) (hf : ∀ a, Keeps P (f a)) :
    Keeps P (w >>= f) := by
  intro bench b bench'' h heq
  obtain ⟨a, bench', ha, hb⟩ := writing_bind_eq_ok.1 heq
  exact hf a (hw h ha) hb

theorem map {f : α → β} (hw : Keeps P w) : Keeps P (f <$> w) := by
  rw [map_eq_pure_bind]
  exact hw.bind fun _ => .pure _

theorem ite {c : Prop} [Decidable c] (hw : Keeps P w) (hw' : Keeps P w') :
    Keeps P (if c then w else w') := by
  split
  · exact hw
  · exact hw'

theorem mapM {f : α → Writing β} {xs : List α} (hf : ∀ x ∈ xs, Keeps P (f x)) :
    Keeps P (xs.mapM f) := by
  induction xs with
  | nil => exact .pure _
  | cons x rest ih =>
    rw [List.forall_mem_cons] at hf
    rw [List.mapM_cons]
    exact hf.1.bind fun _ => (ih hf.2).bind fun _ => .pure _

end Keeps

/-- What is kept by each of the changes of a workbench. -/
structure Lasting (P : Workbench → Prop) : Prop where
  aliases : ∀ ⦃bench : Workbench⦄, P bench → ∀ aliases, P { bench with aliases }
  register : ∀ record, Keeps P (register record)
  setFields : ∀ ⦃bench : Workbench⦄, P bench → ∀ index fields, P (bench.setFields index fields)

namespace Lasting

theorem and {Q : Workbench → Prop} (h : Lasting P) (h' : Lasting Q) :
    Lasting fun bench => P bench ∧ Q bench where
  aliases := fun _ hbench aliases => ⟨h.aliases hbench.1 aliases, h'.aliases hbench.2 aliases⟩
  register := fun record _ _ _ hbench heq =>
    ⟨h.register record hbench.1 heq, h'.register record hbench.2 heq⟩
  setFields := fun _ hbench index fields =>
    ⟨h.setFields hbench.1 index fields, h'.setFields hbench.2 index fields⟩

/-! ## Names and kinds -/

theorem qualifier (h : Lasting P) (uri : String) : Keeps P (qualifier uri) := by
  intro bench written bench' hbench heq
  cases heq
  exact h.aliases hbench _

theorem xmlName (h : Lasting P) (name : QName) : Keeps P (xmlName name) := by
  intro bench written bench' hbench heq
  cases heq
  exact h.aliases hbench _

theorem registerType (h : Lasting P) (s : Setting) (name : QName) :
    Keeps P (registerType s name) := by
  unfold Client.registerType
  split
  · exact (h.register _).map
  · exact .pure _

theorem kindOfType (h : Lasting P) (s : Setting) (name : QName) : Keeps P (kindOfType s name) := by
  refine (h.registerType s name).bind fun found => ?_
  cases found with
  | some kind => exact .pure _
  | none => exact .pure _

theorem kindOfGlobal (h : Lasting P) (s : Setting) (element : Wsdl.Element) :
    Keeps P (kindOfGlobal s element) := by
  unfold Client.kindOfGlobal
  split
  · exact h.kindOfType s _
  · exact h.register _
  · exact .pure _
  · exact .pure _

theorem globalElement (s : Setting) (name : QName) : Keeps P (globalElement s name) := by
  unfold Client.globalElement
  split
  · exact .pure _
  · exact .throw _

theorem kindOfPart (h : Lasting P) (s : Setting) (part : Wsdl.Part) :
    Keeps P (kindOfPart s part) := by
  unfold Client.kindOfPart
  split
  · exact (h.kindOfType s _).bind fun _ => .pure _
  · exact (globalElement s _).bind fun element => (h.xmlName element.name).bind fun _ =>
      (h.kindOfGlobal s element).bind fun _ => .pure _

theorem kindOfLocal (h : Lasting P) (s : Setting) (element : Wsdl.Element) :
    Keeps P (kindOfLocal s element) := by
  unfold Client.kindOfLocal
  refine .ite ((globalElement s _).bind fun _ => h.kindOfGlobal s _) (.ite (.throw _) ?_)
  split
  · exact h.kindOfType s _
  · exact .pure _

/-! ## Operations -/

theorem announce (h : Lasting P) (target : Expr) (name : QName) :
    Keeps P (announce target name) := by
  unfold Client.announce
  refine (h.xmlName _).bind fun key => (h.xmlName _).bind fun value => ?_
  split
  · exact (h.qualifier _).bind fun _ => .pure _
  · exact .pure _

theorem writeValue (h : Lasting P) (s : Setting) (parent written : String) (kind : ValueKind)
    (value : Expr) : Keeps P (writeValue s parent written kind value) := by
  cases kind with
  | complex index record writer => exact .pure _
  | simple type announced =>
    unfold Client.writeValue
    simp only
    split
    · exact (h.announce _ _).bind fun _ => .pure _
    · exact .pure _

theorem writeParts (h : Lasting P) (s : Setting) (taken : FreshNames) (parts : List Wsdl.Part) :
    Keeps P (writeParts s taken parts) := by
  induction parts generalizing taken with
  | nil => exact .pure _
  | cons part rest ih =>
    exact (h.kindOfPart s part).bind fun _ => (h.writeValue s _ _ _ _).bind fun _ =>
      (ih _).bind fun _ => .pure _

theorem writeOperation (h : Lasting P) (s : Setting) (operation : PlannedOperation) :
    Keeps P (writeOperation s operation) := by
  have hroot : Keeps P (writeRoot operation) := by
    unfold writeRoot
    split
    · exact h.xmlName _
    · exact .pure _
  have hstyle : Keeps P (writeEncodingStyle operation) := by
    unfold writeEncodingStyle
    split
    · exact (h.xmlName _).bind fun _ => .pure _
    · exact .pure _
  exact hroot.bind fun _ => hstyle.bind fun _ => (h.writeParts s _ _).bind fun _ => .pure _

/-! ## Fields -/

theorem attributeFields (h : Lasting P) (s : Setting) (taken : FreshNames)
    (uses : List (QName × Wsdl.Attribute × Wsdl.Attribute)) :
    Keeps P (attributeFields s taken uses) := by
  induction uses generalizing taken with
  | nil => exact .pure _
  | cons use rest ih =>
    unfold Client.attributeFields
    exact .ite ((h.xmlName _).bind fun _ => (ih _).bind fun _ => .pure _)
      ((Keeps.pure _).bind fun _ => (ih _).bind fun _ => .pure _)

theorem elementFields (h : Lasting P) (s : Setting) (taken : FreshNames)
    (elements : List Wsdl.Element) : Keeps P (elementFields s taken elements) := by
  induction elements generalizing taken with
  | nil => exact .pure _
  | cons element rest ih =>
    unfold Client.elementFields
    exact (h.kindOfLocal s element).bind fun _ =>
      .ite ((h.xmlName _).bind fun _ => (ih _).bind fun _ => .pure _)
        ((Keeps.pure _).bind fun _ => (ih _).bind fun _ => .pure _)

theorem fieldsOf (h : Lasting P) (s : Setting) (record : Record) : Keeps P (fieldsOf s record) :=
  (Keeps.lift _).bind fun _ => (h.attributeFields s _ _).bind fun _ =>
    (Keeps.lift _).bind fun _ => (h.elementFields s _ _).bind fun _ => .pure _

theorem completeFrom (h : Lasting P) (s : Setting) (steps index : Nat) :
    Keeps P (completeFrom s steps index) := by
  induction steps generalizing index with
  | zero => exact .pure _
  | succ steps ih =>
    intro bench _ bench' hbench heq
    rw [completeFrom_succ] at heq
    split at heq
    · cases heq
      exact hbench
    · obtain ⟨⟨fields, bench₁⟩, hfields, hrest⟩ := bind_eq_ok.1 heq
      exact ih _ (h.setFields (h.fieldsOf s _ hbench hfields) _ _) hrest

end Lasting

/-- Layouts that are there are kept. -/
theorem lasting_kept (layouts : List Layout) :
    Lasting fun bench => Kept layouts bench.layouts where
  aliases := fun _ h _ => h
  register := fun record _ _ _ h heq => h.trans (classifies_register record heq).1.kept
  setFields := fun _ h index fields => h.trans (kept_setFields _ index fields)

/-- What lasts holds when all layouts are complete. -/
theorem Completes.lasting {plan : Plan} {reserved : List String} {layouts : List Layout}
    (hcompletes : Completes s plan reserved layouts) (h : Lasting P)
    (hstart : P (.start s.defs reserved)) : ∃ bench, bench.layouts = layouts ∧ P bench := by
  obtain ⟨methods, bench, bench', hmethods, hmore, rfl⟩ := hcompletes
  have hbench : P bench := Keeps.mapM (fun _ _ => h.writeOperation s _) hstart hmethods
  exact ⟨bench', rfl, h.completeFrom s _ _ hbench (hmore 0)⟩

/-- What every step makes of the member of a list that it is for holds of all of them. -/
theorem writing_mapM_eq_ok {R : α → β → Prop} {f : α → Writing β}
    (hstep : ∀ x bench y bench', f x bench = .ok (y, bench') → R x y) {xs : List α}
    {ys : List β} {bench bench' : Workbench} (h : xs.mapM f bench = .ok (ys, bench')) :
    List.Forall₂ R xs ys := by
  induction xs generalizing bench ys with
  | nil =>
    cases h
    exact .nil
  | cons x rest ih =>
    rw [List.mapM_cons] at h
    obtain ⟨y, bench₁, hy, hrest⟩ := writing_bind_eq_ok.1 h
    obtain ⟨others, bench₂, hothers, heq⟩ := writing_bind_eq_ok.1 hrest
    cases heq
    exact .cons (hstep _ _ _ _ hy) (ih hothers)

/-- What holds of the fields of every record when they are found out holds of the fields of all
layouts when these are complete. -/
theorem Completes.forall_fields {plan : Plan} {reserved : List String} {layouts : List Layout}
    {Q : Record → List Field → Prop}
    (hcompletes : Completes s plan reserved layouts)
    (hfound : ∀ {record fields bench bench'},
      Client.fieldsOf s record bench = .ok (fields, bench') → Q record fields) :
    ∀ layout ∈ layouts, Q layout.record layout.fields := by
  obtain ⟨methods, bench, bench', hmethods, hmore, rfl⟩ := hcompletes
  obtain ⟨hcompleting, hroots, -⟩ := completing_of_operations hmethods
  have hall := hcompleting.run_keeps
    (P := fun index later => ∀ i layout, i < index → later.layouts[i]? = some layout →
      Q layout.record layout.fields) ?_ hroots (Nat.le_refl _)
      (fun i _ hi => absurd hi (Nat.not_lt_zero i)) (hmore 0)
  · intro layout hlayout
    obtain ⟨i, hi, rfl⟩ := List.mem_iff_getElem.1 hlayout
    exact hall i _ hi (List.getElem?_eq_getElem hi)
  · intro index bench₁ layout fields bench₂ hbefore hlayout hfields i layout' hi hlayout'
    rcases cases_of_setFields (fieldsOf_eq_ok hfields).1 hlayout hi hlayout' with
      ⟨-, rfl⟩ | ⟨hi, hold⟩
    · exact hfound hfields
    · exact hbefore i layout' hi hold

end SoapKit.Client
