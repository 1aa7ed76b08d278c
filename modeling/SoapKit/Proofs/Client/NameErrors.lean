import SoapKit.Proofs.Client.Legality

/-!
# Names that cannot be written

**Theorem (`compile_legal`).** To compile a client, or the function of a single type, fails for a
name that cannot be written only if the name of a complex type that is declared has a character in
it that names of functions cannot have. Conversely no client is compiled whose messages lead to a
record of such a name. All names that a compiled client declares are legal: those of constants,
types, fields, functions, methods, type parameters, parameters and variables.

The name of a record is the only one that is not cleaned before it is written, and registering a
record is the only step that fails for it (`RefusesName`). All other steps are gone through to see
that their errors are of other kinds or come from there (`NamesRecord`). Names that schemas allow
fail as well (`not_compiled_of_subscript`).
-/

namespace SoapKit.Client

open Naming
open Rust
open Wsdl (QName Definitions ModelGroup Particle)

variable {s : Setting} {defs : Definitions}

/-! ## Errors for names -/

/-- An error for a name that cannot be written is due to the name of a record. Other errors are not
restricted. -/
def NamesRecord (defs : Definitions) (e : Error) : Prop :=
  ∀ name, e = .unwritableName name → RefusesName defs e

theorem RefusesName.namesRecord {e : Error} (h : RefusesName defs e) : NamesRecord defs e :=
  fun _ _ => h

/-- An error that is not for a name. -/
def IsOther (e : Error) : Prop :=
  ∀ name, e ≠ .unwritableName name

theorem IsOther.namesRecord {e : Error} (h : IsOther e) : NamesRecord defs e :=
  fun name heq => absurd heq (h name)

theorem RefusesReference.isOther {e : Error} (h : RefusesReference defs e) : IsOther e := by
  rintro name rfl
  cases h

theorem RefusesElement.isOther {element : Wsdl.Element} {e : Error}
    (h : RefusesElement defs element e) : IsOther e := by
  rintro name rfl
  cases h

mutual

theorem contentElements_fails (owner : QName) :
    ∀ content : ModelGroup, FailsOnly IsOther (contentElements owner content)
  | .all _ => by
    rw [contentElements]
    exact .ok
  | .sequence particles => by
    rw [contentElements]
    exact particleElements_fails owner particles
  | .group ⟨_, some content⟩ => by
    rw [contentElements]
    exact contentElements_fails owner content
  | .group ⟨_, none⟩ => by
    rw [contentElements]
    exact .ok
  | .choice _ => by
    rw [contentElements]
    exact .error fun _ => Error.noConfusion
  | .groupReference _ => by
    rw [contentElements]
    exact .error fun _ => Error.noConfusion

theorem particleElements_fails (owner : QName) :
    ∀ particles : List Particle, FailsOnly IsOther (particleElements owner particles)
  | [] => by
    rw [particleElements]
    exact .ok
  | .element _ :: rest => by
    rw [particleElements]
    exact (particleElements_fails owner rest).bind fun _ => .ok
  | .nested content :: rest => by
    rw [particleElements]
    exact (contentElements_fails owner content).bind fun _ =>
      (particleElements_fails owner rest).bind fun _ => .ok

end

theorem elementsOf_fails (defs : Definitions) (record : Record) :
    FailsOnly IsOther (elementsOf defs record) := by
  have hwithin : ∀ levels type,
      FailsOnly IsOther (elementsWithin defs record.name levels type) := by
    intro levels
    induction levels with
    | zero => exact fun _ => .ok
    | succ levels ih =>
      intro type
      unfold elementsWithin
      cases type.content with
      | none =>
        simp only
        split
        · exact (ih _).bind fun _ => .ok
        · exact .ok
      | some content =>
        have hown : ∀ inherited : List Wsdl.Element, FailsOnly IsOther (do
            let own ← contentElements record.name content
            pure (inherited ++ own)) :=
          fun _ => (contentElements_fails _ _).bind fun _ => .ok
        simp only
        split
        · exact (ih _).bind hown
        · exact hown []
  exact hwithin _ _

/-! ## Plans -/

theorem partsOf_fails (defs : Definitions) (message : Option QName) :
    FailsOnly IsOther (Plan.partsOf defs message) := by
  cases message with
  | none => exact .ok
  | some name =>
    have hmessage : FailsOnly IsOther (Plan.message defs name) := by
      unfold Plan.message
      split
      · exact .ok
      · exact .error fun _ => Error.noConfusion
    exact hmessage.bind fun _ => .ok

theorem planOperation_fails (defs : Definitions) (binding : Wsdl.Binding)
    (interface : Wsdl.Interface) (methods : FreshNames) (action : Wsdl.Action) :
    FailsOnly IsOther (Plan.planOperation defs binding interface methods action) := by
  have hoperation : FailsOnly IsOther (Plan.operationNamed interface action.name) := by
    unfold Plan.operationNamed
    split
    · exact .ok
    · exact .error fun _ => Error.noConfusion
  exact hoperation.bind fun _ => (partsOf_fails defs _).bind fun _ =>
    (partsOf_fails defs _).bind fun _ => .ok

theorem planOperations_fails (defs : Definitions) (binding : Wsdl.Binding)
    (interface : Wsdl.Interface) (methods : FreshNames) (actions : List Wsdl.Action) :
    FailsOnly IsOther (Plan.planOperations defs binding interface methods actions) := by
  induction actions generalizing methods with
  | nil => exact .ok
  | cons action rest ih =>
    exact (planOperation_fails defs binding interface methods action).bind fun (_, _) =>
      (ih _).bind fun _ => .ok

theorem ofBinding_fails (defs : Definitions) (binding : Wsdl.Binding) (name : String) :
    FailsOnly IsOther (Plan.ofBinding defs binding name) := by
  have hinterface : FailsOnly IsOther (Plan.interfaceOf defs binding) := by
    unfold Plan.interfaceOf
    split
    · exact .ok
    · exact .error fun _ => Error.noConfusion
  have hencoded : FailsOnly IsOther (Plan.isEncoded? binding) := by
    unfold Plan.isEncoded?
    simp only
    split
    · exact .ok
    · split
      · exact .ok
      · exact .error fun _ => Error.noConfusion
  exact hinterface.bind fun _ => hencoded.bind fun _ =>
    (planOperations_fails defs binding _ _ _).bind fun _ => .ok

/-! ## Operations -/

theorem announce_fails {P : Error → Prop} (target : Expr) (name : QName) :
    StepFailsOnly P (announce target name) := by
  unfold announce
  refine (xmlName_fails _).bind fun key => (xmlName_fails _).bind fun value => ?_
  split
  · exact StepFailsOnly.bind (fun _ => .ok) fun _ => .pure
  · exact .pure

theorem writeValue_fails {P : Error → Prop} (s : Setting) (parent written : String)
    (kind : ValueKind) (value : Expr) :
    StepFailsOnly P (writeValue s parent written kind value) := by
  cases kind with
  | complex index record writer => exact .pure
  | simple type announced =>
    unfold writeValue
    simp only
    split
    · exact (announce_fails _ _).bind fun _ => .pure
    · exact .pure

theorem kindOfPart_fails (s : Setting) (part : Wsdl.Part) :
    StepFailsOnly (NamesRecord s.defs) (kindOfPart s part) := by
  unfold kindOfPart
  split
  · exact ((kindOfType_fails s _).mono fun _ => .namesRecord).bind fun _ => .pure
  · next name _ =>
    unfold globalElement
    cases hget : s.defs.elements.get? name with
    | none => exact fun _ => .error (IsOther.namesRecord fun _ => Error.noConfusion)
    | some declared =>
      have hfails : StepFailsOnly (RefusesName s.defs) (kindOfGlobal s { declared with name }) :=
        kindOfGlobal_fails fun _ hname hdefinition => .inline hget hname hdefinition
      exact (xmlName_fails _).bind fun _ =>
        (hfails.mono fun _ => .namesRecord).bind fun _ => .pure

theorem writeParts_fails (s : Setting) (taken : FreshNames) (parts : List Wsdl.Part) :
    StepFailsOnly (NamesRecord s.defs) (writeParts s taken parts) := by
  induction parts generalizing taken with
  | nil => exact .pure
  | cons part rest ih =>
    exact (kindOfPart_fails s part).bind fun (_, _) => (writeValue_fails s _ _ _ _).bind fun _ =>
      (ih _).bind fun (_, _) => .pure

theorem writeOperation_fails (s : Setting) (operation : PlannedOperation) :
    StepFailsOnly (NamesRecord s.defs) (writeOperation s operation) := by
  have hroot : StepFailsOnly (NamesRecord s.defs) (writeRoot operation) := by
    unfold writeRoot
    split
    · exact xmlName_fails _
    · exact .pure
  have hstyle : StepFailsOnly (NamesRecord s.defs) (writeEncodingStyle operation) := by
    unfold writeEncodingStyle
    split
    · exact (xmlName_fails _).bind fun _ => .pure
    · exact .pure
  exact hroot.bind fun _ => hstyle.bind fun _ => (writeParts_fails s _ _).bind fun (_, _) => .pure

/-! ## Records -/

theorem fieldsOf_namesRecord (s : Setting) (record : Record) :
    StepFailsOnly (NamesRecord s.defs) (fieldsOf s record) := by
  refine (fieldsOf_fails s record).mono fun e he => ?_
  rcases he with hattributes | helements | ⟨_, -, _, -, helement⟩ | hname
  · exact (addAttributes_fails _ _ _ _ e hattributes).isOther.namesRecord
  · exact (elementsOf_fails _ _ e helements).namesRecord
  · exact helement.isOther.namesRecord
  · exact hname.namesRecord

theorem completeFrom_fails (s : Setting) (steps index : Nat) :
    StepFailsOnly (NamesRecord s.defs) (completeFrom s steps index) := by
  induction steps generalizing index with
  | zero => exact .pure
  | succ steps ih =>
    intro bench
    rw [completeFrom_succ]
    split
    · exact .ok
    · exact (fieldsOf_namesRecord s _ bench).bind fun (_, _) => ih _ _

theorem writeFields_fails {P : Error → Prop} (s : Setting) (value : String) (taken : FreshNames)
    (fields : List Field) : StepFailsOnly P (writeFields s value taken fields) := by
  induction fields generalizing taken with
  | nil => exact .pure
  | cons field rest ih =>
    obtain ⟨ident, source⟩ := field
    cases source with
    | «attribute» written type isRequired => exact (ih _).bind fun _ => .pure
    | value type => exact (ih _).bind fun _ => .pure
    | element written kind wrapper =>
      cases wrapper with
      | one | option | many =>
        exact (writeValue_fails s _ _ _ _).bind fun _ => (ih _).bind fun _ => .pure

theorem writerFunction_fails {P : Error → Prop} (s : Setting) (layout : Layout) :
    StepFailsOnly P (writerFunction s layout) := by
  have hname : StepFailsOnly P (writeTypeName s layout.record) := by
    unfold writeTypeName
    split
    · exact (announce_fails _ _).bind fun _ => .pure
    · exact .pure
  exact hname.bind fun _ => (writeFields_fails s _ _ _).bind fun _ => .pure

/-! ## Clients -/

theorem writeClient_fails (s : Setting) (plan : Plan) :
    StepFailsOnly (NamesRecord s.defs) (writeClient s plan) := by
  have hrecords : ∀ layouts, StepFailsOnly (NamesRecord s.defs) (writeRecords s layouts) :=
    fun layouts => (StepFailsOnly.mapM (fun (_, _) =>
      (writerFunction_fails s _).bind fun _ => .pure) _).bind fun _ => .pure
  refine (StepFailsOnly.mapM (writeOperation_fails s) _).bind fun _ => ?_
  refine (completeFrom_fails s _ _).bind fun _ => ?_
  refine StepFailsOnly.bind (fun _ => .ok) fun _ => (hrecords _).bind fun _ => ?_
  exact StepFailsOnly.bind (fun _ => .ok) fun _ => .pure

theorem compile_fails (defs : Definitions) (service : Option String) (name : QName) :
    FailsOnly (NamesRecord defs) (compile defs service name) := by
  unfold compile
  split
  · exact .error (IsOther.namesRecord fun _ => Error.noConfusion)
  · have hplan (binding : Wsdl.Binding) (service : String) :
        FailsOnly (NamesRecord defs) (Plan.ofBinding defs binding service) :=
      fun e he => (ofBinding_fails defs binding service e he).namesRecord
    exact (hplan _ _).bind fun plan =>
      (writeClient_fails ⟨defs, plan.isEncoded⟩ plan _).bind fun _ => .ok

/-- The function of a type is written when its record is registered and all records are complete. -/
theorem compileWriter_eq_ok {name : QName} {items : List Item}
    (h : compileWriter defs name = .ok items) :
    ∃ kind bench₁ bench₂ layout writer bench₃,
      registerType ⟨defs, false⟩ name (.start defs []) = .ok (some kind, bench₁) ∧
      completeLayouts ⟨defs, false⟩ bench₁ = .ok ((), bench₂) ∧ layout ∈ bench₂.layouts ∧
      writerFunction ⟨defs, false⟩ layout bench₂ = .ok (writer, bench₃) ∧
      items = [.function writer] := by
  obtain ⟨⟨_, bench₃⟩, hwrite, heq⟩ := bind_eq_ok.1 h
  cases heq
  obtain ⟨found, bench₁, hfound, hrest⟩ := writing_bind_eq_ok.1 hwrite
  cases found with
  | none => cases hrest
  | some kind =>
    obtain ⟨⟨⟩, bench₂, hcomplete, hrest⟩ := writing_bind_eq_ok.1 hrest
    obtain ⟨_, _, hget, hrest⟩ := writing_bind_eq_ok.1 hrest
    cases hget
    cases hhead : bench₂.layouts.head? with
    | none =>
      rw [hhead] at hrest
      cases hrest
    | some layout =>
      rw [hhead] at hrest
      obtain ⟨writer, bench₄, hwriter, heq⟩ := writing_bind_eq_ok.1 hrest
      cases heq
      exact ⟨kind, bench₁, bench₂, layout, writer, _, hfound, hcomplete,
        List.mem_of_head? hhead, hwriter, rfl⟩

theorem compileWriter_fails (defs : Definitions) (name : QName) :
    FailsOnly (NamesRecord defs) (compileWriter defs name) := by
  have hunknown : NamesRecord defs (.unknownType name.text) :=
    IsOther.namesRecord fun _ => Error.noConfusion
  have hregister : StepFailsOnly (NamesRecord defs) (registerType ⟨defs, false⟩ name) :=
    (registerType_fails ⟨defs, false⟩ name).mono fun _ => .namesRecord
  refine FailsOnly.bind (hregister.bind (fun found => ?_) (.start defs [])) fun _ => .ok
  cases found with
  | none => exact fun _ => .error hunknown
  | some kind =>
    refine (completeFrom_fails ⟨defs, false⟩ _ _).bind fun _ => ?_
    refine StepFailsOnly.bind (fun _ => .ok) fun bench => ?_
    split
    · exact (writerFunction_fails _ _).bind fun _ => .pure
    · exact fun _ => .error hunknown

/-! ## Names that are written -/

theorem NamedBy.variant {layout : Layout} {name : String} (h : NamedBy layout name) :
    Variant (camelize layout.record.name.base) name := by
  rcases h.base with rfl | ⟨number, rfl⟩
  · exact .plain
  · exact .numbered number

theorem NamedBy.isWritable {layout : Layout} {name : String} (h : NamedBy layout name) :
    isWritable layout.record.name.base = true := by
  rw [← isSome_withLead_iff "build_" h.variant, h.writer]
  rfl

theorem RefusesName.exists_record {name : String} (h : RefusesName defs (.unwritableName name)) :
    ∃ record, Declared defs record ∧ Variant (camelize record.name.base) name ∧
      isWritable record.name.base = false := by
  cases h with
  | @intro record _ hrecord hname hnone =>
    refine ⟨record, hrecord, hname, ?_⟩
    rw [← isSome_withLead_iff "build_" hname, hnone]
    rfl

theorem Named.exists_name {reserved : List String} {bench : Workbench} (h : Named reserved bench) :
    ∀ layout ∈ bench.layouts, ∃ name, NamedBy layout name := by
  obtain ⟨names, -, -, hnamed⟩ := h
  intro layout hlayout
  obtain ⟨name, -, hname⟩ :=
    exists_mem_of_forall₂ (List.forall₂_map_left_iff.1 hnamed).flip hlayout
  exact ⟨name, hname.base, hname.ident, hname.writer⟩

theorem compileWriter_legal {name : QName} {items : List Item}
    (h : compileWriter defs name = .ok items) :
    isWritable name.base = true ∧ ∀ item ∈ items, Legal item.declares := by
  obtain ⟨kind, bench₁, bench₂, layout, writer, bench₃, hregister, hcomplete, hlayout, hwriter,
    rfl⟩ := compileWriter_eq_ok h
  have hnamed : Named [] bench₁ :=
    (lasting_named []).registerType _ _ (named_start List.nodup_nil defs) hregister
  have hnamed' : Named [] bench₂ := (lasting_named []).completeFrom _ _ _ hnamed hcomplete
  constructor
  · unfold registerType at hregister
    cases htype : defs.complexType? name with
    | none =>
      simp only [htype] at hregister
      cases hregister
    | some type =>
      simp only [htype] at hregister
      obtain ⟨_, hkind, -⟩ := writing_map_eq_ok.1 hregister
      cases (classifies_register _ hkind).2 with
      | complex hfirst hname =>
        obtain ⟨own, hown⟩ := hnamed.exists_name _ (List.mem_of_getElem? hfirst)
        rw [← hown.isWritable, hname]
  · obtain ⟨own, hown⟩ := hnamed'.exists_name layout hlayout
    exact List.forall_mem_singleton.2 (writerFunction_legal _ hown hwriter)

/-- A client that is compiled has records with writable names only, and declares legal names. To
write a client, or the function of a type, fails for a name only if that is the name of a record
that is declared, in which there are characters that cannot be written. -/
theorem compile_legal (defs : Definitions) (service : Option String) (name : QName) :
    (∀ items, compile defs service name = .ok items → ∃ plan layouts,
      Compiled defs service name items plan layouts ∧
      Closed defs ((plan.operations.flatMap (·.parts)).filterMap (recordOfPart defs)) layouts ∧
      (∀ layout ∈ layouts, isWritable layout.record.name.base = true) ∧
      ∀ item ∈ items, Legal item.declares) ∧
    (∀ items, compileWriter defs name = .ok items →
      isWritable name.base = true ∧ ∀ item ∈ items, Legal item.declares) ∧
    ∀ written, compile defs service name = .error (.unwritableName written) ∨
        compileWriter defs name = .error (.unwritableName written) →
      ∃ record, Declared defs record ∧ Variant (camelize record.name.base) written ∧
        isWritable record.name.base = false := by
  refine ⟨fun items h => ?_, fun items => compileWriter_legal, fun written h => ?_⟩
  · obtain ⟨plan, layouts, hcompiled, hclosed⟩ := exists_compiled h
    obtain ⟨names, -, hnamed⟩ := hcompiled.completes.exists_names (List.nodup_singleton _)
    refine ⟨plan, layouts, hcompiled, hclosed, fun layout hlayout => ?_, ?_⟩
    · obtain ⟨own, -, hown⟩ := exists_mem_of_forall₂ hnamed.flip hlayout
      exact hown.isWritable
    · obtain ⟨binding, plan, bench, hbinding, hplan, hclient⟩ := compile_eq_ok h
      obtain ⟨layouts, hcompletes, -, -⟩ := writeClient_eq_ok hclient
      exact writeClient_legal (List.nodup_singleton _) hcompletes hclient
  · refine RefusesName.exists_record ?_
    rcases h with h | h
    · exact compile_fails defs service name _ h written rfl
    · exact compileWriter_fails defs name _ h written rfl

/-- Nodes and links have writable names, and everything that is declared for them is legal. -/
theorem compile_legal_of_linked : ∃ items plan layouts,
    compile linked none (linkedName "Soap") = .ok items ∧
      Compiled linked none (linkedName "Soap") items plan layouts ∧
      (∀ layout ∈ layouts, isWritable layout.record.name.base = true) ∧
      (∀ item ∈ items, Legal item.declares) ∧
      ∀ written, compile linked none (linkedName "Soap") ≠ .error (.unwritableName written) := by
  obtain ⟨items, hitems⟩ := exists_compile_linked
  obtain ⟨plan, layouts, hcompiled, -, hwritable, hlegal⟩ :=
    (compile_legal linked none (linkedName "Soap")).1 items hitems
  refine ⟨items, plan, layouts, hitems, hcompiled, hwritable, hlegal, fun written herror => ?_⟩
  rw [hitems] at herror
  cases herror

/-! ## A name with a subscript -/

/-- A description of one operation, which sends a value of a type with an attribute. -/
def called (name : String) : Definitions :=
  { Definitions.empty with
    messages := ⟨[(linkedName "Ask", ⟨linkedName "Ask", [⟨"start", .type (linkedName name)⟩]⟩)]⟩
    interfaces := linked.interfaces
    bindings := linked.bindings
    types := ⟨[(linkedName name, .complex
      { linkedType "id" "Text" with attributes := [localAttribute "kind"] })]⟩ }

/-- Neither a client nor a function is written for a name that schemas allow, for the name of the
function cannot be written. -/
theorem not_compiled_of_subscript :
    compile (called "Cation₊") none (linkedName "Soap") = .error (.unwritableName "Cation₊") ∧
      compileWriter (called "Cation₊") (linkedName "Cation₊") =
        .error (.unwritableName "Cation₊") := by
  constructor
  all_goals
    refine eq_error_of_match ?_
    decide +kernel

end SoapKit.Client
