import SoapKit.Client.Compile
import SoapKit.Proofs.Client.Completion

/-!
# What clients call

**Theorem (`compile_closed`).** A client that is compiled has layouts for exactly those records that
the messages of its binding lead to, each once and in the order in which they are met; every value
is written by the function of the layout that it points to; and every function that the client calls
by its name alone is one of its items.

The code is gone through piece by piece. Of each piece it is said which records writing it meets,
and which functions it calls: `writeValue` calls the function of a kind of value, and everything
else calls what the values in it call.
-/

namespace SoapKit.Rust

/-! ## Calls -/

/-- The name of a function that is called by its name alone. -/
def Path.plainName (path : Path) : List String :=
  match path with
  | ⟨false, [name]⟩ => [name]
  | _ => []

mutual

/-- The functions that an expression calls by their names. -/
@[simp] def Expr.calls : Expr → List String
  | .path _ | .text _ => []
  | .ref target => target.calls
  | .field base _ => base.calls
  | .call function args => function.plainName ++ Expr.callsOfAll args
  | .method receiver _ args => receiver.calls ++ Expr.callsOfAll args
  | .await base => base.calls
  | .closure _ body => Stmt.callsOfAll body
  | .record _ fields => Expr.callsOfFields fields

/-- The functions that expressions call. -/
@[simp] def Expr.callsOfAll : List Expr → List String
  | [] => []
  | first :: rest => first.calls ++ Expr.callsOfAll rest

/-- The functions that the values of fields call. -/
@[simp] def Expr.callsOfFields : List (String × Option Expr) → List String
  | [] => []
  | (_, some value) :: rest => value.calls ++ Expr.callsOfFields rest
  | (_, none) :: rest => Expr.callsOfFields rest

/-- The functions that a statement calls. -/
@[simp] def Stmt.calls : Stmt → List String
  | .drop value | .value value => value.calls
  | .forEach _ list body => list.calls ++ Stmt.callsOfAll body
  | .ifSome _ value body => value.calls ++ Stmt.callsOfAll body

/-- The functions that statements call. -/
@[simp] def Stmt.callsOfAll : List Stmt → List String
  | [] => []
  | first :: rest => first.calls ++ Stmt.callsOfAll rest

end

/-- The functions that a function calls. -/
@[simp] def Function.calls (function : Function) : List String :=
  Stmt.callsOfAll function.body

/-- The functions that an item calls. -/
@[simp] def Item.calls : Item → List String
  | .constant _ _ _ value => value.calls
  | .record .. => []
  | .methods _ _ members => members.flatMap Function.calls
  | .function code => code.calls

theorem Stmt.callsOfAll_append (first rest : List Stmt) :
    Stmt.callsOfAll (first ++ rest) = Stmt.callsOfAll first ++ Stmt.callsOfAll rest := by
  induction first with
  | nil => rfl
  | cons statement others ih =>
    rw [List.cons_append, Stmt.callsOfAll, Stmt.callsOfAll, ih, List.append_assoc]

end SoapKit.Rust

namespace SoapKit.Client

open Naming (FreshNames)
open Rust (Expr Stmt Param Function Item Path)
open Wsdl (QName Definitions)

variable {s : Setting} {bench bench' : Workbench}

/-- The function that writes values of a kind. -/
@[simp] def ValueKind.calls : ValueKind → List String
  | .simple .. => []
  | .complex _ _ writer => [writer.text]

theorem announce_eq_ok {target announced : Expr} {name : QName}
    (h : announce target name bench = .ok (announced, bench')) :
    Grows [] bench bench' ∧ announced.calls = target.calls := by
  obtain ⟨key, bench₁, hkey, hrest⟩ := writing_bind_eq_ok.1 h
  obtain ⟨value, bench₂, hvalue, hrest⟩ := writing_bind_eq_ok.1 hrest
  have hgrows := (xmlName_grows hkey).trans (xmlName_grows hvalue)
  cases huri : name.uri with
  | none =>
    simp only [huri] at hrest
    cases hrest
    exact ⟨hgrows, by simp⟩
  | some uri =>
    simp only [huri] at hrest
    obtain ⟨qualifier, bench₃, hqualifier, heq⟩ := writing_bind_eq_ok.1 hrest
    cases heq
    exact ⟨hgrows.trans (qualifier_grows hqualifier), by simp⟩

theorem writeValue_eq_ok {parent written : String} {kind : ValueKind} {value : Expr}
    {statement : Stmt}
    (h : writeValue s parent written kind value bench = .ok (statement, bench')) :
    Grows [] bench bench' ∧ statement.calls = kind.calls ++ value.calls := by
  cases kind with
  | complex index record writer =>
    cases h
    exact ⟨.rfl, by simp [Expr.single, Path.single, Path.plainName]⟩
  | simple type announced =>
    have htarget : ∃ (target : Expr) (bench₁ : Workbench),
        Grows [] bench bench₁ ∧ target.calls = [] ∧
        (pure (.drop (target.method "set_value" [value])) : Writing Stmt) bench₁ =
          .ok (statement, bench') := by
      cases announced with
      | none => exact ⟨_, bench, .rfl, rfl, h⟩
      | some name =>
        cases hencoded : s.isEncoded with
        | false =>
          simp only [writeValue, hencoded] at h
          exact ⟨_, bench, .rfl, rfl, h⟩
        | true =>
          simp only [writeValue, hencoded] at h
          obtain ⟨target, bench₁, htarget, hrest⟩ := writing_bind_eq_ok.1 h
          obtain ⟨hgrows, hcalls⟩ := announce_eq_ok htarget
          exact ⟨target, bench₁, hgrows, hcalls.trans rfl, hrest⟩
    obtain ⟨target, bench₁, hgrows, hcalls, heq⟩ := htarget
    cases heq
    exact ⟨hgrows, by simp [hcalls]⟩

/-! ## Operations -/

/-- The parameters and statements for parts of messages: each part has a kind of value, by which its
parameter is typed and its value is written. -/
def WritesParts (defs : Definitions) (layouts : List Layout) (parts : List Wsdl.Part)
    (params : List Param) (calls : List String) : Prop :=
  ∃ kinds,
    List.Forall₂ (fun part kind => IsKindOf layouts (recordOfPart defs part) kind) parts kinds ∧
    List.Forall₂ (fun kind param => ∃ name, param = .typed name (ValueKind.borrowed kind))
      kinds params ∧
    calls = kinds.flatMap ValueKind.calls

theorem writeParts_eq_ok {taken : FreshNames} {parts : List Wsdl.Part} {params : List Param}
    {statements : List Stmt}
    (h : writeParts s taken parts bench = .ok ((params, statements), bench')) :
    Grows (parts.filterMap (recordOfPart s.defs)) bench bench' ∧
      WritesParts s.defs bench'.layouts parts params (Stmt.callsOfAll statements) := by
  induction parts generalizing taken params statements bench with
  | nil =>
    cases h
    exact ⟨.rfl, [], .nil, .nil, rfl⟩
  | cons part rest ih =>
    obtain ⟨⟨written, kind⟩, bench₁, hkind, hrest⟩ := writing_bind_eq_ok.1 h
    obtain ⟨statement, bench₂, hstatement, hrest⟩ := writing_bind_eq_ok.1 hrest
    obtain ⟨⟨others, statements'⟩, bench₃, hothers, heq⟩ := writing_bind_eq_ok.1 hrest
    cases heq
    obtain ⟨hgrows, hisKind⟩ := kindOfPart_eq_ok hkind
    obtain ⟨hgrows', hcalls⟩ := writeValue_eq_ok hstatement
    obtain ⟨hgrows'', kinds, hkinds, hparams, hrest⟩ := ih hothers
    refine ⟨?_, kind :: kinds, .cons (hisKind.mono (hgrows'.trans hgrows'').kept) hkinds,
      .cons ⟨_, rfl⟩ hparams, ?_⟩
    · rw [filterMap_cons_toList]
      exact hgrows.trans (hgrows'.trans hgrows'')
    · rw [Stmt.callsOfAll, hcalls, hrest]
      simp [Expr.single]

theorem writeEncodingStyle_eq_ok {operation : PlannedOperation} {statements : List Stmt}
    (h : writeEncodingStyle operation bench = .ok (statements, bench')) :
    Grows [] bench bench' ∧ Stmt.callsOfAll statements = [] := by
  unfold writeEncodingStyle at h
  cases hstyle : operation.encodingStyle with
  | none =>
    simp only [hstyle] at h
    cases h
    exact ⟨.rfl, rfl⟩
  | some style =>
    simp only [hstyle] at h
    obtain ⟨key, bench₁, hkey, heq⟩ := writing_bind_eq_ok.1 h
    cases heq
    exact ⟨xmlName_grows hkey, rfl⟩

theorem writeRoot_grows {operation : PlannedOperation} {root : String}
    (h : writeRoot operation bench = .ok (root, bench')) : Grows [] bench bench' := by
  unfold writeRoot at h
  cases hroot : operation.root with
  | qualified name =>
    simp only [hroot] at h
    exact xmlName_grows h
  | plain =>
    simp only [hroot] at h
    cases h
    exact .rfl

/-- The methods of an operation. -/
def WritesOperation (defs : Definitions) (layouts : List Layout) (operation : PlannedOperation)
    (methods : List Function) : Prop :=
  ∀ method ∈ methods, ∃ params, method.params = .refSelf :: params ∧
    WritesParts defs layouts operation.parts params method.calls

theorem writeOperation_eq_ok {operation : PlannedOperation} {methods : List Function}
    (h : writeOperation s operation bench = .ok (methods, bench')) :
    Grows (operation.parts.filterMap (recordOfPart s.defs)) bench bench' ∧
      WritesOperation s.defs bench'.layouts operation methods := by
  obtain ⟨root, bench₁, hroot, hrest⟩ := writing_bind_eq_ok.1 h
  obtain ⟨heading, bench₂, hheading, hrest⟩ := writing_bind_eq_ok.1 hrest
  obtain ⟨⟨params, parts⟩, bench₃, hparts, heq⟩ := writing_bind_eq_ok.1 hrest
  cases heq
  obtain ⟨hgrows, hcalls⟩ := writeEncodingStyle_eq_ok hheading
  obtain ⟨hgrows', hwrites⟩ := writeParts_eq_ok hparts
  refine ⟨((writeRoot_grows hroot).trans hgrows).trans hgrows', fun method hmethod => ?_⟩
  have hstatements : Stmt.callsOfAll (heading ++ parts) = Stmt.callsOfAll parts := by
    rw [Stmt.callsOfAll_append, hcalls, List.nil_append]
  have hmethod' : method.params = .refSelf :: params ∧ method.calls = Stmt.callsOfAll parts := by
    rw [← hstatements]
    simp only [methodsOf, List.mem_cons, List.not_mem_nil, or_false] at hmethod
    rcases hmethod with rfl | rfl
    all_goals simp [selfExpr, Expr.single, soapPath, Path.root, Path.plainName]
  exact ⟨params, hmethod'.1, hmethod'.2 ▸ hwrites⟩

/-! ## Records -/

theorem writeFields_eq_ok {value : String} {taken : FreshNames} {fields : List Field}
    {statements : List Stmt}
    (h : writeFields s value taken fields bench = .ok (statements, bench')) :
    Grows [] bench bench' ∧
      Stmt.callsOfAll statements = (fields.filterMap Field.kind?).flatMap ValueKind.calls := by
  induction fields generalizing taken statements bench with
  | nil =>
    cases h
    exact ⟨.rfl, rfl⟩
  | cons field rest ih =>
    obtain ⟨ident, source⟩ := field
    cases source with
    | element written kind wrapper =>
      cases wrapper with
      | one | option | many =>
        obtain ⟨statement, bench₁, hstatement, hrest⟩ := writing_bind_eq_ok.1 h
        obtain ⟨others, bench₂, hothers, heq⟩ := writing_bind_eq_ok.1 hrest
        cases heq
        obtain ⟨hgrows, hcalls⟩ := writeValue_eq_ok hstatement
        obtain ⟨hgrows', hcalls'⟩ := ih hothers
        refine ⟨hgrows.trans hgrows', ?_⟩
        rw [Stmt.callsOfAll, hcalls']
        simp [Field.kind?, hcalls, Expr.single]
    | _ =>
      obtain ⟨others, bench₁, hothers, heq⟩ := writing_bind_eq_ok.1 h
      cases heq
      obtain ⟨hgrows, hcalls⟩ := ih hothers
      exact ⟨hgrows, hcalls⟩

theorem writeTypeName_eq_ok {record : Record} {statements : List Stmt}
    (h : writeTypeName s record bench = .ok (statements, bench')) :
    Grows [] bench bench' ∧ Stmt.callsOfAll statements = [] := by
  unfold writeTypeName at h
  split at h
  · obtain ⟨announced, bench₁, hannounced, heq⟩ := writing_bind_eq_ok.1 h
    cases heq
    obtain ⟨hgrows, hcalls⟩ := announce_eq_ok hannounced
    exact ⟨hgrows, by simp [hcalls, Expr.single]⟩
  · cases h
    exact ⟨.rfl, rfl⟩

/-- The function of a layout takes a value of its record and calls the functions of the values in
its fields. -/
structure IsWriter (layout : Layout) (function : Function) : Prop where
  name : function.name = layout.writer.text
  params : ∃ value, function.params = [.typed "context" (.ref true elementType),
    .typed value (.ref false (.single layout.ident.text))]
  calls : function.calls = (layout.fields.filterMap Field.kind?).flatMap ValueKind.calls

theorem writerFunction_eq_ok {layout : Layout} {function : Function}
    (h : writerFunction s layout bench = .ok (function, bench')) :
    Grows [] bench bench' ∧ IsWriter layout function := by
  obtain ⟨heading, bench₁, hheading, hrest⟩ := writing_bind_eq_ok.1 h
  obtain ⟨fields, bench₂, hfields, heq⟩ := writing_bind_eq_ok.1 hrest
  cases heq
  obtain ⟨hgrows, hcalls⟩ := writeTypeName_eq_ok hheading
  obtain ⟨hgrows', hcalls'⟩ := writeFields_eq_ok hfields
  refine ⟨hgrows.trans hgrows', rfl, ⟨_, rfl⟩, ?_⟩
  rw [Function.calls, Stmt.callsOfAll_append, hcalls, hcalls', List.nil_append]

/-- The items for layouts: for each one in turn the type of its record and its function. -/
def WritesRecords (layouts : List Layout) (items : List Item) : Prop :=
  ∃ pairs, items = pairs.flatten ∧
    List.Forall₂ (fun place pair => ∃ writer, IsWriter place.1 writer ∧
      pair = [recordItem layouts place.2 place.1, .function writer]) layouts.zipIdx pairs

theorem writeRecords_eq_ok {layouts : List Layout} {items : List Item}
    (h : writeRecords s layouts bench = .ok (items, bench')) :
    Grows [] bench bench' ∧ WritesRecords layouts items := by
  obtain ⟨pairs, bench₁, hpairs, heq⟩ := writing_bind_eq_ok.1 h
  cases heq
  obtain ⟨hgrows, hall⟩ := mapM_grows (fun _ => [])
    (fun _ (place : Layout × Nat) pair => ∃ writer, IsWriter place.1 writer ∧
      pair = [recordItem layouts place.2 place.1, .function writer])
    (fun hpost _ => hpost) (fun {place bench pair bench'} hpair => by
      obtain ⟨writer, bench₂, hwriter, heq⟩ := writing_bind_eq_ok.1 hpair
      cases heq
      obtain ⟨hgrows, hisWriter⟩ := writerFunction_eq_ok hwriter
      exact ⟨hgrows, writer, hisWriter, rfl⟩) hpairs
  have hnone : layouts.zipIdx.flatMap (fun _ => ([] : List Record)) = [] :=
    List.flatMap_eq_nil_iff.2 fun _ _ => rfl
  exact ⟨hnone ▸ hgrows, pairs, rfl, hall⟩

/-- Every layout has a function among the items. -/
theorem WritesRecords.exists_writer {layouts : List Layout} {items : List Item}
    (h : WritesRecords layouts items) {layout : Layout} (hlayout : layout ∈ layouts) :
    ∃ writer, Item.function writer ∈ items ∧ IsWriter layout writer := by
  obtain ⟨pairs, rfl, hall⟩ := h
  obtain ⟨index, hindex⟩ := List.mem_iff_getElem?.1 hlayout
  have hplace : (layout, index) ∈ layouts.zipIdx := List.mk_mem_zipIdx_iff_getElem?.2 hindex
  obtain ⟨_, hpair, writer, hisWriter, rfl⟩ := exists_mem_of_forall₂ hall.flip hplace
  exact ⟨writer, List.mem_flatten.2 ⟨_, hpair, by simp⟩, hisWriter⟩

/-- Every layout has the type of its record among the items. -/
theorem WritesRecords.recordItem_mem {layouts : List Layout} {items : List Item}
    (h : WritesRecords layouts items) {index : Nat} {layout : Layout}
    (hlayout : layouts[index]? = some layout) : recordItem layouts index layout ∈ items := by
  obtain ⟨pairs, rfl, hall⟩ := h
  have hplace : (layout, index) ∈ layouts.zipIdx := List.mk_mem_zipIdx_iff_getElem?.2 hlayout
  obtain ⟨_, hpair, writer, -, rfl⟩ := exists_mem_of_forall₂ hall.flip hplace
  exact List.mem_flatten.2 ⟨_, hpair, List.mem_cons_self⟩

/-! ## Plans -/

/-- The parts of the message that an operation of an interface takes. -/
def inputPartsOf (defs : Definitions) (interface : Wsdl.Interface) (name : String) :
    List Wsdl.Part :=
  match (interface.operations.get? name).bind (·.input) with
  | some input => ((defs.messages.get? input).map (·.parts)).getD []
  | none => []

/-- The parts of the messages that the operations of a binding take. -/
def inputParts (defs : Definitions) (binding : Wsdl.Binding) : List Wsdl.Part :=
  match defs.interfaces.get? binding.interface with
  | some interface =>
    binding.actions.values.flatMap fun action => inputPartsOf defs interface action.name
  | none => []

section Plan

variable {defs : Definitions} {binding : Wsdl.Binding} {interface : Wsdl.Interface}

theorem planOperation_parts {methods methods' : FreshNames} {action : Wsdl.Action}
    {planned : PlannedOperation}
    (h : Plan.planOperation defs binding interface methods action = .ok (planned, methods')) :
    planned.parts = inputPartsOf defs interface action.name := by
  obtain ⟨operation, hoperation, hrest⟩ := bind_eq_ok.1 h
  obtain ⟨parts, hparts, hrest⟩ := bind_eq_ok.1 hrest
  obtain ⟨output, _, heq⟩ := bind_eq_ok.1 hrest
  cases heq
  unfold Plan.operationNamed at hoperation
  split at hoperation
  · next hget =>
    cases hoperation
    unfold inputPartsOf
    rw [hget, Option.bind_some]
    cases hinput : operation.input with
    | none =>
      rw [hinput] at hparts
      cases hparts
      rfl
    | some input =>
      rw [hinput] at hparts
      obtain ⟨message, hmessage, heq⟩ := bind_eq_ok.1 hparts
      cases heq
      unfold Plan.message at hmessage
      split at hmessage
      · next hget =>
        cases hmessage
        simp [hget]
      · cases hmessage
  · cases hoperation

theorem planOperations_parts {methods : FreshNames} {actions : List Wsdl.Action}
    {planned : List PlannedOperation}
    (h : Plan.planOperations defs binding interface methods actions = .ok planned) :
    planned.flatMap (·.parts) =
      actions.flatMap fun action => inputPartsOf defs interface action.name := by
  induction actions generalizing methods planned with
  | nil =>
    cases h
    rfl
  | cons action rest ih =>
    obtain ⟨⟨first, methods'⟩, hfirst, hrest⟩ := bind_eq_ok.1 h
    obtain ⟨others, hothers, heq⟩ := bind_eq_ok.1 hrest
    cases heq
    rw [List.flatMap_cons, List.flatMap_cons, planOperation_parts hfirst, ih hothers]

/-- A plan takes the parts of its operations from the messages of the binding. -/
theorem ofBinding_parts {name : String} {plan : Plan}
    (h : Plan.ofBinding defs binding name = .ok plan) :
    plan.operations.flatMap (·.parts) = inputParts defs binding := by
  obtain ⟨interface, hinterface, hrest⟩ := bind_eq_ok.1 h
  obtain ⟨isEncoded, _, hrest⟩ := bind_eq_ok.1 hrest
  obtain ⟨operations, hoperations, heq⟩ := bind_eq_ok.1 hrest
  have hplan : plan.operations = operations := by
    cases heq
    rfl
  unfold Plan.interfaceOf at hinterface
  split at hinterface
  · next hget =>
    cases hinterface
    rw [hplan, planOperations_parts hoperations, inputParts, hget]
  · cases hinterface

end Plan

/-! ## Clients -/

/-- The items of a client: its methods write the parts of its operations, and behind them come the
records. -/
def WritesClient (defs : Definitions) (plan : Plan) (layouts : List Layout) (items : List Item) :
    Prop :=
  ∃ aliases methods records, items = clientItems plan aliases methods.flatten ++ records ∧
    List.Forall₂ (WritesOperation defs layouts) plan.operations methods ∧
    WritesRecords layouts records

theorem WritesOperation.mono {defs : Definitions} {layouts layouts' : List Layout}
    {operation : PlannedOperation} {methods : List Function}
    (h : WritesOperation defs layouts operation methods)
    (hkept : Kept layouts layouts') :
    WritesOperation defs layouts' operation methods := by
  intro method hmethod
  obtain ⟨params, hparams, kinds, hkinds, htypes, hcalls⟩ := h method hmethod
  exact ⟨params, hparams, kinds, hkinds.imp fun _ _ hkind => hkind.mono hkept, htypes, hcalls⟩

/-- Layouts are what completing the records of a plan's operations comes to. The completion ends by
itself: further steps change nothing. -/
def Completes (s : Setting) (plan : Plan) (reserved : List String) (layouts : List Layout) : Prop :=
  ∃ methods bench bench',
    plan.operations.mapM (writeOperation s) (.start s.defs reserved) = .ok (methods, bench) ∧
    (∀ more, completeFrom s (recordLimit s.defs + more) 0 bench = .ok ((), bench')) ∧
    bench'.layouts = layouts

/-- The steps in which a client is written: its methods, the fields of its records, and the types
and functions of these. -/
theorem writeClient_steps {plan : Plan} {items : List Item}
    (h : writeClient s plan bench = .ok (items, bench')) :
    ∃ methods records bench₁ bench₂,
      plan.operations.mapM (writeOperation s) bench = .ok (methods, bench₁) ∧
      completeLayouts s bench₁ = .ok ((), bench₂) ∧
      writeRecords s bench₂.layouts bench₂ = .ok (records, bench') ∧
      items = clientItems plan bench'.aliases.toList methods.flatten ++ records := by
  obtain ⟨methods, bench₁, hmethods, hrest⟩ := writing_bind_eq_ok.1 h
  obtain ⟨⟨⟩, bench₂, hcomplete, hrest⟩ := writing_bind_eq_ok.1 hrest
  obtain ⟨_, _, hget, hrest⟩ := writing_bind_eq_ok.1 hrest
  cases hget
  obtain ⟨records, bench₃, hrecords, hrest⟩ := writing_bind_eq_ok.1 hrest
  obtain ⟨_, _, hget, heq⟩ := writing_bind_eq_ok.1 hrest
  cases hget
  cases heq
  exact ⟨methods, records, bench₁, bench₂, hmethods, hcomplete, hrecords, rfl⟩

/-- The methods of a client meet the records of the parts of its operations, and with these a search
for further records begins. -/
theorem completing_of_operations {operations : List PlannedOperation} {reserved : List String}
    {methods : List (List Function)}
    (h : operations.mapM (writeOperation s) (.start s.defs reserved) = .ok (methods, bench)) :
    Completing s.defs ((operations.flatMap (·.parts)).filterMap (recordOfPart s.defs)) 0 bench ∧
      (∀ record ∈ (operations.flatMap (·.parts)).filterMap (recordOfPart s.defs),
        Declared s.defs record) ∧
      List.Forall₂ (WritesOperation s.defs bench.layouts) operations methods := by
  obtain ⟨hgrows, hoperations⟩ := mapM_grows
    (fun operation => operation.parts.filterMap (recordOfPart s.defs)) (WritesOperation s.defs)
    WritesOperation.mono writeOperation_eq_ok h
  rw [← List.filterMap_flatMap] at hgrows
  refine ⟨.start hgrows.records, fun record hrecord => ?_, hoperations⟩
  obtain ⟨part, -, hpart⟩ := List.mem_filterMap.1 hrecord
  exact declared_of_part hpart

theorem writeClient_eq_ok {plan : Plan} {reserved : List String} {items : List Item}
    (h : writeClient s plan (.start s.defs reserved) = .ok (items, bench')) :
    ∃ layouts, Completes s plan reserved layouts ∧
      Closed s.defs ((plan.operations.flatMap (·.parts)).filterMap (recordOfPart s.defs)) layouts ∧
      WritesClient s.defs plan layouts items := by
  obtain ⟨methods, records, bench₁, bench₂, hmethods, hcomplete, hrecords, rfl⟩ :=
    writeClient_steps h
  obtain ⟨hstart, hroots, hoperations⟩ := completing_of_operations hmethods
  obtain ⟨-, hwrites⟩ := writeRecords_eq_ok hrecords
  obtain ⟨hdone, hkept⟩ := hstart.run hroots (Nat.le_refl _) hcomplete
  have hmore : ∀ more, completeFrom s (recordLimit s.defs + more) 0 bench₁ = .ok ((), bench₂) :=
    fun more => (hstart.completeFrom_add hroots (Nat.le_refl _) more).trans hcomplete
  have hmethods' : List.Forall₂ (WritesOperation s.defs bench₂.layouts) plan.operations methods :=
    hoperations.imp fun _ _ h => h.mono hkept
  exact ⟨bench₂.layouts, ⟨methods, bench₁, bench₂, hmethods, hmore, rfl⟩, hdone.closed hroots,
    _, methods, records, rfl, hmethods', hwrites⟩

/-- There is only one way in which records can be completed. -/
theorem Completes.unique {plan : Plan} {reserved : List String} {layouts layouts' : List Layout}
    (h : Completes s plan reserved layouts) (h' : Completes s plan reserved layouts') :
    layouts = layouts' := by
  obtain ⟨methods, bench₁, bench₂, hmethods, hmore, rfl⟩ := h
  obtain ⟨methods', bench₁', bench₂', hmethods', hmore', rfl⟩ := h'
  rw [hmethods] at hmethods'
  cases hmethods'
  have heq := (hmore 0).symm.trans (hmore' 0)
  cases heq
  rfl

/-! ## Callees -/

section Callees

variable {defs : Definitions} {layouts : List Layout} {callee : String}

theorem IsKindOf.exists_layout {record? : Option Record} {kind : ValueKind}
    (h : IsKindOf layouts record? kind) (hcallee : callee ∈ kind.calls) :
    ∃ layout ∈ layouts, layout.writer.text = callee := by
  cases h with
  | simple => cases hcallee
  | @complex _ _ layout hlayout _ =>
    rw [Layout.kind, ValueKind.calls, List.mem_singleton] at hcallee
    exact ⟨layout, List.mem_of_getElem? hlayout, hcallee.symm⟩

/-- Functions of kinds that values have are functions of layouts. -/
theorem exists_layout_of_kinds {α : Type} {record? : α → Option Record} {values : List α}
    {kinds : List ValueKind}
    (h : List.Forall₂ (fun value kind => IsKindOf layouts (record? value) kind) values kinds)
    (hcallee : callee ∈ kinds.flatMap ValueKind.calls) :
    ∃ layout ∈ layouts, layout.writer.text = callee := by
  obtain ⟨kind, hkind, hcallee⟩ := List.mem_flatMap.1 hcallee
  obtain ⟨_, _, hisKind⟩ := exists_mem_of_forall₂ h hkind
  exact hisKind.exists_layout hcallee

theorem calls_constructors (plan : Plan) (aliases : List (String × String)) :
    (constructors plan aliases).calls = [] := by
  have hdispatcher : ∀ dispatcher : Expr, dispatcher.calls = [] → (aliases.foldl
      (fun dispatcher pair => dispatcher.method "alias" [.text pair.1, .text pair.2])
      dispatcher).calls = [] := by
    induction aliases with
    | nil => exact fun _ h => h
    | cons pair rest ih =>
      intro dispatcher h
      exact ih _ (by simp [h])
  have hmade := hdispatcher
    (.call (soapPath ["Dispatcher", "new"]) [.single "endpoint", .single "transport"])
    (by simp [Expr.single, soapPath, Path.root, Path.plainName])
  simp [constructors, plainMethod, Expr.single, Path.plainName]
  exact hmade

theorem calls_accessors (plan : Plan) : (accessors plan).calls = [] := by
  simp [accessors, plainMethod, selfExpr, Expr.single]

theorem calls_clientItems {plan : Plan} {aliases : List (String × String)}
    {methods : List Function} {item : Item} (hitem : item ∈ clientItems plan aliases methods)
    (hcallee : callee ∈ item.calls) : ∃ method ∈ methods, callee ∈ method.calls := by
  simp only [clientItems, List.mem_cons, List.not_mem_nil, or_false] at hitem
  rcases hitem with rfl | rfl | rfl | rfl | rfl
  · simp [endpointItem, soapPath, Path.root, Path.plainName] at hcallee
  · cases hcallee
  · rw [calls_constructors] at hcallee
    cases hcallee
  · rw [calls_accessors] at hcallee
    cases hcallee
  · exact List.mem_flatMap.1 hcallee

/-- Whatever the items of a client call is the function of a layout. -/
theorem WritesClient.exists_layout {plan : Plan} {roots : List Record} {items : List Item}
    (h : WritesClient defs plan layouts items) (hclosed : Closed defs roots layouts) {item : Item}
    (hitem : item ∈ items) (hcallee : callee ∈ item.calls) :
    ∃ layout ∈ layouts, layout.writer.text = callee := by
  obtain ⟨aliases, methods, records, rfl, hoperations, pairs, rfl, hpairs⟩ := h
  rcases List.mem_append.1 hitem with hitem | hitem
  · obtain ⟨method, hmethod, hcallee⟩ := calls_clientItems hitem hcallee
    obtain ⟨own, hown, hmethod⟩ := List.mem_flatten.1 hmethod
    obtain ⟨operation, _, hwrites⟩ := exists_mem_of_forall₂ hoperations hown
    obtain ⟨params, -, kinds, hkinds, -, hcalls⟩ := hwrites method hmethod
    exact exists_layout_of_kinds hkinds (hcalls ▸ hcallee)
  · obtain ⟨pair, hpair, hitem⟩ := List.mem_flatten.1 hitem
    obtain ⟨place, hplace, writer, hwriter, rfl⟩ := exists_mem_of_forall₂ hpairs hpair
    rcases List.mem_pair.1 hitem with rfl | rfl
    · cases hcallee
    · obtain ⟨elements, -, hkinds⟩ := hclosed.filled place.1 (List.fst_mem_of_mem_zipIdx hplace)
      rw [Item.calls, hwriter.calls] at hcallee
      exact exists_layout_of_kinds hkinds hcallee

end Callees

theorem WritesClient.exists_writer {defs : Definitions} {plan : Plan} {layouts : List Layout}
    {items : List Item} (h : WritesClient defs plan layouts items) {layout : Layout}
    (hlayout : layout ∈ layouts) :
    ∃ writer, Item.function writer ∈ items ∧ IsWriter layout writer := by
  obtain ⟨aliases, methods, records, rfl, -, hrecords⟩ := h
  obtain ⟨writer, hmem, hwriter⟩ := hrecords.exists_writer hlayout
  exact ⟨writer, List.mem_append_right _ hmem, hwriter⟩

theorem WritesClient.recordItem_mem {defs : Definitions} {plan : Plan} {layouts : List Layout}
    {items : List Item} (h : WritesClient defs plan layouts items) {index : Nat} {layout : Layout}
    (hlayout : layouts[index]? = some layout) : recordItem layouts index layout ∈ items := by
  obtain ⟨aliases, methods, records, rfl, -, hrecords⟩ := h
  exact List.mem_append_right _ (hrecords.recordItem_mem hlayout)

theorem ofBinding_name {defs : Definitions} {binding : Wsdl.Binding} {service : String}
    {plan : Plan} (h : Plan.ofBinding defs binding service = .ok plan) : plan.name = service := by
  obtain ⟨interface, -, hrest⟩ := bind_eq_ok.1 h
  obtain ⟨isEncoded, -, hrest⟩ := bind_eq_ok.1 hrest
  obtain ⟨operations, -, heq⟩ := bind_eq_ok.1 hrest
  cases heq
  rfl

/-- A client is compiled by writing what the plan of its binding says. -/
theorem compile_eq_ok {defs : Definitions} {service : Option String} {name : QName}
    {items : List Item} (h : compile defs service name = .ok items) :
    ∃ binding plan bench, defs.bindings.get? name = some binding ∧
      Plan.ofBinding defs binding (service.getD binding.name.base) = .ok plan ∧
      writeClient ⟨defs, plan.isEncoded⟩ plan (.start defs [(serviceIdent plan.name).text]) =
        .ok (items, bench) := by
  unfold compile at h
  cases hbinding : defs.bindings.get? name with
  | none =>
    rw [hbinding] at h
    cases h
  | some binding =>
    rw [hbinding] at h
    obtain ⟨plan, hplan, hrest⟩ := bind_eq_ok.1 h
    obtain ⟨⟨_, bench⟩, hclient, heq⟩ := bind_eq_ok.1 hrest
    cases heq
    rw [← ofBinding_name hplan] at hclient
    exact ⟨binding, plan, bench, rfl, hplan, hclient⟩

/-- A client was compiled by a plan, from layouts that its records were completed to. -/
structure Compiled (defs : Definitions) (service : Option String) (name : QName)
    (items : List Item) (plan : Plan) (layouts : List Layout) : Prop where
  planned : ∃ binding, defs.bindings.get? name = some binding ∧
    Plan.ofBinding defs binding (service.getD binding.name.base) = .ok plan
  completes : Completes ⟨defs, plan.isEncoded⟩ plan [(serviceIdent plan.name).text] layouts
  writes : WritesClient defs plan layouts items

theorem exists_compiled {defs : Definitions} {service : Option String} {name : QName}
    {items : List Item} (h : compile defs service name = .ok items) :
    ∃ plan layouts, Compiled defs service name items plan layouts ∧
      Closed defs ((plan.operations.flatMap (·.parts)).filterMap (recordOfPart defs)) layouts := by
  obtain ⟨binding, plan, bench, hbinding, hplan, hclient⟩ := compile_eq_ok h
  obtain ⟨layouts, hcompletes, hclosed, hwrites⟩ := writeClient_eq_ok hclient
  exact ⟨plan, layouts, ⟨⟨binding, hbinding, hplan⟩, hcompletes, hwrites⟩, hclosed⟩

/-- A client that is compiled has closed layouts of the records that the messages of its binding
lead to, writes all values by them, and calls no function that is not among its items. -/
theorem compile_closed {defs : Definitions} {service : Option String} {name : QName}
    {items : List Item} (h : compile defs service name = .ok items) :
    ∃ binding plan layouts, defs.bindings.get? name = some binding ∧
      Plan.ofBinding defs binding (service.getD binding.name.base) = .ok plan ∧
      Completes ⟨defs, plan.isEncoded⟩ plan
        [(serviceIdent (service.getD binding.name.base)).text] layouts ∧
      Closed defs ((inputParts defs binding).filterMap (recordOfPart defs)) layouts ∧
      WritesClient defs plan layouts items ∧
      ∀ item ∈ items, ∀ callee ∈ item.calls, ∃ layout ∈ layouts, ∃ writer,
        Item.function writer ∈ items ∧ IsWriter layout writer ∧ writer.name = callee := by
  unfold compile at h
  cases hbinding : defs.bindings.get? name with
  | none =>
    rw [hbinding] at h
    cases h
  | some binding =>
    rw [hbinding] at h
    obtain ⟨plan, hplan, hrest⟩ := bind_eq_ok.1 h
    obtain ⟨⟨_, bench⟩, hclient, heq⟩ := bind_eq_ok.1 hrest
    cases heq
    obtain ⟨layouts, hcompletes, hclosed, hwrites⟩ := writeClient_eq_ok hclient
    rw [ofBinding_parts hplan] at hclosed
    refine ⟨binding, plan, layouts, rfl, hplan, hcompletes, hclosed, hwrites, ?_⟩
    intro item hitem callee hcallee
    obtain ⟨layout, hlayout, htext⟩ := hwrites.exists_layout hclosed hitem hcallee
    obtain ⟨writer, hmem, hwriter⟩ := hwrites.exists_writer hlayout
    exact ⟨layout, hlayout, writer, hmem, hwriter, hwriter.name.trans htext⟩

/-! ## Types that refer to each other -/

/-- A name in the namespace of the example. -/
def linkedName (base : String) : QName :=
  ⟨some "urn:linked", base⟩

/-- A complex type with a single element that may be missing. -/
def linkedType (field type : String) : Wsdl.ComplexType :=
  { name := none, derivation := none, attributes := [], attributeGroups := []
    content := some (.all [{
      name := linkedName field, isReference := false, isQualified := false
      typeName := some (linkedName type), definition := none, default := none, fixed := none
      occurs := ⟨0, .bounded 1⟩, isNillable := false, substitutionGroup := none }]) }

/-- A description of one operation, which sends a node. Nodes hold links and links hold nodes. -/
def linked : Definitions :=
  { Definitions.empty with
    messages := ⟨[(linkedName "Ask", ⟨linkedName "Ask", [⟨"start", .type (linkedName "Node")⟩]⟩)]⟩
    interfaces := ⟨[(linkedName "Port",
      ⟨linkedName "Port", ⟨[("ask", ⟨"ask", none, some (linkedName "Ask"), none, []⟩)]⟩⟩)]⟩
    bindings := ⟨[(linkedName "Soap",
      ⟨linkedName "Soap", linkedName "Port", .soap11, .rpc, none,
        ⟨[("ask", ⟨"ask", "", none, .empty, .empty⟩)]⟩⟩)]⟩
    types := ⟨[(linkedName "Link", .complex (linkedType "target" "Node")),
      (linkedName "Node", .complex (linkedType "next" "Link"))]⟩ }

theorem exists_compile_linked : ∃ items, compile linked none (linkedName "Soap") = .ok items :=
  exists_eq_ok (by decide +kernel)

/-- Types that refer to each other are compiled to closed layouts. -/
theorem compile_closed_of_linked : ∃ items layouts,
    compile linked none (linkedName "Soap") = .ok items ∧
      Closed linked [⟨linkedName "Node", false, linkedType "next" "Link"⟩] layouts ∧
      ∀ item ∈ items, ∀ callee ∈ item.calls, ∃ layout ∈ layouts, ∃ writer,
        Item.function writer ∈ items ∧ IsWriter layout writer ∧ writer.name = callee := by
  have hsome : (compile linked none (linkedName "Soap")).toOption.isSome = true := by
    decide +kernel
  cases hcompile : compile linked none (linkedName "Soap") with
  | error e =>
    rw [hcompile] at hsome
    cases hsome
  | ok items =>
    obtain ⟨binding, plan, layouts, hbinding, -, -, hclosed, -, hcalls⟩ := compile_closed hcompile
    cases hbinding
    exact ⟨items, layouts, rfl, hclosed, hcalls⟩

end SoapKit.Client
