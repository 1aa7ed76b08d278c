import SoapKit.Proofs.Client.Elements
import SoapKit.Proofs.Client.ItemNames
import SoapKit.Proofs.Client.MemberNames
import SoapKit.Proofs.Client.Spelling
import SoapKit.Proofs.Naming.Legality

/-!
# Names that clients declare

All names that a client declares are legal (`writeClient_legal`): those of constants, types, fields,
functions, methods, type parameters, parameters and variables.

Most of them are made by `Ident.ofName`, which changes characters that cannot be written, so that
nothing has to be known about the description. The function of a record is called after the record
as it is, and a parameter that is not used has an underscore before it; for these it matters that
the layout is called after a name that was handed out for it (`NamedBy`).
-/

namespace SoapKit.Rust

/-! ## Declared names -/

mutual

/-- The names that an expression declares: parameters of functions and variables in them. -/
@[simp] def Expr.declares : Expr → List String
  | .path _ | .text _ => []
  | .ref target => target.declares
  | .field base _ => base.declares
  | .call _ args => Expr.declaresOfAll args
  | .method receiver _ args => receiver.declares ++ Expr.declaresOfAll args
  | .await base => base.declares
  | .closure parameter body => parameter :: Stmt.declaresOfAll body
  | .record _ fields => Expr.declaresOfFields fields

/-- The names that expressions declare. -/
@[simp] def Expr.declaresOfAll : List Expr → List String
  | [] => []
  | first :: rest => first.declares ++ Expr.declaresOfAll rest

/-- The names that the values of fields declare. -/
@[simp] def Expr.declaresOfFields : List (String × Option Expr) → List String
  | [] => []
  | (_, some value) :: rest => value.declares ++ Expr.declaresOfFields rest
  | (_, none) :: rest => Expr.declaresOfFields rest

/-- The names that a statement declares. -/
@[simp] def Stmt.declares : Stmt → List String
  | .drop value | .value value => value.declares
  | .forEach item list body => item :: list.declares ++ Stmt.declaresOfAll body
  | .ifSome item value body => item :: value.declares ++ Stmt.declaresOfAll body

/-- The names that statements declare. -/
@[simp] def Stmt.declaresOfAll : List Stmt → List String
  | [] => []
  | first :: rest => first.declares ++ Stmt.declaresOfAll rest

end

/-- The name that a parameter declares, if it is not the object itself. -/
@[simp] def Param.declares : Param → List String
  | .self | .refSelf => []
  | .typed name _ => [name]

/-- The names that a function declares. -/
@[simp] def Function.declares (function : Function) : List String :=
  function.name :: function.typeParams.map (·.name) ++ function.params.flatMap Param.declares ++
    Stmt.declaresOfAll function.body

/-- The names that an item declares. -/
@[simp] def Item.declares : Item → List String
  | .constant _ name _ value => name :: value.declares
  | .record _ _ name typeParams fields => name :: typeParams.map (·.name) ++ fields.map (·.name)
  | .methods typeParams _ members => typeParams.map (·.name) ++ members.flatMap Function.declares
  | .function code => code.declares

@[simp] theorem Expr.declares_single (name : String) : (Expr.single name).declares = [] := rfl

theorem Stmt.declaresOfAll_append (first rest : List Stmt) :
    Stmt.declaresOfAll (first ++ rest) = Stmt.declaresOfAll first ++ Stmt.declaresOfAll rest := by
  induction first with
  | nil => rfl
  | cons statement others ih =>
    rw [List.cons_append, Stmt.declaresOfAll, Stmt.declaresOfAll, ih, List.append_assoc]

/-- All names are legal identifiers. -/
def Legal (names : List String) : Prop :=
  ∀ name ∈ names, isIdentifier name = true

instance (names : List String) : Decidable (Legal names) :=
  inferInstanceAs (Decidable (∀ name ∈ names, isIdentifier name = true))

namespace Legal

variable {name : String} {names others : List String}

theorem nil : Legal [] := by
  intro name h
  cases h

theorem cons_iff : Legal (name :: names) ↔ isIdentifier name = true ∧ Legal names :=
  List.forall_mem_cons

theorem append_iff : Legal (names ++ others) ↔ Legal names ∧ Legal others :=
  List.forall_mem_append

theorem flatMap_iff {α : Type} {f : α → List String} {xs : List α} :
    Legal (xs.flatMap f) ↔ ∀ x ∈ xs, Legal (f x) := by
  simp only [Legal, List.mem_flatMap]
  exact ⟨fun h x hx name hname => h name ⟨x, hx, hname⟩,
    fun h name ⟨x, hx, hname⟩ => h x hx name hname⟩

end Legal

end SoapKit.Rust

namespace SoapKit.Client

open Naming
open Rust
open Wsdl (QName Definitions)

variable {α β : Type} {s : Setting} {bench bench' : Workbench}

/-! ## Code that steps make -/

/-- Whatever a step of writing makes is of a kind. -/
def Makes (P : α → Prop) (w : Writing α) : Prop :=
  ∀ ⦃bench a bench'⦄, w bench = .ok (a, bench') → P a

namespace Makes

variable {P Q : α → Prop} {R : β → Prop} {w w' : Writing α}

theorem pure {a : α} (h : P a) : Makes P (pure a : Writing α) := by
  intro bench a bench' heq
  cases heq
  exact h

theorem any (w : Writing α) : Makes (fun _ => True) w :=
  fun _ _ _ _ => trivial

theorem bind {f : α → Writing β} (hw : Makes P w) (hf : ∀ a, P a → Makes R (f a)) :
    Makes R (w >>= f) := by
  intro bench b bench'' heq
  obtain ⟨a, bench', ha, hb⟩ := writing_bind_eq_ok.1 heq
  exact hf a (hw ha) hb

theorem mapM {f : α → Writing β} {xs : List α} (h : ∀ x ∈ xs, Makes R (f x)) :
    Makes (fun ys => ∀ y ∈ ys, R y) (xs.mapM f) := by
  induction xs with
  | nil => exact .pure fun y hy => absurd hy List.not_mem_nil
  | cons x rest ih =>
    rw [List.forall_mem_cons] at h
    rw [List.mapM_cons]
    exact h.1.bind fun y hy => (ih h.2).bind fun others hothers =>
      .pure (List.forall_mem_cons.2 ⟨hy, hothers⟩)

/-- What holds of the types of records and of their functions holds of all items for records. -/
theorem writeRecords {P : Item → Prop} {layouts : List Layout}
    (hrecord : ∀ layout ∈ layouts, ∀ index, P (recordItem layouts index layout))
    (hwriter : ∀ layout ∈ layouts,
      Makes (fun writer => P (.function writer)) (writerFunction s layout)) :
    Makes (fun items => ∀ item ∈ items, P item) (writeRecords s layouts) := by
  have hpair : ∀ place ∈ layouts.zipIdx, Makes (fun pair => ∀ item ∈ pair, P item) (do
      let writer ← writerFunction s place.1
      return [recordItem layouts place.2 place.1, .function writer]) := by
    intro place hplace
    have hlayout := List.fst_mem_of_mem_zipIdx hplace
    exact (hwriter place.1 hlayout).bind fun writer hfunction => .pure
      (List.forall_mem_cons.2 ⟨hrecord place.1 hlayout _, List.forall_mem_singleton.2 hfunction⟩)
  refine (mapM hpair).bind fun pairs hpairs => .pure fun item hitem => ?_
  obtain ⟨pair, hmem, hitem⟩ := List.mem_flatten.1 hitem
  exact hpairs pair hmem item hitem

end Makes

theorem announce_declares (target : Expr) (name : QName) :
    Makes (fun announced : Expr => announced.declares = target.declares)
      (announce target name) := by
  unfold announce
  refine (Makes.any _).bind fun key _ => (Makes.any _).bind fun value _ => ?_
  split
  · exact (Makes.any _).bind fun qualifier _ => .pure (by simp)
  · exact .pure (by simp)

theorem writeValue_declares (s : Setting) (parent written : String) (kind : ValueKind)
    {value : Expr} (hvalue : value.declares = []) :
    Makes (fun statement : Stmt => statement.declares = [])
      (writeValue s parent written kind value) := by
  have hset : ∀ target : Expr, target.declares = [] →
      (Stmt.drop (target.method "set_value" [value])).declares = [] := by
    intro target htarget
    simp [htarget, hvalue]
  have hadded : ((Expr.single parent).method "add" [.text written]).declares = [] := rfl
  cases kind with
  | complex index record writer =>
    refine .pure ?_
    simp [hvalue]
  | simple type announced =>
    unfold writeValue
    simp only
    split
    · exact (announce_declares _ _).bind fun target htarget =>
        .pure (hset target (htarget.trans hadded))
    · exact (Makes.pure (P := fun target : Expr => target.declares = []) hadded).bind
        fun target htarget => .pure (hset target htarget)

/-- The parameters for parts have legal names, and the statements declare nothing. -/
def LegalParts (made : List Param × List Stmt) : Prop :=
  Legal (made.1.flatMap Param.declares) ∧ Stmt.declaresOfAll made.2 = []

theorem writeParts_legal (s : Setting) (taken : FreshNames) (parts : List Wsdl.Part) :
    Makes LegalParts (writeParts s taken parts) := by
  induction parts generalizing taken with
  | nil => exact .pure ⟨.nil, rfl⟩
  | cons part rest ih =>
    refine (Makes.any _).bind fun (written, kind) _ => ?_
    refine (writeValue_declares s _ _ _ rfl).bind fun statement hstatement => ?_
    refine (ih _).bind fun (params, statements) ⟨hparams, hstatements⟩ => .pure ⟨?_, ?_⟩
    · exact Legal.cons_iff.2 ⟨Ident.isIdentifier_ofName _, hparams⟩
    · rw [Stmt.declaresOfAll, hstatement, hstatements, List.nil_append]

theorem writeEncodingStyle_declares (operation : PlannedOperation) :
    Makes (fun statements => Stmt.declaresOfAll statements = [])
      (writeEncodingStyle operation) := by
  unfold writeEncodingStyle
  split
  · exact (Makes.any _).bind fun key _ => .pure rfl
  · exact .pure rfl

theorem legal_methodsOf {operation : PlannedOperation} {root : String} {params : List Param}
    {statements : List Stmt} (h : LegalParts (params, statements)) :
    ∀ method ∈ methodsOf operation root params statements, Legal method.declares := by
  have hmessage : isIdentifier (if statements.isEmpty then "_message" else "message") = true := by
    split <;> decide
  have hmethod : ∀ name : String, Legal ((Ident.ofName name).text ::
      (params.flatMap Param.declares ++
        (if statements.isEmpty then "_message" else "message") :: Stmt.declaresOfAll statements)) :=
    fun name => Legal.cons_iff.2 ⟨Ident.isIdentifier_ofName name,
      Legal.append_iff.2 ⟨h.1, Legal.cons_iff.2 ⟨hmessage, h.2.symm ▸ .nil⟩⟩⟩
  intro method hmem
  simp only [methodsOf, List.mem_cons, List.not_mem_nil, or_false] at hmem
  rcases hmem with rfl | rfl
  all_goals
    simpa [selfExpr] using hmethod _

theorem writeOperation_legal (s : Setting) (operation : PlannedOperation) :
    Makes (fun methods => ∀ method ∈ methods, Legal method.declares)
      (writeOperation s operation) := by
  refine (Makes.any _).bind fun root _ => ?_
  refine (writeEncodingStyle_declares operation).bind fun heading hheading => ?_
  refine (writeParts_legal s _ _).bind fun (params, parts) ⟨hparams, hparts⟩ => .pure ?_
  refine legal_methodsOf ⟨hparams, ?_⟩
  rw [Stmt.declaresOfAll_append, hheading, hparts, List.nil_append]

/-! ## Records -/

theorem writeFields_legal (s : Setting) (value : String) (taken : FreshNames)
    (fields : List Field) :
    Makes (fun statements => Legal (Stmt.declaresOfAll statements))
      (writeFields s value taken fields) := by
  induction fields generalizing taken with
  | nil => exact .pure .nil
  | cons field rest ih =>
    obtain ⟨ident, source⟩ := field
    have hplain : ∀ (statement : Stmt) (taken : FreshNames), statement.declares = [] →
        Makes (fun statements => Legal (Stmt.declaresOfAll statements))
          (do return statement :: (← writeFields s value taken rest)) :=
      fun statement taken hstatement => (ih taken).bind fun others hothers =>
        .pure (by rwa [Stmt.declaresOfAll, hstatement, List.nil_append])
    cases source with
    | «attribute» written type isRequired => exact hplain _ _ rfl
    | value type => exact hplain _ _ rfl
    | element written kind wrapper =>
      cases wrapper with
      | one =>
        exact (writeValue_declares s _ _ _ rfl).bind fun statement hstatement =>
          hplain _ _ hstatement
      | option | many =>
        refine (writeValue_declares s _ _ _ rfl).bind fun body hbody => ?_
        refine (ih _).bind fun others hothers => .pure ?_
        simpa [hbody] using Legal.cons_iff.2 ⟨Ident.isIdentifier_ofName _, hothers⟩

theorem writeTypeName_declares (s : Setting) (record : Record) :
    Makes (fun statements => Stmt.declaresOfAll statements = []) (writeTypeName s record) := by
  unfold writeTypeName
  split
  · refine (announce_declares _ _).bind fun announced hannounced => .pure ?_
    simp [hannounced]
  · exact .pure rfl

theorem writerFunction_legal (s : Setting) {layout : Layout} {name : String}
    (h : NamedBy layout name) :
    Makes (fun writer => Legal writer.declares) (writerFunction s layout) := by
  have hvariant := Variant.choose (FreshNames.empty.reserve "context")
    (underscore layout.ident.name)
  rw [h.ident] at hvariant
  refine (writeTypeName_declares s _).bind fun heading hheading => ?_
  refine (writeFields_legal s _ _ _).bind fun fields hfields => .pure ?_
  have hcontext : isIdentifier "context" = true := by decide
  have hwriter : isIdentifier layout.writer.text = true :=
    Ident.isIdentifier_withLead h.writer
  have hstatements : Legal (Stmt.declaresOfAll (heading ++ fields)) := by
    rwa [Stmt.declaresOfAll_append, hheading, List.nil_append]
  refine Legal.cons_iff.2 ⟨hwriter, Legal.append_iff.2 ⟨?_, hstatements⟩⟩
  refine Legal.cons_iff.2 ⟨hcontext, Legal.cons_iff.2 ⟨?_, .nil⟩⟩
  split
  · rw [h.ident]
    exact isIdentifier_marked_variant hvariant
  · exact Ident.isIdentifier_ofName _

theorem legal_recordItem {layouts : List Layout} {index : Nat} {layout : Layout} {name : String}
    (h : NamedBy layout name) (hfields : Legal (layout.fields.map fun field => field.ident.text)) :
    Legal (recordItem layouts index layout).declares := by
  have hident : isIdentifier layout.ident.text = true := h.ident ▸ Ident.isIdentifier_ofName name
  simpa [recordItem, Function.comp_def] using Legal.cons_iff.2 ⟨hident, hfields⟩

/-! ## Clients -/

theorem legal_endpointItem (plan : Plan) : Legal (endpointItem plan).declares := by
  have hendpoint : isIdentifier (endpointIdent plan.name).text = true := by
    rw [endpointIdent]
    exact Ident.isIdentifier_ofName _
  simpa [endpointItem] using Legal.cons_iff.2 ⟨hendpoint, .nil⟩

theorem legal_serviceItem (plan : Plan) : Legal (serviceItem plan).declares := by
  have hservice : isIdentifier (serviceIdent plan.name).text = true := Ident.isIdentifier_ofName _
  have hmembers : Legal ["T", "H", "dispatcher", "hooks"] := by decide
  exact Legal.cons_iff.2 ⟨hservice, hmembers⟩

theorem legal_constructors (plan : Plan) (aliases : List (String × String)) :
    Legal (constructors plan aliases).declares := by
  have hdispatcher : ∀ dispatcher : Expr, dispatcher.declares = [] → (aliases.foldl
      (fun dispatcher pair => dispatcher.method "alias" [.text pair.1, .text pair.2])
      dispatcher).declares = [] := by
    induction aliases with
    | nil => exact fun _ h => h
    | cons pair rest ih =>
      exact fun dispatcher h => ih _ (by simp [h])
  have hmade := hdispatcher
    (.call (soapPath ["Dispatcher", "new"]) [.single "endpoint", .single "transport"]) (by simp)
  have hnames : Legal ["T", "new", "transport", "with_endpoint", "endpoint", "transport"] := by
    decide
  simpa [constructors, plainMethod, freeParam, hmade] using hnames

theorem legal_accessors (plan : Plan) : Legal (accessors plan).declares := by
  have hnames : Legal ["T", "H", "with_hooks", "G", "hooks", "dispatcher", "hooks"] := by decide
  simpa [accessors, plainMethod, freeParam, hooksParam, selfExpr] using hnames

theorem legal_clientItems (plan : Plan) (aliases : List (String × String))
    {methods : List Function} (h : ∀ method ∈ methods, Legal method.declares) :
    ∀ item ∈ clientItems plan aliases methods, Legal item.declares := by
  intro item hitem
  simp only [clientItems, List.mem_cons, List.not_mem_nil, or_false] at hitem
  rcases hitem with rfl | rfl | rfl | rfl | rfl
  · exact legal_endpointItem plan
  · exact legal_serviceItem plan
  · exact legal_constructors plan aliases
  · exact legal_accessors plan
  · have hparams : Legal ["T", "H"] := by decide
    exact Legal.append_iff.2 ⟨hparams, Legal.flatMap_iff.2 h⟩

theorem writeRecords_legal (s : Setting) {layouts : List Layout}
    (hnamed : ∀ layout ∈ layouts, ∃ name, NamedBy layout name)
    (hfields : ∀ layout ∈ layouts, Legal (layout.fields.map fun field => field.ident.text)) :
    Makes (fun items => ∀ item ∈ items, Legal item.declares) (writeRecords s layouts) := by
  refine .writeRecords (fun layout hlayout index => ?_) fun layout hlayout => ?_
  · obtain ⟨name, hname⟩ := hnamed layout hlayout
    exact legal_recordItem hname (hfields layout hlayout)
  · obtain ⟨name, hname⟩ := hnamed layout hlayout
    exact writerFunction_legal s hname

/-- All names that a client declares are legal. -/
theorem writeClient_legal {plan : Plan} {reserved : List String} {layouts : List Layout}
    {items : List Item} (hreserved : reserved.Nodup)
    (hcompletes : Completes s plan reserved layouts)
    (h : writeClient s plan (.start s.defs reserved) = .ok (items, bench')) :
    ∀ item ∈ items, Legal item.declares := by
  obtain ⟨names, -, hnamed⟩ := hcompletes.exists_names hreserved
  have hfields : ∀ layout ∈ layouts,
      Legal (layout.fields.map fun field => field.ident.text) := by
    intro layout hlayout
    obtain ⟨bases, own, -, hown⟩ := hcompletes.forall_fields fieldsOf_names layout hlayout
    rw [hown.idents]
    exact List.forall_mem_map.2 fun name _ => Ident.isIdentifier_ofName name
  have hlayouts : ∀ layout ∈ layouts, ∃ name, NamedBy layout name := fun layout hlayout =>
    (exists_mem_of_forall₂ hnamed.flip hlayout).imp fun _ => And.right
  obtain ⟨methods, records, bench₁, bench₂, hmethods, -, -, hrecords, rfl⟩ :=
    writeClient_completed hcompletes h
  have hlegal := Makes.mapM (fun operation _ => writeOperation_legal s operation) hmethods
  refine List.forall_mem_append.2 ⟨legal_clientItems plan _ fun method hmethod => ?_,
    writeRecords_legal s hlayouts hfields hrecords⟩
  obtain ⟨own, hown, hmethod⟩ := List.mem_flatten.1 hmethod
  exact hlegal own hown method hmethod

end SoapKit.Client
