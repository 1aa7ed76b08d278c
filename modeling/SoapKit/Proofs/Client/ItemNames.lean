import SoapKit.Proofs.Client.Keeping
import SoapKit.Proofs.Naming.Fresh
import SoapKit.Proofs.Naming.Words

/-!
# Names of items

**Theorem (`compile_itemNames`).** Records are named one after the other by names that were free,
and the types and functions of a client are called after these names. The types of records with
plain words in their names are different from each other and from the client's type; the functions
are different if moreover no two capitals follow each other.

No more can be had (`not_nodup_functions`): that a name is free is looked up before it is made an
identifier or turned into small letters, and neither of these tells all names apart.
-/

namespace SoapKit.Rust

/-- The name of a record type. -/
def Item.recordName? : Item → Option String
  | .record _ _ name _ _ => some name
  | _ => none

/-- The name of a function. -/
def Item.functionName? : Item → Option String
  | .function code => some code.name
  | _ => none

end SoapKit.Rust

namespace SoapKit.Client

open Naming
open Rust (Ident Item Function)
open Wsdl (QName Definitions)

variable {α β γ : Type}

/-! ## Naming records -/

/-- A layout is called after a name that was handed out for its record. -/
structure NamedBy (layout : Layout) (name : String) : Prop where
  base : name = camelize layout.record.name.base ∨
    ∃ number, name = FreshNames.numbered (camelize layout.record.name.base) number
  ident : layout.ident = Ident.ofName name
  writer : Ident.withLead? "build_" (underscore name) = some layout.writer

/-- Layouts are called after different names, none of which is a reserved one. -/
def Named (reserved : List String) (bench : Workbench) : Prop :=
  ∃ names, bench.typeNames.taken = reserved ++ names ∧ bench.typeNames.taken.Nodup ∧
    List.Forall₂ NamedBy (bench.layouts.map Layout.bare) names

theorem named_start {reserved : List String} (h : reserved.Nodup) (defs : Definitions) :
    Named reserved (.start defs reserved) := by
  have htaken : ∀ (names : FreshNames), (reserved.foldl FreshNames.reserve names).taken =
      names.taken ++ reserved := by
    clear h
    induction reserved with
    | nil => exact fun names => (List.append_nil _).symm
    | cons first rest ih =>
      intro names
      rw [List.foldl_cons, ih, FreshNames.reserve, List.append_assoc, List.singleton_append]
  have hstart : (Workbench.start defs reserved).typeNames.taken = reserved := htaken .empty
  refine ⟨[], hstart.trans (List.append_nil _).symm, ?_, .nil⟩
  rwa [hstart]

theorem lasting_named (reserved : List String) : Lasting (Named reserved) where
  aliases := fun _ h _ => h
  setFields := by
    rintro bench ⟨names, htaken, hnodup, hnamed⟩ index fields
    exact ⟨names, htaken, hnodup, map_bare_setFields bench index fields ▸ hnamed⟩
  register := by
    rintro record bench kind bench' ⟨names, htaken, hnodup, hnamed⟩ heq
    unfold register at heq
    split at heq
    · split at heq
      · cases heq
        exact ⟨names, htaken, hnodup, hnamed⟩
      · cases heq
    · simp only at heq
      split at heq
      · cases heq
      · next writer hwriter =>
        cases heq
        refine ⟨names ++ [bench.typeNames.choose (camelize record.name.base)], ?_,
          FreshNames.nodup_allocate hnodup _, ?_⟩
        · rw [FreshNames.allocate, FreshNames.reserve, htaken, List.append_assoc]
        · rw [List.map_append]
          exact List.rel_append hnamed (.cons ⟨FreshNames.choose_eq _ _, rfl, hwriter⟩ .nil)

/-- The layouts that records are completed to are called after different names. -/
theorem Completes.exists_names {s : Setting} {plan : Plan} {reserved : List String}
    {layouts : List Layout} (h : Completes s plan reserved layouts) (hreserved : reserved.Nodup) :
    ∃ names, (reserved ++ names).Nodup ∧ List.Forall₂ NamedBy layouts names := by
  obtain ⟨bench, rfl, names, htaken, hnodup, hnamed⟩ :=
    h.lasting (lasting_named reserved) (named_start hreserved s.defs)
  refine ⟨names, htaken ▸ hnodup,
    (List.forall₂_map_left_iff.1 hnamed).imp fun layout name hname => ?_⟩
  exact ⟨hname.base, hname.ident, hname.writer⟩

/-! ## Names that stay apart -/

/-- The words in the name of a record are plain. -/
def hasPlainName (layout : Layout) : Bool :=
  hasPlainWords layout.record.name.base

/-- The words in the name of a record are plain, and no two capitals follow each other in them. -/
def hasSimpleName (layout : Layout) : Bool :=
  hasPlainName layout && hasSingleCapitals layout.record.name.base

section NamedBy

variable {layout other : Layout} {name name' : String}

theorem NamedBy.isPlain (h : NamedBy layout name) (hplain : hasPlainName layout = true) :
    IsPlain name := by
  have hbase := isPlain_camelize hplain
  rcases h.base with rfl | ⟨number, rfl⟩
  · exact hbase
  · exact hbase.numbered number

theorem NamedBy.spaced (h : NamedBy layout name) (hsimple : hasSimpleName layout = true) :
    Spaced name.toList := by
  obtain ⟨hplain, hcapitals⟩ := (Bool.and_eq_true _ _).mp hsimple
  have hbase := spaced_camelize hplain hcapitals
  rcases h.base with rfl | ⟨number, rfl⟩
  · exact hbase
  · exact hbase.numbered (isPlain_camelize hplain) number

theorem NamedBy.ident_text (h : NamedBy layout name) (hplain : hasPlainName layout = true) :
    layout.ident.text = layout.ident.name := by
  obtain ⟨c, rest, hlist, hupper⟩ := (h.isPlain hplain).initial
  refine text_eq_name (c := c) ?_ (Text.isLower_of_isUpper hupper)
  rw [h.ident, (h.isPlain hplain).ofName_eq]
  split <;> simp [hlist]

theorem NamedBy.writer_text (h : NamedBy layout name) :
    layout.writer.text = "build_" ++ underscore name := by
  have hwriter := h.writer
  unfold Ident.withLead? at hwriter
  split at hwriter
  · rw [← Option.some.inj hwriter]
    exact text_eq_name (c := '_') (by simp) (by decide)
  · cases hwriter

/-- Records with plain names have types with different names. -/
theorem NamedBy.ident_inj (h : NamedBy layout name) (h' : NamedBy other name')
    (hplain : hasPlainName layout = true) (hplain' : hasPlainName other = true)
    (heq : layout.ident.text = other.ident.text) : name = name' := by
  rw [h.ident_text hplain, h'.ident_text hplain'] at heq
  refine (h.isPlain hplain).ofName_inj (h'.isPlain hplain') ?_
  rw [← h.ident, ← h'.ident]
  exact congrArg Ident.mk heq

/-- Records with simple names have functions with different names. -/
theorem NamedBy.writer_inj (h : NamedBy layout name) (h' : NamedBy other name')
    (hsimple : hasSimpleName layout = true) (hsimple' : hasSimpleName other = true)
    (heq : layout.writer.text = other.writer.text) : name = name' := by
  rw [h.writer_text, h'.writer_text] at heq
  have hlists := congrArg String.toList heq
  rw [String.toList_append, String.toList_append] at hlists
  have hplain := ((Bool.and_eq_true _ _).mp hsimple).1
  have hplain' := ((Bool.and_eq_true _ _).mp hsimple').1
  exact (h.isPlain hplain).underscore_inj (h'.isPlain hplain') (h.spaced hsimple)
    (h'.spaced hsimple') (String.toList_inj.1 (List.append_cancel_left hlists))

end NamedBy

/-- What tells the members of a list apart by something else that is different for all of them makes
them different. -/
theorem nodup_map_filter {R : α → β → Prop} {p : α → Bool} {f : α → γ} {xs : List α} {ys : List β}
    (hinj : ∀ {x x' y y'}, R x y → R x' y' → p x = true → p x' = true → f x = f x' → y = y')
    (h : List.Forall₂ R xs ys) (hys : ys.Nodup) : ((xs.filter p).map f).Nodup := by
  induction h with
  | nil => exact List.nodup_nil
  | @cons x y xs ys hxy hrest ih =>
    obtain ⟨hnew, hrest'⟩ := List.nodup_cons.1 hys
    rw [List.filter_cons]
    split
    · next hx =>
      rw [List.map_cons, List.nodup_cons]
      refine ⟨fun hmem => ?_, ih hrest'⟩
      obtain ⟨x', hx', heq⟩ := List.mem_map.1 hmem
      rw [List.mem_filter] at hx'
      obtain ⟨y', hy', hxy'⟩ := exists_mem_of_forall₂ hrest.flip hx'.1
      exact hnew (hinj hxy hxy' hx hx'.2 heq.symm ▸ hy')
    · exact ih hrest'

/-! ## The client's type -/

/-- The name of a client's type ends as such names do. -/
theorem service_isSuffix (name : String) :
    "Service".toList <:+ (serviceIdent name).text.toList := by
  have hname : "Service".toList <:+ (serviceIdent name).name.toList := by
    refine isSuffix_ofName (by decide) ?_ (by decide)
    rw [String.toList_append, List.map_append]
    exact List.suffix_append ..
  rwa [text_eq_name (c := 'S') (hname.mem (by decide)) (by decide)]

/-- The type of a record with a plain name is not the client's type. -/
theorem NamedBy.ident_ne {layout : Layout} {name service : String} (h : NamedBy layout name)
    (hplain : hasPlainName layout = true) (hname : name ≠ (serviceIdent service).text) :
    layout.ident.text ≠ (serviceIdent service).text := by
  rw [h.ident_text hplain, h.ident, (h.isPlain hplain).ofName_eq]
  split
  · next hforbidden =>
    intro heq
    have hmarked : ∀ word ∈ Ident.forbidden, ¬"Service".toList <:+ (word ++ "_").toList := by decide
    have hending := service_isSuffix service
    rw [← heq] at hending
    exact hmarked name (List.contains_iff_mem.1 hforbidden) hending
  · exact hname

/-! ## Items -/

section Items

variable {defs : Definitions} {plan : Plan} {layouts : List Layout} {items : List Item}

/-- What is picked from the items of each record. -/
theorem WritesRecords.filterMap_eq {f : Item → Option β} {g : Layout → β}
    (hfg : ∀ {layout index writer}, IsWriter layout writer →
      [recordItem layouts index layout, .function writer].filterMap f = [g layout])
    (h : WritesRecords layouts items) : items.filterMap f = layouts.map g := by
  obtain ⟨pairs, rfl, hpairs⟩ := h
  have hplaces : ∀ {places : List (Layout × Nat)} {pairs : List (List Item)},
      List.Forall₂ (fun place pair => ∃ writer, IsWriter place.1 writer ∧
        pair = [recordItem layouts place.2 place.1, .function writer]) places pairs →
      pairs.flatten.filterMap f = (places.map Prod.fst).map g := by
    intro places pairs hall
    induction hall with
    | nil => rfl
    | cons hpair _ ih =>
      obtain ⟨writer, hwriter, rfl⟩ := hpair
      rw [List.flatten_cons, List.filterMap_append, hfg hwriter, ih]
      rfl
  rw [hplaces hpairs, List.zipIdx_map_fst]

theorem WritesClient.recordNames (h : WritesClient defs plan layouts items) :
    items.filterMap Item.recordName? =
      (serviceIdent plan.name).text :: layouts.map fun layout => layout.ident.text := by
  obtain ⟨aliases, methods, records, rfl, -, hrecords⟩ := h
  have hclient : (clientItems plan aliases methods.flatten).filterMap Item.recordName? =
      [(serviceIdent plan.name).text] := rfl
  rw [List.filterMap_append, hclient, hrecords.filterMap_eq fun _ => rfl, List.singleton_append]

theorem WritesClient.functionNames (h : WritesClient defs plan layouts items) :
    items.filterMap Item.functionName? = layouts.map fun layout => layout.writer.text := by
  obtain ⟨aliases, methods, records, rfl, -, hrecords⟩ := h
  have hclient : (clientItems plan aliases methods.flatten).filterMap Item.functionName? = [] := rfl
  have hnames : records.filterMap Item.functionName? =
      layouts.map fun layout => layout.writer.text :=
    hrecords.filterMap_eq fun hwriter => congrArg (fun name => [name]) hwriter.name
  rw [List.filterMap_append, hclient, hnames, List.nil_append]

end Items

/-- The types and functions of a client are called after different names. Types of records with
plain names differ from each other and from the client's type; functions of records with simple
names differ from each other. -/
theorem compile_itemNames {defs : Definitions} {service : Option String} {name : QName}
    {items : List Item} (h : compile defs service name = .ok items) :
    ∃ plan layouts names, Compiled defs service name items plan layouts ∧
      items.filterMap Item.recordName? =
        (serviceIdent plan.name).text :: (layouts.map fun layout => layout.ident.text) ∧
      items.filterMap Item.functionName? = (layouts.map fun layout => layout.writer.text) ∧
      ((serviceIdent plan.name).text :: names).Nodup ∧ List.Forall₂ NamedBy layouts names ∧
      ((serviceIdent plan.name).text ::
        (layouts.filter hasPlainName).map fun layout => layout.ident.text).Nodup ∧
      ((layouts.filter hasSimpleName).map fun layout => layout.writer.text).Nodup := by
  obtain ⟨plan, layouts, hcompiled, -⟩ := exists_compiled h
  obtain ⟨names, hnodup, hnamed⟩ :=
    hcompiled.completes.exists_names (List.nodup_singleton _)
  rw [List.singleton_append] at hnodup
  obtain ⟨hservice, hnames⟩ := List.nodup_cons.1 hnodup
  refine ⟨plan, layouts, names, hcompiled, hcompiled.writes.recordNames,
    hcompiled.writes.functionNames, hnodup, hnamed, List.nodup_cons.2 ⟨fun hmem => ?_, ?_⟩, ?_⟩
  · obtain ⟨layout, hlayout, heq⟩ := List.mem_map.1 hmem
    obtain ⟨hlayout, hplain⟩ := List.mem_filter.1 hlayout
    obtain ⟨own, hown, hnamedBy⟩ := exists_mem_of_forall₂ hnamed.flip hlayout
    exact hnamedBy.ident_ne hplain (fun hown' => hservice (hown' ▸ hown)) heq
  · exact nodup_map_filter (R := NamedBy) (p := hasPlainName) NamedBy.ident_inj hnamed hnames
  · exact nodup_map_filter (R := NamedBy) (p := hasSimpleName) NamedBy.writer_inj hnamed hnames

/-- Nodes and links have types and functions of their own. -/
theorem compile_itemNames_of_linked : ∃ items plan layouts names,
    Compiled linked none (linkedName "Soap") items plan layouts ∧
      ((serviceIdent plan.name).text :: names).Nodup ∧ List.Forall₂ NamedBy layouts names ∧
      ((layouts.filter hasSimpleName).map fun layout => layout.writer.text).Nodup := by
  obtain ⟨items, hitems⟩ := exists_compile_linked
  obtain ⟨plan, layouts, names, hcompiled, -, -, hnodup, hnamed, -, hwriters⟩ :=
    compile_itemNames hitems
  exact ⟨items, plan, layouts, names, hcompiled, hnodup, hnamed, hwriters⟩

/-! ## Names in capitals -/

/-- A description of one operation, which sends two requests whose types differ in their capitals
only. -/
def capitals : Definitions :=
  { Definitions.empty with
    messages := ⟨[(linkedName "Ask", ⟨linkedName "Ask",
      [⟨"first", .type (linkedName "HTTPRequest")⟩,
        ⟨"second", .type (linkedName "HttpRequest")⟩]⟩)]⟩
    interfaces := linked.interfaces
    bindings := linked.bindings
    types := ⟨[(linkedName "HTTPRequest", .complex (linkedType "id" "Text")),
      (linkedName "HttpRequest", .complex (linkedType "id" "Text"))]⟩ }

/-- Two functions of a client can have the same name. -/
theorem not_nodup_functions : ∃ items, compile capitals none (linkedName "Soap") = .ok items ∧
    ¬(items.filterMap Item.functionName?).Nodup := by
  have hnames : (compile capitals none (linkedName "Soap")).toOption.map
      (List.filterMap Item.functionName?) = some ["build_http_request", "build_http_request"] := by
    decide +kernel
  obtain ⟨items, hitems, heq⟩ := Option.map_eq_some_iff.1 hnames
  exact ⟨items, toOption_eq_some.1 hitems, by rw [heq]; decide⟩

end SoapKit.Client
