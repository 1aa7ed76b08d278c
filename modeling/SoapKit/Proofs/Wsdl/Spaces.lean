import SoapKit.Proofs.OrderedMap
import SoapKit.Proofs.Text.Spans
import SoapKit.Proofs.Wsdl.Sites
import SoapKit.Proofs.Xml.Elements
import SoapKit.Proofs.Xml.Production

/-!
# Symbol spaces

The definitions of a description have a table for each symbol space, in which a declaration that
comes in later takes the place of an earlier one of the same name.

**Theorem (`ofSources_lists`).** The keys of a table are the names that are declared at the sites of
its space, in the order in which they are declared first; under a key is what is declared last under
it. Endpoints are what the ports serve at, in order. A document contributes what it defines alone.

The order of sites is the order of documents, then of the elements that hold declarations, then of
declarations. Within a document it is document order as long as no schema stands inside another one:
the outer schema is read to its end before the inner one, wherever that stands in it.
-/

namespace SoapKit.Wsdl

open Xml (Document Node)

/-! ## Tables -/

/-- The declarations of a space by name. -/
def Definitions.table (defs : Definitions) : (s : Space) → OrderedMap QName s.Value
  | .message => defs.messages
  | .interface => defs.interfaces
  | .binding => defs.bindings
  | .element => defs.elements
  | .type => defs.types
  | .group => defs.groups
  | .attributeGroup => defs.attributeGroups
  | .attribute => defs.attributes

namespace Definitions

theorem table_add (defs : Definitions) (declaration : Declaration) (s : Space) :
    (defs.add declaration).table s =
      (declaration.entryIn s).elim (defs.table s) fun entry =>
        (defs.table s).insert entry.1 entry.2 := by
  cases s <;> cases declaration <;> rfl

theorem endpoints_add (defs : Definitions) (declaration : Declaration) :
    (defs.add declaration).endpoints = defs.endpoints ++ declaration.endpoint?.toList := by
  cases declaration <;> simp [add, Declaration.endpoint?]

theorem table_foldl_add (declarations : List Declaration) (defs : Definitions) (s : Space) :
    (declarations.foldl add defs).table s =
      (declarations.filterMap (·.entryIn s)).foldl (fun m entry => m.insert entry.1 entry.2)
        (defs.table s) := by
  induction declarations generalizing defs with
  | nil => rfl
  | cons first rest ih =>
    rw [List.foldl_cons, ih, table_add, List.filterMap_cons]
    cases first.entryIn s <;> rfl

theorem endpoints_foldl_add (declarations : List Declaration) (defs : Definitions) :
    (declarations.foldl add defs).endpoints =
      defs.endpoints ++ declarations.filterMap Declaration.endpoint? := by
  induction declarations generalizing defs with
  | nil => simp
  | cons first rest ih =>
    rw [List.foldl_cons, ih, endpoints_add, List.filterMap_cons]
    cases first.endpoint? <;> simp

theorem start_eq (sources : List SourceDocument) :
    (∀ s, (start sources).table s = .empty) ∧ (start sources).endpoints = [] := by
  rw [start]
  cases sources.head? <;> exact ⟨fun s => by cases s <;> rfl, rfl⟩

/-- Definitions have entries in a space: each name once, in the order in which the names come first,
and under it what comes last under it. -/
structure Has (defs : Definitions) (s : Space) (entries : List (QName × s.Value)) : Prop where
  keys : (defs.table s).keys = (entries.map (·.1)).eraseDups
  get? : ∀ key, (defs.table s).get? key = (entries.reverse.find? (·.1 == key)).map (·.2)

/-- Definitions join others, one after the other: later ones go before earlier ones, and keys stand
where they come first. -/
structure Joins (defs : Definitions) (parts : List Definitions) : Prop where
  keys : ∀ s, (defs.table s).keys = (parts.flatMap fun part => (part.table s).keys).eraseDups
  get? : ∀ s key, (defs.table s).get? key = parts.reverse.findSome? fun part =>
    (part.table s).get? key
  endpoints : defs.endpoints = parts.flatMap (·.endpoints)

/-- Definitions are made of what the documents declare one after the other. -/
theorem ofSources_eq_ok {sources : List SourceDocument} {defs : Definitions} :
    ofSources sources = .ok defs ↔ ∃ all : List (List Declaration),
      List.Forall₂ (fun source own => source.declarations = .ok own) sources all ∧
        defs = all.flatten.foldl add (start sources) := by
  rw [ofSources]
  constructor
  · intro h
    obtain ⟨all, hall, h⟩ := bind_eq_ok.1 h
    cases h
    exact ⟨all, mapM_eq_ok_iff.1 hall, rfl⟩
  · rintro ⟨all, hall, rfl⟩
    exact bind_eq_ok.2 ⟨all, mapM_eq_ok_iff.2 hall, rfl⟩

theorem table_of_declarations (declarations : List Declaration) (sources : List SourceDocument)
    (s : Space) : (declarations.foldl add (start sources)).table s =
      .ofList (declarations.filterMap (·.entryIn s)) := by
  rw [table_foldl_add, (start_eq sources).1, OrderedMap.ofList]

theorem endpoints_of_declarations (declarations : List Declaration)
    (sources : List SourceDocument) : (declarations.foldl add (start sources)).endpoints =
      declarations.filterMap Declaration.endpoint? := by
  rw [endpoints_foldl_add, (start_eq sources).2, List.nil_append]

theorem has_of_declarations (declarations : List Declaration) (sources : List SourceDocument)
    (s : Space) : (declarations.foldl add (start sources)).Has s
      (declarations.filterMap (·.entryIn s)) := by
  constructor
  · rw [table_of_declarations, OrderedMap.keys_ofList]
  · intro key
    rw [table_of_declarations, OrderedMap.get?_ofList]

/-- What documents define alone. -/
theorem exists_parts {sources : List SourceDocument} {all : List (List Declaration)}
    (h : List.Forall₂ (fun source own => source.declarations = .ok own) sources all) :
    ∃ parts, List.Forall₂ (fun source part => ofSources [source] = .ok part) sources parts ∧
      (∀ s, parts.map (·.table s) = (all.map (·.filterMap (·.entryIn s))).map .ofList) ∧
        parts.map (·.endpoints) = all.map (·.filterMap Declaration.endpoint?) := by
  induction h with
  | nil => exact ⟨[], .nil, fun s => rfl, rfl⟩
  | @cons source own sources all hsource _ ih =>
    obtain ⟨parts, hparts, htables, hendpoints⟩ := ih
    have hfirst : ofSources [source] = .ok (own.foldl add (start [source])) :=
      ofSources_eq_ok.2 ⟨[own], .cons hsource .nil, by simp⟩
    refine ⟨_ :: parts, .cons hfirst hparts, fun s => ?_, ?_⟩
    · rw [List.map_cons, htables, table_of_declarations]
      rfl
    · rw [List.map_cons, hendpoints, endpoints_of_declarations]
      rfl

/-- Documents together define what they define alone. -/
theorem exists_joins {sources : List SourceDocument} {defs : Definitions}
    (h : ofSources sources = .ok defs) :
    ∃ parts, List.Forall₂ (fun source part => ofSources [source] = .ok part) sources parts ∧
      defs.Joins parts := by
  obtain ⟨all, hall, rfl⟩ := ofSources_eq_ok.1 h
  obtain ⟨parts, hparts, htables, hendpoints⟩ := exists_parts hall
  refine ⟨parts, hparts, fun s => ?_, fun s key => ?_, ?_⟩
  · rw [table_of_declarations, List.filterMap_flatten, OrderedMap.keys_ofList_flatten, ← htables,
      List.flatMap_map]
  · rw [table_of_declarations, List.filterMap_flatten, OrderedMap.get?_ofList_flatten, ← htables,
      ← List.map_reverse, List.findSome?_map]
    rfl
  · rw [endpoints_of_declarations, List.filterMap_flatten, ← hendpoints, List.flatMap_def]

end Definitions

/-! ## The order of sites -/

/-- The order of sites in a document: by what holds them, and then by where they stand. -/
def Site.Precedes (d : Document) (a b : Site) : Prop :=
  d.Precedes a.holder b.holder ∨ a.holder = b.holder ∧ d.Precedes a.node b.node

namespace SourceDocument

variable {source : SourceDocument} {forest : List Xml.Tree}

/-- A schema stands inside another one. -/
def HasNested (source : SourceDocument) : Prop :=
  ∃ outer ∈ source.schemas, ∃ inner ∈ source.schemas, source.document.HasDescendant outer inner

theorem mem_childElements_of_mem_sitesIn {s : Space} {holder : Node} {site : Site}
    (h : site ∈ source.sitesIn s holder) :
    site.holder = holder ∧ site.node ∈ source.document.childElements holder := by
  obtain ⟨n, hn, rfl⟩ := List.mem_map.1 h
  exact ⟨rfl, (List.mem_filter.1 (List.mem_filter.1 hn).1).1⟩

/-- The sites that one element holds stand in document order. -/
theorem precedes_sitesIn (s : Space) (holder : Node) :
    (source.sitesIn s holder).Pairwise fun a b => source.document.Precedes a.node b.node :=
  List.pairwise_map.2 (((Document.precedes_childElements _ _).filter _).filter _)

/-- At most one element describes services. -/
theorem pairwise_description (source : SourceDocument) (R : Node → Node → Prop) :
    source.description.Pairwise R := by
  rw [description]
  refine List.Pairwise.filter _ ?_
  cases source.top with
  | none => exact List.Pairwise.nil
  | some top => exact List.pairwise_singleton _ _

theorem precedes_holders (hd : source.document.Shows forest) (s : Space) :
    (source.holders s).Pairwise source.document.Precedes := by
  rw [holders]
  split
  · exact source.pairwise_description _
  · exact hd.precedes_elementsBelow.filter _

/-- Sites stand in the order of what holds them, and in document order where one element holds
them. -/
theorem precedes_sites (hd : source.document.Shows forest) (s : Space) :
    (source.sites s).Pairwise (Site.Precedes source.document) := by
  refine List.pairwise_flatMap.2 ⟨fun holder _ => ?_, (precedes_holders hd s).imp ?_⟩
  · refine (precedes_sitesIn s holder).imp_of_mem fun {a b} ha hb hab => .inr ⟨?_, hab⟩
    rw [(mem_childElements_of_mem_sitesIn ha).1, (mem_childElements_of_mem_sitesIn hb).1]
  · intro first second hholders a ha b hb
    refine .inl ?_
    rw [(mem_childElements_of_mem_sitesIn ha).1, (mem_childElements_of_mem_sitesIn hb).1]
    exact hholders

/-- Sites stand in document order when no schema stands inside another one. -/
theorem precedes_sites_of_not_nested (hd : source.document.Shows forest) {s : Space}
    (hflat : s.isOfServices = false → ¬ source.HasNested) :
    (source.sites s).Pairwise fun a b => source.document.Precedes a.node b.node := by
  refine List.pairwise_flatMap.2 ⟨fun holder _ => precedes_sitesIn s holder, ?_⟩
  have hholders := precedes_holders hd s
  rw [holders] at hholders ⊢
  split
  · exact source.pairwise_description _
  · next hs =>
    rw [if_neg hs] at hholders
    refine hholders.imp_of_mem fun {first second} hfirst hsecond hbefore a ha b hb => ?_
    exact hd.precedes_of_parents hbefore
      (fun hinside => hflat (by simpa using hs) ⟨first, hfirst, second, hsecond, hinside⟩)
      (mem_childElements_of_mem_sitesIn ha).2 (mem_childElements_of_mem_sitesIn hb).2

theorem mem_childElements_of_mem_portsOf {r : Reader} {service : Node} {port : Site}
    (h : port ∈ r.portsOf service) : port.node ∈ r.document.childElements service := by
  obtain ⟨n, hn, rfl⟩ := List.mem_map.1 h
  exact (List.mem_filter.1 (List.mem_filter.1 (List.mem_filter.1 hn).1).1).1

/-- The ports of all services stand in document order. -/
theorem precedes_ports (hd : source.document.Shows forest) :
    source.ports.Pairwise fun a b => source.document.Precedes a.node b.node := by
  refine List.pairwise_flatMap.2 ⟨fun top _ => ?_, source.pairwise_description _⟩
  refine List.pairwise_flatMap.2 ⟨fun service _ => ?_, ?_⟩
  · exact List.pairwise_map.2
      ((((Document.precedes_childElements _ _).filter _).filter _).filter _)
  · have hservices : ((source.document.childrenNamed top wsdlNamespace "service")).Pairwise
        source.document.Precedes := ((Document.precedes_childElements _ _).filter _).filter _
    refine hservices.imp_of_mem fun {first second} hfirst hsecond hbefore a ha b hb => ?_
    have hchild : ∀ {n}, n ∈ source.document.childrenNamed top wsdlNamespace "service" →
        source.document.HasChild top n := fun hn =>
      hd.hasChild_of_mem (List.mem_filter.1 (List.mem_filter.1 hn).1).1
    have ha' := mem_childElements_of_mem_portsOf ha
    have hb' := mem_childElements_of_mem_portsOf hb
    refine hd.precedes_of_parents hbefore (fun hinside => ?_) ha' hb'
    exact hd.not_isBelow_sibling (hchild hfirst).2.2 (hchild hsecond).2.2
      (Document.hasDescendant_iff.1 hinside).2.2

end SourceDocument

/-! ## Definitions by space -/

/-- Definitions list what documents declare, document by document. Sites stand in document order,
except where schemas stand inside one another: there all declarations of one schema come before
those of the next. -/
structure Definitions.Lists (defs : Definitions) (sources : List SourceDocument) : Prop where
  spaces : ∀ s : Space, ∃ entries : List (List (QName × s.Value)),
    List.Forall₂ (fun source own => List.Forall₂ (Site.Declares s) (source.sites s) own)
      sources entries ∧ defs.Has s entries.flatten
  endpoints : ∃ endpoints : List (List Endpoint),
    List.Forall₂ (fun source own => List.Forall₂ Site.Serves source.ports own) sources endpoints ∧
      defs.endpoints = endpoints.flatten
  parts : ∃ parts : List Definitions,
    List.Forall₂ (fun source part => Definitions.ofSources [source] = .ok part) sources parts ∧
      defs.Joins parts
  sites_order : ∀ source ∈ sources, ∀ s : Space,
    (source.sites s).Pairwise (Site.Precedes source.document) ∧
      ((s.isOfServices = false → ¬ source.HasNested) →
        (source.sites s).Pairwise fun a b => source.document.Precedes a.node b.node)
  ports_order : ∀ source ∈ sources,
    source.ports.Pairwise fun a b => source.document.Precedes a.node b.node

/-- The keys of a space are the names declared at its sites, in the order of their first
declarations; under a key is what its last declaration declares, which has that name; endpoints are
what the ports serve at; and every document contributes what it defines alone. -/
theorem ofSources_lists {sources : List SourceDocument} {defs : Definitions}
    (hsources : ∀ source ∈ sources, source.document.Produced)
    (h : Definitions.ofSources sources = .ok defs) : defs.Lists sources := by
  have hshows : ∀ source ∈ sources, ∃ forest, source.document.Shows forest := fun source hsource =>
    (hsources source hsource).shows.imp fun _ hshown => hshown.2
  obtain ⟨all, hall, hdefs⟩ := Definitions.ofSources_eq_ok.1 h
  constructor
  case spaces =>
    intro s
    refine ⟨all.map (·.filterMap (·.entryIn s)), ?_, ?_⟩
    · exact List.forall₂_map_right_iff.2
        (hall.imp fun source own hown => source.entries_declarations hown s)
    · rw [hdefs, ← List.filterMap_flatten]
      exact Definitions.has_of_declarations _ _ s
  case endpoints =>
    refine ⟨all.map (·.filterMap Declaration.endpoint?), ?_, ?_⟩
    · exact List.forall₂_map_right_iff.2
        (hall.imp fun source own hown => source.endpoints_declarations hown)
    · rw [hdefs, Definitions.endpoints_of_declarations, List.filterMap_flatten]
  case parts => exact Definitions.exists_joins h
  case sites_order =>
    intro source hsource s
    obtain ⟨forest, hd⟩ := hshows source hsource
    exact ⟨SourceDocument.precedes_sites hd s, SourceDocument.precedes_sites_of_not_nested hd⟩
  case ports_order =>
    intro source hsource
    obtain ⟨forest, hd⟩ := hshows source hsource
    exact SourceDocument.precedes_ports hd

/-! ## A service with two schemas -/

/-- A document that is read in no bindings but its own. -/
def SourceDocument.alone (d : Document) : SourceDocument :=
  ⟨fileUrl "a.xsd", d, .empty⟩

/-- A service with one port, and a schema for it. -/
def servingItems : String :=
  "<w:definitions xmlns:w=\"http://schemas.xmlsoap.org/wsdl/\" targetNamespace=\"urn:t\">" ++
    "<w:types><xs:schema xmlns:xs=\"http://www.w3.org/2001/XMLSchema\"" ++
    " targetNamespace=\"urn:t\"><xs:element name=\"item\"/></xs:schema></w:types>" ++
    "<w:binding name=\"direct\" type=\"calls\">" ++
    "<binding xmlns=\"http://schemas.xmlsoap.org/wsdl/soap/\"/></w:binding>" ++
    "<w:service name=\"shop\"><w:port name=\"door\" binding=\"direct\">" ++
    "<address xmlns=\"http://schemas.xmlsoap.org/wsdl/soap/\" location=\"http://example.com/\"/>" ++
    "</w:port></w:service></w:definitions>"

/-- A schema that declares an element of the other one again. -/
def moreItems : String :=
  "<xs:schema xmlns:xs=\"http://www.w3.org/2001/XMLSchema\" targetNamespace=\"urn:t\">" ++
    "<xs:element name=\"other\"/><xs:element name=\"item\" nillable=\"true\"/></xs:schema>"

/-- The element that is declared twice keeps its place and is the later one. -/
theorem ofSources_lists_of_two :
    ∃ first second defs, Document.read .lenient servingItems = .ok first ∧
      Document.read .lenient moreItems = .ok second ∧
      Definitions.ofSources [.alone first, .alone second] = .ok defs ∧
      defs.Lists [.alone first, .alone second] ∧
      defs.elements.keys = [⟨some "urn:t", "item"⟩, ⟨some "urn:t", "other"⟩] ∧
      (defs.elements.get? ⟨some "urn:t", "item"⟩).map (·.isNillable) = some true ∧
      defs.endpoints.map (·.name) = ["door"] := by
  have hread : ∃ serving more, servingItems.toList = serving ∧ moreItems.toList = more ∧
      serving.all Text.isBlank = false ∧ more.all Text.isBlank = false ∧
      ∃ first ∈ (Xml.Lenient.read serving).toOption, ∃ second ∈ (Xml.Lenient.read more).toOption,
      ∃ defs ∈ (Definitions.ofSources [.alone first, .alone second]).toOption,
        defs.elements.keys = [⟨some "urn:t", "item"⟩, ⟨some "urn:t", "other"⟩] ∧
        (defs.elements.get? ⟨some "urn:t", "item"⟩).map (·.isNillable) = some true ∧
        defs.endpoints.map (·.name) = ["door"] := by
    unfold servingItems moreItems
    iterate 7 rw [Text.toList_append_ofList]
    rw [String.toList_ofList, Text.toList_append_ofList, String.toList_ofList]
    exact ⟨_, _, rfl, rfl, by decide +kernel⟩
  obtain ⟨_, _, rfl, rfl, hserving, hmore, first, hfirst, second, hsecond, defs, hdefs, hkeys⟩ :=
    hread
  rw [Option.mem_def, toOption_eq_some] at hfirst hsecond hdefs
  replace hfirst := (Document.read_of_visible .lenient hserving).trans hfirst
  replace hsecond := (Document.read_of_visible .lenient hmore).trans hsecond
  have hsources : ∀ source ∈ [SourceDocument.alone first, .alone second],
      source.document.Produced := by
    simpa using ⟨.read hfirst, .read hsecond⟩
  exact ⟨first, second, defs, hfirst, hsecond, hdefs, ofSources_lists hsources hdefs, hkeys⟩

/-! ## A schema inside another one -/

/-- A schema in the documentation of another one, before what that one declares. -/
def nestedSchemas : String :=
  "<xs:schema xmlns:xs=\"http://www.w3.org/2001/XMLSchema\" targetNamespace=\"urn:t\">" ++
    "<xs:annotation><xs:appinfo><xs:schema targetNamespace=\"urn:u\">" ++
    "<xs:attribute name=\"first\"/></xs:schema></xs:appinfo></xs:annotation>" ++
    "<xs:attribute name=\"second\"/></xs:schema>"

/-- What the outer schema declares comes before what the inner one does, although it stands behind
it in the document. -/
theorem keys_of_nested :
    ∃ d defs, Document.read .lenient nestedSchemas = .ok d ∧
      Definitions.ofSources [.alone d] = .ok defs ∧
      ∃ first second, d.Precedes first second ∧
        ((SourceDocument.alone d).sites .attribute).map (fun site =>
          (site.node, d.attributeValue site.node "name")) =
            [(second, some "second"), (first, some "first")] ∧
        defs.attributes.keys = [⟨some "urn:t", "second"⟩, ⟨some "urn:u", "first"⟩] := by
  have hread : ∃ chars, nestedSchemas.toList = chars ∧ chars.all Text.isBlank = false ∧
      ∃ d ∈ (Xml.Lenient.read chars).toOption,
      ∃ defs ∈ (Definitions.ofSources [.alone d]).toOption,
        6 < d.entries.size ∧
        ((SourceDocument.alone d).sites .attribute).map (fun site =>
          (site.node, d.attributeValue site.node "name")) =
            [(Node.ofPlace 6, some "second"), (Node.ofPlace 5, some "first")] ∧
        defs.attributes.keys = [⟨some "urn:t", "second"⟩, ⟨some "urn:u", "first"⟩] := by
    unfold nestedSchemas
    iterate 3 rw [Text.toList_append_ofList]
    rw [String.toList_ofList]
    exact ⟨_, rfl, by decide +kernel⟩
  obtain ⟨_, rfl, hvisible, d, hd, defs, hdefs, hsize, hsites, hkeys⟩ := hread
  rw [Option.mem_def, toOption_eq_some] at hd hdefs
  replace hd := (Document.read_of_visible .lenient hvisible).trans hd
  obtain ⟨forest, -, hshows⟩ := (Document.Produced.read hd).shows
  have hfirst : d.HasNode (Node.ofPlace 5) :=
    ⟨Nat.lt_trans (Nat.lt_succ_self 5) hsize, fun hattr => by cases hattr⟩
  exact ⟨d, defs, hd, hdefs, _, _, hshows.precedes_ofPlace hfirst hsize (Nat.lt_succ_self 5),
    hsites, hkeys⟩

end SoapKit.Wsdl
