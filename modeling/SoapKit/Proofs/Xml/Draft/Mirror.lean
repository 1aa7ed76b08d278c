import SoapKit.Proofs.Xml.Draft.Declarations
import SoapKit.Proofs.Xml.Namespaces

/-!
# Mirrors of drafts

A node mirrors an element of a draft (`DraftElement.Mirrors`) when its tag says the same and what is
inside of it mirrors what is inside of the element. Names, attributes and text are those of the
draft. The namespaces are those in effect on the node, and for a qualifier in use they come from its
nearest alias.

The tag that is written for an element mirrors it wherever the scope of the element agrees with the
declarations outside (`Adds.mirrorsTag`), and so does a tree with this tag (`Adds.shownBy`).
-/

namespace SoapKit.Xml

open Declaration (lookup)

/-! ## Mirrors -/

/-- The namespace that the nearest alias gives a qualifier, the innermost aliases first. -/
def nearestAlias (aliases : List (OrderedMap String String)) (qualifier : String) :
    Option String :=
  aliases.findSome? (·.get? qualifier)

theorem nearestAlias_cons (own : OrderedMap String String)
    (aliases : List (OrderedMap String String)) (qualifier : String) :
    nearestAlias (own :: aliases) qualifier =
      (own.get? qualifier).or (nearestAlias aliases qualifier) := by
  rw [nearestAlias, List.findSome?_cons]
  cases own.get? qualifier <;> rfl

/-- A node is an element of a name and in a namespace. -/
def Document.IsCalled (d : Document) (n : Node) (name : Name) (uri : Option String) : Prop :=
  ∃ tag, d.tag n = some tag ∧ tag.name = name ∧ tag.uri = uri

namespace DraftElement

/-- A tag says what an element says. Its namespaces are those in effect on its node, which for the
qualifiers in use come from the nearest alias; what it declares is used and was not in effect on
the parent. -/
structure MirrorsTag (d : Document) (aliases : List (OrderedMap String String)) (e : DraftElement)
    (n : Node) (tag : Tag) : Prop where
  name : tag.name = e.name
  uri : tag.uri = d.lookupNamespace n e.name.qualifier
  attributes : tag.attributes.map (fun attr => (attr.name, attr.value)) =
    e.attributes.map fun attr => (Name.parse attr.1, attr.2)
  attributeUris : ∀ attr ∈ tag.attributes,
    attr.uri = attr.name.qualifier.bind fun qualifier => d.lookupNamespace n (some qualifier)
  unqualified : d.lookupNamespace n none = none
  used : ∀ qualifier, e.Uses qualifier → ∃ uri,
    nearestAlias aliases qualifier = some uri ∧ d.lookupNamespace n (some qualifier) = some uri
  declared : ∀ declaration ∈ tag.declarations, ∃ qualifier, e.Uses qualifier ∧
    declaration = ⟨some qualifier, (nearestAlias aliases qualifier).getD ""⟩
  needed : ∀ declaration ∈ tag.declarations, ∀ parent, d.parent? n = some parent →
    d.lookupNamespace parent declaration.qualifier ≠ some declaration.uri
  once : (tag.declarations.map (·.qualifier)).Nodup

/-- The text of an element, unless it is blank. -/
def shownText (value : Option DraftText) : Option String :=
  value.bind fun v => if Text.isAllBlank v.text then none else some v.text

mutual

/-- A node shows an element of a draft and everything inside of it: its only child is the text of
the element where there is one to be shown, and otherwise it has one child for each child element
and no other. `aliases` are those around the element. -/
def Mirrors (d : Document) (aliases : List (OrderedMap String String)) :
    DraftElement → Node → Prop
  | mk name own attributes declared children value, n =>
    (∃ tag, d.tag n = some tag ∧
      MirrorsTag d (own :: aliases) (mk name own attributes declared children value) n tag) ∧
    (match shownText value with
      | some text => ∃ only, d.children n = [only] ∧ d.ownText only = some text
      | none => d.children n = d.childElements n) ∧
    MirrorsAll d (own :: aliases) children (d.childElements n)

/-- Nodes show elements one by one. -/
def MirrorsAll (d : Document) (aliases : List (OrderedMap String String)) :
    List DraftElement → List Node → Prop
  | [], nodes => nodes = []
  | e :: rest, nodes => ∃ n more, nodes = n :: more ∧ e.Mirrors d aliases n ∧
    MirrorsAll d aliases rest more

end

theorem mirrorsAll_iff {d : Document} {aliases : List (OrderedMap String String)}
    {elements : List DraftElement} {nodes : List Node} :
    MirrorsAll d aliases elements nodes ↔
      List.Forall₂ (fun e n => e.Mirrors d aliases n) elements nodes := by
  induction elements generalizing nodes with
  | nil => simp [MirrorsAll]
  | cons e rest ih =>
    rw [List.forall₂_cons_left_iff, MirrorsAll]
    constructor
    · rintro ⟨n, more, rfl, hn, hmore⟩
      exact ⟨n, more, hn, ih.1 hmore, rfl⟩
    · rintro ⟨n, more, hn, hmore, rfl⟩
      exact ⟨n, more, rfl, hn, ih.2 hmore⟩

namespace Mirrors

variable {d : Document} {aliases : List (OrderedMap String String)} {e : DraftElement} {n : Node}

/-- The namespace of a mirror is that of the nearest alias. -/
theorem exists_isCalled (h : e.Mirrors d aliases n) : ∃ uri, d.IsCalled n e.name uri ∧
    Option.Rel (fun qualifier uri => nearestAlias (e.aliases :: aliases) qualifier = some uri)
      e.name.qualifier uri := by
  obtain ⟨name, own, attributes, declared, children, value⟩ := e
  obtain ⟨⟨tag, htag, hmirrors⟩, -⟩ := h
  refine ⟨tag.uri, ⟨tag, htag, hmirrors.name, rfl⟩, ?_⟩
  rw [hmirrors.uri]
  show Option.Rel _ name.qualifier (d.lookupNamespace n name.qualifier)
  cases hqualifier : name.qualifier with
  | none =>
    rw [hmirrors.unqualified]
    exact .none
  | some qualifier =>
    obtain ⟨uri, halias, hlookup⟩ := hmirrors.used qualifier (.inl hqualifier)
    rw [hlookup]
    exact .some halias

/-- The mirror of an element without a text has the mirrors of its child elements as children. -/
theorem forall₂_children (h : e.Mirrors d aliases n) (hvalue : e.value = none) :
    List.Forall₂ (fun child n => child.Mirrors d (e.aliases :: aliases) n)
      e.children (d.children n) := by
  obtain ⟨name, own, attributes, declared, children, value⟩ := e
  obtain rfl : value = none := hvalue
  obtain ⟨-, hchildren, hall⟩ := h
  have hchildren : d.children n = d.childElements n := hchildren
  rw [hchildren]
  exact mirrorsAll_iff.1 hall

theorem attributesOf_eq_nil (h : e.Mirrors d aliases n) (hattributes : e.attributes = []) :
    d.attributesOf n = [] := by
  obtain ⟨name, own, attributes, declared, children, value⟩ := e
  obtain rfl : attributes = [] := hattributes
  obtain ⟨⟨tag, htag, hmirrors⟩, -⟩ := h
  have hnone : tag.attributes = [] := List.map_eq_nil_iff.1 hmirrors.attributes
  rw [Document.attributesOf, htag]
  show (List.range tag.attributes.length).map _ = []
  rw [hnone]
  rfl

end Mirrors

/-! ## The tag of an element -/

/-- The tag that is written for an element, with the namespaces that qualifiers have once the
declarations `own` are added to those outside. -/
def tagAmong (e : DraftElement) (own outside : List Declaration) : Tag where
  name := e.name
  uri := e.name.qualifier.bind fun qualifier => lookup (own ++ outside) (some qualifier)
  attributes := e.attributes.map fun attr =>
    ⟨Name.parse attr.1,
      (Name.parse attr.1).qualifier.bind fun qualifier => lookup (own ++ outside) (some qualifier),
      attr.2⟩
  declarations := own

theorem writtenAttributes_tagAmong (e : DraftElement) (added : List (String × String))
    (outside : List Declaration) :
    Document.writtenAttributes (declarationsOf added) (e.tagAmong (declarationsOf added) outside) =
      added.map (fun entry => (declarationKey entry.1, entry.2)) ++ e.attributes := by
  have hadded : (declarationsOf added).map Declaration.written =
      added.map fun entry => (declarationKey entry.1, entry.2) := by
    rw [declarationsOf, List.map_map]
    rfl
  have hattributes : (e.tagAmong (declarationsOf added) outside).attributes.map Attribute.written =
      e.attributes := by
    rw [tagAmong, List.map_map]
    refine (List.map_congr_left fun attr _ => ?_).trans (List.map_id _)
    simp [Attribute.written]
  rw [Document.writtenAttributes, hadded, hattributes]

section Tag

variable {e : DraftElement} {scope : Scope} {declarations own : List Declaration}
  {added : List (String × String)}

theorem Adds.isSome_lookup (h : e.Adds scope added) (hagrees : scope.Agrees declarations)
    (hown : own.Perm (declarationsOf added)) {qualifier : String} (huses : e.Uses qualifier) :
    (lookup (own ++ declarations) (some qualifier)).isSome := by
  rw [h.lookup_used hagrees hown huses]
  exact h.aliased qualifier huses

/-- The tag stands for itself inside of the declarations that a scope agrees with. -/
theorem Adds.reads (h : e.Adds scope added) (he : e.WellFormed)
    (hagrees : scope.Agrees declarations) :
    (e.tagAmong (declarationsOf added) declarations).Reads declarations where
  parses := by
    cases he with
    | mk hname => exact hname.parse_text
  uri := by
    show e.name.qualifier.bind _ = lookup _ e.name.qualifier
    cases e.name.qualifier with
    | none => exact (h.agrees_within hagrees he (List.Perm.refl _)).default.symm
    | some qualifier => rfl
  bound := by
    show e.name.qualifier.isSome → (e.name.qualifier.bind _).isSome
    intro hqualified
    obtain ⟨qualifier, hqualifier⟩ := Option.isSome_iff_exists.1 hqualified
    rw [hqualifier]
    exact h.isSome_lookup hagrees (List.Perm.refl _) (.inl hqualifier)
  attributes := by
    intro attr hattr
    obtain ⟨written, hwritten, rfl⟩ := List.mem_map.1 hattr
    exact {
      uri := rfl
      bound := by
        intro hqualified
        obtain ⟨qualifier, hqualifier⟩ := Option.isSome_iff_exists.1 hqualified
        show ((Name.parse written.1).qualifier.bind _).isSome
        rw [show (Name.parse written.1).qualifier = some qualifier from hqualifier]
        by_cases hxml : qualifier = "xml"
        · subst hxml
          rfl
        · exact h.isSome_lookup hagrees (List.Perm.refl _)
            (.inr (.inr ⟨hxml, written, hwritten, hqualifier⟩))
      parses := by rw [Name.text_parse]
      plain := by
        rw [Name.text_parse]
        cases he with
        | mk _ _ hattributes => exact (hattributes written hwritten).2 }
  keys := by
    have hkeys : (e.tagAmong (declarationsOf added) declarations).attributes.map (·.name.text) =
        e.attributes.map (·.1) := by
      rw [tagAmong, List.map_map]
      exact List.map_congr_left fun attr _ => Name.text_parse attr.1
    rw [hkeys]
    cases he with
    | mk _ _ _ hnodup => exact hnodup
  qualifiers := nodup_declarationsOf h.nodup

/-- At a node with this tag, whatever the order of its declarations, the scope says what the
namespaces are. -/
theorem Adds.mirrorsTag (h : e.Adds scope added) (he : e.WellFormed)
    (hagrees : scope.Agrees declarations) {d : Document} {n parent : Node}
    (hparent : d.parent? n = some parent) (houtside : d.reachingDeclarations parent = declarations)
    (hown : own.Perm (declarationsOf added))
    (hinside : d.reachingDeclarations n = own ++ declarations) :
    MirrorsTag d scope.aliases e n
      { e.tagAmong (declarationsOf added) declarations with declarations := own } := by
  have hreads := (h.reads he hagrees).perm hown
  have hlookup (qualifier : Option String) :
      d.lookupNamespace n qualifier = lookup (own ++ declarations) qualifier := by
    rw [Document.lookupNamespace_eq, hinside]
  exact {
    name := rfl
    uri := hreads.uri.trans (hlookup _).symm
    attributes := by
      rw [tagAmong, List.map_map]
      rfl
    attributeUris := fun attr hattr => by
      rw [(hreads.attributes attr hattr).uri]
      simp only [hlookup]
    unqualified := by
      rw [hlookup]
      exact (h.agrees_within hagrees he hown).default
    used := fun qualifier huses => by
      obtain ⟨uri, huri⟩ := Option.isSome_iff_exists.1 (h.aliased qualifier huses)
      exact ⟨uri, huri, by rw [hlookup, h.lookup_used hagrees hown huses, huri]⟩
    declared := fun declaration hmem => by
      obtain ⟨qualifier, hqualifier, hadded⟩ := mem_declarationsOf.1 (hown.mem_iff.1 hmem)
      obtain ⟨huses, huri, -⟩ := (h.mem _ _).1 hadded
      refine ⟨qualifier, huses, ?_⟩
      rw [show nearestAlias scope.aliases qualifier = some declaration.uri from huri, ← hqualifier]
      rfl
    needed := fun declaration hmem above habove => by
      obtain ⟨qualifier, hqualifier, hadded⟩ := mem_declarationsOf.1 (hown.mem_iff.1 hmem)
      rw [hparent] at habove
      cases habove
      rw [Document.lookupNamespace_eq, houtside, hqualifier]
      exact h.lookup_ne hagrees hadded
    once := hreads.qualifiers }

end Tag

/-! ## The node of an element -/

/-- A tree shows an element: wherever a document holds the tree, below a node that the declarations
outside reach, the node there mirrors the element. -/
def ShownBy (aliases : List (OrderedMap String String)) (outside : List Declaration)
    (e : DraftElement) (t : Tree) : Prop :=
  ∀ (d : Document) (forest : List Tree) (parent place : Nat), d.Shows forest →
    d.Holds parent place t → d.reachingDeclarations (Node.ofPlace parent) = outside →
      e.Mirrors d aliases (Node.ofPlace place)

/-- Trees that are no character data show elements one by one. -/
structure ShownByAll (aliases : List (OrderedMap String String)) (outside : List Declaration)
    (elements : List DraftElement) (trees : List Tree) : Prop where
  notText : ∀ t ∈ trees, t.isText = false
  shown : List.Forall₂ (ShownBy aliases outside) elements trees

theorem shownByAll_nil {aliases : List (OrderedMap String String)} {outside : List Declaration} :
    ShownByAll aliases outside [] [] where
  notText := by simp
  shown := .nil

open SoapKit.Xml.Tree (places)

variable {d : Document} {forest : List Tree}

theorem isElement_of_holdsAll {parent place : Nat} {trees : List Tree}
    (h : d.HoldsAll parent place trees) (htrees : ∀ t ∈ trees, t.isText = false) :
    ∀ n ∈ (places place trees).map Node.ofPlace, d.isElement n = true := by
  induction trees generalizing place with
  | nil => simp [places]
  | cons t rest ih =>
    rw [List.forall_mem_cons] at htrees
    rw [places, List.map_cons, List.forall_mem_cons]
    refine ⟨?_, ih h.tail htrees.2⟩
    cases t with
    | text data => cases htrees.1
    | element tag children =>
      have htag : d.tag (Node.ofPlace place) = some tag := h.head.tagAt_element
      rw [Document.isElement, htag]
      rfl

theorem ShownByAll.mirrors {aliases : List (OrderedMap String String)}
    {outside : List Declaration} {elements : List DraftElement} {trees : List Tree}
    (h : ShownByAll aliases outside elements trees) (hd : d.Shows forest) {parent place : Nat}
    (hholds : d.HoldsAll parent place trees)
    (houtside : d.reachingDeclarations (Node.ofPlace parent) = outside) :
    MirrorsAll d aliases elements ((places place trees).map Node.ofPlace) := by
  obtain ⟨-, h⟩ := h
  induction h generalizing place with
  | nil => rfl
  | cons hfirst _ ih =>
    exact ⟨_, _, rfl, hfirst d forest parent place hd hholds.head houtside, ih hholds.tail⟩

/-- What an element has inside: its text if that is to be shown, or its child elements. -/
def ShownInside (aliases : List (OrderedMap String String)) (outside : List Declaration)
    (e : DraftElement) (trees : List Tree) : Prop :=
  match shownText e.value with
  | some text => e.children = [] ∧ trees = [.text text]
  | none => ShownByAll aliases outside e.children trees

theorem Adds.shownBy {e : DraftElement} {scope : Scope} {declarations : List Declaration}
    {added : List (String × String)} (h : e.Adds (scope.enter e) added) (he : e.WellFormed)
    (hagrees : (scope.enter e).Agrees declarations) {tag : Tag} {trees : List Tree}
    (htag : (e.tagAmong (declarationsOf added) declarations).sorted = tag)
    (htrees : e.ShownInside (scope.enter e).aliases (tag.declarations ++ declarations) trees) :
    e.ShownBy scope.aliases declarations (.element tag trees) := by
  intro d forest parent place hd hholds houtside
  have hinside := hholds.reachingDeclarations hd
  rw [houtside] at hinside
  have hparent : d.parent? (Node.ofPlace place) = some (Node.ofPlace parent) := by
    show (d.entry place).parent.map Node.ofPlace = _
    rw [hholds.parent]
    rfl
  have hown : tag.declarations.Perm (declarationsOf added) := htag ▸ List.mergeSort_perm _ _
  have hmirrors := h.mirrorsTag he hagrees hparent houtside hown hinside
  rw [show ({ e.tagAmong (declarationsOf added) declarations with
    declarations := tag.declarations } : Tag) = tag by subst htag; rfl] at hmirrors
  obtain ⟨name, own, attributes, declared, children, value⟩ := e
  refine ⟨⟨tag, hholds.tagAt_element, hmirrors⟩, ?_⟩
  rw [Document.childElements, hholds.children_eq]
  have htrees : match shownText value with
    | some text => children = [] ∧ trees = [.text text]
    | none => ShownByAll (own :: scope.aliases) (tag.declarations ++ declarations) children trees :=
    htrees
  cases htext : shownText value with
  | some text =>
    rw [htext] at htrees
    obtain ⟨rfl, rfl⟩ := htrees
    have hentry := hholds.children.head.entry_text
    have helement : d.isElement (Node.ofPlace (place + 1)) = false := by
      show (d.tagAt (place + 1)).isSome = false
      rw [Document.tagAt, hentry]
      rfl
    refine ⟨⟨Node.ofPlace (place + 1), rfl, ?_⟩, ?_⟩
    · show Document.ownText d (Node.ofPlace (place + 1)) = some text
      rw [Document.ownText, show (Node.ofPlace (place + 1)).place = place + 1 from rfl, hentry]
    · simp [places, helement, MirrorsAll]
  | none =>
    rw [htext] at htrees
    have hfilter := List.filter_eq_self.2 (isElement_of_holdsAll hholds.children htrees.notText)
    rw [hfilter]
    exact ⟨rfl, htrees.mirrors hd hholds.children hinside⟩

end DraftElement

end SoapKit.Xml
