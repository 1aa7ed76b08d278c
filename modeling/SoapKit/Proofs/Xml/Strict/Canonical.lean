import SoapKit.Proofs.Xml.Strict.Events

/-!
# Canonical tags

The strict reader does not keep the qualifiers that it reads. It puts the first one in scope that
stands for the same namespace, so every name says where its namespace is declared
(`Tag.IsCanonical`). The exception is an attribute in the namespace that is the default one: the
first declaration of it may have no qualifier, and then the attribute is left without one.

Entering an element opens a canonical tag, and leads to a scope that the declarations written so far
are enough for (`Knows.enter`). Declarations have to be such that a name and a URI belong together
(`Strict.Event.DeclaresProperly`).
-/

namespace SoapKit.Xml

open Declaration (lookup)
open Strict (declared?)

namespace Strict

/-! ## Declarations of a tag -/

/-- The attributes of an event. -/
def Event.attributes : Event → List (Name × String)
  | .opening _ attributes _ => attributes
  | _ => []

/-- Whether a name sets the default namespace, whatever its qualifier. -/
def setsDefault (name : Name) : Bool :=
  name.base == "xmlns" && name.qualifier != some "xmlns"

/-- A tag sets the default namespace once at most, gives no qualifier the empty URI, and leaves the
qualifier of declarations alone. -/
structure Event.DeclaresProperly (event : Event) : Prop where
  once : (event.attributes.filter fun attr => setsDefault attr.1).length ≤ 1
  bound : ∀ attr ∈ event.attributes, attr.1.qualifier = some "xmlns" →
    attr.1.base ≠ "xmlns" ∧ attr.2 ≠ ""

instance (event : Event) : Decidable event.DeclaresProperly :=
  decidable_of_iff ((event.attributes.filter fun attr => setsDefault attr.1).length ≤ 1 ∧
      ∀ attr ∈ event.attributes, attr.1.qualifier = some "xmlns" →
        attr.1.base ≠ "xmlns" ∧ attr.2 ≠ "")
    ⟨fun h => ⟨h.1, h.2⟩, fun h => ⟨h.once, h.bound⟩⟩

end Strict

/-- A declaration as a strict document may have it: a name and a URI that belong together. -/
structure Declaration.IsProper (declaration : Declaration) : Prop where
  part : ∀ qualifier, declaration.qualifier = some qualifier → Strict.IsNamePart qualifier
  bound : ∀ qualifier, declaration.qualifier = some qualifier → declaration.uri ≠ ""
  noXml : declaration.qualifier ≠ some "xml"
  noXmlns : declaration.qualifier ≠ some "xmlns"
  uri : declaration.uri ≠ xmlNamespace ∧ declaration.uri ≠ Strict.xmlnsNamespace
  chars : ∀ c ∈ declaration.uri.toList, Strict.isXmlChar c = true

namespace Declaration

variable {uri : String}

theorem isProper_default (huri : uri ≠ xmlNamespace ∧ uri ≠ Strict.xmlnsNamespace)
    (hchars : ∀ c ∈ uri.toList, Strict.isXmlChar c = true) : IsProper ⟨none, uri⟩ where
  part := by simp
  bound := by simp
  noXml := by simp
  noXmlns := by simp
  uri := huri
  chars := hchars

theorem isProper_qualified {qualifier : String} (hpart : Strict.IsNamePart qualifier)
    (hxml : qualifier ≠ "xml") (hxmlns : qualifier ≠ "xmlns") (hbound : uri ≠ "")
    (huri : uri ≠ xmlNamespace ∧ uri ≠ Strict.xmlnsNamespace)
    (hchars : ∀ c ∈ uri.toList, Strict.isXmlChar c = true) : IsProper ⟨some qualifier, uri⟩ where
  part := by
    rintro _ ⟨⟩
    exact hpart
  bound _ _ := hbound
  noXml := by simpa using hxml
  noXmlns := by simpa using hxmlns
  uri := huri
  chars := hchars

end Declaration

namespace Strict

/-- What a tag declares and what it does not. -/
structure Sorts (attributes : List (Name × String)) (own : List Declaration)
    (others : List (Name × String)) : Prop where
  proper : ∀ declaration ∈ own, declaration.IsProper
  nodup : (own.map (·.qualifier)).Nodup
  default : (∃ declaration ∈ own, declaration.qualifier = none) →
    ∃ attr ∈ attributes, setsDefault attr.1 = true
  mem : ∀ attr ∈ others, attr ∈ attributes
  plain : ∀ attr ∈ others, attr.1.qualifier ≠ some "xmlns" ∧ attr.1.base ≠ "xmlns"

theorem Sorts.cons {attributes : List (Name × String)} {own : List Declaration}
    {others : List (Name × String)} (h : Sorts attributes own others) (attr : Name × String) :
    Sorts (attr :: attributes) own others where
  proper := h.proper
  nodup := h.nodup
  default hown := (h.default hown).imp fun _ h => ⟨List.mem_cons_of_mem _ h.1, h.2⟩
  mem attr hattr := List.mem_cons_of_mem _ (h.mem attr hattr)
  plain := h.plain

theorem Sorts.declare {attributes : List (Name × String)} {own : List Declaration}
    {others : List (Name × String)} (h : Sorts attributes own others) {declaration : Declaration}
    (hproper : declaration.IsProper)
    (hnew : ∀ other ∈ own, other.qualifier ≠ declaration.qualifier)
    (hdefault : declaration.qualifier = none → ∃ attr ∈ attributes, setsDefault attr.1 = true) :
    Sorts attributes (declaration :: own) others where
  proper := List.forall_mem_cons.2 ⟨hproper, h.proper⟩
  nodup := by
    rw [List.map_cons, List.nodup_cons]
    refine ⟨fun hin => ?_, h.nodup⟩
    obtain ⟨other, hother, heq⟩ := List.mem_map.1 hin
    exact hnew other hother heq
  default := by
    rintro ⟨other, hother, hnone⟩
    rcases List.mem_cons.1 hother with rfl | hother
    · exact hdefault hnone
    · exact h.default ⟨other, hother, hnone⟩
  mem := h.mem
  plain := h.plain

/-- The attributes of a tag are sorted from behind: a declaration is new among those behind it, and
where the default namespace is set once it was not set there. -/
theorem splitAttributes_sorts {attributes : List (Name × String)}
    (hstrict : ∀ attr ∈ attributes, attr.1.IsStrict ∧ ∀ c ∈ attr.2.toList, isXmlChar c = true)
    (honce : (attributes.filter fun attr => setsDefault attr.1).length ≤ 1)
    (hbound : ∀ attr ∈ attributes, attr.1.qualifier = some "xmlns" →
      attr.1.base ≠ "xmlns" ∧ attr.2 ≠ "")
    {own : List Declaration} {others : List (Name × String)}
    (h : splitAttributes attributes = some (own, others)) : Sorts attributes own others := by
  induction attributes generalizing own others with
  | nil =>
    cases h
    exact ⟨by simp, List.nodup_nil, by simp, by simp, by simp⟩
  | cons attr rest ih =>
    rw [List.forall_mem_cons] at hstrict hbound
    obtain ⟨name, value⟩ := attr
    obtain ⟨⟨own', others'⟩, hrest, h⟩ := Option.bind_eq_some_iff.1 h
    have hsorts : Sorts rest own' others' :=
      ih hstrict.2 ((List.sublist_cons_self _ _).filter _ |>.length_le.trans honce) hbound.2 hrest
    simp only at h
    by_cases hxmlns : name.qualifier = some "xmlns"
    · obtain ⟨hbase, hvalue⟩ := hbound.1 hxmlns
      simp only [hxmlns, if_true] at h
      split at h
      · cases h
      · rename_i hallowed
        simp only [not_or, bne_iff_ne, ne_eq, Decidable.not_not, List.any_eq_true,
          beq_iff_eq, not_exists, not_and] at hallowed
        obtain ⟨huri, hxml, hnew⟩ := hallowed
        split at h
        · cases h
          exact hsorts.cons _
        · rename_i hne
          cases h
          have hne' : value ≠ xmlNamespace := by simpa using hne
          have hnotXml : name.base ≠ "xml" := by simpa [hne'] using hxml
          exact (hsorts.cons _).declare (Declaration.isProper_qualified hstrict.1.1.base hnotXml
            hbase hvalue ⟨hne', huri⟩ hstrict.1.2) hnew (by simp)
    · simp only [hxmlns, if_false] at h
      by_cases hbase : name.base = "xmlns"
      · have hsets : setsDefault name = true := by simp [setsDefault, hbase, hxmlns]
        simp only [hbase, if_true] at h
        split at h
        · cases h
        · rename_i hallowed
          rw [not_or] at hallowed
          cases h
          refine (hsorts.cons _).declare (Declaration.isProper_default hallowed hstrict.1.2)
            (fun other hother heq => ?_) fun _ => ⟨_, List.mem_cons_self, hsets⟩
          -- the default namespace is not set once more behind this attribute
          obtain ⟨attr, hattr, hagain⟩ := hsorts.default ⟨other, hother, heq⟩
          rw [List.filter_cons, if_pos (show setsDefault (name, value).1 = true from hsets),
            List.length_cons] at honce
          have hmem : attr ∈ rest.filter fun attr => setsDefault attr.1 :=
            List.mem_filter.2 ⟨hattr, hagain⟩
          have hpos := List.length_pos_of_mem hmem
          omega
      · simp only [hbase, if_false] at h
        cases h
        exact {
          hsorts.cons _ with
          mem := List.forall_mem_cons.2 ⟨List.mem_cons_self, (hsorts.cons _).mem⟩
          plain := List.forall_mem_cons.2 ⟨⟨hxmlns, hbase⟩, hsorts.plain⟩ }

end Strict

/-! ## Canonical tags -/

/-- An attribute as the strict reader makes it. Its qualifier says where its namespace is declared,
unless it was left without one. -/
structure Attribute.IsCanonical (scope : List Declaration) (attr : Attribute) : Prop where
  name : attr.name.IsStrict
  plain : attr.name.qualifier ≠ some "xmlns" ∧ attr.name.base ≠ "xmlns"
  chars : ∀ c ∈ attr.value.toList, Strict.isXmlChar c = true
  resolved : (attr.uri.isSome → attr.name.qualifier.isSome) → attr.Resolved scope

/-- A tag as the strict reader makes it, inside of a scope. -/
structure Tag.IsCanonical (scope : List Declaration) (tag : Tag) : Prop where
  name : tag.name.IsStrict
  plain : tag.name.qualifier ≠ some "xml" ∧ tag.name.qualifier ≠ some "xmlns"
  uri : tag.uri = lookup (tag.declarations ++ scope) tag.name.qualifier
  bound : tag.name.qualifier.isSome → tag.uri.isSome
  attributes : ∀ attr ∈ tag.attributes, attr.IsCanonical (tag.declarations ++ scope)
  distinct : (tag.attributes.map fun attr => (attr.name.base, attr.uri)).Nodup
  declarations : ∀ declaration ∈ tag.declarations, declaration.IsProper
  qualifiers : (tag.declarations.map (·.qualifier)).Nodup
  sorted : tag.sorted = tag

/-- What the strict reader has in scope, and declarations written on the open elements that are
enough to find it again. -/
structure Knows (known written : List Declaration) : Prop where
  proper : ∀ declaration ∈ known, declaration.IsProper
  nodup : (known.map (·.qualifier)).Nodup
  enough : ∀ qualifier, declared? written qualifier = declared? known qualifier

theorem knows_nil : Knows [] [] where
  proper := by simp
  nodup := List.nodup_nil
  enough _ := rfl

theorem meantBy_eq_some {uri : String} (h : uri ≠ "") : meantBy (some uri) = some uri := by
  simp [meantBy, h]

theorem canonicalName_of_meantBy_eq_none {uri : Option String} (h : meantBy uri = none)
    (scope : List Declaration) (base : String) :
    Strict.canonicalName scope base uri = (⟨none, base⟩, none) := by
  cases uri with
  | none => rfl
  | some uri =>
    have hempty : uri.isEmpty = true := by
      by_contra hne
      rw [meantBy_eq_some (by simpa using hne)] at h
      cases h
    rw [Strict.canonicalName, if_pos hempty]

namespace Knows

variable {known written : List Declaration}

theorem lookup_eq (h : Knows known written) (qualifier : Option String) :
    lookup written qualifier = lookup known qualifier := by
  by_cases hxml : qualifier = some "xml"
  · rw [lookup, lookup, if_pos hxml, if_pos hxml]
  · rw [Xml.lookup_eq hxml, Xml.lookup_eq hxml, h.enough]

/-- Inside of an element its own declarations are known as well. -/
theorem within (h : Knows known written) {own added : List Declaration}
    (hown : ∀ declaration ∈ own, declaration.IsProper) (hnodup : (own.map (·.qualifier)).Nodup)
    (hadded : added.Perm ((Strict.scopeWithin own known).filter fun declaration =>
      declaration.qualifier != some "xml" && !known.contains declaration)) :
    Knows (Strict.scopeWithin own known) (added ++ written) where
  proper declaration hmem :=
    (mem_scopeWithin.1 hmem).elim (hown declaration) fun hmem => h.proper declaration hmem.1
  nodup := nodup_scopeWithin hnodup h.nodup
  enough qualifier := by
    have hwithin := nodup_scopeWithin hnodup h.nodup
    rw [declared?_append, declared?_perm hadded (hwithin.sublist (List.filter_sublist.map _)),
      ← declared?_append]
    exact declared?_added hnodup (fun declaration hmem => (hown declaration hmem).noXml) h.nodup
      h.enough qualifier

/-- A namespace that is declared has a canonical qualifier, and that qualifier stands for it. -/
theorem canonicalName (h : Knows known written) (base : String) {uri : String} (hne : uri ≠ "")
    (hin : uri = xmlNamespace ∨ ∃ declaration ∈ known, declaration.uri = uri) :
    ∃ qualifier, Strict.canonicalName known base (some uri) = (⟨qualifier, base⟩, some uri) ∧
      lookup written qualifier = some uri ∧
      ∀ part, qualifier = some part →
        Strict.IsNamePart part ∧ part ≠ "xmlns" ∧ (part = "xml" → uri = xmlNamespace) := by
  have hname : Strict.canonicalName known base (some uri) =
      (⟨Strict.canonicalQualifier known uri, base⟩, some uri) := by
    rw [Strict.canonicalName, if_neg (by simpa using hne)]
  refine ⟨_, hname, ?_⟩
  rw [h.lookup_eq, Strict.canonicalQualifier]
  by_cases hxml : uri = xmlNamespace
  · rw [if_pos hxml]
    refine ⟨by rw [lookup, if_pos rfl, hxml], ?_⟩
    rintro _ ⟨⟩
    exact ⟨by decide, by decide, fun _ => hxml⟩
  · rw [if_neg hxml]
    have hfound : (known.find? (·.uri == uri)).isSome := by
      rw [List.find?_isSome]
      simpa using hin.resolve_left hxml
    obtain ⟨declaration, hfind⟩ := Option.isSome_iff_exists.1 hfound
    have hmem := List.mem_of_find?_eq_some hfind
    have huri : declaration.uri = uri := by simpa using List.find?_some hfind
    have hproper := h.proper declaration hmem
    rw [hfind, Option.bind_some, Xml.lookup_eq hproper.noXml,
      (declared?_eq_some_iff h.nodup).2
        (show ⟨declaration.qualifier, uri⟩ ∈ known from huri ▸ hmem),
      meantBy_eq_some hne]
    refine ⟨rfl, fun part hpart => ⟨hproper.part part hpart, ?_, ?_⟩⟩
    · rintro rfl
      exact hproper.noXmlns hpart
    · rintro rfl
      exact absurd hpart hproper.noXml

/-- A qualifier that is declared stands for a namespace. -/
theorem of_declared? (h : Knows known written) {qualifier uri : String}
    (hdeclared : declared? known (some qualifier) = some uri) :
    uri ≠ "" ∧ ∃ declaration ∈ known, declaration.uri = uri := by
  have hmem := (declared?_eq_some_iff h.nodup).1 hdeclared
  exact ⟨(h.proper _ hmem).bound qualifier rfl, _, hmem, rfl⟩

theorem attributeUri (h : Knows known written) {name : Name} {uri : Option String}
    (huri : Strict.attributeUri known name = some uri) :
    uri = none ∨ ∃ found, uri = some found ∧ found ≠ "" ∧
      (found = xmlNamespace ∨ ∃ declaration ∈ known, declaration.uri = found) := by
  unfold Strict.attributeUri at huri
  split at huri
  · cases huri
    exact .inl rfl
  · cases huri
    exact .inr ⟨_, rfl, by decide, .inl rfl⟩
  · obtain ⟨found, hfound, rfl⟩ := Option.map_eq_some_iff.1 huri
    obtain ⟨hne, hin⟩ := h.of_declared? hfound
    exact .inr ⟨found, rfl, hne, .inr hin⟩

theorem elementUri (h : Knows known written) {name : Name} {uri : Option String}
    (huri : Strict.elementUri known name = some uri) :
    meantBy uri = none ∧ lookup written none = none ∨
      ∃ found, uri = some found ∧ found ≠ "" ∧ ∃ declaration ∈ known, declaration.uri = found := by
  unfold Strict.elementUri at huri
  split at huri
  · cases huri
    have hlookup : lookup written none = meantBy (declared? known none) := by
      rw [h.lookup_eq, Xml.lookup_eq (by simp)]
    cases hdeclared : declared? known none with
    | none => exact .inl ⟨rfl, by rw [hlookup, hdeclared]; rfl⟩
    | some found =>
      by_cases hne : found = ""
      · subst hne
        exact .inl ⟨rfl, by rw [hlookup, hdeclared]; rfl⟩
      · have hmem := (declared?_eq_some_iff h.nodup).1 hdeclared
        exact .inr ⟨found, rfl, hne, _, hmem, rfl⟩
  · obtain ⟨found, hfound, rfl⟩ := Option.map_eq_some_iff.1 huri
    obtain ⟨hne, hin⟩ := h.of_declared? hfound
    exact .inr ⟨found, rfl, hne, hin⟩

/-- The name of an element under its canonical qualifier. -/
theorem elementOf (h : Knows known written) {name : Name} (hname : name.IsStrict)
    {uri : Option String} (huri : Strict.elementUri known name = some uri) :
    ∃ qualifier found, Strict.canonicalName known name.base uri = (⟨qualifier, name.base⟩, found) ∧
      (⟨qualifier, name.base⟩ : Name).IsStrict ∧ qualifier ≠ some "xml" ∧
      qualifier ≠ some "xmlns" ∧ found = lookup written qualifier ∧
      (qualifier.isSome → found.isSome) := by
  rcases h.elementUri huri with ⟨hnone, hlookup⟩ | ⟨found, rfl, hne, declaration, hmem, hfound⟩
  · exact ⟨none, none, canonicalName_of_meantBy_eq_none hnone known name.base,
      ⟨by simp, hname.base⟩, by simp, by simp, hlookup.symm, by simp⟩
  · obtain ⟨qualifier, hcanonical, hlookup, hpart⟩ :=
      h.canonicalName name.base hne (.inr ⟨declaration, hmem, hfound⟩)
    refine ⟨qualifier, some found, hcanonical, ⟨fun part hq => (hpart part hq).1, hname.base⟩, ?_,
      ?_, hlookup.symm, fun _ => rfl⟩
    · intro hxml
      exact (h.proper declaration hmem).uri.1 (hfound.trans ((hpart "xml" hxml).2.2 rfl))
    · intro hxmlns
      exact (hpart "xmlns" hxmlns).2.1 rfl

/-- An attribute under its canonical qualifier. -/
theorem attributeOf (h : Knows known written) {name : Name} {value : String} (hname : name.IsStrict)
    (hplain : name.base ≠ "xmlns") (hchars : ∀ c ∈ value.toList, Strict.isXmlChar c = true)
    {uri : Option String} (huri : Strict.attributeUri known name = some uri) :
    (⟨(Strict.canonicalName known name.base uri).1, uri, value⟩ : Attribute).IsCanonical written ∧
      (Strict.canonicalName known name.base uri).2 = uri := by
  rcases h.attributeUri huri with rfl | ⟨found, rfl, hne, hin⟩
  · refine ⟨⟨⟨by simp [Strict.canonicalName], hname.base⟩, ⟨by simp [Strict.canonicalName], hplain⟩,
      hchars, fun _ => ⟨rfl, by simp [Strict.canonicalName]⟩⟩, rfl⟩
  · obtain ⟨qualifier, hcanonical, hlookup, hpart⟩ := h.canonicalName name.base hne hin
    rw [hcanonical]
    refine ⟨⟨⟨fun part hq => (hpart part hq).1, hname.base⟩, ⟨fun hxmlns => ?_, hplain⟩, hchars,
      fun hqualified => ?_⟩, rfl⟩
    · exact (hpart "xmlns" hxmlns).2.1 rfl
    · obtain ⟨part, rfl⟩ := Option.isSome_iff_exists.1 (hqualified rfl)
      exact ⟨hlookup.symm, fun _ => rfl⟩

end Knows

/-- Entering an element opens a canonical tag, and its declarations are enough to find again what is
in scope. -/
theorem Knows.enter {known known' written : List Declaration} (h : Knows known written)
    {name : Name} {attributes : List (Name × String)} {empty : Bool} {tag : Tag}
    (hstrict : (Strict.Event.opening name attributes empty).IsStrict)
    (hproper : (Strict.Event.opening name attributes empty).DeclaresProperly)
    (hresolve : Strict.resolveTag known name attributes = some (tag, known')) :
    Knows known' (tag.sorted.declarations ++ written) ∧ tag.sorted.IsCanonical written := by
  obtain ⟨own, others, uris, uri, hsplit, rfl, huris, huri, -, hdistinct, rfl⟩ :=
    resolveTag_eq_some_iff.1 hresolve
  have hsorts := Strict.splitAttributes_sorts hstrict.2 hproper.once hproper.bound hsplit
  have hadded := List.mergeSort_perm ((Strict.scopeWithin own known).filter fun declaration =>
    declaration.qualifier != some "xml" && !known.contains declaration) Declaration.le
  have hknows := h.within hsorts.proper hsorts.nodup hadded
  refine ⟨hknows, ?_⟩
  have hmem : ∀ resolved ∈ others.zip uris,
      resolved.1 ∈ others ∧
        Strict.attributeUri (Strict.scopeWithin own known) resolved.1.1 = some resolved.2 :=
    fun resolved hresolved => ⟨(List.of_mem_zip hresolved).1,
      (List.forall₂_iff_zip.1 huris).2 hresolved⟩
  have hattribute : ∀ resolved ∈ others.zip uris, _ := fun resolved hresolved =>
    hknows.attributeOf (hstrict.2 _ (hsorts.mem _ (hmem resolved hresolved).1)).1
      (hsorts.plain _ (hmem resolved hresolved).1).2
      (hstrict.2 _ (hsorts.mem _ (hmem resolved hresolved).1)).2 (hmem resolved hresolved).2
  obtain ⟨qualifier, found, hcanonical, hname, hxml, hxmlns, hfound, hbound⟩ :=
    hknows.elementOf hstrict.1 huri
  rw [hcanonical]
  exact {
    name := hname
    plain := ⟨hxml, hxmlns⟩
    uri := hfound
    bound := hbound
    attributes := by
      intro attr hattr
      obtain ⟨resolved, hresolved, rfl⟩ := List.mem_map.1 hattr
      simp only
      rw [(hattribute resolved hresolved).2]
      exact (hattribute resolved hresolved).1
    distinct := by
      change (List.map _ (List.map _ _)).Nodup
      rw [List.map_map, List.map_congr_left (g := fun resolved => (resolved.1.1.base, resolved.2))]
      · exact hdistinct
      · intro resolved hresolved
        simp only [Function.comp_apply]
        rw [(hattribute resolved hresolved).2, canonicalName_base]
    declarations := fun declaration hdeclaration =>
      hknows.proper declaration (List.mem_filter.1 (hadded.mem_iff.1 hdeclaration)).1
    qualifiers := (hadded.map _).nodup_iff.2 (hknows.nodup.sublist (List.filter_sublist.map _))
    sorted := Tag.sorted_eq (List.mergeSort_perm _ _) }

end SoapKit.Xml
