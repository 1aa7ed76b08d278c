import SoapKit.Proofs.Except
import SoapKit.Proofs.Xml.Layout
import SoapKit.Proofs.Xml.Tag
import SoapKit.Xml.Draft

/-!
# Declarations on the elements of a draft

Which declarations an element of a draft needs is said by its aliases and by what is in force around
it. Here this is put against what a reader makes of the declarations once they are written:
`Scope.Agrees` says that both find the same namespaces, and it is kept from an element to what is
inside of it (`Agrees.within`). On the element itself every qualifier in use then stands for the
namespace of its nearest alias (`Agrees.lookup_used`).

This holds of drafts whose names are well formed, which give no qualifier an empty namespace and
leave `xml` alone, and which do not declare anything by hand (`DraftElement.WellFormed`).
-/

namespace SoapKit.Xml

open Declaration (lookup)

/-! ## Well-formed drafts -/

/-- A name without a colon. -/
def IsNcName (s : String) : Prop :=
  IsName s ∧ ':' ∉ s.toList

instance (s : String) : Decidable (IsNcName s) :=
  decidable_of_iff (IsName s ∧ s.toList.contains ':' = false) (by
    rw [IsNcName, List.contains_eq_mem, decide_eq_false_iff_not])

/-- A name of one or two parts, none of which has a colon. -/
structure Name.WellFormed (name : Name) : Prop where
  qualifier : ∀ qualifier, name.qualifier = some qualifier → IsNcName qualifier
  base : IsNcName name.base

instance (name : Name) : Decidable name.WellFormed :=
  decidable_of_iff ((∀ qualifier ∈ name.qualifier, IsNcName qualifier) ∧ IsNcName name.base)
    ⟨fun h => ⟨h.1, h.2⟩, fun h => ⟨h.qualifier, h.base⟩⟩

namespace Name.WellFormed

variable {name : Name}

theorem parse_text (h : name.WellFormed) : Name.parse name.text = name := by
  obtain ⟨qualifier, base⟩ := name
  cases qualifier with
  | none =>
    rw [Name.parse, Name.text, Text.splitOnce_of_not_mem h.base.2]
  | some qualifier =>
    have hsplit : Text.splitOnce ':' (Name.text ⟨some qualifier, base⟩).toList =
        some (qualifier.toList, base.toList) := by
      have hcolon : (Name.text ⟨some qualifier, base⟩).toList =
          qualifier.toList ++ ':' :: base.toList := by
        simp [Name.text]
      rw [hcolon, Text.splitOnce_append _ (h.qualifier qualifier rfl).2]
    rw [Name.parse, hsplit]
    simp

theorem isName_text (h : name.WellFormed) : IsName name.text := by
  obtain ⟨qualifier, base⟩ := name
  cases qualifier with
  | none => exact h.base.1
  | some qualifier =>
    have hqualifier := (h.qualifier qualifier rfl).1
    constructor
    · intro heq
      have hlength := congrArg String.length heq
      simp [Name.text] at hlength
    · intro c hc
      have hc : c ∈ qualifier.toList ∨ c = ':' ∨ c ∈ base.toList := by
        simpa [Name.text] using hc
      rcases hc with hc | rfl | hc
      · exact hqualifier.2 c hc
      · decide +kernel
      · exact h.base.1.2 c hc

end Name.WellFormed

/-- Aliases that give qualifiers namespaces, and leave `xml` alone. -/
def IsAliases (aliases : OrderedMap String String) : Prop :=
  ∀ entry ∈ aliases.entries, entry.1 ≠ "xml" ∧ entry.2 ≠ ""

/-- An element of well-formed names without declarations or markup written by hand, in which no
attribute is given twice. -/
inductive DraftElement.WellFormed : DraftElement → Prop where
  | mk {name : Name} {aliases : OrderedMap String String} {attributes : List (String × String)}
      {declared : List String} {children : List DraftElement} {value : Option DraftText} :
      name.WellFormed → IsAliases aliases →
      (∀ attr ∈ attributes, (Name.parse attr.1).WellFormed ∧ declaredBy attr.1 = none) →
      (attributes.map (·.1)).Nodup → (∀ qualifier ∈ declared, IsNcName qualifier) →
      (∀ markup, value ≠ some (.markup markup)) → (∀ child ∈ children, WellFormed child) →
      WellFormed (mk name aliases attributes declared children value)

/-- A draft of well-formed elements and aliases. -/
structure Draft.WellFormed (draft : Draft) : Prop where
  aliases : IsAliases draft.aliases
  elements : ∀ e ∈ draft.elements, e.WellFormed

namespace DraftElement

/-- An element uses the qualifier of its name, those it declares, and those of its attributes,
apart from `xml`. -/
def Uses (e : DraftElement) (qualifier : String) : Prop :=
  e.name.qualifier = some qualifier ∨ qualifier ∈ e.declared ∨
    qualifier ≠ "xml" ∧ ∃ attr ∈ e.attributes, (Name.parse attr.1).qualifier = some qualifier

/-- An attribute with the qualifier `xmlns` is a declaration. -/
theorem ne_xmlns_of_declaredBy {key qualifier : String} (h : declaredBy key = none)
    (hkey : (Name.parse key).qualifier = some qualifier) : qualifier ≠ "xmlns" := by
  rintro rfl
  have htext := Name.text_parse key
  rw [Name.text, hkey] at htext
  simp only at htext
  have hprefix : "xmlns:".toList.isPrefixOf key.toList = true := by
    rw [← htext]
    simp
  unfold declaredBy at h
  split at h
  · cases h
  · rw [Text.after?, if_pos hprefix] at h
    cases h

theorem mem_usedQualifiers {e : DraftElement} (h : e.WellFormed) {qualifier : String} :
    qualifier ∈ e.usedQualifiers ↔ e.Uses qualifier := by
  cases h with
  | mk _ _ hattributes =>
    simp only [usedQualifiers, List.mem_eraseDups, List.mem_append, Option.mem_toList,
      attributeQualifiers, List.mem_filter, List.mem_filterMap, Bool.and_eq_true, bne_iff_ne, Uses,
      or_assoc]
    refine or_congr_right (or_congr_right ⟨?_, ?_⟩)
    · rintro ⟨⟨attr, hattr, hkey⟩, -, hxml⟩
      exact ⟨hxml, attr, hattr, hkey⟩
    · rintro ⟨hxml, attr, hattr, hkey⟩
      exact ⟨⟨attr, hattr, hkey⟩, ne_xmlns_of_declaredBy (hattributes attr hattr).2 hkey, hxml⟩

/-! ## What an element adds -/

/-- The scope with an element's own aliases. -/
def Scope.enter (scope : Scope) (e : DraftElement) : Scope :=
  { scope with aliases := e.aliases :: scope.aliases }

/-- A scope finds the namespaces that a reader finds among declarations, and has an alias for
everything in force. -/
structure Scope.Agrees (scope : Scope) (declarations : List Declaration) : Prop where
  aliases : ∀ aliases ∈ scope.aliases, IsAliases aliases
  bound : ∀ qualifier, qualifier ≠ "xml" →
    Declaration.lookup declarations (some qualifier) = scope.declared? qualifier
  default : Declaration.lookup declarations none = none
  aliased : ∀ qualifier, (scope.declared? qualifier).isSome → (scope.lookup qualifier).isSome

variable {e : DraftElement} {scope : Scope} {declarations : List Declaration}

theorem Scope.Agrees.lookup (h : scope.Agrees declarations) {qualifier uri : String}
    (hlookup : scope.lookup qualifier = some uri) : qualifier ≠ "xml" ∧ uri ≠ "" := by
  obtain ⟨aliases, haliases, hget⟩ := List.exists_of_findSome?_eq_some hlookup
  obtain ⟨entry, hentry, rfl⟩ := Option.map_eq_some_iff.1 hget
  have hkey : entry.1 = qualifier := by simpa using List.find?_some hentry
  exact hkey ▸ h.aliases aliases haliases entry (List.mem_of_find?_eq_some hentry)

theorem Scope.Agrees.enter (h : scope.Agrees declarations) (he : e.WellFormed) :
    (scope.enter e).Agrees declarations where
  aliases := by
    cases he with
    | mk _ haliases => exact List.forall_mem_cons.2 ⟨haliases, h.aliases⟩
  bound := h.bound
  default := h.default
  aliased := by
    intro qualifier hdeclared
    obtain ⟨uri, huri⟩ := Option.isSome_iff_exists.1 (h.aliased qualifier hdeclared)
    rw [Scope.lookup, Scope.enter, List.findSome?_cons]
    cases e.aliases.get? qualifier with
    | some own => rfl
    | none => exact Option.isSome_iff_exists.2 ⟨uri, huri⟩

/-- What an element adds in a scope: a declaration for each qualifier that it uses and that is not
in force with the namespace of its nearest alias. Each of them has an alias. -/
structure Adds (e : DraftElement) (scope : Scope) (added : List (String × String)) : Prop where
  nodup : (added.map (·.1)).Nodup
  mem : ∀ qualifier uri, (qualifier, uri) ∈ added ↔
    e.Uses qualifier ∧ scope.lookup qualifier = some uri ∧ scope.declared? qualifier ≠ some uri
  aliased : ∀ qualifier, e.Uses qualifier → (scope.lookup qualifier).isSome

theorem nodup_eraseDups (xs : List String) : xs.eraseDups.Nodup := by
  induction hn : xs.length using Nat.strong_induction_on generalizing xs with
  | _ n ih =>
    cases xs with
    | nil => exact List.nodup_nil
    | cons x rest =>
      rw [List.eraseDups_cons, List.nodup_cons]
      have hlength : (rest.filter fun y => !y == x).length < n := by
        have := List.length_filter_le (fun y => !y == x) rest
        rw [List.length_cons] at hn
        omega
      exact ⟨by simp, ih _ hlength _ rfl⟩

/-- The declaration for a qualifier that has an alias. -/
def Scope.addition (scope : Scope) (qualifier : String) : Option (String × String) :=
  (scope.lookup qualifier).bind fun uri =>
    if scope.declared? qualifier = some uri then none else some (qualifier, uri)

theorem Scope.addition_eq_some_iff {qualifier : String} {entry : String × String} :
    scope.addition qualifier = some entry ↔ entry.1 = qualifier ∧
      scope.lookup qualifier = some entry.2 ∧ scope.declared? qualifier ≠ some entry.2 := by
  obtain ⟨key, uri⟩ := entry
  rw [Scope.addition, Option.bind_eq_some_iff]
  constructor
  · rintro ⟨found, hfound, h⟩
    split at h
    · cases h
    · rename_i hdeclared
      cases h
      exact ⟨rfl, hfound, hdeclared⟩
  · rintro ⟨rfl, hlookup, hdeclared⟩
    exact ⟨uri, hlookup, if_neg hdeclared⟩

theorem Scope.additions_sublist (scope : Scope) (qualifiers : List String) :
    ((qualifiers.filterMap scope.addition).map (·.1)).Sublist qualifiers := by
  induction qualifiers with
  | nil => exact .slnil
  | cons qualifier rest ih =>
    rw [List.filterMap_cons]
    cases hresult : scope.addition qualifier with
    | none => exact ih.cons qualifier
    | some entry =>
      rw [List.map_cons, (addition_eq_some_iff.1 hresult).1]
      exact ih.cons_cons qualifier

theorem neededDeclaration_eq_ok (he : e.WellFormed) (hagrees : scope.Agrees declarations)
    {qualifier : String} {needed : Option (String × String)}
    (h : e.neededDeclaration scope qualifier = .ok needed) :
    (scope.lookup qualifier).isSome ∧ needed = scope.addition qualifier := by
  have hhand : e.attributes.any (·.1 == declarationKey qualifier) = false := by
    cases he with
    | mk _ _ hattributes =>
      rw [List.any_eq_false]
      intro attr hattr heq
      have hdeclared := declaredBy_written ⟨some qualifier, ""⟩
      have hnone := (hattributes attr hattr).2
      rw [show attr.1 = (⟨some qualifier, ""⟩ : Declaration).written.1 from beq_iff_eq.1 heq,
        hdeclared] at hnone
      cases hnone
  rw [neededDeclaration, hhand, if_neg Bool.false_ne_true] at h
  rw [Scope.addition]
  have haliased := hagrees.aliased qualifier
  cases hlookup : scope.lookup qualifier with
  | some uri =>
    rw [hlookup] at h
    cases h
    exact ⟨rfl, rfl⟩
  | none =>
    rw [hlookup] at h haliased
    cases hdeclared : scope.declared? qualifier with
    | some uri =>
      rw [hdeclared] at haliased
      cases haliased rfl
    | none =>
      rw [hdeclared] at h
      cases h

theorem neededDeclarations_adds (he : e.WellFormed) (hagrees : scope.Agrees declarations)
    {added : List (String × String)} (h : e.neededDeclarations scope = .ok added) :
    e.Adds scope added := by
  obtain ⟨needed, hneeded, h⟩ := bind_eq_ok.1 h
  cases h
  have hall := mapM_eq_ok_iff.1 hneeded
  have haliased : ∀ qualifier ∈ e.usedQualifiers, (scope.lookup qualifier).isSome := by
    intro qualifier hmem
    obtain ⟨result, -, hresult⟩ := exists_mem_of_forall₂ hall.flip hmem
    exact (neededDeclaration_eq_ok he hagrees hresult).1
  have hadded : needed.filterMap id = e.usedQualifiers.filterMap scope.addition := by
    have hmap := map_eq_of_forall₂ (f := scope.addition) (g := id)
      (fun hxy => (neededDeclaration_eq_ok he hagrees hxy).2) hall
    rw [List.map_id] at hmap
    rw [hmap, List.filterMap_map]
    rfl
  rw [hadded]
  refine ⟨?_, fun qualifier uri => ?_, fun qualifier huses => ?_⟩
  · have hused : e.usedQualifiers.Nodup := nodup_eraseDups _
    exact hused.sublist (scope.additions_sublist _)
  · rw [List.mem_filterMap]
    constructor
    · rintro ⟨used, hused, hresult⟩
      obtain ⟨rfl, hlookup, hdeclared⟩ := Scope.addition_eq_some_iff.1 hresult
      exact ⟨(mem_usedQualifiers he).1 hused, hlookup, hdeclared⟩
    · rintro ⟨huses, hlookup, hdeclared⟩
      exact ⟨qualifier, (mem_usedQualifiers he).2 huses,
        Scope.addition_eq_some_iff.2 ⟨rfl, hlookup, hdeclared⟩⟩
  · exact haliased qualifier ((mem_usedQualifiers he).2 huses)

/-! ## What is in force inside -/

/-- Added declarations as a reader finds them. -/
def declarationsOf (added : List (String × String)) : List Declaration :=
  added.map fun entry => ⟨some entry.1, entry.2⟩

theorem mem_declarationsOf {added : List (String × String)} {declaration : Declaration} :
    declaration ∈ declarationsOf added ↔
      ∃ qualifier, declaration.qualifier = some qualifier ∧
        (qualifier, declaration.uri) ∈ added := by
  obtain ⟨qualifier, uri⟩ := declaration
  rw [declarationsOf, List.mem_map]
  constructor
  · rintro ⟨entry, hentry, heq⟩
    cases heq
    exact ⟨entry.1, rfl, hentry⟩
  · rintro ⟨qualifier, rfl, hentry⟩
    exact ⟨(qualifier, uri), hentry, rfl⟩

variable {added : List (String × String)} {own : List Declaration}

theorem nodup_declarationsOf (h : (added.map (·.1)).Nodup) :
    ((declarationsOf added).map (·.qualifier)).Nodup := by
  have hmap : (declarationsOf added).map (·.qualifier) = (added.map (·.1)).map some := by
    rw [declarationsOf, List.map_map, List.map_map]
    rfl
  rw [hmap]
  exact h.map (Option.some_injective _)

theorem WellFormed.handWritten_eq (he : e.WellFormed) : handWritten e.attributes = [] := by
  cases he with
  | mk _ _ hattributes =>
    rw [handWritten, List.filterMap_eq_nil_iff]
    intro attr hattr
    have hnone := (hattributes attr hattr).2
    unfold declaredBy at hnone
    split at hnone
    · cases hnone
    · rw [Option.map_eq_none_iff] at hnone ⊢
      exact hnone

/-- What an element adds is in force inside of it, and what it does not add stays. -/
theorem declared?_within (scope : Scope) (he : e.WellFormed) (hnodup : (added.map (·.1)).Nodup)
    (qualifier : String) :
    (∀ uri, (qualifier, uri) ∈ added →
      (scope.within added e).declared? qualifier = some uri) ∧
    ((∀ uri, (qualifier, uri) ∉ added) →
      (scope.within added e).declared? qualifier = scope.declared? qualifier) := by
  have hdeclared : (scope.within added e).declared? qualifier =
      ((added.reverse ++ scope.inForce).find? (·.1 == qualifier)).map (·.2) := by
    rw [Scope.declared?, Scope.within, he.handWritten_eq]
    rfl
  rw [hdeclared, List.find?_append]
  refine ⟨fun uri hmem => ?_, fun hnone => ?_⟩
  · have hnodup : (added.reverse.map (·.1)).Nodup := by
      rwa [List.map_reverse, List.nodup_reverse]
    rw [(find?_eq_some_iff_of_nodup hnodup).2 ⟨List.mem_reverse.2 hmem, rfl⟩]
    rfl
  · have hfind : added.reverse.find? (·.1 == qualifier) = none := by
      rw [List.find?_eq_none]
      rintro ⟨key, uri⟩ hmem hkey
      exact hnone uri (beq_iff_eq.1 hkey ▸ List.mem_reverse.1 hmem)
    rw [hfind]
    rfl

namespace Adds

theorem uri_eq (h : e.Adds scope added) {qualifier uri uri' : String}
    (hmem : (qualifier, uri) ∈ added) (hlookup : scope.lookup qualifier = some uri') :
    uri = uri' :=
  Option.some.inj (((h.mem _ _).1 hmem).2.1.symm.trans hlookup)

/-- A declaration that is added is found by a reader. -/
theorem lookup_of_mem (h : e.Adds scope added) (hagrees : scope.Agrees declarations)
    (hown : own.Perm (declarationsOf added)) {qualifier uri : String}
    (hmem : (qualifier, uri) ∈ added) :
    lookup (own ++ declarations) (some qualifier) = some uri := by
  obtain ⟨hxml, huri⟩ := hagrees.lookup ((h.mem _ _).1 hmem).2.1
  have hdeclaration : (⟨some qualifier, uri⟩ : Declaration) ∈ declarationsOf added :=
    mem_declarationsOf.2 ⟨qualifier, rfl, hmem⟩
  have hnodup := nodup_declarationsOf h.nodup
  rw [lookup_perm hown hnodup]
  exact lookup_append_of_mem hnodup hdeclaration (by simpa using hxml) huri _

/-- Without a declaration a qualifier keeps its meaning. -/
theorem lookup_of_not_mem (hown : own.Perm (declarationsOf added)) {qualifier : String}
    (hnone : ∀ uri, (qualifier, uri) ∉ added) :
    lookup (own ++ declarations) (some qualifier) = lookup declarations (some qualifier) := by
  refine lookup_append_of_not_mem (fun declaration hmem heq => ?_) _
  obtain ⟨key, hkey, hadded⟩ := mem_declarationsOf.1 (hown.mem_iff.1 hmem)
  rw [hkey] at heq
  cases heq
  exact hnone _ hadded

/-- On an element, a qualifier in use stands for the namespace of its nearest alias. -/
theorem lookup_used (h : e.Adds scope added) (hagrees : scope.Agrees declarations)
    (hown : own.Perm (declarationsOf added)) {qualifier : String} (huses : e.Uses qualifier) :
    lookup (own ++ declarations) (some qualifier) = scope.lookup qualifier := by
  obtain ⟨uri, huri⟩ := Option.isSome_iff_exists.1 (h.aliased qualifier huses)
  rw [huri]
  by_cases hdeclared : scope.declared? qualifier = some uri
  · rw [lookup_of_not_mem hown, hagrees.bound qualifier (hagrees.lookup huri).1, hdeclared]
    intro uri' hmem
    exact ((h.mem _ _).1 hmem).2.2 (h.uri_eq hmem huri ▸ hdeclared)
  · exact h.lookup_of_mem hagrees hown ((h.mem _ _).2 ⟨huses, huri, hdeclared⟩)

/-- What was not in force before an element is not declared there again. -/
theorem lookup_ne (h : e.Adds scope added) (hagrees : scope.Agrees declarations)
    {qualifier uri : String} (hmem : (qualifier, uri) ∈ added) :
    lookup declarations (some qualifier) ≠ some uri := by
  obtain ⟨-, hlookup, hdeclared⟩ := (h.mem _ _).1 hmem
  rw [hagrees.bound qualifier (hagrees.lookup hlookup).1]
  exact hdeclared

/-- What is added keeps a scope and a reader in agreement. -/
theorem agrees_within (h : e.Adds scope added) (hagrees : scope.Agrees declarations)
    (he : e.WellFormed) (hown : own.Perm (declarationsOf added)) :
    (scope.within added e).Agrees (own ++ declarations) where
  aliases := hagrees.aliases
  bound := by
    intro qualifier hxml
    obtain ⟨hmem, hnone⟩ := declared?_within scope he h.nodup qualifier
    by_cases hadded : ∃ uri, (qualifier, uri) ∈ added
    · obtain ⟨uri, hadded⟩ := hadded
      rw [h.lookup_of_mem hagrees hown hadded, hmem uri hadded]
    · have hadded := not_exists.1 hadded
      rw [lookup_of_not_mem hown hadded, hnone hadded, hagrees.bound qualifier hxml]
  default := by
    rw [lookup_append_of_not_mem, hagrees.default]
    intro declaration hmem heq
    obtain ⟨key, hkey, -⟩ := mem_declarationsOf.1 (hown.mem_iff.1 hmem)
    rw [hkey] at heq
    cases heq
  aliased := by
    intro qualifier hdeclared
    show (scope.lookup qualifier).isSome
    obtain ⟨hmem, hnone⟩ := declared?_within scope he h.nodup qualifier
    by_cases hadded : ∃ uri, (qualifier, uri) ∈ added
    · obtain ⟨uri, hadded⟩ := hadded
      rw [((h.mem _ _).1 hadded).2.1]
      rfl
    · rw [hnone (not_exists.1 hadded)] at hdeclared
      exact hagrees.aliased qualifier hdeclared

end Adds

end DraftElement

end SoapKit.Xml
