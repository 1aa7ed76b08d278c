import SoapKit.Proofs.Xml.Agreement.Alike
import SoapKit.Proofs.Xml.Agreement.Lexing
import SoapKit.Proofs.Xml.Tag

/-!
# Scopes of two readers

The lenient reader looks a qualifier up in the declarations written on the open elements. The strict
reader keeps the declarations in scope, one for each qualifier, and writes on an element only those
that were not in scope around it. `InScope` says that both know the same, and that what the strict
reader writes is enough to find it again. Entering an element keeps this, and both readers open it
with tags that are alike (`InScope.enter`).
-/

namespace SoapKit.Xml

open Declaration (lookup ScopesAlike)
open Strict (declared?)

variable {f : String → String}

/-! ## URIs that are alike -/

/-- URIs that look the same, neither or both of which take a binding back. -/
structure UriAlike (f : String → String) (uri uri' : String) : Prop where
  same : f uri = f uri'
  empty : uri = "" ↔ uri' = ""

/-- The namespace that a declared URI stands for: an empty one stands for none. -/
def meantBy (uri : Option String) : Option String :=
  uri.bind fun uri => if uri.isEmpty then none else some uri

theorem map_meantBy_of_rel {uri uri' : Option String} (h : Option.Rel (UriAlike f) uri uri') :
    (meantBy uri).map f = (meantBy uri').map f := by
  cases h with
  | none => rfl
  | @some uri uri' h =>
    by_cases hempty : uri = ""
    · simp [meantBy, hempty, h.empty.1 hempty]
    · simp [meantBy, hempty, mt h.empty.2 hempty, h.same]

theorem rel_or {α β : Type} {R : α → β → Prop} {a c : Option α} {b d : Option β}
    (hab : Option.Rel R a b) (hcd : Option.Rel R c d) : Option.Rel R (a.or c) (b.or d) := by
  cases hab with
  | none => simpa using hcd
  | some h => exact .some h

/-! ## Looking up declarations -/

theorem lookup_eq {scope : List Declaration} {qualifier : Option String}
    (h : qualifier ≠ some "xml") :
    lookup scope qualifier = meantBy (declared? scope qualifier) := by
  rw [lookup, if_neg h, meantBy, declared?]
  cases scope.find? (·.qualifier == qualifier) <;> rfl

theorem declared?_append (own outer : List Declaration) (qualifier : Option String) :
    declared? (own ++ outer) qualifier =
      (declared? own qualifier).or (declared? outer qualifier) := by
  rw [declared?, List.find?_append, declared?, declared?]
  cases own.find? (·.qualifier == qualifier) <;> rfl

theorem declared?_eq_some_iff {scope : List Declaration} (h : (scope.map (·.qualifier)).Nodup)
    {qualifier : Option String} {uri : String} :
    declared? scope qualifier = some uri ↔ ⟨qualifier, uri⟩ ∈ scope := by
  rw [declared?, Option.map_eq_some_iff]
  constructor
  · rintro ⟨declaration, hfind, rfl⟩
    obtain ⟨hmem, rfl⟩ := (find?_eq_some_iff_of_nodup h).1 hfind
    exact hmem
  · intro hmem
    exact ⟨_, (find?_eq_some_iff_of_nodup h).2 ⟨hmem, rfl⟩, rfl⟩

theorem declared?_eq_none_iff {scope : List Declaration} {qualifier : Option String} :
    declared? scope qualifier = none ↔
      ∀ declaration ∈ scope, declaration.qualifier ≠ qualifier := by
  simp [declared?]

/-- Where every qualifier is declared once, the order of declarations does not matter. -/
theorem declared?_perm {own own' : List Declaration} (hperm : own'.Perm own)
    (hnodup : (own.map (·.qualifier)).Nodup) (qualifier : Option String) :
    declared? own' qualifier = declared? own qualifier := by
  have hnodup' : (own'.map (·.qualifier)).Nodup := (hperm.map _).nodup_iff.2 hnodup
  apply Option.ext
  intro uri
  rw [declared?_eq_some_iff hnodup, declared?_eq_some_iff hnodup', hperm.mem_iff]

theorem declared?_filter {own : List Declaration} (hnodup : (own.map (·.qualifier)).Nodup)
    {qualifier omitted : Option String} (hne : qualifier ≠ omitted) :
    declared? (own.filter (·.qualifier != omitted)) qualifier = declared? own qualifier := by
  apply Option.ext
  intro uri
  rw [declared?_eq_some_iff hnodup,
    declared?_eq_some_iff (hnodup.sublist (List.filter_sublist.map _)), List.mem_filter]
  simp [hne]

theorem mem_scopeWithin {own outer : List Declaration} {declaration : Declaration} :
    declaration ∈ Strict.scopeWithin own outer ↔ declaration ∈ own ∨ declaration ∈ outer ∧
      ∀ other ∈ own, other.qualifier ≠ declaration.qualifier := by
  simp [Strict.scopeWithin]

theorem nodup_scopeWithin {own outer : List Declaration} (hown : (own.map (·.qualifier)).Nodup)
    (houter : (outer.map (·.qualifier)).Nodup) :
    ((Strict.scopeWithin own outer).map (·.qualifier)).Nodup := by
  rw [Strict.scopeWithin, List.map_append]
  refine List.Nodup.append hown (houter.sublist (List.filter_sublist.map _)) ?_
  intro qualifier hmem hmem'
  obtain ⟨declaration, hdeclaration, rfl⟩ := List.mem_map.1 hmem
  obtain ⟨other, hother, heq⟩ := List.mem_map.1 hmem'
  have hnew := (List.mem_filter.1 hother).2
  simp only [Bool.not_eq_true', List.any_eq_false, beq_iff_eq] at hnew
  exact hnew declaration hdeclaration heq.symm

theorem declared?_scopeWithin (own outer : List Declaration) (qualifier : Option String) :
    declared? (Strict.scopeWithin own outer) qualifier =
      (declared? own qualifier).or (declared? outer qualifier) := by
  rw [Strict.scopeWithin, declared?_append]
  cases hown : declared? own qualifier with
  | some uri => rfl
  | none =>
    rw [declared?_eq_none_iff] at hown
    rw [Option.none_or, Option.none_or]
    induction outer with
    | nil => rfl
    | cons first rest ih =>
      by_cases hfirst : first.qualifier = qualifier
      · have hnew : (!own.any (·.qualifier == first.qualifier)) = true := by
          simpa [hfirst] using hown
        rw [List.filter_cons, if_pos hnew]
        simp [declared?, hfirst]
      · have hskip : ∀ more, declared? (first :: more) qualifier = declared? more qualifier := by
          intro more
          rw [declared?, List.find?_cons_of_neg (by simpa using hfirst), declared?]
        rw [hskip, ← ih, List.filter_cons]
        split
        · exact hskip _
        · rfl

/-! ## Scopes that agree -/

/-- The declarations around a place of the text for two readers: `scope` are those that the lenient
reader looks names up in, `known` those that the strict reader has in scope, and `written` those
that it puts on the open elements. -/
structure InScope (f : String → String) (scope known written : List Declaration) : Prop where
  same : ∀ qualifier, qualifier ≠ some "xml" →
    Option.Rel (UriAlike f) (declared? scope qualifier) (declared? known qualifier)
  named : ∀ declaration ∈ scope, declaration.qualifier ≠ some ""
  noXml : ∀ declaration ∈ known, declaration.qualifier ≠ some "xml"
  nodup : (known.map (·.qualifier)).Nodup
  enough : ∀ qualifier, declared? written qualifier = declared? known qualifier

theorem inScope_nil : InScope f [] [] [] where
  same _ _ := .none
  named := by simp
  noXml := by simp
  nodup := List.nodup_nil
  enough _ := rfl

theorem InScope.scopesAlike {scope known written : List Declaration}
    (h : InScope f scope known written) : ScopesAlike f scope written := by
  intro qualifier
  by_cases hxml : qualifier = some "xml"
  · rw [lookup, lookup, if_pos hxml, if_pos hxml]
  · rw [lookup_eq hxml, lookup_eq hxml, h.enough]
    exact map_meantBy_of_rel (h.same qualifier hxml)

/-! ## What is written on an element -/

/-- What the strict reader writes on an element and what is written around it is enough. -/
theorem declared?_added {own known written : List Declaration}
    (hown : (own.map (·.qualifier)).Nodup) (hxml : ∀ declaration ∈ own,
      declaration.qualifier ≠ some "xml") (hknown : (known.map (·.qualifier)).Nodup)
    (henough : ∀ qualifier, declared? written qualifier = declared? known qualifier)
    (qualifier : Option String) :
    declared? (((Strict.scopeWithin own known).filter fun declaration =>
        declaration.qualifier != some "xml" && !known.contains declaration) ++ written) qualifier =
      declared? (Strict.scopeWithin own known) qualifier := by
  have hwithin := nodup_scopeWithin hown hknown
  generalize hadded : (Strict.scopeWithin own known).filter (fun declaration =>
    declaration.qualifier != some "xml" && !known.contains declaration) = added
  have hmem : ∀ declaration, declaration ∈ added ↔ declaration ∈ own ∧ declaration ∉ known := by
    intro declaration
    rw [← hadded, List.mem_filter, mem_scopeWithin]
    constructor
    · rintro ⟨h | h, hnew⟩
      · exact ⟨h, by simpa using (Bool.and_eq_true_iff.1 hnew).2⟩
      · simp [h.1] at hnew
    · rintro ⟨h, hnew⟩
      exact ⟨.inl h, by simp [hxml declaration h, hnew]⟩
  have hnodup : (added.map (·.qualifier)).Nodup := by
    rw [← hadded]
    exact hwithin.sublist (List.filter_sublist.map _)
  rw [declared?_append, henough, declared?_scopeWithin]
  cases hfound : declared? own qualifier with
  | none =>
    have hnone : declared? added qualifier = none := by
      rw [declared?_eq_none_iff] at hfound ⊢
      exact fun declaration h => hfound declaration ((hmem declaration).1 h).1
    rw [hnone]
  | some uri =>
    rw [declared?_eq_some_iff hown] at hfound
    by_cases hin : (⟨qualifier, uri⟩ : Declaration) ∈ known
    · have hnone : declared? added qualifier = none := by
        rw [declared?_eq_none_iff]
        rintro declaration h rfl
        have hother := ((hmem declaration).1 h).1
        have heq := (declared?_eq_some_iff hown).2 hother
        rw [(declared?_eq_some_iff hown).2 hfound] at heq
        rw [Option.some.inj heq] at hin
        exact ((hmem declaration).1 h).2 hin
      rw [hnone, Option.none_or, (declared?_eq_some_iff hknown).2 hin, Option.some_or]
    · rw [(declared?_eq_some_iff hnodup).2 ((hmem _).2 ⟨hfound, hin⟩), Option.some_or]

/-! ## Names as written -/

theorem not_mem_of_isNameChar {s : List Char} (h : ∀ c ∈ s, Strict.isNameChar c = true) :
    ':' ∉ s := by
  intro hmem
  exact absurd (h ':' hmem) (by decide)

/-- What is written for a name is split into that name, unless a colon stands in front of it. -/
theorem Spells.parse_cases {key : String} {name : Name} (h : Spells key.toList name) :
    Name.parse key = name ∨ Name.parse key = ⟨some "", name.base⟩ := by
  have hbase := not_mem_of_isNameChar h.base.2
  rcases h.written with hkey | ⟨-, hkey⟩
  · refine .inl ?_
    obtain ⟨qualifier, base⟩ := name
    rw [Name.parse, hkey, Name.text]
    cases qualifier with
    | none =>
      simp only
      rw [Text.splitOnce_of_not_mem hbase]
      exact congrArg _ (String.toList_inj.1 hkey)
    | some qualifier =>
      have hqualifier := not_mem_of_isNameChar (h.qualifier qualifier rfl)
      simp only
      rw [String.toList_append, String.toList_append, List.append_assoc,
        show ":".toList ++ base.toList = ':' :: base.toList from rfl,
        Text.splitOnce_append _ hqualifier]
      simp
  · refine .inr ?_
    rw [Name.parse, hkey, Text.splitOnce]
    simp

theorem Spells.parse_eq {key : String} {name : Name} (h : Spells key.toList name)
    (hne : (Name.parse key).qualifier ≠ some "") : Name.parse key = name := by
  rcases h.parse_cases with hparse | hparse
  · exact hparse
  · rw [hparse] at hne
    exact absurd rfl hne

/-- Whether a name declares something, and what. -/
def Name.declares (name : Name) : Option (Option String) :=
  if name.qualifier = some "xmlns" then some (some name.base)
  else if name = ⟨none, "xmlns"⟩ then some none
  else none

/-- What a key declares is seen from the name that it is split into. -/
theorem declaredBy_eq (key : String) : declaredBy key = (Name.parse key).declares := by
  by_cases hkey : key = "xmlns"
  · subst hkey
    rfl
  · rw [declaredBy, if_neg hkey, Name.parse]
    have hlead : ∀ {rest : List Char}, Text.after? "xmlns:".toList key.toList = some rest →
        Text.splitOnce ':' key.toList = some ("xmlns".toList, rest) := by
      intro rest hrest
      rw [Text.eq_append_of_after? hrest]
      exact Text.splitOnce_append rest (show ':' ∉ "xmlns".toList by decide)
    cases hsplit : Text.splitOnce ':' key.toList with
    | none =>
      cases hafter : Text.after? "xmlns:".toList key.toList with
      | none => simp [Name.declares, hkey]
      | some rest =>
        rw [hlead hafter] at hsplit
        cases hsplit
    | some parts =>
      obtain ⟨before, after⟩ := parts
      obtain ⟨htext, hbefore⟩ := Text.splitOnce_eq_some hsplit
      by_cases hxmlns : before = "xmlns".toList
      · subst hxmlns
        have hafter : Text.after? "xmlns:".toList key.toList = some after := by
          rw [htext]
          rfl
        rw [hafter]
        simp [Name.declares]
      · have hafter : Text.after? "xmlns:".toList key.toList = none := by
          cases hafter : Text.after? "xmlns:".toList key.toList with
          | none => rfl
          | some rest =>
            rw [hlead hafter] at hsplit
            cases hsplit
            exact absurd rfl hxmlns
        have hne : String.ofList before ≠ "xmlns" := by
          rintro heq
          exact hxmlns (by rw [← heq, String.toList_ofList])
        rw [hafter]
        simp [Name.declares, hne]

/-! ## Attributes of two readers -/

/-- An attribute as the lenient reader takes it from a tag and as the strict one does. -/
structure TakenAlike (f : String → String) (raw : String × String) (attr : Name × String) :
    Prop where
  spells : Spells raw.1.toList attr.1
  value : UriAlike f raw.2 attr.2
  plain : attr.1.base = "xmlns" → attr.1.qualifier = none ∨ attr.1.qualifier = some "xmlns"

/-- Declarations of one qualifier whose URIs are alike. -/
structure DeclaredAlike (f : String → String) (own own' : Declaration) : Prop where
  qualifier : own.qualifier = own'.qualifier
  uri : UriAlike f own.uri own'.uri

theorem declared?_rel {own own' : List Declaration} (h : List.Forall₂ (DeclaredAlike f) own own')
    (qualifier : Option String) :
    Option.Rel (UriAlike f) (declared? own qualifier) (declared? own' qualifier) := by
  induction h with
  | nil => exact .none
  | @cons first first' rest rest' hfirst _ ih =>
    by_cases heq : first.qualifier = qualifier
    · have heq' : first'.qualifier = qualifier := hfirst.qualifier.symm.trans heq
      rw [declared?, declared?, List.find?_cons_of_pos (by simpa using heq),
        List.find?_cons_of_pos (by simpa using heq')]
      exact .some hfirst.uri
    · have heq' : first'.qualifier ≠ qualifier := fun h => heq (hfirst.qualifier.trans h)
      rw [declared?, declared?, List.find?_cons_of_neg (by simpa using heq),
        List.find?_cons_of_neg (by simpa using heq')]
      exact ih

/-- The declarations among raw attributes that say something: the namespace of `xml` is known
without one. -/
def telling (raw : List (String × String)) : List Declaration :=
  (raw.filterMap fun attr => Assembly.declaration? attr.1 attr.2).filter
    (·.qualifier != some "xml")

theorem telling_cons_of_none {attr : String × String} {rest : List (String × String)}
    (h : Assembly.declaration? attr.1 attr.2 = none) : telling (attr :: rest) = telling rest := by
  simp only [telling, List.filterMap_cons, h]

theorem telling_cons_of_some {attr : String × String} {rest : List (String × String)}
    {declaration : Declaration} (h : Assembly.declaration? attr.1 attr.2 = some declaration) :
    telling (attr :: rest) =
      if declaration.qualifier = some "xml" then telling rest else declaration :: telling rest := by
  simp only [telling, List.filterMap_cons, h, List.filter_cons]
  by_cases hxml : declaration.qualifier = some "xml"
  · rw [if_neg (by simpa using hxml), if_pos hxml]
  · rw [if_pos (by simpa using hxml), if_neg hxml]

/-- Both readers sort the attributes of a tag in the same way. -/
theorem splitAttributes_alike {raw : List (String × String)} {attributes : List (Name × String)}
    (h : List.Forall₂ (TakenAlike f) raw attributes)
    (hparse : ∀ attr ∈ raw, (Name.parse attr.1).qualifier ≠ some "")
    {own : List Declaration} {others : List (Name × String)}
    (hsplit : Strict.splitAttributes attributes = some (own, others)) :
    List.Forall₂ (DeclaredAlike f) (telling raw) own ∧
      List.Forall₂ (TakenAlike f)
        (raw.filter fun attr => (Assembly.declaration? attr.1 attr.2).isNone) others := by
  induction h generalizing own others with
  | nil =>
    cases hsplit
    exact ⟨.nil, .nil⟩
  | @cons first attr rest more hfirst _ ih =>
    rw [List.forall_mem_cons] at hparse
    have hname : Name.parse first.1 = attr.1 := hfirst.spells.parse_eq hparse.1
    have hdeclared : Assembly.declaration? first.1 first.2 =
        attr.1.declares.map fun qualifier => ⟨qualifier, first.2⟩ := by
      rw [declaration?_eq, declaredBy_eq, hname]
    obtain ⟨name, value⟩ := attr
    obtain ⟨⟨own', others'⟩, hmore, hsplit⟩ := Option.bind_eq_some_iff.1 hsplit
    obtain ⟨hown, hothers⟩ := ih hparse.2 hmore
    simp only at hsplit hdeclared
    rw [List.filter_cons]
    by_cases hxmlns : name.qualifier = some "xmlns"
    · have hdeclares : name.declares = some (some name.base) := if_pos hxmlns
      rw [hdeclares] at hdeclared
      simp only [Option.map_some] at hdeclared
      rw [telling_cons_of_some hdeclared, hdeclared]
      simp only [hxmlns, if_true] at hsplit
      split at hsplit
      · cases hsplit
      · rename_i hallowed
        simp only [not_or, bne_iff_ne, ne_eq, Decidable.not_not] at hallowed
        split at hsplit
        · rename_i hxml
          cases hsplit
          have hbase : name.base = "xml" := by simpa [hxml] using hallowed.2.1
          rw [if_pos (congrArg some hbase)]
          exact ⟨hown, hothers⟩
        · rename_i hxml
          cases hsplit
          have hbase : name.base ≠ "xml" := by simpa [hxml] using hallowed.2.1
          rw [if_neg (by simpa using hbase)]
          exact ⟨.cons ⟨rfl, hfirst.value⟩ hown, hothers⟩
    · simp only [hxmlns, if_false] at hsplit
      by_cases hdefault : name.base = "xmlns"
      · have hnone : name.qualifier = none := (hfirst.plain hdefault).resolve_right hxmlns
        have hdeclares : name.declares = some none := by
          rw [Name.declares, if_neg hxmlns, if_pos]
          rw [← hdefault, ← hnone]
        rw [hdeclares] at hdeclared
        simp only [Option.map_some] at hdeclared
        rw [telling_cons_of_some hdeclared, hdeclared, if_neg (by simp)]
        simp only [hdefault, if_true] at hsplit
        split at hsplit
        · cases hsplit
        · cases hsplit
          exact ⟨.cons ⟨rfl, hfirst.value⟩ hown, hothers⟩
      · have hdeclares : name.declares = none := by
          rw [Name.declares, if_neg hxmlns, if_neg]
          rintro rfl
          exact hdefault rfl
        rw [hdeclares] at hdeclared
        simp only [Option.map_none] at hdeclared
        rw [telling_cons_of_none hdeclared, hdeclared]
        simp only [hdefault, if_false] at hsplit
        cases hsplit
        exact ⟨hown, .cons hfirst hothers⟩

/-! ## Qualifiers that are no names -/

theorem lookup_empty {scope : List Declaration}
    (h : ∀ declaration ∈ scope, declaration.qualifier ≠ some "") :
    lookup scope (some "") = none := by
  rw [lookup_eq (by decide), declared?_eq_none_iff.2 h]
  rfl

section Tags

variable {scope known written : List Declaration} {tag tag' : Tag} {spelled : String} {name : Name}
  {raw : List (String × String)} {attributes : List (Name × String)}

/-- The empty qualifier is not declared on an element. -/
theorem named_declarations (htaken : List.Forall₂ (TakenAlike f) raw attributes)
    (htag : tag.Resolved scope spelled raw) :
    ∀ declaration ∈ tag.declarations, declaration.qualifier ≠ some "" := by
  intro declaration hmem hempty
  rw [htag.declarations, List.mem_filterMap] at hmem
  obtain ⟨attr, hattr, hdeclared⟩ := hmem
  obtain ⟨taken, -, htaken⟩ := exists_mem_of_forall₂ htaken.flip hattr
  rw [declaration?_eq, declaredBy_eq] at hdeclared
  obtain ⟨qualifier, hdeclares, rfl⟩ := Option.map_eq_some_iff.1 hdeclared
  simp only at hempty
  subst hempty
  rw [Name.declares] at hdeclares
  split at hdeclares
  · rename_i hxmlns
    rcases htaken.spells.parse_cases with hparse | hparse
    · rw [hparse] at hdeclares
      exact htaken.spells.base.1 (by simpa using hdeclares)
    · rw [hparse] at hxmlns
      simp at hxmlns
  · split at hdeclares <;> cases hdeclares

/-- So nothing in a tag that is opened is qualified by it. -/
theorem parse_ne_empty (htag : tag.Resolved scope spelled raw)
    (hnamed : ∀ declaration ∈ tag.declarations ++ scope, declaration.qualifier ≠ some "") :
    (Name.parse spelled).qualifier ≠ some "" ∧
      ∀ attr ∈ raw, (Name.parse attr.1).qualifier ≠ some "" := by
  have hnone := lookup_empty hnamed
  constructor
  · intro hempty
    rw [← htag.name] at hempty
    have hbound := htag.bound (by simp [hempty])
    rw [htag.uri, hempty, hnone] at hbound
    cases hbound
  · intro attr hattr hempty
    have hplain : Assembly.declaration? attr.1 attr.2 = none := by
      rw [declaration?_eq_none_iff, declaredBy_eq, Name.declares, if_neg (by simp [hempty]), if_neg]
      intro heq
      rw [heq] at hempty
      cases hempty
    obtain ⟨read, -, hname, -, hresolved⟩ := exists_mem_of_forall₂ htag.attributes.flip
      (List.mem_filter.2 ⟨hattr, by rw [hplain]; rfl⟩)
    rw [← hname] at hempty
    have hbound := hresolved.bound (by simp [hempty])
    rw [hresolved.uri, hempty, Option.bind_some, hnone] at hbound
    cases hbound

/-! ## Entering an element -/

theorem canonicalName_uri (scope : List Declaration) (base : String) (uri : Option String) :
    (Strict.canonicalName scope base uri).2 = meantBy uri := by
  cases uri with
  | none => rfl
  | some uri =>
    rw [Strict.canonicalName, meantBy, Option.bind_some]
    split <;> rfl

theorem canonicalName_base (scope : List Declaration) (base : String) (uri : Option String) :
    (Strict.canonicalName scope base uri).1.base = base := by
  cases uri with
  | none => rfl
  | some uri =>
    rw [Strict.canonicalName]
    split <;> rfl

/-- What two scopes say of an attribute's qualifier that the strict reader knows. -/
theorem attributeUri_alike (hsame : ∀ qualifier, qualifier ≠ some "xml" →
      Option.Rel (UriAlike f) (declared? scope qualifier) (declared? known qualifier))
    {uri : Option String} (huri : Strict.attributeUri known name = some uri) :
    (name.qualifier.bind fun qualifier => lookup scope (some qualifier)).map f =
      (meantBy uri).map f := by
  unfold Strict.attributeUri at huri
  split at huri
  · rename_i hnone
    cases huri
    rw [hnone]
    rfl
  · rename_i hxml
    cases huri
    rw [hxml]
    rfl
  · rename_i qualifier hqualifier hne
    obtain ⟨uri, hdeclared, rfl⟩ := Option.map_eq_some_iff.1 huri
    have hxml : some qualifier ≠ some "xml" := fun h => hqualifier (Option.some.inj h)
    rw [hne, Option.bind_some, lookup_eq hxml, ← hdeclared]
    exact map_meantBy_of_rel (hsame _ hxml)

theorem elementUri_alike (hsame : ∀ qualifier, qualifier ≠ some "xml" →
      Option.Rel (UriAlike f) (declared? scope qualifier) (declared? known qualifier))
    (hxml : ∀ declaration ∈ known, declaration.qualifier ≠ some "xml") {uri : Option String}
    (huri : Strict.elementUri known name = some uri) :
    (lookup scope name.qualifier).map f = (meantBy uri).map f := by
  have hdeclared : name.qualifier ≠ some "xml" ∧ uri = declared? known name.qualifier := by
    unfold Strict.elementUri at huri
    split at huri
    · rename_i hnone
      cases huri
      rw [hnone]
      exact ⟨by simp, rfl⟩
    · rename_i qualifier hqualifier
      obtain ⟨uri, hdeclared, rfl⟩ := Option.map_eq_some_iff.1 huri
      rw [hqualifier, hdeclared]
      refine ⟨?_, rfl⟩
      rintro heq
      rw [heq, declared?_eq_none_iff.2 hxml] at hdeclared
      cases hdeclared
  rw [lookup_eq hdeclared.1, hdeclared.2]
  exact map_meantBy_of_rel (hsame _ hdeclared.1)

/-- The attributes that are no declarations are alike. -/
theorem attributes_alike (hsame : ∀ qualifier, qualifier ≠ some "xml" →
      Option.Rel (UriAlike f) (declared? scope qualifier) (declared? known qualifier))
    {plain : List (String × String)} {others : List (Name × String)}
    (htaken : List.Forall₂ (TakenAlike f) plain others)
    (hparse : ∀ attr ∈ plain, (Name.parse attr.1).qualifier ≠ some "")
    {read : List Attribute} (hread : List.Forall₂ (fun key attr => attr.name = Name.parse key.1 ∧
      attr.value = key.2 ∧ attr.Resolved scope) plain read)
    {uris : List (Option String)} (huris : List.Forall₂ (fun attr uri =>
      Strict.attributeUri known attr.1 = some uri) others uris) :
    List.Forall₂ (Attribute.Alike f) read ((others.zip uris).map fun ((name, value), uri) =>
      let (name, uri) := Strict.canonicalName known name.base uri
      (⟨name, uri, value⟩ : Attribute)) := by
  induction htaken generalizing read uris with
  | nil =>
    cases hread
    exact .nil
  | @cons first attr rest more hfirst _ ih =>
    rw [List.forall_mem_cons] at hparse
    obtain ⟨head, tail, ⟨hname, hvalue, hresolved⟩, htail, rfl⟩ :=
      List.forall₂_cons_left_iff.1 hread
    obtain ⟨uri, uris, huri, hrest, rfl⟩ := List.forall₂_cons_left_iff.1 huris
    have hsplit : head.name = attr.1 := hname.trans (hfirst.spells.parse_eq hparse.1)
    rw [List.zip_cons_cons, List.map_cons]
    refine .cons ⟨?_, ?_, ?_⟩ (ih hparse.2 htail hrest)
    · rw [hsplit]
      exact (canonicalName_base ..).symm
    · rw [hresolved.uri, hsplit]
      exact (attributeUri_alike hsame huri).trans (congrArg _ (canonicalName_uri ..).symm)
    · rw [hvalue]
      exact hfirst.value.same

theorem Strict.allDistinct_iff {names : List (String × Option String)} :
    allDistinct names = true ↔ names.Nodup := by
  induction names with
  | nil => simp [allDistinct]
  | cons name rest ih => simp [allDistinct, ih]

/-- What the strict reader makes of a tag. -/
theorem resolveTag_eq_some_iff {known scope : List Declaration} {name : Name} {tag : Tag}
    {attributes : List (Name × String)} :
    Strict.resolveTag known name attributes = some (tag, scope) ↔
      ∃ own others uris uri, Strict.splitAttributes attributes = some (own, others) ∧
        scope = Strict.scopeWithin own known ∧
        List.Forall₂ (fun attr uri => Strict.attributeUri scope attr.1 = some uri) others uris ∧
        Strict.elementUri scope name = some uri ∧ name.qualifier ≠ some "xmlns" ∧
        ((others.zip uris).map fun resolved => (resolved.1.1.base, resolved.2)).Nodup ∧
        tag = {
          name := (Strict.canonicalName scope name.base uri).1
          uri := (Strict.canonicalName scope name.base uri).2
          attributes := (others.zip uris).map fun ((name, value), uri) =>
            let (name, uri) := Strict.canonicalName scope name.base uri
            (⟨name, uri, value⟩ : Attribute)
          declarations := scope.filter fun declaration =>
            declaration.qualifier != some "xml" && !known.contains declaration } := by
  constructor
  · intro h
    obtain ⟨⟨own, others⟩, hsplit, h⟩ := Option.bind_eq_some_iff.1 h
    obtain ⟨uris, huris, h⟩ := Option.bind_eq_some_iff.1 h
    obtain ⟨uri, huri, h⟩ := Option.bind_eq_some_iff.1 h
    simp only at h
    split at h
    · cases h
    · rename_i hallowed
      rw [not_or, Bool.not_eq_true, Bool.not_eq_false'] at hallowed
      cases h
      exact ⟨own, others, uris, uri, hsplit, rfl, mapM_eq_some_iff.1 huris, huri, hallowed.1,
        Strict.allDistinct_iff.1 hallowed.2, rfl⟩
  · rintro ⟨own, others, uris, uri, hsplit, rfl, huris, huri, hxmlns, hdistinct, rfl⟩
    rw [Strict.resolveTag, hsplit]
    simp only [Option.bind_eq_bind, Option.bind_some]
    rw [mapM_eq_some_iff.2 huris, Option.bind_some, huri, Option.bind_some, if_neg]
    rw [not_or, Bool.not_eq_true, Bool.not_eq_false']
    exact ⟨hxmlns, Strict.allDistinct_iff.2 hdistinct⟩

/-- Entering an element, two readers open tags that are alike, and go on knowing the same. -/
theorem InScope.enter (h : InScope f scope known written) {known' : List Declaration}
    (hspelled : Spells spelled.toList name) (htaken : List.Forall₂ (TakenAlike f) raw attributes)
    (hkeys : (raw.map (·.1)).Nodup) (htag : tag.Resolved scope spelled raw)
    (hstrict : Strict.resolveTag known name attributes = some (tag', known')) :
    tag.Alike f tag' ∧ InScope f (tag.sorted.declarations ++ scope) known'
      (tag'.sorted.declarations ++ written) := by
  obtain ⟨own, others, uris, uri, hsplit, rfl, huris, huri, -, -, rfl⟩ :=
    resolveTag_eq_some_iff.1 hstrict
  have hnamed : ∀ declaration ∈ tag.declarations ++ scope, declaration.qualifier ≠ some "" := by
    intro declaration hmem
    rcases List.mem_append.1 hmem with hmem | hmem
    · exact named_declarations htaken htag declaration hmem
    · exact h.named declaration hmem
  obtain ⟨hname, hparse⟩ := parse_ne_empty htag hnamed
  obtain ⟨hown, hothers⟩ := splitAttributes_alike htaken hparse hsplit
  have hnodup : (tag.declarations.map (·.qualifier)).Nodup := (htag.reads hkeys).qualifiers
  have htelling : telling raw = tag.declarations.filter (·.qualifier != some "xml") := by
    rw [telling, htag.declarations]
  have hqualifiers : own.map (·.qualifier) = (telling raw).map (·.qualifier) :=
    map_eq_of_forall₂ (fun h => h.qualifier.symm) hown
  have hownNodup : (own.map (·.qualifier)).Nodup := by
    rw [hqualifiers, htelling]
    exact hnodup.sublist (List.filter_sublist.map _)
  have hownXml : ∀ declaration ∈ own, declaration.qualifier ≠ some "xml" := by
    intro declaration hmem
    obtain ⟨other, hother, halike⟩ := exists_mem_of_forall₂ hown hmem
    rw [htelling, List.mem_filter] at hother
    rw [← halike.qualifier]
    simpa using hother.2
  have hsame : ∀ qualifier, qualifier ≠ some "xml" →
      Option.Rel (UriAlike f) (declared? (tag.declarations ++ scope) qualifier)
        (declared? (Strict.scopeWithin own known) qualifier) := by
    intro qualifier hxml
    have hfiltered : declared? tag.declarations qualifier = declared? (telling raw) qualifier := by
      rw [htelling, declared?_filter hnodup hxml]
    rw [declared?_append, declared?_scopeWithin, hfiltered]
    exact rel_or (declared?_rel hown qualifier) (h.same qualifier hxml)
  have hknownXml : ∀ declaration ∈ Strict.scopeWithin own known,
      declaration.qualifier ≠ some "xml" := fun declaration hmem =>
    (mem_scopeWithin.1 hmem).elim (hownXml declaration) fun h' => h.noXml declaration h'.1
  have hwithin := nodup_scopeWithin hownNodup h.nodup
  have htagName : tag.name = name := htag.name.trans (hspelled.parse_eq hname)
  have hsorted : tag.sorted.declarations.Perm tag.declarations := List.mergeSort_perm _ _
  refine ⟨⟨?_, ?_, ?_⟩, ?_⟩
  · rw [htagName]
    exact (canonicalName_base ..).symm
  · rw [htag.uri, htagName]
    exact (elementUri_alike hsame hknownXml huri).trans (congrArg _ (canonicalName_uri ..).symm)
  · exact attributes_alike hsame hothers (fun attr hattr => hparse attr (List.mem_filter.1 hattr).1)
      htag.attributes huris
  · refine ⟨fun qualifier hxml => ?_, fun declaration hmem => ?_, hknownXml, hwithin,
      fun qualifier => ?_⟩
    · rw [declared?_append, declared?_perm hsorted hnodup, ← declared?_append]
      exact hsame qualifier hxml
    · exact hnamed declaration (List.mem_append.2
        ((List.mem_append.1 hmem).imp_left hsorted.mem_iff.1))
    · rw [Tag.sorted, declared?_append, declared?_perm (List.mergeSort_perm _ _)
        (hwithin.sublist (List.filter_sublist.map _)), ← declared?_append]
      exact declared?_added hownNodup hownXml h.nodup h.enough qualifier

end Tags

end SoapKit.Xml
