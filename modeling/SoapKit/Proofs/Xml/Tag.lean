import SoapKit.Proofs.Except
import SoapKit.Proofs.Xml.Assembly
import SoapKit.Xml.Serialize
import Mathlib.Data.List.Nodup
import Mathlib.Data.Prod.Lex
import Mathlib.Data.String.Basic
import Mathlib.Order.WithBot

/-!
# Tags and their written form

`Resolved` relates what is written in a tag to the tag that is opened for it, in the scope of the
declarations around it. Opening from raw attributes is opening a resolved tag
(`openRaw_eq_openTag`, `exists_resolved_of_openRaw`).

`Reads` keeps what matters of this once the raw attributes are forgotten: qualifiers are declared
once, names split as they were written, and every qualifier stands for what the scope says. Such a
tag is resolved from its own written form, in whatever order its declarations are written
(`Reads.resolved`).
-/

namespace SoapKit.Xml

/-! ## Looking up a namespace -/

/-- The namespace that the first declaration of a qualifier gives it; `xml` needs none. -/
def Declaration.lookup (scope : List Declaration) (qualifier : Option String) : Option String :=
  if qualifier = some "xml" then some xmlNamespace
  else
    match scope.find? (·.qualifier == qualifier) with
    | some declaration => if declaration.uri.isEmpty then none else some declaration.uri
    | none => none

open Declaration (lookup)

theorem Assembly.resolve_eq (a : Assembly) (own : List Declaration) (qualifier : Option String) :
    a.resolve own qualifier = lookup (own ++ a.scopes.flatten) qualifier :=
  rfl

theorem find?_eq_some_iff_of_nodup {α κ : Type} [BEq κ] [LawfulBEq κ] {f : α → κ} {xs : List α}
    (h : (xs.map f).Nodup) {key : κ} {x : α} :
    xs.find? (f · == key) = some x ↔ x ∈ xs ∧ f x = key := by
  constructor
  · intro hx
    exact ⟨List.mem_of_find?_eq_some hx, by simpa using List.find?_some hx⟩
  · rintro ⟨hmem, rfl⟩
    induction xs with
    | nil => cases hmem
    | cons y rest ih =>
      rw [List.map_cons, List.nodup_cons] at h
      rcases List.mem_cons.1 hmem with rfl | hmem
      · simp
      · have hne : f y ≠ f x := fun heq => h.1 (heq ▸ List.mem_map_of_mem hmem)
        rw [List.find?_cons_of_neg (by simpa using hne)]
        exact ih h.2 hmem

/-- Where every qualifier is declared once, the order of declarations does not matter. -/
theorem lookup_perm {own own' : List Declaration} (hperm : own'.Perm own)
    (hnodup : (own.map (·.qualifier)).Nodup) (scope : List Declaration)
    (qualifier : Option String) :
    lookup (own' ++ scope) qualifier = lookup (own ++ scope) qualifier := by
  have hnodup' : (own'.map (·.qualifier)).Nodup := (hperm.map _).nodup_iff.2 hnodup
  have hfind : own'.find? (·.qualifier == qualifier) = own.find? (·.qualifier == qualifier) := by
    apply Option.ext
    intro declaration
    rw [find?_eq_some_iff_of_nodup hnodup, find?_eq_some_iff_of_nodup hnodup', hperm.mem_iff]
  rw [lookup, lookup, List.find?_append, List.find?_append, hfind]

theorem lookup_append_of_mem {own : List Declaration} (hnodup : (own.map (·.qualifier)).Nodup)
    {declaration : Declaration} (hmem : declaration ∈ own)
    (hxml : declaration.qualifier ≠ some "xml") (huri : declaration.uri ≠ "")
    (scope : List Declaration) :
    lookup (own ++ scope) declaration.qualifier = some declaration.uri := by
  have hfind := (find?_eq_some_iff_of_nodup hnodup).2 ⟨hmem, rfl⟩
  rw [lookup, if_neg hxml, List.find?_append, hfind]
  simp [huri]

theorem lookup_append_of_not_mem {own : List Declaration} {qualifier : Option String}
    (h : ∀ declaration ∈ own, declaration.qualifier ≠ qualifier) (scope : List Declaration) :
    lookup (own ++ scope) qualifier = lookup scope qualifier := by
  have hfind : own.find? (·.qualifier == qualifier) = none := by
    simpa using h
  rw [lookup, lookup, List.find?_append, hfind]
  rfl

/-! ## Declarations among raw attributes -/

/-- What a key declares: the default namespace or a qualifier, or nothing at all. -/
def declaredBy (key : String) : Option (Option String) :=
  if key = "xmlns" then some none
  else (Text.after? "xmlns:".toList key.toList).map fun qualifier => some (String.ofList qualifier)

/-- Whether an attribute is a declaration, and of what, is seen from its key. -/
theorem declaration?_eq (key value : String) :
    Assembly.declaration? key value = (declaredBy key).map fun qualifier => ⟨qualifier, value⟩ := by
  unfold Assembly.declaration? declaredBy
  split
  · rfl
  · rw [Option.map_map]
    rfl

theorem declaredBy_written (declaration : Declaration) :
    declaredBy declaration.written.1 = some declaration.qualifier := by
  obtain ⟨qualifier, uri⟩ := declaration
  cases qualifier with
  | none => rfl
  | some qualifier =>
    have hne : "xmlns:" ++ qualifier ≠ "xmlns" := by
      intro h
      have hlength := congrArg String.length h
      rw [String.length_append, show "xmlns:".length = 6 from rfl,
        show "xmlns".length = 5 from rfl] at hlength
      omega
    simp only [Declaration.written, declaredBy, hne, if_false]
    simp [Text.after?]

/-- The key of a declaration is found from what it declares. -/
theorem written_of_declaredBy {key : String} {qualifier : Option String}
    (h : declaredBy key = some qualifier) (uri : String) :
    (⟨qualifier, uri⟩ : Declaration).written.1 = key := by
  unfold declaredBy at h
  split at h
  · rename_i hkey
    cases h
    exact hkey.symm
  · obtain ⟨rest, hrest, h⟩ := Option.map_eq_some_iff.1 h
    cases h
    unfold Text.after? at hrest
    split at hrest
    · rename_i hlead
      cases hrest
      obtain ⟨after, hafter⟩ := List.isPrefixOf_iff_prefix.1 hlead
      apply String.toList_inj.1
      simp [Declaration.written, ← hafter]
    · cases hrest

theorem declaration?_written (declaration : Declaration) :
    Assembly.declaration? declaration.written.1 declaration.written.2 = some declaration := by
  rw [declaration?_eq, declaredBy_written]
  rfl

theorem declaration?_eq_none_iff {key value : String} :
    Assembly.declaration? key value = none ↔ declaredBy key = none := by
  rw [declaration?_eq, Option.map_eq_none_iff]

/-! ## Opening from raw attributes -/

/-- An attribute's namespace is what its qualifier stands for in a scope, which has to be
something; without a qualifier it has none. -/
structure Attribute.Resolved (scope : List Declaration) (attr : Attribute) : Prop where
  uri : attr.uri = attr.name.qualifier.bind fun qualifier => lookup scope (some qualifier)
  bound : attr.name.qualifier.isSome → attr.uri.isSome

/-- A tag that a written name and raw attributes stand for inside of a scope. -/
structure Tag.Resolved (scope : List Declaration) (written : String)
    (raw : List (String × String)) (tag : Tag) : Prop where
  name : tag.name = Name.parse written
  declarations : tag.declarations = raw.filterMap fun attr => Assembly.declaration? attr.1 attr.2
  uri : tag.uri = lookup (tag.declarations ++ scope) tag.name.qualifier
  bound : tag.name.qualifier.isSome → tag.uri.isSome
  attributes : List.Forall₂ (fun key attr => attr.name = Name.parse key.1 ∧ attr.value = key.2 ∧
      attr.Resolved (tag.declarations ++ scope))
    (raw.filter fun attr => (Assembly.declaration? attr.1 attr.2).isNone) tag.attributes

namespace Assembly

/-- The namespace of an element's name, which has to be bound when it is qualified. -/
def elementUri (a : Assembly) (own : List Declaration) (name : Name) :
    Except ParseError (Option String) :=
  match name.qualifier with
  | some qualifier => some <$> a.resolveBound own qualifier
  | none => pure (a.resolve own none)

/-- The attribute that a key and a value stand for. -/
def readAttribute (a : Assembly) (own : List Declaration) (attr : String × String) :
    Except ParseError Attribute :=
  match (Name.parse attr.1).qualifier with
  | some qualifier => do
    return ⟨Name.parse attr.1, some (← a.resolveBound own qualifier), attr.2⟩
  | none => .ok ⟨Name.parse attr.1, none, attr.2⟩

theorem openRaw_eq (a : Assembly) (written : String) (raw : List (String × String)) :
    a.openRaw written raw =
      (do
        let own := raw.filterMap fun attr => declaration? attr.1 attr.2
        let uri ← a.elementUri own (Name.parse written)
        let attributes ←
          (raw.filter fun attr => (declaration? attr.1 attr.2).isNone).mapM (a.readAttribute own)
        a.openTag ⟨Name.parse written, uri, attributes, own⟩) := by
  simp only [openRaw, elementUri]
  cases (Name.parse written).qualifier
  all_goals
    refine congrArg (_ >>= ·) (funext fun uri => ?_)
    refine congrArg (List.mapM · _ >>= _) (funext fun attr => ?_)
    unfold readAttribute
    cases (Name.parse attr.1).qualifier with
    | none => rfl
    | some qualifier =>
      simp only
      generalize a.resolveBound _ qualifier = bound
      cases bound <;> rfl

theorem resolveBound_eq_ok_iff {a : Assembly} {own : List Declaration} {qualifier uri : String} :
    a.resolveBound own qualifier = .ok uri ↔
      lookup (own ++ a.scopes.flatten) (some qualifier) = some uri := by
  rw [resolveBound, resolve_eq]
  cases lookup (own ++ a.scopes.flatten) (some qualifier) <;> simp

theorem elementUri_eq_ok_iff {a : Assembly} {own : List Declaration} {name : Name}
    {uri : Option String} :
    a.elementUri own name = .ok uri ↔
      uri = lookup (own ++ a.scopes.flatten) name.qualifier ∧
        (name.qualifier.isSome → uri.isSome) := by
  unfold elementUri
  cases name.qualifier with
  | none =>
    rw [resolve_eq]
    constructor
    · intro h
      cases h
      exact ⟨rfl, fun h => by cases h⟩
    · rintro ⟨rfl, -⟩
      rfl
  | some qualifier =>
    constructor
    · intro h
      obtain ⟨bound, hbound, h⟩ := bind_eq_ok.1 h
      cases h
      exact ⟨(resolveBound_eq_ok_iff.1 hbound).symm, fun _ => rfl⟩
    · rintro ⟨rfl, h⟩
      obtain ⟨bound, hbound⟩ := Option.isSome_iff_exists.1 (h rfl)
      simp only [hbound, resolveBound_eq_ok_iff.2 hbound]
      rfl

theorem readAttribute_eq_ok_iff {a : Assembly} {own : List Declaration} {raw : String × String}
    {attr : Attribute} :
    a.readAttribute own raw = .ok attr ↔
      attr.name = Name.parse raw.1 ∧ attr.value = raw.2 ∧
        attr.Resolved (own ++ a.scopes.flatten) := by
  obtain ⟨name, uri, value⟩ := attr
  unfold readAttribute
  cases hq : (Name.parse raw.1).qualifier with
  | none =>
    constructor
    · intro h
      cases h
      exact ⟨rfl, rfl, by simp [hq], by simp [hq]⟩
    · rintro ⟨rfl, rfl, huri, -⟩
      simp only [hq, Option.bind_none] at huri
      rw [huri]
  | some qualifier =>
    constructor
    · intro h
      obtain ⟨bound, hbound, h⟩ := bind_eq_ok.1 h
      cases h
      exact ⟨rfl, rfl, by simp [hq, resolveBound_eq_ok_iff.1 hbound], fun _ => rfl⟩
    · rintro ⟨rfl, rfl, huri, hsome⟩
      simp only [hq, Option.bind_some] at huri
      obtain ⟨bound, hbound⟩ := Option.isSome_iff_exists.1 (hsome (by simp [hq]))
      simp only at hbound
      rw [hbound] at huri
      simp only [resolveBound_eq_ok_iff.2 huri.symm, hbound]
      rfl

/-- Opening from raw attributes opens the tag they stand for. -/
theorem openRaw_eq_openTag {a : Assembly} {written : String} {raw : List (String × String)}
    {tag : Tag} (h : tag.Resolved a.scopes.flatten written raw) :
    a.openRaw written raw = a.openTag tag := by
  obtain ⟨name, uri, attributes, declarations⟩ := tag
  obtain ⟨rfl, rfl, huri, hbound, hattributes⟩ := h
  rw [openRaw_eq]
  simp only
  rw [elementUri_eq_ok_iff.2 ⟨huri, hbound⟩, mapM_eq_ok_iff.2 (hattributes.imp fun _ _ h =>
    readAttribute_eq_ok_iff.2 h)]
  rfl

theorem exists_resolved_of_openRaw {a a' : Assembly} {written : String}
    {raw : List (String × String)} (h : a.openRaw written raw = .ok a') :
    ∃ tag : Tag, tag.Resolved a.scopes.flatten written raw ∧ a.openTag tag = .ok a' := by
  rw [openRaw_eq] at h
  obtain ⟨uri, huri, h⟩ := bind_eq_ok.1 h
  obtain ⟨attributes, hattributes, h⟩ := bind_eq_ok.1 h
  obtain ⟨huri, hbound⟩ := elementUri_eq_ok_iff.1 huri
  exact ⟨_, ⟨rfl, rfl, huri, hbound,
    (mapM_eq_ok_iff.1 hattributes).imp fun _ _ h => readAttribute_eq_ok_iff.1 h⟩, h⟩

end Assembly

/-! ## The order of declarations -/

namespace Declaration

/-- What declarations are ordered by. -/
def rank (declaration : Declaration) : WithBot String ×ₗ String :=
  toLex (match declaration.qualifier with
    | some qualifier => (qualifier : WithBot String)
    | none => ⊥, declaration.uri)

theorem le_iff {a b : Declaration} : a.le b = true ↔ a.rank ≤ b.rank := by
  obtain ⟨p, u⟩ := a
  obtain ⟨q, v⟩ := b
  cases p <;> cases q <;> simp [Declaration.le, rank, Prod.Lex.toLex_le_toLex]

theorem rank_injective : Function.Injective rank := by
  rintro ⟨p, u⟩ ⟨q, v⟩ h
  cases p <;> cases q <;> simp_all [rank]

end Declaration

theorem pairwise_mergeSort_declarations (own : List Declaration) :
    (own.mergeSort Declaration.le).Pairwise fun a b => a.le b := by
  refine List.pairwise_mergeSort (fun a b c hab hbc => ?_) (fun a b => ?_) own
  · exact Declaration.le_iff.2 (le_trans (Declaration.le_iff.1 hab) (Declaration.le_iff.1 hbc))
  · rw [Bool.or_eq_true, Declaration.le_iff, Declaration.le_iff]
    exact le_total _ _

/-- Declarations have one order, whatever the order they are given in. -/
theorem mergeSort_declarations_eq {own own' : List Declaration} (h : own'.Perm own) :
    own'.mergeSort Declaration.le = own.mergeSort Declaration.le := by
  refine List.Perm.eq_of_pairwise (fun a b _ _ hab hba => ?_)
    (pairwise_mergeSort_declarations own') (pairwise_mergeSort_declarations own) ?_
  · exact Declaration.rank_injective
      (le_antisymm (Declaration.le_iff.1 hab) (Declaration.le_iff.1 hba))
  · exact (List.mergeSort_perm _ _).trans (h.trans (List.mergeSort_perm _ _).symm)

/-! ## Tags that read back -/

/-- An attribute that its written key stands for in a scope. -/
structure Attribute.Reads (scope : List Declaration) (attr : Attribute) : Prop
    extends attr.Resolved scope where
  parses : Name.parse attr.name.text = attr.name
  plain : declaredBy attr.name.text = none

/-- A tag that its written form stands for in a scope. -/
structure Tag.Reads (scope : List Declaration) (tag : Tag) : Prop where
  parses : Name.parse tag.name.text = tag.name
  uri : tag.uri = lookup (tag.declarations ++ scope) tag.name.qualifier
  bound : tag.name.qualifier.isSome → tag.uri.isSome
  attributes : ∀ attr ∈ tag.attributes, attr.Reads (tag.declarations ++ scope)
  keys : (tag.attributes.map (·.name.text)).Nodup
  qualifiers : (tag.declarations.map (·.qualifier)).Nodup

namespace Tag

variable {scope : List Declaration} {tag : Tag}

theorem map_qualifier_filterMap (raw : List (String × String)) :
    (raw.filterMap fun attr => Assembly.declaration? attr.1 attr.2).map (·.qualifier) =
      (raw.map (·.1)).filterMap declaredBy := by
  rw [List.map_filterMap, List.filterMap_map]
  congr 1
  funext attr
  rw [declaration?_eq, Option.map_map]
  exact Option.map_id'

/-- What a tag is resolved from can be forgotten, if no key was used twice. -/
theorem Resolved.reads {written : String} {raw : List (String × String)}
    (h : tag.Resolved scope written raw) (hnodup : (raw.map (·.1)).Nodup) : tag.Reads scope where
  parses := by rw [h.name, Name.text_parse]
  uri := h.uri
  bound := h.bound
  attributes := by
    intro attr hattr
    obtain ⟨key, hkey, hname, -, hresolved⟩ := exists_mem_of_forall₂ h.attributes hattr
    have hplain :=
      declaration?_eq_none_iff.1 (Option.isNone_iff_eq_none.1 (List.mem_filter.1 hkey).2)
    exact {
      toResolved := hresolved
      parses := by rw [hname, Name.text_parse]
      plain := by rw [hname, Name.text_parse, hplain] }
  keys := by
    have hkeys := map_eq_of_forall₂ (f := (·.1)) (g := (·.name.text))
      (fun hxy => by rw [hxy.1, Name.text_parse]) h.attributes
    rw [hkeys]
    exact hnodup.sublist (List.filter_sublist.map _)
  qualifiers := by
    rw [h.declarations, map_qualifier_filterMap]
    refine List.Nodup.filterMap (fun key key' qualifier hkey hkey' => ?_) hnodup
    exact (written_of_declaredBy hkey "").symm.trans
      (written_of_declaredBy hkey' "")

/-- A tag may stand in another scope and with other declarations, as long as all qualifiers stand
for the same there. -/
theorem Reads.redeclare (h : tag.Reads scope) {scope' own : List Declaration}
    (hlookup : ∀ qualifier,
      lookup (own ++ scope') qualifier = lookup (tag.declarations ++ scope) qualifier)
    (hown : (own.map (·.qualifier)).Nodup) :
    ({ tag with declarations := own } : Tag).Reads scope' where
  parses := h.parses
  uri := h.uri.trans (hlookup _).symm
  bound := h.bound
  attributes attr hattr :=
    { uri := by
        rw [(h.attributes attr hattr).uri]
        cases attr.name.qualifier with
        | none => rfl
        | some qualifier => exact (hlookup _).symm
      bound := (h.attributes attr hattr).bound
      parses := (h.attributes attr hattr).parses
      plain := (h.attributes attr hattr).plain }
  keys := h.keys
  qualifiers := hown

theorem Reads.perm (h : tag.Reads scope) {own : List Declaration}
    (hown : own.Perm tag.declarations) :
    ({ tag with declarations := own } : Tag).Reads scope :=
  h.redeclare (lookup_perm hown h.qualifiers scope) ((hown.map _).nodup_iff.2 h.qualifiers)

theorem sorted_eq {own : List Declaration} (hown : own.Perm tag.declarations) :
    ({ tag with declarations := own } : Tag).sorted = tag.sorted := by
  simp only [sorted, mergeSort_declarations_eq hown]

theorem Reads.sorted (h : tag.Reads scope) : tag.sorted.Reads scope :=
  h.perm (List.mergeSort_perm _ _)

theorem Reads.declaration?_written (h : tag.Reads scope) {attr : Attribute}
    (hattr : attr ∈ tag.attributes) :
    Assembly.declaration? attr.written.1 attr.written.2 = none :=
  declaration?_eq_none_iff.2 (h.attributes attr hattr).plain

/-- A tag is resolved from its written form. -/
theorem Reads.resolved (h : tag.Reads scope) :
    tag.Resolved scope tag.name.text (Document.writtenAttributes tag.declarations tag) where
  name := h.parses.symm
  declarations := by
    have hown : (tag.declarations.map Declaration.written).filterMap
        (fun attr => Assembly.declaration? attr.1 attr.2) = tag.declarations := by
      rw [List.filterMap_map]
      exact (List.filterMap_congr fun declaration _ =>
        Xml.declaration?_written declaration).trans List.filterMap_some
    have hnone : (tag.attributes.map Attribute.written).filterMap
        (fun attr => Assembly.declaration? attr.1 attr.2) = [] := by
      rw [List.filterMap_eq_nil_iff]
      intro raw hraw
      obtain ⟨attr, hattr, rfl⟩ := List.mem_map.1 hraw
      exact h.declaration?_written hattr
    rw [Document.writtenAttributes, List.filterMap_append, hown, hnone, List.append_nil]
  uri := h.uri
  bound := h.bound
  attributes := by
    have hown : (tag.declarations.map Declaration.written).filter
        (fun attr => (Assembly.declaration? attr.1 attr.2).isNone) = [] := by
      rw [List.filter_eq_nil_iff]
      intro raw hraw
      obtain ⟨declaration, -, rfl⟩ := List.mem_map.1 hraw
      rw [Xml.declaration?_written]
      exact Bool.false_ne_true
    have hall : (tag.attributes.map Attribute.written).filter
        (fun attr => (Assembly.declaration? attr.1 attr.2).isNone) =
          tag.attributes.map Attribute.written := by
      rw [List.filter_eq_self]
      intro raw hraw
      obtain ⟨attr, hattr, rfl⟩ := List.mem_map.1 hraw
      rw [h.declaration?_written hattr]
      rfl
    rw [Document.writtenAttributes, List.filter_append, hown, hall, List.nil_append,
      List.forall₂_map_left_iff, List.forall₂_same]
    intro attr hattr
    have hreads := h.attributes attr hattr
    exact ⟨hreads.parses.symm, rfl, hreads.toResolved⟩

/-- The keys of a written tag are all different. -/
theorem Reads.nodup_written (h : tag.Reads scope) :
    ((Document.writtenAttributes tag.declarations tag).map (·.1)).Nodup := by
  rw [Document.writtenAttributes, List.map_append, List.map_map, List.map_map]
  refine List.Nodup.append ?_ h.keys ?_
  · refine List.Nodup.of_map declaredBy ?_
    have hqualifiers : (tag.declarations.map ((·.1) ∘ Declaration.written)).map declaredBy =
        (tag.declarations.map (·.qualifier)).map some := by
      rw [List.map_map, List.map_map]
      exact List.map_congr_left fun declaration _ => declaredBy_written declaration
    rw [hqualifiers]
    exact h.qualifiers.map (Option.some_injective _)
  · intro key hown hkey
    obtain ⟨declaration, -, rfl⟩ := List.mem_map.1 hown
    obtain ⟨attr, hattr, heq⟩ := List.mem_map.1 hkey
    have hplain : declaredBy attr.written.1 = none := (h.attributes attr hattr).plain
    have hsome := declaredBy_written declaration
    rw [show declaration.written.1 = attr.written.1 from heq.symm, hplain] at hsome
    cases hsome

end Tag

end SoapKit.Xml
