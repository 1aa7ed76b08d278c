import SoapKit.Proofs.Xml.Draft.Declarations

/-!
# Which drafts are written, and why others are not

A draft is written exactly if it has one element at the top and each of its elements can be written
where it stands. An element can if it does not have both a value and elements inside of it, and if
every qualifier that it uses is bound: by an alias of the draft, of the element or of one around it,
or by a declaration written out on one of these elements. Any other draft is refused for the number
of its elements at the top, or for the first element in document order that cannot be written
(`Draft.toXml_outcome`).

What is bound at an element is said by the elements around it (`Site.Binds`). The scope that goes
along with the writing is a list of aliases and a list of declarations in force, to which elements
add their own. The invariant is `Scope.Covers`: the scope knows exactly what is bound there. An
element adds a declaration only for a qualifier that has an alias around it, so what is added binds
nothing new.
-/

namespace SoapKit.Xml

namespace DraftElement

/-! ## Elements where they stand -/

/-- An element of a draft with the elements around it, the innermost first. -/
structure Site where
  element : DraftElement
  outer : List DraftElement

mutual

/-- An element and the elements inside of it in document order. -/
def sites (outer : List DraftElement) : DraftElement → List Site
  | mk name aliases attributes declared children value =>
    let e := mk name aliases attributes declared children value
    ⟨e, outer⟩ :: sitesIn (e :: outer) children

/-- Elements one after the other, each with those inside of it. -/
def sitesIn (outer : List DraftElement) : List DraftElement → List Site
  | [] => []
  | e :: rest => sites outer e ++ sitesIn outer rest

end

/-- An element has both a value and elements inside of it. -/
def IsMixed (e : DraftElement) : Prop :=
  e.value.isSome ∧ e.children ≠ []

instance (e : DraftElement) : Decidable e.IsMixed :=
  decidable_of_iff (e.value.isSome ∧ e.children.isEmpty = false) (by
    rw [IsMixed, List.isEmpty_eq_false_iff])

/-- A declaration of a qualifier is written out on an element. -/
def DeclaresByHand (e : DraftElement) (qualifier : String) : Prop :=
  ∃ attr ∈ e.attributes, attr.1 = "xmlns:" ++ qualifier

instance (e : DraftElement) (qualifier : String) : Decidable (e.DeclaresByHand qualifier) :=
  inferInstanceAs (Decidable (∃ attr ∈ e.attributes, _))

/-- The qualifiers that have to be bound at an element: its own, those that it declares, and those
of its attributes apart from `xml` and `xmlns`. -/
def needed (e : DraftElement) : List String :=
  e.name.qualifier.toList ++ e.declared ++ attributeQualifiers e.attributes

namespace Site

/-- A qualifier is bound at an element: the draft, the element or one around it has an alias for it,
or one of these elements has a declaration of it written out. -/
def Binds (aliases : OrderedMap String String) (s : Site) (qualifier : String) : Prop :=
  (aliases.get? qualifier).isSome ∨
    ∃ e ∈ s.element :: s.outer, (e.aliases.get? qualifier).isSome ∨ e.DeclaresByHand qualifier

instance (aliases : OrderedMap String String) (s : Site) (qualifier : String) :
    Decidable (s.Binds aliases qualifier) :=
  inferInstanceAs (Decidable (_ ∨ ∃ e ∈ _, _))

/-- An element can be written where it stands. -/
structure Sound (aliases : OrderedMap String String) (s : Site) : Prop where
  single : ¬s.element.IsMixed
  bound : ∀ qualifier ∈ s.element.needed, s.Binds aliases qualifier

/-- An element cannot be written where it stands, because it is mixed, or else because of the first
qualifier that is not bound. -/
inductive Offends (aliases : OrderedMap String String) (s : Site) : BuildError → Prop where
  | mixed : s.element.IsMixed → Offends aliases s (.mixedContent s.element.name.text)
  | unbound {before after : List String} {qualifier : String} : ¬s.element.IsMixed →
      s.element.needed = before ++ qualifier :: after →
      (∀ earlier ∈ before, s.Binds aliases earlier) → ¬s.Binds aliases qualifier →
      Offends aliases s (.unregistered qualifier)

/-- What is wrong with a qualifier of an element, unless it is bound. -/
def unbound? (aliases : OrderedMap String String) (s : Site) (qualifier : String) :
    Option BuildError :=
  if s.Binds aliases qualifier then none else some (.unregistered qualifier)

/-- The first thing that is wrong with an element where it stands. -/
def fault? (aliases : OrderedMap String String) (s : Site) : Option BuildError :=
  if s.element.IsMixed then some (.mixedContent s.element.name.text)
  else s.element.needed.findSome? (s.unbound? aliases)

variable {aliases : OrderedMap String String} {s : Site} {qualifier : String} {error : BuildError}

theorem unbound?_eq_none_iff : s.unbound? aliases qualifier = none ↔ s.Binds aliases qualifier := by
  simp [unbound?]

theorem unbound?_eq_some_iff :
    s.unbound? aliases qualifier = some error ↔
      ¬s.Binds aliases qualifier ∧ error = .unregistered qualifier := by
  by_cases hbound : s.Binds aliases qualifier
  · simp [unbound?, hbound]
  · simp [unbound?, hbound, eq_comm]

theorem fault?_eq_none_iff : s.fault? aliases = none ↔ s.Sound aliases := by
  by_cases hmixed : s.element.IsMixed
  · rw [fault?, if_pos hmixed]
    constructor
    · intro h
      cases h
    · intro h
      exact absurd hmixed h.single
  · rw [fault?, if_neg hmixed, List.findSome?_eq_none_iff]
    simp only [unbound?_eq_none_iff]
    exact ⟨fun h => ⟨hmixed, h⟩, fun h => h.bound⟩

theorem fault?_eq_some_iff : s.fault? aliases = some error ↔ s.Offends aliases error := by
  by_cases hmixed : s.element.IsMixed
  · rw [fault?, if_pos hmixed, Option.some.injEq]
    constructor
    · rintro rfl
      exact .mixed hmixed
    · intro h
      cases h with
      | mixed => rfl
      | unbound hsingle => exact absurd hmixed hsingle
  · rw [fault?, if_neg hmixed, List.findSome?_eq_some_iff]
    simp only [unbound?_eq_none_iff, unbound?_eq_some_iff]
    constructor
    · rintro ⟨before, qualifier, after, hneeded, ⟨hqualifier, rfl⟩, hbefore⟩
      exact .unbound hmixed hneeded hbefore hqualifier
    · intro h
      cases h with
      | mixed hmixed' => exact absurd hmixed' hmixed
      | unbound _ hneeded hbefore hqualifier =>
        exact ⟨_, _, _, hneeded, ⟨hqualifier, rfl⟩, hbefore⟩

end Site

/-! ## What a scope knows -/

/-- A scope knows what is bound inside of elements: it finds the aliases of the draft and of these
elements, and what has none of these is in force where it is declared by hand. -/
structure Scope.Covers (scope : Scope) (aliases : OrderedMap String String)
    (outer : List DraftElement) : Prop where
  aliases : ∀ qualifier, (scope.lookup qualifier).isSome ↔
    (aliases.get? qualifier).isSome ∨ ∃ e ∈ outer, (e.aliases.get? qualifier).isSome
  inForce : ∀ qualifier, scope.lookup qualifier = none →
    ((scope.declared? qualifier).isSome ↔ ∃ e ∈ outer, e.DeclaresByHand qualifier)

variable {scope : Scope} {aliases : OrderedMap String String} {outer : List DraftElement}
  {e : DraftElement} {added : List (String × String)}

theorem Scope.isSome_lookup_enter (scope : Scope) (e : DraftElement) (qualifier : String) :
    ((scope.enter e).lookup qualifier).isSome ↔
      (e.aliases.get? qualifier).isSome ∨ (scope.lookup qualifier).isSome := by
  rw [Scope.lookup, Scope.enter, findSome?_cons_eq_or, Option.isSome_or, Bool.or_eq_true]
  rfl

/-- A qualifier is bound at an element if the element declares it by hand, or if it has an alias or
is in force when the element is entered. -/
theorem Scope.Covers.binds_iff (h : scope.Covers aliases outer) (e : DraftElement)
    (qualifier : String) :
    (Site.mk e outer).Binds aliases qualifier ↔ e.DeclaresByHand qualifier ∨
      ((scope.enter e).lookup qualifier).isSome ∨ (scope.declared? qualifier).isSome := by
  have haliases := h.aliases qualifier
  rw [Scope.isSome_lookup_enter]
  simp only [Site.Binds, List.exists_mem_cons_iff]
  by_cases houter : (scope.lookup qualifier).isSome = true
  · have hbound : (aliases.get? qualifier).isSome ∨
        ∃ e ∈ outer, (e.aliases.get? qualifier).isSome ∨ e.DeclaresByHand qualifier :=
      (haliases.1 houter).imp_right fun ⟨e, he, halias⟩ => ⟨e, he, .inl halias⟩
    exact ⟨fun _ => .inr (.inl (.inr houter)), fun _ => hbound.imp_right .inr⟩
  · have hinForce := h.inForce qualifier (Option.not_isSome_iff_eq_none.1 houter)
    rw [haliases, not_or] at houter
    obtain ⟨hdraft, hnone⟩ := houter
    have hhand : (∃ e ∈ outer, (e.aliases.get? qualifier).isSome ∨ e.DeclaresByHand qualifier) ↔
        (scope.declared? qualifier).isSome := by
      rw [hinForce]
      constructor
      · rintro ⟨e, he, halias | hdeclared⟩
        · exact absurd ⟨e, he, halias⟩ hnone
        · exact ⟨e, he, hdeclared⟩
      · rintro ⟨e, he, hdeclared⟩
        exact ⟨e, he, .inr hdeclared⟩
    have hfree : ¬(scope.lookup qualifier).isSome = true := by
      rw [haliases, not_or]
      exact ⟨hdraft, hnone⟩
    rw [hhand]
    simp only [hdraft, hfree, Bool.false_eq_true, false_or, or_false]
    rw [or_assoc, or_left_comm]

/-! ## The declarations of an element -/

theorem neededDeclaration_ends (h : scope.Covers aliases outer) (e : DraftElement)
    (qualifier : String) :
    EndsWith (e.neededDeclaration (scope.enter e) qualifier)
      ((Site.mk e outer).unbound? aliases qualifier) := by
  have hhand : e.attributes.any (·.1 == declarationKey qualifier) = true ↔
      e.DeclaresByHand qualifier := by
    simp [DeclaresByHand, declarationKey]
  have hdeclared : (scope.enter e).declared? qualifier = scope.declared? qualifier := rfl
  rw [neededDeclaration, hdeclared]
  simp only [Site.unbound?, h.binds_iff, hhand]
  by_cases hbyHand : e.DeclaresByHand qualifier
  · simp only [hbyHand, if_true, true_or]
    exact .ok _
  · simp only [hbyHand, if_false, false_or]
    cases (scope.enter e).lookup qualifier with
    | some uri =>
      simp only [Option.isSome_some, true_or, if_true]
      exact .ok _
    | none =>
      cases scope.declared? qualifier with
      | some uri =>
        simp only [Option.isSome_some, or_true, if_true]
        exact .ok _
      | none =>
        simp only [Option.isSome_none, Bool.false_eq_true, or_self, if_false]
        exact .error _

theorem findSome?_filter {β : Type} {g : String → Option β} {p : String → Bool}
    (h : ∀ x, p x = false → g x = none) (xs : List String) :
    (xs.filter p).findSome? g = xs.findSome? g := by
  induction xs with
  | nil => rfl
  | cons x rest ih =>
    rw [List.filter_cons]
    by_cases hx : p x = true
    · rw [if_pos hx, List.findSome?_cons, List.findSome?_cons, ih]
    · rw [if_neg hx, List.findSome?_cons, h x (by simpa using hx), ih]

/-- Repeated members are no matter for the first member that gives something. -/
theorem findSome?_eraseDups {β : Type} (g : String → Option β) (xs : List String) :
    xs.eraseDups.findSome? g = xs.findSome? g := by
  induction hn : xs.length using Nat.strong_induction_on generalizing xs with
  | _ n ih =>
    cases xs with
    | nil => rfl
    | cons x rest =>
      have hlength : (rest.filter fun y => !y == x).length < n := by
        have := List.length_filter_le (fun y => !y == x) rest
        rw [List.length_cons] at hn
        omega
      rw [List.eraseDups_cons, List.findSome?_cons, List.findSome?_cons, ih _ hlength _ rfl]
      cases hx : g x with
      | some b => rfl
      | none =>
        refine findSome?_filter (fun y hy => ?_) rest
        rwa [show y = x by simpa using hy]

/-- An element gets its declarations unless a qualifier is not bound, and the first of these says
why not. -/
theorem neededDeclarations_ends (h : scope.Covers aliases outer) (e : DraftElement) :
    EndsWith (e.neededDeclarations (scope.enter e))
      (e.needed.findSome? ((Site.mk e outer).unbound? aliases)) := by
  have hmapM := EndsWith.mapM (neededDeclaration_ends h e) e.usedQualifiers
  rw [show e.usedQualifiers = e.needed.eraseDups from rfl, findSome?_eraseDups] at hmapM
  exact hmapM.bind_ok

/-- What an element adds has an alias. -/
theorem lookup_of_mem_neededDeclarations (h : e.neededDeclarations scope = .ok added)
    {entry : String × String} (hentry : entry ∈ added) :
    scope.lookup entry.1 = some entry.2 := by
  obtain ⟨needed, hneeded, h⟩ := bind_eq_ok.1 h
  cases h
  obtain ⟨result, hresult, hentry⟩ := List.mem_filterMap.1 hentry
  obtain ⟨qualifier, -, hqualifier⟩ := exists_mem_of_forall₂ (mapM_eq_ok_iff.1 hneeded) hresult
  cases hentry
  unfold neededDeclaration at hqualifier
  split at hqualifier
  · cases hqualifier
  · split at hqualifier
    · cases hqualifier
    · cases hqualifier
    · rename_i uri inForce hlookup
      split at hqualifier
      · cases hqualifier
      · cases hqualifier
        exact hlookup

theorem exists_mem_handWritten_iff {qualifier : String} :
    (∃ entry ∈ handWritten e.attributes, entry.1 = qualifier) ↔ e.DeclaresByHand qualifier := by
  have hkey (key : String) :
      (Text.after? "xmlns:".toList key.toList).map String.ofList = some qualifier ↔
        key = "xmlns:" ++ qualifier := by
    constructor
    · intro h
      obtain ⟨rest, hrest, rfl⟩ := Option.map_eq_some_iff.1 h
      have heq := Text.eq_append_of_after? hrest
      apply String.toList_inj.1
      simp [heq]
    · rintro rfl
      simp [Text.after?]
  simp only [handWritten, List.mem_filterMap]
  constructor
  · rintro ⟨entry, ⟨⟨key, value⟩, hattr, hentry⟩, rfl⟩
    obtain ⟨rest, hrest, rfl⟩ := Option.map_eq_some_iff.1 hentry
    exact ⟨(key, value), hattr, (hkey key).1 (by rw [hrest]; rfl)⟩
  · rintro ⟨⟨key, value⟩, hattr, heq⟩
    obtain ⟨rest, hrest, hname⟩ := Option.map_eq_some_iff.1 ((hkey key).2 heq)
    exact ⟨(qualifier, value), ⟨(key, value), hattr, by rw [hrest, ← hname]; rfl⟩, rfl⟩

/-- Inside of an element a scope knows what is bound there. -/
theorem Scope.Covers.within (h : scope.Covers aliases outer)
    (hadded : e.neededDeclarations (scope.enter e) = .ok added) :
    ((scope.enter e).within added e).Covers aliases (e :: outer) where
  aliases := by
    intro qualifier
    have hlookup : ((scope.enter e).within added e).lookup qualifier =
        (scope.enter e).lookup qualifier := rfl
    rw [hlookup, Scope.isSome_lookup_enter, h.aliases, List.exists_mem_cons_iff]
    exact or_left_comm
  inForce := by
    intro qualifier hnone
    have hnone : (scope.enter e).lookup qualifier = none := hnone
    have houter : scope.lookup qualifier = none := by
      rw [← Option.not_isSome_iff_eq_none, Scope.isSome_lookup_enter, not_or] at hnone
      exact Option.not_isSome_iff_eq_none.1 hnone.2
    have hnew : ¬∃ entry ∈ added, entry.1 = qualifier := by
      rintro ⟨entry, hentry, rfl⟩
      rw [lookup_of_mem_neededDeclarations hadded hentry] at hnone
      cases hnone
    have hinForce := h.inForce qualifier houter
    simp only [Scope.declared?, Option.isSome_map, List.find?_isSome, beq_iff_eq] at hinForce ⊢
    have hsplit : (∃ entry ∈ ((scope.enter e).within added e).inForce, entry.1 = qualifier) ↔
        (∃ entry ∈ handWritten e.attributes, entry.1 = qualifier) ∨
          (∃ entry ∈ added, entry.1 = qualifier) ∨
            ∃ entry ∈ scope.inForce, entry.1 = qualifier := by
      simp [Scope.within, Scope.enter, or_and_right, exists_or]
    rw [hsplit, hinForce, exists_mem_handWritten_iff, List.exists_mem_cons_iff]
    simp only [hnew, false_or]

/-! ## Writing -/

mutual

/-- Writing an element ends with the first thing that is wrong with it or inside of it. -/
theorem pieces_ends {scope : Scope} {aliases : OrderedMap String String} :
    ∀ {outer : List DraftElement} (e : DraftElement), scope.Covers aliases outer →
      EndsWith (e.pieces scope) ((e.sites outer).findSome? (Site.fault? aliases))
  | outer, mk name own attributes declared children value, h => by
    have hadded := neededDeclarations_ends h (mk name own attributes declared children value)
    have hmixed : (value.isSome && !children.isEmpty) = true ↔
        (mk name own attributes declared children value).IsMixed := by
      simp [IsMixed, DraftElement.value, DraftElement.children]
    rw [pieces, sites, findSome?_cons_eq_or, Site.fault?]
    simp only [hmixed]
    by_cases hsingle : (mk name own attributes declared children value).IsMixed
    · rw [if_pos hsingle, if_pos hsingle]
      exact .error _
    · rw [if_neg hsingle, if_neg hsingle]
      refine hadded.bind fun added hok => ?_
      cases value with
      | some text =>
        obtain rfl : children = [] := by
          simpa [IsMixed, DraftElement.value, DraftElement.children] using hsingle
        cases text <;> exact .ok _
      | none =>
        cases children with
        | nil => exact .ok _
        | cons child rest => exact (piecesIn_ends (child :: rest) (h.within hok)).bind_ok

theorem piecesIn_ends {scope : Scope} {aliases : OrderedMap String String} :
    ∀ {outer : List DraftElement} (elements : List DraftElement), scope.Covers aliases outer →
      EndsWith (piecesIn scope elements) ((sitesIn outer elements).findSome? (Site.fault? aliases))
  | outer, [], h => .ok []
  | outer, e :: rest, h => by
    rw [piecesIn, sitesIn, List.findSome?_append]
    exact (pieces_ends e h).bind fun first _ => (piecesIn_ends rest h).bind_ok

end

end DraftElement

/-! ## Whole drafts -/

namespace Draft

open DraftElement (Site)

/-- What a draft is refused for: the number of its elements at the top, or what is wrong with the
first element in document order that cannot be written. -/
inductive Refused (draft : Draft) : BuildError → Prop where
  | none : draft.elements = [] → Refused draft .noDocumentElement
  | several : 2 ≤ draft.elements.length → Refused draft .multipleDocumentElements
  | element {root : DraftElement} {before after : List Site} {site : Site} {error : BuildError} :
      draft.elements = [root] → root.sites [] = before ++ site :: after →
      (∀ earlier ∈ before, earlier.Sound draft.aliases) → site.Offends draft.aliases error →
      Refused draft error

/-- At the top only the aliases of the draft are known. -/
theorem covers_nil (aliases : OrderedMap String String) :
    DraftElement.Scope.Covers ⟨[aliases], []⟩ aliases [] where
  aliases := by
    intro qualifier
    rw [DraftElement.Scope.lookup, List.findSome?_singleton]
    simp
  inForce := by
    intro qualifier _
    simp [DraftElement.Scope.declared?]

/-- A draft is written exactly if it has one element at the top and every element can be written
where it stands, and it is refused for nothing else. -/
theorem toXml_outcome (draft : Draft) :
    ((∃ text, draft.toXml = .ok text) ↔
      ∃ root, draft.elements = [root] ∧ ∀ site ∈ root.sites [], site.Sound draft.aliases) ∧
    ∀ error, draft.toXml = .error error ↔ draft.Refused error := by
  obtain ⟨aliases, elements⟩ := draft
  match elements with
  | [] =>
    refine ⟨⟨?_, ?_⟩, fun error => ⟨?_, ?_⟩⟩
    · rintro ⟨text, h⟩
      cases h
    · rintro ⟨root, h, -⟩
      cases h
    · intro h
      cases h
      exact .none rfl
    · intro h
      cases h with
      | none => rfl
      | several h => simp at h
      | element h => cases h
  | [root] =>
    have hends : EndsWith (Draft.toXml ⟨aliases, [root]⟩)
        ((root.sites []).findSome? (Site.fault? aliases)) :=
      (DraftElement.pieces_ends root (covers_nil aliases)).bind_ok
    refine ⟨?_, fun error => ?_⟩
    · rw [hends.eq_ok_iff, List.findSome?_eq_none_iff]
      simp only [Site.fault?_eq_none_iff]
      constructor
      · intro h
        exact ⟨root, rfl, h⟩
      · rintro ⟨_, ⟨⟩, h⟩
        exact h
    · rw [hends.eq_error_iff, List.findSome?_eq_some_iff]
      simp only [Site.fault?_eq_none_iff, Site.fault?_eq_some_iff]
      constructor
      · rintro ⟨before, site, after, hsites, hsite, hbefore⟩
        exact .element rfl hsites hbefore hsite
      · intro h
        cases h with
        | none h => cases h
        | several h => simp at h
        | element hroot hsites hbefore hsite =>
          cases hroot
          exact ⟨_, _, _, hsites, hsite, hbefore⟩
  | first :: second :: rest =>
    refine ⟨⟨?_, ?_⟩, fun error => ⟨?_, ?_⟩⟩
    · rintro ⟨text, h⟩
      cases h
    · rintro ⟨root, h, -⟩
      cases h
    · intro h
      cases h
      exact .several (by simp)
    · intro h
      cases h with
      | none h => cases h
      | several => rfl
      | element h => cases h

/-- The alias of a finished sibling, and a declaration by hand inside of it, bind nothing. -/
example : Draft.toXml ⟨⟨[]⟩, [.mk ⟨none, "r"⟩ ⟨[]⟩ [] []
    [.mk ⟨some "p", "a"⟩ ⟨[("p", "u")]⟩ [("xmlns:q", "v")] ["q"] [] none,
      .mk ⟨none, "b"⟩ ⟨[]⟩ [("q:k", "")] ["p"] [] none] none]⟩ = .error (.unregistered "p") := by
  rfl

end Draft

end SoapKit.Xml
