import Mathlib.Data.Set.Finite.Basic
import Mathlib.Logic.Relation
import Mathlib.Order.WellFounded
import SoapKit.Proofs.Client.AttributeUses
import SoapKit.Proofs.Client.Levels
import SoapKit.Proofs.OrderedMap

/-!
# Walks over definitions

The fields of a record are found on walks over definitions: from simple types to the types that they
are made of, from complex types to their base types, and from groups of attributes to the groups in
them. What is found on a walk that is followed to its end is said here without a limit (`HasType`,
`AllElements`, and `TypeDeclares` for some number of levels).

A walk that fits into the limit ends there (`hasType_typeWithin`, `allElements_of_levelsWithin`,
`exists_typeDeclares`). Where no definition leads back to itself, every walk has an end
(`exists_nameFits`, `exists_typeFits`).
-/

namespace SoapKit.Client

open Relation (TransGen)
open Wsdl (QName Definitions Attribute AttributeGroup ComplexType TypeDefinition)

variable {defs : Definitions} {k k' : Nat} {name : QName}

/-! ## Types of values -/

/-- The type that the values of a simple type are made of. -/
def source? : TypeDefinition → Option QName
  | .simple type => some type.base
  | .list type => some type.item
  | .union _ | .complex _ => none

/-- The values of a named type are made of those of another one. -/
def MadeOf (defs : Definitions) (name next : QName) : Prop :=
  name.uri ≠ some Soap.schemaNamespace ∧
    ∃ definition, defs.types.get? name = some definition ∧ source? definition = some next

theorem MadeOf.unique {next next' : QName} (h : MadeOf defs name next)
    (h' : MadeOf defs name next') : next = next' := by
  obtain ⟨-, definition, hget, hnext⟩ := h
  obtain ⟨-, definition', hget', hnext'⟩ := h'
  cases hget.symm.trans hget'
  exact Option.some.inj (hnext.symm.trans hnext')

/-- The name at which the walk to the type of values starts. A definition in place counts only where
no type is named. -/
def firstName? : Option QName → Option TypeDefinition → Option QName
  | some name, _ => some name
  | none, definition => definition.bind source?

/-- No more than a number of steps lead from the type of a name to what its values are made of. -/
def NameFits (defs : Definitions) : Nat → QName → Prop
  | 0, name => ∀ next, ¬ MadeOf defs name next
  | k + 1, name => ∀ next, MadeOf defs name next → NameFits defs k next

mutual

/-- The type of the values of a named type, which is followed as far as there are definitions. -/
inductive HasType (defs : Definitions) : QName → ValueType → Prop where
  | builtIn {name : QName} : name.uri = some Soap.schemaNamespace →
      HasType defs name (builtInType name.base)
  | defined {name : QName} {definition : TypeDefinition} {type : ValueType} :
      name.uri ≠ some Soap.schemaNamespace → defs.types.get? name = some definition →
      HasDefinedType defs definition type → HasType defs name type
  | unknown {name : QName} : name.uri ≠ some Soap.schemaNamespace → defs.types.get? name = none →
      HasType defs name .text

/-- The type of the values of a defined type. -/
inductive HasDefinedType (defs : Definitions) : TypeDefinition → ValueType → Prop where
  | simple {type : Wsdl.SimpleType} {value : ValueType} : HasType defs type.base value →
      HasDefinedType defs (.simple type) value
  | list {type : Wsdl.ListType} {item : ValueType} : HasType defs type.item item →
      HasDefinedType defs (.list type) (.list item)
  | union {type : Wsdl.UnionType} : HasDefinedType defs (.union type) .text
  | complex {type : ComplexType} : HasDefinedType defs (.complex type) .text

end

/-- The type of values with an optional type name and an optional definition in place. -/
inductive HasDeclaredType (defs : Definitions) : Option QName → Option TypeDefinition → ValueType →
    Prop where
  | named {name : QName} {definition : Option TypeDefinition} {type : ValueType} :
      HasType defs name type → HasDeclaredType defs (some name) definition type
  | defined {definition : TypeDefinition} {type : ValueType} :
      HasDefinedType defs definition type → HasDeclaredType defs none (some definition) type
  | any : HasDeclaredType defs none none .text

theorem hasDefinedType_definedType {definition : TypeDefinition} {named : QName → ValueType}
    (h : ∀ next ∈ source? definition, HasType defs next (named next)) :
    HasDefinedType defs definition (definedType named definition) := by
  cases definition with
  | simple type => exact .simple (h _ rfl)
  | list type => exact .list (h _ rfl)
  | union type => exact .union
  | complex type => exact .complex

/-- A walk that is not cut finds the type of the values. -/
theorem hasType_typeWithin (h : NameFits defs k name) :
    HasType defs name (typeWithin defs k name) := by
  induction k generalizing name with
  | zero =>
    unfold typeWithin
    split
    · next hbuiltIn => exact .builtIn hbuiltIn
    · next hbuiltIn =>
      cases hget : defs.types.get? name with
      | none => exact .unknown hbuiltIn hget
      | some definition =>
        have hend : source? definition = none :=
          Option.eq_none_iff_forall_ne_some.2 fun next hnext =>
            h next ⟨hbuiltIn, definition, hget, hnext⟩
        have htext : ValueType.text = definedType (typeWithin defs 0) definition := by
          cases definition with
          | simple type | list type => cases hend
          | union type | complex type => rfl
        rw [htext]
        exact .defined hbuiltIn hget (hasDefinedType_definedType (by simp [hend]))
  | succ k ih =>
    unfold typeWithin
    split
    · next hbuiltIn => exact .builtIn hbuiltIn
    · next hbuiltIn =>
      cases hget : defs.types.get? name with
      | none => exact .unknown hbuiltIn hget
      | some definition =>
        exact .defined hbuiltIn hget (hasDefinedType_definedType fun next hnext =>
          ih (h next ⟨hbuiltIn, definition, hget, hnext⟩))

theorem hasDeclaredType_declaredType {typeName : Option QName} {definition : Option TypeDefinition}
    (h : ∀ name ∈ firstName? typeName definition, NameFits defs levelLimit name) :
    HasDeclaredType defs typeName definition (declaredType defs typeName definition) := by
  cases typeName with
  | some name => exact .named (hasType_typeWithin (h name rfl))
  | none =>
    cases definition with
    | none => exact .any
    | some definition =>
      exact .defined (hasDefinedType_definedType fun next hnext =>
        hasType_typeWithin (h next hnext))

/-! ## Elements -/

/-- The elements of a type: those of the type that it extends, however many types that one extends
in turn, and its own. -/
inductive AllElements (defs : Definitions) (owner : QName) : ComplexType → List Wsdl.Element → Prop
  where
  | first {type : ComplexType} {own : List Wsdl.Element} : extended? defs type = none →
      ownElements owner type = .ok own → AllElements defs owner type own
  | next {type : ComplexType} {base : Record} {inherited own : List Wsdl.Element} :
      extended? defs type = some base → AllElements defs owner base.type inherited →
      ownElements owner type = .ok own → AllElements defs owner type (inherited ++ own)

theorem allElements_of_levelsWithin {owner : QName} {type : ComplexType}
    {elements : List Wsdl.Element} (h : LevelsWithin defs k type)
    (helements : elementsWithin defs owner k type = .ok elements) :
    AllElements defs owner type elements := by
  induction k generalizing type elements with
  | zero => cases h
  | succ k ih =>
    rw [elementsWithin_succ] at helements
    obtain ⟨inherited, hinherited, helements⟩ := bind_eq_ok.1 helements
    obtain ⟨own, hown, helements⟩ := bind_eq_ok.1 helements
    cases helements
    rw [inheritedElements] at hinherited
    cases hbase : extended? defs type with
    | none =>
      rw [hbase] at hinherited
      cases hinherited
      exact .first hbase hown
    | some base =>
      rw [hbase] at hinherited
      exact .next hbase (ih (h base hbase) hinherited) hown

/-! ## Attributes -/

/-- There are no more than a number of levels of groups in a group of attributes. -/
def GroupFits (defs : Definitions) : Nat → AttributeGroup → Prop
  | 0, _ => False
  | levels + 1, group => ∀ meant, IsMeant defs group meant →
      ∀ nested ∈ meant.groups, GroupFits defs levels nested

/-- The type that a type is derived from. -/
def base? (defs : Definitions) (type : ComplexType) : Option ComplexType :=
  type.derivation.bind fun derivation => defs.complexType? derivation.base

/-- There are no more than a number of levels of base types and groups above a type. -/
def TypeFits (defs : Definitions) : Nat → ComplexType → Prop
  | 0, _ => False
  | levels + 1, type => (∀ base ∈ base? defs type, TypeFits defs levels base) ∧
      ∀ group ∈ type.attributeGroups, GroupFits defs levels group

theorem exists_lists_of_foldlM {α β ε σ : Type} {f : σ → α → Except ε σ} {R : α → List β → Prop}
    {xs : List α} (hstep : ∀ x ∈ xs, ∀ s s', f s x = .ok s' → ∃ ys, R x ys) {s s' : σ}
    (h : xs.foldlM f s = .ok s') : ∃ lists, List.Forall₂ R xs lists := by
  induction xs generalizing s with
  | nil => exact ⟨[], .nil⟩
  | cons x rest ih =>
    rw [List.foldlM_cons] at h
    obtain ⟨next, hnext, h⟩ := bind_eq_ok.1 h
    obtain ⟨ys, hys⟩ := hstep x List.mem_cons_self _ _ hnext
    obtain ⟨lists, hlists⟩ := ih (fun y hy => hstep y (List.mem_cons_of_mem x hy)) h
    exact ⟨ys :: lists, .cons hys hlists⟩

theorem isMeant_of_resolveGroup {group meant : AttributeGroup}
    (h : resolveGroup defs group = .ok meant) : IsMeant defs group meant := by
  unfold resolveGroup at h
  unfold IsMeant
  split at h
  · next hreference =>
    rw [if_pos hreference]
    split at h
    · next declared hget =>
      cases h
      exact hget
    · cases h
  · next hplain =>
    rw [if_neg hplain]
    cases h
    rfl

theorem exists_groupDeclares {group : AttributeGroup} {uses uses' : AttributeUses}
    (hfits : GroupFits defs k group) (h : addGroup defs k uses group = .ok uses') :
    ∃ declarations, GroupDeclares defs k group declarations := by
  induction k generalizing group uses uses' with
  | zero => cases hfits
  | succ k ih =>
    obtain ⟨meant, hmeant, h⟩ := bind_eq_ok.1 h
    obtain ⟨inner, hinner, h⟩ := bind_eq_ok.1 h
    replace hmeant := isMeant_of_resolveGroup hmeant
    obtain ⟨nested, hnested⟩ := exists_lists_of_foldlM
      (fun nested hnested _ _ h => ih (hfits meant hmeant nested hnested) h) hinner
    exact ⟨_, meant, nested, hmeant, hnested, rfl⟩

theorem addAttributes_succ (defs : Definitions) (levels : Nat) (uses : AttributeUses)
    (type : ComplexType) : addAttributes defs (levels + 1) uses type = (do
      let uses ← match base? defs type with
        | some base => addAttributes defs levels uses base
        | none => .ok uses
      let uses ← type.attributeGroups.foldlM (addGroup defs levels) uses
      type.attributes.foldlM (addAttribute defs) uses) := by
  rw [addAttributes, base?]
  cases type.derivation.bind fun derivation => defs.complexType? derivation.base <;> rfl

/-- A walk that is not cut meets all that a type declares about attributes. -/
theorem exists_typeDeclares {type : ComplexType} {uses uses' : AttributeUses}
    (hfits : TypeFits defs k type) (h : addAttributes defs k uses type = .ok uses') :
    ∃ declarations, TypeDeclares defs k type declarations := by
  induction k generalizing type uses uses' with
  | zero => cases hfits
  | succ k ih =>
    obtain ⟨hbases, hgroups⟩ := hfits
    rw [addAttributes_succ] at h
    have hrest {uses : AttributeUses} (h : (do
        let uses ← type.attributeGroups.foldlM (addGroup defs k) uses
        type.attributes.foldlM (addAttribute defs) uses) = .ok uses') :
        ∃ groups, List.Forall₂ (GroupDeclares defs k) type.attributeGroups groups := by
      obtain ⟨inner, hinner, -⟩ := bind_eq_ok.1 h
      exact exists_lists_of_foldlM
        (fun group hgroup _ _ h => exists_groupDeclares (hgroups group hgroup) h) hinner
    cases hbase : base? defs type with
    | none =>
      rw [hbase] at h
      obtain ⟨groups, hgroups⟩ := hrest h
      refine ⟨_, [], groups, ?_, hgroups, rfl⟩
      rw [base?] at hbase
      rw [hbase]
    | some base =>
      rw [hbase] at h
      obtain ⟨inherited, hinherited, h⟩ := bind_eq_ok.1 h
      obtain ⟨declarations, hdeclarations⟩ := ih (hbases base hbase) hinherited
      obtain ⟨groups, hgroups⟩ := hrest h
      refine ⟨_, declarations, groups, ?_, hgroups, rfl⟩
      rw [base?] at hbase
      rwa [hbase]

/-- The type that a type extends is one of those that it is derived from. -/
theorem base?_of_extended? {type : ComplexType} {base : Record}
    (h : extended? defs type = some base) : base? defs type = some base.type := by
  obtain ⟨derivation, hderivation, hbase⟩ := Option.bind_eq_some_iff.1 h
  obtain ⟨type', htype, rfl⟩ := Option.map_eq_some_iff.1 hbase
  have hsame := (Option.filter_eq_some_iff.1 hderivation).1
  rw [base?, hsame, Option.bind_some, htype]

theorem TypeFits.levelsWithin {type : ComplexType} (h : TypeFits defs k type) :
    LevelsWithin defs k type := by
  induction k generalizing type with
  | zero => cases h
  | succ k ih => exact fun base hbase => ih (h.1 base.type (base?_of_extended? hbase))

/-! ## Definitions without circles -/

theorem NameFits.mono (h : NameFits defs k name) (hk : k ≤ k') : NameFits defs k' name := by
  induction k generalizing name k' with
  | zero =>
    cases k' with
    | zero => exact h
    | succ k' => exact fun next hnext => absurd hnext (h next)
  | succ k ih =>
    cases k' with
    | zero => omega
    | succ k' => exact fun next hnext => ih (h next hnext) (by omega)

theorem GroupFits.mono {group : AttributeGroup} (h : GroupFits defs k group) (hk : k ≤ k') :
    GroupFits defs k' group := by
  induction k generalizing group k' with
  | zero => cases h
  | succ k ih =>
    cases k' with
    | zero => omega
    | succ k' =>
      exact fun meant hmeant nested hnested => ih (h meant hmeant nested hnested) (by omega)

theorem TypeFits.mono {type : ComplexType} (h : TypeFits defs k type) (hk : k ≤ k') :
    TypeFits defs k' type := by
  induction k generalizing type k' with
  | zero => cases h
  | succ k ih =>
    cases k' with
    | zero => omega
    | succ k' =>
      exact ⟨fun base hbase => ih (h.1 base hbase) (by omega),
        fun group hgroup => (h.2 group hgroup).mono (by omega)⟩

/-- A bound for all members of a list. -/
theorem exists_bound {α : Type} {P : Nat → α → Prop} (hmono : ∀ {k k' a}, P k a → k ≤ k' → P k' a)
    {xs : List α} (h : ∀ a ∈ xs, ∃ k, P k a) : ∃ k, ∀ a ∈ xs, P k a := by
  induction xs with
  | nil => exact ⟨0, by simp⟩
  | cons x rest ih =>
    obtain ⟨⟨k, hk⟩, hrest⟩ := List.forall_mem_cons.1 h
    obtain ⟨k', hk'⟩ := ih hrest
    refine ⟨max k k', List.forall_mem_cons.2 ⟨hmono hk (le_max_left k k'), fun a ha => ?_⟩⟩
    exact hmono (hk' a ha) (le_max_right k k')

/-- A relation that leads nowhere but from finitely many places, and from none back to itself, comes
to an end. -/
theorem wellFounded_of_acyclic {α : Type} {R : α → α → Prop} {places : List α}
    (hplaces : ∀ {a b}, R a b → a ∈ places) (h : ∀ a, ¬ TransGen R a a) :
    WellFounded (flip R) := by
  have hfinite : Finite {a // a ∈ places} := (List.finite_toSet places).to_subtype
  let inside : {a // a ∈ places} → {a // a ∈ places} → Prop := fun a b => TransGen R b.1 a.1
  have htrans : IsTrans _ inside := ⟨fun a b c hab hbc => hbc.trans hab⟩
  have hirrefl : Std.Irrefl inside := ⟨fun a ha => h a.1 ha⟩
  have hwf : WellFounded inside := Finite.wellFounded_of_trans_of_irrefl inside
  have hacc : ∀ a : {a // a ∈ places}, Acc (flip R) a.1 := by
    intro a
    induction a using hwf.induction with
    | _ a ih =>
      refine .intro _ fun b hab => ?_
      by_cases hb : b ∈ places
      · exact ih ⟨b, hb⟩ (.single hab)
      · exact .intro _ fun c hbc => absurd (hplaces hbc) hb
  refine ⟨fun a => .intro _ fun b hab => ?_⟩
  by_cases hb : b ∈ places
  · exact hacc ⟨b, hb⟩
  · exact .intro _ fun c hbc => absurd (hplaces hbc) hb

/-- A name stands in a group of attributes as the name of another group, at any depth. -/
inductive Mentions : AttributeGroup → QName → Prop where
  | reference {group : AttributeGroup} : group.isReference = true → Mentions group group.name
  | nested {group nested : AttributeGroup} {name : QName} : group.isReference = false →
      nested ∈ group.groups → Mentions nested name → Mentions group name

/-- A complex type is derived from another one. -/
def DerivedFrom (defs : Definitions) (name next : QName) : Prop :=
  ∃ type, defs.complexType? name = some type ∧
    ∃ derivation ∈ type.derivation, derivation.base = next

/-- A group of attributes has another one in it. -/
def HasGroup (defs : Definitions) (name next : QName) : Prop :=
  ∃ declared, defs.attributeGroups.get? name = some declared ∧
    ∃ nested ∈ declared.groups, Mentions nested next

/-- No simple type, base type or group of attributes leads back to itself. -/
structure Acyclic (defs : Definitions) : Prop where
  types : ∀ name, ¬ TransGen (MadeOf defs) name name
  bases : ∀ name, ¬ TransGen (DerivedFrom defs) name name
  groups : ∀ name, ¬ TransGen (HasGroup defs) name name

namespace Acyclic

theorem exists_nameFits (h : Acyclic defs) : ∃ k, ∀ name, NameFits defs k name := by
  have hplaces : ∀ {name next}, MadeOf defs name next → name ∈ defs.types.keys :=
    fun ⟨_, _, hget, _⟩ => OrderedMap.mem_keys_of_get? hget
  have hwf := wellFounded_of_acyclic hplaces h.types
  have heach : ∀ name, ∃ k, NameFits defs k name := by
    intro name
    induction name using hwf.induction with
    | _ name ih =>
      by_cases hnext : ∃ next, MadeOf defs name next
      · obtain ⟨next, hnext⟩ := hnext
        obtain ⟨k, hk⟩ := ih next hnext
        refine ⟨k + 1, fun next' hnext' => ?_⟩
        obtain rfl : next = next' := hnext.unique hnext'
        exact hk
      · exact ⟨0, not_exists.1 hnext⟩
  obtain ⟨k, hk⟩ := exists_bound (P := NameFits defs) NameFits.mono
    fun name (_ : name ∈ defs.types.keys) => heach name
  refine ⟨k, fun name => ?_⟩
  by_cases hname : name ∈ defs.types.keys
  · exact hk name hname
  · exact NameFits.mono (k := 0) (fun next hnext => hname (hplaces hnext)) (Nat.zero_le k)

/-- Groups that mention only groups that come to an end do so, too. -/
theorem exists_groupFits_of_mentions (group : AttributeGroup)
    (h : ∀ name, Mentions group name → ∀ declared, defs.attributeGroups.get? name = some declared →
      ∃ k, ∀ nested ∈ declared.groups, GroupFits defs k nested) :
    ∃ k, GroupFits defs k group := by
  cases hreference : group.isReference with
  | true =>
    cases hget : defs.attributeGroups.get? group.name with
    | none =>
      refine ⟨1, fun meant hmeant => ?_⟩
      rw [IsMeant, if_pos hreference, hget] at hmeant
      cases hmeant
    | some declared =>
      obtain ⟨k, hk⟩ := h _ (.reference hreference) declared hget
      refine ⟨k + 1, fun meant hmeant => ?_⟩
      rw [IsMeant, if_pos hreference, hget] at hmeant
      cases hmeant
      exact hk
  | false =>
    have heach : ∀ nested ∈ group.groups, ∃ k, GroupFits defs k nested := by
      intro nested hnested
      exact exists_groupFits_of_mentions nested fun name hname =>
        h name (.nested hreference hnested hname)
    obtain ⟨k, hk⟩ := exists_bound (P := GroupFits defs) GroupFits.mono heach
    refine ⟨k + 1, fun meant hmeant => ?_⟩
    rw [IsMeant, if_neg (by simp [hreference])] at hmeant
    subst hmeant
    exact hk
termination_by sizeOf group
decreasing_by
  have := List.sizeOf_lt_of_mem hnested
  cases group
  simp at this ⊢
  omega

theorem exists_groupFits (h : Acyclic defs) (group : AttributeGroup) :
    ∃ k, GroupFits defs k group := by
  have hplaces : ∀ {name next}, HasGroup defs name next → name ∈ defs.attributeGroups.keys :=
    fun ⟨_, hget, _⟩ => OrderedMap.mem_keys_of_get? hget
  have hwf := wellFounded_of_acyclic hplaces h.groups
  have hdeclared : ∀ name declared, defs.attributeGroups.get? name = some declared →
      ∃ k, ∀ nested ∈ declared.groups, GroupFits defs k nested := by
    intro name
    induction name using hwf.induction with
    | _ name ih =>
      intro declared hget
      refine exists_bound (P := GroupFits defs) GroupFits.mono fun nested hnested => ?_
      exact exists_groupFits_of_mentions nested fun next hnext =>
        ih next ⟨declared, hget, nested, hnested, hnext⟩
  exact exists_groupFits_of_mentions group fun name _ => hdeclared name

theorem exists_typeFits (h : Acyclic defs) (type : ComplexType) : ∃ k, TypeFits defs k type := by
  have hplaces : ∀ {name next}, DerivedFrom defs name next → name ∈ defs.types.keys := by
    rintro name next ⟨type, htype, -⟩
    rw [Definitions.complexType?] at htype
    split at htype
    · next hget => exact OrderedMap.mem_keys_of_get? hget
    · cases htype
  have hwf := wellFounded_of_acyclic hplaces h.bases
  have hstep (type : ComplexType) (hbase : ∀ base ∈ base? defs type, ∃ k, TypeFits defs k base) :
      ∃ k, TypeFits defs k type := by
    obtain ⟨k, hk⟩ := exists_bound (P := GroupFits defs) GroupFits.mono
      fun group (_ : group ∈ type.attributeGroups) => h.exists_groupFits group
    obtain ⟨k', hk'⟩ := exists_bound (P := TypeFits defs) TypeFits.mono
      fun base (hmem : base ∈ (base? defs type).toList) => hbase base (Option.mem_toList.1 hmem)
    refine ⟨max k k' + 1, fun base hmem => ?_, fun group hgroup => ?_⟩
    · exact (hk' base (Option.mem_toList.2 hmem)).mono (le_max_right k k')
    · exact (hk group hgroup).mono (le_max_left k k')
  have hnamed : ∀ name type, defs.complexType? name = some type → ∃ k, TypeFits defs k type := by
    intro name
    induction name using hwf.induction with
    | _ name ih =>
      refine fun type htype => hstep type fun base hbase => ?_
      obtain ⟨derivation, hderivation, hbase⟩ := Option.bind_eq_some_iff.1 hbase
      exact ih derivation.base ⟨type, htype, derivation, hderivation, rfl⟩ base hbase
  refine hstep type fun base hbase => ?_
  obtain ⟨derivation, -, hbase⟩ := Option.bind_eq_some_iff.1 hbase
  exact hnamed derivation.base base hbase

end Acyclic

end SoapKit.Client
