import Mathlib.Data.List.Forall2
import Mathlib.Data.List.Induction
import SoapKit.Client.Content
import SoapKit.Proofs.Except

/-!
# Attributes in effect

What a type declares about attributes comes from its base types, from groups, and from itself
(`TypeDeclares`). A declaration takes the place of an earlier one with the same key, and a
prohibited one takes it away; what is left is in effect (`inEffect`). One more declaration changes
that as it changes a map in insertion order (`inEffect_concat`), and so the attributes that are put
together for a type are those in effect (`attributesOf_eq_ok`).

The key is the name of a declaration, which has the namespace of the schema that it stands in. In
documents an attribute has a namespace only if it is written as a reference (`wireName`).
-/

namespace SoapKit.Client

open Wsdl (QName Definitions Attribute AttributeGroup ComplexType)

/-! ## Declarations in effect -/

section InEffect

variable {κ : Type} [DecidableEq κ]

/-- The last of some declarations and those behind it that have the same key. -/
def lastDeclared (key : Attribute → κ) (first : Attribute) (rest : List Attribute) : Attribute :=
  (rest.filter (key · = key first)).getLast?.getD first

/-- The declarations that are in effect after all of them: a prohibited one takes away what was
declared before with its key, and of the others the last with a key stands in the place of the
first. -/
def inEffect (key : Attribute → κ) : List Attribute → List Attribute
  | [] => []
  | first :: rest =>
    if (first :: rest).any fun later => key later = key first ∧ later.usage = .prohibited then
      inEffect key rest
    else lastDeclared key first rest :: (inEffect key rest).filter (key · ≠ key first)

variable {key : Attribute → κ}

theorem lastDeclared_mem (key : Attribute → κ) (first : Attribute) (rest : List Attribute) :
    lastDeclared key first rest ∈ first :: rest := by
  unfold lastDeclared
  cases h : (rest.filter (key · = key first)).getLast? with
  | none => exact List.mem_cons_self
  | some last =>
    exact List.mem_cons_of_mem _ (List.mem_filter.1 (List.mem_of_getLast? h)).1

theorem key_lastDeclared (key : Attribute → κ) (first : Attribute) (rest : List Attribute) :
    key (lastDeclared key first rest) = key first := by
  unfold lastDeclared
  cases h : (rest.filter (key · = key first)).getLast? with
  | none => rfl
  | some last => simpa using (List.mem_filter.1 (List.mem_of_getLast? h)).2

theorem lastDeclared_concat (key : Attribute → κ) (first : Attribute) (rest : List Attribute)
    (last : Attribute) : lastDeclared key first (rest ++ [last]) =
      if key last = key first then last else lastDeclared key first rest := by
  unfold lastDeclared
  rw [List.filter_append]
  by_cases h : key last = key first
  · simp [h]
  · simp [h]

theorem inEffect_subset (key : Attribute → κ) (declarations : List Attribute) :
    inEffect key declarations ⊆ declarations := by
  induction declarations with
  | nil => exact List.Subset.refl _
  | cons first rest ih =>
    rw [inEffect]
    split
    · exact List.subset_cons_of_subset _ ih
    · refine List.cons_subset.2 ⟨lastDeclared_mem key first rest, ?_⟩
      exact fun a ha => List.mem_cons_of_mem _ (ih (List.mem_of_mem_filter ha))

/-- No two declarations in effect have the same key. -/
theorem nodup_inEffect (key : Attribute → κ) (declarations : List Attribute) :
    ((inEffect key declarations).map key).Nodup := by
  induction declarations with
  | nil => exact List.nodup_nil
  | cons first rest ih =>
    rw [inEffect]
    split
    · exact ih
    · rw [List.map_cons, key_lastDeclared key, List.nodup_cons]
      refine ⟨?_, ih.sublist (List.filter_sublist.map key)⟩
      simp

/-- What is in effect is a matter of which keys are the same. -/
theorem inEffect_congr {κ' : Type} [DecidableEq κ'] {key' : Attribute → κ'}
    {declarations : List Attribute}
    (h : ∀ a ∈ declarations, ∀ b ∈ declarations, key a = key b ↔ key' a = key' b) :
    inEffect key declarations = inEffect key' declarations := by
  induction declarations with
  | nil => rfl
  | cons first rest ih =>
    have hrest := ih fun a ha b hb => h a (List.mem_cons_of_mem _ ha) b (List.mem_cons_of_mem _ hb)
    have hfirst : ∀ a ∈ first :: rest, key a = key first ↔ key' a = key' first :=
      fun a ha => h a ha first List.mem_cons_self
    have hlast : lastDeclared key first rest = lastDeclared key' first rest := by
      unfold lastDeclared
      congr 2
      exact List.filter_congr fun a ha => by simp [hfirst a (List.mem_cons_of_mem _ ha)]
    have hany : ((first :: rest).any fun later =>
        key later = key first ∧ later.usage = .prohibited) =
        (first :: rest).any fun later => key' later = key' first ∧ later.usage = .prohibited := by
      rw [Bool.eq_iff_iff, List.any_eq_true, List.any_eq_true]
      exact exists_congr fun a => and_congr_right fun ha => by simp [hfirst a ha]
    rw [inEffect, inEffect, hany, hlast, hrest]
    congr 2
    exact List.filter_congr fun a ha => by
      simp [hfirst a (List.mem_cons_of_mem _ (inEffect_subset key' rest ha))]

/-- Declarations with one more, which stands in the place of another one with its key. -/
def declare (key : Attribute → κ) (declarations : List Attribute) (last : Attribute) :
    List Attribute :=
  if key last ∈ declarations.map key then
    declarations.map fun a => if key a = key last then last else a
  else declarations ++ [last]

theorem map_replace_eq_self {declarations : List Attribute} {last : Attribute}
    (h : ∀ a ∈ declarations, key a ≠ key last) :
    declarations.map (fun a => if key a = key last then last else a) = declarations :=
  (List.map_congr_left fun a ha => if_neg (h a ha)).trans (List.map_id _)

theorem filter_declare (declarations : List Attribute) (last : Attribute) (k : κ) :
    (declare key declarations last).filter (key · ≠ k) =
      if key last = k then declarations.filter (key · ≠ k)
      else declare key (declarations.filter (key · ≠ k)) last := by
  unfold declare
  by_cases hin : key last ∈ declarations.map key
  · have hkept : ∀ a, key (if key a = key last then last else a) = key a := by
      intro a
      split <;> simp [*]
    rw [if_pos hin, List.filter_map]
    simp only [Function.comp_def, hkept]
    split
    · next hsame =>
      exact map_replace_eq_self fun a ha => hsame ▸ of_decide_eq_true (List.mem_filter.1 ha).2
    · next hne =>
      obtain ⟨a, ha, heq⟩ := List.mem_map.1 hin
      have hmem : key last ∈ (declarations.filter (key · ≠ k)).map key :=
        List.mem_map.2 ⟨a, List.mem_filter.2 ⟨ha, by simpa [heq] using hne⟩, heq⟩
      rw [if_pos hmem]
  · have hnone : key last ∉ (declarations.filter (key · ≠ k)).map key :=
      fun hmem => hin (List.map_subset key (List.filter_subset_self declarations) hmem)
    rw [if_neg hin, if_neg hnone, List.filter_append]
    split <;> simp [*]

theorem declare_cons {first : Attribute} {rest : List Attribute} (last : Attribute)
    (h : key first ∉ rest.map key) :
    declare key (first :: rest) last =
      if key last = key first then last :: rest else first :: declare key rest last := by
  unfold declare
  simp only [List.map_cons, List.mem_cons]
  by_cases hsame : key last = key first
  · rw [if_pos (.inl hsame), if_pos hsame, if_pos hsame.symm]
    congr 1
    exact map_replace_eq_self fun a ha heq => h (hsame ▸ heq ▸ List.mem_map_of_mem ha)
  · rw [if_neg hsame]
    by_cases hin : key last ∈ rest.map key
    · rw [if_pos (.inr hin), if_pos hin, if_neg (Ne.symm hsame)]
    · rw [if_neg (not_or.2 ⟨hsame, hin⟩), if_neg hin, List.cons_append]

/-- One more declaration takes effect. -/
theorem inEffect_concat (key : Attribute → κ) (declarations : List Attribute) (last : Attribute) :
    inEffect key (declarations ++ [last]) =
      if last.usage = .prohibited then (inEffect key declarations).filter (key · ≠ key last)
      else declare key (inEffect key declarations) last := by
  induction declarations with
  | nil => by_cases h : last.usage = .prohibited <;> simp [inEffect, lastDeclared, declare, h]
  | cons first rest ih =>
    have hany : ((first :: (rest ++ [last])).any fun later =>
        key later = key first ∧ later.usage = .prohibited) =
        (((first :: rest).any fun later => key later = key first ∧ later.usage = .prohibited) ||
          decide (key last = key first ∧ last.usage = .prohibited)) := by
      rw [← List.cons_append, List.any_append]
      simp
    rw [List.cons_append, inEffect, inEffect, ih, lastDeclared_concat, hany]
    generalize ((first :: rest).any fun later =>
      key later = key first ∧ later.usage = .prohibited) = dropped
    generalize inEffect key rest = others
    have hkey := key_lastDeclared key first rest
    by_cases hprohibited : last.usage = .prohibited
    · by_cases hsame : key last = key first
      · cases dropped <;> simp [hprohibited, hsame, hkey]
      · have hother : key first ≠ key last := fun h => hsame h.symm
        cases dropped with
        | true => simp [hprohibited]
        | false => simp [hprohibited, hsame, hkey, hother, Bool.and_comm]
    · cases dropped with
      | true => simp [hprohibited]
      | false =>
        have hnone : key (lastDeclared key first rest) ∉
            (others.filter (key · ≠ key first)).map key := by
          simp [hkey]
        simp only [hprohibited, and_false, decide_false, Bool.or_false, Bool.false_eq_true,
          if_false, filter_declare, declare_cons _ hnone, hkey]
        split <;> rfl

end InEffect

/-! ## Collecting declarations -/

variable {defs : Definitions}

/-- The declaration that says what an attribute holds: a reference has the one that it refers to. -/
def declaration? (defs : Definitions) (a : Attribute) : Option Attribute :=
  if a.isReference then defs.attributes.get? a.name else some a

/-- An entry is that of an attribute in effect. -/
structure IsUse (defs : Definitions) (a : Attribute) (entry : QName × Attribute × Attribute) :
    Prop where
  name : entry.1 = a.name
  use : entry.2.1 = a
  declaration : declaration? defs a = some entry.2.2

theorem addAttribute_eq_ok {uses uses' : AttributeUses} {a : Attribute}
    (h : addAttribute defs uses a = .ok uses') :
    (a.usage = .prohibited ∧ uses' = uses.erase a.name) ∨
      (a.usage ≠ .prohibited ∧ ∃ declared, declaration? defs a = some declared ∧
        uses' = uses.insert a.name (a, declared)) := by
  unfold addAttribute at h
  unfold declaration?
  by_cases hprohibited : a.usage = .prohibited
  · rw [if_pos hprohibited] at h
    cases h
    exact .inl ⟨hprohibited, rfl⟩
  · rw [if_neg hprohibited] at h
    refine .inr ⟨hprohibited, ?_⟩
    by_cases hreference : a.isReference
    · rw [if_pos hreference] at h ⊢
      cases hdeclared : defs.attributes.get? a.name with
      | none =>
        simp only [hdeclared] at h
        cases h
      | some declared =>
        simp only [hdeclared] at h
        cases h
        exact ⟨declared, rfl, rfl⟩
    · rw [if_neg hreference] at h ⊢
      cases h
      exact ⟨a, rfl, rfl⟩

/-- What is put together from declarations is what is in effect after them. -/
theorem foldlM_addAttribute {declarations : List Attribute} {uses : AttributeUses}
    (h : declarations.foldlM (addAttribute defs) .empty = .ok uses) :
    List.Forall₂ (IsUse defs) (inEffect (·.name) declarations) uses.entries := by
  induction declarations using List.reverseRecOn generalizing uses with
  | nil =>
    cases h
    exact .nil
  | append_singleton declarations last ih =>
    rw [List.foldlM_append] at h
    obtain ⟨before, hbefore, hlast⟩ := bind_eq_ok.1 h
    obtain ⟨after, hafter, heq⟩ := bind_eq_ok.1 hlast
    cases heq
    have huses := ih hbefore
    have hkeys : before.keys = (inEffect (·.name) declarations).map (·.name) := by
      refine map_eq_of_forall₂ ?_ huses
      exact IsUse.name
    rw [inEffect_concat]
    rcases addAttribute_eq_ok hafter with ⟨hprohibited, rfl⟩ | ⟨hused, declared, hdeclared, rfl⟩
    · rw [if_pos hprohibited]
      refine List.rel_filter (fun a entry huse => ?_) huses
      simp [huse.name]
    · have hnew : IsUse defs last (last.name, last, declared) := ⟨rfl, rfl, hdeclared⟩
      rw [if_neg hused, declare, OrderedMap.insert, ← hkeys]
      by_cases hin : last.name ∈ before.keys
      · rw [if_pos hin, if_pos (OrderedMap.contains_iff.2 hin)]
        refine List.rel_map (fun a entry huse => ?_) huses
        simp only [beq_iff_eq, huse.name]
        split
        · next hsame => exact ⟨hsame, rfl, hdeclared⟩
        · exact huse
      · rw [if_neg hin, if_neg (fun hmem => hin (OrderedMap.contains_iff.1 hmem))]
        exact List.rel_append huses (.cons hnew .nil)

/-- A group is meant by itself or by a reference to it. -/
def IsMeant (defs : Definitions) (group meant : AttributeGroup) : Prop :=
  if group.isReference then defs.attributeGroups.get? group.name = some meant else meant = group

/-- What a group declares that has at most a number of levels of groups: what the groups in it do,
then its own attributes. -/
def GroupDeclares (defs : Definitions) : Nat → AttributeGroup → List Attribute → Prop
  | 0, _, _ => False
  | levels + 1, group, declarations =>
    ∃ meant nested, IsMeant defs group meant ∧
      List.Forall₂ (GroupDeclares defs levels) meant.groups nested ∧
      declarations = nested.flatten ++ meant.attributes

/-- What a type declares that has at most a number of levels of base types and groups: what its base
type does, then what its groups do, then its own attributes. -/
def TypeDeclares (defs : Definitions) : Nat → ComplexType → List Attribute → Prop
  | 0, _, _ => False
  | levels + 1, type, declarations =>
    ∃ inherited groups,
      (match type.derivation.bind fun derivation => defs.complexType? derivation.base with
        | some base => TypeDeclares defs levels base inherited
        | none => inherited = []) ∧
      List.Forall₂ (GroupDeclares defs levels) type.attributeGroups groups ∧
      declarations = inherited ++ (groups.flatten ++ type.attributes)

theorem foldlM_flatten {α β ε σ : Type} {f : σ → α → Except ε σ} {g : σ → β → Except ε σ}
    {R : α → List β → Prop} {xs : List α} {lists : List (List β)} (h : List.Forall₂ R xs lists)
    (hstep : ∀ x ys s, R x ys → f s x = ys.foldlM g s) (s : σ) :
    xs.foldlM f s = lists.flatten.foldlM g s := by
  induction h generalizing s with
  | nil => rfl
  | cons hfirst _ ih =>
    rw [List.foldlM_cons, List.flatten_cons, List.foldlM_append, hstep _ _ s hfirst]
    exact bind_congr ih

theorem IsMeant.resolveGroup_eq {group meant : AttributeGroup} (h : IsMeant defs group meant) :
    resolveGroup defs group = .ok meant := by
  unfold IsMeant at h
  unfold resolveGroup
  split at h
  · next hreference => rw [if_pos hreference, h]
  · next hplain => rw [if_neg hplain, h]

theorem GroupDeclares.addGroup_eq {levels : Nat} {group : AttributeGroup}
    {declarations : List Attribute} (h : GroupDeclares defs levels group declarations)
    (uses : AttributeUses) :
    addGroup defs levels uses group = declarations.foldlM (addAttribute defs) uses := by
  induction levels generalizing group declarations uses with
  | zero => cases h
  | succ levels ih =>
    obtain ⟨meant, nested, hmeant, hnested, rfl⟩ := h
    have hlists : meant.groups.foldlM (addGroup defs levels) uses =
        nested.flatten.foldlM (addAttribute defs) uses :=
      foldlM_flatten hnested (fun _ _ uses h => ih h uses) uses
    rw [List.foldlM_append, ← hlists, addGroup, hmeant.resolveGroup_eq]
    rfl

theorem TypeDeclares.addAttributes_eq {levels : Nat} {type : ComplexType}
    {declarations : List Attribute} (h : TypeDeclares defs levels type declarations)
    (uses : AttributeUses) :
    addAttributes defs levels uses type = declarations.foldlM (addAttribute defs) uses := by
  induction levels generalizing type declarations uses with
  | zero => cases h
  | succ levels ih =>
    obtain ⟨inherited, groups, hinherited, hgroups, rfl⟩ := h
    have hlists : ∀ uses : AttributeUses, type.attributeGroups.foldlM (addGroup defs levels) uses =
        groups.flatten.foldlM (addAttribute defs) uses :=
      foldlM_flatten hgroups fun _ _ uses h => h.addGroup_eq uses
    rw [List.foldlM_append, addAttributes]
    simp only [hlists, List.foldlM_append]
    cases hbase : type.derivation.bind fun derivation => defs.complexType? derivation.base with
    | none =>
      simp only [hbase] at hinherited
      rw [hinherited]
      rfl
    | some base =>
      simp only [hbase] at hinherited
      rw [← ih hinherited uses]

/-- The attributes of a type are those that are in effect after what it declares. -/
theorem attributesOf_eq_ok {type : ComplexType} {declarations : List Attribute}
    {uses : AttributeUses} (h : TypeDeclares defs (levelLimit + 1) type declarations)
    (huses : attributesOf defs type = .ok uses) :
    List.Forall₂ (IsUse defs) (inEffect (·.name) declarations) uses.entries :=
  foldlM_addAttribute ((h.addAttributes_eq .empty).symm.trans huses)

/-! ## Names in documents -/

/-- The name that an attribute has in documents: a reference has that of the attribute that it
refers to, and any other is in no namespace. -/
def wireName (a : Attribute) : QName :=
  if a.isReference then a.name else ⟨none, a.name.base⟩

/-- The names of attributes tell them apart as their names in documents do. -/
def ToldApart (declarations : List Attribute) : Prop :=
  ∀ a ∈ declarations, ∀ b ∈ declarations, a.name = b.name ↔ wireName a = wireName b

instance (declarations : List Attribute) : Decidable (ToldApart declarations) :=
  inferInstanceAs (Decidable (∀ a ∈ declarations, ∀ b ∈ declarations,
    a.name = b.name ↔ wireName a = wireName b))

end SoapKit.Client
