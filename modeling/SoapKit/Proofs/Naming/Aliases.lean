import Mathlib.Data.List.Forall2
import Mathlib.Data.List.Infix
import SoapKit.Naming.Aliases
import SoapKit.Proofs.Except
import SoapKit.Proofs.Naming.Fresh

/-!
# What qualifiers mean

Names are written with the qualifiers of their namespaces, and these are given out while names are
being written. What was written before stays right nevertheless: a qualifier that is given out is
added to the table of all of them (`Widens`), in which no qualifier and no namespace is there twice
(`Unambiguous`), and a text that spells a name by a table does so by every wider one
(`Spelled.mono`). In the end one table spells all that was written (`Aliases.spellAll_widens`).
-/

namespace SoapKit.Naming

open Wsdl (QName)

/-! ## Tables -/

/-- In a table of qualifiers with their namespaces, none of them is there twice, and no qualifier is
one that envelopes use themselves. -/
structure Unambiguous (table : List (String × String)) : Prop where
  qualifiers : (table.map Prod.fst).Nodup
  uris : (table.map Prod.snd).Nodup
  free : ∀ qualifier ∈ table.map Prod.fst, qualifier ∉ Aliases.reserved

theorem unambiguous_nil : Unambiguous [] where
  qualifiers := List.nodup_nil
  uris := List.nodup_nil
  free := by simp

theorem Unambiguous.concat {table : List (String × String)} (h : Unambiguous table)
    {qualifier uri : String} (hqualifier : qualifier ∉ table.map Prod.fst)
    (huri : uri ∉ table.map Prod.snd) (hfree : qualifier ∉ Aliases.reserved) :
    Unambiguous (table ++ [(qualifier, uri)]) where
  qualifiers := by
    rw [List.map_append, List.map_singleton, ← List.concat_eq_append, List.nodup_concat]
    exact ⟨hqualifier, h.qualifiers⟩
  uris := by
    rw [List.map_append, List.map_singleton, ← List.concat_eq_append, List.nodup_concat]
    exact ⟨huri, h.uris⟩
  free := by
    intro other hother
    rw [List.map_append, List.mem_append] at hother
    rcases hother with hother | hother
    · exact h.free other hother
    · rw [List.mem_singleton.1 hother]
      exact hfree

/-- A qualifier is there for one namespace only. -/
theorem Unambiguous.filter_eq {table : List (String × String)} (h : Unambiguous table)
    {qualifier uri : String} (hmem : (qualifier, uri) ∈ table) :
    table.filter (·.1 == qualifier) = [(qualifier, uri)] := by
  have hsame : ∀ pair ∈ table, (pair.1 == qualifier) = (pair == (qualifier, uri)) := by
    intro pair hpair
    rw [Bool.eq_iff_iff, beq_iff_eq, beq_iff_eq]
    constructor
    · intro heq
      exact List.inj_on_of_nodup_map h.qualifiers hpair hmem heq
    · rintro rfl
      rfl
  rw [List.filter_congr hsame, List.filter_beq,
    List.count_eq_one_of_mem h.qualifiers.of_map hmem, List.replicate_one]

namespace Aliases

variable {aliases aliases' aliases'' : Aliases} {uri : String}

theorem map_fst_toList (aliases : Aliases) :
    aliases.toList.map Prod.fst = aliases.chosen.values := by
  simp [toList, OrderedMap.values, Function.comp_def]

theorem map_snd_toList (aliases : Aliases) : aliases.toList.map Prod.snd = aliases.chosen.keys := by
  simp [toList, OrderedMap.keys, Function.comp_def]

/-- Qualifiers were given to some more namespaces. -/
structure Widens (aliases aliases' : Aliases) : Prop where
  table : aliases.toList <+: aliases'.toList
  unambiguous : Unambiguous aliases.toList → Unambiguous aliases'.toList

namespace Widens

protected theorem rfl : Widens aliases aliases where
  table := List.prefix_rfl
  unambiguous := id

theorem trans (h : Widens aliases aliases') (h' : Widens aliases' aliases'') :
    Widens aliases aliases'' where
  table := h.table.trans h'.table
  unambiguous := h'.unambiguous ∘ h.unambiguous

end Widens

/-! ## Choosing a qualifier -/

theorem isTaken_eq_false_iff {qualifier : String} :
    aliases.isTaken qualifier = false ↔
      qualifier ∉ reserved ∧ qualifier ∉ aliases.toList.map Prod.fst := by
  rw [map_fst_toList]
  simp [isTaken]

theorem numbered_injective : Function.Injective numbered := by
  intro i j h
  have hlist := congrArg String.toList h
  simp only [numbered, String.toList_append, List.append_cancel_left_eq] at hlist
  exact toString_injective (String.toList_inj.1 hlist)

theorem numbered_not_mem_reserved (number : Nat) : numbered number ∉ reserved := by
  have hinitial : (numbered number).toList.head? = some 'a' := by
    simp [numbered, String.toList_append]
  intro h
  simp only [reserved, List.mem_cons, List.not_mem_nil, or_false] at h
  rcases h with h | h | h
  all_goals
    rw [h] at hinitial
    exact absurd hinitial (by decide)

theorem firstFree_eq_seek (aliases : Aliases) (steps number : Nat) :
    aliases.firstFree steps number =
      seek (fun number => aliases.isTaken (numbered number)) steps (number + 1) := by
  induction steps generalizing number with
  | zero => rfl
  | succ steps ih => rw [firstFree, seek, ih]

/-- The search for a numbered qualifier finds the first one that is free. -/
theorem firstFree_isLeast (aliases : Aliases) :
    IsLeast {number | aliases.generated < number ∧ aliases.isTaken (numbered number) = false}
      (aliases.firstFree aliases.chosen.entries.length aliases.generated) := by
  obtain ⟨more, hmore, hfree⟩ :=
    exists_free numbered_injective (aliases.toList.map Prod.fst) (aliases.generated + 1)
  have hlength : (aliases.toList.map Prod.fst).length = aliases.chosen.entries.length := by
    simp [toList]
  rw [firstFree_eq_seek]
  exact seek_isLeast ⟨more, hlength ▸ hmore,
    isTaken_eq_false_iff.2 ⟨numbered_not_mem_reserved _, hfree⟩⟩

/-- A namespace that is new gets a qualifier that is free. -/
theorem exists_qualifier (hnew : aliases.chosen.get? uri = none) :
    ∃ qualifier, aliases.isTaken qualifier = false ∧ (aliases.qualifier uri).1 = qualifier ∧
      (aliases.qualifier uri).2.chosen = aliases.chosen.insert uri qualifier := by
  unfold qualifier
  rw [hnew]
  cases hfind : (aliases.candidates uri).find? fun candidate => !aliases.isTaken candidate with
  | some candidate =>
    have hfree := List.find?_some hfind
    exact ⟨candidate, by simpa using hfree, rfl, rfl⟩
  | none => exact ⟨_, (firstFree_isLeast aliases).1.2, rfl, rfl⟩

theorem contains_of_get?_eq_none (hnew : aliases.chosen.get? uri = none) :
    aliases.chosen.contains uri = false := by
  simpa [OrderedMap.get?, OrderedMap.contains] using hnew

theorem uri_not_mem_of_get?_eq_none (hnew : aliases.chosen.get? uri = none) :
    uri ∉ aliases.toList.map Prod.snd := by
  intro hmem
  rw [map_snd_toList] at hmem
  obtain ⟨entry, hentry, rfl⟩ := List.mem_map.1 hmem
  have hfind := List.find?_eq_none.1 (Option.map_eq_none_iff.1 hnew) entry hentry
  exact hfind (beq_self_eq_true entry.1)

theorem toList_of_insert {qualifier : String} (hnew : aliases.chosen.get? uri = none)
    (h : aliases'.chosen = aliases.chosen.insert uri qualifier) :
    aliases'.toList = aliases.toList ++ [(qualifier, uri)] := by
  rw [toList, toList, h, OrderedMap.insert, contains_of_get?_eq_none hnew]
  simp

theorem mem_toList_of_get? {qualifier : String} (h : aliases.chosen.get? uri = some qualifier) :
    (qualifier, uri) ∈ aliases.toList := by
  obtain ⟨entry, hfind, rfl⟩ := Option.map_eq_some_iff.1 h
  have huri : entry.1 = uri := by simpa using List.find?_some hfind
  exact List.mem_map.2 ⟨entry, List.mem_of_find?_eq_some hfind, by rw [← huri]⟩

/-- When the qualifier of a namespace is asked for, no other namespace gets one. -/
theorem uri_of_qualifier {other : String}
    (h : other ∈ (aliases.qualifier uri).2.toList.map Prod.snd) :
    other ∈ aliases.toList.map Prod.snd ∨ other = uri := by
  cases hget : aliases.chosen.get? uri with
  | some known =>
    have hknown : (aliases.qualifier uri).2 = aliases := by
      rw [qualifier, hget]
    rw [hknown] at h
    exact .inl h
  | none =>
    obtain ⟨chosen, -, -, hsnd⟩ := exists_qualifier hget
    rw [toList_of_insert hget hsnd, List.map_append, List.mem_append] at h
    exact h.imp id List.mem_singleton.1

/-- The qualifier of a namespace is in the table, and what was there is kept. -/
theorem qualifier_widens (aliases : Aliases) (uri : String) :
    aliases.Widens (aliases.qualifier uri).2 ∧
      ((aliases.qualifier uri).1, uri) ∈ (aliases.qualifier uri).2.toList := by
  cases hget : aliases.chosen.get? uri with
  | some known =>
    have hknown : aliases.qualifier uri = (known, aliases) := by
      rw [qualifier, hget]
    rw [hknown]
    exact ⟨.rfl, mem_toList_of_get? hget⟩
  | none =>
    obtain ⟨chosen, hfree, hfst, hsnd⟩ := exists_qualifier hget
    obtain ⟨hreserved, hunused⟩ := isTaken_eq_false_iff.1 hfree
    have htable := toList_of_insert hget hsnd
    refine ⟨⟨htable ▸ List.prefix_append .., fun h => ?_⟩, by simp [htable, hfst]⟩
    rw [htable]
    exact h.concat hunused (uri_not_mem_of_get?_eq_none hget) hreserved

end Aliases

/-! ## Spelling -/

/-- What a text in code stands for: itself, a name, or the namespace whose qualifier it is. -/
inductive NameUse where
  | text (text : String)
  | name (name : QName)
  | qualifier (uri : String)
  deriving Repr, DecidableEq

/-- The namespace whose qualifier a text shows. -/
def NameUse.uri? : NameUse → Option String
  | .text _ => none
  | .name ⟨uri, _⟩ => uri
  | .qualifier uri => some uri

/-- A text is what stands for a name, or for a namespace, by a table of qualifiers. -/
inductive Spelled (table : List (String × String)) : NameUse → String → Prop
  | text (text : String) : Spelled table (.text text) text
  | qualified {qualifier uri base : String} : (qualifier, uri) ∈ table →
      Spelled table (.name ⟨some uri, base⟩) (qualifier ++ ":" ++ base)
  | plain (base : String) : Spelled table (.name ⟨none, base⟩) base
  | qualifier {qualifier uri : String} : (qualifier, uri) ∈ table →
      Spelled table (.qualifier uri) qualifier

/-- Texts are what stands for several names. -/
abbrev SpelledAll (table : List (String × String)) : List NameUse → List String → Prop :=
  List.Forall₂ (Spelled table)

theorem Spelled.mono {table table' : List (String × String)} {use : NameUse} {text : String}
    (h : Spelled table use text) (htable : table <+: table') : Spelled table' use text := by
  cases h with
  | text => exact .text _
  | qualified hmem => exact .qualified (htable.mem hmem)
  | plain => exact .plain _
  | qualifier hmem => exact .qualifier (htable.mem hmem)

/-- What stands for a name has the qualifier of its namespace. -/
theorem Spelled.uri_mem {table : List (String × String)} {use : NameUse} {text uri : String}
    (h : Spelled table use text) (huri : use.uri? = some uri) : uri ∈ table.map Prod.snd := by
  cases h with
  | text | plain => cases huri
  | qualified hmem | qualifier hmem =>
    cases huri
    exact List.mem_map_of_mem hmem

theorem SpelledAll.mono {table table' : List (String × String)} {uses : List NameUse}
    {texts : List String} (h : SpelledAll table uses texts) (htable : table <+: table') :
    SpelledAll table' uses texts :=
  h.imp fun _ _ hspelled => hspelled.mono htable

/-- Names that are spelled have their namespaces in the table. -/
theorem SpelledAll.uri_mem {table : List (String × String)} {uses : List NameUse}
    {texts : List String} {uri : String} (h : SpelledAll table uses texts)
    (huri : uri ∈ uses.filterMap NameUse.uri?) : uri ∈ table.map Prod.snd := by
  obtain ⟨use, huse, heq⟩ := List.mem_filterMap.1 huri
  obtain ⟨text, -, hspelled⟩ := exists_mem_of_forall₂ h.flip huse
  exact hspelled.uri_mem heq

namespace Aliases

/-- The text for one use of a name. -/
def spell (aliases : Aliases) : NameUse → String × Aliases
  | .text text => (text, aliases)
  | .name name => aliases.xmlName name
  | .qualifier uri => aliases.qualifier uri

/-- The texts for several uses of names, one after the other. -/
def spellAll : Aliases → List NameUse → List String × Aliases
  | aliases, [] => ([], aliases)
  | aliases, use :: rest =>
    let (text, aliases) := aliases.spell use
    let (texts, aliases) := aliases.spellAll rest
    (text :: texts, aliases)

theorem spell_widens (aliases : Aliases) (use : NameUse) :
    aliases.Widens (aliases.spell use).2 ∧
      Spelled (aliases.spell use).2.toList use (aliases.spell use).1 := by
  cases use with
  | text text => exact ⟨.rfl, .text text⟩
  | qualifier uri =>
    obtain ⟨hwidens, hmem⟩ := aliases.qualifier_widens uri
    exact ⟨hwidens, .qualifier hmem⟩
  | name name =>
    obtain ⟨_ | uri, base⟩ := name
    · exact ⟨.rfl, .plain base⟩
    · obtain ⟨hwidens, hmem⟩ := aliases.qualifier_widens uri
      exact ⟨hwidens, .qualified hmem⟩

/-- To spell a name is to give a qualifier to its namespace only. -/
theorem uri_of_spell {aliases : Aliases} {use : NameUse} {uri : String}
    (h : uri ∈ (aliases.spell use).2.toList.map Prod.snd) :
    uri ∈ aliases.toList.map Prod.snd ∨ use.uri? = some uri := by
  cases use with
  | text text => exact .inl h
  | qualifier other => exact (uri_of_qualifier h).imp id fun heq => congrArg some heq.symm
  | name name =>
    obtain ⟨_ | other, base⟩ := name
    · exact .inl h
    · exact (uri_of_qualifier h).imp id fun heq => congrArg some heq.symm

theorem spellAll_widens (aliases : Aliases) (uses : List NameUse) :
    aliases.Widens (aliases.spellAll uses).2 ∧
      SpelledAll (aliases.spellAll uses).2.toList uses (aliases.spellAll uses).1 := by
  induction uses generalizing aliases with
  | nil => exact ⟨.rfl, .nil⟩
  | cons use rest ih =>
    obtain ⟨hwidens, hspelled⟩ := aliases.spell_widens use
    obtain ⟨hwidens', hall⟩ := ih (aliases.spell use).2
    exact ⟨hwidens.trans hwidens', .cons (hspelled.mono hwidens'.table) hall⟩

theorem spellAll_append (aliases : Aliases) (uses others : List NameUse) :
    (aliases.spellAll (uses ++ others)).2 =
      ((aliases.spellAll uses).2.spellAll others).2 := by
  induction uses generalizing aliases with
  | nil => rfl
  | cons use rest ih => exact ih (aliases.spell use).2

end Aliases

/-! ## Texts in place of names -/

/-- What is written in place of a name: the name, or a text that spells it. -/
inductive Settled (table : List (String × String)) : NameUse → NameUse → Prop
  | same (use : NameUse) : Settled table use use
  | spelled {use : NameUse} {text : String} : Spelled table use text →
      Settled table use (.text text)

theorem Settled.mono {table table' : List (String × String)} {use use' : NameUse}
    (h : Settled table use use') (htable : table <+: table') : Settled table' use use' := by
  cases h with
  | same => exact .same _
  | spelled hspelled => exact .spelled (hspelled.mono htable)

theorem Settled.spelledBy {table : List (String × String)} {use use' : NameUse} {text : String}
    (h : Settled table use use') (hspelled : Spelled table use' text) : Spelled table use text := by
  cases h with
  | same => exact hspelled
  | spelled h =>
    cases hspelled
    exact h

/-- A text in place of a name shows no namespace of its own. -/
theorem Settled.uri?_eq {table : List (String × String)} {use use' : NameUse} {uri : String}
    (h : Settled table use use') (huri : use'.uri? = some uri) : use.uri? = some uri := by
  cases h with
  | same => exact huri
  | spelled => cases huri

/-- What is written in place of several names. -/
abbrev SettledAll (table : List (String × String)) : List NameUse → List NameUse → Prop :=
  List.Forall₂ (Settled table)

theorem SettledAll.mono {table table' : List (String × String)} {uses uses' : List NameUse}
    (h : SettledAll table uses uses') (htable : table <+: table') :
    SettledAll table' uses uses' :=
  h.imp fun _ _ hsettled => hsettled.mono htable

theorem SettledAll.refl {table : List (String × String)} (uses : List NameUse) :
    SettledAll table uses uses :=
  List.forall₂_same.2 fun use _ => .same use

theorem SettledAll.spelledBy {table : List (String × String)} {uses uses' : List NameUse}
    {texts : List String} (h : SettledAll table uses uses')
    (hspelled : SpelledAll table uses' texts) :
    SpelledAll table uses texts := by
  induction h generalizing texts with
  | nil => exact hspelled
  | cons hsettled _ ih =>
    cases hspelled with
    | cons hfirst hrest => exact .cons (hsettled.spelledBy hfirst) (ih hrest)

end SoapKit.Naming
