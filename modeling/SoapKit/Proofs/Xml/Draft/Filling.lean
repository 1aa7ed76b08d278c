import SoapKit.Proofs.Xml.Draft.Declarations

/-!
# Elements that are filled

The actions that fill an element of a draft keep it well formed, provided that what they are given
is: names of name characters with at most one colon, keys that are no declarations, aliases with a
namespace for qualifiers other than `xml`. Actions that are put together from such actions keep it
as well (`Keeps.bind`), so every element that is filled from a blank one in this way is well formed.
-/

namespace SoapKit.Xml

/-! ## What actions keep -/

/-- An action leads from states with a property to states with this property. -/
def Keeps {σ α : Type} (P : σ → Prop) (act : StateM σ α) : Prop :=
  ∀ s, P s → P (act s).2

section Keeps

variable {σ α β : Type} {P : σ → Prop}

theorem keeps_pure (a : α) : Keeps P (pure a) := by
  intro s hs
  exact hs

theorem Keeps.bind {act : StateM σ α} {next : α → StateM σ β} (hact : Keeps P act)
    (hnext : ∀ a, Keeps P (next a)) : Keeps P (act >>= next) := by
  intro s hs
  exact hnext _ _ (hact s hs)

theorem keeps_modify {f : σ → σ} (h : ∀ s, P s → P (f s)) : Keeps P (modify f) := by
  intro s hs
  exact h s hs

end Keeps

/-! ## Names and aliases -/

/-- A name that may be written for a new element: of one or two parts, the first of which may be an
asterisk. -/
structure IsWrittenName (written : String) : Prop where
  qualifier : ∀ qualifier, (Name.parse written).qualifier = some qualifier →
    qualifier = "*" ∨ IsNcName qualifier
  base : IsNcName (Name.parse written).base

instance (written : String) : Decidable (IsWrittenName written) :=
  decidable_of_iff ((∀ qualifier ∈ (Name.parse written).qualifier,
      qualifier = "*" ∨ IsNcName qualifier) ∧ IsNcName (Name.parse written).base)
    ⟨fun h => ⟨h.1, h.2⟩, fun h => ⟨h.qualifier, h.base⟩⟩

theorem IsWrittenName.wellFormed_childName {written : String} (h : IsWrittenName written)
    {parent : Option String} (hparent : ∀ qualifier, parent = some qualifier → IsNcName qualifier) :
    (DraftElement.childName parent written).WellFormed := by
  unfold DraftElement.childName
  by_cases hstar : (Name.parse written).qualifier = some "*"
  · simp only [hstar, if_true]
    exact ⟨hparent, h.base⟩
  · simp only [hstar, if_false]
    refine ⟨fun qualifier hqualifier => ?_, h.base⟩
    refine (h.qualifier qualifier hqualifier).resolve_left ?_
    intro heq
    exact hstar (heq ▸ hqualifier)

/-- No name has an asterisk, so a well-formed name is taken as it is written. -/
theorem DraftElement.childName_text {name : Name} (h : name.WellFormed) (parent : Option String) :
    childName parent name.text = name := by
  have hstar : name.qualifier ≠ some "*" := by
    intro hqualifier
    have hasterisk := h.qualifier _ hqualifier
    revert hasterisk
    decide +kernel
  rw [childName, h.parse_text]
  exact if_neg hstar

theorem IsAliases.insert {aliases : OrderedMap String String} (h : IsAliases aliases)
    {qualifier uri : String} (hqualifier : qualifier ≠ "xml") (huri : uri ≠ "") :
    IsAliases (aliases.insert qualifier uri) := by
  unfold OrderedMap.insert
  by_cases hknown : aliases.contains qualifier = true
  · rw [if_pos hknown]
    intro entry hentry
    obtain ⟨old, hold, rfl⟩ := List.mem_map.1 hentry
    by_cases hkey : (old.1 == qualifier) = true
    · rw [if_pos hkey]
      exact ⟨(h old hold).1, huri⟩
    · rw [if_neg hkey]
      exact h old hold
  · rw [if_neg hknown]
    intro entry hentry
    rcases List.mem_append.1 hentry with hentry | hentry
    · exact h entry hentry
    · rw [List.mem_singleton.1 hentry]
      exact ⟨hqualifier, huri⟩

theorem IsAliases.foldl_insert {aliases : OrderedMap String String} (h : IsAliases aliases)
    {entries : List (String × String)}
    (hentries : ∀ entry ∈ entries, entry.1 ≠ "xml" ∧ entry.2 ≠ "") :
    IsAliases (entries.foldl (fun m entry => m.insert entry.1 entry.2) aliases) := by
  induction entries generalizing aliases with
  | nil => exact h
  | cons entry rest ih =>
    rw [List.forall_mem_cons] at hentries
    exact ih (h.insert hentries.1.1 hentries.1.2) hentries.2

theorem nodup_keys_insert {m : OrderedMap String String} (h : m.keys.Nodup) (key value : String) :
    (m.insert key value).keys.Nodup := by
  rw [OrderedMap.keys_insert]
  by_cases hknown : m.contains key = true
  · rw [if_pos hknown]
    exact h
  · rw [if_neg hknown]
    refine h.append (List.nodup_singleton key) ?_
    intro k hk hkey
    rw [List.mem_singleton.1 hkey] at hk
    obtain ⟨entry, hentry, heq⟩ := List.mem_map.1 hk
    refine hknown ?_
    simp only [OrderedMap.contains, List.any_eq_true, beq_iff_eq]
    exact ⟨entry, hentry, heq⟩

/-! ## Elements -/

namespace DraftElement

theorem wellFormed_blank {name : Name} (h : name.WellFormed) : (blank name).WellFormed := by
  refine .mk h ?_ ?_ ?_ ?_ ?_ ?_ <;> simp [IsAliases, OrderedMap.empty]

theorem keeps_alias {qualifier uri : String} (hqualifier : qualifier ≠ "xml") (huri : uri ≠ "") :
    Keeps WellFormed (DraftElement.alias qualifier uri) := by
  refine keeps_modify ?_
  intro e he
  cases he with
  | mk hname haliases hattributes hnodup hdeclared hvalue hchildren =>
    exact .mk hname (haliases.insert hqualifier huri) hattributes hnodup hdeclared hvalue hchildren

theorem keeps_declare {qualifier : String} (hqualifier : IsNcName qualifier) :
    Keeps WellFormed (declare qualifier) := by
  refine keeps_modify ?_
  intro e he
  cases he with
  | @mk _ _ _ declared _ _ hname haliases hattributes hnodup hdeclared hvalue hchildren =>
    refine .mk hname haliases hattributes hnodup ?_ hvalue hchildren
    by_cases hknown : declared.contains qualifier = true
    · rw [if_pos hknown]
      exact hdeclared
    · rw [if_neg hknown]
      intro other hother
      rcases List.mem_append.1 hother with hother | hother
      · exact hdeclared other hother
      · rw [List.mem_singleton.1 hother]
        exact hqualifier

theorem keeps_setValue (v : Value) : Keeps WellFormed (setValue v) := by
  refine keeps_modify ?_
  intro e he
  cases he with
  | mk hname haliases hattributes hnodup hdeclared hvalue hchildren =>
    refine .mk hname haliases hattributes hnodup hdeclared ?_ hchildren
    intro markup
    cases v.lexical? <;> simp

theorem keeps_setAttribute {key : String} (hkey : (Name.parse key).WellFormed)
    (hplain : declaredBy key = none) (v : Value) : Keeps WellFormed (setAttribute key v) := by
  refine keeps_modify ?_
  intro e he
  cases he with
  | @mk _ _ attributes _ _ _ hname haliases hattributes hnodup hdeclared hvalue hchildren =>
    cases v.lexical? with
    | none => exact .mk hname haliases hattributes hnodup hdeclared hvalue hchildren
    | some text =>
      refine .mk hname haliases ?_ (nodup_keys_insert (m := ⟨attributes⟩) hnodup key text)
        hdeclared hvalue hchildren
      intro attr hattr
      rcases OrderedMap.mem_keys_insert.1 (List.mem_map_of_mem hattr) with hold | hnew
      · obtain ⟨old, hold, heq⟩ := List.mem_map.1 hold
        exact heq ▸ hattributes old hold
      · rw [hnew]
        exact ⟨hkey, hplain⟩

theorem keeps_add {α : Type} {written : String} {fill : StateM DraftElement α}
    (hwritten : IsWrittenName written) (hfill : Keeps WellFormed fill) :
    Keeps WellFormed (add written fill) := by
  intro e he
  cases he with
  | mk hname haliases hattributes hnodup hdeclared hvalue hchildren =>
    refine .mk hname haliases hattributes hnodup hdeclared hvalue ?_
    intro child hchild
    rcases List.mem_append.1 hchild with hchild | hchild
    · exact hchildren child hchild
    · rw [List.mem_singleton.1 hchild]
      exact hfill _ (wellFormed_blank (hwritten.wellFormed_childName hname.qualifier))

end DraftElement

end SoapKit.Xml
