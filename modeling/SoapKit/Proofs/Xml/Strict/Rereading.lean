import SoapKit.Proofs.Xml.Rereading
import SoapKit.Proofs.Xml.Strict.Reading

/-!
# Documents that the strict reader reads again

**Theorem (`Document.read_strict_toXml`).** A document that the strict reader made is read again
from its written form, and the two documents are alike: the same nodes with the same expanded names
and the same values, and the same namespaces in effect.

Written are qualifiers, not namespaces, so this holds as far as each name has a qualifier to find
its namespace by. Elements always have one (`Tag.IsCanonical`). An attribute may have lost its own
to the default namespace, which does not apply to attributes (`Document.Qualifies`), and then it is
in no namespace when it is read again (`Document.read_strict_toXml_differs`). The other conditions
are about declarations that are taken in another sense than they are meant
(`Strict.Event.DeclaresProperly`) and about blanks that are not written as references
(`Document.IsSteady`).

The proof goes over the pieces of the written form. A tag resolves again, in any scope in which the
same qualifiers are declared, and stays alike (`Tag.Rereads.enter`); by induction on the tree so
does everything below it (`Holds.reread`).
-/

namespace SoapKit.Xml

open SoapKit.Xml.Tree
open Declaration (lookup)
open Document (writtenAttributes)
open Strict (declared? Reading)

/-! ## Tags that can be read again -/

/-- Every attribute that is in a namespace has a qualifier. -/
def Tag.Qualifies (tag : Tag) : Prop :=
  ∀ attr ∈ tag.attributes, attr.uri.isSome → attr.name.qualifier.isSome

/-- The values in a tag have no blanks that would be normalized. -/
def Tag.IsSteady (tag : Tag) : Prop :=
  ∀ attr ∈ writtenAttributes tag.declarations tag, IsSteadyValue attr.2.toList

instance (tag : Tag) : Decidable tag.Qualifies :=
  inferInstanceAs (Decidable (∀ attr ∈ tag.attributes, _ → _))

instance (tag : Tag) : Decidable tag.IsSteady :=
  inferInstanceAs (Decidable (∀ attr ∈ writtenAttributes tag.declarations tag, _))

/-- A tag as the strict reader makes it, that can be written and read again inside of a scope. -/
structure Tag.Rereads (scope : List Declaration) (tag : Tag) : Prop
    extends tag.IsCanonical scope where
  qualifies : tag.Qualifies
  steady : tag.IsSteady

/-- The name of the attribute that a declaration is written as. -/
def Declaration.key (declaration : Declaration) : Name :=
  match declaration.qualifier with
  | some qualifier => ⟨some "xmlns", qualifier⟩
  | none => ⟨none, "xmlns"⟩

namespace Declaration.IsProper

variable {declaration : Declaration}

theorem isStrict_key (h : declaration.IsProper) : declaration.key.IsStrict := by
  have hxmlns : Strict.IsNamePart "xmlns" := by decide
  obtain ⟨qualifier, uri⟩ := declaration
  cases qualifier with
  | none => exact ⟨by simp [key], hxmlns⟩
  | some qualifier =>
    refine ⟨?_, h.part qualifier rfl⟩
    rintro _ ⟨⟩
    exact hxmlns

theorem parse_written (h : declaration.IsProper) :
    Name.parse declaration.written.1 = declaration.key := by
  have htext : declaration.written.1 = declaration.key.text := by
    obtain ⟨qualifier, uri⟩ := declaration
    cases qualifier with
    | none => rfl
    | some qualifier => simp [Declaration.written, key, Name.text]
  rw [htext, h.isStrict_key.wellFormed.parse_text]

end Declaration.IsProper

namespace Strict

theorem splitAttributes_of_plain {attributes : List (Name × String)}
    (h : ∀ attr ∈ attributes, attr.1.qualifier ≠ some "xmlns" ∧ attr.1.base ≠ "xmlns") :
    splitAttributes attributes = some ([], attributes) := by
  induction attributes with
  | nil => rfl
  | cons attr rest ih =>
    rw [List.forall_mem_cons] at h
    simp [splitAttributes, ih h.2, h.1.1, h.1.2]

/-- Written declarations are taken for what they are. -/
theorem splitAttributes_written {own : List Declaration} {attributes : List (Name × String)}
    (hown : ∀ declaration ∈ own, declaration.IsProper) (hnodup : (own.map (·.qualifier)).Nodup)
    (hplain : ∀ attr ∈ attributes, attr.1.qualifier ≠ some "xmlns" ∧ attr.1.base ≠ "xmlns") :
    splitAttributes ((own.map fun declaration => (declaration.key, declaration.uri)) ++
      attributes) = some (own, attributes) := by
  induction own with
  | nil => exact splitAttributes_of_plain hplain
  | cons declaration rest ih =>
    rw [List.forall_mem_cons] at hown
    rw [List.map_cons, List.nodup_cons] at hnodup
    rw [List.map_cons, List.cons_append, splitAttributes, ih hown.2 hnodup.2]
    obtain ⟨hxml, hxmlns⟩ := hown.1.uri
    have hnew : ∀ other ∈ rest, other.qualifier ≠ declaration.qualifier := fun other hother heq =>
      hnodup.1 (heq ▸ List.mem_map_of_mem hother)
    obtain ⟨qualifier, uri⟩ := declaration
    cases qualifier with
    | none => simp [Declaration.key, hxml, hxmlns]
    | some qualifier =>
      have hbase : qualifier ≠ "xml" := fun heq => hown.1.noXml (congrArg some heq)
      simp [Declaration.key, hxml, hxmlns, hbase]
      exact hnew

end Strict

theorem eq_of_rel_uriAlike {uri uri' : Option String} (h : Option.Rel (UriAlike id) uri uri') :
    uri = uri' := by
  cases h with
  | none => rfl
  | some h => exact congrArg some h.same

theorem eq_some_of_meantBy {uri : Option String} {found : String} (h : meantBy uri = some found) :
    uri = some found := by
  obtain ⟨uri, rfl, hfound⟩ := Option.bind_eq_some_iff.1 h
  split at hfound
  · cases hfound
  · exact hfound

/-- A qualifier that is bound where a name is looked up is declared where the strict reader looks
it up. -/
theorem exists_declared?_of_lookup {scope known : List Declaration} {qualifier : Option String}
    (hxml : qualifier ≠ some "xml") (hsame : declared? scope qualifier = declared? known qualifier)
    {uri : String} (h : lookup scope qualifier = some uri) :
    declared? known qualifier = some uri := by
  rw [lookup_eq hxml] at h
  rw [← hsame]
  exact eq_some_of_meantBy h

theorem attributeUri_eq {scope known : List Declaration}
    (hsame : ∀ qualifier, qualifier ≠ some "xml" →
      declared? scope qualifier = declared? known qualifier) {attr : Attribute}
    (h : attr.Resolved scope) : Strict.attributeUri known attr.name = some attr.uri := by
  have huri := h.uri
  have hbound := h.bound
  unfold Strict.attributeUri
  split
  · rename_i hnone
    rw [hnone] at huri
    rw [huri]
    rfl
  · rename_i hxml
    rw [hxml, Option.bind_some, lookup, if_pos rfl] at huri
    rw [huri]
  · rename_i qualifier hne hqualifier
    have hxml : some qualifier ≠ some "xml" := fun heq => hne (Option.some.inj heq)
    rw [hqualifier] at huri hbound
    obtain ⟨uri, hsome⟩ := Option.isSome_iff_exists.1 (hbound rfl)
    rw [hsome, Option.bind_some] at huri
    rw [exists_declared?_of_lookup hxml (hsame _ hxml) huri.symm, hsome]
    rfl

namespace Tag.Rereads

variable {tag : Tag} {scope own : List Declaration}

theorem attribute_resolved (h : tag.Rereads scope) {attr : Attribute}
    (hattr : attr ∈ tag.attributes) : attr.Resolved (tag.declarations ++ scope) :=
  (h.attributes attr hattr).resolved (h.qualifies attr hattr)

/-- Expanded names tell attributes apart, so their written names do. -/
theorem nodup_keys (h : tag.Rereads scope) : (tag.attributes.map (·.name.text)).Nodup := by
  refine List.Nodup.of_map (fun key => ((Name.parse key).base,
    (Name.parse key).qualifier.bind fun qualifier =>
      lookup (tag.declarations ++ scope) (some qualifier))) ?_
  rw [List.map_map]
  refine (List.map_congr_left fun attr hattr => ?_) ▸ h.distinct
  rw [Function.comp_apply, (h.attributes attr hattr).name.wellFormed.parse_text,
    (h.attribute_resolved hattr).uri]

theorem reads (h : tag.Rereads scope) : tag.Reads scope where
  parses := h.name.wellFormed.parse_text
  uri := h.uri
  bound := h.bound
  attributes attr hattr :=
    { h.attribute_resolved hattr with
      parses := (h.attributes attr hattr).name.wellFormed.parse_text
      plain := by
        obtain ⟨hqualifier, hbase⟩ := (h.attributes attr hattr).plain
        rw [declaredBy_eq, (h.attributes attr hattr).name.wellFormed.parse_text, Name.declares,
          if_neg hqualifier, if_neg]
        intro heq
        exact hbase (by rw [heq]) }
  keys := h.nodup_keys
  qualifiers := h.qualifiers

theorem legible (h : tag.Rereads scope) : tag.Legible scope :=
  ⟨h.reads, h.sorted⟩

theorem isNamed (h : tag.Rereads scope) : tag.IsNamed where
  element := h.name.wellFormed.isName_text
  attributes attr hattr := (h.attributes attr hattr).name.wellFormed.isName_text
  declarations declaration hdeclaration qualifier hqualifier :=
    ((h.declarations declaration hdeclaration).part qualifier hqualifier).isNcName.1.2

/-- All attributes of the written tag are read as they are written. -/
theorem isStrictAttribute (h : tag.Rereads scope) (hown : own.Perm tag.declarations) :
    ∀ attr ∈ writtenAttributes own tag, Piece.IsStrictAttribute attr := by
  intro attr hattr
  rcases List.mem_append.1 hattr with hmem | hmem
  · obtain ⟨declaration, hdeclaration, rfl⟩ := List.mem_map.1 hmem
    have hproper := h.declarations declaration (hown.mem_iff.1 hdeclaration)
    exact {
      name := by
        rw [hproper.parse_written]
        exact hproper.isStrict_key
      chars := hproper.chars
      steady := h.steady _ (List.mem_append_left _
        (List.mem_map_of_mem (hown.mem_iff.1 hdeclaration))) }
  · obtain ⟨attr, hwritten, rfl⟩ := List.mem_map.1 hmem
    have hcanonical := h.attributes attr hwritten
    exact {
      name := by
        rw [Attribute.written, hcanonical.name.wellFormed.parse_text]
        exact hcanonical.name
      chars := hcanonical.chars
      steady := h.steady _ (List.mem_append_right _ hmem) }

/-- The names of the written tag's attributes are what they were. -/
theorem map_parse_written (h : tag.Rereads scope) (hown : own.Perm tag.declarations) :
    (writtenAttributes own tag).map (fun attr => (Name.parse attr.1, attr.2)) =
      (own.map fun declaration => (declaration.key, declaration.uri)) ++
        tag.attributes.map fun attr => (attr.name, attr.value) := by
  rw [writtenAttributes, List.map_append, List.map_map, List.map_map]
  congr 1
  · refine List.map_congr_left fun declaration hdeclaration => ?_
    exact congrArg (·, declaration.uri)
      (h.declarations declaration (hown.mem_iff.1 hdeclaration)).parse_written
  · refine List.map_congr_left fun attr hattr => ?_
    exact congrArg (·, attr.value) (h.attributes attr hattr).name.wellFormed.parse_text

/-- The written tag resolves where the same qualifiers are declared. -/
theorem exists_resolveTag (h : tag.Rereads scope) (hown : own.Perm tag.declarations)
    {known written : List Declaration} (hscope : InScope id scope known written) :
    ∃ tag' known', Strict.resolveTag known tag.name
      ((writtenAttributes own tag).map fun attr => (Name.parse attr.1, attr.2)) =
        some (tag', known') := by
  have hnodup : (own.map (·.qualifier)).Nodup := (hown.map _).nodup_iff.2 h.qualifiers
  have hsame : ∀ qualifier, qualifier ≠ some "xml" →
      declared? (tag.declarations ++ scope) qualifier =
        declared? (Strict.scopeWithin own known) qualifier := by
    intro qualifier hxml
    rw [declared?_append, declared?_scopeWithin, declared?_perm hown h.qualifiers,
      eq_of_rel_uriAlike (hscope.same qualifier hxml)]
  obtain ⟨uri, huri⟩ :
      ∃ uri, Strict.elementUri (Strict.scopeWithin own known) tag.name = some uri := by
    unfold Strict.elementUri
    split
    · exact ⟨_, rfl⟩
    · rename_i qualifier hqualifier
      have hxml : some qualifier ≠ some "xml" := hqualifier ▸ h.plain.1
      obtain ⟨uri, hbound⟩ := Option.isSome_iff_exists.1 (h.bound (by rw [hqualifier]; rfl))
      have hlookup := h.uri.symm.trans hbound
      rw [hqualifier] at hlookup
      exact ⟨some uri, by rw [exists_declared?_of_lookup hxml (hsame _ hxml) hlookup]; rfl⟩
  rw [h.map_parse_written hown]
  refine ⟨_, _, resolveTag_eq_some_iff.2 ⟨own, _, tag.attributes.map (·.uri), uri,
    Strict.splitAttributes_written ?_ hnodup ?_, rfl, ?_, huri, h.plain.2, ?_, rfl⟩⟩
  · exact fun declaration hmem => h.declarations declaration (hown.mem_iff.1 hmem)
  · intro attr hattr
    obtain ⟨attr, hmem, rfl⟩ := List.mem_map.1 hattr
    exact (h.attributes attr hmem).plain
  · rw [List.forall₂_map_left_iff, List.forall₂_map_right_iff, List.forall₂_same]
    exact fun attr hattr => attributeUri_eq hsame (h.attribute_resolved hattr)
  · rw [List.zip_map', List.map_map]
    exact h.distinct

/-- A tag is read again as an alike one, and the same goes on to be known. -/
theorem enter (h : tag.Rereads scope) (hown : own.Perm tag.declarations)
    {known written : List Declaration} (hscope : InScope id scope known written) :
    ∃ tag' known', Strict.resolveTag known tag.name
        ((writtenAttributes own tag).map fun attr => (Name.parse attr.1, attr.2)) =
          some (tag', known') ∧ tag.Alike id tag' ∧
      InScope id (tag.declarations ++ scope) known' (tag'.sorted.declarations ++ written) := by
  obtain ⟨tag', known', hresolve⟩ := h.exists_resolveTag hown hscope
  have hreads : ({ tag with declarations := own } : Tag).Reads scope := h.reads.perm hown
  have hback : ({ tag with declarations := own } : Tag).sorted = tag :=
    (Tag.sorted_eq hown).trans h.sorted
  have htaken : List.Forall₂ (TakenAlike id) (writtenAttributes own tag)
      ((writtenAttributes own tag).map fun attr => (Name.parse attr.1, attr.2)) := by
    rw [List.forall₂_map_right_iff, List.forall₂_same]
    intro attr hattr
    have hspells := (h.isStrictAttribute hown attr hattr).name.spells
    rw [Name.text_parse] at hspells
    refine ⟨hspells, ⟨rfl, Iff.rfl⟩, fun hbase => ?_⟩
    have hmem : (Name.parse attr.1, attr.2) ∈
        (writtenAttributes own tag).map fun attr => (Name.parse attr.1, attr.2) :=
      List.mem_map_of_mem hattr
    rw [h.map_parse_written hown, List.mem_append] at hmem
    rcases hmem with hmem | hmem
    · obtain ⟨⟨qualifier, uri⟩, -, heq⟩ := List.mem_map.1 hmem
      rw [← (Prod.mk.inj heq).1]
      cases qualifier with
      | none => exact .inl rfl
      | some qualifier => exact .inr rfl
    · obtain ⟨other, hother, heq⟩ := List.mem_map.1 hmem
      rw [← (Prod.mk.inj heq).1] at hbase
      exact absurd hbase (h.attributes other hother).plain.2
  obtain ⟨halike, hwithin⟩ := hscope.enter h.name.spells htaken hreads.nodup_written
    hreads.resolved hresolve
  rw [hback] at hwithin
  exact ⟨tag', known', hresolve, ⟨halike.base, halike.uri, halike.attributes⟩, hwithin⟩

end Tag.Rereads

/-! ## Stepping through an element -/

namespace Strict

open Piece (event)

variable {a : Assembly} {frames : List Frame} {done : List Tree} {tag : Tag}
  {scope own : List Declaration} {opened : List (Name × List Declaration)}

/-- The written tag opens an alike one, in whose scope the same is declared. -/
theorem openTag_written (h : tag.Rereads scope) (hown : own.Perm tag.declarations)
    (hscope : InScope id scope ((opened.head?.map (·.2)).getD []) (Frame.scope frames))
    (ha : a.Shows frames done) (htop : frames = [] → done = []) :
    ∃ tag' known' a', resolveTag ((opened.head?.map (·.2)).getD []) (Name.parse tag.name.text)
        ((writtenAttributes own tag).map fun attr => (Name.parse attr.1, attr.2)) =
          some (tag', known') ∧ a.openTag tag' = .ok a' ∧
      a'.Shows (⟨tag'.sorted, done⟩ :: frames) [] ∧ tag.Alike id tag'.sorted ∧
      InScope id (tag.declarations ++ scope) known'
        (Frame.scope (⟨tag'.sorted, done⟩ :: frames)) := by
  obtain ⟨tag', known', hresolve, halike, hwithin⟩ := h.enter hown hscope
  rcases ha.openTag tag' with ⟨hframes, hdone, -⟩ | ⟨-, a', ha', hs⟩
  · exact absurd (htop hframes) hdone
  · rw [← Frame.scope_cons ⟨tag'.sorted, done⟩ frames] at hwithin
    rw [h.name.wellFormed.parse_text]
    exact ⟨tag', known', a', hresolve, ha', hs, ⟨halike.base, halike.uri, halike.attributes⟩,
      hwithin⟩

/-- An element without anything inside of it. -/
theorem foldlM_empty (h : tag.Rereads scope) (hown : own.Perm tag.declarations)
    (hscope : InScope id scope ((opened.head?.map (·.2)).getD []) (Frame.scope frames))
    (ha : a.Shows frames done) (htop : frames = [] → done = []) :
    ∃ b t', ([Piece.empty tag.name.text (writtenAttributes own tag)].map event).foldlM
        Reading.step ⟨a, opened⟩ = .ok ⟨b, opened⟩ ∧ b.Shows frames (done ++ [t']) ∧
      (Tree.element tag []).Alike id scope (Frame.scope frames) t' := by
  obtain ⟨tag', known', a', hresolve, ha', hs, halike, hwithin⟩ :=
    openTag_written h hown hscope ha htop
  obtain ⟨b, hb, hs'⟩ := hs.close tag'.name.base
  have hsame := hwithin.scopesAlike
  rw [Frame.scope_cons] at hsame
  refine ⟨b, _, ?_, hs', .element halike hsame .nil⟩
  rw [List.map_singleton, List.foldlM_cons, event, Reading.step]
  simp only [hresolve, ha']
  show ((a'.close tag'.name.base >>= _) >>= _) = _
  rw [hb]
  rfl

/-- An element, of whose inside it is known what it leads to. -/
theorem foldlM_enclosed (h : tag.Rereads scope) (hown : own.Perm tag.declarations)
    (hscope : InScope id scope ((opened.head?.map (·.2)).getD []) (Frame.scope frames))
    (ha : a.Shows frames done) (htop : frames = [] → done = []) {inside : List Piece}
    {children : List Tree}
    (hinside : ∀ {a₁ : Assembly} {frames₁ : List Frame} {opened₁ : List (Name × List Declaration)},
      a₁.Shows frames₁ [] → frames₁ ≠ [] →
      InScope id (tag.declarations ++ scope) ((opened₁.head?.map (·.2)).getD [])
        (Frame.scope frames₁) →
      ∃ b₁ children', (inside.map event).foldlM Reading.step ⟨a₁, opened₁⟩ =
          .ok ⟨b₁, opened₁⟩ ∧ b₁.Shows frames₁ children' ∧
        AlikeAll id (tag.declarations ++ scope) (Frame.scope frames₁) children children') :
    ∃ b t', ((Piece.opening tag.name.text (writtenAttributes own tag) :: inside ++
        [Piece.closing tag.name.text]).map event).foldlM Reading.step ⟨a, opened⟩ =
          .ok ⟨b, opened⟩ ∧ b.Shows frames (done ++ [t']) ∧
      (Tree.element tag children).Alike id scope (Frame.scope frames) t' := by
  obtain ⟨tag', known', a', hresolve, ha', hs, halike, hwithin⟩ :=
    openTag_written h hown hscope ha htop
  obtain ⟨b₁, children', hrun, hs₁, hchildren⟩ := @hinside a' (⟨tag'.sorted, done⟩ :: frames)
    ((Name.parse tag.name.text, known') :: opened) hs (List.cons_ne_nil _ _) hwithin
  obtain ⟨b, hb, hs'⟩ := hs₁.close (Name.parse tag.name.text).base
  have hsame := hwithin.scopesAlike
  rw [Frame.scope_cons] at hsame hchildren
  refine ⟨b, _, ?_, hs', .element halike hsame hchildren⟩
  have hopen : Reading.step ⟨a, opened⟩
      (event (.opening tag.name.text (writtenAttributes own tag))) =
        .ok ⟨a', (Name.parse tag.name.text, known') :: opened⟩ := by
    rw [event, Reading.step]
    simp only [hresolve, ha']
    rfl
  have hclose : Reading.step ⟨b₁, (Name.parse tag.name.text, known') :: opened⟩
      (event (.closing tag.name.text)) = .ok ⟨b, opened⟩ := by
    rw [event, Reading.step]
    simp only [if_true, hb]
    rfl
  rw [List.map_append, List.map_cons, List.cons_append, List.foldlM_cons, hopen]
  refine Eq.trans (List.foldlM_append ..) ?_
  rw [hrun]
  show [event (.closing tag.name.text)].foldlM Reading.step _ = _
  rw [List.foldlM_cons, hclose]
  rfl

end Strict

/-! ## Stepping through a tree -/

theorem Tree.Alike.isText_eq {t t' : Tree} {f : String → String} {scope scope' : List Declaration}
    (h : t.Alike f scope scope' t') : t'.isText = t.isText := by
  cases h <;> rfl

namespace Document

variable {d : Document}

mutual

/-- The pieces of a tree are read again as an alike one, behind what was there before. -/
theorem Holds.reread {parent place steps : Nat} {scope : List Declaration} :
    ∀ {t : Tree}, d.Holds parent place t → t.Tidy Tag.Rereads scope → t.size ≤ steps →
      ∀ {a : Assembly} {frames : List Frame} {done : List Tree}
        {opened : List (Name × List Declaration)},
        a.Shows frames done → frames ≠ [] →
        InScope id scope ((opened.head?.map (·.2)).getD []) (Frame.scope frames) →
        (∀ u ∈ done.getLast?, u.Apart t) →
          ∃ b t', ((d.piecesBelow steps place).map Piece.event).foldlM Reading.step ⟨a, opened⟩ =
              .ok ⟨b, opened⟩ ∧ b.Shows frames (done ++ [t']) ∧
            t.Alike id scope (Frame.scope frames) t'
  | .text data, h, htidy, hsteps, a, frames, done, opened, ha, hframes, _, hapart => by
    obtain ⟨steps, rfl⟩ : ∃ k, steps = k + 1 := ⟨steps - 1, by rw [size] at hsteps; omega⟩
    obtain ⟨b, hb, hs⟩ := ha.addText htidy hframes
    rw [addText_of_apart hapart] at hs
    refine ⟨b, _, ?_, hs, .text rfl⟩
    rw [h.piecesBelow_text, List.map_singleton, List.foldlM_cons, Piece.event, Reading.step,
      String.ofList_toList, hb]
    rfl
  | .element tag children, h, htidy, hsteps, a, frames, done, opened, ha, hframes, hscope, _ => by
    rw [size] at hsteps
    obtain ⟨steps, rfl⟩ : ∃ k, steps = k + 1 := ⟨steps - 1, by omega⟩
    obtain ⟨htag, hall, hchain⟩ := htidy
    rw [h.piecesBelow_element]
    split
    · rename_i hempty
      obtain rfl : children = [] := List.isEmpty_iff.1 hempty
      exact Strict.foldlM_empty htag (.refl _) hscope ha (fun h => absurd h hframes)
    · refine Strict.foldlM_enclosed htag (.refl _) hscope ha (fun h => absurd h hframes) ?_
      intro a₁ frames₁ opened₁ ha₁ hframes₁ hscope₁
      exact HoldsAll.reread h.children hall hchain (by omega) ha₁ hframes₁ hscope₁ (by simp)

theorem HoldsAll.reread {parent place steps : Nat} {scope : List Declaration} :
    ∀ {forest : List Tree}, d.HoldsAll parent place forest → TidyAll Tag.Rereads scope forest →
      forest.IsChain Tree.Apart → sizeAll forest ≤ steps →
        ∀ {a : Assembly} {frames : List Frame} {done : List Tree}
          {opened : List (Name × List Declaration)},
          a.Shows frames done → frames ≠ [] →
          InScope id scope ((opened.head?.map (·.2)).getD []) (Frame.scope frames) →
          (∀ u ∈ done.getLast?, ∀ t ∈ forest.head?, u.Apart t) →
            ∃ b forest', (((places place forest).flatMap (d.piecesBelow steps)).map
                Piece.event).foldlM Reading.step ⟨a, opened⟩ = .ok ⟨b, opened⟩ ∧
              b.Shows frames (done ++ forest') ∧
              AlikeAll id scope (Frame.scope frames) forest forest'
  | [], _, _, _, _, a, frames, done, opened, ha, _, _, _ =>
    ⟨a, [], rfl, by rwa [List.append_nil], .nil⟩
  | t :: rest, h, htidy, hchain, hsteps, a, frames, done, opened, ha, hframes, hscope, hapart => by
    rw [sizeAll] at hsteps
    rw [List.isChain_cons] at hchain
    obtain ⟨b₁, t', hrun₁, hs₁, halike⟩ := h.head.reread htidy.1 (show _ ≤ steps by omega) ha
      hframes hscope fun u hu => hapart u hu t rfl
    have hnext : ∀ u ∈ (done ++ [t']).getLast?, ∀ v ∈ rest.head?, u.Apart v := by
      intro u hu v hv
      rw [List.getLast?_concat] at hu
      cases hu
      have hsame := hchain.1 v hv
      rwa [Tree.Apart, ← halike.isText_eq] at hsame
    obtain ⟨b₂, rest', hrun₂, hs₂, hrest⟩ := HoldsAll.reread h.tail htidy.2 hchain.2
      (show _ ≤ steps by omega) hs₁ hframes hscope hnext
    refine ⟨b₂, t' :: rest', ?_, by rwa [List.append_cons], .cons halike hrest⟩
    rw [places, List.flatMap_cons, List.map_append, List.foldlM_append, hrun₁]
    exact hrun₂

end

/-! ## The pieces of a document -/

mutual

theorem Holds.tidy_imp {P Q : List Declaration → Tag → Prop}
    (hPQ : ∀ {place scope tag}, d.tagAt place = some tag → P scope tag → Q scope tag)
    {parent place : Nat} {scope : List Declaration} :
    ∀ {t : Tree}, d.Holds parent place t → t.Tidy P scope → t.Tidy Q scope
  | .text _, _, htidy => htidy
  | .element _ _, h, htidy =>
    ⟨hPQ h.tagAt_element htidy.1, HoldsAll.tidy_imp hPQ h.children htidy.2.1, htidy.2.2⟩

theorem HoldsAll.tidy_imp {P Q : List Declaration → Tag → Prop}
    (hPQ : ∀ {place scope tag}, d.tagAt place = some tag → P scope tag → Q scope tag)
    {parent place : Nat} {scope : List Declaration} :
    ∀ {forest : List Tree}, d.HoldsAll parent place forest → TidyAll P scope forest →
      TidyAll Q scope forest
  | [], _, _ => trivial
  | _ :: _, h, htidy =>
    ⟨Holds.tidy_imp hPQ h.head htidy.1, HoldsAll.tidy_imp hPQ h.tail htidy.2⟩

end

/-- The tags and the character data of a document can be read again as they are written. -/
structure Rereads (d : Document) : Prop where
  tags : ∀ place tag, d.tagAt place = some tag → ∃ scope, tag.Rereads scope
  texts : ∀ place data, (d.entry place).content = .text data → (Piece.text data).IsStrict

theorem Rereads.mem_piecesBelow (h : d.Rereads) {steps place : Nat} :
    ∀ piece ∈ d.piecesBelow steps place, piece.IsStrict := by
  induction steps generalizing place with
  | zero => simp [piecesBelow]
  | succ steps ih =>
    rw [piecesBelow]
    cases hcontent : (d.entry place).content with
    | document => simp
    | text data =>
      simp only [List.forall_mem_singleton]
      exact h.texts place data hcontent
    | element tag =>
      have htag : d.tagAt place = some tag := by rw [tagAt, hcontent]
      obtain ⟨scope, hrereads⟩ := h.tags place tag htag
      have hname : (Name.parse tag.name.text).IsStrict := by
        rw [hrereads.name.wellFormed.parse_text]
        exact hrereads.name
      have hattributes := hrereads.isStrictAttribute (.refl _)
      simp only
      split
      · rw [List.forall_mem_singleton]
        exact ⟨hname, hattributes⟩
      · rw [List.forall_mem_append, List.forall_mem_cons, List.forall_mem_singleton]
        refine ⟨⟨⟨hname, hattributes⟩, fun piece hpiece => ?_⟩, hname⟩
        obtain ⟨child, -, hpiece⟩ := List.mem_flatMap.1 hpiece
        exact ih piece hpiece

theorem closes_piecesBelow {steps place depth : Nat} {rest : List Piece} (hdepth : 0 < depth)
    (h : Piece.Closes depth rest) : Piece.Closes depth (d.piecesBelow steps place ++ rest) := by
  induction steps generalizing place depth rest with
  | zero => exact h
  | succ steps ih =>
    rw [piecesBelow]
    cases (d.entry place).content with
    | document => exact h
    | text data => exact ⟨hdepth, h⟩
    | element tag =>
      simp only
      split
      · exact ⟨hdepth, h⟩
      · rw [List.cons_append, List.cons_append, List.append_assoc]
        refine ⟨hdepth, ?_⟩
        show Piece.Closes (depth + 1) _
        induction (d.entry place).children with
        | nil => exact ⟨Nat.succ_pos _, h⟩
        | cons child others ihc =>
          rw [List.flatMap_cons, List.append_assoc]
          exact ih (Nat.succ_pos _) ihc

theorem closes_flatMap {steps : Nat} {children : List Nat} {name : String} :
    Piece.Closes 1 (children.flatMap (d.piecesBelow steps) ++ [.closing name]) := by
  induction children with
  | nil => exact ⟨Nat.one_pos, rfl⟩
  | cons child others ih =>
    rw [List.flatMap_cons, List.append_assoc]
    exact closes_piecesBelow Nat.one_pos ih

/-! ## Whole documents -/

/-- Every attribute that is in a namespace has a qualifier. -/
def Qualifies (d : Document) : Prop :=
  ∀ place tag, d.tagAt place = some tag → tag.Qualifies

/-- Nothing in a document is normalized when it is written and read again. -/
structure IsSteady (d : Document) : Prop where
  values : ∀ place tag, d.tagAt place = some tag → tag.IsSteady
  texts : ∀ place data, (d.entry place).content = .text data → '\r' ∉ data.toList

theorem Shows.rereads {forest : List Tree} (hd : d.Shows forest)
    (hforest : TidyAll Tag.Rereads [] forest) (hchars : ∀ entry ∈ d.entries.toList, entry.IsStrict)
    (hsteady : d.IsSteady) : d.Rereads where
  tags place tag htag := by
    obtain ⟨parent, children, -, htidy⟩ := hd.tidy_of_tag hforest htag
    exact ⟨_, htidy.1⟩
  texts place data hdata := by
    have hlt : place < d.entries.size := by
      by_contra hge
      rw [entry_of_size_le (Nat.le_of_not_lt hge)] at hdata
      cases hdata
    have hpos : 0 < place := by
      rcases Nat.eq_zero_or_pos place with rfl | hpos
      · rw [hd.entry_zero] at hdata
        cases hdata
      · exact hpos
    obtain ⟨parent, t, hholds, htidy⟩ := hd.locate_tidy hforest hpos hlt
    have hmem : d.entry place ∈ d.entries.toList := by
      rw [entry, Array.getElem?_eq_getElem hlt]
      exact Array.getElem_mem_toList hlt
    refine ⟨?_, hchars _ hmem data hdata, hsteady.texts place data hdata⟩
    rintro rfl
    cases t with
    | text text =>
      rw [hholds.entry_text] at hdata
      cases hdata
      cases htidy
    | element tag children =>
      rw [hholds.entry_element] at hdata
      cases hdata

/-- What the strict reader steps through gives the document, if it is an alike tree. -/
theorem exists_finish_alike {tag : Tag} {children : List Tree}
    (hd : d.Shows [.element tag children]) {b : Assembly} {t' : Tree} (hb : b.Shows [] ([] ++ [t']))
    (halike : (Tree.element tag children).Alike id [] [] t') :
    ∃ e, b.finish = .ok e ∧ d.Alike id e := by
  refine ⟨_, hb.finish_eq (List.cons_ne_nil _ _), hd.alike (fun _ _ => rfl) ?_ (.cons halike .nil)⟩
  rfl

/-- A document that the strict reader made is accepted again when it is written, and gives an alike
document. -/
theorem read_strict_toXml {text : String} {events : List Strict.Event}
    (h : Document.read .strict text = .ok d) (hevents : Strict.events text.toList = some events)
    (hproper : ∀ event ∈ events, event.DeclaresProperly) (hqualifies : d.Qualifies)
    (hsteady : d.IsSteady) : ∃ e, Document.read .strict d.toXml = .ok e ∧ d.Alike id e := by
  obtain ⟨tag, children, hd, hcanonical, hchars⟩ := canonical_of_read_strict hevents hproper h
  have hholds := holds_of_shows_singleton hd
  have htidy : (Tree.element tag children).Tidy Tag.Rereads [] :=
    hholds.tidy_imp (fun htag hcanonical =>
      ⟨hcanonical, hqualifies _ _ htag, hsteady.values _ _ htag⟩) hcanonical
  have hlegible : (Tree.element tag children).Legible [] :=
    Tree.legible_iff.2 (hholds.tidy_imp (fun _ htag => htag.legible) htidy)
  have hrereads := hd.rereads ⟨htidy, trivial⟩ hchars hsteady
  have hnamed : d.IsNamed := fun place tag htag => (hrereads.tags place tag htag).elim
    fun _ htag => htag.isNamed
  obtain ⟨htag, hall, hchain⟩ := htidy
  have hown := List.reverse_perm tag.declarations
  have hname : (Name.parse tag.name.text).IsStrict := by
    rw [htag.name.wellFormed.parse_text]
    exact htag.name
  have hattributes := htag.isStrictAttribute hown
  have hscope : InScope id [] ((([] : List (Name × List Declaration)).head?.map (·.2)).getD [])
      (Frame.scope []) := inScope_nil
  rw [toXml_eq hd htag.reads]
  cases children with
  | nil =>
    obtain ⟨b, t', hrun, hs, halike⟩ := Strict.foldlM_empty htag hown hscope
      Assembly.shows_start (fun _ => rfl)
    obtain ⟨e, he, hsame⟩ := exists_finish_alike hd hs halike
    refine ⟨e, ?_, hsame⟩
    have hfirst : (Piece.empty tag.name.text
        (writtenAttributes tag.declarations.reverse tag)).isOpening = true := rfl
    rw [List.isEmpty_nil, if_pos rfl, read_strict_render hfirst ?_ (List.isChain_singleton _) rfl,
      hrun]
    · exact he
    · rw [List.forall_mem_singleton]
      exact ⟨hname, hattributes⟩
  | cons child rest =>
    have hsteps : sizeAll (child :: rest) ≤ d.entries.size := by
      have := hholds.size_le
      rw [size] at this
      omega
    obtain ⟨-, hapart, -⟩ :=
      HoldsAll.readable hnamed hholds.children hlegible.2.2.2 hchain hsteps
    obtain ⟨b, t', hrun, hs, halike⟩ := Strict.foldlM_enclosed htag hown hscope
      Assembly.shows_start (fun _ => rfl) fun ha₁ hframes₁ hscope₁ =>
        HoldsAll.reread hholds.children hall hchain hsteps ha₁ hframes₁ hscope₁ (by simp)
    obtain ⟨e, he, hsame⟩ := exists_finish_alike hd hs halike
    refine ⟨e, ?_, hsame⟩
    have hfirst : (Piece.opening tag.name.text
        (writtenAttributes tag.declarations.reverse tag)).isOpening = true := rfl
    rw [if_neg (by simp), List.cons_append, read_strict_render hfirst ?_ ?_ closes_flatMap]
    · rw [← List.cons_append, hrun]
      exact he
    · rw [List.forall_mem_cons, List.forall_mem_append, List.forall_mem_singleton]
      refine ⟨⟨hname, hattributes⟩, fun piece hpiece => ?_, hname⟩
      obtain ⟨place, -, hpiece⟩ := List.mem_flatMap.1 hpiece
      exact hrereads.mem_piecesBelow piece hpiece
    · exact Piece.isChain_enclosed hapart

/-! ## A qualified and an unqualified attribute -/

/-- An attribute with the qualifier of its element, and a default namespace inside of it. -/
def qualifiedText : String :=
  "<p:a xmlns:p=\"urn:u\" p:x=\"1\"><b xmlns=\"urn:v\">1 &lt; 2</b></p:a>"

/-- What the strict reader makes of it. -/
def qualifiedDocument : Document :=
  ⟨#[⟨none, [1], .document⟩,
    ⟨some 0, [2], .element ⟨⟨some "p", "a"⟩, some "urn:u", [⟨⟨some "p", "x"⟩, some "urn:u", "1"⟩],
      [⟨some "p", "urn:u"⟩]⟩⟩,
    ⟨some 1, [3], .element ⟨⟨none, "b"⟩, some "urn:v", [], [⟨none, "urn:v"⟩]⟩⟩,
    ⟨some 2, [], .text "1 < 2"⟩], []⟩

/-- What drives the reading of it. -/
def qualifiedEvents : List Strict.Event :=
  [.opening ⟨some "p", "a"⟩ [(⟨some "xmlns", "p"⟩, "urn:u"), (⟨some "p", "x"⟩, "1")] false,
    .opening ⟨none, "b"⟩ [(⟨none, "xmlns"⟩, "urn:v")] false, .data "1 < 2".toList,
    .closing ⟨none, "b"⟩, .closing ⟨some "p", "a"⟩]

/-- A qualified attribute, a default namespace and an escaped character are read again. -/
theorem read_strict_toXml_of_qualified :
    Document.read .strict qualifiedText = .ok qualifiedDocument ∧
      Strict.events qualifiedText.toList = some qualifiedEvents ∧
      (∀ event ∈ qualifiedEvents, event.DeclaresProperly) ∧ qualifiedDocument.Qualifies ∧
      qualifiedDocument.IsSteady ∧
      ∃ e, Document.read .strict qualifiedDocument.toXml = .ok e ∧
        qualifiedDocument.Alike id e := by
  have hread : Document.read .strict qualifiedText = .ok qualifiedDocument := by decide +kernel
  have hevents : Strict.events qualifiedText.toList = some qualifiedEvents := by decide +kernel
  have hproper : ∀ event ∈ qualifiedEvents, event.DeclaresProperly := by decide
  have htags : ∀ place tag, qualifiedDocument.tagAt place = some tag →
      tag.Qualifies ∧ tag.IsSteady := by
    intro place tag htag
    rcases place with _ | _ | _ | _ | place
    · cases htag
    · cases htag
      decide
    · cases htag
      decide
    · cases htag
    · cases htag
  have htexts : ∀ place data, (qualifiedDocument.entry place).content = .text data →
      '\r' ∉ data.toList := by
    intro place data hdata
    rcases place with _ | _ | _ | _ | place
    · cases hdata
    · cases hdata
    · cases hdata
    · cases hdata
      decide
    · cases hdata
  have hqualifies : qualifiedDocument.Qualifies := fun place tag htag => (htags place tag htag).1
  have hsteady : qualifiedDocument.IsSteady :=
    ⟨fun place tag htag => (htags place tag htag).2, htexts⟩
  exact ⟨hread, hevents, hproper, hqualifies, hsteady,
    read_strict_toXml hread hevents hproper hqualifies hsteady⟩

/-- An attribute in the default namespace of its element is in no namespace when it is read
again. -/
theorem read_strict_toXml_differs :
    ∃ d e, Document.read .strict "<a xmlns:p=\"urn:u\"><b xmlns=\"urn:u\" p:x=\"1\"/></a>" = .ok d ∧
      Document.read .strict d.toXml = .ok e ∧ d.nameOf ⟨2, some 0⟩ = "x" ∧
      d.uriOf ⟨2, some 0⟩ = some "urn:u" ∧ e.nameOf ⟨2, some 0⟩ = "x" ∧
      e.uriOf ⟨2, some 0⟩ = none := by
  have hrun : ∃ d ∈ (Document.read .strict
      "<a xmlns:p=\"urn:u\"><b xmlns=\"urn:u\" p:x=\"1\"/></a>").toOption,
      ∃ e ∈ (Document.read .strict d.toXml).toOption, d.nameOf ⟨2, some 0⟩ = "x" ∧
        d.uriOf ⟨2, some 0⟩ = some "urn:u" ∧ e.nameOf ⟨2, some 0⟩ = "x" ∧
        e.uriOf ⟨2, some 0⟩ = none := by
    decide +kernel
  obtain ⟨d, hd, e, he, h⟩ := hrun
  exact ⟨d, e, toOption_eq_some.1 hd, toOption_eq_some.1 he, h⟩

end Document

end SoapKit.Xml
