import SoapKit.Proofs.Xml.Excerpt
import SoapKit.Proofs.Xml.Rereading
import SoapKit.Proofs.Xml.Resolution

/-!
# Elements that stand by themselves

An element of a document is made to stand by itself in two ways: as a copy, and by being written and
read again. Either way it takes over the declarations in effect on it.

**Theorem (`read_write_subtree`).** For every element of a document that the lenient reader made,
with proper names, what is written reads back; it reads back as the copy, up to the order of the
declarations on the element; and both are excerpts of the document, so that every node says what the
node that it stands for says, and every qualifier stands for the same there.

The declarations in effect on an element stand for what all declarations that reach it do
(`lookup_reverse_firstOfEach`), so what is below it is legible in the new scope as in the old one.
-/

namespace SoapKit.Xml

open SoapKit.Xml.Tree
open Declaration (lookup)

/-- Legible tags are legible wherever qualifiers stand for the same. -/
theorem Tag.congruent_legible : Tag.Congruent Tag.Legible :=
  fun _ _ _ hscope h => ⟨portable_reads.congr hscope h.1, h.2⟩

namespace Document

/-! ## Reading one element -/

/-- What is laid out without an XML declaration is read as its pieces are taken. -/
theorem read_render_block {first : Piece} {rest : List Piece} (h : Piece.Block (first :: rest)) :
    Document.read .lenient (Piece.render (first :: rest)) =
      (first :: rest).foldlM Lenient.Reading.take ⟨Assembly.start, []⟩ >>=
        fun r => r.assembly.finish := by
  have hdata : first.isData = false := h.head first rfl
  obtain ⟨more, hmore⟩ : ∃ more, (Piece.render (first :: rest)).toList = '<' :: more := by
    rw [Piece.render, Piece.layout]
    cases first with
    | text data | verbatim markup => cases hdata
    | _ => exact ⟨_, by simp [Piece.written]; rfl⟩
  have hblank : Text.isAllBlank (Piece.render (first :: rest)) = false := by
    rw [Text.isAllBlank, hmore]
    rfl
  have hmark : Lenient.dropMark (Piece.render (first :: rest)).toList =
      (Piece.render (first :: rest)).toList := by
    rw [hmore]
    rfl
  rw [Document.read, hblank, if_neg Bool.false_ne_true, Lenient.read, hmark, Piece.render,
    Lenient.foldlM_layout h.readable h.apart]

variable {d : Document} {parent place : Nat} {tag : Tag} {children : List Tree}

/-- The tag of an element with the declarations that it stands by itself with. -/
def standaloneTag (d : Document) (place : Nat) (tag : Tag) : Tag :=
  { tag with declarations := (d.namespacesInScope (Node.ofPlace place)).reverse }

theorem Holds.write_eq (h : d.Holds parent place (.element tag children)) :
    d.write (Node.ofPlace place) = Piece.render (d.standalonePieces (Node.ofPlace place)) := by
  have hattribute : d.attribute? (Node.ofPlace place) = none := by
    simp [attribute?, Node.ofPlace]
  rw [write, hattribute]
  simp only
  rw [show (Node.ofPlace place).place = place from rfl, h.entry_element]

/-- The pieces of an element that stands by itself are read as the element, with the declarations in
effect on it in their order. -/
theorem Holds.read_write (hnamed : d.IsNamed) (h : d.Holds parent place (.element tag children))
    (hreads : (d.standaloneTag place tag).Reads [])
    (hnames : (d.standaloneTag place tag).IsNamed)
    (hall : LegibleAll (d.standaloneTag place tag).sorted.declarations children)
    (hchain : children.IsChain Apart) :
    ∃ e, Document.read .lenient (d.write (Node.ofPlace place)) = .ok e ∧
      e.Shows [.element (d.standaloneTag place tag).sorted children] := by
  have hstart : Lenient.Reading.Shows ⟨Assembly.start, []⟩ [] [] [] :=
    ⟨rfl, Assembly.shows_start⟩
  have hattributes := hnames.areAttributes hreads
  have hsteps : sizeAll children ≤ d.entries.size := by
    have := h.size_le
    rw [size] at this
    omega
  have hfinish : ∀ r : Lenient.Reading,
      r.Shows [] [] ([] ++ [.element (d.standaloneTag place tag).sorted children]) →
        ∃ e, r.assembly.finish = .ok e ∧
          e.Shows [.element (d.standaloneTag place tag).sorted children] := by
    intro r hr
    refine ⟨_, hr.assembly.finish_eq (List.cons_ne_nil _ _), ?_⟩
    rw [Shows, List.toList_toArray, List.nil_append]
  have htag : d.tag (Node.ofPlace place) = some tag := h.tagAt_element
  have hentry : (d.entry (Node.ofPlace place).place).children = places (place + 1) children := by
    show (d.entry place).children = _
    rw [h.entry_element]
  rw [h.write_eq, standalonePieces, htag]
  simp only
  rw [hentry]
  cases children with
  | nil =>
    obtain ⟨r, hr, hs⟩ := hstart.take_empty (fun _ => rfl) hreads.resolved rfl
    obtain ⟨e, he, hshows⟩ := hfinish r hs
    have hpiece : (Piece.empty tag.name.text (writtenAttributes
        (d.namespacesInScope (Node.ofPlace place)).reverse tag)).Readable :=
      ⟨hnames.element, hattributes⟩
    refine ⟨e, (read_render_block (Piece.block_singleton hpiece rfl)).trans ?_, hshows⟩
    rw [← he]
    exact congrArg (· >>= _) hr
  | cons child rest =>
    obtain ⟨hreadable, hapart, -⟩ := HoldsAll.readable hnamed h.children hall hchain hsteps
    obtain ⟨r, hr, hs⟩ := hstart.take_enclosed (fun _ => rfl) hreads.resolved rfl
      fun r₁ hr₁ => HoldsAll.take h.children
        (show LegibleAll (Frame.scope [⟨(d.standaloneTag place tag).sorted, []⟩]) (child :: rest)
          from by simpa [Frame.scope] using hall) hsteps hr₁ (List.cons_ne_nil _ _) hchain
    obtain ⟨e, he, hshows⟩ := hfinish r hs
    refine ⟨e, (read_render_block
      (Piece.block_enclosed hnames.element hattributes hreadable hapart)).trans ?_, hshows⟩
    rw [← he]
    exact congrArg (· >>= _) hr

/-! ## The declarations in effect on an element -/

theorem firstOfEach_subset {seen : List (Option String)} {declarations : List Declaration} :
    firstOfEach seen declarations ⊆ declarations := by
  induction declarations generalizing seen with
  | nil => exact List.Subset.refl _
  | cons first rest ih =>
    rw [firstOfEach]
    split
    · exact List.subset_cons_of_subset first ih
    · exact List.cons_subset_cons first ih

/-- A declaration in effect stands on some element. -/
theorem exists_of_mem_namespacesInScope {n : Node} {declaration : Declaration}
    (h : declaration ∈ d.namespacesInScope n) :
    ∃ place tag, d.tagAt place = some tag ∧ declaration ∈ tag.declarations := by
  obtain ⟨place, -, hmem⟩ := List.mem_flatMap.1 (firstOfEach_subset h)
  cases htag : d.tagAt place with
  | none =>
    rw [htag] at hmem
    cases hmem
  | some tag =>
    rw [htag] at hmem
    exact ⟨place, tag, htag, hmem⟩

theorem isNamed_standaloneTag (hnamed : d.IsNamed) (htag : d.tagAt place = some tag) :
    (d.standaloneTag place tag).IsNamed where
  element := (hnamed place tag htag).element
  attributes := (hnamed place tag htag).attributes
  declarations := by
    intro declaration hmem
    obtain ⟨place', tag', htag', hmem'⟩ :=
      exists_of_mem_namespacesInScope (List.mem_reverse.1 hmem)
    exact (hnamed place' tag' htag').declarations declaration hmem'

/-- The declarations in effect stand for what all declarations do that reach the element. -/
theorem lookup_standaloneTag (tag : Tag) (qualifier : Option String) :
    lookup (d.standaloneTag place tag).declarations qualifier =
      lookup (d.reachingDeclarations (Node.ofPlace place)) qualifier :=
  lookup_reverse_firstOfEach qualifier

theorem lookup_sorted_standaloneTag (qualifier : Option String) :
    lookup (d.standaloneTag place tag).sorted.declarations qualifier =
      lookup (d.reachingDeclarations (Node.ofPlace place)) qualifier := by
  have hnodup : ((d.standaloneTag place tag).declarations.map (·.qualifier)).Nodup := by
    rw [standaloneTag, List.map_reverse]
    exact List.nodup_reverse.2 (nodup_namespacesInScope _)
  have hperm := lookup_perm (List.mergeSort_perm _ Declaration.le) hnodup [] qualifier
  rw [List.append_nil, List.append_nil] at hperm
  exact hperm.trans (lookup_standaloneTag tag qualifier)

/-! ## Two ways to stand by itself -/

/-- The copy of an element is an excerpt of the document. -/
theorem Shows.isExcerpt_subtree {forest : List Tree} (hd : d.Shows forest) {n : Node}
    (hn : d.isElement n = true) : d.IsExcerpt n (d.subtree n) := by
  obtain ⟨tag, htag⟩ := Option.isSome_iff_exists.1 hn
  obtain ⟨place, attr⟩ := n
  obtain ⟨rfl, parent, children, hholds⟩ := hd.holds_of_tag htag
  have hcopy : (d.subtree (Node.ofPlace place)).Shows
      [.element (d.standaloneTag place tag) children] := hholds.subtree
  exact isExcerpt_of_shows hd hcopy hholds (lookup_standaloneTag tag)

/-- A document is what a text reads as, whatever qualifiers were registered since. -/
def IsReadFrom (d : Document) (text : String) : Prop :=
  ∃ registered, Document.read .lenient text = .ok { d with registered }

/-- Two documents list one element each, the same but for the order of the declarations on it.
Registered qualifiers are left out of account. -/
def SameElement (d e : Document) : Prop :=
  ∃ tag own children, d.Shows [.element tag children] ∧
    e.Shows [.element { tag with declarations := own } children] ∧ own.Perm tag.declarations

/-- What is written of an element of a document that was read, with proper names, reads back as the
copy of the element, up to the order of its declarations. Every node of both says what the node says
that it stands for, and every qualifier stands for the same there. -/
theorem read_write_subtree {text : String} (h : d.IsReadFrom text) (hnamed : d.IsNamed) {n : Node}
    (hn : d.isElement n = true) :
    ∃ e, Document.read .lenient (d.write n) = .ok e ∧ (d.subtree n).SameElement e ∧
      d.IsExcerpt n e ∧ d.IsExcerpt n (d.subtree n) := by
  obtain ⟨registered, h⟩ := h
  obtain ⟨top, inside, hd, -, hlegible⟩ := legible_of_read h
  have hd : d.Shows [.element top inside] := hd
  obtain ⟨place, attr⟩ := n
  cases attr with
  | some index => cases hn
  | none =>
    obtain ⟨tag, htag⟩ := Option.isSome_iff_exists.1 hn
    have htag : d.tagAt place = some tag := htag
    obtain ⟨parent, children, hholds, ⟨hreads, -⟩, hall, hchain⟩ :=
      hd.tidy_of_tag ⟨Tree.legible_iff.1 hlegible, trivial⟩ htag
    have hscope : d.namespacesInScope (Node.ofPlace place) =
        firstOfEach [] (tag.declarations ++ d.reachingDeclarations (Node.ofPlace parent)) := by
      rw [namespacesInScope, hholds.reachingDeclarations hd]
    have hstandalone : (d.standaloneTag place tag).Reads [] := by
      rw [standaloneTag, hscope]
      exact portable_reads.lifted hreads
    have hinside : LegibleAll (d.standaloneTag place tag).sorted.declarations children := by
      refine Tree.legibleAll_iff.2 (hall.congr Tag.congruent_legible fun qualifier => ?_)
      rw [lookup_sorted_standaloneTag, hholds.reachingDeclarations hd]
    obtain ⟨e, he, hshows⟩ := hholds.read_write hnamed hstandalone
      (isNamed_standaloneTag hnamed htag) hinside hchain
    have hback : e.Shows [.element { tag with
        declarations := (d.standaloneTag place tag).sorted.declarations } children] := hshows
    have hcopy : (d.subtree (Node.ofPlace place)).Shows
        [.element (d.standaloneTag place tag) children] := hholds.subtree
    exact ⟨e, he, ⟨_, _, _, hcopy, hshows, List.mergeSort_perm _ _⟩,
      isExcerpt_of_shows hd hback hholds lookup_sorted_standaloneTag,
      isExcerpt_of_shows hd hcopy hholds (lookup_standaloneTag tag)⟩

/-! ## A shadowed default namespace -/

instance (tag : Tag) : Decidable tag.IsNamed :=
  decidable_of_iff (IsName tag.name.text ∧ (∀ attr ∈ tag.attributes, IsName attr.name.text) ∧
      ∀ declaration ∈ tag.declarations, ∀ qualifier ∈ declaration.qualifier,
        qualifier.toList.all isNameChar = true) <| by
    simp only [List.all_eq_true, Option.mem_def]
    exact ⟨fun h => ⟨h.1, h.2.1, h.2.2⟩, fun h => ⟨h.element, h.attributes, h.declarations⟩⟩

instance (d : Document) : Decidable d.IsNamed :=
  decidable_of_iff (∀ place < d.entries.size, ∀ tag ∈ d.tagAt place, tag.IsNamed) <| by
    refine ⟨fun h place tag htag => h place (Nat.lt_of_not_le fun hle => ?_) tag htag,
      fun h place _ tag htag => h place tag htag⟩
    rw [tagAt, entry_of_size_le hle] at htag
    cases htag

/-- An element whose default namespace is taken away and whose qualifier is declared around it. -/
theorem read_write_subtree_of_shadowed :
    ∃ d, Document.read .lenient ("<a xmlns=\"urn:d\"><p:b xmlns:p=\"urn:p\">" ++
        "<c xmlns=\"\" p:x=\"1\">one<p:d/></c></p:b></a>") = .ok d ∧ d.IsNamed ∧
      d.isElement (Node.ofPlace 3) = true ∧
      ∃ e, Document.read .lenient (d.write (Node.ofPlace 3)) = .ok e ∧
        (d.subtree (Node.ofPlace 3)).SameElement e ∧ d.IsExcerpt (Node.ofPlace 3) e ∧
        d.IsExcerpt (Node.ofPlace 3) (d.subtree (Node.ofPlace 3)) := by
  have hread : ∃ d ∈ (Document.read .lenient ("<a xmlns=\"urn:d\"><p:b xmlns:p=\"urn:p\">" ++
      "<c xmlns=\"\" p:x=\"1\">one<p:d/></c></p:b></a>")).toOption,
      d.IsNamed ∧ d.isElement (Node.ofPlace 3) = true := by
    decide +kernel
  obtain ⟨d, hd, hnamed, helement⟩ := hread
  rw [Option.mem_def, toOption_eq_some] at hd
  exact ⟨d, hd, hnamed, helement, read_write_subtree ⟨d.registered, hd⟩ hnamed helement⟩

end Document

end SoapKit.Xml
