import SoapKit.Proofs.Xml.Building

/-!
# Documents that are read again

A document that the lenient reader made reads back from its written form as the same document
(`Document.read_toXml`).

What comes out of the lenient reader is legible: every tag stands for itself in the scope that it
has, its declarations are in their order, no run of character data is blank, and no two runs stand
side by side. Of a legible tree the pieces are read back, by induction on the tree: an opening adds
the frame of its element, what is inside is read by induction, and the closing puts the element
behind its siblings.
-/

namespace SoapKit.Xml

open SoapKit.Xml.Tree

/-! ## Legible trees -/

mutual

/-- A tree that can be read back inside of a scope. -/
def Tree.Legible (scope : List Declaration) : Tree → Prop
  | .text data => Text.isAllBlank data = false
  | .element tag children =>
    tag.Reads scope ∧ tag.sorted = tag ∧ children.IsChain Tree.Apart ∧
      Tree.LegibleAll (tag.declarations ++ scope) children

/-- Trees that can be read back inside of a scope. -/
def Tree.LegibleAll (scope : List Declaration) : List Tree → Prop
  | [] => True
  | t :: rest => t.Legible scope ∧ Tree.LegibleAll scope rest

end

/-! ## What the lenient reader makes -/

/-- A tag that stands for itself in a scope, with its declarations in their order. -/
def Tag.Legible (scope : List Declaration) (tag : Tag) : Prop :=
  tag.Reads scope ∧ tag.sorted = tag

mutual

/-- To be legible is to be tidy with legible tags. -/
theorem Tree.legible_iff {scope : List Declaration} :
    ∀ {t : Tree}, t.Legible scope ↔ t.Tidy Tag.Legible scope
  | .text _ => Iff.rfl
  | .element tag children => by
    rw [Legible, Tidy, Tag.Legible, @legibleAll_iff _ children, and_assoc,
      and_comm (a := children.IsChain Apart)]

theorem Tree.legibleAll_iff {scope : List Declaration} :
    ∀ {forest : List Tree}, LegibleAll scope forest ↔ TidyAll Tag.Legible scope forest
  | [] => Iff.rfl
  | t :: rest => by
    rw [LegibleAll, TidyAll, @legible_iff _ t, @legibleAll_iff _ rest]

end

theorem Tag.Resolved.legible {scope : List Declaration} {written : String}
    {raw : List (String × String)} {tag : Tag} (h : tag.Resolved scope written raw)
    (hnodup : (raw.map (·.1)).Nodup) : tag.sorted.Legible scope :=
  ⟨(h.reads hnodup).sorted, Tag.sorted_eq (List.mergeSort_perm _ _)⟩

/-- A document that the lenient reader makes has a legible element and nothing else. -/
theorem Document.legible_of_read {text : String} {d : Document}
    (h : Document.read .lenient text = .ok d) :
    ∃ tag children, d.Shows [.element tag children] ∧ d.registered = [] ∧
      (Tree.element tag children).Legible [] := by
  unfold Document.read at h
  split at h
  · cases h
  · obtain ⟨a, ha, hd⟩ := Lenient.read_keeps
      (Assembly.kept_tidy fun _ _ _ _ hnodup htag => Tag.Resolved.legible htag hnodup)
      Assembly.tidy_start h
    obtain ⟨tag, children, hshows, hregistered, htidy⟩ := ha.finish hd
    exact ⟨tag, children, hshows, hregistered, Tree.legible_iff.2 htidy⟩

/-! ## Names -/

/-- All names in a document are names. -/
def Document.IsNamed (d : Document) : Prop :=
  ∀ place tag, d.tagAt place = some tag → tag.IsNamed

/-! ## The pieces of a legible tree -/

namespace Document

variable {d : Document}

/-- The pieces of an element that is written with the declarations of its tag. -/
theorem Holds.piecesBelow_element {parent place steps : Nat} {tag : Tag} {children : List Tree}
    (h : d.Holds parent place (.element tag children)) :
    d.piecesBelow (steps + 1) place =
      if children.isEmpty then [.empty tag.name.text (writtenAttributes tag.declarations tag)]
      else
        .opening tag.name.text (writtenAttributes tag.declarations tag) ::
          (places (place + 1) children).flatMap (d.piecesBelow steps) ++
            [.closing tag.name.text] := by
  rw [piecesBelow, h.entry_element]
  cases children <;> rfl

theorem Holds.piecesBelow_text {parent place steps : Nat} {data : String}
    (h : d.Holds parent place (.text data)) :
    d.piecesBelow (steps + 1) place = [.text data] := by
  rw [piecesBelow, h.entry_text]

theorem Holds.piecesBelow_ne_nil {parent place steps : Nat} {t : Tree} (h : d.Holds parent place t)
    (hsteps : t.size ≤ steps) : d.piecesBelow steps place ≠ [] := by
  have := t.size_pos
  obtain ⟨steps, rfl⟩ : ∃ k, steps = k + 1 := ⟨steps - 1, by omega⟩
  cases t with
  | text data =>
    rw [h.piecesBelow_text]
    exact List.cons_ne_nil _ _
  | element tag children =>
    rw [h.piecesBelow_element]
    split <;> exact List.cons_ne_nil _ _

mutual

theorem Holds.block (hnamed : d.IsNamed) {parent place steps : Nat} {scope : List Declaration} :
    ∀ {t : Tree}, d.Holds parent place t → t.Legible scope → t.size ≤ steps →
      t.isText = false → Piece.Block (d.piecesBelow steps place)
  | .text _, _, _, _, htext => by cases htext
  | .element tag children, h, hlegible, hsteps, _ => by
    rw [size] at hsteps
    obtain ⟨steps, rfl⟩ : ∃ k, steps = k + 1 := ⟨steps - 1, by omega⟩
    obtain ⟨hreads, -, hchain, hall⟩ := hlegible
    have htag := hnamed place tag h.tagAt_element
    have hattributes := htag.areAttributes hreads
    rw [h.piecesBelow_element]
    split
    · exact Piece.block_singleton ⟨htag.element, hattributes⟩ rfl
    · obtain ⟨hreadable, hapart, -⟩ :=
        HoldsAll.readable hnamed h.children hall hchain (show _ ≤ steps by omega)
      exact Piece.block_enclosed htag.element hattributes hreadable hapart

/-- The pieces of trees: no two of them are data side by side, and the first one is data only where
the first tree is. -/
theorem HoldsAll.readable (hnamed : d.IsNamed) {parent place steps : Nat}
    {scope : List Declaration} :
    ∀ {forest : List Tree}, d.HoldsAll parent place forest → LegibleAll scope forest →
      forest.IsChain Tree.Apart → sizeAll forest ≤ steps →
        (∀ piece ∈ (places place forest).flatMap (d.piecesBelow steps), piece.Readable) ∧
        ((places place forest).flatMap (d.piecesBelow steps)).IsChain Piece.Apart ∧
        ∀ piece ∈ ((places place forest).flatMap (d.piecesBelow steps)).head?,
          piece.isData = true → ∃ t ∈ forest.head?, t.isText = true
  | [], _, _, _, _ => ⟨by simp [places], List.isChain_nil, by simp [places]⟩
  | t :: rest, h, hlegible, hchain, hsteps => by
    rw [sizeAll] at hsteps
    rw [List.isChain_cons] at hchain
    obtain ⟨hreadable, hapart, hhead⟩ :=
      HoldsAll.readable hnamed h.tail hlegible.2 hchain.2 (show _ ≤ steps by omega)
    rw [places, List.flatMap_cons]
    cases t with
    | text data =>
      obtain ⟨steps, rfl⟩ : ∃ k, steps = k + 1 := ⟨steps - 1, by rw [size] at hsteps; omega⟩
      rw [h.head.piecesBelow_text]
      refine ⟨List.forall_mem_cons.2 ⟨trivial, hreadable⟩, List.isChain_cons.2 ⟨?_, hapart⟩, ?_⟩
      · intro piece hpiece
        refine .inr (Bool.eq_false_iff.2 fun hdata => ?_)
        obtain ⟨u, hu, htext⟩ := hhead piece hpiece hdata
        have := (hchain.1 u hu).resolve_left fun hnot => by cases hnot
        rw [htext] at this
        cases this
      · exact fun piece _ _ => ⟨_, rfl, rfl⟩
    | element tag children =>
      have hblock := h.head.block hnamed hlegible.1 (show _ ≤ steps by omega) rfl
      refine ⟨?_, ?_, ?_⟩
      · intro piece hpiece
        exact (List.mem_append.1 hpiece).elim (hblock.readable piece) (hreadable piece)
      · exact hblock.apart.append hapart fun piece hlast _ _ => .inl (hblock.last piece hlast)
      · intro piece hpiece hdata
        rw [List.head?_append_of_ne_nil _ (h.head.piecesBelow_ne_nil (by omega))] at hpiece
        rw [hblock.head piece hpiece] at hdata
        cases hdata

end

/-! ## Reading the pieces of a legible tree -/

theorem addText_of_apart {done : List Tree} {data : String}
    (h : ∀ u ∈ done.getLast?, u.Apart (.text data)) :
    Tree.addText done data = done ++ [.text data] := by
  unfold Tree.addText
  split
  · rename_i before hlast
    rcases h _ hlast with hnot | hnot <;> cases hnot
  · rfl

open Lenient

mutual

/-- The pieces of a tree lead to the tree, behind what was there before. -/
theorem Holds.take {parent place steps : Nat} {names : List (List Char)} {frames : List Frame} :
    ∀ {t : Tree}, d.Holds parent place t → t.Legible (Frame.scope frames) → t.size ≤ steps →
      ∀ {r : Reading} {done : List Tree}, r.Shows names frames done → frames ≠ [] →
        (∀ u ∈ done.getLast?, u.Apart t) →
          ∃ r', (d.piecesBelow steps place).foldlM Reading.take r = .ok r' ∧
            r'.Shows names frames (done ++ [t])
  | .text data, h, hlegible, hsteps, r, done, hr, hframes, hapart => by
    obtain ⟨steps, rfl⟩ : ∃ k, steps = k + 1 := ⟨steps - 1, by rw [size] at hsteps; omega⟩
    obtain ⟨r', hr', hs⟩ := hr.take_text hframes hlegible
    rw [addText_of_apart hapart] at hs
    refine ⟨r', ?_, hs⟩
    rw [h.piecesBelow_text, List.foldlM_cons, hr']
    rfl
  | .element tag children, h, hlegible, hsteps, r, done, hr, hframes, _ => by
    rw [size] at hsteps
    obtain ⟨steps, rfl⟩ : ∃ k, steps = k + 1 := ⟨steps - 1, by omega⟩
    obtain ⟨hreads, hsorted, hchain, hall⟩ := hlegible
    rw [h.piecesBelow_element]
    split
    · rename_i hempty
      obtain rfl : children = [] := List.isEmpty_iff.1 hempty
      exact hr.take_empty (fun h => absurd h hframes) hreads.resolved hsorted
    · refine hr.take_enclosed (fun h => absurd h hframes) hreads.resolved hsorted ?_
      intro r₁ hr₁
      exact HoldsAll.take h.children
        (show LegibleAll (Frame.scope (⟨tag, done⟩ :: frames)) children from hall) (by omega) hr₁
        (List.cons_ne_nil _ _) hchain

theorem HoldsAll.take {parent place steps : Nat} {names : List (List Char)}
    {frames : List Frame} :
    ∀ {forest : List Tree}, d.HoldsAll parent place forest →
      LegibleAll (Frame.scope frames) forest → sizeAll forest ≤ steps →
        ∀ {r : Reading} {done : List Tree}, r.Shows names frames done → frames ≠ [] →
          (done ++ forest).IsChain Tree.Apart →
            ∃ r', ((places place forest).flatMap (d.piecesBelow steps)).foldlM Reading.take r =
                .ok r' ∧ r'.Shows names frames (done ++ forest)
  | [], _, _, _, r, done, hr, _, _ => ⟨r, rfl, by rwa [List.append_nil]⟩
  | t :: rest, h, hlegible, hsteps, r, done, hr, hframes, hchain => by
    rw [sizeAll] at hsteps
    obtain ⟨r₁, hr₁, hs₁⟩ := h.head.take hlegible.1 (show _ ≤ steps by omega) hr hframes
      fun u hu => (List.isChain_append.1 hchain).2.2 u hu t rfl
    rw [List.append_cons] at hchain ⊢
    obtain ⟨r₂, hr₂, hs₂⟩ := HoldsAll.take h.tail hlegible.2 (show _ ≤ steps by omega)
      hs₁ hframes hchain
    refine ⟨r₂, ?_, hs₂⟩
    rw [places, List.flatMap_cons, List.foldlM_append, hr₁]
    exact hr₂

end

/-! ## Whole documents -/

variable {tag : Tag} {children : List Tree}

theorem holds_of_shows_singleton (hd : d.Shows [.element tag children]) :
    d.Holds 0 1 (.element tag children) :=
  hd.holdsAll.head

/-- The declarations in effect at the document element are its own. -/
theorem namespacesInScope_documentElement (hd : d.Shows [.element tag children])
    (hreads : tag.Reads []) : d.namespacesInScope (Node.ofPlace 1) = tag.declarations := by
  have hroot : d.reachingDeclarations (Node.ofPlace 0) = [] := hd.reachingDeclarations_root
  rw [namespacesInScope, (holds_of_shows_singleton hd).reachingDeclarations hd, hroot,
    List.append_nil]
  exact firstOfEach_eq_self hreads.qualifiers (by simp)

/-- The text of a document is laid out from its document element, whose declarations are written
the other way round. -/
theorem toXml_eq (hd : d.Shows [.element tag children]) (hreads : tag.Reads []) :
    d.toXml = Piece.render (.declaration ::
      if children.isEmpty then
        [.empty tag.name.text (writtenAttributes tag.declarations.reverse tag)]
      else
        .opening tag.name.text (writtenAttributes tag.declarations.reverse tag) ::
          (places 2 children).flatMap (d.piecesBelow d.entries.size) ++
            [.closing tag.name.text]) := by
  have h := holds_of_shows_singleton hd
  have htag : d.tag (Node.ofPlace 1) = some tag := h.tagAt_element
  have hattribute : d.attribute? root = none := by simp [attribute?, root, Node.ofPlace]
  have helements : d.childElements root = [Node.ofPlace 1] := by
    have hchildren : d.children root = [Node.ofPlace 1] := hd.children_root
    rw [childElements, hchildren, List.filter_cons_of_pos (by rw [isElement, htag]; rfl)]
    rfl
  have hentry : (d.entry (Node.ofPlace 1).place).children = places 2 children := by
    show (d.entry 1).children = _
    rw [h.entry_element]
  rw [toXml, write, hattribute]
  simp only
  rw [show root.place = 0 from rfl, hd.entry_zero]
  simp only
  rw [helements, List.flatMap_singleton, standalonePieces, htag,
    namespacesInScope_documentElement hd hreads, hentry]
  cases children <;> rfl

/-- A document that the lenient reader made, with proper names, reads back from its written form as
the same document. -/
theorem read_toXml {text : String} (h : Document.read .lenient text = .ok d)
    (hnamed : d.IsNamed) : Document.read .lenient d.toXml = .ok d := by
  obtain ⟨tag, children, hd, hregistered, hreads, hsorted, hchain, hall⟩ := legible_of_read h
  have hholds := holds_of_shows_singleton hd
  -- the tag with its declarations the other way round, as it is written
  let written : Tag := { tag with declarations := tag.declarations.reverse }
  have hwritten : written.Reads [] := hreads.perm (List.reverse_perm _)
  have hback : written.sorted = tag := (Tag.sorted_eq (List.reverse_perm _)).trans hsorted
  have htag : written.IsNamed := by
    have hnames := hnamed 1 tag hholds.tagAt_element
    exact ⟨hnames.element, hnames.attributes,
      fun declaration hmem => hnames.declarations declaration (List.mem_reverse.1 hmem)⟩
  have hattributes := htag.areAttributes hwritten
  have hsteps : sizeAll children ≤ d.entries.size := by
    have := hholds.size_le
    rw [size] at this
    omega
  have hstart : Reading.Shows ⟨Assembly.start, []⟩ [] [] [] := ⟨rfl, Assembly.shows_start⟩
  have hfinish : ∀ r : Reading, r.Shows [] [] ([] ++ [.element tag children]) →
      r.assembly.finish = .ok d := by
    intro r hr
    rw [hr.assembly.finish_eq (List.cons_ne_nil _ _)]
    obtain ⟨entries, registered⟩ := d
    have hentries : entries.toList = table [.element tag children] := hd
    rw [List.nil_append, ← hentries, Array.toArray_toList, ← hregistered]
  rw [toXml_eq hd hreads]
  cases children with
  | nil =>
    obtain ⟨r, hr, hs⟩ := hstart.take_empty (fun _ => rfl) hwritten.resolved hback
    have hpiece : (Piece.empty tag.name.text
        (writtenAttributes tag.declarations.reverse tag)).Readable := ⟨htag.element, hattributes⟩
    exact (read_render (Piece.block_singleton hpiece rfl) hr).trans (hfinish r hs)
  | cons child rest =>
    obtain ⟨hreadable, hapart, -⟩ := HoldsAll.readable hnamed hholds.children hall hchain hsteps
    obtain ⟨r, hr, hs⟩ := hstart.take_enclosed (fun _ => rfl) hwritten.resolved hback
      fun r₁ hr₁ => HoldsAll.take hholds.children
        (show LegibleAll (Frame.scope [⟨tag, []⟩]) (child :: rest) from hall) hsteps hr₁
        (List.cons_ne_nil _ _) hchain
    exact (read_render (Piece.block_enclosed htag.element hattributes hreadable hapart) hr).trans
      (hfinish r hs)

/-- Mixed content and an escaped character come back as they were. -/
theorem read_toXml_of_mixed :
    ∃ d, Document.read .lenient "<a>1 &lt; 2<b/></a>" = .ok d ∧ d.IsNamed ∧
      Document.read .lenient d.toXml = .ok d := by
  have hread : Document.read .lenient "<a>1 &lt; 2<b/></a>" =
      .ok ⟨#[⟨none, [1], .document⟩, ⟨some 0, [2, 3], .element ⟨⟨none, "a"⟩, none, [], []⟩⟩,
        ⟨some 1, [], .text "1 < 2"⟩, ⟨some 1, [], .element ⟨⟨none, "b"⟩, none, [], []⟩⟩], []⟩ := by
    decide +kernel
  have hletter : ∀ base, IsName base → (⟨⟨none, base⟩, none, [], []⟩ : Tag).IsNamed :=
    fun _ hbase => ⟨hbase, by simp, by simp⟩
  have hnamed : Document.IsNamed ⟨#[⟨none, [1], .document⟩,
      ⟨some 0, [2, 3], .element ⟨⟨none, "a"⟩, none, [], []⟩⟩, ⟨some 1, [], .text "1 < 2"⟩,
      ⟨some 1, [], .element ⟨⟨none, "b"⟩, none, [], []⟩⟩], []⟩ := by
    intro place tag htag
    rcases place with _ | _ | _ | _ | place
    · cases htag
    · cases htag
      exact hletter "a" (by decide +kernel)
    · cases htag
    · cases htag
      exact hletter "b" (by decide +kernel)
    · cases htag
  exact ⟨_, hread, hnamed, read_toXml hread hnamed⟩

end Document

end SoapKit.Xml
