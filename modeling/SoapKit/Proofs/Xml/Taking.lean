import SoapKit.Proofs.Xml.Layout
import SoapKit.Proofs.Xml.Tag
import SoapKit.Xml.Read

/-!
# Taking the pieces of an element

What the pieces of a whole element do to a reading: whatever stands between an opening and its
closing, the element ends up behind what its surroundings held before
(`Reading.Shows.take_enclosed`). A list of pieces that begins and ends with tags can stand anywhere
in a layout (`Piece.Block`).
-/

namespace SoapKit.Xml

open SoapKit.Xml.Tree

/-- The declarations of open elements, those of the innermost first. -/
def Frame.scope (frames : List Frame) : List Declaration :=
  (frames.map (·.tag.declarations)).flatten

theorem Assembly.Shows.scopes_flatten {a : Assembly} {frames : List Frame} {done : List Tree}
    (h : a.Shows frames done) : a.scopes.flatten = Frame.scope frames := by
  rw [h.scopes, Frame.scope]

/-! ## Names of a tag -/

/-- All names in a tag are names: those of the element and its attributes, and the qualifiers that
are declared. -/
structure Tag.IsNamed (tag : Tag) : Prop where
  element : IsName tag.name.text
  attributes : ∀ attr ∈ tag.attributes, IsName attr.name.text
  declarations : ∀ declaration ∈ tag.declarations, ∀ qualifier,
    declaration.qualifier = some qualifier → ∀ c ∈ qualifier.toList, isNameChar c = true

theorem isName_declarationKey {qualifier : String}
    (h : ∀ c ∈ qualifier.toList, isNameChar c = true) : IsName ("xmlns:" ++ qualifier) := by
  have hlead : "xmlns:".toList.all isNameChar = true := by decide +kernel
  constructor
  · intro heq
    have hlength := congrArg String.length heq
    rw [String.length_append] at hlength
    simp at hlength
  · intro c hc
    rw [String.toList_append, List.mem_append] at hc
    exact hc.elim (List.all_eq_true.1 hlead c) (h c)

theorem Tag.IsNamed.areAttributes {tag : Tag} (h : tag.IsNamed) {scope : List Declaration}
    (hreads : tag.Reads scope) :
    AreAttributes (Document.writtenAttributes tag.declarations tag) where
  names := by
    intro attr hattr
    rcases List.mem_append.1 hattr with hattr | hattr
    · obtain ⟨⟨qualifier, uri⟩, hmem, rfl⟩ := List.mem_map.1 hattr
      cases qualifier with
      | none =>
        have hdefault : IsName "xmlns" := by decide +kernel
        exact hdefault
      | some qualifier => exact isName_declarationKey (h.declarations _ hmem qualifier rfl)
    · obtain ⟨attr, hmem, rfl⟩ := List.mem_map.1 hattr
      exact h.attributes attr hmem
  nodup := hreads.nodup_written

/-! ## Blocks of pieces -/

namespace Piece

/-- Readable pieces that begin and end with tags. -/
structure Block (pieces : List Piece) : Prop where
  readable : ∀ piece ∈ pieces, piece.Readable
  apart : pieces.IsChain Apart
  head : ∀ piece ∈ pieces.head?, piece.isData = false
  last : ∀ piece ∈ pieces.getLast?, piece.isData = false

instance (pieces : List Piece) : Decidable (Block pieces) :=
  decidable_of_iff ((∀ piece ∈ pieces, piece.Readable) ∧ pieces.IsChain Apart ∧
      (∀ piece ∈ pieces.head?, piece.isData = false) ∧
      ∀ piece ∈ pieces.getLast?, piece.isData = false)
    ⟨fun h => ⟨h.1, h.2.1, h.2.2.1, h.2.2.2⟩, fun h => ⟨h.readable, h.apart, h.head, h.last⟩⟩

theorem block_nil : Block [] where
  readable := by simp
  apart := List.isChain_nil
  head := by simp
  last := by simp

theorem Block.append {xs ys : List Piece} (hx : Block xs) (hy : Block ys) : Block (xs ++ ys) where
  readable piece hpiece := (List.mem_append.1 hpiece).elim (hx.readable piece) (hy.readable piece)
  apart := hx.apart.append hy.apart fun piece hpiece _ _ => .inl (hx.last piece hpiece)
  head piece hpiece := by
    cases xs with
    | nil => exact hy.head piece hpiece
    | cons first rest => exact hx.head piece hpiece
  last piece hpiece := by
    rw [List.getLast?_append, Option.mem_def, Option.or_eq_some_iff] at hpiece
    rcases hpiece with hpiece | ⟨-, hpiece⟩
    · exact hy.last piece hpiece
    · exact hx.last piece hpiece

theorem block_singleton {piece : Piece} (h : piece.Readable) (hdata : piece.isData = false) :
    Block [piece] where
  readable := by simpa using h
  apart := List.isChain_singleton _
  head := by simpa using hdata
  last := by simpa using hdata

/-- No two pieces of data stand side by side in an element if none do inside of it. -/
theorem isChain_enclosed {name : String} {attributes : List (String × String)}
    {inside : List Piece} (hapart : inside.IsChain Apart) :
    (.opening name attributes :: inside ++ [.closing name] : List Piece).IsChain Apart := by
  have hopen : (.opening name attributes :: inside : List Piece).IsChain Apart :=
    List.isChain_cons.2 ⟨fun _ _ => .inl rfl, hapart⟩
  refine hopen.append (List.isChain_singleton _) ?_
  rintro _ - _ hlast
  cases hlast
  exact .inr rfl

/-- The pieces of an element. -/
theorem block_enclosed {name : String} {attributes : List (String × String)}
    {inside : List Piece} (hname : IsName name) (hattributes : AreAttributes attributes)
    (hreadable : ∀ piece ∈ inside, piece.Readable) (hapart : inside.IsChain Apart) :
    Block (.opening name attributes :: inside ++ [.closing name]) where
  readable := by
    intro piece hpiece
    rcases List.mem_append.1 hpiece with hpiece | hpiece
    · rcases List.mem_cons.1 hpiece with rfl | hpiece
      · exact ⟨hname, hattributes⟩
      · exact hreadable piece hpiece
    · rw [List.mem_singleton.1 hpiece]
      exact hname
  apart := isChain_enclosed hapart
  head := by
    rintro _ hhead
    cases hhead
    rfl
  last := by
    intro piece hpiece
    rw [List.getLast?_concat] at hpiece
    cases hpiece
    rfl

end Piece

namespace Lenient.Reading

/-! ## Elements and character data -/

/-- A reading with the given names of open tags, whose assembly shows frames and trees. -/
structure Shows (r : Reading) (names : List (List Char)) (frames : List Frame)
    (done : List Tree) : Prop where
  openNames : r.openNames = names
  assembly : r.assembly.Shows frames done

variable {r : Reading} {names : List (List Char)} {frames : List Frame} {done : List Tree}

/-- `opened` is the tag that is resolved, with its declarations in their order. -/
theorem Shows.openRaw (h : r.Shows names frames done) (htop : frames = [] → done = [])
    {written : String} {raw : List (String × String)} {tag opened : Tag}
    (htag : tag.Resolved (Frame.scope frames) written raw) (hopened : tag.sorted = opened) :
    ∃ a, r.assembly.openRaw written raw = .ok a ∧ a.Shows (⟨opened, done⟩ :: frames) [] := by
  rw [← h.assembly.scopes_flatten] at htag
  rw [Assembly.openRaw_eq_openTag htag, ← hopened]
  rcases h.assembly.openTag tag with ⟨hframes, hdone, -⟩ | ⟨-, h⟩
  · exact absurd (htop hframes) hdone
  · exact h

/-- An element without anything inside of it. -/
theorem Shows.take_empty (h : r.Shows names frames done) (htop : frames = [] → done = [])
    {written : String} {raw : List (String × String)} {tag opened : Tag}
    (htag : tag.Resolved (Frame.scope frames) written raw) (hopened : tag.sorted = opened) :
    ∃ r', [Piece.empty written raw].foldlM take r = .ok r' ∧
      r'.Shows names frames (done ++ [.element opened []]) := by
  obtain ⟨a, ha, hs⟩ := h.openRaw htop htag hopened
  obtain ⟨b, hb, hs'⟩ := hs.close written
  refine ⟨⟨b, r.openNames⟩, ?_, h.openNames, hs'⟩
  rw [List.foldlM_cons, take, ha]
  show ((a.close written >>= _) >>= _) = _
  rw [hb]
  rfl

/-- An element, of whose inside it is known what it leads to. -/
theorem Shows.take_enclosed (h : r.Shows names frames done) (htop : frames = [] → done = [])
    {written : String} {raw : List (String × String)} {tag opened : Tag}
    (htag : tag.Resolved (Frame.scope frames) written raw) (hopened : tag.sorted = opened)
    {inside : List Piece} {children : List Tree}
    (hinside : ∀ r₁ : Reading, r₁.Shows (written.toList :: names) (⟨opened, done⟩ :: frames) [] →
      ∃ r₂, inside.foldlM take r₁ = .ok r₂ ∧
        r₂.Shows (written.toList :: names) (⟨opened, done⟩ :: frames) children) :
    ∃ r', (Piece.opening written raw :: inside ++ [Piece.closing written]).foldlM take r = .ok r' ∧
      r'.Shows names frames (done ++ [.element opened children]) := by
  obtain ⟨a, ha, hs⟩ := h.openRaw htop htag hopened
  have hopen : r.take (.opening written raw) = .ok ⟨a, written.toList :: r.openNames⟩ := by
    rw [take, ha]
    rfl
  obtain ⟨r₂, hr₂, hs₂⟩ := hinside ⟨a, written.toList :: r.openNames⟩
    ⟨congrArg _ h.openNames, hs⟩
  obtain ⟨b, hb, hs'⟩ := hs₂.assembly.close written
  have hclose : r₂.take (.closing written) = .ok ⟨b, names⟩ := by
    rw [take, hs₂.openNames]
    simp only [if_true]
    rw [hb]
    rfl
  refine ⟨⟨b, names⟩, ?_, rfl, hs'⟩
  rw [List.cons_append, List.foldlM_cons, hopen]
  refine Eq.trans (List.foldlM_append ..) ?_
  rw [hr₂]
  show [Piece.closing written].foldlM take r₂ = _
  rw [List.foldlM_cons, hclose]
  rfl

theorem take_blank {data : String} (hdata : Text.isAllBlank data = true) :
    r.take (.text data) = .ok r := by
  rw [take, Assembly.addText_blank hdata]
  rfl

theorem Shows.take_text (h : r.Shows names frames done) (hframes : frames ≠ []) {data : String}
    (hdata : Text.isAllBlank data = false) :
    ∃ r', r.take (.text data) = .ok r' ∧ r'.Shows names frames (Tree.addText done data) := by
  obtain ⟨a, ha, hs⟩ := h.assembly.addText hdata hframes
  refine ⟨⟨a, r.openNames⟩, ?_, h.openNames, hs⟩
  rw [take, ha]
  rfl

end Lenient.Reading

/-- What is laid out behind an XML declaration is read as its pieces are taken. -/
theorem Document.read_render_eq {pieces : List Piece} (h : Piece.Block pieces) :
    Document.read .lenient (Piece.render (.declaration :: pieces)) =
      pieces.foldlM Lenient.Reading.take ⟨Assembly.start, []⟩ >>= fun r => r.assembly.finish := by
  have hreadable : ∀ piece ∈ Piece.declaration :: pieces, piece.Readable :=
    List.forall_mem_cons.2 ⟨trivial, h.readable⟩
  have hapart : (Piece.declaration :: pieces).IsChain Piece.Apart :=
    List.isChain_cons.2 ⟨fun _ _ => .inl rfl, h.apart⟩
  obtain ⟨rest, hrest⟩ : ∃ rest, (Piece.render (.declaration :: pieces)).toList = '<' :: rest :=
    ⟨_, by rw [Piece.render, Piece.layout]; simp [Piece.written, Piece.isData]; rfl⟩
  have hblank : Text.isAllBlank (Piece.render (.declaration :: pieces)) = false := by
    rw [Text.isAllBlank, hrest]
    rfl
  have hmark : Lenient.dropMark (Piece.render (.declaration :: pieces)).toList =
      (Piece.render (.declaration :: pieces)).toList := by
    rw [hrest]
    rfl
  rw [Document.read, hblank, if_neg Bool.false_ne_true, Lenient.read, hmark, Piece.render,
    Lenient.foldlM_layout hreadable hapart, List.foldlM_cons]
  rfl

theorem Document.read_render {pieces : List Piece} (h : Piece.Block pieces) {r : Lenient.Reading}
    (hr : pieces.foldlM Lenient.Reading.take ⟨Assembly.start, []⟩ = .ok r) :
    Document.read .lenient (Piece.render (.declaration :: pieces)) = r.assembly.finish := by
  rw [read_render_eq h, hr]
  rfl

end SoapKit.Xml
