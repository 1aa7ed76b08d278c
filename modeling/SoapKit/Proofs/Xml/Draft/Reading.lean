import SoapKit.Proofs.Xml.Draft.Mirror
import SoapKit.Proofs.Xml.Taking

/-!
# Drafts that are read

What the lenient reader makes of a written draft mirrors the draft (`Draft.exists_mirror_of_toXml`).

The pieces of an element are read to a tree that shows it, by induction on the element. The scope
goes along with the reading: it agrees with the declarations of the open frames, so what it adds on
an element is what the reader finds in the tag.
-/

namespace SoapKit.Xml

open Lenient

namespace DraftElement

/-! ## The pieces of an element -/

theorem pieces_eq_ok {e : DraftElement} (he : e.WellFormed) {scope : Scope} {ps : List Piece}
    (h : e.pieces scope = .ok ps) : ∃ added, e.neededDeclarations (scope.enter e) = .ok added ∧
      ((∃ text, e.value = some (.data text) ∧ e.children = [] ∧
        ps = .opening e.name.text
          (added.map (fun entry => (declarationKey entry.1, entry.2)) ++ e.attributes) ::
            [.text text] ++ [.closing e.name.text]) ∨
      (e.value = none ∧ e.children = [] ∧
        ps = [.empty e.name.text
          (added.map (fun entry => (declarationKey entry.1, entry.2)) ++ e.attributes)]) ∨
      (e.value = none ∧ ∃ inner,
        piecesIn ((scope.enter e).within added e) e.children = .ok inner ∧
        ps = .opening e.name.text
          (added.map (fun entry => (declarationKey entry.1, entry.2)) ++ e.attributes) ::
            inner ++ [.closing e.name.text])) := by
  obtain ⟨name, own, attributes, declared, children, value⟩ := e
  rw [pieces] at h
  split at h
  · cases h
  · rename_i hmixed
    obtain ⟨added, hadded, h⟩ := bind_eq_ok.1 h
    refine ⟨added, hadded, ?_⟩
    cases value with
    | some value =>
      cases value with
      | data text =>
        cases children with
        | nil =>
          cases h
          exact .inl ⟨text, rfl, rfl, rfl⟩
        | cons child rest => exact absurd rfl hmixed
      | markup text =>
        cases he with
        | mk _ _ _ _ _ hvalue => exact absurd rfl (hvalue text)
    | none =>
      refine .inr ?_
      cases children with
      | nil =>
        cases h
        exact .inl ⟨rfl, rfl, rfl⟩
      | cons child rest =>
        obtain ⟨inner, hinner, h⟩ := bind_eq_ok.1 h
        cases h
        exact .inr ⟨rfl, inner, hinner, rfl⟩

/-! ## Reading the pieces -/

/-- Pieces are read as a tree, behind what was there before, wherever the declarations outside are
in force. -/
structure ReadAs (outside : List Declaration) (pieces : List Piece) (t : Tree) : Prop where
  block : Piece.Block pieces
  take {r : Reading} {names : List (List Char)} {frames : List Frame} {done : List Tree} :
    r.Shows names frames done → Frame.scope frames = outside → (frames = [] → done = []) →
      ∃ r', pieces.foldlM Reading.take r = .ok r' ∧ r'.Shows names frames (done ++ [t])

/-- Pieces inside of an element are read as trees. -/
structure ReadAsAll (outside : List Declaration) (pieces : List Piece) (trees : List Tree) :
    Prop where
  block : Piece.Block pieces
  take {r : Reading} {names : List (List Char)} {frames : List Frame} {done : List Tree} :
    r.Shows names frames done → Frame.scope frames = outside → frames ≠ [] →
      ∃ r', pieces.foldlM Reading.take r = .ok r' ∧ r'.Shows names frames (done ++ trees)

theorem readAsAll_nil {outside : List Declaration} : ReadAsAll outside [] [] where
  block := Piece.block_nil
  take {r _ _ _} hr _ _ := ⟨r, rfl, by rwa [List.append_nil]⟩

theorem ReadAs.cons {outside : List Declaration} {first rest : List Piece} {t : Tree}
    {trees : List Tree} (hfirst : ReadAs outside first t) (hrest : ReadAsAll outside rest trees) :
    ReadAsAll outside (first ++ rest) (t :: trees) where
  block := hfirst.block.append hrest.block
  take {r _ _ done} hr hscope hframes := by
    obtain ⟨r₁, hr₁, hs₁⟩ := hfirst.take hr hscope fun h => absurd h hframes
    obtain ⟨r₂, hr₂, hs₂⟩ := hrest.take hs₁ hscope hframes
    refine ⟨r₂, ?_, List.append_cons done t trees ▸ hs₂⟩
    rw [List.foldlM_append, hr₁]
    exact hr₂

variable {e : DraftElement} {scope : Scope} {declarations : List Declaration}
  {added : List (String × String)} {tag : Tag}

theorem WellFormed.isNcName_of_uses (he : e.WellFormed) {qualifier : String}
    (h : e.Uses qualifier) : IsNcName qualifier := by
  cases he with
  | mk hname _ hattributes _ hdeclared =>
    rcases h with h | h | ⟨-, attr, hattr, h⟩
    · exact hname.qualifier qualifier h
    · exact hdeclared qualifier h
    · exact (hattributes attr hattr).1.qualifier qualifier h

theorem Adds.isNamed (h : e.Adds scope added) (he : e.WellFormed) (outside : List Declaration) :
    (e.tagAmong (declarationsOf added) outside).IsNamed where
  element := by
    cases he with
    | mk hname => exact hname.isName_text
  attributes := by
    intro attr hattr
    obtain ⟨written, hwritten, rfl⟩ := List.mem_map.1 hattr
    cases he with
    | mk _ _ hattributes => exact (hattributes written hwritten).1.isName_text
  declarations := by
    intro declaration hmem qualifier hqualifier
    obtain ⟨key, hkey, hadded⟩ := mem_declarationsOf.1 hmem
    rw [hqualifier] at hkey
    cases hkey
    exact (he.isNcName_of_uses ((h.mem _ _).1 hadded).1).1.2

theorem Adds.areAttributes (h : e.Adds scope added) (he : e.WellFormed)
    (hagrees : scope.Agrees declarations) :
    AreAttributes
      (added.map (fun entry => (declarationKey entry.1, entry.2)) ++ e.attributes) := by
  rw [← writtenAttributes_tagAmong e added declarations]
  exact (h.isNamed he declarations).areAttributes (h.reads he hagrees)

theorem Adds.resolved (h : e.Adds scope added) (he : e.WellFormed)
    (hagrees : scope.Agrees declarations) :
    (e.tagAmong (declarationsOf added) declarations).Resolved declarations e.name.text
      (added.map (fun entry => (declarationKey entry.1, entry.2)) ++ e.attributes) := by
  rw [← writtenAttributes_tagAmong e added declarations]
  exact (h.reads he hagrees).resolved

theorem WellFormed.isName_text (he : e.WellFormed) : IsName e.name.text := by
  cases he with
  | mk hname => exact hname.isName_text

theorem Adds.readAs_empty (h : e.Adds scope added) (he : e.WellFormed)
    (hagrees : scope.Agrees declarations)
    (htag : (e.tagAmong (declarationsOf added) declarations).sorted = tag) :
    ReadAs declarations
      [.empty e.name.text
        (added.map (fun entry => (declarationKey entry.1, entry.2)) ++ e.attributes)]
      (.element tag []) where
  block := Piece.block_singleton ⟨he.isName_text, h.areAttributes he hagrees⟩ rfl
  take {_ _ _ _} hr hscope htop := by
    subst hscope
    exact hr.take_empty htop (h.resolved he hagrees) htag

/-- An element with pieces inside is read as what these are read as, below the tag. -/
theorem Adds.readAs_enclosed (h : e.Adds scope added) (he : e.WellFormed)
    (hagrees : scope.Agrees declarations)
    (htag : (e.tagAmong (declarationsOf added) declarations).sorted = tag)
    {inside : List Piece} {trees : List Tree} (hreadable : ∀ piece ∈ inside, piece.Readable)
    (hapart : inside.IsChain Piece.Apart)
    (htake : ∀ {r : Reading} {names : List (List Char)} {frames : List Frame},
      r.Shows names frames [] → Frame.scope frames = tag.declarations ++ declarations →
        frames ≠ [] → ∃ r', inside.foldlM Reading.take r = .ok r' ∧ r'.Shows names frames trees) :
    ReadAs declarations
      (.opening e.name.text
        (added.map (fun entry => (declarationKey entry.1, entry.2)) ++ e.attributes) ::
          inside ++ [.closing e.name.text])
      (.element tag trees) where
  block := Piece.block_enclosed he.isName_text (h.areAttributes he hagrees) hreadable hapart
  take {_ _ frames done} hr hscope htop := by
    subst hscope
    exact hr.take_enclosed htop (h.resolved he hagrees) htag fun r₁ hr₁ =>
      htake hr₁ rfl (List.cons_ne_nil _ _)

/-- An element with a text holds it afterwards, unless the text is blank. -/
theorem Adds.readAs_text (h : e.Adds scope added) (he : e.WellFormed)
    (hagrees : scope.Agrees declarations)
    (htag : (e.tagAmong (declarationsOf added) declarations).sorted = tag) (text : String) :
    ReadAs declarations
      (.opening e.name.text
        (added.map (fun entry => (declarationKey entry.1, entry.2)) ++ e.attributes) ::
          [.text text] ++ [.closing e.name.text])
      (.element tag (if Text.isAllBlank text then [] else [.text text])) := by
  have hreadable : ∀ piece ∈ [Piece.text text], piece.Readable := by simp [Piece.Readable]
  refine h.readAs_enclosed he hagrees htag hreadable (List.isChain_singleton _) ?_
  intro r names frames hr _ hframes
  rw [List.foldlM_cons]
  cases hblank : Text.isAllBlank text with
  | true =>
    rw [Reading.take_blank hblank]
    exact ⟨r, rfl, hr⟩
  | false =>
    obtain ⟨r', hr', hs⟩ := hr.take_text hframes hblank
    rw [hr']
    exact ⟨r', rfl, hs⟩

mutual

/-- The pieces of an element are read as a tree that shows it. -/
theorem exists_readAs {scope : Scope} {declarations : List Declaration} :
    ∀ {e : DraftElement} {ps : List Piece}, e.WellFormed → scope.Agrees declarations →
      e.pieces scope = .ok ps →
        ∃ t, t.isText = false ∧ ReadAs declarations ps t ∧ e.ShownBy scope.aliases declarations t
  | mk name own attributes declared children value, ps, he, hagrees, h => by
    obtain ⟨added, hadded, hps⟩ := pieces_eq_ok he h
    have hagrees := hagrees.enter he
    have hadds := neededDeclarations_adds he hagrees hadded
    rcases hps with ⟨text, hvalue, hchildren, rfl⟩ | ⟨hvalue, hchildren, rfl⟩ |
      ⟨hvalue, inner, hinner, rfl⟩
    · refine ⟨_, rfl, hadds.readAs_text he hagrees rfl text, hadds.shownBy he hagrees rfl ?_⟩
      rw [ShownInside, hvalue, hchildren, shownText, Option.bind_some, DraftText.text]
      cases Text.isAllBlank text with
      | true => exact shownByAll_nil
      | false => exact ⟨rfl, rfl⟩
    · refine ⟨_, rfl, hadds.readAs_empty he hagrees rfl, hadds.shownBy he hagrees rfl ?_⟩
      rw [ShownInside, hvalue, hchildren]
      exact shownByAll_nil
    · have hchildren : ∀ child ∈ children, child.WellFormed := by
        cases he with
        | mk _ _ _ _ _ _ hchildren => exact hchildren
      obtain ⟨trees, hread, hshown⟩ := exists_readAsAll hchildren
        (hadds.agrees_within hagrees he (List.mergeSort_perm _ _)) hinner
      refine ⟨_, rfl, hadds.readAs_enclosed he hagrees rfl hread.block.readable hread.block.apart
        fun hr hscope hframes => hread.take hr hscope hframes, hadds.shownBy he hagrees rfl ?_⟩
      rw [ShownInside, hvalue]
      exact hshown

theorem exists_readAsAll {scope : Scope} {declarations : List Declaration} :
    ∀ {elements : List DraftElement} {ps : List Piece}, (∀ e ∈ elements, e.WellFormed) →
      scope.Agrees declarations → piecesIn scope elements = .ok ps →
        ∃ trees, ReadAsAll declarations ps trees ∧
          ShownByAll scope.aliases declarations elements trees
  | [], ps, _, _, h => by
    cases h
    exact ⟨[], readAsAll_nil, shownByAll_nil⟩
  | e :: rest, ps, hall, hagrees, h => by
    rw [List.forall_mem_cons] at hall
    obtain ⟨first, hfirst, h⟩ := bind_eq_ok.1 h
    obtain ⟨others, hothers, h⟩ := bind_eq_ok.1 h
    cases h
    obtain ⟨t, ht, hread, hshown⟩ := exists_readAs hall.1 hagrees hfirst
    obtain ⟨trees, hreadAll, hshownAll⟩ := exists_readAsAll hall.2 hagrees hothers
    exact ⟨t :: trees, hread.cons hreadAll,
      List.forall_mem_cons.2 ⟨ht, hshownAll.notText⟩, .cons hshown hshownAll.shown⟩

end

end DraftElement

/-! ## Whole drafts -/

namespace Draft

/-- At the top nothing is declared. -/
theorem agrees_nil {aliases : OrderedMap String String} (h : IsAliases aliases) :
    DraftElement.Scope.Agrees ⟨[aliases], []⟩ [] where
  aliases := by simpa using h
  bound := by
    intro qualifier hxml
    rw [Declaration.lookup, if_neg (by simpa using hxml)]
    rfl
  default := rfl
  aliased := by
    intro qualifier hdeclared
    cases hdeclared

/-- A written draft is read as a document of one tree, which shows the element of the draft. -/
theorem exists_shows_of_toXml {draft : Draft} (hdraft : draft.WellFormed) {text : String}
    (h : draft.toXml = .ok text) :
    ∃ d root t, Document.read .lenient text = .ok d ∧ draft.elements = [root] ∧
      d.Shows [t] ∧ root.ShownBy [draft.aliases] [] t := by
  obtain ⟨aliases, elements⟩ := draft
  obtain ⟨haliases, hall⟩ := hdraft
  match elements, h with
  | [root], h =>
    obtain ⟨pieces, hpieces, h⟩ := bind_eq_ok.1 h
    cases h
    obtain ⟨t, -, hread, hshown⟩ :=
      DraftElement.exists_readAs (hall root (by simp)) (agrees_nil haliases) hpieces
    have hstart : Reading.Shows ⟨Assembly.start, []⟩ [] [] [] := ⟨rfl, Assembly.shows_start⟩
    obtain ⟨r, hr, hs⟩ := hread.take hstart rfl fun _ => rfl
    have hd : Document.Shows ⟨(Tree.table [t]).toArray, []⟩ [t] := rfl
    refine ⟨_, root, t, ?_, rfl, hd, hshown⟩
    rw [Document.read_render hread.block hr]
    exact hs.assembly.finish_eq (List.cons_ne_nil _ _)

/-- A written draft is read as a document whose only node at the top mirrors the element of the
draft. -/
theorem exists_mirror_of_toXml {draft : Draft} (hdraft : draft.WellFormed) {text : String}
    (h : draft.toXml = .ok text) :
    ∃ d root n, Document.read .lenient text = .ok d ∧ draft.elements = [root] ∧
      d.children Document.root = [n] ∧ root.Mirrors d [draft.aliases] n := by
  obtain ⟨d, root, t, hread, hroot, hd, hshown⟩ := exists_shows_of_toXml hdraft h
  refine ⟨d, root, Node.ofPlace 1, hread, hroot, hd.children_root, ?_⟩
  exact hshown d [t] 0 1 hd hd.holdsAll.head hd.reachingDeclarations_root

/-- A qualifier that gets another namespace further inside, and markup in a value. -/
theorem exists_mirror_of_rebound :
    let inner : DraftElement :=
      .mk ⟨some "a", "x"⟩ ⟨[("a", "v")]⟩ [("k", "<&>")] [] [] (some (.data "1 < 2"))
    let draft : Draft := ⟨⟨[("a", "u")]⟩, [.mk ⟨some "a", "r"⟩ ⟨[]⟩ [] [] [inner] none]⟩
    draft.WellFormed ∧ ∃ text, draft.toXml = .ok text ∧
      ∃ d root n, Document.read .lenient text = .ok d ∧ draft.elements = [root] ∧
        d.children Document.root = [n] ∧ root.Mirrors d [draft.aliases] n := by
  intro inner draft
  have hname : ∀ base, IsNcName base → (⟨some "a", base⟩ : Name).WellFormed := by
    intro base hbase
    refine ⟨fun qualifier hqualifier => ?_, hbase⟩
    cases hqualifier
    decide +kernel
  have hinner : inner.WellFormed := by
    refine .mk (hname "x" (by decide +kernel)) (by simp [IsAliases]) ?_ (by simp) (by simp)
      (by simp) (by simp)
    intro attr hattr
    rw [List.mem_singleton.1 hattr]
    exact ⟨⟨by simp [Name.parse, Text.splitOnce], by decide +kernel⟩, by decide +kernel⟩
  have hdraft : draft.WellFormed := by
    refine ⟨by simp [IsAliases, draft], ?_⟩
    intro e he
    rw [List.mem_singleton.1 he]
    refine .mk (hname "r" (by decide +kernel)) (by simp [IsAliases]) (by simp) (by simp) (by simp)
      (by simp) ?_
    simpa using hinner
  exact ⟨hdraft, _, rfl, exists_mirror_of_toXml hdraft rfl⟩

end Draft

end SoapKit.Xml
