import SoapKit.Proofs.Xml.Building

/-!
# The table of a built document

**Theorem (`build_isArena`).** The table of a document that is built is a well-formed arena, the
declarations on its elements are in their order, and the tables of standalone copies are well-formed
arenas as well.

What makes a table an arena is said by its entries alone (`IsArena`). Document order is a matter of
the lists of children: `Preorder` goes from a node to what is below its first child, then below its
second one, and so on. That the table lists a forest gives the links and the order, by induction on
trees and forests together (`Holds.preorder`); that the forest is tidy gives what is said about
character data (`HoldsAll.isChain_places`).
-/

namespace SoapKit.Xml.Document

open SoapKit.Xml.Tree

/-! ## Arenas -/

mutual

/-- The places from a node on downwards: the node, then what its children lead to. -/
inductive Preorder (d : Document) : Nat → List Nat → Prop where
  | node {place : Nat} {below : List Nat} :
      PreorderAll d (d.entry place).children below → Preorder d place (place :: below)

/-- The places from nodes on downwards, one node after the other. -/
inductive PreorderAll (d : Document) : List Nat → List Nat → Prop where
  | nil : PreorderAll d [] []
  | cons {place : Nat} {places inside behind : List Nat} : Preorder d place inside →
      PreorderAll d places behind → PreorderAll d (place :: places) (inside ++ behind)

end

/-- A table whose links and lists of children describe one tree below the document node, with the
places in document order. -/
structure IsArena (d : Document) : Prop where
  nonempty : 0 < d.entries.size
  document : ∀ place < d.entries.size, d.isDocument (Node.ofPlace place) = true ↔ place = 0
  top : (d.entry 0).parent = none
  links : ∀ parent place, d.IsChild parent place ↔ place ∈ (d.entry parent).children
  listed : ∀ place, 0 < place → place < d.entries.size →
    ∃! parent, place ∈ (d.entry parent).children
  nodup : ∀ parent, (d.entry parent).children.Nodup
  preorder : d.Preorder 0 (List.range d.entries.size)
  contiguous : ∀ place < d.entries.size, ∃ count, d.Preorder place (List.range' place count) ∧
    ∀ m, d.IsBelow place m ↔ place < m ∧ m < place + count
  rooted : ∃ place, (d.entry 0).children = [place] ∧ d.isElement (Node.ofPlace place) = true
  texts : ∀ place data, d.ownText (Node.ofPlace place) = some data →
    (d.entry place).children = [] ∧ ∃ c ∈ data.toList, Text.isBlank c = false
  apart : ∀ parent, (d.entry parent).children.IsChain fun m k =>
    d.isText (Node.ofPlace m) = false ∨ d.isText (Node.ofPlace k) = false

variable {d : Document}

/-! ## Places in document order -/

mutual

theorem Holds.preorder {parent place : Nat} : ∀ {t : Tree}, d.Holds parent place t →
    d.Preorder place (List.range' place t.size)
  | .text data, h => by
    have hchildren : d.PreorderAll (d.entry place).children [] := by
      rw [h.entry_text]
      exact .nil
    exact .node hchildren
  | .element tag children, h => by
    have hchildren : d.PreorderAll (d.entry place).children
        (List.range' (place + 1) (sizeAll children)) := by
      rw [h.entry_element]
      exact HoldsAll.preorderAll h.children
    exact .node hchildren

/-- What a forest lists follows each other, tree by tree. -/
theorem HoldsAll.preorderAll {parent place : Nat} : ∀ {forest : List Tree},
    d.HoldsAll parent place forest →
      d.PreorderAll (places place forest) (List.range' place (sizeAll forest))
  | [], _ => .nil
  | t :: rest, h => by
    rw [sizeAll, ← List.range'_append_1]
    exact .cons h.head.preorder (HoldsAll.preorderAll h.tail)

end

variable {forest : List Tree}

theorem Shows.preorder (hd : d.Shows forest) : d.Preorder 0 (List.range d.entries.size) := by
  have hchildren : d.PreorderAll (d.entry 0).children (List.range' 1 (sizeAll forest)) := by
    rw [hd.entry_zero]
    exact hd.holdsAll.preorderAll
  rw [hd.size_eq, List.range_eq_range', List.range'_succ]
  exact .node hchildren

/-- A node and what is below it stand together. -/
theorem Shows.contiguous (hd : d.Shows forest) {place : Nat} (hplace : place < d.entries.size) :
    ∃ count, d.Preorder place (List.range' place count) ∧
      ∀ m, d.IsBelow place m ↔ place < m ∧ m < place + count := by
  rcases Nat.eq_zero_or_pos place with rfl | hpos
  · refine ⟨d.entries.size, by rw [← List.range_eq_range']; exact hd.preorder, fun m => ?_⟩
    rw [hd.below_zero_iff, Nat.zero_add]
  · obtain ⟨parent, t, ht, -⟩ := hd.locate hpos hplace
    exact ⟨t.size, ht.preorder, fun m => ht.below_iff hd⟩

/-! ## Kinds of nodes -/

theorem Holds.isText {parent place : Nat} {t : Tree} (h : d.Holds parent place t) :
    d.isText (Node.ofPlace place) = t.isText := by
  have hplace : (Node.ofPlace place).place = place := rfl
  rw [Document.isText, hplace]
  cases t with
  | text data =>
    rw [h.entry_text]
    rfl
  | element tag children =>
    rw [h.entry_element]
    rfl

theorem Shows.isDocument_iff (hd : d.Shows forest) {place : Nat}
    (hplace : place < d.entries.size) :
    d.isDocument (Node.ofPlace place) = true ↔ place = 0 := by
  have hsame : (Node.ofPlace place).place = place := rfl
  rw [isDocument, hsame]
  rcases Nat.eq_zero_or_pos place with rfl | hpos
  · rw [hd.entry_zero]
    simp
  · obtain ⟨parent, t, ht, -⟩ := hd.locate hpos hplace
    have hne : place ≠ 0 := Nat.ne_of_gt hpos
    cases t with
    | text data =>
      rw [ht.entry_text]
      simpa using hne
    | element tag children =>
      rw [ht.entry_element]
      simpa using hne

/-- Siblings in the table stand apart as the trees do. -/
theorem HoldsAll.isChain_places {parent place : Nat} {forest : List Tree}
    (h : d.HoldsAll parent place forest) (hchain : forest.IsChain Apart) :
    (places place forest).IsChain fun m k =>
      d.isText (Node.ofPlace m) = false ∨ d.isText (Node.ofPlace k) = false := by
  induction forest generalizing place with
  | nil => exact List.isChain_nil
  | cons t rest ih =>
    rw [List.isChain_cons] at hchain
    refine List.isChain_cons.2 ⟨fun k hk => ?_, ih h.tail hchain.2⟩
    cases rest with
    | nil => cases hk
    | cons u rest =>
      cases hk
      rw [h.head.isText, h.tail.head.isText]
      exact hchain.1 u rfl

variable {P : List Declaration → Tag → Prop}

theorem Shows.apart (hd : d.Shows forest) (hforest : TidyAll P [] forest)
    (hchain : forest.IsChain Apart) (parent : Nat) :
    (d.entry parent).children.IsChain fun m k =>
      d.isText (Node.ofPlace m) = false ∨ d.isText (Node.ofPlace k) = false := by
  rcases Nat.eq_zero_or_pos parent with rfl | hpos
  · rw [hd.entry_zero]
    exact hd.holdsAll.isChain_places hchain
  · by_cases hlt : parent < d.entries.size
    · obtain ⟨q, t, ht, htidy⟩ := hd.locate_tidy hforest hpos hlt
      cases t with
      | text data =>
        rw [ht.entry_text]
        exact List.isChain_nil
      | element tag children =>
        rw [ht.entry_element]
        exact ht.children.isChain_places htidy.2.2
    · rw [entry_of_size_le (Nat.le_of_not_lt hlt)]
      exact List.isChain_nil

theorem Shows.texts (hd : d.Shows forest) (hforest : TidyAll P [] forest) {place : Nat}
    {data : String} (h : d.ownText (Node.ofPlace place) = some data) :
    (d.entry place).children = [] ∧ ∃ c ∈ data.toList, Text.isBlank c = false := by
  have hcontent : (d.entry place).content = .text data := by
    simp only [ownText, Node.ofPlace] at h
    split at h
    · rename_i heq
      cases h
      exact heq
    · cases h
  have hpos : 0 < place := by
    refine Nat.pos_of_ne_zero fun h0 => ?_
    rw [h0, hd.entry_zero] at hcontent
    cases hcontent
  have hlt : place < d.entries.size := by
    refine Nat.lt_of_not_le fun hle => ?_
    rw [entry_of_size_le hle] at hcontent
    cases hcontent
  obtain ⟨q, t, ht, htidy⟩ := hd.locate_tidy hforest hpos hlt
  cases t with
  | element tag children =>
    rw [ht.entry_element] at hcontent
    cases hcontent
  | text data' =>
    rw [ht.entry_text] at hcontent ⊢
    cases hcontent
    exact ⟨rfl, List.all_eq_false.1 htidy |>.imp fun c hc => ⟨hc.1, by simpa using hc.2⟩⟩

/-! ## Documents that list one tidy element -/

theorem Shows.isArena {tag : Tag} {children : List Tree} (hd : d.Shows [.element tag children])
    (htidy : (Tree.element tag children).Tidy P []) : d.IsArena where
  nonempty := by
    rw [hd.size_eq]
    exact Nat.succ_pos _
  document place hplace := hd.isDocument_iff hplace
  top := by rw [hd.entry_zero]
  links parent place := hd.isChild_iff
  listed place hpos hlt := by
    obtain ⟨q, t, ht, hmem⟩ := hd.locate hpos hlt
    refine ⟨q, hmem, fun p hp => ?_⟩
    have hparent := (hd.isChild_iff.2 hp).2
    rw [ht.parent] at hparent
    exact (Option.some.inj hparent).symm
  nodup parent := (hd.pairwise_children parent).imp Nat.ne_of_lt
  preorder := hd.preorder
  contiguous place hplace := hd.contiguous hplace
  rooted := by
    refine ⟨1, by rw [hd.entry_zero]; rfl, ?_⟩
    have htag : d.tag (Node.ofPlace 1) = some tag := hd.holdsAll.head.tagAt_element
    rw [isElement, htag]
    rfl
  texts place data h := hd.texts ⟨htidy, trivial⟩ h
  apart parent := hd.apart ⟨htidy, trivial⟩ (List.isChain_singleton _) parent

/-- The declarations of every tag that a step opens are put in order. -/
theorem opens_pairwise (s : Assembly.Step) :
    s.Opens fun _ tag => tag.declarations.Pairwise fun a b => a.le b := by
  cases s with
  | openRaw written attributes => exact fun _ tag _ => pairwise_mergeSort_declarations _
  | openTag tag => exact fun _ => pairwise_mergeSort_declarations _
  | close written => trivial
  | addText data => trivial

theorem portable_trivial : Tag.Portable fun _ _ => True :=
  ⟨fun _ _ => trivial, fun _ => trivial⟩

/-- A document that is built is a well-formed arena with its declarations in their order. The copies
of its elements are well-formed arenas; on a copied element, declarations are in another order. -/
theorem build_isArena {steps : List Assembly.Step} (h : Document.build steps = .ok d) :
    d.IsArena ∧
      (∀ place tag, d.tagAt place = some tag → tag.declarations.Pairwise fun a b => a.le b) ∧
      ∀ copy n, d.Copies copy → copy.isElement n = true → (copy.subtree n).IsArena := by
  obtain ⟨tag, children, hd, htidy⟩ := build_tidy (fun s _ => opens_pairwise s) h
  refine ⟨hd.isArena htidy, fun place tag htag => ?_, fun copy n hcopy hn => ?_⟩
  · obtain ⟨parent, children, -, hsorted, -⟩ := hd.tidy_of_tag ⟨htidy, trivial⟩ htag
    exact hsorted
  · -- a copy's own declarations are not sorted, so nothing is asked of its tags
    have hopens : ∀ s : Assembly.Step, s.Opens fun _ _ => True := by
      rintro (_ | _ | _ | _) <;> simp [Assembly.Step.Opens]
    obtain ⟨tag, children, hd, htidy⟩ := build_tidy (fun s _ => hopens s) h
    have hforest : d.Tidy fun _ _ => True := ⟨_, .inr ⟨tag, children, rfl⟩, hd, htidy, trivial⟩
    obtain ⟨tag, children, hcopied, htidy⟩ :=
      (hcopy.tidy portable_trivial hforest).subtree_element portable_trivial hn
    exact hcopied.isArena htidy

/-- Text in two pieces, an element that is empty and declarations that are out of order. -/
theorem build_isArena_of_mixed :
    ∃ d, Document.build [.openRaw "p:a" [("xmlns:p", "urn:p"), ("xmlns", "urn:d")],
        .addText " 1 ", .addText "2", .openTag ⟨⟨none, "b"⟩, none, [], []⟩, .close "b",
        .addText "\n", .close "p:a"] = .ok d ∧
      d.IsArena ∧
      (∀ place tag, d.tagAt place = some tag → tag.declarations.Pairwise fun a b => a.le b) ∧
      ∀ copy n, d.Copies copy → copy.isElement n = true → (copy.subtree n).IsArena := by
  obtain ⟨d, hbuild⟩ := exists_eq_ok (x := Document.build
    [.openRaw "p:a" [("xmlns:p", "urn:p"), ("xmlns", "urn:d")], .addText " 1 ", .addText "2",
      .openTag ⟨⟨none, "b"⟩, none, [], []⟩, .close "b", .addText "\n", .close "p:a"])
    (by decide +kernel)
  exact ⟨d, hbuild, build_isArena hbuild⟩

end SoapKit.Xml.Document
