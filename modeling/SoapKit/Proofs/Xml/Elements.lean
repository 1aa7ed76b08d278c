import SoapKit.Proofs.Xml.Node
import SoapKit.Xml.Elements

/-!
# Elements below a node

The elements below a node are listed child by child, each before what is below it. In a document
that shows a forest these are the elements among its descendants (`Shows.elementsBelow_eq`), and
they stand in document order (`Shows.precedes_elementsBelow`).
-/

namespace SoapKit.Xml.Document

open SoapKit.Xml.Tree

variable {d : Document} {forest : List Tree}

/-- With enough levels, going down from level to level lists what the recursion lists. -/
theorem flatMap_elementsWithin {nodes listing : List Node} {depth : Nat}
    (h : Traversal d.childElements nodes listing) (hdepth : listing.length ≤ depth) :
    nodes.flatMap (fun n => n :: d.elementsWithin depth n) = listing := by
  induction h generalizing depth with
  | nil => rfl
  | @cons n nodes inside behind _ _ ih ih' =>
    rw [List.length_cons, List.length_append] at hdepth
    obtain ⟨depth, rfl⟩ : ∃ k, depth = k + 1 := ⟨depth - 1, by omega⟩
    rw [List.flatMap_cons, elementsWithin, ih (by omega), ih' (by omega), List.cons_append]

/-- Only elements have children, so all elements of a forest are listed by going to child elements.
-/
theorem HoldsAll.traversal_elements {parent place : Nat} (h : d.HoldsAll parent place forest) :
    Traversal d.childElements (((places place forest).map Node.ofPlace).filter d.isElement)
      (((List.range' place (sizeAll forest)).map Node.ofPlace).filter d.isElement) := by
  refine h.traversal.filter fun n hn hnot => ?_
  obtain ⟨p, hp, rfl⟩ := List.mem_map.1 hn
  obtain ⟨hle, hlt⟩ := List.mem_range'_1.1 hp
  obtain ⟨q, t, ht, -⟩ := h.locate hle hlt
  cases t with
  | text data => exact ht.children_eq_nil
  | element tag children =>
    have htag : d.tagAt p = some tag := by rw [tagAt, ht.entry_element]
    rw [isElement, show d.tag (Node.ofPlace p) = some tag from htag] at hnot
    cases hnot

/-- The elements below a node are its descendants that are elements. -/
theorem Shows.elementsBelow_eq (h : d.Shows forest) (n : Node) :
    d.elementsBelow n = (d.descendants n).filter d.isElement := by
  obtain ⟨place, inside, hinside, hsize, hchildren, hdescendants⟩ := h.exists_descendants n
  obtain ⟨depth, hdepth⟩ : ∃ k, d.entries.size = k + 1 := ⟨d.entries.size - 1, by omega⟩
  rw [elementsBelow, hdepth, elementsWithin, childElements, hchildren, hdescendants]
  refine flatMap_elementsWithin hinside.traversal_elements ((List.length_filter_le _ _).trans ?_)
  rw [List.length_map, List.length_range']
  omega

theorem Shows.traversal_elementsBelow (h : d.Shows forest) (n : Node) :
    Traversal d.childElements (d.childElements n) (d.elementsBelow n) := by
  obtain ⟨place, inside, hinside, -, hchildren, hdescendants⟩ := h.exists_descendants n
  rw [h.elementsBelow_eq, childElements, hchildren, hdescendants]
  exact hinside.traversal_elements

/-- The elements of a document are listed in document order. -/
theorem Shows.precedes_elementsBelow (h : d.Shows forest) :
    (d.elementsBelow root).Pairwise d.Precedes := by
  rw [h.elementsBelow_eq]
  exact (h.precedes_descendants root).filter _

/-- The child elements of a node stand in document order. -/
theorem precedes_childElements (d : Document) (n : Node) :
    (d.childElements n).Pairwise d.Precedes := by
  refine (List.pairwise_iff_forall_sublist.2 fun hsub => ?_).filter _
  exact .sibling hsub ⟨_, .inl rfl, .inl rfl⟩

theorem Shows.hasChild_of_mem (h : d.Shows forest) {n m : Node} (hm : m ∈ d.childElements n) :
    d.HasChild n m :=
  h.mem_children_iff.1 (List.mem_filter.1 hm).1

/-- Children of elements stand in the order of these, unless one element is inside the other. -/
theorem Shows.precedes_of_parents (h : d.Shows forest) {n m a b : Node} (hnm : d.Precedes n m)
    (hinside : ¬ d.HasDescendant n m) (ha : a ∈ d.childElements n) (hb : b ∈ d.childElements m) :
    d.Precedes a b := by
  have hna := h.hasChild_of_mem ha
  have hmb := h.hasChild_of_mem hb
  have hlt : n.place < m.place := by
    rcases Node.isBefore_iff.1 (h.isBefore_of_precedes hnm) with hlt | ⟨-, hlt⟩
    · exact hlt
    · rw [Node.order, Node.order, hna.1, hmb.1] at hlt
      exact absurd hlt (Nat.lt_irrefl 0)
  have hbefore : a.place < m.place := by
    refine Nat.lt_of_not_le fun hle => hinside ?_
    exact hasDescendant_iff.2 ⟨hna.1, hmb.1, h.isBelow_of_between (.single hna.2.2) hlt hle⟩
  have hbehind := h.lt_of_isChild hmb.2.2
  have hplace := h.precedes_ofPlace hna.hasNode hmb.2.2.1 (Nat.lt_trans hbefore hbehind)
  obtain ⟨place, attr⟩ := b
  cases hmb.2.1
  exact hplace

end SoapKit.Xml.Document
