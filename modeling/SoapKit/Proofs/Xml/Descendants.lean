import SoapKit.Proofs.Xml.Elements
import SoapKit.Proofs.Xml.Production

/-!
# Descendants

Two listings go through what is below a node: all descendants are visited with a stack, and the
elements are listed by recursion.

**Theorem (`Produced.wellTraversed`).** For every node of a document that was read or copied, the
walk with a stack ends. It has then visited each descendant once, in document order, which is the
order of the recursion over children and the order of places. The recursion over child elements ends
as well, and lists the elements among the descendants in the same order.

Both listings are traversals of the children of the node (`Shows.traversal_descendants`,
`Shows.traversal_elementsBelow`). A traversal is finite and unique, and a walk with a stack goes
through it.
-/

namespace SoapKit.Xml

open StateTransition (eval)

namespace Document

/-- What is below a node is walked through completely and in order, by either of the two ways. -/
structure WellTraversed (d : Document) (n : Node) : Prop where
  stack : eval (Walker.turn d.children) ⟨[], (d.children n).reverse⟩ =
    Part.some ⟨d.descendants n, []⟩
  recursion : ∀ listing,
    Traversal d.children (d.children n) listing ↔ listing = d.descendants n
  nodup : (d.descendants n).Nodup
  mem : ∀ m, m ∈ d.descendants n ↔ d.HasDescendant n m
  ordered : (d.descendants n).Pairwise d.Precedes
  increasing : (d.descendants n).Pairwise fun m k => m.place < k.place
  elementRecursion : ∀ listing,
    Traversal d.childElements (d.childElements n) listing ↔ listing = d.elementsBelow n
  elements : d.elementsBelow n = (d.descendants n).filter d.isElement

variable {d : Document} {forest : List Tree}

theorem Shows.nodup_descendants (h : d.Shows forest) (n : Node) : (d.descendants n).Nodup := by
  refine (h.increasing_descendants n).imp fun {m k} hlt heq => ?_
  rw [heq] at hlt
  exact Nat.lt_irrefl _ hlt

/-- The descendants of every node of a document that was read or copied are walked through
completely and in order, and so are the elements among them. -/
theorem Produced.wellTraversed (hd : d.Produced) (n : Node) : d.WellTraversed n := by
  obtain ⟨forest, -, hshows⟩ := hd.shows
  have hall := hshows.traversal_descendants n
  have helements := hshows.traversal_elementsBelow n
  exact {
    stack := hall.eval_turn
    recursion := fun listing => ⟨fun h => h.unique hall, fun h => h ▸ hall⟩
    nodup := hshows.nodup_descendants n
    mem := fun m => hshows.mem_descendants_iff
    ordered := hshows.precedes_descendants n
    increasing := hshows.increasing_descendants n
    elementRecursion := fun listing => ⟨fun h => h.unique helements, fun h => h ▸ helements⟩
    elements := hshows.elementsBelow_eq n }

/-- An element with text and elements on several levels, in a copy. -/
theorem Produced.wellTraversed_of_nested :
    ∃ d, Document.read .lenient "<a><b>1<c><d/>2</c><e/></b></a>" = .ok d ∧
      (d.subtree (Node.ofPlace 2)).Produced ∧
      (d.subtree (Node.ofPlace 2)).descendants (Node.ofPlace 1) =
        [2, 3, 4, 5, 6].map Node.ofPlace ∧
      (d.subtree (Node.ofPlace 2)).elementsBelow (Node.ofPlace 1) = [3, 4, 6].map Node.ofPlace ∧
      (d.subtree (Node.ofPlace 2)).WellTraversed (Node.ofPlace 1) := by
  have hread : ∃ d ∈ (Document.read .lenient "<a><b>1<c><d/>2</c><e/></b></a>").toOption,
      (d.subtree (Node.ofPlace 2)).descendants (Node.ofPlace 1) =
        [2, 3, 4, 5, 6].map Node.ofPlace ∧
      (d.subtree (Node.ofPlace 2)).elementsBelow (Node.ofPlace 1) =
        [3, 4, 6].map Node.ofPlace := by
    decide +kernel
  obtain ⟨d, hd, hdescendants, helements⟩ := hread
  rw [Option.mem_def, toOption_eq_some] at hd
  have hproduced : (d.subtree (Node.ofPlace 2)).Produced := .subtree _ (.read hd)
  exact ⟨d, hd, hproduced, hdescendants, helements, Produced.wellTraversed hproduced _⟩

end Document

end SoapKit.Xml
