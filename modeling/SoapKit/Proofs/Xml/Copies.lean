import SoapKit.Proofs.Xml.Standalone

/-!
# Copies of copies

A copy of an element takes over the declarations in effect on it, nearest first and then turned
round. A document that is read has the declarations on each element in their own order instead.
Documents are compared with these lists in their order, so copying twice is not copying once.

**Theorem (`recopy_subtree`).** For every element of a document that was read or copied, the copy of
the copy's own element is the copy with the list of declarations on that element the other way
round: the same names, attributes, text and declarations. It is equal to the copy if and only if at
most one declaration is in effect on the element, and copying once more gives the copy again.

On the element of a copy every qualifier is declared once and nothing is declared above it. So the
declarations in effect there are exactly those it lists (`Shows.namespacesInScope`), and copying
does nothing but turn them round (`Shows.recopy`).
-/

namespace SoapKit.Xml

open SoapKit.Xml.Tree
open Declaration (lookup)

namespace Document

variable {d : Document}

/-! ## Other declarations on the element -/

/-- A document with other declarations on its element. -/
def redeclare (d : Document) (declarations : List Declaration) : Document :=
  { d with entries := d.entries.modify 1 fun e =>
      match e.content with
      | .element tag => { e with content := .element { tag with declarations } }
      | _ => e }

theorem table_element (tag : Tag) (children : List Tree) :
    table [.element tag children] =
      [⟨none, [1], .document⟩, ⟨some 0, places 2 children, .element tag⟩] ++
        entriesAll 1 2 children := by
  simp only [table, places, entriesAll, Tree.entries, List.append_nil, List.cons_append,
    List.nil_append]

theorem Shows.redeclare {tag : Tag} {children : List Tree} (h : d.Shows [.element tag children])
    (declarations : List Declaration) :
    (d.redeclare declarations).Shows [.element { tag with declarations } children] := by
  have hentries : d.entries.toList = table [.element tag children] := h
  simp only [Shows, Document.redeclare, Array.toList_modify]
  rw [hentries, table_element, table_element]
  rfl

/-- A document is known by what it lists and by its registered qualifiers. -/
theorem Shows.eq {e : Document} {forest : List Tree} (hd : d.Shows forest) (he : e.Shows forest)
    (hregistered : d.registered = e.registered) : d = e := by
  obtain ⟨entries, registered⟩ := d
  obtain ⟨entries', registered'⟩ := e
  obtain rfl : registered = registered' := hregistered
  have hentries : entries = entries' := Array.toList_inj.1 (Eq.trans hd (Eq.symm he))
  rw [hentries]

/-! ## The copy of a document's own element -/

/-- The copy of a document's own element, if it has one. -/
def recopy (d : Document) : Document :=
  match d.documentElement with
  | some top => d.subtree top
  | none => d

theorem Shows.documentElement {tag : Tag} {children : List Tree}
    (h : d.Shows [.element tag children]) : d.documentElement = some (Node.ofPlace 1) := by
  have htag : d.tag (Node.ofPlace 1) = some tag := h.holdsAll.head.tagAt_element
  have helement : d.isElement (Node.ofPlace 1) = true := by
    rw [isElement, htag]
    rfl
  rw [Document.documentElement, childElements, h.children_root, places, places, List.map_singleton,
    List.filter_cons_of_pos helement]
  rfl

/-- Where a document declares every qualifier once on its element, these are the declarations in
effect there. -/
theorem Shows.namespacesInScope {tag : Tag} {children : List Tree}
    (h : d.Shows [.element tag children]) (hnodup : (tag.declarations.map (·.qualifier)).Nodup) :
    d.namespacesInScope (Node.ofPlace 1) = tag.declarations := by
  have hroot : d.reachingDeclarations (Node.ofPlace 0) = [] := h.reachingDeclarations_root
  rw [Document.namespacesInScope, h.holdsAll.head.reachingDeclarations h, hroot, List.append_nil]
  exact firstOfEach_eq_self hnodup fun _ _ => List.not_mem_nil

/-- Copying the element of such a document turns its declarations round, and changes nothing
else. -/
theorem Shows.recopy {tag : Tag} {children : List Tree} (h : d.Shows [.element tag children])
    (hnodup : (tag.declarations.map (·.qualifier)).Nodup) :
    d.recopy = d.redeclare tag.declarations.reverse := by
  have hcopy := h.holdsAll.head.subtree
  rw [h.namespacesInScope hnodup] at hcopy
  rw [Document.recopy, h.documentElement]
  exact hcopy.eq (h.redeclare _) rfl

theorem Shows.redeclare_eq_iff {tag : Tag} {children : List Tree}
    (h : d.Shows [.element tag children]) {declarations : List Declaration} :
    d.redeclare declarations = d ↔ declarations = tag.declarations := by
  constructor
  · intro heq
    have htag : (d.redeclare declarations).tagAt 1 = some { tag with declarations } :=
      (h.redeclare declarations).holdsAll.head.tagAt_element
    rw [heq, h.holdsAll.head.tagAt_element] at htag
    exact (congrArg Tag.declarations (Option.some.inj htag)).symm
  · rintro rfl
    exact (h.redeclare _).eq h rfl

theorem reverse_eq_self_iff {α : Type} {xs : List α} (h : xs.Nodup) :
    xs.reverse = xs ↔ xs.length ≤ 1 := by
  match xs with
  | [] | [x] => simp
  | x :: y :: rest =>
    have hfirst : (x :: y :: rest).reverse ≠ x :: y :: rest := by
      intro hreverse
      have hlast : (y :: rest).getLast? = some x := by
        rw [← List.getLast?_cons_cons, ← List.head?_reverse, hreverse, List.head?_cons]
      exact (List.nodup_cons.1 h).1 (List.mem_of_getLast? hlast)
    have hlength : ¬(x :: y :: rest).length ≤ 1 := by simp
    exact iff_of_false hfirst hlength

/-- Copying the element of a copy gives the copy with the declarations on its element the other way
round. So it is the copy itself only where at most one declaration is in effect, and otherwise
the copy after next. -/
theorem recopy_subtree (hd : d.Produced) {n : Node} (hn : d.isElement n = true) :
    (d.subtree n).documentElement.isSome = true ∧
      (d.subtree n).redeclare (d.namespacesInScope n).reverse = d.subtree n ∧
      (d.subtree n).recopy = (d.subtree n).redeclare (d.namespacesInScope n) ∧
      ((d.subtree n).recopy = d.subtree n ↔ (d.namespacesInScope n).length ≤ 1) ∧
      (d.subtree n).recopy.recopy = d.subtree n := by
  obtain ⟨forest, -, hshows⟩ := hd.shows
  obtain ⟨tag, htag⟩ := Option.isSome_iff_exists.1 hn
  obtain ⟨place, attr⟩ := n
  obtain ⟨rfl, parent, children, hholds⟩ := hshows.holds_of_tag htag
  have hcopy : (d.subtree (Node.ofPlace place)).Shows
      [.element (d.standaloneTag place tag) children] := hholds.subtree
  have hscope := nodup_namespacesInScope (d := d) (Node.ofPlace place)
  have hnodup : ((d.standaloneTag place tag).declarations.map (·.qualifier)).Nodup := by
    rw [standaloneTag, List.map_reverse]
    exact List.nodup_reverse.2 hscope
  have hrecopy : (d.subtree (Node.ofPlace place)).recopy =
      (d.subtree (Node.ofPlace place)).redeclare (d.namespacesInScope (Node.ofPlace place)) := by
    rw [hcopy.recopy hnodup, standaloneTag, List.reverse_reverse]
  have htwice := hcopy.redeclare (d.namespacesInScope (Node.ofPlace place))
  refine ⟨?_, hcopy.redeclare_eq_iff.2 rfl, hrecopy, ?_, ?_⟩
  · show (d.subtree (Node.ofPlace place)).documentElement.isSome = true
    rw [hcopy.documentElement]
    rfl
  · show (d.subtree (Node.ofPlace place)).recopy = d.subtree (Node.ofPlace place) ↔ _
    rw [hrecopy, hcopy.redeclare_eq_iff, standaloneTag, eq_comm]
    exact reverse_eq_self_iff hscope.of_map
  · show (d.subtree (Node.ofPlace place)).recopy.recopy = d.subtree (Node.ofPlace place)
    rw [hrecopy, htwice.recopy hscope]
    exact (htwice.redeclare _).eq hcopy rfl

/-- An element inside others that takes one declaration away and comes by another. -/
theorem recopy_subtree_of_shadowed :
    ∃ d, Document.read .lenient ("<a xmlns=\"urn:d\"><p:b xmlns:p=\"urn:p\">" ++
        "<c xmlns=\"\" p:x=\"1\">one<p:d/></c></p:b></a>") = .ok d ∧
      d.isElement (Node.ofPlace 3) = true ∧
      (d.namespacesInScope (Node.ofPlace 3)).length = 2 ∧
      (d.subtree (Node.ofPlace 3)).documentElement.isSome = true ∧
      (d.subtree (Node.ofPlace 3)).redeclare (d.namespacesInScope (Node.ofPlace 3)).reverse =
        d.subtree (Node.ofPlace 3) ∧
      (d.subtree (Node.ofPlace 3)).recopy =
        (d.subtree (Node.ofPlace 3)).redeclare (d.namespacesInScope (Node.ofPlace 3)) ∧
      ((d.subtree (Node.ofPlace 3)).recopy = d.subtree (Node.ofPlace 3) ↔
        (d.namespacesInScope (Node.ofPlace 3)).length ≤ 1) ∧
      (d.subtree (Node.ofPlace 3)).recopy.recopy = d.subtree (Node.ofPlace 3) := by
  have hread : ∃ d ∈ (Document.read .lenient ("<a xmlns=\"urn:d\"><p:b xmlns:p=\"urn:p\">" ++
      "<c xmlns=\"\" p:x=\"1\">one<p:d/></c></p:b></a>")).toOption,
      d.isElement (Node.ofPlace 3) = true ∧ (d.namespacesInScope (Node.ofPlace 3)).length = 2 := by
    decide +kernel
  obtain ⟨d, hd, helement, hlength⟩ := hread
  rw [Option.mem_def, toOption_eq_some] at hd
  exact ⟨d, hd, helement, hlength, recopy_subtree (.read hd) helement⟩

/-- A declaration of its own and one from around it change places in the copy of the copy. -/
theorem recopy_subtree_ne :
    ∃ d ∈ (Document.read .lenient "<a xmlns:p=\"urn:p\"><b xmlns:q=\"urn:q\"/></a>").toOption,
      d.isElement (Node.ofPlace 2) = true ∧
      (d.subtree (Node.ofPlace 2)).documentElement = some (Node.ofPlace 1) ∧
      (d.subtree (Node.ofPlace 2)).tag (Node.ofPlace 1) =
        some ⟨⟨none, "b"⟩, none, [], [⟨some "p", "urn:p"⟩, ⟨some "q", "urn:q"⟩]⟩ ∧
      ((d.subtree (Node.ofPlace 2)).subtree (Node.ofPlace 1)).tag (Node.ofPlace 1) =
        some ⟨⟨none, "b"⟩, none, [], [⟨some "q", "urn:q"⟩, ⟨some "p", "urn:p"⟩]⟩ ∧
      (d.subtree (Node.ofPlace 2)).recopy ≠ d.subtree (Node.ofPlace 2) := by
  decide +kernel

end Document

end SoapKit.Xml
