import SoapKit.Proofs.Xml.Path.Selection
import Mathlib.Data.List.Sort

/-!
# Sets of nodes in document order

A list enumerates a set of nodes if it has them in document order and each once. There is one such
list at most (`Document.Lists.unique`), so two selections with the same nodes are the same list.

What a path selects are the nodes that its steps reach (`LocationPath.mem_select`), and steps after
steps reach what the later ones reach from what the earlier ones do (`reaches_append`).
-/

namespace SoapKit.Xml

open SoapKit.Xml.Tree

variable {d : Document} {forest : List Tree} {nodes others : Set Node} {xs ys : List Node}

namespace Document

/-- A list has the nodes of a set in document order, each once. -/
structure Enumerates (d : Document) (nodes : Set Node) (xs : List Node) : Prop where
  ordered : xs.Pairwise d.Precedes
  nodup : xs.Nodup
  mem : ∀ n, n ∈ xs ↔ n ∈ nodes

theorem Lists.enumerates (hd : d.Shows forest) (h : d.Lists nodes xs) : d.Enumerates nodes xs where
  ordered := h.ordered.imp_of_mem fun hn hm => (hd.precedes_iff (h.valid _ hn) (h.valid _ hm)).2
  nodup := Path.nodup_of_isBefore h.ordered
  mem := h.mem

theorem Shows.enumerates_of_precedes (hd : d.Shows forest) (hordered : xs.Pairwise d.Precedes)
    (hmem : ∀ n, n ∈ xs ↔ n ∈ nodes) : d.Enumerates nodes xs where
  ordered := hordered
  nodup := Path.nodup_of_isBefore (hordered.imp hd.isBefore_of_precedes)
  mem := hmem

instance : Std.Irrefl Node.IsBefore :=
  ⟨Node.not_isBefore_self⟩

instance : Std.Antisymm Node.IsBefore :=
  ⟨fun _ _ h h' => absurd (h.trans h') (Node.not_isBefore_self _)⟩

theorem Lists.unique (hx : d.Lists nodes xs) (hy : d.Lists nodes ys) : xs = ys :=
  hx.ordered.eq_of_mem_iff hy.ordered fun n => (hx.mem n).trans (hy.mem n).symm

theorem Lists.congr (h : d.Lists nodes xs) (hsame : ∀ n, n ∈ nodes ↔ n ∈ others) :
    d.Lists others xs where
  ordered := h.ordered
  mem n := (h.mem n).trans (hsame n)
  valid := h.valid

/-! ## The first node -/

/-- A node of a set that stands before all others of it. -/
def IsFirst (d : Document) (nodes : Set Node) (n : Node) : Prop :=
  n ∈ nodes ∧ ∀ m ∈ nodes, m = n ∨ d.Precedes n m

variable {n : Node}

theorem Enumerates.isFirst (h : d.Enumerates nodes (n :: xs)) : d.IsFirst nodes n := by
  refine ⟨(h.mem n).1 List.mem_cons_self, fun m hm => ?_⟩
  rcases List.mem_cons.1 ((h.mem m).2 hm) with rfl | hm
  · exact .inl rfl
  · exact .inr ((List.pairwise_cons.1 h.ordered).1 m hm)

theorem Enumerates.eq_empty (h : d.Enumerates nodes []) : nodes = ∅ :=
  Set.eq_empty_iff_forall_notMem.2 fun n hn => List.not_mem_nil ((h.mem n).2 hn)

/-- A node that is the first of some nodes is the first of all, if one of the some is not behind any
other. -/
theorem IsFirst.of_subset (h : d.IsFirst nodes n) (hsubset : nodes ⊆ others)
    (hcover : ∀ m ∈ others, ∃ k ∈ nodes, m = k ∨ d.Precedes k m) : d.IsFirst others n := by
  refine ⟨hsubset h.1, fun m hm => ?_⟩
  obtain ⟨k, hk, hkm⟩ := hcover m hm
  rcases h.2 k hk with rfl | hnk
  · exact hkm
  · rcases hkm with rfl | hkm
    · exact .inr hnk
    · exact .inr (hnk.trans hkm)

/-! ## Child elements -/

theorem isSome_expandedName (hn : n.attr = none) :
    (d.expandedName n).isSome = d.isElement n := by
  simp [expandedName, isElement, tag, hn]

theorem Shows.lists_childElements (hd : d.Shows forest) (n : Node) :
    d.Lists {m | d.HasChild n m ∧ (d.expandedName m).isSome} (d.childElements n) := by
  have hchildren := hd.lists_children n
  refine Path.lists_filter hchildren d.isElement fun m hm => ?_
  rw [isSome_expandedName ((hchildren.mem m).1 hm).2.1]

/-- The document element is the only element on top. -/
theorem Shows.documentElement_eq_some_iff (hrooted : Rooted forest) (hd : d.Shows forest) :
    d.documentElement = some n ↔ d.HasChild root n ∧ (d.expandedName n).isSome := by
  have hmem : n ∈ d.childElements root ↔ d.HasChild root n ∧ (d.expandedName n).isSome :=
    (hd.lists_childElements root).mem n
  rw [← hmem, documentElement]
  have hlength : (d.childElements root).length ≤ 1 := by
    have hchildren : d.children root = (places 1 forest).map Node.ofPlace := by
      show (d.entry 0).children.map Node.ofPlace = _
      rw [hd.entry_zero]
    refine (List.length_filter_le _ _).trans ?_
    rw [hchildren, List.length_map]
    obtain rfl | ⟨tag, children, rfl⟩ := hrooted <;> simp [places]
  match hlist : d.childElements root with
  | [] => simp
  | [first] => simp [eq_comm]
  | first :: second :: rest => simp [hlist] at hlength

/-- The child elements with a name of a kind. -/
theorem Shows.lists_filter_nameOf (hd : d.Shows forest) (n : Node) (keep : String → Bool) :
    d.Lists {m | d.HasChild n m ∧
        ∃ uri base, d.expandedName m = some (uri, base) ∧ keep base = true}
      ((d.childElements n).filter fun m => keep (d.nameOf m)) := by
  have helements := hd.lists_childElements n
  refine (Path.lists_filter (P := fun m => ∃ uri base, d.expandedName m = some (uri, base) ∧
    keep base = true) helements _ fun m hm => ?_).congr fun m => ?_
  · have helement := (List.mem_filter.1 hm).2
    have habout : Path.Axis.IsAbout .child d m := Path.Axis.isPrincipal_iff.1 helement
    rw [Path.expandedName_eq (helements.valid m hm) ⟨_, habout⟩]
    simp
  · simp only [Set.mem_ofPred_eq]
    constructor
    · rintro ⟨⟨hchild, -⟩, hname⟩
      exact ⟨hchild, hname⟩
    · rintro ⟨hchild, uri, base, hname, hkeep⟩
      exact ⟨⟨hchild, by rw [hname]; rfl⟩, uri, base, hname, hkeep⟩

end Document

namespace Path

/-! ## What steps reach -/

theorem reaches_append {first second : List Step} {n m : Node} :
    Reaches d (first ++ second) n m ↔ ∃ k, Reaches d first n k ∧ Reaches d second k m := by
  induction first generalizing n with
  | nil => simp [Reaches]
  | cons step rest ih =>
    simp only [List.cons_append, Reaches, ih]
    constructor
    · rintro ⟨j, hj, k, hk, hm⟩
      exact ⟨k, ⟨j, hj, hk⟩, hm⟩
    · rintro ⟨k, ⟨j, hj, hk⟩, hm⟩
      exact ⟨j, hj, k, hk, hm⟩

/-- The step of a double separator goes to a node itself and to all of its descendants. -/
theorem reaches_anywhere {n m : Node} :
    Reaches d [anywhere] n m ↔ m = n ∨ d.HasDescendant n m := by
  simp [Reaches, anywhere, Step.denotation, Axis.Leads, NodeTest.Passes, eq_comm]

theorem isAbout_of_expandedName {n : Node} {name : Option String × String} (hn : n.attr = none)
    (hname : d.expandedName n = some name) : Axis.IsAbout .child d n := by
  refine Axis.isPrincipal_iff.1 (show d.isElement n = true from ?_)
  rw [← Document.isSome_expandedName hn, hname]
  rfl

/-- A step to children with a name in a namespace. -/
theorem mem_denotation_child {uri : Option String} {base : String} {n m : Node} :
    m ∈ Step.denotation ⟨.child, .name uri base, []⟩ d n ↔
      d.HasChild n m ∧ d.expandedName m = some (uri, base) := by
  show d.HasChild n m ∧ Axis.IsAbout .child d m ∧ d.expandedName m = some (uri, base) ↔ _
  exact and_congr_right fun hchild => and_iff_right_of_imp (isAbout_of_expandedName hchild.2.1)

/-- A step that asks for the first node leaves out only what stands behind it. -/
theorem exists_first_denotation (hd : d.Shows forest) {axis : Axis} {test : NodeTest} {n m : Node}
    (hn : d.HasNode n) (hm : m ∈ Step.denotation ⟨axis, test, []⟩ d n) :
    ∃ k ∈ Step.denotation ⟨axis, test, [.position 1]⟩ d n, m = k ∨ d.Precedes k m := by
  have hall : d.Lists (Step.denotation ⟨axis, test, []⟩ d n)
      (Step.select ⟨axis, test, []⟩ d n) :=
    Step.lists_select hd (by simp [Step.CountsFromOne]) hn
  have hone : d.Lists (Step.denotation ⟨axis, test, [.position 1]⟩ d n)
      (Step.select ⟨axis, test, [.position 1]⟩ d n) :=
    Step.lists_select hd (by simp [Step.CountsFromOne, Predicate.CountsFromOne]) hn
  cases hselect : Step.select ⟨axis, test, []⟩ d n with
  | nil =>
    have hmem := (hall.mem m).2 hm
    rw [hselect] at hmem
    cases hmem
  | cons k rest =>
    have hfirst : Step.select ⟨axis, test, [.position 1]⟩ d n = [k] := by
      show (Predicate.position 1).keep d (Step.select ⟨axis, test, []⟩ d n) = [k]
      rw [hselect]
      rfl
    have henumerates := hall.enumerates hd
    rw [hselect] at henumerates
    refine ⟨k, (hone.mem k).1 (by rw [hfirst]; exact List.mem_singleton_self k), ?_⟩
    exact henumerates.isFirst.2 m hm

/-! ## What paths and unions select -/

theorem LocationPath.mem_select (hd : d.Shows forest) {path : LocationPath}
    (hcounts : ∀ step ∈ path.steps, step.CountsFromOne) {context : Node}
    (hcontext : d.HasNode context) {m : Node} :
    m ∈ path.select d context ↔ m ∈ path.denotation d context := by
  have horigin : d.HasNode (if path.absolute then Document.root else context) := by
    split
    · exact hd.hasNode_root
    · exact hcontext
  rw [select, mem_foldl_select hd hcounts (by simpa using horigin)]
  simp [LocationPath.denotation]

theorem LocationPath.hasNode_of_mem (hd : d.Shows forest) {path : LocationPath}
    (hcounts : ∀ step ∈ path.steps, step.CountsFromOne) {context : Node}
    (hcontext : d.HasNode context) {m : Node} (hm : m ∈ path.denotation d context) :
    d.HasNode m := by
  refine hasNode_of_reaches hd hcounts ?_ hm
  split
  · exact hd.hasNode_root
  · exact hcontext

theorem Expression.mem_denotation_singleton {path : LocationPath} {context m : Node} :
    m ∈ Expression.denotation ⟨[path]⟩ d context ↔ m ∈ path.denotation d context := by
  simp [Expression.denotation]

theorem Expression.lists_select (hd : d.Shows forest) {expression : Expression}
    (hcounts : ∀ path ∈ expression.paths, ∀ step ∈ path.steps, step.CountsFromOne)
    {context : Node} (hcontext : d.HasNode context) :
    d.Lists (expression.denotation d context) (expression.select d context) := by
  have hmem : ∀ n, n ∈ expression.select d context ↔ n ∈ expression.denotation d context := by
    intro n
    rw [select, mem_inOrder, List.mem_flatMap]
    exact exists_congr fun path => and_congr_right fun hpath =>
      LocationPath.mem_select hd (hcounts path hpath) hcontext
  refine ⟨pairwise_inOrder _, hmem, fun n hn => ?_⟩
  obtain ⟨path, hpath, hn⟩ := (hmem n).1 hn
  exact LocationPath.hasNode_of_mem hd (hcounts path hpath) hcontext hn

end Path

end SoapKit.Xml
