import SoapKit.Proofs.Xml.Node
import SoapKit.Xml.Path
import Mathlib.Data.Set.Card

/-!
# What location paths denote

An expression denotes a set of nodes at every context node, and the sets are given by the relations
between nodes, expanded names and document order alone. A step goes along its axis, keeps what
passes its test, and narrows the set down predicate by predicate; the position of a node is the
number of nodes of the set up to it. A path goes from node to node, one step after the other, and a
union denotes what its paths denote.

No list is gone through here and nothing is sorted. That this is what gets selected is shown in the
theory of selection.
-/

namespace SoapKit.Xml

/-- The namespace and the unqualified name of an element or attribute. -/
def Document.expandedName (d : Document) (n : Node) : Option (Option String × String) :=
  match n.attr with
  | none => (d.tagAt n.place).map fun tag => (tag.uri, tag.name.base)
  | some _ => (d.attribute? n).map fun attr => (attr.uri, attr.name.base)

namespace Path

/-- Whether an axis leads from a node to another one. -/
def Axis.Leads (axis : Axis) (d : Document) (n m : Node) : Prop :=
  match axis with
  | .child => d.HasChild n m
  | .descendant => d.HasDescendant n m
  | .descendantOrSelf => m = n ∨ d.HasDescendant n m
  | .self => m = n
  | .parent => d.HasChild m n ∨ d.HasAttribute m n
  | .attr => d.HasAttribute n m

/-- Whether a node is an attribute, for the axis of attributes, or an element, for the others. -/
def Axis.IsAbout (axis : Axis) (d : Document) (n : Node) : Prop :=
  match axis with
  | .attr => n.attr.isSome
  | _ => n.attr = none ∧ ∃ tag, (d.entry n.place).content = .element tag

/-- Whether a node passes a test that is made on an axis. -/
def NodeTest.Passes (test : NodeTest) (d : Document) (axis : Axis) (n : Node) : Prop :=
  match test with
  | .node => True
  | .text => n.attr = none ∧ ∃ data, (d.entry n.place).content = .text data
  | .anyName none => axis.IsAbout d n
  | .anyName (some uri) => axis.IsAbout d n ∧ ∃ base, d.expandedName n = some (some uri, base)
  | .name uri base => axis.IsAbout d n ∧ d.expandedName n = some (uri, base)

/-- What a predicate leaves over of a set of nodes. -/
def Predicate.among (predicate : Predicate) (d : Document) (nodes : Set Node) : Set Node :=
  match predicate with
  | .position k => {n ∈ nodes | {m ∈ nodes | d.Precedes m n}.ncard + 1 = k}
  | .last => {n ∈ nodes | ∀ m ∈ nodes, ¬ d.Precedes n m}
  | .hasAttribute test => {n ∈ nodes | ∃ a, d.HasAttribute n a ∧ test.Passes d .attr a}
  | .attributeEquals test value =>
    {n ∈ nodes | ∃ a, d.HasAttribute n a ∧ test.Passes d .attr a ∧
      (d.attribute? a).map (·.value) = some value}

/-- What a step denotes at a context node. -/
def Step.denotation (step : Step) (d : Document) (n : Node) : Set Node :=
  step.predicates.foldl (fun nodes predicate => predicate.among d nodes)
    {m | step.axis.Leads d n m ∧ step.test.Passes d step.axis m}

/-- Whether steps lead from a node to another one. -/
def Reaches (d : Document) : List Step → Node → Node → Prop
  | [], n, m => m = n
  | step :: rest, n, m => ∃ k ∈ step.denotation d n, Reaches d rest k m

/-- What a path denotes at a context node. -/
def LocationPath.denotation (path : LocationPath) (d : Document) (context : Node) : Set Node :=
  {m | Reaches d path.steps (if path.absolute then Document.root else context) m}

/-- What an expression denotes at a context node. -/
def Expression.denotation (expression : Expression) (d : Document) (context : Node) : Set Node :=
  {m | ∃ path ∈ expression.paths, m ∈ path.denotation d context}

end Path

end SoapKit.Xml
