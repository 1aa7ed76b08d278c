import SoapKit.Xml.Document

/-!
# Location paths

A subset of XPath 1.0: paths over six axes, tests for names, text and any node, predicates on
position and on attributes, and unions. An expression selects nodes of a document from a context
node; the selection is in document order and names each node once.

A step is applied to each context node by itself. It takes the nodes of its axis in document order,
keeps those that pass its test, and applies its predicates from left to right, each to what the ones
before it left over.
-/

namespace SoapKit.Xml.Path

/-- Where a step goes from its context node. -/
inductive Axis where
  | child
  | descendant
  | descendantOrSelf
  | self
  | parent
  | attr
  deriving Repr, DecidableEq

/-- Which nodes of an axis a step keeps. -/
inductive NodeTest where
  | name (uri : Option String) (base : String)
  /-- Any name; with a URI, any name in that namespace. -/
  | anyName (uri : Option String)
  | text
  | node
  deriving Repr, DecidableEq

/-- What a step demands of the nodes that passed its test. -/
inductive Predicate where
  /-- The node at a position, counted from one. -/
  | position (n : Nat)
  | last
  | hasAttribute (test : NodeTest)
  | attributeEquals (test : NodeTest) (value : String)
  deriving Repr, DecidableEq

/-- One step of a path. -/
structure Step where
  axis : Axis
  test : NodeTest
  predicates : List Predicate
  deriving Repr, DecidableEq

/-- A path from the document or from the context node. -/
structure LocationPath where
  absolute : Bool
  steps : List Step
  deriving Repr, DecidableEq

/-- A union of paths. -/
structure Expression where
  paths : List LocationPath
  deriving Repr, DecidableEq

/-! ## Selection -/

/-- Whether a node is of the kind that an axis is about: attributes on the attribute axis, elements
on the others. -/
def Axis.isPrincipal (axis : Axis) (d : Document) (n : Node) : Bool :=
  if axis = .attr then Document.isAttribute n else d.isElement n

/-- Whether a node passes a test on an axis. -/
def NodeTest.holds (test : NodeTest) (d : Document) (axis : Axis) (n : Node) : Bool :=
  match test with
  | .node => true
  | .text => d.isText n
  | .anyName uri =>
    axis.isPrincipal d n && (match uri with
      | none => true
      | some uri => d.uriOf n == some uri)
  | .name uri base => axis.isPrincipal d n && d.nameOf n == base && d.uriOf n == uri

/-- The nodes of an axis in document order. -/
def Axis.nodes (axis : Axis) (d : Document) (n : Node) : List Node :=
  match axis with
  | .child => d.children n
  | .descendant => d.descendants n
  | .descendantOrSelf => n :: d.descendants n
  | .self => [n]
  | .parent => (d.parent? n).toList
  | .attr => d.attributesOf n

/-- Whether a node has an attribute that passes a test and a condition on its value. -/
def hasAttributeWith (d : Document) (test : NodeTest) (condition : String → Bool) (n : Node) :
    Bool :=
  (d.attributesOf n).any fun a => test.holds d .attr a && condition (d.text a)

/-- The nodes of a list that satisfy a predicate, with positions counted in that list. -/
def Predicate.keep (predicate : Predicate) (d : Document) (nodes : List Node) : List Node :=
  match predicate with
  | .position n => (nodes[n - 1]?).toList
  | .last => nodes.getLast?.toList
  | .hasAttribute test => nodes.filter (hasAttributeWith d test fun _ => true)
  | .attributeEquals test value => nodes.filter (hasAttributeWith d test (· == value))

/-- What a step selects from one context node. -/
def Step.select (step : Step) (d : Document) (n : Node) : List Node :=
  step.predicates.foldl (fun nodes predicate => predicate.keep d nodes)
    ((step.axis.nodes d n).filter (step.test.holds d step.axis))

/-- Document order on nodes. -/
def before (a b : Node) : Bool :=
  a.order.1 < b.order.1 || (a.order.1 == b.order.1 && a.order.2 ≤ b.order.2)

/-- Drops a node that is the same as the one before it. -/
def dropRepeats : List Node → List Node
  | [] => []
  | [n] => [n]
  | a :: b :: rest => if a = b then dropRepeats (b :: rest) else a :: dropRepeats (b :: rest)

/-- The nodes of a list in document order, each once. -/
def inOrder (nodes : List Node) : List Node :=
  dropRepeats (nodes.mergeSort before)

/-- What a path selects from a context node. -/
def LocationPath.select (path : LocationPath) (d : Document) (context : Node) : List Node :=
  let origin := if path.absolute then Document.root else context
  path.steps.foldl (fun nodes step => inOrder (nodes.flatMap (step.select d))) [origin]

/-- What an expression selects from a context node. -/
def Expression.select (expression : Expression) (d : Document) (context : Node) : List Node :=
  inOrder (expression.paths.flatMap fun path => path.select d context)

end SoapKit.Xml.Path
