import SoapKit.Proofs.Xml.Elements
import SoapKit.Proofs.Xml.Path.Bindings
import SoapKit.Proofs.Xml.Path.Enumeration
import SoapKit.Proofs.Xml.Standalone
import SoapKit.Soap.Fault

/-!
# Which fault is found

A document has a fault for a version of the protocol if its document element is an envelope in the
namespace of the version, with a body there that has an element for a fault there somewhere below
it (`faultsIn`). The first of them in document order is found, and what is found says what that
element does (`Fault.exists_detect_says`).

The expressions for faults are read once and for all, under the namespace of envelopes alone, and
what they denote is put in terms of children and names. The expression for the reason looks at the
first text of every reason; the first of these is the first of all texts.
-/

namespace SoapKit.Soap

open Xml (Document Node Tree)
open Xml.Path (NodeTest Expression compile)

variable {d : Document} {forest : List Tree} {n m : Node}

/-! ## Where things stand -/

/-- The child elements of a node with a name in a namespace. -/
def childrenIn (d : Document) (uri base : String) (n : Node) : Set Node :=
  {m | d.HasChild n m ∧ d.expandedName m = some (some uri, base)}

/-- The child elements of a node with a name, in any namespace or in none. -/
def childrenNamed (d : Document) (base : String) (n : Node) : Set Node :=
  {m | d.HasChild n m ∧ ∃ uri, d.expandedName m = some (uri, base)}

/-- The child elements with an inner name of the child elements with an outer one, all of them in a
namespace. -/
def nestedIn (d : Document) (uri outer inner : String) (n : Node) : Set Node :=
  {m | ∃ k ∈ childrenIn d uri outer n, m ∈ childrenIn d uri inner k}

/-- The faults in an envelope of a version, at any depth of a body. -/
def faultsIn (d : Document) (version : Version) : Set Node :=
  {n | ∃ envelope body, d.documentElement = some envelope ∧
    d.expandedName envelope = some (some version.envelopeNamespace, "Envelope") ∧
    body ∈ childrenIn d version.envelopeNamespace "Body" envelope ∧ d.HasDescendant body n ∧
    d.expandedName n = some (some version.envelopeNamespace, "Fault")}

/-- The elements inside of the children that hold details. -/
def detailsOf (d : Document) (n : Node) : Set Node :=
  {m | ∃ k, (k ∈ childrenNamed d "detail" n ∨ k ∈ childrenNamed d "Detail" n) ∧ d.HasChild k m ∧
    (d.expandedName m).isSome}

/-- The text of the first node of a set, without the blanks around it, and no text if the set is
empty. -/
def FirstText (d : Document) (nodes : Set Node) (text : String) : Prop :=
  (∃ n, d.IsFirst nodes n ∧ text = Text.trimmed (d.text n)) ∨ nodes = ∅ ∧ text = ""

/-- The first text of the newer form, or that of the older one if the newer is missing or blank. -/
def EitherText (d : Document) (newer older : Set Node) (text : String) : Prop :=
  (FirstText d newer text ∧ text ≠ "") ∨ FirstText d newer "" ∧ FirstText d older text

/-- A fault says what its element in an envelope of a version does. -/
structure Fault.Says (fault : Fault) (d : Document) (version : Version) (n : Node) : Prop where
  code : EitherText d (nestedIn d version.envelopeNamespace "Code" "Value" n)
    (childrenNamed d "faultcode" n) fault.code
  reason : EitherText d (nestedIn d version.envelopeNamespace "Reason" "Text" n)
    (childrenNamed d "faultstring" n) fault.reason
  details : ∃ nodes, d.Enumerates (detailsOf d n) nodes ∧ fault.details = nodes.map d.subtree ∧
    ∀ m ∈ nodes, d.IsExcerpt m (d.subtree m)

/-! ## The expressions -/

/-- The test for a name in the namespace of envelopes. -/
def envelopeTest (version : Version) (base : String) : NodeTest :=
  .name (some version.envelopeNamespace) base

/-- What the expression for faults is read as. -/
def faultExpression (version : Version) : Expression :=
  ⟨[⟨true, [⟨.child, envelopeTest version "Envelope", []⟩,
    ⟨.child, envelopeTest version "Body", []⟩,
    ⟨.descendantOrSelf, envelopeTest version "Fault", []⟩]⟩]⟩

/-- What the expression for codes is read as. -/
def codeExpression (version : Version) : Expression :=
  ⟨[⟨false, [⟨.self, .node, []⟩, ⟨.child, envelopeTest version "Code", []⟩,
    ⟨.child, envelopeTest version "Value", []⟩]⟩]⟩

/-- What the expression for reasons is read as. -/
def reasonExpression (version : Version) : Expression :=
  ⟨[⟨false, [⟨.self, .node, []⟩, ⟨.child, envelopeTest version "Reason", []⟩,
    ⟨.child, envelopeTest version "Text", [.position 1]⟩]⟩]⟩

theorem compile_faultPath (version : Version) :
    compile (envelopeBindings version) faultPath = .ok (faultExpression version) := by
  cases version <;> decide +kernel

theorem compile_codePath (version : Version) :
    compile (envelopeBindings version) codePath = .ok (codeExpression version) := by
  cases version <;> decide +kernel

theorem compile_reasonPath (version : Version) :
    compile (envelopeBindings version) reasonPath = .ok (reasonExpression version) := by
  cases version <;> decide +kernel

theorem query_eq {version : Version} {path : String} {expression : Expression}
    (h : compile (envelopeBindings version) path = .ok expression) (d : Document) (n : Node) :
    d.query n path (envelopeBindings version) = .ok (expression.select d n) := by
  have hextends := Xml.Path.Bindings.extends_append d.registered (envelopeBindings version)
  rw [Document.query, Xml.Path.compile_extends hextends path expression h]
  rfl

/-! ## What the expressions denote -/

open Xml.Path (mem_denotation_child isAbout_of_expandedName)

theorem denotation_faultExpression (hrooted : Tree.Rooted forest) (hd : d.Shows forest)
    (version : Version) :
    Expression.denotation (faultExpression version) d n = faultsIn d version := by
  ext m
  rw [faultExpression, Expression.mem_denotation_singleton]
  constructor
  · rintro ⟨envelope, henvelope, body, hbody, k, ⟨hk, -, hname⟩, rfl⟩
    obtain ⟨htop, henvelope⟩ := mem_denotation_child.1 henvelope
    have hbody := mem_denotation_child.1 hbody
    refine ⟨envelope, body, ?_, henvelope, hbody, ?_, hname⟩
    · exact (hd.documentElement_eq_some_iff hrooted).2 ⟨htop, by rw [henvelope]; rfl⟩
    · refine hk.resolve_left ?_
      rintro rfl
      rw [hbody.2] at hname
      simp at hname
  · rintro ⟨envelope, body, htop, henvelope, hbody, hbelow, hname⟩
    have htop := ((hd.documentElement_eq_some_iff hrooted).1 htop).1
    have hattr := (Xml.Document.hasDescendant_iff.1 hbelow).2.1
    exact ⟨envelope, mem_denotation_child.2 ⟨htop, henvelope⟩, body,
      mem_denotation_child.2 hbody, m, ⟨.inr hbelow, isAbout_of_expandedName hattr hname, hname⟩,
      rfl⟩

theorem denotation_codeExpression (version : Version) :
    Expression.denotation (codeExpression version) d n =
      nestedIn d version.envelopeNamespace "Code" "Value" n := by
  ext m
  rw [codeExpression, Expression.mem_denotation_singleton]
  constructor
  · rintro ⟨_, ⟨rfl, -⟩, code, hcode, value, hvalue, rfl⟩
    exact ⟨code, mem_denotation_child.1 hcode, mem_denotation_child.1 hvalue⟩
  · rintro ⟨code, hcode, hvalue⟩
    exact ⟨n, ⟨rfl, trivial⟩, code, mem_denotation_child.2 hcode, m,
      mem_denotation_child.2 hvalue, rfl⟩

/-- The expression for reasons leaves out only texts that are not the first of their reason. -/
theorem denotation_reasonExpression_subset (version : Version) :
    Expression.denotation (reasonExpression version) d n ⊆
      nestedIn d version.envelopeNamespace "Reason" "Text" n := by
  intro m hm
  obtain ⟨_, ⟨rfl, -⟩, reason, hreason, text, htext, rfl⟩ :=
    Expression.mem_denotation_singleton.1 hm
  exact ⟨reason, mem_denotation_child.1 hreason, mem_denotation_child.1 htext.1⟩

theorem exists_denotation_reasonExpression (hd : d.Shows forest) {version : Version}
    (hm : m ∈ nestedIn d version.envelopeNamespace "Reason" "Text" n) :
    ∃ k ∈ Expression.denotation (reasonExpression version) d n, m = k ∨ d.Precedes k m := by
  obtain ⟨reason, hreason, htext⟩ := hm
  obtain ⟨k, hk, hbefore⟩ := Xml.Path.exists_first_denotation hd hreason.1.hasNode
    (mem_denotation_child.2 htext)
  refine ⟨k, Expression.mem_denotation_singleton.2 ?_, hbefore⟩
  exact ⟨n, ⟨rfl, trivial⟩, reason, mem_denotation_child.2 hreason, k, hk, rfl⟩

/-! ## What is read -/

theorem FirstText.of_enumerates {nodes : Set Node} {xs : List Node} (h : d.Enumerates nodes xs) :
    FirstText d nodes ((xs.head?.map fun n => Text.trimmed (d.text n)).getD "") := by
  cases xs with
  | nil => exact .inr ⟨h.eq_empty, rfl⟩
  | cons n rest => exact .inl ⟨n, h.isFirst, rfl⟩

theorem FirstText.of_subset {nodes others : Set Node} {text : String} (h : FirstText d nodes text)
    (hsubset : nodes ⊆ others) (hcover : ∀ m ∈ others, ∃ k ∈ nodes, m = k ∨ d.Precedes k m) :
    FirstText d others text := by
  obtain ⟨n, hn, htext⟩ | ⟨rfl, htext⟩ := h
  · exact .inl ⟨n, hn.of_subset hsubset hcover, htext⟩
  · refine .inr ⟨Set.eq_empty_iff_forall_notMem.2 fun m hm => ?_, htext⟩
    obtain ⟨k, hk, -⟩ := hcover m hm
    exact hk

theorem exists_firstText_of_compile (hd : d.Shows forest) (hn : d.HasNode n) {version : Version}
    {path : String} {expression : Expression}
    (h : compile (envelopeBindings version) path = .ok expression) :
    ∃ text, firstText d n version path = .ok text ∧
      FirstText d (expression.denotation d n) text := by
  have hlists := expression.lists_select hd (Xml.Path.compile_counts h) hn
  rw [firstText, query_eq h]
  exact ⟨_, rfl, .of_enumerates (hlists.enumerates hd)⟩

theorem firstText_childText (hd : d.Shows forest) (n : Node) (base : String) :
    FirstText d (childrenNamed d base n) (childText d n base) := by
  have hlists : d.Lists (childrenNamed d base n)
      ((d.childElements n).filter (d.nameOf · == base)) := by
    refine (hd.lists_filter_nameOf n (· == base)).congr fun m => ?_
    simp [childrenNamed]
  have hfirst := FirstText.of_enumerates (hlists.enumerates hd)
  rw [List.head?_filter] at hfirst
  exact hfirst

theorem EitherText.of_isEmpty {newer older : Set Node} {text other : String}
    (hnewer : FirstText d newer text) (holder : FirstText d older other) :
    EitherText d newer older (if text.isEmpty then other else text) := by
  by_cases hempty : text = ""
  · rw [hempty] at hnewer ⊢
    exact .inr ⟨hnewer, holder⟩
  · rw [if_neg (by simpa using hempty)]
    exact .inl ⟨hnewer, hempty⟩

theorem enumerates_detailElements (hd : d.Shows forest) (n : Node) :
    d.Enumerates (detailsOf d n) (detailElements d n) := by
  have hdetails := hd.lists_filter_nameOf n fun base => base == "detail" || base == "Detail"
  refine hd.enumerates_of_precedes (List.pairwise_flatMap.2 ⟨fun k _ => ?_, ?_⟩) fun m => ?_
  · exact Xml.Document.precedes_childElements d k
  · refine List.pairwise_iff_forall_sublist.2 fun {a b} hsublist x hx y hy => ?_
    have hsiblings : [a, b].Sublist (d.children n) :=
      (hsublist.trans List.filter_sublist).trans List.filter_sublist
    have hbefore : d.Precedes x b :=
      .sibling hsiblings ⟨x, .inr (.single (hd.hasChild_of_mem hx)), .inl rfl⟩
    exact hbefore.trans (.toChild (hd.hasChild_of_mem hy))
  · rw [detailElements, List.mem_flatMap]
    refine exists_congr fun k => and_congr ?_ ((hd.lists_childElements k).mem m)
    rw [hdetails.mem]
    simp only [childrenNamed, Set.mem_ofPred_eq, Bool.or_eq_true, beq_iff_eq]
    constructor
    · rintro ⟨hchild, uri, base, hname, rfl | rfl⟩
      · exact .inl ⟨hchild, uri, hname⟩
      · exact .inr ⟨hchild, uri, hname⟩
    · rintro (⟨hchild, uri, hname⟩ | ⟨hchild, uri, hname⟩)
      · exact ⟨hchild, uri, _, hname, .inl rfl⟩
      · exact ⟨hchild, uri, _, hname, .inr rfl⟩

namespace Fault

theorem exists_ofNode_says (hd : d.Shows forest) (hn : d.HasNode n) (version : Version) :
    ∃ fault, ofNode d n version = .ok fault ∧ fault.Says d version n := by
  obtain ⟨code, hcode, hcodeText⟩ := exists_firstText_of_compile hd hn (compile_codePath version)
  obtain ⟨reason, hreason, hreasonText⟩ :=
    exists_firstText_of_compile hd hn (compile_reasonPath version)
  rw [denotation_codeExpression] at hcodeText
  have hreasonText := hreasonText.of_subset (denotation_reasonExpression_subset version)
    fun m hm => exists_denotation_reasonExpression hd hm
  have hdetails := enumerates_detailElements hd n
  refine ⟨_, by rw [ofNode, hcode, hreason]; rfl, ?_⟩
  refine ⟨.of_isEmpty hcodeText (firstText_childText hd n _),
    .of_isEmpty hreasonText (firstText_childText hd n _), _, hdetails, rfl, fun m hm => ?_⟩
  obtain ⟨k, -, hchild, hname⟩ := (hdetails.mem m).1 hm
  refine hd.isExcerpt_subtree ?_
  rw [← Xml.Document.isSome_expandedName hchild.2.1, hname]

/-- Looking for a fault never fails. One is found exactly if an envelope of the version is the
document element and holds one in a body, and it says what the first of them does. -/
theorem exists_detect_says (hd : d.Produced) (version : Version) :
    ∃ found, detect d version = .ok found ∧
      (found.isSome ↔ ∃ n, n ∈ faultsIn d version) ∧
      ∀ fault ∈ found, ∃ n, d.IsFirst (faultsIn d version) n ∧ fault.Says d version n := by
  obtain ⟨forest, hrooted, hd⟩ := hd.shows
  have hcompile := compile_faultPath version
  have hlists := Expression.lists_select hd (Xml.Path.compile_counts hcompile) hd.hasNode_root
  rw [denotation_faultExpression hrooted hd] at hlists
  have hquery := query_eq hcompile d Document.root
  generalize (faultExpression version).select d Document.root = nodes at hlists hquery
  have henumerates := hlists.enumerates hd
  rw [detect, hquery]
  cases nodes with
  | nil =>
    refine ⟨none, rfl, ?_, fun fault hfault => by cases hfault⟩
    simp [henumerates.eq_empty]
  | cons n rest =>
    have hfirst := henumerates.isFirst
    obtain ⟨fault, hfault, hsays⟩ :=
      exists_ofNode_says hd (hlists.valid n List.mem_cons_self) version
    refine ⟨some fault, ?_, ⟨fun _ => ⟨n, hfirst.1⟩, fun _ => rfl⟩, ?_⟩
    · show some <$> ofNode d n version = _
      rw [hfault]
      rfl
    · rintro _ ⟨⟩
      exact ⟨n, hfirst, hsays⟩

/-- The fault is not right below the body, and the qualifier of the expressions is registered for
another namespace. -/
theorem detect_of_deep_fault : ∃ d : Document,
    Document.read .lenient ("<Envelope xmlns='http://www.w3.org/2003/05/soap-envelope'><Body><a>" ++
      "<Fault/></a></Body></Envelope>") = .ok d ∧
    ∃ fault n, detect (d.register "env" "urn:other") .soap12 = .ok (some fault) ∧
      (d.register "env" "urn:other").IsFirst (faultsIn (d.register "env" "urn:other") .soap12) n ∧
      fault.Says (d.register "env" "urn:other") .soap12 n := by
  have hread : Document.read .lenient
      ("<Envelope xmlns='http://www.w3.org/2003/05/soap-envelope'><Body><a>" ++
        "<Fault/></a></Body></Envelope>") =
      .ok ⟨#[⟨none, [1], .document⟩,
        ⟨some 0, [2], .element ⟨⟨none, "Envelope"⟩, some Version.soap12.envelopeNamespace, [],
          [⟨none, Version.soap12.envelopeNamespace⟩]⟩⟩,
        ⟨some 1, [3], .element ⟨⟨none, "Body"⟩, some Version.soap12.envelopeNamespace, [], []⟩⟩,
        ⟨some 2, [4], .element ⟨⟨none, "a"⟩, some Version.soap12.envelopeNamespace, [], []⟩⟩,
        ⟨some 3, [], .element ⟨⟨none, "Fault"⟩, some Version.soap12.envelopeNamespace, [], []⟩⟩],
        []⟩ := by decide +kernel
  obtain ⟨found, hfound, hsome, hsays⟩ :=
    exists_detect_says (.register "env" "urn:other" (.read hread)) .soap12
  have hbelow : Option.isSome found := by
    refine hsome.2 ⟨Node.ofPlace 4, Node.ofPlace 1, Node.ofPlace 2, rfl, rfl, ?_, ?_, rfl⟩
    · exact ⟨⟨rfl, rfl, by decide, rfl⟩, rfl⟩
    · exact .tail (.single ⟨rfl, rfl, by decide, rfl⟩)
        (show Document.HasChild _ (Node.ofPlace 3) _ from ⟨rfl, rfl, by decide, rfl⟩)
  obtain ⟨fault, rfl⟩ := Option.isSome_iff_exists.1 hbelow
  obtain ⟨n, hfirst, hsays⟩ := hsays fault rfl
  exact ⟨_, hread, fault, n, hfound, hfirst, hsays⟩

end Fault

end SoapKit.Soap
