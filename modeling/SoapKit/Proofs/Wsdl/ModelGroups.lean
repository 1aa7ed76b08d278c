import SoapKit.Proofs.Wsdl.Sites

/-!
# Model groups in documents

The content of a complex type is written as model groups inside one another, with elements in them.
Which elements belong to it is said here by the tags of a document alone: they are those that are
reached from the node that holds the content through model groups (`InContent`). The nodes of what
stands earlier in a model group come before those of what stands later
(`pairwise_precedes_children`).

Schemas restrict what may stand in a model group (`FormedAt`). Nothing that they allow is passed
over when a content is read.
-/

namespace SoapKit.Wsdl

open Xml (Document Node)

variable {d : Document}

/-- Whether a node is a model group by its name. -/
def isModelGroup (d : Document) (n : Node) : Bool :=
  ["all", "sequence", "choice", "group"].contains (d.nameOf n)

/-- A node is part of a model group when it is one of its children, or part of a model group among
these. -/
inductive PartOf (d : Document) : Node → Node → Prop where
  | child {g n : Node} : n ∈ d.childrenIn g Soap.schemaNamespace → PartOf d g n
  | nested {g c n : Node} : c ∈ d.childrenIn g Soap.schemaNamespace → isModelGroup d c = true →
      PartOf d c n → PartOf d g n

/-- A node, and when it is a model group all of its parts. -/
def Under (d : Document) (c n : Node) : Prop :=
  n = c ∨ isModelGroup d c = true ∧ PartOf d c n

/-- The model groups of a content, which are children of the node that holds it. -/
def modelGroups (d : Document) (holder : Node) : List Node :=
  (d.childrenIn holder Soap.schemaNamespace).filter (isModelGroup d)

/-- A node stands in the content that a node holds: it is a model group of the content, or part of
one. -/
def InContent (d : Document) (holder n : Node) : Prop :=
  ∃ g ∈ modelGroups d holder, Under d g n

theorem isModelGroup_of_name {n : Node} {name : String} (h : d.nameOf n = name) :
    isModelGroup d n = ["all", "sequence", "choice", "group"].contains name := by
  rw [isModelGroup, h]

theorem isModelGroup_of_among {n : Node} (h : d.nameOf n ∈ ["all", "sequence", "choice"]) :
    isModelGroup d n = true :=
  List.contains_iff_mem.2 (List.mem_append_left ["group"] h)

theorem name_of_isModelGroup {n : Node} (h : isModelGroup d n = true)
    (hother : d.nameOf n ∉ ["all", "sequence", "choice"]) : d.nameOf n = "group" := by
  have hmem : d.nameOf n ∈ ["all", "sequence", "choice"] ++ ["group"] := List.contains_iff_mem.1 h
  exact List.mem_singleton.1 ((List.mem_append.1 hmem).resolve_left hother)

theorem name_ne_element {g : Node} (h : isModelGroup d g = true) : d.nameOf g ≠ "element" := by
  intro htag
  rw [isModelGroup_of_name htag] at h
  exact absurd h (by decide)

theorem childAmong?_among {g c : Node} {uri : String} {names : List String}
    (h : d.childAmong? g uri names = some c) : d.nameOf c ∈ names := by
  have hamong := List.find?_some h
  exact List.contains_iff_mem.1 hamong

theorem under_of_not_group {c n : Node} (h : isModelGroup d c = false) :
    Under d c n ↔ n = c := by
  unfold Under
  simp [h]

theorem partOf_iff {g n : Node} :
    PartOf d g n ↔ ∃ c ∈ d.childrenIn g Soap.schemaNamespace, Under d c n := by
  constructor
  · intro h
    cases h with
    | child hn => exact ⟨n, hn, .inl rfl⟩
    | nested hc hgroup hn => exact ⟨_, hc, .inr ⟨hgroup, hn⟩⟩
  · rintro ⟨c, hc, rfl | ⟨hgroup, hn⟩⟩
    · exact .child hc
    · exact .nested hc hgroup hn

/-! ## Model groups as schemas allow them -/

/-- The names of what may stand in a model group of a name. -/
def allowedIn (name : String) : List String :=
  if name = "all" then ["annotation", "element"]
  else if name = "group" then ["annotation", "all", "choice", "sequence"]
  else ["annotation", "element", "group", "choice", "sequence", "any"]

/-- A model group has only children that may stand in it, and a group has at most one model group in
it. -/
structure FormedAt (d : Document) (g : Node) : Prop where
  allowed : ∀ c ∈ d.childrenIn g Soap.schemaNamespace, d.nameOf c ∈ allowedIn (d.nameOf g)
  single : d.nameOf g = "group" → (modelGroups d g).length ≤ 1

/-- A node is formed as schemas allow it, with all model groups in it when it is one. -/
def Formed (d : Document) (c : Node) : Prop :=
  ∀ n, Under d c n → isModelGroup d n = true → FormedAt d n

/-- A content is formed as schemas allow it: it is at most one model group, which is formed so. -/
structure ContentFormed (d : Document) (holder : Node) : Prop where
  single : (modelGroups d holder).length ≤ 1
  formed : ∀ g ∈ modelGroups d holder, Formed d g

theorem Formed.at {g : Node} (h : Formed d g) (hgroup : isModelGroup d g = true) : FormedAt d g :=
  h g (.inl rfl) hgroup

/-- The children of a model group are formed when it is. -/
theorem Formed.child {g c : Node} (h : Formed d g) (hgroup : isModelGroup d g = true)
    (hc : c ∈ d.childrenIn g Soap.schemaNamespace) : Formed d c :=
  fun n hn => h n (.inr ⟨hgroup, partOf_iff.2 ⟨c, hc, hn⟩⟩)

instance (d : Document) (g : Node) : Decidable (FormedAt d g) :=
  decidable_of_iff ((∀ c ∈ d.childrenIn g Soap.schemaNamespace,
      d.nameOf c ∈ allowedIn (d.nameOf g)) ∧
      (d.nameOf g = "group" → (modelGroups d g).length ≤ 1))
    ⟨fun h => ⟨h.1, h.2⟩, fun h => ⟨h.allowed, h.single⟩⟩

/-- Whether a model group is formed as schemas allow it, with those in it down to a depth. -/
def isFormed (d : Document) : Nat → Node → Bool
  | 0, _ => false
  | depth + 1, g => decide (FormedAt d g) && (modelGroups d g).all (isFormed d depth)

theorem formed_of_isFormed {depth : Nat} {g : Node} (h : isFormed d depth g = true) :
    Formed d g := by
  induction depth generalizing g with
  | zero => cases h
  | succ depth ih =>
    rw [isFormed, Bool.and_eq_true, decide_eq_true_iff, List.all_eq_true] at h
    rintro n (rfl | ⟨-, hn⟩) hgroup
    · exact h.1
    · obtain ⟨c, hc, hn⟩ := partOf_iff.1 hn
      by_cases hcgroup : isModelGroup d c = true
      · exact ih (h.2 c (List.mem_filter.2 ⟨hc, hcgroup⟩)) n hn hgroup
      · rw [(under_of_not_group (by simpa using hcgroup)).1 hn] at hgroup
        exact absurd hgroup hcgroup

/-- What stands in a group is an annotation or a model group. -/
theorem annotation_or_group {g c : Node} (h : FormedAt d g) (htag : d.nameOf g = "group")
    (hc : c ∈ d.childrenIn g Soap.schemaNamespace) :
    d.nameOf c = "annotation" ∨ d.nameOf c ∈ ["all", "sequence", "choice"] := by
  have hallowed := h.allowed c hc
  rw [htag] at hallowed
  simp [allowedIn] at hallowed ⊢
  tauto

theorem eq_of_length_le_one {α : Type} {xs : List α} (h : xs.length ≤ 1) {a b : α} (ha : a ∈ xs)
    (hb : b ∈ xs) : a = b := by
  match xs, h with
  | [x], _ => rw [List.mem_singleton.1 ha, List.mem_singleton.1 hb]

/-! ## Document order -/

variable {forest : List Xml.Tree}

theorem hasChild_of_mem_childrenIn (hd : d.Shows forest) {g c : Node} {uri : String}
    (hc : c ∈ d.childrenIn g uri) : d.HasChild g c :=
  hd.hasChild_of_mem (List.mem_filter.1 hc).1

theorem PartOf.hasDescendant (hd : d.Shows forest) {g n : Node} (h : PartOf d g n) :
    d.HasDescendant g n := by
  induction h with
  | child hn => exact .single (hasChild_of_mem_childrenIn hd hn)
  | nested hc _ _ ih => exact .head (hasChild_of_mem_childrenIn hd hc) ih

theorem Under.eq_or_hasDescendant (hd : d.Shows forest) {c n : Node} (h : Under d c n) :
    n = c ∨ d.HasDescendant c n :=
  h.imp_right fun hpart => hpart.2.hasDescendant hd

/-- What stands under a child comes before what stands under a later one. -/
theorem pairwise_precedes_children (hd : d.Shows forest) (g : Node) (uri : String) :
    (d.childrenIn g uri).Pairwise fun a b =>
      ∀ n m, Under d a n → Under d b m → d.Precedes n m := by
  have hsublist : (d.childrenIn g uri).Sublist (d.children g) :=
    List.filter_sublist.trans List.filter_sublist
  refine List.pairwise_iff_forall_sublist.2 fun {a b} hab n m hn hm => ?_
  have hfirst : d.Precedes n b := by
    refine .sibling (hab.trans hsublist) ⟨n, ?_, .inl rfl⟩
    exact hn.eq_or_hasDescendant hd
  rcases hm.eq_or_hasDescendant hd with rfl | hbelow
  · exact hfirst
  · exact hfirst.trans (Xml.Document.precedes_of_hasDescendant hbelow)

end SoapKit.Wsdl
