import SoapKit.Client.Content
import SoapKit.Proofs.Wsdl.ModelGroups

/-!
# Elements of contents

A content is read from the model groups of a document, and its elements are listed in order. Both
are recursions over model groups inside one another; together they list the elements that are read
from the element nodes of the content, in document order (`Gathers`). Nothing is passed over when
the content is formed as schemas allow it. A choice or a reference to a group ends the listing, with
an error that is due to such a node (`Refuses`).

The main lemma is `modelGroup_gathers`, by induction on the depth of the reader. It puts together
what is gathered from the children of a model group (`Gathers.append`), whose parts stand in
document order.
-/

namespace SoapKit.Wsdl

open Xml (Document Node)

namespace Reader

variable {r : Reader} {depth : Nat}

/-! ## What is read from a model group -/

/-- An element is read from a node. -/
def ReadsElement (r : Reader) (n : Node) (element : Element) : Prop :=
  ∃ depth, r.element depth n = .ok element

/-- What is read from a child of a sequence or choice. -/
inductive ReadsParticle (r : Reader) (depth : Nat) (c : Node) : Option Particle → Prop where
  | element {element : Element} : r.document.nameOf c = "element" →
      r.element depth c = .ok element → ReadsParticle r depth c (some (.element element))
  | nested {content : ModelGroup} : r.document.nameOf c ∈ ["sequence", "choice", "group"] →
      r.modelGroup depth c = .ok content → ReadsParticle r depth c (some (.nested content))
  | other : r.document.nameOf c ∉ ["element", "sequence", "choice", "group", "any"] →
      ReadsParticle r depth c none

/-- What is read from a model group. -/
inductive ReadsGroup (r : Reader) (depth : Nat) (g : Node) : ModelGroup → Prop where
  | all {elements : List Element} : r.document.nameOf g = "all" →
      List.Forall₂ (fun c element => r.element depth c = .ok element)
        (r.document.childrenNamed g Soap.schemaNamespace "element") elements →
      ReadsGroup r depth g (.all elements)
  | sequence {found : List (Option Particle)} : r.document.nameOf g = "sequence" →
      List.Forall₂ (r.ReadsParticle depth) (r.children g) found →
      ReadsGroup r depth g (.sequence (found.filterMap id))
  | choice {particles : List Particle} : r.document.nameOf g = "choice" →
      ReadsGroup r depth g (.choice particles)
  | reference {text : String} {name : QName} :
      r.document.nameOf g ∉ ["all", "sequence", "choice"] → r.value? g "ref" = some text →
      r.resolve g text = .ok name → ReadsGroup r depth g (.groupReference name)
  | empty {name : Option QName} : r.document.nameOf g ∉ ["all", "sequence", "choice"] →
      r.value? g "ref" = none → r.childAmong? g ["all", "sequence", "choice"] = none →
      ReadsGroup r depth g (.group ⟨name, none⟩)
  | group {name : Option QName} {c : Node} {content : ModelGroup} :
      r.document.nameOf g ∉ ["all", "sequence", "choice"] → r.value? g "ref" = none →
      r.childAmong? g ["all", "sequence", "choice"] = some c →
      r.modelGroup depth c = .ok content → ReadsGroup r depth g (.group ⟨name, some content⟩)

/-- The particles of a model group, as they are read from its children. -/
def particle? (r : Reader) (depth : Nat) (c : Node) : Except Error (Option Particle) :=
  match r.document.nameOf c with
  | "element" => return some (.element (← r.element depth c))
  | "sequence" | "choice" | "group" => return some (.nested (← r.modelGroup depth c))
  | "any" => throw (r.notSupported "xs:any" c)
  | _ => return none

theorem readsParticle {c : Node} {found : Option Particle} (h : r.particle? depth c = .ok found) :
    r.ReadsParticle depth c found := by
  rw [particle?] at h
  split at h
  · next htag =>
    obtain ⟨element, helement, h⟩ := bind_eq_ok.1 h
    cases h
    exact .element htag helement
  · next htag =>
    obtain ⟨content, hcontent, h⟩ := bind_eq_ok.1 h
    cases h
    exact .nested (by simp [htag]) hcontent
  · next htag =>
    obtain ⟨content, hcontent, h⟩ := bind_eq_ok.1 h
    cases h
    exact .nested (by simp [htag]) hcontent
  · next htag =>
    obtain ⟨content, hcontent, h⟩ := bind_eq_ok.1 h
    cases h
    exact .nested (by simp [htag]) hcontent
  · cases h
  · next helement hsequence hchoice hgroup hany =>
    cases h
    exact .other (by simpa using ⟨helement, hsequence, hchoice, hgroup, hany⟩)

theorem readsGroup {g : Node} {content : ModelGroup}
    (h : r.modelGroup (depth + 1) g = .ok content) : r.ReadsGroup depth g content := by
  rw [modelGroup] at h
  split at h
  · next htag =>
    obtain ⟨elements, helements, h⟩ := bind_eq_ok.1 h
    cases h
    exact .all htag (mapM_eq_ok_iff.1 helements)
  · next htag =>
    obtain ⟨particles, hparticles, h⟩ := bind_eq_ok.1 h
    obtain ⟨found, hfound, hparticles⟩ := bind_eq_ok.1 hparticles
    cases h
    cases hparticles
    have hall : List.Forall₂ (fun c found => r.particle? depth c = .ok found) (r.children g)
        found := mapM_eq_ok_iff.1 hfound
    exact .sequence htag (hall.imp fun _ _ => readsParticle)
  · next htag =>
    obtain ⟨particles, -, h⟩ := bind_eq_ok.1 h
    cases h
    exact .choice htag
  · next hall hsequence hchoice =>
    have htag : r.document.nameOf g ∉ ["all", "sequence", "choice"] := by
      simpa using ⟨hall, hsequence, hchoice⟩
    split at h
    · next text hreference =>
      split at h
      · cases h
      · obtain ⟨name, hname, h⟩ := bind_eq_ok.1 h
        cases h
        exact .reference htag hreference hname
    · next hreference =>
      obtain ⟨group, hgroup, h⟩ := bind_eq_ok.1 h
      obtain ⟨found, hfound, hgroup⟩ := bind_eq_ok.1 hgroup
      cases h
      cases hgroup
      cases hchild : r.childAmong? g ["all", "sequence", "choice"] with
      | none =>
        rw [hchild] at hfound
        cases hfound
        exact .empty htag hreference hchild
      | some c =>
        rw [hchild, Option.mapM_some] at hfound
        obtain ⟨content, hcontent, rfl⟩ := map_eq_ok.1 hfound
        exact .group htag hreference hchild hcontent

end Reader

end SoapKit.Wsdl

namespace SoapKit.Client

open Wsdl (QName Reader Particle ModelGroup isModelGroup modelGroups Under PartOf Formed
  InContent ContentFormed allowedIn under_of_not_group isModelGroup_of_name name_ne_element
  annotation_or_group)
open Xml (Document Node)

variable {r : Reader} {owner : QName} {P Q : Node → Prop} {formed formed' : Prop}

/-! ## What is gathered -/

/-- A node that no record can express: a choice, or a reference to a group. -/
def IsUnsupported (d : Document) (n : Node) : Prop :=
  d.nameOf n = "choice" ∨ d.nameOf n = "group" ∧ (d.attributeValue n "ref").isSome = true

/-- The error that is due to such a node in the content of a type. -/
inductive Refuses (r : Reader) (owner : QName) (n : Node) : Error → Prop where
  | choice : r.document.nameOf n = "choice" →
      Refuses r owner n (.notSupported "xs:choice" owner.text)
  | groupReference {text : String} {name : QName} : r.document.nameOf n = "group" →
      r.value? n "ref" = some text → r.resolve n text = .ok name →
      Refuses r owner n (.notSupported "group reference" (name.text ++ " in " ++ owner.text))

/-- Elements are read from element nodes of a part of a document, in document order. -/
structure Gathered (r : Reader) (P : Node → Prop) (nodes : List Node)
    (elements : List Wsdl.Element) : Prop where
  within : ∀ n ∈ nodes, P n ∧ r.document.nameOf n = "element"
  order : nodes.Pairwise r.document.Precedes
  read : List.Forall₂ r.ReadsElement nodes elements

/-- Nodes are all element nodes of a part of a document, in which there is nothing unsupported. -/
structure Covers (d : Document) (P : Node → Prop) (nodes : List Node) : Prop where
  all : ∀ n, P n → d.nameOf n = "element" → n ∈ nodes
  supported : ∀ n, P n → ¬ IsUnsupported d n

/-- What is gathered from a part of a document: its elements, and all of them when it is well
formed, or an error for one of its nodes. -/
def Gathers (r : Reader) (owner : QName) (P : Node → Prop) (formed : Prop) :
    Except Error (List Wsdl.Element) → Prop
  | .ok elements => ∃ nodes, Gathered r P nodes elements ∧
      (formed → Covers r.document P nodes)
  | .error e => ∃ n, P n ∧ Refuses r owner n e

namespace Gathers

/-- What is gathered from a part is gathered from a larger one that has no more elements. -/
theorem widen {result : Except Error (List Wsdl.Element)} (h : Gathers r owner P formed result)
    (hP : ∀ n, P n → Q n) (hformed : formed' → formed ∧ ∀ n, Q n →
      P n ∨ r.document.nameOf n ≠ "element" ∧ ¬ IsUnsupported r.document n) :
    Gathers r owner Q formed' result := by
  cases result with
  | error e =>
    obtain ⟨n, hn, hrefuses⟩ := h
    exact ⟨n, hP n hn, hrefuses⟩
  | ok elements =>
    obtain ⟨nodes, hnodes, hall⟩ := h
    have hwithin : ∀ n ∈ nodes, Q n ∧ r.document.nameOf n = "element" :=
      fun n hn => (hnodes.within n hn).imp_left (hP n)
    refine ⟨nodes, ⟨hwithin, hnodes.order, hnodes.read⟩, fun h => ?_⟩
    obtain ⟨hinner, hothers⟩ := hformed h
    refine ⟨fun n hn htag => ?_, fun n hn => ?_⟩
    · rcases hothers n hn with hn | ⟨hnot, -⟩
      · exact (hall hinner).all n hn htag
      · exact absurd htag hnot
    · rcases hothers n hn with hn | ⟨-, hsupported⟩
      · exact (hall hinner).supported n hn
      · exact hsupported

theorem congr {result : Except Error (List Wsdl.Element)} (h : Gathers r owner P formed result)
    (hP : ∀ n, P n ↔ Q n) (hformed : formed' → formed) : Gathers r owner Q formed' result :=
  h.widen (fun n => (hP n).1) fun h => ⟨hformed h, fun n hn => .inl ((hP n).2 hn)⟩

/-- Nothing is gathered from a part without elements. -/
theorem nothing (h : formed → ∀ n, P n → r.document.nameOf n ≠ "element" ∧
    ¬ IsUnsupported r.document n) : Gathers r owner P formed (.ok []) :=
  ⟨[], ⟨by simp, .nil, .nil⟩, fun hformed =>
    ⟨fun n hn htag => absurd htag (h hformed n hn).1, fun n hn => (h hformed n hn).2⟩⟩

theorem single {n : Node} {element : Wsdl.Element} (htag : r.document.nameOf n = "element")
    (h : r.ReadsElement n element) : Gathers r owner (· = n) formed (.ok [element]) := by
  refine ⟨[n], ⟨by simpa using htag, List.pairwise_singleton _ _, .cons h .nil⟩, fun _ => ⟨?_, ?_⟩⟩
  · intro m hm _
    exact List.mem_singleton.2 hm
  · rintro m rfl hunsupported
    rcases hunsupported with hchoice | ⟨hgroup, -⟩
    · rw [htag] at hchoice
      exact absurd hchoice (by decide)
    · rw [htag] at hgroup
      exact absurd hgroup (by decide)

/-- What is gathered from two parts, one of which comes before the other. -/
theorem append {x y : Except Error (List Wsdl.Element)} (hx : Gathers r owner P formed x)
    (hy : Gathers r owner Q formed' y) (hbefore : ∀ n m, P n → Q m → r.document.Precedes n m) :
    Gathers r owner (fun n => P n ∨ Q n) (formed ∧ formed')
      (do return (← x) ++ (← y)) := by
  cases x with
  | error e =>
    obtain ⟨n, hn, hrefuses⟩ := hx
    exact ⟨n, .inl hn, hrefuses⟩
  | ok first =>
    cases y with
    | error e =>
      obtain ⟨n, hn, hrefuses⟩ := hy
      exact ⟨n, .inr hn, hrefuses⟩
    | ok second =>
      obtain ⟨nodes, hnodes, hall⟩ := hx
      obtain ⟨nodes', hnodes', hall'⟩ := hy
      refine ⟨nodes ++ nodes', ⟨?_, ?_, ?_⟩, fun ⟨hformed, hformed'⟩ => ⟨?_, ?_⟩⟩
      · intro n hn
        rcases List.mem_append.1 hn with hn | hn
        · exact (hnodes.within n hn).imp_left .inl
        · exact (hnodes'.within n hn).imp_left .inr
      · refine List.pairwise_append.2 ⟨hnodes.order, hnodes'.order, fun n hn m hm => ?_⟩
        exact hbefore n m (hnodes.within n hn).1 (hnodes'.within m hm).1
      · exact List.rel_append hnodes.read hnodes'.read
      · rintro n (hn | hn) htag
        · exact List.mem_append_left _ ((hall hformed).all n hn htag)
        · exact List.mem_append_right _ ((hall' hformed').all n hn htag)
      · rintro n (hn | hn)
        · exact (hall hformed).supported n hn
        · exact (hall' hformed').supported n hn

end Gathers

/-! ## Model groups -/

section ModelGroups

variable {forest : List Xml.Tree} {depth : Nat}

/-- What is gathered from children that are read one after the other as particles. -/
theorem particles_gather
    (hgroup : ∀ {g : Node} {content : ModelGroup}, r.modelGroup depth g = .ok content →
      isModelGroup r.document g = true →
      Gathers r owner (Under r.document g) (Formed r.document g) (contentElements owner content))
    {cs : List Node} {found : List (Option Particle)}
    (horder : cs.Pairwise fun a b =>
      ∀ n m, Under r.document a n → Under r.document b m → r.document.Precedes n m)
    (hread : List.Forall₂ (r.ReadsParticle depth) cs found) :
    Gathers r owner (fun n => ∃ c ∈ cs, Under r.document c n)
      (∀ c ∈ cs, Formed r.document c ∧ r.document.nameOf c ∈ allowedIn "sequence")
      (particleElements owner (found.filterMap id)) := by
  induction hread with
  | nil => exact .nothing fun _ n ⟨c, hc, _⟩ => by cases hc
  | @cons c particle? cs found hparticle _ ih =>
    obtain ⟨hfirst, hrest⟩ := List.pairwise_cons.1 horder
    have hparts : ∀ n, (Under r.document c n ∨ ∃ c' ∈ cs, Under r.document c' n) ↔
        ∃ c' ∈ c :: cs, Under r.document c' n := by
      intro n
      rw [List.exists_mem_cons_iff]
    have hbefore : ∀ n m, Under r.document c n → (∃ c' ∈ cs, Under r.document c' m) →
        r.document.Precedes n m :=
      fun n m hn ⟨c', hc', hm⟩ => hfirst c' hc' n m hn hm
    cases hparticle with
    | @element element htag helement =>
      have hown : Gathers r owner (Under r.document c) True (.ok [element]) := by
        refine (Gathers.single htag ⟨depth, helement⟩).congr (fun n => ?_) id
        rw [under_of_not_group (by rw [isModelGroup_of_name htag]; rfl)]
      have hkept : (some (Particle.element element) :: found).filterMap id =
          .element element :: found.filterMap id := rfl
      have heq : particleElements owner (.element element :: found.filterMap id) =
          (do return (← .ok [element]) ++ (← particleElements owner (found.filterMap id))) := by
        rw [particleElements]
        rfl
      rw [hkept, heq]
      exact (hown.append (ih hrest) hbefore).congr hparts fun h =>
        ⟨trivial, fun c' hc' => h c' (List.mem_cons_of_mem c hc')⟩
    | @nested content htag hcontent =>
      have hisGroup : isModelGroup r.document c = true := by
        rw [isModelGroup, List.contains_iff_mem]
        exact List.mem_cons_of_mem _ htag
      have hkept : (some (Particle.nested content) :: found).filterMap id =
          .nested content :: found.filterMap id := rfl
      rw [hkept, particleElements]
      exact ((hgroup hcontent hisGroup).append (ih hrest) hbefore).congr hparts fun h =>
        ⟨(h c List.mem_cons_self).1, fun c' hc' => h c' (List.mem_cons_of_mem c hc')⟩
    | other htag =>
      have hown : Gathers r owner (Under r.document c)
          (r.document.nameOf c ∈ allowedIn "sequence") (.ok []) := by
        refine .nothing fun hallowed n hn => ?_
        have hnote : r.document.nameOf c = "annotation" := by
          simp [allowedIn] at hallowed htag
          tauto
        rw [under_of_not_group (by rw [isModelGroup_of_name hnote]; rfl)] at hn
        rw [hn, IsUnsupported, hnote]
        simp
      have heq : particleElements owner (found.filterMap id) =
          (do return (← .ok []) ++ (← particleElements owner (found.filterMap id))) := by
        cases particleElements owner (found.filterMap id) <;> rfl
      have hkept : (none :: found).filterMap id = found.filterMap id := rfl
      rw [hkept, heq]
      exact (hown.append (ih hrest) hbefore).congr hparts fun h =>
        ⟨(h c List.mem_cons_self).2, fun c' hc' => h c' (List.mem_cons_of_mem c hc')⟩

/-- What is gathered from the parts of a model group is gathered from the group. -/
theorem Gathers.of_parts {g : Node} {result : Except Error (List Wsdl.Element)}
    (hgroup : isModelGroup r.document g = true) (hsupported : ¬ IsUnsupported r.document g)
    (h : Gathers r owner (PartOf r.document g) formed result) :
    Gathers r owner (Under r.document g) formed result := by
  refine h.widen (fun n hn => .inr ⟨hgroup, hn⟩) fun hformed => ⟨hformed, ?_⟩
  rintro n (rfl | ⟨-, hn⟩)
  · exact .inr ⟨name_ne_element hgroup, hsupported⟩
  · exact .inl hn

theorem not_element_of_note {d : Document} {c n : Node} (h : d.nameOf c = "annotation")
    (hn : Under d c n) : d.nameOf n ≠ "element" ∧ ¬ IsUnsupported d n := by
  rw [under_of_not_group (by rw [isModelGroup_of_name h]; rfl)] at hn
  rw [hn, IsUnsupported, h]
  simp

/-- The elements of a model group that is read are those read from the element nodes in it. -/
theorem modelGroup_gathers (hd : r.document.Shows forest) (owner : QName) {g : Node}
    {content : ModelGroup} (h : r.modelGroup depth g = .ok content)
    (hgroup : isModelGroup r.document g = true) :
    Gathers r owner (Under r.document g) (Formed r.document g) (contentElements owner content) := by
  induction depth generalizing g content with
  | zero => cases h
  | succ depth ih =>
    have hchildren := Wsdl.pairwise_precedes_children hd g Soap.schemaNamespace
    have hsupported : r.document.nameOf g ≠ "choice" → r.value? g "ref" = none →
        ¬ IsUnsupported r.document g := by
      rintro hchoice href (htag | ⟨-, hsome⟩)
      · exact hchoice htag
      · rw [Reader.value?] at href
        rw [href] at hsome
        cases hsome
    cases Reader.readsGroup h with
    | @all elements htag helements =>
      rw [contentElements]
      refine .of_parts hgroup ?_ ⟨r.document.childrenNamed g Soap.schemaNamespace "element",
        ⟨?_, ?_, ?_⟩, fun hformed => ?_⟩
      · rintro (hchoice | ⟨hname, -⟩)
        · exact absurd (htag.symm.trans hchoice) (by decide)
        · exact absurd (htag.symm.trans hname) (by decide)
      · intro n hn
        obtain ⟨hn, hname⟩ := List.mem_filter.1 hn
        exact ⟨.child hn, by simpa using hname⟩
      · exact (hchildren.filter _).imp fun hbefore => hbefore _ _ (.inl rfl) (.inl rfl)
      · exact helements.imp fun _ _ helement => ⟨depth, helement⟩
      · have hnames : ∀ c ∈ r.document.childrenIn g Soap.schemaNamespace,
            r.document.nameOf c = "annotation" ∨ r.document.nameOf c = "element" := by
          intro c hc
          have hallowed := (hformed.at hgroup).allowed c hc
          rw [htag] at hallowed
          simpa [allowedIn] using hallowed
        have hsingle : ∀ c ∈ r.document.childrenIn g Soap.schemaNamespace,
            isModelGroup r.document c = false := by
          intro c hc
          rcases hnames c hc with hname | hname <;> rw [isModelGroup_of_name hname] <;> rfl
        refine ⟨fun n hn hname => ?_, fun n hn => ?_⟩ <;>
          obtain ⟨c, hc, hn⟩ := Wsdl.partOf_iff.1 hn <;>
          rw [under_of_not_group (hsingle c hc)] at hn <;> subst hn
        · exact List.mem_filter.2 ⟨hc, by simpa using hname⟩
        · rcases hnames n hc with hname | hname <;> rw [IsUnsupported, hname] <;> simp
    | @sequence found htag hfound =>
      rw [contentElements]
      refine .of_parts hgroup ?_ ((particles_gather ih hchildren hfound).congr
        (fun n => Wsdl.partOf_iff.symm) fun hformed c hc => ⟨hformed.child hgroup hc, ?_⟩)
      · rintro (hchoice | ⟨hname, -⟩)
        · exact absurd (htag.symm.trans hchoice) (by decide)
        · exact absurd (htag.symm.trans hname) (by decide)
      · have hallowed := (hformed.at hgroup).allowed c hc
        rwa [htag] at hallowed
    | choice htag =>
      rw [contentElements]
      exact ⟨g, .inl rfl, .choice htag⟩
    | @reference text name htag hreference hname =>
      rw [contentElements]
      exact ⟨g, .inl rfl,
        .groupReference (Wsdl.name_of_isModelGroup hgroup htag) hreference hname⟩
    | @empty name htag hreference hnone =>
      have hname := Wsdl.name_of_isModelGroup hgroup htag
      have hnochoice : r.document.nameOf g ≠ "choice" := by
        rw [hname]
        decide
      rw [contentElements]
      refine .of_parts hgroup (hsupported hnochoice hreference) (.nothing fun hformed n hn => ?_)
      obtain ⟨c, hc, hn⟩ := Wsdl.partOf_iff.1 hn
      rcases annotation_or_group (hformed.at hgroup) hname hc with hnote | hamong
      · exact not_element_of_note hnote hn
      · exact absurd (List.contains_iff_mem.2 hamong) (List.find?_eq_none.1 hnone c hc)
    | @group name c inner htag hreference hchild hinner =>
      have hname := Wsdl.name_of_isModelGroup hgroup htag
      have hnochoice : r.document.nameOf g ≠ "choice" := by
        rw [hname]
        decide
      have hc : c ∈ r.document.childrenIn g Soap.schemaNamespace := List.mem_of_find?_eq_some hchild
      have hcgroup := Wsdl.isModelGroup_of_among (Wsdl.childAmong?_among hchild)
      rw [contentElements]
      refine .of_parts hgroup (hsupported hnochoice hreference) ((ih hinner hcgroup).widen
        (fun n hn => Wsdl.partOf_iff.2 ⟨c, hc, hn⟩) fun hformed => ⟨hformed.child hgroup hc, ?_⟩)
      intro n hn
      obtain ⟨c', hc', hn⟩ := Wsdl.partOf_iff.1 hn
      rcases annotation_or_group (hformed.at hgroup) hname hc' with hnote | hamong
      · exact .inr (not_element_of_note hnote hn)
      · have hcgroup' : isModelGroup r.document c' = true := by
          simp [isModelGroup] at hamong ⊢
          tauto
        have hsame : c' = c := Wsdl.eq_of_length_le_one ((hformed.at hgroup).single hname)
          (List.mem_filter.2 ⟨hc', hcgroup'⟩) (List.mem_filter.2 ⟨hc, hcgroup⟩)
        exact .inl (hsame ▸ hn)

end ModelGroups

end SoapKit.Client
