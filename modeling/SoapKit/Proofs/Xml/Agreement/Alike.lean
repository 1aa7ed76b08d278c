import SoapKit.Proofs.Xml.Namespaces
import SoapKit.Xml.Assembly

/-!
# Documents that are alike

Two documents are alike (`Document.Alike`) when they have the same nodes with the same expanded
names, and give every node the same namespaces and the same string value, each text looked at
through a function `f`: the identity, or one that leaves something out. Qualifiers and the
declarations written on a node may differ as long as the same namespaces are in effect.

On trees this is a relation between tags and runs of text (`Tree.Alike`). It is kept by what a
reader does to a forest: by putting trees behind each other and by adding character data
(`Tree.AlikeAll.append`, `Tree.AlikeAll.addData`). Documents that show alike forests are alike
(`Document.Shows.alike`).
-/

namespace SoapKit.Xml

open Declaration (lookup)

/-! ## Alike documents -/

/-- The same nodes with the same expanded names and values, where texts are looked at through
`f`. -/
structure Document.Alike (f : String → String) (d e : Document) : Prop where
  children : ∀ n, d.children n = e.children n
  attributesOf : ∀ n, d.attributesOf n = e.attributesOf n
  isElement : ∀ n, d.isElement n = e.isElement n
  nameOf : ∀ n, d.nameOf n = e.nameOf n
  uriOf : ∀ n, (d.uriOf n).map f = (e.uriOf n).map f
  text : ∀ n, f (d.text n) = f (e.text n)
  lookupNamespace : ∀ n qualifier,
    (d.lookupNamespace n qualifier).map f = (e.lookupNamespace n qualifier).map f

/-! ## Alike trees -/

/-- Attributes with the same expanded name and value. -/
structure Attribute.Alike (f : String → String) (attr attr' : Attribute) : Prop where
  base : attr.name.base = attr'.name.base
  uri : attr.uri.map f = attr'.uri.map f
  value : f attr.value = f attr'.value

/-- Tags with the same expanded name and the same attributes in order. -/
structure Tag.Alike (f : String → String) (tag tag' : Tag) : Prop where
  base : tag.name.base = tag'.name.base
  uri : tag.uri.map f = tag'.uri.map f
  attributes : List.Forall₂ (Attribute.Alike f) tag.attributes tag'.attributes

/-- Every qualifier stands for the same namespace in two scopes. -/
def Declaration.ScopesAlike (f : String → String) (scope scope' : List Declaration) : Prop :=
  ∀ qualifier, (lookup scope qualifier).map f = (lookup scope' qualifier).map f

namespace Tree

open Declaration (ScopesAlike)

mutual

/-- Trees inside of two scopes that say the same, node by node. -/
inductive Alike (f : String → String) : List Declaration → List Declaration → Tree → Tree → Prop
  | text {scope scope' : List Declaration} {data data' : String} :
      f data = f data' → Alike f scope scope' (.text data) (.text data')
  | element {scope scope' : List Declaration} {tag tag' : Tag} {children children' : List Tree} :
      tag.Alike f tag' →
      ScopesAlike f (tag.declarations ++ scope) (tag'.declarations ++ scope') →
      AlikeAll f (tag.declarations ++ scope) (tag'.declarations ++ scope') children children' →
      Alike f scope scope' (.element tag children) (.element tag' children')

/-- Trees that are alike one by one. -/
inductive AlikeAll (f : String → String) :
    List Declaration → List Declaration → List Tree → List Tree → Prop
  | nil {scope scope' : List Declaration} : AlikeAll f scope scope' [] []
  | cons {scope scope' : List Declaration} {t t' : Tree} {rest rest' : List Tree} :
      Alike f scope scope' t t' → AlikeAll f scope scope' rest rest' →
      AlikeAll f scope scope' (t :: rest) (t' :: rest')

end

variable {f : String → String} {scope scope' : List Declaration}

theorem AlikeAll.append {xs xs' ys ys' : List Tree} (h : AlikeAll f scope scope' xs xs')
    (h' : AlikeAll f scope scope' ys ys') : AlikeAll f scope scope' (xs ++ ys) (xs' ++ ys') := by
  induction xs generalizing xs' with
  | nil =>
    cases h
    exact h'
  | cons x xs ih =>
    cases h with
    | cons hx hxs => exact .cons hx (ih hxs)

theorem AlikeAll.concat {xs xs' : List Tree} {t t' : Tree} (h : AlikeAll f scope scope' xs xs')
    (ht : Alike f scope scope' t t') : AlikeAll f scope scope' (xs ++ [t]) (xs' ++ [t']) :=
  h.append (.cons ht .nil)

/-! ## Adding character data -/

theorem addText_cons_cons (x y : Tree) (rest : List Tree) (data : String) :
    addText (x :: y :: rest) data = x :: addText (y :: rest) data := by
  simp only [addText, List.getLast?_cons_cons]
  split <;> simp

/-- Data that is added in two pieces is added as a whole. -/
theorem addText_addText (forest : List Tree) (a b : String) :
    addText (addText forest a) b = addText forest (a ++ b) := by
  rcases List.eq_nil_or_concat forest with rfl | ⟨init, t, rfl⟩
  · rfl
  · rw [List.concat_eq_append]
    cases t with
    | text before => simp [addText, String.append_assoc]
    | element tag children => simp [addText]

theorem AlikeAll.addText (hf : ∀ a b, f (a ++ b) = f a ++ f b) {xs ys : List Tree}
    (h : AlikeAll f scope scope' xs ys) {a b : String} (hab : f a = f b) :
    AlikeAll f scope scope' (addText xs a) (addText ys b) := by
  induction xs generalizing ys with
  | nil =>
    cases h
    exact .cons (.text hab) .nil
  | cons x rest ih =>
    cases h with
    | cons hx hrest =>
      cases hrest with
      | nil =>
        cases hx with
        | text hdata => exact .cons (.text (by rw [hf, hf, hdata, hab])) .nil
        | element htag hscope hchildren =>
          exact .cons (.element htag hscope hchildren) (.cons (.text hab) .nil)
      | cons hy hrest =>
        rw [addText_cons_cons, addText_cons_cons]
        exact .cons hx (ih (.cons hy hrest))

/-- A forest with character data behind it, unless the data is blank. -/
def addData (forest : List Tree) (data : List Char) : List Tree :=
  if data.all Text.isBlank then forest else addText forest (String.ofList data)

/-- The pieces of data that are not blank, joined. -/
def keptData (pieces : List (List Char)) : List Char :=
  (pieces.filter fun piece => !piece.all Text.isBlank).flatten

theorem keptData_cons_of_blank {piece : List Char} (h : piece.all Text.isBlank = true)
    (rest : List (List Char)) : keptData (piece :: rest) = keptData rest := by
  rw [keptData, List.filter_cons_of_neg (by simp [h]), keptData]

theorem keptData_cons_of_not_blank {piece : List Char} (h : piece.all Text.isBlank = false)
    (rest : List (List Char)) : keptData (piece :: rest) = piece ++ keptData rest := by
  rw [keptData, List.filter_cons_of_pos (by simp [h]), List.flatten_cons, keptData]

/-- Nothing blank is kept on its own. -/
theorem keptData_eq_nil {pieces : List (List Char)}
    (h : (keptData pieces).all Text.isBlank = true) :
    keptData pieces = [] := by
  induction pieces with
  | nil => rfl
  | cons piece rest ih =>
    cases hblank : piece.all Text.isBlank with
    | true =>
      rw [keptData_cons_of_blank hblank] at h ⊢
      exact ih h
    | false =>
      rw [keptData_cons_of_not_blank hblank, List.all_append, hblank] at h
      cases h

/-- Adding pieces one after the other is adding what is kept of them. -/
theorem foldl_addData (pieces : List (List Char)) (forest : List Tree) :
    pieces.foldl addData forest = addData forest (keptData pieces) := by
  induction pieces generalizing forest with
  | nil => rfl
  | cons piece rest ih =>
    rw [List.foldl_cons, ih]
    cases hblank : piece.all Text.isBlank with
    | true =>
      rw [keptData_cons_of_blank hblank, show addData forest piece = forest from if_pos hblank]
    | false =>
      have hwhole : (piece ++ keptData rest).all Text.isBlank = false := by
        rw [List.all_append, hblank, Bool.false_and]
      have hpiece : addData forest piece = addText forest (String.ofList piece) := by
        simp [addData, hblank]
      have hall : addData forest (piece ++ keptData rest) =
          addText forest (String.ofList (piece ++ keptData rest)) := by
        rw [addData, hwhole, if_neg Bool.false_ne_true]
      rw [keptData_cons_of_not_blank hblank, hpiece, hall]
      cases hrest : (keptData rest).all Text.isBlank with
      | true =>
        rw [keptData_eq_nil hrest, List.append_nil]
        rfl
      | false =>
        rw [addData, hrest, if_neg Bool.false_ne_true, addText_addText, String.ofList_append]

/-- Data that is blank in both cases or looks the same keeps forests alike. -/
theorem AlikeAll.addData (hf : ∀ a b, f (a ++ b) = f a ++ f b) {xs ys : List Tree}
    (h : AlikeAll f scope scope' xs ys) {a b : List Char}
    (hblank : a.all Text.isBlank = b.all Text.isBlank)
    (hab : a.all Text.isBlank = false → f (String.ofList a) = f (String.ofList b)) :
    AlikeAll f scope scope' (addData xs a) (addData ys b) := by
  rw [Tree.addData, Tree.addData, ← hblank]
  cases ha : a.all Text.isBlank with
  | true => exact h
  | false => exact h.addText hf (hab ha)

/-! ## Sizes and places -/

mutual

theorem Alike.size_eq : ∀ {t t' : Tree} {scope scope' : List Declaration},
    Alike f scope scope' t t' → t.size = t'.size
  | .text _, _, _, _, h => by
    cases h
    rfl
  | .element _ children, _, _, _, h => by
    cases h with
    | element _ _ hchildren => rw [size, size, AlikeAll.sizeAll_eq hchildren]

theorem AlikeAll.sizeAll_eq : ∀ {forest forest' : List Tree} {scope scope' : List Declaration},
    AlikeAll f scope scope' forest forest' → sizeAll forest = sizeAll forest'
  | [], _, _, _, h => by
    cases h
    rfl
  | t :: rest, _, _, _, h => by
    cases h with
    | cons ht hrest => rw [sizeAll, sizeAll, Alike.size_eq ht, AlikeAll.sizeAll_eq hrest]

end

theorem AlikeAll.places_eq {forest forest' : List Tree} (h : AlikeAll f scope scope' forest forest')
    (place : Nat) : places place forest = places place forest' := by
  induction forest generalizing forest' place with
  | nil =>
    cases h
    rfl
  | cons t rest ih =>
    cases h with
    | cons ht hrest => rw [places, places, ht.size_eq, ih hrest]

end Tree

/-! ## What alike trees show -/

/-- Contents that are the same up to qualifiers and declarations. -/
inductive Content.Alike (f : String → String) : Content → Content → Prop
  | document : Content.Alike f .document .document
  | element {tag tag' : Tag} : tag.Alike f tag' → Content.Alike f (.element tag) (.element tag')
  | text {data data' : String} : f data = f data' → Content.Alike f (.text data) (.text data')

namespace Document

open SoapKit.Xml.Tree
open Declaration (ScopesAlike)

variable {f : String → String} {d e : Document} {forest forest' : List Tree}

/-- The same node stands at a place of two documents. -/
structure AlikeAt (f : String → String) (d e : Document) (place : Nat) : Prop where
  children : (d.entry place).children = (e.entry place).children
  content : (d.entry place).content.Alike f (e.entry place).content
  namespaces : ScopesAlike f (d.reachingDeclarations (Node.ofPlace place))
    (e.reachingDeclarations (Node.ofPlace place))

theorem Holds.reachingDeclarations_text (hd : d.Shows forest) {parent place : Nat} {data : String}
    (h : d.Holds parent place (.text data)) :
    d.reachingDeclarations (Node.ofPlace place) =
      d.reachingDeclarations (Node.ofPlace parent) := by
  rw [hd.reachingDeclarations_child h.isChild, tagAt, h.entry_text]
  rfl

mutual

/-- Alike trees at one place make alike nodes. -/
theorem Holds.alikeAt (hd : d.Shows forest) (he : e.Shows forest') {parent place m : Nat} :
    ∀ {t t' : Tree},
    d.Holds parent place t → e.Holds parent place t' →
    ScopesAlike f (d.reachingDeclarations (Node.ofPlace parent))
      (e.reachingDeclarations (Node.ofPlace parent)) →
    t.Alike f (d.reachingDeclarations (Node.ofPlace parent))
      (e.reachingDeclarations (Node.ofPlace parent)) t' →
    place ≤ m → m < place + t.size → AlikeAt f d e m
  | .text data, t', h, h', hscope, halike, hle, hlt => by
    cases halike with
    | text hdata =>
      obtain rfl : m = place := by rw [size] at hlt; omega
      exact {
        children := by rw [h.entry_text, h'.entry_text]
        content := by
          rw [h.entry_text, h'.entry_text]
          exact .text hdata
        namespaces := by
          rw [h.reachingDeclarations_text hd, h'.reachingDeclarations_text he]
          exact hscope }
  | .element tag children, t', h, h', hscope, halike, hle, hlt => by
    cases halike with
    | @element _ _ _ tag' _ children' htag htags hchildren =>
      rw [← h.reachingDeclarations hd, ← h'.reachingDeclarations he] at htags hchildren
      by_cases hm : m = place
      · subst hm
        exact {
          children := by rw [h.entry_element, h'.entry_element, hchildren.places_eq]
          content := by
            rw [h.entry_element, h'.entry_element]
            exact .element htag
          namespaces := htags }
      · rw [size] at hlt
        exact HoldsAll.alikeAt hd he h.children h'.children htags hchildren (by omega) (by omega)

theorem HoldsAll.alikeAt (hd : d.Shows forest) (he : e.Shows forest') {parent place m : Nat} :
    ∀ {xs xs' : List Tree},
    d.HoldsAll parent place xs → e.HoldsAll parent place xs' →
    ScopesAlike f (d.reachingDeclarations (Node.ofPlace parent))
      (e.reachingDeclarations (Node.ofPlace parent)) →
    AlikeAll f (d.reachingDeclarations (Node.ofPlace parent))
      (e.reachingDeclarations (Node.ofPlace parent)) xs xs' →
    place ≤ m → m < place + sizeAll xs → AlikeAt f d e m
  | [], _, _, _, _, _, hle, hlt => by
    rw [sizeAll] at hlt
    omega
  | t :: rest, _, h, h', hscope, halike, hle, hlt => by
    cases halike with
    | @cons _ _ _ t' _ rest' ht hrest =>
      rw [sizeAll] at hlt
      by_cases hm : m < place + t.size
      · exact Holds.alikeAt hd he h.head h'.head hscope ht hle hm
      · have htail := h'.tail
        rw [← ht.size_eq] at htail
        exact HoldsAll.alikeAt hd he h.tail htail hscope hrest (by omega) (by omega)

end

/-- Nothing reaches a place behind the table. -/
theorem Shows.reachingDeclarations_of_size_le (hd : d.Shows forest) {place : Nat}
    (h : d.entries.size ≤ place) : d.reachingDeclarations (Node.ofPlace place) = [] := by
  have hancestry : d.ancestry (Node.ofPlace place) = [place] := by
    show d.climb d.entries.size place = [place]
    rw [hd.size_eq, climb, entry_of_size_le h]
  rw [reachingDeclarations, hancestry, List.flatMap_singleton, tagAt, entry_of_size_le h]
  rfl

/-- All nodes of documents that show alike forests are alike; behind both tables there is
nothing. -/
theorem Shows.alikeAt (hd : d.Shows forest) (he : e.Shows forest')
    (h : AlikeAll f [] [] forest forest') (place : Nat) : AlikeAt f d e place := by
  have hsize : d.entries.size = e.entries.size := by
    rw [hd.size_eq, he.size_eq, h.sizeAll_eq]
  have hnone : d.reachingDeclarations (Node.ofPlace 0) = [] := hd.reachingDeclarations_root
  have hnone' : e.reachingDeclarations (Node.ofPlace 0) = [] := he.reachingDeclarations_root
  have hroot : ScopesAlike f (d.reachingDeclarations (Node.ofPlace 0))
      (e.reachingDeclarations (Node.ofPlace 0)) := by
    rw [hnone, hnone']
    exact fun _ => rfl
  rcases Nat.eq_zero_or_pos place with rfl | hpos
  · exact {
      children := by rw [hd.entry_zero, he.entry_zero, h.places_eq]
      content := by
        rw [hd.entry_zero, he.entry_zero]
        exact .document
      namespaces := hroot }
  · rcases Nat.lt_or_ge place d.entries.size with hlt | hge
    · refine HoldsAll.alikeAt hd he hd.holdsAll he.holdsAll hroot ?_ hpos ?_
      · rw [hnone, hnone']
        exact h
      · rw [hd.size_eq] at hlt
        omega
    · have hge' : e.entries.size ≤ place := hsize ▸ hge
      exact {
        children := by rw [entry_of_size_le hge, entry_of_size_le hge']
        content := by
          rw [entry_of_size_le hge, entry_of_size_le hge']
          exact .document
        namespaces := by
          rw [hd.reachingDeclarations_of_size_le hge, he.reachingDeclarations_of_size_le hge']
          exact fun _ => rfl }

/-! ## What alike nodes have in common -/

theorem AlikeAt.ownText {n : Node} (h : AlikeAt f d e n.place) :
    (d.ownText n).map f = (e.ownText n).map f := by
  have hcontent := h.content
  rw [Document.ownText, Document.ownText]
  generalize (d.entry n.place).content = content at hcontent ⊢
  generalize (e.entry n.place).content = content' at hcontent ⊢
  cases hcontent with
  | document => rfl
  | element _ => rfl
  | text hdata => exact congrArg some hdata

/-- An element stands at a place of both documents or of neither. -/
theorem AlikeAt.tagAt {place : Nat} (h : AlikeAt f d e place) :
    Option.Rel (Tag.Alike f) (d.tagAt place) (e.tagAt place) := by
  have hcontent := h.content
  rw [Document.tagAt, Document.tagAt]
  generalize (d.entry place).content = content at hcontent ⊢
  generalize (e.entry place).content = content' at hcontent ⊢
  cases hcontent with
  | document => exact .none
  | element htag => exact .some htag
  | text _ => exact .none

theorem getElem?_rel {α β : Type} {R : α → β → Prop} {xs : List α} {ys : List β}
    (h : List.Forall₂ R xs ys) (index : Nat) : Option.Rel R xs[index]? ys[index]? := by
  induction h generalizing index with
  | nil => exact .none
  | cons hxy _ ih =>
    cases index with
    | zero => exact .some hxy
    | succ index => exact ih index

/-- An attribute is found in both documents or in neither. -/
theorem AlikeAt.attribute? {n : Node} (h : AlikeAt f d e n.place) :
    Option.Rel (Attribute.Alike f) (d.attribute? n) (e.attribute? n) := by
  have htag := h.tagAt
  rw [Document.attribute?, Document.attribute?]
  generalize d.tagAt n.place = tag at htag ⊢
  generalize e.tagAt n.place = tag' at htag ⊢
  cases htag with
  | none => exact .none
  | some htag =>
    cases n.attr with
    | none => exact .none
    | some index => exact getElem?_rel htag.attributes index

theorem AlikeAt.tag {n : Node} (h : AlikeAt f d e n.place) :
    Option.Rel (Tag.Alike f) (d.tag n) (e.tag n) := by
  rw [Document.tag, Document.tag]
  cases n.attr with
  | none => exact h.tagAt
  | some index => exact .none

theorem AlikeAt.nameOf {n : Node} (h : AlikeAt f d e n.place) : d.nameOf n = e.nameOf n := by
  have hcontent := h.content
  have hattr := h.attribute?
  rw [Document.nameOf, Document.nameOf]
  generalize d.attribute? n = attr at hattr ⊢
  generalize e.attribute? n = attr' at hattr ⊢
  cases hattr with
  | some hattr => exact hattr.base
  | none =>
    generalize (d.entry n.place).content = content at hcontent ⊢
    generalize (e.entry n.place).content = content' at hcontent ⊢
    cases hcontent with
    | document => rfl
    | element htag => exact htag.base
    | text _ => rfl

theorem AlikeAt.uriOf {n : Node} (h : AlikeAt f d e n.place) :
    (d.uriOf n).map f = (e.uriOf n).map f := by
  have htag := h.tag
  have hattr := h.attribute?
  rw [Document.uriOf, Document.uriOf]
  generalize d.attribute? n = attr at hattr ⊢
  generalize e.attribute? n = attr' at hattr ⊢
  cases hattr with
  | some hattr => exact hattr.uri
  | none =>
    generalize d.tag n = tag at htag ⊢
    generalize e.tag n = tag' at htag ⊢
    cases htag with
    | none => rfl
    | some htag => exact htag.uri

theorem AlikeAt.attributesOf {n : Node} (h : AlikeAt f d e n.place) :
    d.attributesOf n = e.attributesOf n := by
  have htag := h.tag
  rw [Document.attributesOf, Document.attributesOf]
  generalize d.tag n = tag at htag ⊢
  generalize e.tag n = tag' at htag ⊢
  cases htag with
  | none => rfl
  | some htag => simp only [htag.attributes.length_eq]

theorem AlikeAt.children_eq {n : Node} (h : AlikeAt f d e n.place) :
    d.children n = e.children n := by
  rw [Document.children, Document.children]
  cases n.attr with
  | none => exact congrArg (List.map Node.ofPlace) h.children
  | some index => rfl

theorem AlikeAt.isElement {n : Node} (h : AlikeAt f d e n.place) :
    d.isElement n = e.isElement n := by
  have htag := h.tag
  rw [Document.isElement, Document.isElement]
  generalize d.tag n = tag at htag ⊢
  generalize e.tag n = tag' at htag ⊢
  cases htag <;> rfl

theorem AlikeAt.lookupNamespace {n : Node} (h : AlikeAt f d e n.place)
    (qualifier : Option String) :
    (d.lookupNamespace n qualifier).map f = (e.lookupNamespace n qualifier).map f :=
  h.namespaces qualifier

/-! ## String values -/

theorem walk_congr (h : ∀ n, d.children n = e.children n) (steps : Nat) (pending : List Node) :
    d.walk steps pending = e.walk steps pending := by
  induction steps generalizing pending with
  | zero => cases pending <;> rfl
  | succ steps ih =>
    cases pending with
    | nil => rfl
    | cons n pending => rw [walk, walk, h, ih]

section StringValue

variable (hf : ∀ a b, f (a ++ b) = f a ++ f b)
include hf

theorem map_join (texts : List String) : f (String.join texts) = String.join (texts.map f) := by
  have hempty : f "" = "" := by
    have hlength := congrArg String.length (hf "" "")
    rw [String.append_empty, String.length_append] at hlength
    exact String.length_eq_zero_iff.1 (by omega)
  induction texts with
  | nil => exact hempty
  | cons text rest ih => rw [String.join_cons, hf, ih, List.map_cons, String.join_cons]

/-- Documents that show alike forests are alike. -/
theorem Shows.alike (hd : d.Shows forest) (he : e.Shows forest')
    (h : AlikeAll f [] [] forest forest') : d.Alike f e := by
  have hat : ∀ place, AlikeAt f d e place := hd.alikeAt he h
  have hchildren : ∀ n, d.children n = e.children n := fun n => (hat n.place).children_eq
  have hsize : d.entries.size = e.entries.size := by
    rw [hd.size_eq, he.size_eq, h.sizeAll_eq]
  exact {
    children := hchildren
    attributesOf := fun n => (hat n.place).attributesOf
    isElement := fun n => (hat n.place).isElement
    nameOf := fun n => (hat n.place).nameOf
    uriOf := fun n => (hat n.place).uriOf
    text := by
      intro n
      have hattr := (hat n.place).attribute?
      have hown : ∀ n, (d.ownText n).map f = (e.ownText n).map f := fun n => (hat n.place).ownText
      have hbelow : ((d.descendants n).filterMap d.ownText).map f =
          ((e.descendants n).filterMap e.ownText).map f := by
        rw [List.map_filterMap, List.map_filterMap, descendants, descendants, hsize, hchildren n,
          walk_congr hchildren]
        exact List.filterMap_congr fun m _ => hown m
      rw [Document.text, Document.text]
      generalize d.attribute? n = attr at hattr ⊢
      generalize e.attribute? n = attr' at hattr ⊢
      cases hattr with
      | some hattr => exact hattr.value
      | none =>
        have hn := hown n
        generalize d.ownText n = own at hn ⊢
        generalize e.ownText n = own' at hn ⊢
        cases own with
        | none =>
          obtain rfl : own' = none := by simpa using hn
          simp only [map_join hf, hbelow]
        | some text =>
          obtain ⟨text', rfl, htext⟩ : ∃ text', own' = some text' ∧ f text = f text' := by
            simpa [eq_comm] using hn
          exact htext
    lookupNamespace := fun n => (hat n.place).lookupNamespace }

end StringValue

end Document

end SoapKit.Xml
