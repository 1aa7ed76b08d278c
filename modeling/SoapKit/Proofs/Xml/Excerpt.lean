import SoapKit.Proofs.Xml.Building

/-!
# Excerpts

An excerpt of a document is a document that lists one of its elements, with other declarations on
that element. Its nodes stand for the element and what is below it, in the same order, so a place of
the excerpt and the place it stands for differ by a constant (`Node.within`).

**Theorem (`isExcerpt_of_shows`).** If namespaces are looked up on the excerpt's document element
with the same results as on the element, every node of the excerpt has the neighbours, names, values
and namespaces of the node that it stands for.

Both tables hold the same trees below the element (`HoldsAll.locate_both`), and what reaches a node
is declared on the way down to it, which is the same way in both.
-/

namespace SoapKit.Xml

open SoapKit.Xml.Tree
open Declaration (lookup)

/-- The node of a document that a node of an excerpt stands for, when the excerpt is of the element
`n`. -/
def Node.within (n m : Node) : Node :=
  ⟨n.place + (m.place - 1), m.attr⟩

/-- The first content is the second one, with other declarations if it is an element. -/
inductive Content.Redeclares : Content → Content → Prop where
  | element (tag : Tag) (own : List Declaration) :
      Redeclares (.element { tag with declarations := own }) (.element tag)
  | text (data : String) : Redeclares (.text data) (.text data)

/-- The first tree is the second one, with other declarations if it is an element. -/
inductive Tree.Redeclares : Tree → Tree → Prop where
  | element (tag : Tag) (own : List Declaration) (children : List Tree) :
      Redeclares (.element { tag with declarations := own } children) (.element tag children)
  | text (data : String) : Redeclares (.text data) (.text data)

theorem Tree.Redeclares.refl (t : Tree) : t.Redeclares t := by
  cases t with
  | text data => exact .text data
  | element tag children => exact .element tag tag.declarations children

namespace Document

/-- The document `e` is an excerpt of `d` for the element `n`: its nodes, the document itself apart,
stand for the element and everything below it, and say the same. -/
structure IsExcerpt (d : Document) (n : Node) (e : Document) : Prop where
  nodes : (e.descendants root).map n.within = n :: d.descendants n
  top : e.children root = [Node.ofPlace 1]
  children : ∀ m, e.HasNode m → 0 < m.place → (e.children m).map n.within = d.children (n.within m)
  attributes : ∀ m, e.HasNode m → 0 < m.place →
    (e.attributesOf m).map n.within = d.attributesOf (n.within m)
  element : ∀ m, e.HasNode m → 0 < m.place → e.isElement m = d.isElement (n.within m)
  character : ∀ m, e.HasNode m → 0 < m.place → e.isText m = d.isText (n.within m)
  name : ∀ m, e.HasNode m → 0 < m.place → e.nameOf m = d.nameOf (n.within m)
  qualifier : ∀ m, e.HasNode m → 0 < m.place → e.qualifierOf m = d.qualifierOf (n.within m)
  uri : ∀ m, e.HasNode m → 0 < m.place → e.uriOf m = d.uriOf (n.within m)
  text : ∀ m, e.HasNode m → 0 < m.place → e.text m = d.text (n.within m)
  namespaces : ∀ m, e.HasNode m → 0 < m.place → ∀ qualifier,
    e.lookupNamespace m qualifier = d.lookupNamespace (n.within m) qualifier

/-! ## The same trees in two tables -/

variable {d e : Document} {forest : List Tree}

theorem places_add (a x : Nat) (forest : List Tree) :
    places (a + x) forest = (places x forest).map (a + ·) := by
  induction forest generalizing x with
  | nil => rfl
  | cons t rest ih => rw [places, places, List.map_cons, Nat.add_assoc, ih]

mutual

/-- Inside of a tree that two tables hold, they hold the same trees, below corresponding places. -/
theorem Holds.locate_both {p q a b k : Nat} : ∀ {t : Tree}, d.Holds p a t → e.Holds q b t →
    0 < k → k < t.size →
      ∃ i < k, ∃ t', d.Holds (a + i) (a + k) t' ∧ e.Holds (b + i) (b + k) t'
  | .text data, _, _, hpos, hlt => by
    rw [size] at hlt
    omega
  | .element tag children, hd, he, hpos, hlt => by
    rw [size] at hlt
    obtain ⟨k, rfl⟩ : ∃ j, k = j + 1 := ⟨k - 1, by omega⟩
    obtain ⟨t', ⟨hd', he'⟩ | ⟨i, hi, hd', he'⟩⟩ :=
      HoldsAll.locate_both hd.children he.children (k := k) (by omega)
    · exact ⟨0, hpos, t', by rwa [Nat.add_assoc, Nat.add_comm 1] at hd',
        by rwa [Nat.add_assoc, Nat.add_comm 1] at he'⟩
    · refine ⟨i + 1, by omega, t', ?_, ?_⟩
      · rwa [Nat.add_assoc, Nat.add_comm 1, Nat.add_assoc, Nat.add_comm 1] at hd'
      · rwa [Nat.add_assoc, Nat.add_comm 1, Nat.add_assoc, Nat.add_comm 1] at he'

/-- Inside of a forest that two tables hold, they hold the same trees: those of the forest, or trees
below corresponding places. -/
theorem HoldsAll.locate_both {p q a b k : Nat} : ∀ {forest : List Tree},
    d.HoldsAll p a forest → e.HoldsAll q b forest → k < sizeAll forest →
      ∃ t', (d.Holds p (a + k) t' ∧ e.Holds q (b + k) t') ∨
        ∃ i < k, d.Holds (a + i) (a + k) t' ∧ e.Holds (b + i) (b + k) t'
  | [], _, _, hlt => by
    rw [sizeAll] at hlt
    omega
  | t :: rest, hd, he, hlt => by
    rw [sizeAll] at hlt
    by_cases hk : k < t.size
    · rcases Nat.eq_zero_or_pos k with rfl | hpos
      · exact ⟨t, .inl ⟨hd.head, he.head⟩⟩
      · obtain ⟨i, hi, t', hd', he'⟩ := hd.head.locate_both he.head hpos hk
        exact ⟨t', .inr ⟨i, hi, hd', he'⟩⟩
    · obtain ⟨t', h⟩ := HoldsAll.locate_both hd.tail he.tail (k := k - t.size) (by omega)
      have hadd : ∀ x, x + t.size + (k - t.size) = x + k := by omega
      rw [hadd, hadd] at h
      rcases h with h | ⟨i, hi, hd', he'⟩
      · exact ⟨t', .inl h⟩
      · refine ⟨t', .inr ⟨t.size + i, by omega, ?_, ?_⟩⟩
        · rwa [Nat.add_assoc] at hd'
        · rwa [Nat.add_assoc] at he'

end

/-! ## Contents that differ in declarations -/

section Contents

variable {m m' : Node} (hcontent : (e.entry m.place).content.Redeclares (d.entry m'.place).content)
  (hattr : m.attr = m'.attr)
include hcontent

theorem tagAt_of_redeclares :
    (∃ tag own, e.tagAt m.place = some { tag with declarations := own } ∧
      d.tagAt m'.place = some tag) ∨ e.tagAt m.place = none ∧ d.tagAt m'.place = none := by
  rw [tagAt, tagAt]
  generalize (e.entry m.place).content = c at hcontent
  generalize (d.entry m'.place).content = c' at hcontent
  cases hcontent with
  | element tag own => exact .inl ⟨tag, own, rfl, rfl⟩
  | text data => exact .inr ⟨rfl, rfl⟩

theorem isText_of_redeclares : e.isText m = d.isText m' := by
  rw [isText, isText]
  generalize (e.entry m.place).content = c at hcontent
  generalize (d.entry m'.place).content = c' at hcontent
  cases hcontent <;> rfl

theorem ownText_of_redeclares : e.ownText m = d.ownText m' := by
  rw [ownText, ownText]
  generalize (e.entry m.place).content = c at hcontent
  generalize (d.entry m'.place).content = c' at hcontent
  cases hcontent <;> rfl

include hattr

theorem attribute?_of_redeclares : e.attribute? m = d.attribute? m' := by
  rw [attribute?, attribute?, hattr]
  rcases tagAt_of_redeclares hcontent with ⟨tag, own, he, hd⟩ | ⟨he, hd⟩
  · rw [he, hd]
    rfl
  · rw [he, hd]

theorem tag_of_redeclares :
    (∃ tag own, e.tag m = some { tag with declarations := own } ∧ d.tag m' = some tag) ∨
      e.tag m = none ∧ d.tag m' = none := by
  rw [Document.tag, Document.tag, hattr]
  cases m'.attr with
  | none => exact tagAt_of_redeclares hcontent
  | some index => exact .inr ⟨rfl, rfl⟩

theorem isElement_of_redeclares : e.isElement m = d.isElement m' := by
  rw [isElement, isElement]
  rcases tag_of_redeclares hcontent hattr with ⟨tag, own, he, hd⟩ | ⟨he, hd⟩
  · rw [he, hd]
    rfl
  · rw [he, hd]

theorem nameOf_of_redeclares : e.nameOf m = d.nameOf m' := by
  rw [nameOf, nameOf, attribute?_of_redeclares hcontent hattr]
  generalize (e.entry m.place).content = c at hcontent
  generalize (d.entry m'.place).content = c' at hcontent
  cases d.attribute? m' with
  | some attr => rfl
  | none => cases hcontent <;> rfl

theorem qualifierOf_of_redeclares : e.qualifierOf m = d.qualifierOf m' := by
  rw [qualifierOf, qualifierOf, attribute?_of_redeclares hcontent hattr]
  rcases tag_of_redeclares hcontent hattr with ⟨tag, own, he, hd⟩ | ⟨he, hd⟩
  · rw [he, hd]
    rfl
  · rw [he, hd]

theorem uriOf_of_redeclares : e.uriOf m = d.uriOf m' := by
  rw [uriOf, uriOf, attribute?_of_redeclares hcontent hattr]
  rcases tag_of_redeclares hcontent hattr with ⟨tag, own, he, hd⟩ | ⟨he, hd⟩
  · rw [he, hd]
    rfl
  · rw [he, hd]

end Contents

/-! ## Excerpts of shown documents -/

theorem within_add (place x : Nat) (attr : Option Nat) :
    (Node.ofPlace place).within ⟨1 + x, attr⟩ = ⟨place + x, attr⟩ := by
  rw [Node.within, Nat.add_sub_cancel_left]
  rfl

theorem map_within (place : Nat) (xs : List Nat) :
    ((xs.map (1 + ·)).map Node.ofPlace).map (Node.ofPlace place).within =
      (xs.map (place + ·)).map Node.ofPlace := by
  rw [List.map_map, List.map_map, List.map_map]
  exact List.map_congr_left fun x _ => within_add place x none

section Excerpt

variable {parent place : Nat} {tag : Tag} {own : List Declaration} {children : List Tree}
  (hd : d.Shows forest) (he : e.Shows [.element { tag with declarations := own } children])
  (hn : d.Holds parent place (.element tag children))
include he

theorem size_excerpt : e.entries.size = sizeAll children + 2 := by
  rw [he.size_eq, sizeAll, size, sizeAll]

include hn

/-- At corresponding places below the element stand the same trees, at corresponding parents. -/
theorem exists_holds_both {k : Nat} (hpos : 0 < k) (hk : k < sizeAll children + 1) :
    ∃ i < k, ∃ t, d.Holds (place + i) (place + k) t ∧ e.Holds (1 + i) (1 + k) t := by
  obtain ⟨k, rfl⟩ : ∃ j, k = j + 1 := ⟨k - 1, by omega⟩
  have htop : e.Holds 0 1 (.element { tag with declarations := own } children) := he.holdsAll.head
  have hadd : ∀ a, a + 1 + k = a + (k + 1) := by omega
  obtain ⟨t, ht⟩ := hn.children.locate_both htop.children (k := k) (by omega)
  rw [hadd, hadd] at ht
  rcases ht with ⟨hd', he'⟩ | ⟨i, hi, hd', he'⟩
  · exact ⟨0, hpos, t, hd', he'⟩
  · refine ⟨i + 1, by omega, t, ?_, ?_⟩
    · rwa [Nat.add_assoc, Nat.add_comm 1] at hd'
    · rwa [Nat.add_assoc, Nat.add_comm 1] at he'

/-- At corresponding places stand trees that differ at most in the declarations of the element. -/
theorem exists_redeclares {k : Nat} (hk : k < sizeAll children + 1) :
    ∃ q r t' t, e.Holds q (1 + k) t' ∧ d.Holds r (place + k) t ∧ t'.Redeclares t := by
  rcases Nat.eq_zero_or_pos k with rfl | hpos
  · exact ⟨0, parent, _, _, he.holdsAll.head, hn, .element tag own children⟩
  · obtain ⟨i, -, t, hd', he'⟩ := exists_holds_both he hn hpos hk
    exact ⟨_, _, t, t, he', hd', .refl t⟩

/-- A node of an excerpt and the one that it stands for: the same content, but for declarations,
corresponding children and corresponding descendants. -/
theorem corresponds {m : Node} (hpos : 0 < m.place) (hm : m.place < e.entries.size) :
    (e.entry m.place).content.Redeclares
        (d.entry ((Node.ofPlace place).within m).place).content ∧
      (e.children m).map (Node.ofPlace place).within =
        d.children ((Node.ofPlace place).within m) ∧
      (e.descendants m).map (Node.ofPlace place).within =
        d.descendants ((Node.ofPlace place).within m) ∧
      ∀ k ∈ e.descendants m, 0 < k.place ∧ k.place < e.entries.size := by
  obtain ⟨m, attr⟩ := m
  rw [size_excerpt he] at hm
  simp only at hpos hm
  obtain ⟨k, rfl⟩ : ∃ k, m = 1 + k := ⟨m - 1, by omega⟩
  obtain ⟨q, r, t', t, he', hd', hsame⟩ := exists_redeclares he hn (k := k) (by omega)
  rw [within_add]
  refine ⟨?_, ?_, ?_, ?_⟩
  · cases hsame with
    | element tag own children =>
      rw [he'.entry_element, hd'.entry_element]
      exact .element tag own
    | text data =>
      rw [he'.entry_text, hd'.entry_text]
      exact .text data
  · cases attr with
    | some index => rfl
    | none =>
      show ((e.entry (1 + k)).children.map Node.ofPlace).map _ =
        (d.entry (place + k)).children.map Node.ofPlace
      cases hsame with
      | element tag own children =>
        rw [he'.entry_element, hd'.entry_element]
        simp only
        rw [Nat.add_assoc, Nat.add_assoc, places_add 1, places_add place, map_within]
      | text data =>
        rw [he'.entry_text, hd'.entry_text]
        rfl
  · cases attr with
    | some index =>
      show (e.walk _ []).map _ = d.walk _ []
      rw [walk_nil, walk_nil]
      rfl
    | none =>
      have hsize : t'.size = t.size := by cases hsame <;> rfl
      show (e.descendants (Node.ofPlace (1 + k))).map _ =
        d.descendants (Node.ofPlace (place + k))
      rw [he'.descendants_eq, hd'.descendants_eq, hsize, Nat.add_assoc, Nat.add_assoc,
        ← List.map_add_range' (a := 1), ← List.map_add_range' (a := place), map_within]

  · cases attr with
    | some index =>
      have hnone : e.descendants ⟨1 + k, some index⟩ = [] := walk_nil _
      rw [hnone]
      simp
    | none =>
      have hdescendants : e.descendants ⟨1 + k, none⟩ = _ := he'.descendants_eq
      rw [hdescendants]
      intro x hx
      obtain ⟨y, hy, rfl⟩ := List.mem_map.1 hx
      have := List.mem_range'_1.1 hy
      have := he'.size_le
      have := t'.size_pos
      show 0 < y ∧ y < e.entries.size
      omega

variable (hlookup : ∀ qualifier,
  lookup own qualifier = lookup (d.reachingDeclarations (Node.ofPlace place)) qualifier)
include hd hlookup

/-- Namespaces are looked up alike at corresponding places: those of the element by assumption, and
those below by what is declared on the way down. -/
theorem lookup_both {k : Nat} (hk : k < sizeAll children + 1) (qualifier : Option String) :
    lookup (e.reachingDeclarations (Node.ofPlace (1 + k))) qualifier =
      lookup (d.reachingDeclarations (Node.ofPlace (place + k))) qualifier := by
  induction k using Nat.strong_induction_on generalizing qualifier with
  | _ k ih =>
    rcases Nat.eq_zero_or_pos k with rfl | hpos
    · have hroot : e.reachingDeclarations (Node.ofPlace 0) = [] := he.reachingDeclarations_root
      rw [Nat.add_zero, Nat.add_zero, Holds.reachingDeclarations he he.holdsAll.head, hroot,
        List.append_nil]
      exact hlookup qualifier
    · obtain ⟨i, hi, t, hd', he'⟩ := exists_holds_both he hn hpos hk
      have htag : e.tagAt (1 + k) = d.tagAt (place + k) := by
        cases t with
        | text data => rw [tagAt, tagAt, he'.entry_text, hd'.entry_text]
        | element tag children => rw [he'.tagAt_element, hd'.tagAt_element]
      rw [he.reachingDeclarations_child he'.isChild, hd.reachingDeclarations_child hd'.isChild,
        htag]
      exact lookup_append_congr (ih i hi (by omega)) qualifier

/-- A document that lists an element of another one is an excerpt, if namespaces are looked up alike
on the element. -/
theorem isExcerpt_of_shows : d.IsExcerpt (Node.ofPlace place) e := by
  constructor
  case nodes =>
    have hall : sizeAll [Tree.element { tag with declarations := own } children] =
        sizeAll children + 1 := by rw [sizeAll, size, sizeAll]
    rw [he.descendants_root, hall, hn.descendants_eq, size, Nat.add_sub_cancel,
      ← Nat.add_zero 1, ← List.map_add_range' (a := 1), map_within, List.map_add_range',
      List.range'_succ]
    rfl
  case top => exact he.children_root
  case children => exact fun m hm hpos => (corresponds he hn hpos hm.1).2.1
  case attributes =>
    intro m hm hpos
    have hcontent := (corresponds he hn hpos hm.1).1
    rw [attributesOf, attributesOf]
    rcases tag_of_redeclares hcontent rfl with ⟨tag, own, he', hd'⟩ | ⟨he', hd'⟩
    · rw [he', hd']
      exact List.map_map
    · rw [he', hd']
      rfl
  case element =>
    exact fun m hm hpos => isElement_of_redeclares (corresponds he hn hpos hm.1).1 rfl
  case character => exact fun m hm hpos => isText_of_redeclares (corresponds he hn hpos hm.1).1
  case name => exact fun m hm hpos => nameOf_of_redeclares (corresponds he hn hpos hm.1).1 rfl
  case qualifier =>
    exact fun m hm hpos => qualifierOf_of_redeclares (corresponds he hn hpos hm.1).1 rfl
  case uri => exact fun m hm hpos => uriOf_of_redeclares (corresponds he hn hpos hm.1).1 rfl
  case text =>
    intro m hm hpos
    obtain ⟨hcontent, -, hdescendants, hbounds⟩ := corresponds he hn hpos hm.1
    have htexts : (e.descendants m).filterMap e.ownText =
        (d.descendants ((Node.ofPlace place).within m)).filterMap d.ownText := by
      rw [← hdescendants, List.filterMap_map]
      exact List.filterMap_congr fun k hk =>
        ownText_of_redeclares (corresponds he hn (hbounds k hk).1 (hbounds k hk).2).1
    rw [Document.text, Document.text, attribute?_of_redeclares hcontent rfl,
      ownText_of_redeclares hcontent, htexts]
  case namespaces =>
    intro m hm hpos qualifier
    have hplace : m.place = 1 + (m.place - 1) := by omega
    have hlt := hm.1
    rw [size_excerpt he] at hlt
    show lookup (e.reachingDeclarations (Node.ofPlace m.place)) qualifier =
      lookup (d.reachingDeclarations (Node.ofPlace (place + (m.place - 1)))) qualifier
    rw [hplace, Nat.add_sub_cancel_left]
    exact lookup_both hd he hn hlookup (by omega) qualifier

end Excerpt

end Document

end SoapKit.Xml
