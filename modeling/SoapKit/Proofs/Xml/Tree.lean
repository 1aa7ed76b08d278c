import SoapKit.Xml.Document

/-!
# Documents as trees

A document's table is read here as the listing of a tree: every node stands directly before what is
below it, and siblings follow each other. `Shows d forest` says that a table lists a forest below
the document node.

Whatever stands in the table of such a document is some tree of the forest, at its place and with
its own entries (`Holds`). All facts about children, parents and descendants are read off from
there, by induction on trees and forests together.
-/

namespace SoapKit.Xml

/-- A run of character data, or an element with the trees below it. -/
inductive Tree where
  | text (data : String)
  | element (tag : Tag) (children : List Tree)

namespace Tree

/-- Whether a tree is a run of character data. -/
def isText : Tree → Bool
  | text _ => true
  | element _ _ => false

/-! ## Sizes, places and entries -/

mutual

/-- The number of nodes of a tree. -/
def size : Tree → Nat
  | text _ => 1
  | element _ children => sizeAll children + 1

/-- The number of nodes of a forest. -/
def sizeAll : List Tree → Nat
  | [] => 0
  | t :: rest => t.size + sizeAll rest

end

/-- The places of trees that follow each other, the first one at `place`. -/
def places (place : Nat) : List Tree → List Nat
  | [] => []
  | t :: rest => place :: places (place + t.size) rest

mutual

/-- The entries of a tree at `place` below `parent`. -/
def entries (parent place : Nat) : Tree → List Entry
  | text data => [⟨some parent, [], .text data⟩]
  | element tag children =>
    ⟨some parent, places (place + 1) children, .element tag⟩ ::
      entriesAll place (place + 1) children

/-- The entries of trees that follow each other below `parent`, the first one at `place`. -/
def entriesAll (parent place : Nat) : List Tree → List Entry
  | [] => []
  | t :: rest => t.entries parent place ++ entriesAll parent (place + t.size) rest

end

/-- The table of a document with the given trees at its top. -/
def table (forest : List Tree) : List Entry :=
  ⟨none, places 1 forest, .document⟩ :: entriesAll 0 1 forest

theorem size_pos (t : Tree) : 0 < t.size := by
  cases t <;> simp [size]

theorem places_append (place : Nat) (xs ys : List Tree) :
    places place (xs ++ ys) = places place xs ++ places (place + sizeAll xs) ys := by
  induction xs generalizing place with
  | nil => rfl
  | cons x xs ih =>
    simp only [List.cons_append, places, sizeAll, ih]
    rw [Nat.add_assoc]

theorem entriesAll_append (parent place : Nat) (xs ys : List Tree) :
    entriesAll parent place (xs ++ ys) =
      entriesAll parent place xs ++ entriesAll parent (place + sizeAll xs) ys := by
  induction xs generalizing place with
  | nil => rfl
  | cons x xs ih =>
    simp only [List.cons_append, entriesAll, sizeAll, ih, List.append_assoc]
    rw [Nat.add_assoc]

mutual

theorem length_entries (parent place : Nat) : ∀ t : Tree, (t.entries parent place).length = t.size
  | text _ => rfl
  | element _ children => by
    simp only [entries, size, List.length_cons, length_entriesAll place (place + 1) children]

theorem length_entriesAll (parent place : Nat) :
    ∀ forest : List Tree, (entriesAll parent place forest).length = sizeAll forest
  | [] => rfl
  | t :: rest => by
    simp only [entriesAll, sizeAll, List.length_append, length_entries parent place t,
      length_entriesAll parent (place + t.size) rest]

end

theorem mem_places {place p : Nat} {forest : List Tree} (h : p ∈ places place forest) :
    place ≤ p ∧ p < place + sizeAll forest := by
  induction forest generalizing place with
  | nil => cases h
  | cons t rest ih =>
    have ht := t.size_pos
    rw [sizeAll]
    rcases List.mem_cons.1 h with rfl | h
    · omega
    · have := ih h
      omega

/-- Siblings stand in increasing order. -/
theorem pairwise_places (place : Nat) (forest : List Tree) :
    (places place forest).Pairwise (· < ·) := by
  induction forest generalizing place with
  | nil => exact List.Pairwise.nil
  | cons t rest ih =>
    refine List.pairwise_cons.2 ⟨fun p hp => ?_, ih _⟩
    have := (mem_places hp).1
    have := t.size_pos
    omega

end Tree

namespace Document

open SoapKit.Xml.Tree

/-! ## The trees of a table -/

/-- The document's table lists a forest. -/
def Shows (d : Document) (forest : List Tree) : Prop :=
  d.entries.toList = table forest

/-- The entries from `place` on begin with those of a tree below `parent`. -/
def Holds (d : Document) (parent place : Nat) (t : Tree) : Prop :=
  t.entries parent place <+: d.entries.toList.drop place

/-- The entries from `place` on begin with those of a forest below `parent`. -/
def HoldsAll (d : Document) (parent place : Nat) (forest : List Tree) : Prop :=
  entriesAll parent place forest <+: d.entries.toList.drop place

variable {d : Document}

theorem entry_eq_of_prefix {place : Nat} {e : Entry} {rest : List Entry}
    (h : e :: rest <+: d.entries.toList.drop place) : d.entry place = e := by
  obtain ⟨more, h⟩ := h
  have hget : d.entries.toList[place]? = some e := by
    rw [← Nat.add_zero place, ← List.getElem?_drop, ← h]
    rfl
  rw [Array.getElem?_toList] at hget
  rw [entry, hget]
  rfl

theorem prefix_drop_of_append (xs : List Entry) {es ys : List Entry} {place : Nat}
    (h : xs ++ ys <+: es.drop place) : ys <+: es.drop (place + xs.length) := by
  obtain ⟨more, h⟩ := h
  refine ⟨more, ?_⟩
  rw [← List.drop_drop, ← h, List.append_assoc, List.drop_left]

theorem HoldsAll.head {parent place : Nat} {t : Tree} {rest : List Tree}
    (h : d.HoldsAll parent place (t :: rest)) : d.Holds parent place t :=
  (List.prefix_append _ _).trans h

theorem HoldsAll.tail {parent place : Nat} {t : Tree} {rest : List Tree}
    (h : d.HoldsAll parent place (t :: rest)) : d.HoldsAll parent (place + t.size) rest := by
  have := prefix_drop_of_append _ h
  rwa [length_entries] at this

theorem Holds.entry_element {parent place : Nat} {tag : Tag} {children : List Tree}
    (h : d.Holds parent place (.element tag children)) :
    d.entry place = ⟨some parent, places (place + 1) children, .element tag⟩ :=
  entry_eq_of_prefix h

theorem Holds.entry_text {parent place : Nat} {data : String}
    (h : d.Holds parent place (.text data)) : d.entry place = ⟨some parent, [], .text data⟩ :=
  entry_eq_of_prefix h

theorem Holds.children {parent place : Nat} {tag : Tag} {children : List Tree}
    (h : d.Holds parent place (.element tag children)) :
    d.HoldsAll place (place + 1) children :=
  prefix_drop_of_append [_] h

theorem Holds.children_eq {parent place : Nat} {tag : Tag} {children : List Tree}
    (h : d.Holds parent place (.element tag children)) :
    d.children (Node.ofPlace place) = (places (place + 1) children).map Node.ofPlace := by
  show (d.entry place).children.map Node.ofPlace = _
  rw [h.entry_element]

theorem Holds.children_eq_nil {parent place : Nat} {data : String}
    (h : d.Holds parent place (.text data)) : d.children (Node.ofPlace place) = [] := by
  show (d.entry place).children.map Node.ofPlace = []
  rw [h.entry_text]
  rfl

theorem Holds.parent {parent place : Nat} {t : Tree} (h : d.Holds parent place t) :
    (d.entry place).parent = some parent := by
  cases t with
  | text data => rw [h.entry_text]
  | element tag children => rw [h.entry_element]

theorem Holds.size_le {parent place : Nat} {t : Tree} (h : d.Holds parent place t) :
    place + t.size ≤ d.entries.size := by
  have hl := h.length_le
  have := t.size_pos
  rw [length_entries, List.length_drop, Array.length_toList] at hl
  omega

theorem HoldsAll.size_le {parent place : Nat} {forest : List Tree}
    (h : d.HoldsAll parent place forest) (hp : place ≤ d.entries.size) :
    place + sizeAll forest ≤ d.entries.size := by
  have hl := h.length_le
  rw [length_entriesAll, List.length_drop, Array.length_toList] at hl
  omega

variable {forest : List Tree}

theorem Shows.entry_zero (h : d.Shows forest) : d.entry 0 = ⟨none, places 1 forest, .document⟩ :=
  entry_eq_of_prefix (show _ :: entriesAll 0 1 forest <+: _ from
    ⟨[], by rw [List.append_nil]; exact h.symm⟩)

theorem Shows.children_root (h : d.Shows forest) :
    d.children Document.root = (places 1 forest).map Node.ofPlace := by
  show (d.entry 0).children.map Node.ofPlace = _
  rw [h.entry_zero]

theorem Shows.holdsAll (h : d.Shows forest) : d.HoldsAll 0 1 forest := by
  refine ⟨[], ?_⟩
  rw [List.append_nil, show d.entries.toList = _ from h]
  rfl

theorem Shows.size_eq (h : d.Shows forest) : d.entries.size = sizeAll forest + 1 := by
  have := congrArg List.length h
  rwa [Array.length_toList, table, List.length_cons, length_entriesAll] at this

end Document

end SoapKit.Xml
