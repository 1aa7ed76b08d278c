import SoapKit.Proofs.Xml.Traversal
import Mathlib.Logic.Relation

/-!
# Document order

In a document that shows a forest, parents and children are inverse to each other
(`Shows.isChild_iff`), and the places below a node are exactly the ones that follow it within the
size of its tree (`Holds.below_iff`). So a walk over what is below a node lists consecutive places
(`Shows.exists_descendants`, `Holds.descendants_eq`, `Shows.descendants_root`).
-/

namespace SoapKit.Xml.Document

open SoapKit.Xml.Tree

/-- A place of the table whose parent is `parent`. -/
def IsChild (d : Document) (parent place : Nat) : Prop :=
  place < d.entries.size ∧ (d.entry place).parent = some parent

/-- A place of the table reached from `ancestor` by going to a child once or more often. -/
def IsBelow (d : Document) : Nat → Nat → Prop :=
  Relation.TransGen d.IsChild

variable {d : Document} {forest : List Tree}

theorem Holds.isChild {parent place : Nat} {t : Tree} (h : d.Holds parent place t) :
    d.IsChild parent place := by
  have := h.size_le
  have := t.size_pos
  exact ⟨by omega, h.parent⟩

/-! ## Finding the tree at a place -/

theorem HoldsAll.of_mem_places {parent place m : Nat} {forest : List Tree}
    (h : d.HoldsAll parent place forest) (hm : m ∈ places place forest) :
    ∃ t ∈ forest, d.Holds parent m t ∧ m + t.size ≤ place + sizeAll forest := by
  induction forest generalizing place with
  | nil => cases hm
  | cons t rest ih =>
    rcases List.mem_cons.1 hm with rfl | hm
    · exact ⟨t, List.mem_cons_self, h.head, by rw [sizeAll]; omega⟩
    · obtain ⟨t', hmem, ht', hle⟩ := ih h.tail hm
      exact ⟨t', List.mem_cons_of_mem t hmem, ht', by rw [sizeAll]; omega⟩

mutual

/-- Every place inside of a tree holds a tree, either the whole one or a child's inside of it. -/
theorem Holds.locate {parent place m : Nat} : ∀ {t : Tree}, d.Holds parent place t →
    place ≤ m → m < place + t.size → ∃ q t', d.Holds q m t' ∧ m + t'.size ≤ place + t.size ∧
      (q = parent ∧ m = place ∨ place ≤ q ∧ m ∈ (d.entry q).children)
  | .text data, h, hle, hlt => by
    have hm : m = place := by rw [size] at hlt; omega
    subst hm
    exact ⟨parent, _, h, Nat.le_refl _, .inl ⟨rfl, rfl⟩⟩
  | .element tag children, h, hle, hlt => by
    by_cases hm : m = place
    · subst hm
      exact ⟨parent, _, h, Nat.le_refl _, .inl ⟨rfl, rfl⟩⟩
    · rw [size] at hlt ⊢
      obtain ⟨q, t', ht', hsize, hq⟩ :=
        HoldsAll.locate h.children (m := m) (by omega) (by omega)
      refine ⟨q, t', ht', by omega, .inr ?_⟩
      rcases hq with ⟨rfl, hmem⟩ | ⟨hq, hmem⟩
      · exact ⟨Nat.le_refl _, by rw [h.entry_element]; exact hmem⟩
      · exact ⟨by omega, hmem⟩

/-- Every place inside of a forest holds a tree, one of the forest's own or a child's inside. -/
theorem HoldsAll.locate {parent place m : Nat} : ∀ {forest : List Tree},
    d.HoldsAll parent place forest → place ≤ m → m < place + sizeAll forest →
      ∃ q t', d.Holds q m t' ∧ m + t'.size ≤ place + sizeAll forest ∧
        (q = parent ∧ m ∈ places place forest ∨ place ≤ q ∧ m ∈ (d.entry q).children)
  | [], _, hle, hlt => by
    rw [sizeAll] at hlt
    omega
  | t :: rest, h, hle, hlt => by
    rw [sizeAll] at hlt ⊢
    by_cases hm : m < place + t.size
    · obtain ⟨q, t', ht', hsize, hq⟩ := h.head.locate hle hm
      refine ⟨q, t', ht', by omega, ?_⟩
      rcases hq with ⟨rfl, rfl⟩ | hq
      · exact .inl ⟨rfl, List.mem_cons_self⟩
      · exact .inr hq
    · obtain ⟨q, t', ht', hsize, hq⟩ := HoldsAll.locate h.tail (m := m) (by omega) (by omega)
      refine ⟨q, t', ht', by omega, ?_⟩
      rcases hq with ⟨rfl, hmem⟩ | ⟨hq, hmem⟩
      · exact .inl ⟨rfl, List.mem_cons_of_mem _ hmem⟩
      · exact .inr ⟨by omega, hmem⟩

end

/-- Every place but the document's holds a tree and is listed among its parent's children. -/
theorem Shows.locate (h : d.Shows forest) {m : Nat} (hpos : 0 < m) (hlt : m < d.entries.size) :
    ∃ q t, d.Holds q m t ∧ m ∈ (d.entry q).children := by
  rw [h.size_eq] at hlt
  obtain ⟨q, t, ht, -, hq⟩ := h.holdsAll.locate (m := m) (by omega) (by omega)
  rcases hq with ⟨rfl, hmem⟩ | ⟨-, hmem⟩
  · exact ⟨0, t, ht, by rw [h.entry_zero]; exact hmem⟩
  · exact ⟨q, t, ht, hmem⟩

theorem Holds.mem_children {parent place m : Nat} {t : Tree} (h : d.Holds parent place t)
    (hm : m ∈ (d.entry place).children) :
    ∃ t', d.Holds place m t' ∧ place < m ∧ m + t'.size ≤ place + t.size := by
  cases t with
  | text data =>
    rw [h.entry_text] at hm
    cases hm
  | element tag children =>
    rw [h.entry_element] at hm
    obtain ⟨t', -, ht', hle⟩ := h.children.of_mem_places hm
    have := (mem_places hm).1
    exact ⟨t', ht', by omega, by rw [size]; omega⟩

theorem entry_of_size_le {place : Nat} (h : d.entries.size ≤ place) :
    d.entry place = ⟨none, [], .document⟩ := by
  rw [entry, Array.getElem?_eq_none h]
  rfl

/-- Links to parents and lists of children say the same. -/
theorem Shows.isChild_iff (h : d.Shows forest) {parent place : Nat} :
    d.IsChild parent place ↔ place ∈ (d.entry parent).children := by
  constructor
  · rintro ⟨hlt, hparent⟩
    have hpos : 0 < place := by
      refine Nat.pos_of_ne_zero fun h0 => ?_
      rw [h0, h.entry_zero] at hparent
      cases hparent
    obtain ⟨q, t, ht, hmem⟩ := h.locate hpos hlt
    rw [ht.parent] at hparent
    cases hparent
    exact hmem
  · intro hmem
    rcases Nat.eq_zero_or_pos parent with rfl | hpos
    · rw [h.entry_zero] at hmem
      obtain ⟨t, -, ht, -⟩ := h.holdsAll.of_mem_places hmem
      exact ht.isChild
    · by_cases hlt : parent < d.entries.size
      · obtain ⟨q, t, ht, -⟩ := h.locate hpos hlt
        obtain ⟨t', ht', -, -⟩ := ht.mem_children hmem
        exact ht'.isChild
      · rw [entry_of_size_le (Nat.le_of_not_lt hlt)] at hmem
        cases hmem

theorem Shows.pairwise_children (h : d.Shows forest) (place : Nat) :
    (d.entry place).children.Pairwise (· < ·) := by
  rcases Nat.eq_zero_or_pos place with rfl | hpos
  · rw [h.entry_zero]
    exact pairwise_places 1 forest
  · by_cases hlt : place < d.entries.size
    · obtain ⟨q, t, ht, -⟩ := h.locate hpos hlt
      cases t with
      | text data =>
        rw [ht.entry_text]
        exact List.Pairwise.nil
      | element tag children =>
        rw [ht.entry_element]
        exact pairwise_places _ _
    · rw [entry_of_size_le (Nat.le_of_not_lt hlt)]
      exact List.Pairwise.nil

/-! ## What is below a node -/

mutual

theorem Holds.isBelow_of_lt {parent place m : Nat} : ∀ {t : Tree}, d.Holds parent place t →
    place < m → m < place + t.size → d.IsBelow place m
  | .text data, _, hlt, hle => by
    rw [size] at hle
    omega
  | .element tag children, h, hlt, hle => by
    rw [size] at hle
    exact HoldsAll.isBelow h.children (by omega) (by omega)

theorem HoldsAll.isBelow {parent place m : Nat} : ∀ {forest : List Tree},
    d.HoldsAll parent place forest → place ≤ m → m < place + sizeAll forest → d.IsBelow parent m
  | [], _, hle, hlt => by
    rw [sizeAll] at hlt
    omega
  | t :: rest, h, hle, hlt => by
    rw [sizeAll] at hlt
    by_cases hm : m < place + t.size
    · have hchild := h.head.isChild
      rcases Nat.eq_or_lt_of_le hle with rfl | hlt'
      · exact .single hchild
      · exact .head hchild (h.head.isBelow_of_lt hlt' hm)
    · exact HoldsAll.isBelow h.tail (by omega) (by omega)

end

/-- Going to children stays inside of a tree: every place on the way holds a tree inside of it. -/
theorem Holds.lt_of_isBelow (hd : d.Shows forest) {parent place m : Nat} {t : Tree}
    (h : d.Holds parent place t) (hm : d.IsBelow place m) : place < m ∧ m < place + t.size := by
  induction hm with
  | single hchild =>
    obtain ⟨t', -, hlt, hle⟩ := h.mem_children (hd.isChild_iff.1 hchild)
    have := t'.size_pos
    exact ⟨hlt, by omega⟩
  | @tail c m _ hchild ih =>
    obtain ⟨q, tc, htc, hle, -⟩ := h.locate (m := c) (by omega) ih.2
    obtain ⟨t', -, hlt', hle'⟩ := htc.mem_children (hd.isChild_iff.1 hchild)
    have := t'.size_pos
    exact ⟨by omega, by omega⟩

/-- The places below a node are those that follow it within the size of its tree. -/
theorem Holds.below_iff (hd : d.Shows forest) {parent place m : Nat} {t : Tree}
    (h : d.Holds parent place t) : d.IsBelow place m ↔ place < m ∧ m < place + t.size :=
  ⟨h.lt_of_isBelow hd, fun hm => h.isBelow_of_lt hm.1 hm.2⟩

/-- Everything but the document is below it. -/
theorem Shows.below_zero_iff (h : d.Shows forest) {m : Nat} :
    d.IsBelow 0 m ↔ 0 < m ∧ m < d.entries.size := by
  constructor
  · intro hm
    obtain ⟨c, -, hchild⟩ : ∃ c, (c = 0 ∨ d.IsBelow 0 c) ∧ d.IsChild c m := by
      cases hm with
      | single hchild => exact ⟨0, .inl rfl, hchild⟩
      | @tail c _ hc hchild => exact ⟨c, .inr hc, hchild⟩
    refine ⟨Nat.pos_of_ne_zero fun h0 => ?_, hchild.1⟩
    have hparent := hchild.2
    rw [h0, h.entry_zero] at hparent
    cases hparent
  · rintro ⟨hpos, hlt⟩
    rw [h.size_eq] at hlt
    exact h.holdsAll.isBelow (by omega) (by omega)

/-! ## Walks -/

/-- The children of every node are a forest in the table. -/
theorem Shows.exists_children (h : d.Shows forest) (n : Node) :
    ∃ place inside, d.HoldsAll n.place place inside ∧ sizeAll inside < d.entries.size ∧
      d.children n = (places place inside).map Node.ofPlace := by
  have hsize := h.size_eq
  have hleaf : d.children n = [] → ∃ place inside, d.HoldsAll n.place place inside ∧
      sizeAll inside < d.entries.size ∧ d.children n = (places place inside).map Node.ofPlace :=
    fun hnone => ⟨0, [], List.nil_prefix, by rw [hsize]; exact Nat.succ_pos _, hnone⟩
  obtain ⟨place, attr⟩ := n
  cases attr with
  | some index => exact hleaf rfl
  | none =>
    rcases Nat.eq_zero_or_pos place with rfl | hpos
    · exact ⟨1, forest, h.holdsAll, by rw [hsize]; exact Nat.lt_succ_self _, h.children_root⟩
    · by_cases hlt : place < d.entries.size
      · obtain ⟨parent, t, ht, -⟩ := h.locate hpos hlt
        have hbound := ht.size_le
        cases t with
        | text data => exact hleaf ht.children_eq_nil
        | element tag children =>
          rw [size] at hbound
          exact ⟨place + 1, children, ht.children, by omega, ht.children_eq⟩
      · refine hleaf ?_
        show (d.entry place).children.map Node.ofPlace = []
        rw [entry_of_size_le (Nat.le_of_not_lt hlt)]
        rfl

/-- The descendants of every node are the places of these trees, one after the other. -/
theorem Shows.exists_descendants (h : d.Shows forest) (n : Node) :
    ∃ place inside, d.HoldsAll n.place place inside ∧ sizeAll inside < d.entries.size ∧
      d.children n = (places place inside).map Node.ofPlace ∧
      d.descendants n = (List.range' place (sizeAll inside)).map Node.ofPlace := by
  obtain ⟨place, inside, hinside, hsize, hchildren⟩ := h.exists_children n
  have hlisting := hinside.traversal
  rw [← hchildren] at hlisting
  refine ⟨place, inside, hinside, hsize, hchildren, descendants_eq_of_traversal hlisting ?_⟩
  simpa using Nat.le_of_lt hsize

theorem Shows.traversal_descendants (h : d.Shows forest) (n : Node) :
    Traversal d.children (d.children n) (d.descendants n) := by
  obtain ⟨place, inside, hinside, -, hchildren, hdescendants⟩ := h.exists_descendants n
  rw [hchildren, hdescendants]
  exact hinside.traversal

theorem Holds.descendants_eq {parent place : Nat} {t : Tree} (h : d.Holds parent place t) :
    d.descendants (Node.ofPlace place) =
      (List.range' (place + 1) (t.size - 1)).map Node.ofPlace := by
  have hsize := h.size_le
  refine descendants_eq_of_traversal h.traversal ?_
  rw [List.length_map, List.length_range']
  omega

theorem Shows.descendants_root (h : d.Shows forest) :
    d.descendants root = (List.range' 1 (sizeAll forest)).map Node.ofPlace := by
  have hlisting := h.holdsAll.traversal
  rw [← h.children_root] at hlisting
  refine descendants_eq_of_traversal hlisting ?_
  rw [List.length_map, List.length_range', h.size_eq]
  exact Nat.le_succ _

end SoapKit.Xml.Document
