import SoapKit.Proofs.Xml.Order
import Mathlib.Data.Prod.Lex

/-!
# Nodes and document order

The nodes of a document are the entries of its table and the attributes of its elements. How they
are related is said by the links to parents alone: a child is a node of the table whose parent is
given, and a descendant is reached by going to children.

`Precedes` is document order as a matter of the tree: an element stands before its attributes, these
stand before its children, attributes and children stand as they are listed, and what is inside of a
sibling stands before the next ones. In a document that shows a forest this is the order of places
and positions (`Shows.precedes_iff`), and that in which descendants are listed
(`Shows.precedes_descendants`).
-/

namespace SoapKit.Xml

/-- The order of places, and of positions among the attributes at one place. -/
def Node.IsBefore (n m : Node) : Prop :=
  toLex n.order < toLex m.order

theorem Node.order_injective : Function.Injective Node.order := by
  rintro ⟨p, a⟩ ⟨q, b⟩ h
  cases a <;> cases b <;> simp_all [Node.order]

namespace Node

theorem isBefore_iff {n m : Node} :
    n.IsBefore m ↔ n.place < m.place ∨ n.place = m.place ∧ n.order.2 < m.order.2 :=
  Prod.Lex.toLex_lt_toLex

theorem IsBefore.trans {n m k : Node} (h : n.IsBefore m) (h' : m.IsBefore k) : n.IsBefore k :=
  lt_trans h h'

theorem not_isBefore_self (n : Node) : ¬ n.IsBefore n :=
  lt_irrefl _

end Node

namespace Document

open SoapKit.Xml.Tree

/-! ## Relations between nodes -/

/-- A place of the table, or an attribute that the element there has. -/
def HasNode (d : Document) (n : Node) : Prop :=
  n.place < d.entries.size ∧ (n.attr.isSome → (d.attribute? n).isSome)

/-- A node and one of its attributes. -/
def HasAttribute (d : Document) (n m : Node) : Prop :=
  n.attr = none ∧ m.place = n.place ∧ (d.attribute? m).isSome

/-- A node and one of its children. -/
def HasChild (d : Document) (n m : Node) : Prop :=
  n.attr = none ∧ m.attr = none ∧ d.IsChild n.place m.place

/-- A node and a node reached from it by going to a child once or more often. -/
def HasDescendant (d : Document) : Node → Node → Prop :=
  Relation.TransGen d.HasChild

/-- A node, its descendants, and the attributes of all these. -/
def Contains (d : Document) (n m : Node) : Prop :=
  ∃ k, (k = n ∨ d.HasDescendant n k) ∧ (m = k ∨ d.HasAttribute k m)

/-- Document order. -/
inductive Precedes (d : Document) : Node → Node → Prop where
  | toAttribute {n m : Node} : d.HasAttribute n m → Precedes d n m
  | attributes {n : Node} {place i j : Nat} : d.HasAttribute n ⟨place, some i⟩ →
      d.HasAttribute n ⟨place, some j⟩ → i < j → Precedes d ⟨place, some i⟩ ⟨place, some j⟩
  | toChild {n m : Node} : d.HasChild n m → Precedes d n m
  | pastAttribute {n a m : Node} : d.HasAttribute n a → d.HasChild n m → Precedes d a m
  | sibling {n m k inside : Node} : [m, k].Sublist (d.children n) → d.Contains m inside →
      Precedes d inside k
  | trans {n m k : Node} : Precedes d n m → Precedes d m k → Precedes d n k

variable {d : Document} {forest : List Tree}

theorem attribute?_place {m : Node} (h : (d.attribute? m).isSome) :
    m.place < d.entries.size ∧ ∃ index, m.attr = some index := by
  obtain ⟨place, attr⟩ := m
  obtain ⟨found, h⟩ := Option.isSome_iff_exists.1 h
  obtain ⟨tag, htag, h⟩ := Option.bind_eq_some_iff.1 h
  obtain ⟨index, hindex, -⟩ := Option.bind_eq_some_iff.1 h
  refine ⟨Nat.lt_of_not_le fun hle => ?_, index, hindex⟩
  rw [tagAt, entry_of_size_le hle] at htag
  cases htag

theorem HasAttribute.hasNode {n m : Node} (h : d.HasAttribute n m) : d.HasNode m :=
  ⟨(attribute?_place h.2.2).1, fun _ => h.2.2⟩

theorem HasChild.hasNode {n m : Node} (h : d.HasChild n m) : d.HasNode m :=
  ⟨h.2.2.1, fun hattr => by rw [h.2.1] at hattr; cases hattr⟩

theorem hasDescendant_iff {n m : Node} :
    d.HasDescendant n m ↔ n.attr = none ∧ m.attr = none ∧ d.IsBelow n.place m.place := by
  constructor
  · intro h
    induction h with
    | single h => exact ⟨h.1, h.2.1, .single h.2.2⟩
    | tail _ h ih => exact ⟨ih.1, h.2.1, .tail ih.2.2 h.2.2⟩
  · obtain ⟨place, attr⟩ := m
    rintro ⟨hn, hm, h⟩
    simp only at hm h
    subst hm
    induction h with
    | single h => exact .single ⟨hn, rfl, h⟩
    | tail _ h ih => exact .tail ih ⟨rfl, rfl, h⟩

theorem HasDescendant.hasNode {n m : Node} (h : d.HasDescendant n m) : d.HasNode m := by
  cases h with
  | single h => exact h.hasNode
  | tail _ h => exact h.hasNode

theorem Shows.hasNode_root (hd : d.Shows forest) : d.HasNode root :=
  ⟨by rw [hd.size_eq]; exact Nat.succ_pos _, fun h => by cases h⟩

/-! ## Places decide the order -/

theorem Shows.lt_of_isChild (hd : d.Shows forest) {p q : Nat} (h : d.IsChild p q) : p < q := by
  have hmem := hd.isChild_iff.1 h
  rcases Nat.eq_zero_or_pos p with rfl | hpos
  · rw [hd.entry_zero] at hmem
    exact (mem_places hmem).1
  · by_cases hlt : p < d.entries.size
    · obtain ⟨parent, t, ht, -⟩ := hd.locate hpos hlt
      exact (ht.mem_children hmem).choose_spec.2.1
    · rw [entry_of_size_le (Nat.le_of_not_lt hlt)] at hmem
      cases hmem

theorem Shows.lt_of_isBelow (hd : d.Shows forest) {p q : Nat} (h : d.IsBelow p q) : p < q := by
  induction h with
  | single h => exact hd.lt_of_isChild h
  | tail _ h ih => exact Nat.lt_trans ih (hd.lt_of_isChild h)

/-- The places between a node and one below it are below the node too. -/
theorem Shows.isBelow_of_between (hd : d.Shows forest) {p q m : Nat} (h : d.IsBelow p q)
    (hp : p < m) (hq : m ≤ q) : d.IsBelow p m := by
  have hlt : q < d.entries.size := by
    cases h with
    | single h => exact h.1
    | tail _ h => exact h.1
  rcases Nat.eq_zero_or_pos p with rfl | hpos
  · exact hd.below_zero_iff.2 ⟨hp, by omega⟩
  · obtain ⟨parent, t, ht, -⟩ := hd.locate hpos (by omega)
    have := (ht.below_iff hd).1 h
    exact (ht.below_iff hd).2 ⟨hp, by omega⟩

/-- A child is either a given place, or above it, or on no way to it. -/
theorem isBelow_cases {p q : Nat} (h : d.IsBelow p q) :
    ∃ c, d.IsChild p c ∧ (q = c ∨ d.IsBelow c q) := by
  obtain ⟨c, hc, hq⟩ := Relation.TransGen.head'_iff.1 h
  exact ⟨c, hc, (Relation.reflTransGen_iff_eq_or_transGen.1 hq)⟩

/-- No sibling is below another. -/
theorem Shows.not_isBelow_sibling (hd : d.Shows forest) {p c q : Nat} (hc : d.IsChild p c)
    (hq : d.IsChild p q) : ¬ d.IsBelow c q := by
  intro h
  have hpc := hd.lt_of_isChild hc
  obtain ⟨b, hb, hbq⟩ : ∃ b, (b = c ∨ d.IsBelow c b) ∧ d.IsChild b q := by
    cases h with
    | single h => exact ⟨c, .inl rfl, h⟩
    | @tail b _ hb h => exact ⟨b, .inr hb, h⟩
  have hbp : b = p := Option.some.inj (hbq.2.symm.trans hq.2)
  subst hbp
  rcases hb with rfl | hb
  · exact absurd hpc (Nat.lt_irrefl _)
  · exact absurd (hd.lt_of_isBelow hb) (Nat.lt_asymm hpc)

theorem Contains.isBelow {n m : Node} (h : d.Contains n m) :
    m.place = n.place ∨ d.IsBelow n.place m.place := by
  obtain ⟨k, hk, hm⟩ := h
  have hplace : m.place = k.place := by
    rcases hm with rfl | hm
    · rfl
    · exact hm.2.1
  rw [hplace]
  rcases hk with rfl | hk
  · exact .inl rfl
  · exact .inr (hasDescendant_iff.1 hk).2.2

/-- What stands before in document order stands before in the table. -/
theorem Shows.isBefore_of_precedes (hd : d.Shows forest) {n m : Node} (h : d.Precedes n m) :
    n.IsBefore m := by
  induction h with
  | @toAttribute n m h =>
    obtain ⟨hn, hplace, hm⟩ := h
    obtain ⟨-, index, hindex⟩ := attribute?_place hm
    exact Node.isBefore_iff.2 (.inr ⟨hplace.symm, by simp [Node.order, hn, hindex]⟩)
  | attributes _ _ h => exact Node.isBefore_iff.2 (.inr ⟨rfl, by simpa [Node.order] using h⟩)
  | toChild h => exact Node.isBefore_iff.2 (.inl (hd.lt_of_isChild h.2.2))
  | pastAttribute ha h =>
    exact Node.isBefore_iff.2 (.inl (by rw [ha.2.1]; exact hd.lt_of_isChild h.2.2))
  | @sibling n m k inside hsub hin =>
    refine Node.isBefore_iff.2 (.inl ?_)
    obtain ⟨place, attr⟩ := n
    cases attr with
    | some index => cases hsub
    | none =>
      have hplaces : [m.place, k.place].Sublist (d.entry place).children := by
        have := hsub.map Node.place
        simpa [children, Function.comp_def, Node.ofPlace] using this
      have hlt : m.place < k.place := by
        have := (hd.pairwise_children place).sublist hplaces
        simpa using this
      have hm : d.IsChild place m.place := hd.isChild_iff.2 (hplaces.subset (by simp))
      have hk : d.IsChild place k.place := hd.isChild_iff.2 (hplaces.subset (by simp))
      rcases hin.isBelow with heq | hbelow
      · rw [heq]
        exact hlt
      · refine Nat.lt_of_not_le fun hle => hd.not_isBelow_sibling hm hk ?_
        exact hd.isBelow_of_between hbelow hlt hle
  | trans _ _ ih ih' => exact ih.trans ih'

theorem precedes_of_hasDescendant {n m : Node} (h : d.HasDescendant n m) : d.Precedes n m := by
  induction h with
  | single h => exact .toChild h
  | tail _ h ih => exact .trans ih (.toChild h)

/-- A node of the table is before or the same as a node at its place. -/
theorem HasNode.ofPlace {n : Node} (hn : d.HasNode n) :
    n = Node.ofPlace n.place ∨ d.HasAttribute (Node.ofPlace n.place) n := by
  obtain ⟨place, attr⟩ := n
  cases attr with
  | none => exact .inl rfl
  | some index => exact .inr ⟨rfl, rfl, hn.2 rfl⟩

/-- A node and its attributes stand before what is below it. -/
theorem precedes_of_isBelow {n : Node} {p : Nat} (hn : d.HasNode n) (h : d.IsBelow n.place p) :
    d.Precedes n (Node.ofPlace p) := by
  obtain ⟨c, hc, hp⟩ := isBelow_cases h
  have hchild : d.HasChild (Node.ofPlace n.place) (Node.ofPlace c) := ⟨rfl, rfl, hc⟩
  have hfirst : d.Precedes n (Node.ofPlace c) := by
    rcases hn.ofPlace with heq | hattr
    · rw [heq]
      exact .toChild hchild
    · exact .pastAttribute hattr hchild
  rcases hp with rfl | hp
  · exact hfirst
  · exact hfirst.trans (precedes_of_hasDescendant (hasDescendant_iff.2 ⟨rfl, rfl, hp⟩))

theorem sublist_pair_of_lt {xs : List Nat} (h : xs.Pairwise (· < ·)) {a b : Nat} (ha : a ∈ xs)
    (hb : b ∈ xs) (hlt : a < b) : [a, b].Sublist xs := by
  induction xs with
  | nil => cases ha
  | cons x xs ih =>
    obtain ⟨hx, hxs⟩ := List.pairwise_cons.1 h
    rcases List.mem_cons.1 hb with rfl | hmem
    · rcases List.mem_cons.1 ha with rfl | ha
      · exact absurd hlt (Nat.lt_irrefl _)
      · exact absurd (hx a ha) (Nat.lt_asymm hlt)
    · rcases List.mem_cons.1 ha with rfl | ha
      · exact .cons_cons _ (List.singleton_sublist.2 hmem)
      · exact .cons _ (ih hxs ha hmem)

/-- What stands before in the table stands before in document order, by induction on the later
place: its parent is at or below the earlier place, or behind it, or above both. -/
theorem Shows.precedes_ofPlace (hd : d.Shows forest) {n : Node} (hn : d.HasNode n) {p : Nat}
    (hp : p < d.entries.size) (hlt : n.place < p) : d.Precedes n (Node.ofPlace p) := by
  induction p using Nat.strong_induction_on with
  | _ p ih =>
    obtain ⟨q, t, ht, -⟩ := hd.locate (by omega) hp
    have hchild := ht.isChild
    have hqp := hd.lt_of_isChild hchild
    rcases Nat.lt_trichotomy n.place q with hq | hq | hq
    · exact (ih q hqp (by omega) hq).trans (.toChild ⟨rfl, rfl, hchild⟩)
    · exact precedes_of_isBelow hn (hq ▸ .single hchild)
    · obtain ⟨c, hc, hnc⟩ := isBelow_cases (hd.isBelow_of_between (.single hchild) hq (by omega))
      have hcp : c < p := by
        rcases hnc with heq | hbelow
        · omega
        · have := hd.lt_of_isBelow hbelow
          omega
      have hsub := (sublist_pair_of_lt (hd.pairwise_children q) (hd.isChild_iff.1 hc)
        (hd.isChild_iff.1 hchild) hcp).map Node.ofPlace
      refine .sibling (n := Node.ofPlace q) hsub ⟨Node.ofPlace n.place, ?_, hn.ofPlace⟩
      rcases hnc with heq | hbelow
      · rw [heq]
        exact .inl rfl
      · exact .inr (hasDescendant_iff.2 ⟨rfl, rfl, hbelow⟩)

/-- Document order is the order of places and of positions among attributes. -/
theorem Shows.precedes_iff (hd : d.Shows forest) {n m : Node} (hn : d.HasNode n)
    (hm : d.HasNode m) : d.Precedes n m ↔ n.IsBefore m := by
  refine ⟨hd.isBefore_of_precedes, fun h => ?_⟩
  rcases Node.isBefore_iff.1 h with hlt | ⟨hplace, hlt⟩
  · have hfirst := hd.precedes_ofPlace hn hm.1 hlt
    rcases hm.ofPlace with heq | hattr
    · rw [heq]
      exact hfirst
    · exact hfirst.trans (.toAttribute hattr)
  · obtain ⟨p, a⟩ := n
    obtain ⟨q, b⟩ := m
    simp only at hplace
    subst hplace
    cases b with
    | none => cases a <;> cases hlt
    | some j =>
      have hj : d.HasAttribute (Node.ofPlace p) ⟨p, some j⟩ := ⟨rfl, rfl, hm.2 rfl⟩
      cases a with
      | none => exact .toAttribute hj
      | some i =>
        have hi : d.HasAttribute (Node.ofPlace p) ⟨p, some i⟩ := ⟨rfl, rfl, hn.2 rfl⟩
        exact .attributes hi hj (by simpa [Node.order] using hlt)

/-! ## Lists of nodes -/

theorem Shows.mem_children_iff (hd : d.Shows forest) {n m : Node} :
    m ∈ d.children n ↔ d.HasChild n m := by
  obtain ⟨place, attr⟩ := n
  obtain ⟨p, a⟩ := m
  cases attr with
  | some index => simp [children, HasChild]
  | none =>
    simp only [children, List.mem_map, HasChild, hd.isChild_iff, true_and]
    constructor
    · rintro ⟨q, hq, heq⟩
      cases heq
      exact ⟨rfl, hq⟩
    · rintro ⟨rfl, hp⟩
      exact ⟨p, hp, rfl⟩

theorem Shows.mem_descendants_iff (hd : d.Shows forest) {n m : Node} :
    m ∈ d.descendants n ↔ d.HasDescendant n m := by
  rw [(hd.traversal_descendants n).mem_iff]
  simp only [hd.mem_children_iff]
  exact Relation.TransGen.head'_iff.symm

theorem Shows.increasing_descendants (hd : d.Shows forest) (n : Node) :
    (d.descendants n).Pairwise fun m k => m.place < k.place := by
  obtain ⟨place, inside, -, -, -, hdescendants⟩ := hd.exists_descendants n
  rw [hdescendants, List.pairwise_map]
  exact List.pairwise_lt_range' 1

/-- The descendants of a node are listed in document order. -/
theorem Shows.precedes_descendants (hd : d.Shows forest) (n : Node) :
    (d.descendants n).Pairwise d.Precedes := by
  refine (hd.increasing_descendants n).imp_of_mem fun {m k} hm hk hlt => ?_
  have hnode := (hd.mem_descendants_iff.1 hm).hasNode
  exact (hd.precedes_iff hnode (hd.mem_descendants_iff.1 hk).hasNode).2
    (Node.isBefore_iff.2 (.inl hlt))

end Document

end SoapKit.Xml
