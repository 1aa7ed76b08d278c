import SoapKit.Proofs.Xml.Path.Compile
import SoapKit.Proofs.Xml.Path.Denotation
import SoapKit.Proofs.Xml.Production

/-!
# What location paths select

The selection of an expression is what it denotes, listed in document order and without repeats
(`Expression.select_eq_denotation`).

`Lists` says that a list has the nodes of a set in document order. Every axis lists the nodes that
it leads to, a test and a predicate keep this up, and so does a step. Between two steps only the
nodes themselves count, since each context node is gone from by itself; so a path needs no more than
that sorting and dropping repeats leave the same nodes.
-/

namespace SoapKit.Xml

open SoapKit.Xml.Tree

variable {d : Document} {forest : List Tree}

/-- A list has the nodes of a set in document order. -/
structure Document.Lists (d : Document) (nodes : Set Node) (xs : List Node) : Prop where
  ordered : xs.Pairwise Node.IsBefore
  mem : ∀ n, n ∈ xs ↔ n ∈ nodes
  valid : ∀ n ∈ xs, d.HasNode n

namespace Document

/-! ## Neighbours in lists -/

theorem Shows.lists_children (hd : d.Shows forest) (n : Node) :
    d.Lists {m | d.HasChild n m} (d.children n) where
  ordered := by
    obtain ⟨place, attr⟩ := n
    cases attr with
    | some index => exact List.Pairwise.nil
    | none =>
      exact (hd.pairwise_children place).map _ fun _ _ hlt => Node.isBefore_iff.2 (.inl hlt)
  mem := fun _ => hd.mem_children_iff
  valid := fun _ hm => (hd.mem_children_iff.1 hm).hasNode

theorem Shows.lists_descendants (hd : d.Shows forest) (n : Node) :
    d.Lists {m | d.HasDescendant n m} (d.descendants n) where
  ordered := (hd.increasing_descendants n).imp fun hlt => Node.isBefore_iff.2 (.inl hlt)
  mem := fun _ => hd.mem_descendants_iff
  valid := fun _ hm => (hd.mem_descendants_iff.1 hm).hasNode

theorem attribute?_isSome_iff {p : Nat} {attr : Option Nat} :
    (d.attribute? ⟨p, attr⟩).isSome ↔
      ∃ tag, d.tagAt p = some tag ∧ ∃ index < tag.attributes.length, attr = some index := by
  rw [Option.isSome_iff_exists]
  constructor
  · rintro ⟨found, h⟩
    obtain ⟨tag, htag, h⟩ := Option.bind_eq_some_iff.1 h
    obtain ⟨index, hindex, h⟩ := Option.bind_eq_some_iff.1 h
    exact ⟨tag, htag, index, (List.getElem?_eq_some_iff.1 h).1, hindex⟩
  · rintro ⟨tag, htag, index, hlt, rfl⟩
    exact ⟨tag.attributes[index], by simp [attribute?, htag, hlt]⟩

theorem lists_attributes (n : Node) : d.Lists {m | d.HasAttribute n m} (d.attributesOf n) := by
  obtain ⟨place, attr⟩ := n
  have hmem : ∀ m, m ∈ d.attributesOf ⟨place, attr⟩ ↔ d.HasAttribute ⟨place, attr⟩ m := by
    rintro ⟨p, a⟩
    cases attr with
    | some index => simp [attributesOf, tag, HasAttribute]
    | none =>
      rw [HasAttribute, attribute?_isSome_iff]
      constructor
      · intro hm
        simp only [attributesOf, tag] at hm
        split at hm
        · rename_i tag htag
          obtain ⟨index, hindex, heq⟩ := List.mem_map.1 hm
          cases heq
          exact ⟨rfl, rfl, tag, htag, index, List.mem_range.1 hindex, rfl⟩
        · cases hm
      · rintro ⟨-, rfl, tag, htag, index, hindex, rfl⟩
        simp only [attributesOf, Document.tag, htag]
        exact List.mem_map.2 ⟨index, List.mem_range.2 hindex, rfl⟩
  refine ⟨?_, hmem, fun m hm => ((hmem m).1 hm).hasNode⟩
  rw [attributesOf]
  split
  · rename_i tag _
    refine (List.pairwise_lt_range (n := tag.attributes.length)).map _ fun i j hlt => ?_
    exact Node.isBefore_iff.2 (.inr ⟨rfl, by simpa [Node.order] using hlt⟩)
  · exact List.Pairwise.nil

theorem mem_parent?_iff {n m : Node} (hn : d.HasNode n) :
    m ∈ d.parent? n ↔ d.HasChild m n ∨ d.HasAttribute m n := by
  obtain ⟨place, attr⟩ := n
  obtain ⟨p, a⟩ := m
  cases attr with
  | some index =>
    have hattr : (d.attribute? ⟨place, some index⟩).isSome := hn.2 rfl
    simp only [parent?, HasChild, HasAttribute, hattr, Option.mem_some_iff, Node.ofPlace,
      Node.mk.injEq, reduceCtorEq, false_and, and_false, false_or, and_true]
    exact ⟨fun h => ⟨h.2.symm, h.1⟩, fun h => ⟨h.2, h.1.symm⟩⟩
  | none =>
    have hattr : ¬ d.HasAttribute ⟨p, a⟩ ⟨place, none⟩ := fun h => by
      simp [HasAttribute, attribute?_isSome_iff] at h
    rw [or_iff_left hattr, Option.mem_def]
    simp only [parent?, Option.map_eq_some_iff, HasChild, IsChild, true_and]
    constructor
    · rintro ⟨q, hq, heq⟩
      cases heq
      exact ⟨rfl, hn.1, hq⟩
    · rintro ⟨rfl, -, hq⟩
      exact ⟨p, hq, rfl⟩

theorem Shows.hasNode_parent? (hd : d.Shows forest) {n m : Node} (hn : d.HasNode n)
    (hm : m ∈ d.parent? n) : d.HasNode m := by
  have hlt : m.place < d.entries.size ∧ m.attr = none := by
    rcases (mem_parent?_iff hn).1 hm with h | h
    · have := hd.lt_of_isChild h.2.2
      exact ⟨Nat.lt_trans this h.2.2.1, h.1⟩
    · exact ⟨h.2.1 ▸ hn.1, h.1⟩
  exact ⟨hlt.1, fun hattr => by rw [hlt.2] at hattr; cases hattr⟩

end Document

namespace Path

open Document

/-! ## Axes and tests -/

/-- The nodes of an axis are those that it leads to, in document order. -/
theorem Axis.lists_nodes (axis : Axis) (hd : d.Shows forest) {n : Node} (hn : d.HasNode n) :
    d.Lists {m | axis.Leads d n m} (axis.nodes d n) := by
  cases axis with
  | child => exact hd.lists_children n
  | descendant => exact hd.lists_descendants n
  | descendantOrSelf =>
    obtain ⟨hordered, hmem, hvalid⟩ := hd.lists_descendants n
    refine ⟨List.pairwise_cons.2 ⟨fun m hm => ?_, hordered⟩, fun m => ?_, ?_⟩
    · have hbelow := (hasDescendant_iff.1 ((hmem m).1 hm)).2.2
      exact Node.isBefore_iff.2 (.inl (hd.lt_of_isBelow hbelow))
    · rw [nodes, List.mem_cons, hmem]
      rfl
    · intro m hm
      rcases List.mem_cons.1 hm with rfl | hm
      · exact hn
      · exact hvalid m hm
  | self =>
    refine ⟨List.pairwise_singleton _ _, fun m => List.mem_singleton, fun m hm => ?_⟩
    rw [List.mem_singleton.1 hm]
    exact hn
  | parent =>
    refine ⟨?_, fun m => ?_, fun m hm => ?_⟩
    · rw [nodes]
      cases d.parent? n with
      | none => exact List.Pairwise.nil
      | some m => exact List.pairwise_singleton _ _
    · rw [nodes, Option.mem_toList]
      exact mem_parent?_iff hn
    · exact hd.hasNode_parent? hn (Option.mem_toList.1 hm)
  | attr => exact lists_attributes n

theorem Axis.isPrincipal_iff {axis : Axis} {n : Node} :
    axis.isPrincipal d n = true ↔ axis.IsAbout d n := by
  obtain ⟨place, attr⟩ := n
  have helement : d.isElement ⟨place, attr⟩ = true ↔
      attr = none ∧ ∃ tag, (d.entry place).content = .element tag := by
    cases attr with
    | some index => simp [isElement, Document.tag]
    | none =>
      simp only [isElement, Document.tag, tagAt]
      cases (d.entry place).content <;> simp
  cases axis with
  | attr => rfl
  | _ => exact helement

theorem expandedName_eq {n : Node} (hn : d.HasNode n)
    (habout : ∃ axis : Axis, axis.IsAbout d n) :
    d.expandedName n = some (d.uriOf n, d.nameOf n) := by
  obtain ⟨place, attr⟩ := n
  cases attr with
  | some index =>
    obtain ⟨attr, hattr⟩ := Option.isSome_iff_exists.1 (hn.2 rfl)
    simp [expandedName, uriOf, nameOf, hattr]
  | none =>
    have hcontent : ∃ tag, (d.entry place).content = .element tag := by
      obtain ⟨axis, h⟩ := habout
      cases axis with
      | attr => cases h
      | _ => exact h.2
    obtain ⟨tag, hcontent⟩ := hcontent
    simp [expandedName, uriOf, nameOf, attribute?, Document.tag, tagAt, hcontent]

/-- A test holds of the nodes that pass it. -/
theorem NodeTest.holds_iff {test : NodeTest} {axis : Axis} {n : Node} (hn : d.HasNode n) :
    test.holds d axis n = true ↔ test.Passes d axis n := by
  cases test with
  | node => exact ⟨fun _ => trivial, fun _ => rfl⟩
  | text =>
    obtain ⟨place, attr⟩ := n
    simp only [holds, Passes, Document.isText]
    cases attr with
    | none => cases (d.entry place).content <;> simp
    | some index =>
      obtain ⟨tag, htag, -⟩ := attribute?_isSome_iff.1 (hn.2 rfl)
      simp only [tagAt] at htag
      split at htag
      · rename_i hcontent
        simp [hcontent]
      · cases htag
  | anyName uri =>
    cases uri with
    | none => simp only [holds, Passes, Bool.and_true, Axis.isPrincipal_iff]
    | some uri =>
      simp only [holds, Passes, Bool.and_eq_true, Axis.isPrincipal_iff]
      refine and_congr_right fun habout => ?_
      simp [expandedName_eq hn ⟨axis, habout⟩]
  | name uri base =>
    simp only [holds, Passes, Bool.and_eq_true, Axis.isPrincipal_iff, and_assoc]
    refine and_congr_right fun habout => ?_
    simp [expandedName_eq hn ⟨axis, habout⟩, and_comm]

theorem lists_filter {nodes : Set Node} {xs : List Node} (h : d.Lists nodes xs)
    (keep : Node → Bool) {P : Node → Prop} (hkeep : ∀ n ∈ xs, keep n = true ↔ P n) :
    d.Lists {n ∈ nodes | P n} (xs.filter keep) where
  ordered := h.ordered.filter keep
  mem n := by
    rw [List.mem_filter, Set.mem_ofPred_eq, ← h.mem]
    exact and_congr_right fun hn => hkeep n hn
  valid n hn := h.valid n (List.mem_filter.1 hn).1

/-! ## Predicates -/

theorem hasAttributeWith_iff {test : NodeTest} {condition : String → Bool} {n : Node} :
    hasAttributeWith d test condition n = true ↔
      ∃ a attr, d.HasAttribute n a ∧ test.Passes d .attr a ∧ d.attribute? a = some attr ∧
        condition attr.value = true := by
  rw [hasAttributeWith, List.any_eq_true]
  have hlists := lists_attributes (d := d) n
  constructor
  · rintro ⟨a, ha, h⟩
    have hattr := (hlists.mem a).1 ha
    obtain ⟨attr, heq⟩ := Option.isSome_iff_exists.1 hattr.2.2
    rw [Bool.and_eq_true, NodeTest.holds_iff (hlists.valid a ha)] at h
    simp only [Document.text, heq] at h
    exact ⟨a, attr, hattr, h.1, heq, h.2⟩
  · rintro ⟨a, attr, hattr, htest, heq, hcondition⟩
    have ha := (hlists.mem a).2 hattr
    refine ⟨a, ha, ?_⟩
    rw [Bool.and_eq_true, NodeTest.holds_iff (hlists.valid a ha)]
    simp only [Document.text, heq]
    exact ⟨htest, hcondition⟩

theorem nodup_of_isBefore {xs : List Node} (h : xs.Pairwise Node.IsBefore) : xs.Nodup := by
  refine h.imp fun {n m} hlt heq => ?_
  rw [heq] at hlt
  exact Node.not_isBefore_self m hlt

theorem isBefore_getElem_iff {xs : List Node} (h : xs.Pairwise Node.IsBefore) {i j : Nat}
    (hi : i < xs.length) (hj : j < xs.length) : xs[i].IsBefore xs[j] ↔ i < j := by
  have hlt := List.pairwise_iff_getElem.1 h
  constructor
  · intro hbefore
    refine Nat.lt_of_not_le fun hle => ?_
    rcases Nat.eq_or_lt_of_le hle with rfl | hji
    · exact Node.not_isBefore_self _ hbefore
    · exact Node.not_isBefore_self _ (hbefore.trans (hlt j i hj hi hji))
  · exact hlt i j hi hj

variable {nodes : Set Node} {xs : List Node}

/-- As many nodes come before a node as are listed before it. -/
theorem ncard_precedes (hd : d.Shows forest) (h : d.Lists nodes xs) {i : Nat}
    (hi : i < xs.length) : {m ∈ nodes | d.Precedes m xs[i]}.ncard = i := by
  have hset : {m ∈ nodes | d.Precedes m xs[i]} = ((xs.take i).toFinset : Set Node) := by
    ext m
    rw [Set.mem_ofPred_eq, ← h.mem, List.coe_toFinset, Set.mem_ofPred_eq,
      List.mem_take_iff_getElem]
    constructor
    · rintro ⟨hm, hprecedes⟩
      have hbefore := (hd.precedes_iff (h.valid m hm) (h.valid _ (List.getElem_mem hi))).1 hprecedes
      obtain ⟨j, hj, rfl⟩ := List.getElem_of_mem hm
      have hji := (isBefore_getElem_iff h.ordered hj hi).1 hbefore
      exact ⟨j, by omega, rfl⟩
    · rintro ⟨j, hj, rfl⟩
      have hmem := List.getElem_mem (l := xs) (n := j) (by omega)
      refine ⟨hmem, (hd.precedes_iff (h.valid _ hmem) (h.valid _ (List.getElem_mem hi))).2 ?_⟩
      exact (isBefore_getElem_iff h.ordered _ hi).2 (by omega)
  have hnodup := (nodup_of_isBefore h.ordered).sublist (List.take_sublist i xs)
  rw [hset, Set.ncard_coe_finset, List.toFinset_card_of_nodup hnodup, List.length_take,
    Nat.min_eq_left (Nat.le_of_lt hi)]

/-- A list with the node that a place in the list has, if any. -/
theorem lists_getElem? (h : d.Lists nodes xs) {i : Nat} {P : Node → Prop}
    (hP : ∀ (j : Nat) (hj : j < xs.length), P xs[j] ↔ j = i) :
    d.Lists {n ∈ nodes | P n} xs[i]?.toList := by
  have hmem : ∀ n, n ∈ xs[i]?.toList ↔ n ∈ {n ∈ nodes | P n} := by
    intro n
    rw [Option.mem_toList, Set.mem_ofPred_eq, ← h.mem, List.getElem?_eq_some_iff]
    constructor
    · rintro ⟨hi, rfl⟩
      exact ⟨List.getElem_mem hi, (hP i hi).2 rfl⟩
    · rintro ⟨hn, hPn⟩
      obtain ⟨j, hj, rfl⟩ := List.getElem_of_mem hn
      obtain rfl := (hP j hj).1 hPn
      exact ⟨hj, rfl⟩
  refine ⟨?_, hmem, fun n hn => h.valid n ((h.mem n).2 ((hmem n).1 hn).1)⟩
  cases xs[i]? with
  | none => exact List.Pairwise.nil
  | some n => exact List.pairwise_singleton _ _

/-- A predicate keeps of a list what it leaves over of its nodes. -/
theorem Predicate.lists_keep (hd : d.Shows forest) {predicate : Predicate}
    (hcounts : predicate.CountsFromOne) (h : d.Lists nodes xs) :
    d.Lists (predicate.among d nodes) (predicate.keep d xs) := by
  cases predicate with
  | position k =>
    refine lists_getElem? h fun j hj => ?_
    have hpos : 0 < k := hcounts
    rw [ncard_precedes hd h hj]
    omega
  | last =>
    rw [keep, List.getLast?_eq_getElem?]
    refine lists_getElem? h fun j hj => ?_
    have hprecedes : ∀ i (hi : i < xs.length), d.Precedes xs[j] xs[i] ↔ j < i := fun i hi =>
      (hd.precedes_iff (h.valid _ (List.getElem_mem hj)) (h.valid _ (List.getElem_mem hi))).trans
        (isBefore_getElem_iff h.ordered hj hi)
    constructor
    · intro hlast
      have := hlast _ ((h.mem _).1 (List.getElem_mem (show xs.length - 1 < xs.length by omega)))
      rw [hprecedes] at this
      omega
    · intro hlast m hm
      obtain ⟨i, hi, rfl⟩ := List.getElem_of_mem ((h.mem m).2 hm)
      rw [hprecedes]
      omega
  | hasAttribute test =>
    refine lists_filter h _ fun n hn => hasAttributeWith_iff.trans ⟨?_, ?_⟩
    · rintro ⟨a, attr, hattr, htest, -⟩
      exact ⟨a, hattr, htest⟩
    · rintro ⟨a, hattr, htest⟩
      obtain ⟨attr, heq⟩ := Option.isSome_iff_exists.1 hattr.2.2
      exact ⟨a, attr, hattr, htest, heq, rfl⟩
  | attributeEquals test value =>
    refine lists_filter h _ fun n hn => hasAttributeWith_iff.trans ?_
    simp only [Option.map_eq_some_iff, beq_iff_eq, exists_and_left]

/-! ## Steps, paths and expressions -/

/-- A step selects what it denotes, in document order. -/
theorem Step.lists_select (hd : d.Shows forest) {step : Step}
    (hcounts : step.CountsFromOne) {n : Node}
    (hn : d.HasNode n) : d.Lists (step.denotation d n) (step.select d n) := by
  have hstart := lists_filter (step.axis.lists_nodes hd hn) (step.test.holds d step.axis)
    fun m hm => NodeTest.holds_iff ((step.axis.lists_nodes hd hn).valid m hm)
  have hkeep : ∀ (predicates : List Predicate) {nodes : Set Node} {xs : List Node},
      (∀ predicate ∈ predicates, predicate.CountsFromOne) → d.Lists nodes xs →
        d.Lists (predicates.foldl (fun nodes predicate => predicate.among d nodes) nodes)
          (predicates.foldl (fun nodes predicate => predicate.keep d nodes) xs) := by
    intro predicates
    induction predicates with
    | nil => exact fun _ h => h
    | cons predicate rest ih =>
      intro nodes xs hall h
      rw [List.forall_mem_cons] at hall
      exact ih hall.2 (predicate.lists_keep hd hall.1 h)
  exact hkeep step.predicates hcounts hstart

theorem before_iff {n m : Node} : before n m = true ↔ toLex n.order ≤ toLex m.order := by
  rw [Prod.Lex.toLex_le_toLex]
  simp [before]

theorem mem_dropRepeats {n : Node} {xs : List Node} : n ∈ dropRepeats xs ↔ n ∈ xs := by
  fun_induction dropRepeats xs with
  | case1 => rfl
  | case2 => rfl
  | case3 a rest ih => simp [ih]
  | case4 a b rest h ih => simp [ih]

/-- Where repeats stand next to each other, none is left. -/
theorem pairwise_dropRepeats {xs : List Node} (h : xs.Pairwise fun n m => before n m) :
    (dropRepeats xs).Pairwise Node.IsBefore := by
  fun_induction dropRepeats xs with
  | case1 => exact List.Pairwise.nil
  | case2 => exact List.pairwise_singleton _ _
  | case3 a rest ih => exact ih h.of_cons
  | case4 a b rest hne ih =>
    obtain ⟨ha, hrest⟩ := List.pairwise_cons.1 h
    refine List.pairwise_cons.2 ⟨fun m hm => ?_, ih hrest⟩
    have hab : a.IsBefore b := by
      refine lt_of_le_of_ne (before_iff.1 (ha b List.mem_cons_self)) fun heq => hne ?_
      exact Node.order_injective heq
    rcases List.mem_cons.1 (mem_dropRepeats.1 hm) with rfl | hm
    · exact hab
    · exact lt_of_lt_of_le hab (before_iff.1 ((List.pairwise_cons.1 hrest).1 m hm))

theorem mem_inOrder {n : Node} {xs : List Node} : n ∈ inOrder xs ↔ n ∈ xs := by
  rw [inOrder, mem_dropRepeats, List.mem_mergeSort]

theorem pairwise_inOrder (xs : List Node) : (inOrder xs).Pairwise Node.IsBefore := by
  refine pairwise_dropRepeats (List.pairwise_mergeSort (fun a b c hab hbc => ?_) (fun a b => ?_) xs)
  · exact before_iff.2 (le_trans (before_iff.1 hab) (before_iff.1 hbc))
  · rw [Bool.or_eq_true, before_iff, before_iff]
    exact le_total _ _

/-- Steps select from a list of nodes what they reach from one of them. -/
theorem mem_foldl_select (hd : d.Shows forest) {steps : List Step}
    (hcounts : ∀ step ∈ steps, step.CountsFromOne)
    {xs : List Node} (hxs : ∀ n ∈ xs, d.HasNode n) {m : Node} :
    m ∈ steps.foldl (fun nodes step => inOrder (nodes.flatMap (step.select d))) xs ↔
      ∃ n ∈ xs, Reaches d steps n m := by
  induction steps generalizing xs with
  | nil => simp [Reaches]
  | cons step rest ih =>
    rw [List.forall_mem_cons] at hcounts
    have hlists : ∀ n ∈ xs, d.Lists (step.denotation d n) (step.select d n) :=
      fun n hn => step.lists_select hd hcounts.1 (hxs n hn)
    have hmem : ∀ k, k ∈ inOrder (xs.flatMap (step.select d)) ↔
        ∃ n ∈ xs, k ∈ step.denotation d n := by
      intro k
      rw [mem_inOrder, List.mem_flatMap]
      exact exists_congr fun n => and_congr_right fun hn => (hlists n hn).mem k
    have hvalid : ∀ k ∈ inOrder (xs.flatMap (step.select d)), d.HasNode k := by
      intro k hk
      obtain ⟨n, hn, hk⟩ := List.mem_flatMap.1 (mem_inOrder.1 hk)
      exact (hlists n hn).valid k hk
    rw [List.foldl_cons, ih hcounts.2 hvalid]
    constructor
    · rintro ⟨k, hk, hm⟩
      obtain ⟨n, hn, hk⟩ := (hmem k).1 hk
      exact ⟨n, hn, k, hk, hm⟩
    · rintro ⟨n, hn, k, hk, hm⟩
      exact ⟨k, (hmem k).2 ⟨n, hn, hk⟩, hm⟩

theorem hasNode_of_reaches (hd : d.Shows forest) {steps : List Step}
    (hcounts : ∀ step ∈ steps, step.CountsFromOne) {n m : Node} (hn : d.HasNode n)
    (h : Reaches d steps n m) : d.HasNode m := by
  induction steps generalizing n with
  | nil => exact (show m = n from h) ▸ hn
  | cons step rest ih =>
    rw [List.forall_mem_cons] at hcounts
    obtain ⟨k, hk, h⟩ := h
    have hlists := step.lists_select hd hcounts.1 hn
    exact ih hcounts.2 (hlists.valid k ((hlists.mem k).2 hk)) h

/-- The nodes that a compiled expression selects are those of its denotation, each once and in
document order. -/
theorem Expression.select_eq_denotation (hd : Document.Produced d) {bindings : Bindings}
    {text : String} {expression : Expression} (hcompile : compile bindings text = .ok expression)
    {context : Node} (hcontext : d.HasNode context) :
    (expression.select d context).Pairwise d.Precedes ∧ (expression.select d context).Nodup ∧
      ∀ n, n ∈ expression.select d context ↔ n ∈ expression.denotation d context := by
  obtain ⟨forest, -, hd⟩ := hd.shows
  have horigin : ∀ path : LocationPath,
      d.HasNode (if path.absolute then Document.root else context) := by
    intro path
    split
    · exact hd.hasNode_root
    · exact hcontext
  have hmem : ∀ n, n ∈ expression.select d context ↔ n ∈ expression.denotation d context := by
    intro n
    rw [select, mem_inOrder, List.mem_flatMap]
    refine exists_congr fun path => and_congr_right fun hpath => ?_
    rw [LocationPath.select, mem_foldl_select hd (compile_counts hcompile path hpath)
      (by simpa using horigin path)]
    simp [LocationPath.denotation]
  have hvalid : ∀ n ∈ expression.select d context, d.HasNode n := by
    intro n hn
    obtain ⟨path, hpath, hreaches⟩ := (hmem n).1 hn
    exact hasNode_of_reaches hd (compile_counts hcompile path hpath) (horigin path) hreaches
  have hordered : (expression.select d context).Pairwise Node.IsBefore := pairwise_inOrder _
  refine ⟨hordered.imp_of_mem fun hn hm => ?_, nodup_of_isBefore hordered, hmem⟩
  exact (hd.precedes_iff (hvalid _ hn) (hvalid _ hm)).2

/-- Both paths of a union lead to the last `b`, which is selected once. -/
theorem select_union_of_leaves :
    ∃ d expression, Document.read .lenient "<a><b/>t<b/></a>" = .ok d ∧
      compile [] "a/b[last()] | //b" = .ok expression ∧ d.HasNode Document.root ∧
      (expression.select d Document.root).Pairwise d.Precedes ∧
      (expression.select d Document.root).Nodup ∧
      ∀ n, n ∈ expression.select d Document.root ↔ n ∈ expression.denotation d Document.root := by
  have hread : Document.read .lenient "<a><b/>t<b/></a>" =
      .ok ⟨#[⟨none, [1], .document⟩, ⟨some 0, [2, 3, 4], .element ⟨⟨none, "a"⟩, none, [], []⟩⟩,
        ⟨some 1, [], .element ⟨⟨none, "b"⟩, none, [], []⟩⟩, ⟨some 1, [], .text "t"⟩,
        ⟨some 1, [], .element ⟨⟨none, "b"⟩, none, [], []⟩⟩], []⟩ := by decide +kernel
  have hcompile : compile [] "a/b[last()] | //b" =
      .ok ⟨[⟨false, [⟨.child, .name none "a", []⟩, ⟨.child, .name none "b", [.last]⟩]⟩,
        ⟨true, [anywhere, ⟨.child, .name none "b", []⟩]⟩]⟩ := by decide +kernel
  have hroot := (Document.Produced.read hread).shows.choose_spec.2.hasNode_root
  exact ⟨_, _, hread, hcompile, hroot,
    Expression.select_eq_denotation (.read hread) hcompile hroot⟩

end Path

end SoapKit.Xml
