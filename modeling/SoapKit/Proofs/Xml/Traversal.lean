import Mathlib.Computability.StateTransition
import SoapKit.Proofs.Xml.Tree

/-!
# Traversals

What can be reached from nodes is listed by recursion: a node, then what is listed from the nodes
that it leads to, then the same for the next node (`Traversal`). The same list comes about without
recursion, with a stack of nodes that are still to be visited (`Walker.turn`): what a node leads to
is put on the stack in reverse, so that the first one is on top.

Main results: `Traversal.eval_turn`, by which a walk with a stack ends when its traversal does and
has visited the same nodes in the same order; and `HoldsAll.traversal`, by which a traversal of the
trees in a document's table lists consecutive places.
-/

namespace SoapKit.Xml

open StateTransition (eval mem_eval Reaches)

variable {α : Type} {next : α → List α} {nodes listing : List α}

/-- The nodes that are listed from given ones: each of these, followed by what is listed from the
nodes that it leads to. -/
inductive Traversal (next : α → List α) : List α → List α → Prop where
  | nil : Traversal next [] []
  | cons {n : α} {nodes inside behind : List α} : Traversal next (next n) inside →
      Traversal next nodes behind → Traversal next (n :: nodes) (n :: (inside ++ behind))

namespace Traversal

/-- The recursion has one result at most. -/
theorem unique {other : List α} (h : Traversal next nodes listing)
    (h' : Traversal next nodes other) : listing = other := by
  induction h generalizing other with
  | nil =>
    cases h'
    rfl
  | cons _ _ ih ih' =>
    cases h' with
    | cons hinside hbehind => rw [ih hinside, ih' hbehind]

/-- What is listed is what can be reached. -/
theorem mem_iff (h : Traversal next nodes listing) {m : α} :
    m ∈ listing ↔ ∃ n ∈ nodes, Relation.ReflTransGen (fun a b => b ∈ next a) n m := by
  induction h with
  | nil => simp
  | @cons n nodes inside behind _ _ ih ih' =>
    rw [List.mem_cons, List.mem_append, ih, ih', List.exists_mem_cons_iff,
      Relation.ReflTransGen.cases_head_iff, or_assoc, eq_comm]

/-- Where nodes that are left out lead nowhere, the others are listed by going to the others. -/
theorem filter {keep : α → Bool} (h : Traversal next nodes listing)
    (hleaf : ∀ n ∈ listing, keep n = false → next n = []) :
    Traversal (fun n => (next n).filter keep) (nodes.filter keep) (listing.filter keep) := by
  induction h with
  | nil => exact .nil
  | @cons n nodes inside behind hinside _ ih ih' =>
    have hwithin := ih fun m hm => hleaf m (List.mem_cons_of_mem n (List.mem_append_left _ hm))
    have hbeyond := ih' fun m hm => hleaf m (List.mem_cons_of_mem n (List.mem_append_right _ hm))
    cases hkeep : keep n with
    | true =>
      rw [List.filter_cons_of_pos hkeep, List.filter_cons_of_pos hkeep, List.filter_append]
      exact .cons hwithin hbeyond
    | false =>
      rw [hleaf n List.mem_cons_self hkeep] at hinside
      cases hinside
      rwa [List.filter_cons_of_neg (by simp [hkeep]), List.filter_cons_of_neg (by simp [hkeep])]

end Traversal

/-! ## Walks with a stack -/

/-- The nodes that were visited, and the stack of those that are still to be visited. The top of the
stack is at its end. -/
structure Walker (α : Type) where
  visited : List α
  pending : List α

namespace Walker

/-- Visits the node on top of the stack and puts what it leads to in its place, the first one on
top. -/
def turn (next : α → List α) (w : Walker α) : Option (Walker α) :=
  w.pending.getLast?.map fun n => ⟨w.visited ++ [n], w.pending.dropLast ++ (next n).reverse⟩

theorem turn_concat (visited pending : List α) (n : α) :
    turn next ⟨visited, pending ++ [n]⟩ = some ⟨visited ++ [n], pending ++ (next n).reverse⟩ := by
  simp only [turn, List.getLast?_concat, List.dropLast_concat, Option.map_some]

end Walker

/-- Nodes on top of a stack are gone when all that is listed from them has been visited, and what is
below them is untouched. -/
theorem Traversal.reaches (h : Traversal next nodes listing) (visited pending : List α) :
    Reaches (Walker.turn next) ⟨visited, pending ++ nodes.reverse⟩
      ⟨visited ++ listing, pending⟩ := by
  induction h generalizing visited pending with
  | nil =>
    rw [List.reverse_nil, List.append_nil, List.append_nil]
    exact .refl
  | @cons n nodes inside behind _ _ ih ih' =>
    have hinside := ih (visited ++ [n]) (pending ++ nodes.reverse)
    have hbehind : Reaches (Walker.turn next) ⟨visited ++ [n] ++ inside, pending ++ nodes.reverse⟩
        ⟨visited ++ n :: (inside ++ behind), pending⟩ := by
      simpa using ih' (visited ++ [n] ++ inside) pending
    rw [List.reverse_cons, ← List.append_assoc]
    exact .head (Walker.turn_concat visited _ n) (hinside.trans hbehind)

/-- A walk with a stack ends, and has visited what the recursion lists. -/
theorem Traversal.eval_turn (h : Traversal next nodes listing) :
    eval (Walker.turn next) ⟨[], nodes.reverse⟩ = Part.some ⟨listing, []⟩ :=
  Part.eq_some_iff.2 (mem_eval.2 ⟨h.reaches [] [], rfl⟩)

namespace Document

open SoapKit.Xml.Tree

variable {d : Document}

/-! ## Traversals of a document -/

theorem walk_nil (steps : Nat) : d.walk steps [] = [] := by
  cases steps <;> rfl

/-- With enough steps, a walk begins with the traversal of the first nodes. -/
theorem walk_of_traversal {nodes listing pending : List Node} {steps : Nat}
    (h : Traversal d.children nodes listing) (hsteps : listing.length ≤ steps) :
    d.walk steps (nodes ++ pending) = listing ++ d.walk (steps - listing.length) pending := by
  induction h generalizing steps pending with
  | nil => rfl
  | @cons n nodes inside behind _ _ ih ih' =>
    rw [List.length_cons, List.length_append] at hsteps
    obtain ⟨steps, rfl⟩ : ∃ k, steps = k + 1 := ⟨steps - 1, by omega⟩
    rw [List.cons_append, walk, ih (by omega), ih' (by omega), List.length_cons, List.length_append,
      Nat.add_sub_add_right, Nat.sub_add_eq, List.cons_append, List.append_assoc]

theorem descendants_eq_of_traversal {n : Node} {listing : List Node}
    (h : Traversal d.children (d.children n) listing) (hsize : listing.length ≤ d.entries.size) :
    d.descendants n = listing := by
  have hwalk : d.walk d.entries.size (d.children n ++ []) = listing ++ d.walk _ [] :=
    walk_of_traversal h hsize
  rwa [List.append_nil, walk_nil, List.append_nil] at hwalk

mutual

theorem Holds.traversal {parent place : Nat} : ∀ {t : Tree}, d.Holds parent place t →
    Traversal d.children (d.children (Node.ofPlace place))
      ((List.range' (place + 1) (t.size - 1)).map Node.ofPlace)
  | .text data, h => by
    rw [h.children_eq_nil]
    exact .nil
  | .element tag children, h => by
    rw [h.children_eq, size, Nat.add_sub_cancel]
    exact HoldsAll.traversal h.children

/-- The places of a forest are listed one after the other. -/
theorem HoldsAll.traversal {parent place : Nat} : ∀ {forest : List Tree},
    d.HoldsAll parent place forest →
      Traversal d.children ((places place forest).map Node.ofPlace)
        ((List.range' place (sizeAll forest)).map Node.ofPlace)
  | [], _ => .nil
  | t :: rest, h => by
    obtain ⟨below, hsize⟩ : ∃ k, t.size = k + 1 := ⟨t.size - 1, by have := t.size_pos; omega⟩
    have hinside := h.head.traversal
    rw [hsize, Nat.add_sub_cancel] at hinside
    rw [places, List.map_cons, sizeAll, ← List.range'_append_1, List.map_append, hsize,
      List.range'_succ, List.map_cons, List.cons_append, ← hsize]
    exact .cons hinside (HoldsAll.traversal h.tail)

end

end Document

end SoapKit.Xml
