import SoapKit.Proofs.Xml.Node
import SoapKit.Proofs.Xml.Tag

/-!
# Declarations in effect

The declarations that reach a node are its own and those that reach its parent
(`Shows.reachingDeclarations_child`), so looking a namespace up at a node is looking it up among
these (`lookupNamespace_eq`). Of each qualifier the first of them is in effect
(`find?_firstOfEach`).
-/

namespace SoapKit.Xml.Document

open SoapKit.Xml.Tree

variable {d : Document} {forest : List Tree}

theorem lookupNamespace_eq (n : Node) (qualifier : Option String) :
    d.lookupNamespace n qualifier = Declaration.lookup (d.reachingDeclarations n) qualifier :=
  rfl

/-! ## Climbing -/

/-- Places get smaller on the way up, so more steps than the place do not matter. -/
theorem Shows.climb_eq (hd : d.Shows forest) {steps place : Nat} (hsteps : place < steps)
    (hplace : place < d.entries.size) : d.climb steps place = d.climb (place + 1) place := by
  induction place using Nat.strong_induction_on generalizing steps with
  | _ place ih =>
    obtain ⟨steps, rfl⟩ : ∃ k, steps = k + 1 := ⟨steps - 1, by omega⟩
    rw [climb, climb]
    cases hparent : (d.entry place).parent with
    | none => rfl
    | some parent =>
      have hlt := hd.lt_of_isChild ⟨hplace, hparent⟩
      simp only
      rw [ih parent hlt (show parent < steps by omega) (by omega),
        ih parent hlt hlt (by omega)]

theorem Shows.ancestry_child (hd : d.Shows forest) {parent place : Nat}
    (h : d.IsChild parent place) :
    d.ancestry (Node.ofPlace place) = place :: d.ancestry (Node.ofPlace parent) := by
  have hlt := hd.lt_of_isChild h
  have hplace := h.1
  show d.climb d.entries.size place = place :: d.climb d.entries.size parent
  rw [hd.climb_eq hplace hplace, climb, h.2]
  simp only
  rw [hd.climb_eq hlt (by omega),
    hd.climb_eq (show parent < d.entries.size by omega) (by omega)]

theorem Shows.reachingDeclarations_root (hd : d.Shows forest) :
    d.reachingDeclarations root = [] := by
  have hancestry : d.ancestry root = [0] := by
    show d.climb d.entries.size 0 = [0]
    rw [hd.climb_eq (by rw [hd.size_eq]; omega) (by rw [hd.size_eq]; omega), climb, hd.entry_zero]
  have htag : d.tagAt 0 = none := by
    rw [tagAt, hd.entry_zero]
  rw [reachingDeclarations, hancestry, List.flatMap_singleton, htag]
  rfl

/-- What reaches a child is declared on it or reaches its parent. -/
theorem Shows.reachingDeclarations_child (hd : d.Shows forest) {parent place : Nat}
    (h : d.IsChild parent place) :
    d.reachingDeclarations (Node.ofPlace place) =
      ((d.tagAt place).map (·.declarations)).getD [] ++
        d.reachingDeclarations (Node.ofPlace parent) := by
  rw [reachingDeclarations, hd.ancestry_child h, List.flatMap_cons]
  rfl

theorem Holds.tagAt_element {parent place : Nat} {tag : Tag} {children : List Tree}
    (h : d.Holds parent place (.element tag children)) : d.tagAt place = some tag := by
  rw [tagAt, h.entry_element]

theorem Holds.reachingDeclarations (hd : d.Shows forest) {parent place : Nat} {tag : Tag}
    {children : List Tree} (h : d.Holds parent place (.element tag children)) :
    d.reachingDeclarations (Node.ofPlace place) =
      tag.declarations ++ d.reachingDeclarations (Node.ofPlace parent) := by
  rw [hd.reachingDeclarations_child h.isChild, h.tagAt_element]
  rfl

/-! ## The first declaration of each qualifier -/

/-- Where every qualifier is declared once, all declarations are in effect. -/
theorem firstOfEach_eq_self {seen : List (Option String)} {declarations : List Declaration}
    (hnodup : (declarations.map (·.qualifier)).Nodup)
    (hseen : ∀ declaration ∈ declarations, declaration.qualifier ∉ seen) :
    firstOfEach seen declarations = declarations := by
  induction declarations generalizing seen with
  | nil => rfl
  | cons first rest ih =>
    rw [List.map_cons, List.nodup_cons] at hnodup
    rw [List.forall_mem_cons] at hseen
    rw [firstOfEach, if_neg (by simpa using hseen.1), ih hnodup.2]
    intro declaration hmem hin
    rcases List.mem_cons.1 hin with heq | hin
    · exact hnodup.1 (heq ▸ List.mem_map_of_mem hmem)
    · exact hseen.2 declaration hmem hin

/-- Leaving out what is declared again leaves the first declaration of a qualifier. -/
theorem find?_firstOfEach {seen : List (Option String)} {declarations : List Declaration}
    {qualifier : Option String} (hseen : qualifier ∉ seen) :
    (firstOfEach seen declarations).find? (·.qualifier == qualifier) =
      declarations.find? (·.qualifier == qualifier) := by
  induction declarations generalizing seen with
  | nil => rfl
  | cons first rest ih =>
    rw [firstOfEach]
    by_cases hfirst : first.qualifier = qualifier
    · rw [if_neg (by simpa [hfirst] using hseen)]
      simp [hfirst]
    · rw [List.find?_cons_of_neg (by simpa using hfirst)]
      split
      · exact ih hseen
      · rw [List.find?_cons_of_neg (by simpa using hfirst)]
        exact ih (by simpa [Ne.symm hfirst] using hseen)

/-- The namespace without a qualifier is that of the declaration in effect. -/
theorem lookupNamespace_none (n : Node) :
    d.lookupNamespace n none =
      ((d.namespacesInScope n).find? (·.qualifier == none)).bind fun declaration =>
        if declaration.uri.isEmpty then none else some declaration.uri := by
  rw [lookupNamespace, if_neg (by simp), namespacesInScope, find?_firstOfEach List.not_mem_nil]
  cases (d.reachingDeclarations n).find? (·.qualifier == none) <;> rfl

end SoapKit.Xml.Document
