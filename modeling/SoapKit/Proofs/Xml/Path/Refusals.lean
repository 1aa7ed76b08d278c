import SoapKit.Proofs.Except
import SoapKit.Xml.Path.Compile

/-!
# Expressions that are refused

An expression is refused for its form or for a qualifier, and the qualifier is one that no binding
is for (`isRefused_of_not_ok`). This goes up from tests, where qualifiers are looked up, to unions.
-/

namespace SoapKit.Xml.Path

variable {bindings : Bindings}

/-- No binding is for a qualifier. -/
def Bindings.Lacks (bindings : Bindings) (qualifier : String) : Prop :=
  ∀ uri, (qualifier, uri) ∉ bindings

/-- A part of an expression is refused for its form, or for a qualifier without a binding. -/
def Refusal.IsDue (bindings : Bindings) : Refusal → Prop
  | .undefined qualifier => bindings.Lacks qualifier
  | .fault _ => True

/-- An expression is refused for its form, or for a qualifier without a binding. -/
def IsRefused (bindings : Bindings) (text : String) : Prop :=
  (∃ fault, compile bindings text = .error (.syntactic text fault)) ∨
    ∃ qualifier, compile bindings text = .error (.undefined qualifier) ∧ bindings.Lacks qualifier

theorem resolve_fails (qualifier : List Char) :
    FailsOnly (Refusal.IsDue bindings) (bindings.resolve qualifier) := by
  unfold Bindings.resolve
  split
  · exact .ok
  · rename_i hnone
    refine .error fun uri hmem => ?_
    have hne := List.find?_eq_none.1 hnone _ (List.mem_reverse.2 hmem)
    simp at hne

theorem fault_isDue (fault : Fault) : Refusal.IsDue bindings (.fault fault) :=
  trivial

theorem compileTest_fails (s : List Char) :
    FailsOnly (Refusal.IsDue bindings) (compileTest bindings s) := by
  unfold compileTest
  refine .ite .ok (.ite .ok (.ite .ok ?_))
  cases Text.splitOnce ':' s with
  | none => exact .ite .ok (.error (fault_isDue _))
  | some parts =>
    refine .ite (.error (fault_isDue _)) (.ite ?_ (.ite ?_ (.error (fault_isDue _))))
    · exact (resolve_fails parts.1).bind fun _ => .ok
    · exact (resolve_fails parts.1).bind fun _ => .ok

theorem compilePredicate_fails (s : List Char) :
    FailsOnly (Refusal.IsDue bindings) (compilePredicate bindings s) := by
  unfold compilePredicate
  refine .ite .ok ?_
  split
  · exact .error (fault_isDue _)
  · exact .ok
  · split
    · split
      · split
        · exact (compileTest_fails _).bind fun _ => .ok
        · exact .error (fault_isDue _)
      · exact (compileTest_fails _).bind fun _ => .ok
    · exact .error (fault_isDue _)

theorem compilePredicates_fails (s : List Char) :
    FailsOnly (Refusal.IsDue bindings) (compilePredicates bindings s) := by
  fun_induction compilePredicates bindings s with
  | case1 => exact .ok
  | case2 inner inside found _ ih =>
    exact (compilePredicate_fails _).bind fun _ => ih.bind fun _ => .ok
  | case3 => exact .error (fault_isDue _)
  | case4 => exact .error (fault_isDue _)

theorem compileStep_fails (s : List Char) :
    FailsOnly (Refusal.IsDue bindings) (compileStep bindings s) := by
  simp only [compileStep]
  refine .ite (.error (fault_isDue _)) (.ite .ok (.ite .ok ?_))
  refine (compilePredicates_fails _).bind fun predicates => ?_
  have htest (axis : Axis) (test : List Char) : FailsOnly (Refusal.IsDue bindings)
      (do return (⟨axis, ← compileTest bindings (Text.trim test), predicates⟩ : Step)) :=
    (compileTest_fails _).bind fun _ => .ok
  split
  · exact htest _ _
  · split
    · split
      · exact htest _ _
      · exact .error (fault_isDue _)
    · exact htest _ _

theorem compileSteps_fails (s : List Char) :
    FailsOnly (Refusal.IsDue bindings) (compileSteps bindings s) := by
  fun_induction compileSteps bindings s with
  | case1 s _ => exact (compileStep_fails s).bind fun _ => .ok
  | case2 s before found _ ih =>
    exact (compileStep_fails before).bind fun _ => ih.bind fun _ => .ok

theorem compilePath_fails (s : List Char) :
    FailsOnly (Refusal.IsDue bindings) (compilePath bindings s) := by
  unfold compilePath
  split
  · exact .error (fault_isDue _)
  · exact .ok
  · exact .error (fault_isDue _)
  all_goals exact (compileSteps_fails _).bind fun _ => .ok

/-- What is not read is refused for a reason. -/
theorem isRefused_of_not_ok {text : String}
    (h : ∀ expression, compile bindings text ≠ .ok expression) : IsRefused bindings text := by
  have hdue : FailsOnly (Refusal.IsDue bindings)
      ((piecesTop '|' text.toList).mapM (compilePath bindings)) := .mapM compilePath_fails _
  unfold IsRefused
  unfold compile at h ⊢
  split
  · rename_i paths hpaths
    rw [hpaths] at h
    exact absurd rfl (h _)
  · rename_i qualifier hqualifier
    exact .inr ⟨qualifier, rfl, hdue _ hqualifier⟩
  · rename_i fault _
    exact .inl ⟨fault, rfl⟩

end SoapKit.Xml.Path
