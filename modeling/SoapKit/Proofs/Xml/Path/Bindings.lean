import SoapKit.Proofs.Except
import SoapKit.Xml.Path.Compile

/-!
# Expressions under more bindings

An expression that can be read under some bindings is read as the same expression under others that
extend these (`compile_extends`). So what stands in front of the bindings of an expression does not
matter when these are all that it needs.
-/

namespace SoapKit.Xml.Path

/-- Bindings give every qualifier a namespace that others give it. -/
def Bindings.Extends (more fewer : Bindings) : Prop :=
  ∀ qualifier uri, fewer.resolve qualifier = .ok uri → more.resolve qualifier = .ok uri

/-- Later bindings count, so earlier ones can be put in front. -/
theorem Bindings.extends_append (earlier later : Bindings) :
    Bindings.Extends (earlier ++ later) later := by
  intro qualifier uri h
  unfold Bindings.resolve at h ⊢
  rw [List.reverse_append, List.find?_append]
  cases hfound : later.reverse.find? (·.1.toList == qualifier) with
  | none =>
    rw [hfound] at h
    cases h
  | some entry =>
    rw [hfound] at h
    exact h

variable {more fewer : Bindings}

theorem compileTest_extends (hmore : more.Extends fewer) (s : List Char) :
    Extends (compileTest more s) (compileTest fewer s) := by
  unfold compileTest
  refine .ite .rfl (.ite .rfl (.ite .rfl ?_))
  cases Text.splitOnce ':' s with
  | none => exact .rfl
  | some parts =>
    refine .ite .rfl (.ite ?_ (.ite ?_ .rfl))
    · exact .bind (hmore parts.1) fun _ => .rfl
    · exact .bind (hmore parts.1) fun _ => .rfl

theorem compilePredicate_extends (hmore : more.Extends fewer) (s : List Char) :
    Extends (compilePredicate more s) (compilePredicate fewer s) := by
  unfold compilePredicate
  refine .ite .rfl ?_
  split
  · exact .rfl
  · exact .rfl
  · split
    · split
      · split
        · exact .bind (compileTest_extends hmore _) fun _ => .rfl
        · exact .rfl
      · exact .bind (compileTest_extends hmore _) fun _ => .rfl
    · exact .rfl

theorem compilePredicates_extends (hmore : more.Extends fewer) (s : List Char) :
    Extends (compilePredicates more s) (compilePredicates fewer s) := by
  fun_induction compilePredicates fewer s with
  | case1 =>
    rw [compilePredicates]
    exact .rfl
  | case2 inner inside found hsplit ih =>
    rw [compilePredicates]
    split
    · rename_i hsplit'
      rw [hsplit] at hsplit'
      cases hsplit'
      exact .bind (compilePredicate_extends hmore _) fun _ => .bind ih fun _ => .rfl
    · rename_i hnone
      rw [hsplit] at hnone
      cases hnone
  | case3 => exact .error
  | case4 => exact .error

theorem compileStep_extends (hmore : more.Extends fewer) (s : List Char) :
    Extends (compileStep more s) (compileStep fewer s) := by
  simp only [compileStep]
  refine .ite .rfl (.ite .rfl (.ite .rfl ?_))
  refine .bind (compilePredicates_extends hmore _) fun predicates => ?_
  have htest (axis : Axis) (test : List Char) : Extends
      (do return (⟨axis, ← compileTest more (Text.trim test), predicates⟩ : Step))
      (do return (⟨axis, ← compileTest fewer (Text.trim test), predicates⟩ : Step)) :=
    .bind (compileTest_extends hmore _) fun _ => .rfl
  split
  · exact htest _ _
  · split
    · split
      · exact htest _ _
      · exact .rfl
    · exact htest _ _

theorem compileSteps_extends (hmore : more.Extends fewer) (s : List Char) :
    Extends (compileSteps more s) (compileSteps fewer s) := by
  fun_induction compileSteps fewer s with
  | case1 s hsplit =>
    rw [compileSteps]
    split
    · exact .bind (compileStep_extends hmore _) fun _ => .rfl
    · rename_i hsome
      rw [hsplit] at hsome
      cases hsome
  | case2 s before found hsplit ih =>
    rw [compileSteps]
    split
    · rename_i hnone
      rw [hsplit] at hnone
      cases hnone
    · rename_i hsome
      rw [hsplit] at hsome
      cases hsome
      exact .bind (compileStep_extends hmore _) fun _ => .bind ih fun _ => .rfl

theorem compilePath_extends (hmore : more.Extends fewer) (s : List Char) :
    Extends (compilePath more s) (compilePath fewer s) := by
  unfold compilePath
  split
  · exact .rfl
  · exact .rfl
  · exact .rfl
  all_goals exact .bind (compileSteps_extends hmore _) fun _ => .rfl

/-- More bindings do not change what an expression is read as. -/
theorem compile_extends (hmore : more.Extends fewer) (text : String) :
    Extends (compile more text) (compile fewer text) := by
  intro expression h
  unfold compile at h ⊢
  split at h
  · rename_i paths hpaths
    rw [Extends.mapM (compilePath_extends hmore) _ _ hpaths]
    exact h
  · cases h
  · cases h

end SoapKit.Xml.Path
