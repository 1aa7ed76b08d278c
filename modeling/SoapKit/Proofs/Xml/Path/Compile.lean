import SoapKit.Proofs.Except
import SoapKit.Xml.Path.Compile

/-!
# What compiled location paths look like

An expression that is read has no position zero in it, however its predicates are nested in steps,
paths and unions (`compile_counts`).
-/

namespace SoapKit.Xml.Path

/-- Positions are counted from one. -/
def Predicate.CountsFromOne : Predicate → Prop
  | .position k => 0 < k
  | _ => True

/-- All positions in a step are counted from one. -/
def Step.CountsFromOne (step : Step) : Prop :=
  ∀ predicate ∈ step.predicates, predicate.CountsFromOne

variable {bindings : Bindings}

theorem compilePredicate_counts {s : List Char} {predicate : Predicate}
    (h : compilePredicate bindings s = .ok predicate) : predicate.CountsFromOne := by
  unfold compilePredicate at h
  split at h
  · cases h
    trivial
  · split at h
    · cases h
    · rename_i k hzero _
      cases h
      exact Nat.pos_of_ne_zero fun h0 => hzero (h0 ▸ rfl)
    · split at h
      · split at h
        · split at h
          · obtain ⟨test, -, h⟩ := bind_eq_ok.1 h
            cases h
            trivial
          · cases h
        · obtain ⟨test, -, h⟩ := bind_eq_ok.1 h
          cases h
          trivial
      · cases h

theorem compilePredicates_counts {s : List Char} {predicates : List Predicate}
    (h : compilePredicates bindings s = .ok predicates) :
    ∀ predicate ∈ predicates, predicate.CountsFromOne := by
  fun_induction compilePredicates bindings s generalizing predicates with
  | case1 =>
    cases h
    simp
  | case2 inner inside found _ ih =>
    obtain ⟨predicate, hpredicate, h⟩ := bind_eq_ok.1 h
    obtain ⟨others, hothers, h⟩ := bind_eq_ok.1 h
    cases h
    exact List.forall_mem_cons.2 ⟨compilePredicate_counts hpredicate, ih hothers⟩
  | case3 => cases h
  | case4 => cases h

theorem predicates_of_test {axis : Axis} {s : List Char} {predicates : List Predicate} {step : Step}
    (h : (do return (⟨axis, ← compileTest bindings s, predicates⟩ : Step)) = Except.ok step) :
    step.predicates = predicates := by
  obtain ⟨test, -, h⟩ := bind_eq_ok.1 h
  cases h
  rfl

theorem compileStep_counts {s : List Char} {step : Step}
    (h : compileStep bindings s = .ok step) : step.CountsFromOne := by
  simp only [compileStep] at h
  split at h
  · cases h
  · split at h
    · cases h
      simp [Step.CountsFromOne]
    · split at h
      · cases h
        simp [Step.CountsFromOne]
      · obtain ⟨predicates, hpredicates, h⟩ := bind_eq_ok.1 h
        have hsame : step.predicates = predicates := by
          split at h
          · exact predicates_of_test h
          · split at h
            · split at h
              · exact predicates_of_test h
              · cases h
            · exact predicates_of_test h
        intro predicate hmem
        exact compilePredicates_counts hpredicates predicate (hsame ▸ hmem)

theorem anywhere_counts : anywhere.CountsFromOne := by
  simp [Step.CountsFromOne, anywhere]

theorem compileSteps_counts {s : List Char} {steps : List Step}
    (h : compileSteps bindings s = .ok steps) : ∀ step ∈ steps, step.CountsFromOne := by
  fun_induction compileSteps bindings s generalizing steps with
  | case1 s _ =>
    obtain ⟨step, hstep, h⟩ := bind_eq_ok.1 h
    cases h
    simpa using compileStep_counts hstep
  | case2 s before found _ ih =>
    obtain ⟨step, hstep, h⟩ := bind_eq_ok.1 h
    obtain ⟨others, hothers, h⟩ := bind_eq_ok.1 h
    have hfirst := compileStep_counts hstep
    cases h
    split
    · exact List.forall_mem_cons.2
        ⟨hfirst, List.forall_mem_cons.2 ⟨anywhere_counts, ih hothers⟩⟩
    · exact List.forall_mem_cons.2 ⟨hfirst, ih hothers⟩

theorem compilePath_counts {s : List Char} {path : LocationPath}
    (h : compilePath bindings s = .ok path) : ∀ step ∈ path.steps, step.CountsFromOne := by
  unfold compilePath at h
  split at h
  · cases h
  · cases h
    simp
  · cases h
  · obtain ⟨steps, hsteps, h⟩ := bind_eq_ok.1 h
    cases h
    exact List.forall_mem_cons.2 ⟨anywhere_counts, compileSteps_counts hsteps⟩
  · obtain ⟨steps, hsteps, h⟩ := bind_eq_ok.1 h
    cases h
    exact compileSteps_counts hsteps
  · obtain ⟨steps, hsteps, h⟩ := bind_eq_ok.1 h
    cases h
    exact compileSteps_counts hsteps

/-- No compiled expression asks for the node at position zero. -/
theorem compile_counts {text : String} {expression : Expression}
    (h : compile bindings text = .ok expression) :
    ∀ path ∈ expression.paths, ∀ step ∈ path.steps, step.CountsFromOne := by
  unfold compile at h
  split at h
  · rename_i paths hpaths
    cases h
    intro path hpath
    obtain ⟨s, -, hs⟩ := exists_mem_of_forall₂ (mapM_eq_ok_iff.1 hpaths) hpath
    exact compilePath_counts hs
  · cases h
  · cases h

end SoapKit.Xml.Path
