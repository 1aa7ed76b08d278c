import SoapKit.Proofs.Xml.Path.Refusals
import SoapKit.Proofs.Xml.Path.Scanning

/-!
# Comparisons with attributes

Every predicate of an expression is read from the text in one pair of outermost brackets, whatever
separators, quotes and brackets stand around these (`compile_texts`).

A comparison with an attribute is cut at its first equals sign, and what the attribute is compared
with stands between the quotes at both ends of the rest (`compile_comparisons`). Nothing looks for
more quotes in between, though a reader that looks for the closing bracket minds them. So two
comparisons with a word between them pass as one, with a text that is no literal
(`conjunction_is_one_comparison`).
-/

namespace SoapKit.Xml.Path

open Standing

variable {bindings : Bindings} {s t front inner inside rest : List Char}

/-! ## The texts of predicates -/

/-- What stands between the outermost brackets of a text, from left to right. -/
def predicateTexts (s : List Char) : List (List Char) :=
  match _h : splitTop '[' 0 none s with
  | none => []
  | some (_, found) =>
    match _h' : splitTop ']' 0 none (found.drop 1) with
    | none => []
    | some (inside, found) => inside :: predicateTexts (found.drop 1)
termination_by s.length
decreasing_by
  have hfound := splitTop_length _h
  have hpos := List.length_pos_iff.2 hfound.2
  have hrest := splitTop_length _h'
  simp only [List.length_drop] at *
  omega

theorem predicateTexts_of_none (h : outside.split '[' s = none) : predicateTexts s = [] := by
  rw [predicateTexts]
  split
  · rfl
  · rename_i hsplit
    cases hsplit.symm.trans h

theorem predicateTexts_of_unclosed (h : outside.split '[' s = some (front, '[' :: inner))
    (hinner : outside.split ']' inner = none) : predicateTexts s = [] := by
  rw [predicateTexts]
  split
  · rfl
  · rename_i hsplit
    cases hsplit.symm.trans h
    split
    · rfl
    · rename_i hsplit
      cases hsplit.symm.trans hinner

theorem predicateTexts_of_some (h : outside.split '[' s = some (front, '[' :: inner))
    (hinner : outside.split ']' inner = some (inside, ']' :: rest)) :
    predicateTexts s = inside :: predicateTexts rest := by
  rw [predicateTexts]
  split
  · rename_i hsplit
    cases hsplit.symm.trans h
  · rename_i hsplit
    cases hsplit.symm.trans h
    split
    · rename_i hsplit
      cases hsplit.symm.trans hinner
    · rename_i hsplit
      cases hsplit.symm.trans hinner
      rfl

theorem predicateTexts_of_plain (h : ∀ c ∈ s, IsPlain c) : predicateTexts s = [] :=
  predicateTexts_of_none (split_of_not_mem fun hmem => h '[' hmem (by simp))

/-- In a neutral text every bracket is closed. -/
theorem Neutral.closes (hs : Neutral s) (h : outside.split '[' s = some (front, '[' :: inner)) :
    ∃ inside rest, outside.split ']' inner = some (inside, ']' :: rest) ∧ Neutral rest := by
  obtain ⟨rest, heq, rfl, hfront, -⟩ := split_eq_some h
  have hfront : Neutral front := hfront
  have hbrackets : Neutral ('[' :: inner) := hfront.append_iff.1 hs
  cases hinner : outside.split ']' inner with
  | none =>
    have hdeeper : (outside.next '[').after inner = (outside.after inner).deeper :=
      after_deeper hinner
    have hdepth := congrArg depth (hdeeper.symm.trans hbrackets)
    cases hdepth
  | some parts =>
    obtain ⟨inside, found⟩ := parts
    obtain ⟨rest, rfl, rfl, -, -⟩ := split_eq_some hinner
    have hinside : Neutral ('[' :: inside ++ [']']) := after_brackets hinner
    refine ⟨inside, rest, rfl, hinside.append_iff.1 ?_⟩
    simpa using hbrackets

theorem predicateTexts_append_of_none (hs : Neutral s) (h : outside.split '[' s = none) :
    predicateTexts (s ++ t) = predicateTexts t := by
  have hsplit := split_append_of_none (t := t) h
  rw [show outside.after s = outside from hs] at hsplit
  cases ht : outside.split '[' t with
  | none =>
    rw [ht] at hsplit
    rw [predicateTexts_of_none hsplit, predicateTexts_of_none ht]
  | some parts =>
    obtain ⟨front, found⟩ := parts
    obtain ⟨inner, rfl, -, -, -⟩ := split_eq_some ht
    rw [ht] at hsplit
    cases hinner : outside.split ']' inner with
    | none => rw [predicateTexts_of_unclosed hsplit hinner, predicateTexts_of_unclosed ht hinner]
    | some parts =>
      obtain ⟨inside, found⟩ := parts
      obtain ⟨rest, rfl, -, -, -⟩ := split_eq_some hinner
      rw [predicateTexts_of_some hsplit hinner, predicateTexts_of_some ht hinner]

/-- Behind the predicates of a neutral text come those of what is behind it. -/
theorem predicateTexts_append (hs : Neutral s) :
    predicateTexts (s ++ t) = predicateTexts s ++ predicateTexts t := by
  fun_induction predicateTexts s with
  | case1 s hnone => exact predicateTexts_append_of_none hs hnone
  | case2 s front found hsplit hinner =>
    obtain ⟨inner, rfl, -⟩ := split_eq_some (p := outside) hsplit
    obtain ⟨inside, rest, hclosed, -⟩ := hs.closes hsplit
    cases hclosed.symm.trans hinner
  | case3 s front found hsplit inside found' hinner ih =>
    obtain ⟨inner, rfl, -⟩ := split_eq_some (p := outside) hsplit
    obtain ⟨inside', rest, hclosed, hrest⟩ := hs.closes hsplit
    cases hclosed.symm.trans hinner
    have hsplit' : outside.split '[' (s ++ t) = some (front, '[' :: (inner ++ t)) :=
      split_append_of_some (p := outside) hsplit
    have hclosed' : outside.split ']' (inner ++ t) = some (inside, ']' :: (rest ++ t)) :=
      split_append_of_some hclosed
    rw [predicateTexts_of_some hsplit' hclosed', List.cons_append]
    exact congrArg _ (ih hrest)

theorem predicateTexts_append_of_plain (hs : ∀ c ∈ s, IsPlain c) :
    predicateTexts (s ++ t) = predicateTexts t := by
  rw [predicateTexts_append (neutral_of_plain hs), predicateTexts_of_plain hs, List.nil_append]

theorem predicateTexts_trimStart (s : List Char) :
    predicateTexts (Text.trimStart s) = predicateTexts s := by
  have hsplit : s.takeWhile Text.isBlank ++ Text.trimStart s = s := List.takeWhile_append_dropWhile
  conv_rhs => rw [← hsplit]
  exact (predicateTexts_append_of_plain fun c hc =>
    isPlain_of_isBlank (List.mem_takeWhile_imp hc)).symm

theorem predicateTexts_trim (h : Neutral (Text.trim s)) :
    predicateTexts (Text.trim s) = predicateTexts s := by
  obtain ⟨lead, trail, hlead, htrail, heq⟩ := Text.padded_trim s
  have htrail : predicateTexts trail = [] :=
    predicateTexts_of_plain fun c hc => isPlain_of_isBlank (htrail c hc)
  calc predicateTexts (Text.trim s) = predicateTexts (Text.trim s ++ trail) := by
        rw [predicateTexts_append h, htrail, List.append_nil]
    _ = predicateTexts (lead ++ (Text.trim s ++ trail)) :=
        (predicateTexts_append_of_plain fun c hc => isPlain_of_isBlank (hlead c hc)).symm
    _ = predicateTexts s := by rw [← List.append_assoc, ← heq]

theorem predicateTexts_piecesTop (h : ∀ piece ∈ piecesTop '|' s, Neutral piece) :
    predicateTexts s = (piecesTop '|' s).flatMap predicateTexts := by
  fun_induction piecesTop '|' s with
  | case1 s before found hsplit ih =>
    rw [List.forall_mem_cons] at h
    obtain ⟨rest, rfl, rfl, -, -⟩ := split_eq_some (p := outside) hsplit
    have hbar : predicateTexts ('|' :: rest) = predicateTexts rest :=
      predicateTexts_append_of_plain (s := ['|']) (forall_isPlain_of_all (by decide))
    rw [predicateTexts_append h.1, hbar, List.flatMap_cons]
    exact congrArg _ (ih h.2)
  | case2 s _ => simp

/-! ## What is read is what stands there -/

/-- A predicate is read from the text between brackets. -/
def ReadFrom (bindings : Bindings) (inside : List Char) (predicate : Predicate) : Prop :=
  compilePredicate bindings (Text.trim inside) = .ok predicate

theorem compilePredicates_texts {predicates : List Predicate}
    (h : compilePredicates bindings s = .ok predicates) :
    List.Forall₂ (ReadFrom bindings) (predicateTexts s) predicates := by
  fun_induction compilePredicates bindings s generalizing predicates with
  | case1 =>
    cases h
    rw [predicateTexts_of_none split_nil]
    exact .nil
  | case2 inner inside found hsplit ih =>
    obtain ⟨predicate, hpredicate, h⟩ := bind_eq_ok.1 h
    obtain ⟨others, hothers, h⟩ := bind_eq_ok.1 h
    cases h
    obtain ⟨rest, rfl, -, -, -⟩ := split_eq_some (p := outside) hsplit
    have hbracket : outside.split '[' ('[' :: inner) = some ([], '[' :: inner) :=
      split_mark neutral_nil split_nil
    rw [predicateTexts_of_some hbracket hsplit, ← predicateTexts_trimStart]
    exact .cons hpredicate (ih hothers)
  | case3 => cases h
  | case4 => cases h

theorem compileStep_texts {step : Step} (h : compileStep bindings s = .ok step) :
    List.Forall₂ (ReadFrom bindings) (predicateTexts s) step.predicates := by
  have hneutral : Neutral (Text.trim s) :=
    compileStep_neutral ((compileStep_congr (Text.trim_trim s)).trans h)
  obtain ⟨head, brackets, htrim, hhead, hpredicates⟩ := compileStep_cases h
  rw [← predicateTexts_trim hneutral, htrim, predicateTexts_append (neutral_of_plain hhead),
    predicateTexts_of_plain hhead]
  exact compilePredicates_texts hpredicates

theorem compileSteps_texts {steps : List Step} (h : compileSteps bindings s = .ok steps) :
    List.Forall₂ (ReadFrom bindings) (predicateTexts s) (steps.flatMap (·.predicates)) := by
  fun_induction compileSteps bindings s generalizing steps with
  | case1 s _ =>
    obtain ⟨step, hstep, h⟩ := bind_eq_ok.1 h
    cases h
    simpa using compileStep_texts hstep
  | case2 s before found hsplit ih =>
    obtain ⟨step, hstep, h⟩ := bind_eq_ok.1 h
    obtain ⟨others, hothers, h⟩ := bind_eq_ok.1 h
    obtain ⟨rest, rfl, rfl, -, -⟩ := split_eq_some (p := outside) hsplit
    obtain ⟨separator, hseparator, heq⟩ := exists_dropSeparator rest
    have hpredicates : steps.flatMap (·.predicates) =
        step.predicates ++ others.flatMap (·.predicates) := by
      cases h
      split <;> simp [anywhere]
    rw [hpredicates, predicateTexts_append (compileStep_neutral hstep), heq,
      predicateTexts_append_of_plain hseparator]
    exact List.rel_append (compileStep_texts hstep) (ih hothers)

theorem Lead.predicates {lead : List Char} {absolute : Bool} {first : List Step}
    (h : Lead lead absolute first) : first.flatMap (·.predicates) = [] := by
  cases h <;> rfl

theorem compilePath_texts {path : LocationPath} (h : compilePath bindings s = .ok path) :
    List.Forall₂ (ReadFrom bindings) (predicateTexts s) (path.steps.flatMap (·.predicates)) := by
  rw [← predicateTexts_trim (neutral_trim_of_compilePath h)]
  obtain ⟨htrim, rfl⟩ | ⟨lead, absolute, first, rest, steps, hlead, htrim, hsteps, rfl⟩ :=
    compilePath_eq_ok_iff.1 h
  · rw [htrim, predicateTexts_of_plain (forall_isPlain_of_all (by decide))]
    exact .nil
  · rw [htrim, predicateTexts_append_of_plain hlead.plain, List.flatMap_append, hlead.predicates,
      List.nil_append]
    exact compileSteps_texts hsteps

/-- The predicates of an expression. -/
def Expression.predicates (expression : Expression) : List Predicate :=
  expression.paths.flatMap fun path => path.steps.flatMap (·.predicates)

/-- The predicates of an expression are read from the texts in its brackets, one from each. -/
theorem compile_texts {text : String} {expression : Expression}
    (h : compile bindings text = .ok expression) :
    List.Forall₂ (ReadFrom bindings) (predicateTexts text.toList) expression.predicates := by
  rw [predicateTexts_piecesTop (neutral_of_mem_pieces h)]
  exact List.rel_flatMap (compile_eq_ok_iff.1 h) fun _ _ => compilePath_texts

/-! ## Literals -/

/-- A text is other text between two quotes of one kind. -/
def Quoted (quote : Char) (data value : List Char) : Prop :=
  quote ∈ ['\'', '"'] ∧ value = quote :: data ++ [quote]

/-- A text is a literal: it has its quote at both ends and not in between. -/
def IsLiteral (value : List Char) : Prop :=
  ∃ quote data, Quoted quote data value ∧ quote ∉ data

variable {quote : Char} {data value : List Char}

theorem Quoted.isLiteral_iff (h : Quoted quote data value) : IsLiteral value ↔ quote ∉ data := by
  refine ⟨?_, fun hdata => ⟨quote, data, h, hdata⟩⟩
  rintro ⟨quote', data', h', hdata'⟩
  have heq : quote :: (data ++ [quote]) = quote' :: (data' ++ [quote']) := h.2.symm.trans h'.2
  obtain ⟨rfl, htail⟩ := List.cons.inj heq
  rw [List.append_cancel_right htail]
  exact hdata'

theorem between_eq_some_iff :
    between quote value = some data ↔ value = quote :: data ++ [quote] := by
  cases value with
  | nil => simp [between]
  | cons first rest =>
    simp only [between, Option.ite_none_right_eq_some, Option.some.injEq, List.cons_append,
      List.cons.injEq]
    constructor
    · rintro ⟨⟨rfl, hlast⟩, rfl⟩
      exact ⟨rfl, (List.dropLast_append_getLast? first hlast).symm⟩
    · rintro ⟨rfl, rfl⟩
      simp

theorem quoted_of_literal? (h : literal? value = some data) : ∃ quote, Quoted quote data value := by
  rcases Option.or_eq_some_iff.1 h with h | ⟨-, h⟩
  · exact ⟨_, by simp, between_eq_some_iff.1 h⟩
  · exact ⟨_, by simp, between_eq_some_iff.1 h⟩

/-! ## Predicates about attributes -/

/-- A text demands an attribute. -/
def Demands (bindings : Bindings) (s : List Char) (test : NodeTest) : Prop :=
  ∃ name, s = '@' :: name ∧ '=' ∉ name ∧ compileTest bindings (Text.trim name) = .ok test

/-- A text compares an attribute with a value, which has any blanks around it. -/
def Compares (bindings : Bindings) (s : List Char) (test : NodeTest) (value : List Char) : Prop :=
  ∃ name padded, s = '@' :: name ++ '=' :: padded ∧ '=' ∉ name ∧
    compileTest bindings (Text.trim name) = .ok test ∧ Text.trim padded = value

variable {test test' : NodeTest} {value' : List Char}

theorem Compares.head? (h : Compares bindings s test value) : s.head? = some '@' := by
  obtain ⟨name, padded, rfl, -⟩ := h
  rfl

/-- An equals sign makes the difference. -/
theorem Compares.not_demands (h : Compares bindings s test value) : ¬ Demands bindings s test' := by
  obtain ⟨name, padded, rfl, -⟩ := h
  rintro ⟨name', heq, hname', -⟩
  obtain rfl : name ++ '=' :: padded = name' := List.cons.inj heq |>.2
  simp at hname'

theorem Compares.value_eq (h : Compares bindings s test value)
    (h' : Compares bindings s test' value') : value = value' := by
  obtain ⟨name, padded, rfl, hname, -, rfl⟩ := h
  obtain ⟨name', padded', heq, hname', -, rfl⟩ := h'
  have hsplit := Text.splitOnce_append padded hname
  rw [show name ++ '=' :: padded = name' ++ '=' :: padded' from (List.cons.inj heq).2,
    Text.splitOnce_append padded' hname'] at hsplit
  cases hsplit
  rfl

/-- What is written where a predicate is read. -/
def IsWritten (bindings : Bindings) (s : List Char) : Predicate → Prop
  | .attributeEquals test data =>
    ∃ quote value, Compares bindings s test value ∧ Quoted quote data.toList value
  | .hasAttribute test => Demands bindings s test
  | _ => s.head? ≠ some '@'

theorem compilePredicate_isWritten {predicate : Predicate}
    (h : compilePredicate bindings s = .ok predicate) : IsWritten bindings s predicate := by
  unfold compilePredicate at h
  split at h
  · rename_i hlast
    cases h
    rw [hlast]
    simp [IsWritten]
  · split at h
    · cases h
    · rename_i n _ hn
      cases h
      cases s with
      | nil => simp [IsWritten]
      | cons c rest =>
        rintro hat
        obtain rfl : c = '@' := by simpa using hat
        cases hn
    · split at h
      · rename_i attr _ _
        split at h
        · rename_i name padded hsplit
          obtain ⟨rfl, hname⟩ := Text.splitOnce_eq_some hsplit
          split at h
          · rename_i data hdata
            obtain ⟨test, htest, h⟩ := bind_eq_ok.1 h
            cases h
            obtain ⟨quote, hquoted⟩ := quoted_of_literal? hdata
            rw [← String.toList_ofList (l := data)] at hquoted
            exact ⟨quote, _, ⟨name, padded, rfl, hname, htest, rfl⟩, hquoted⟩
          · cases h
        · rename_i hsplit
          obtain ⟨test, htest, h⟩ := bind_eq_ok.1 h
          cases h
          exact ⟨attr, rfl, Text.not_mem_of_splitOnce hsplit, htest⟩
      · cases h

/-- A predicate about an attribute is either a test alone or a comparison with what stands between
quotes. -/
theorem IsWritten.cases {predicate : Predicate} (h : IsWritten bindings s predicate)
    (hat : s.head? = some '@') : (∃ test, Demands bindings s test) ∨
      ∃ test value quote data, Compares bindings s test value ∧ Quoted quote data value := by
  cases predicate with
  | position n => exact absurd hat h
  | last => exact absurd hat h
  | hasAttribute test => exact .inl ⟨test, h⟩
  | attributeEquals test data =>
    obtain ⟨quote, value, hcompares, hquoted⟩ := h
    exact .inr ⟨test, value, quote, data.toList, hcompares, hquoted⟩

/-- Predicates are read from what stands in brackets. What an attribute is compared with stands
between two quotes of one kind, and it is a literal unless the quote stands in between as well. What
begins as a predicate about an attribute and is of no such form is refused. -/
theorem compile_comparisons (bindings : Bindings) (text : String) :
    (∀ expression, compile bindings text = .ok expression →
      List.Forall₂ (fun inside predicate => IsWritten bindings (Text.trim inside) predicate)
        (predicateTexts text.toList) expression.predicates ∧
      ∀ inside ∈ predicateTexts text.toList, ∀ test value,
        Compares bindings (Text.trim inside) test value →
        ∃ quote data, Quoted quote data value ∧ (IsLiteral value ↔ quote ∉ data)) ∧
    ∀ inside ∈ predicateTexts text.toList, (Text.trim inside).head? = some '@' →
      (∀ test, ¬ Demands bindings (Text.trim inside) test) →
      (∀ test value quote data, Compares bindings (Text.trim inside) test value →
        ¬ Quoted quote data value) →
      IsRefused bindings text := by
  have hwritten {expression : Expression} (h : compile bindings text = .ok expression) :
      ∀ inside ∈ predicateTexts text.toList,
        ∃ predicate, IsWritten bindings (Text.trim inside) predicate := by
    intro inside hinside
    obtain ⟨predicate, -, hpredicate⟩ := exists_mem_of_forall₂ (compile_texts h).flip hinside
    exact ⟨predicate, compilePredicate_isWritten hpredicate⟩
  constructor
  · intro expression h
    refine ⟨(compile_texts h).imp fun _ _ => compilePredicate_isWritten, ?_⟩
    intro inside hinside test value hcompares
    obtain ⟨predicate, hpredicate⟩ := hwritten h inside hinside
    obtain ⟨test', hdemands⟩ | ⟨test', value', quote, data, hcompares', hquoted⟩ :=
      hpredicate.cases hcompares.head?
    · exact absurd hdemands hcompares.not_demands
    · obtain rfl := hcompares.value_eq hcompares'
      exact ⟨quote, data, hquoted, hquoted.isLiteral_iff⟩
  · intro inside hinside hat hdemands hcompares
    refine isRefused_of_not_ok fun expression h => ?_
    obtain ⟨predicate, hpredicate⟩ := hwritten h inside hinside
    obtain ⟨test, htest⟩ | ⟨test, value, quote, data, hcompare, hquoted⟩ := hpredicate.cases hat
    · exact hdemands test htest
    · exact hcompares test value quote data hcompare hquoted

/-- One literal and a bare word. -/
theorem comparisons_of_literal_and_word :
    (∃ expression, compile [] "a[@x = '1']" = .ok expression ∧
      List.Forall₂ (fun inside predicate => IsWritten [] (Text.trim inside) predicate)
        (predicateTexts "a[@x = '1']".toList) expression.predicates ∧
      ∃ quote data, Quoted quote data "'1'".toList ∧ (IsLiteral "'1'".toList ↔ quote ∉ data)) ∧
    IsRefused [] "a[@x = 1]" := by
  have hread : compile [] "a[@x = '1']" = .ok ⟨[⟨false, [⟨.child, .name none "a",
      [.attributeEquals (.name none "x") "1"]⟩]⟩]⟩ := by decide +kernel
  have hcompares : Compares [] (Text.trim "@x = '1'".toList) (.name none "x") "'1'".toList :=
    ⟨['x', ' '], [' ', '\'', '1', '\''], by decide +kernel, by decide, by decide +kernel,
      by decide +kernel⟩
  have hword : Compares [] (Text.trim "@x = 1".toList) (.name none "x") ['1'] :=
    ⟨['x', ' '], [' ', '1'], by decide +kernel, by decide, by decide +kernel, by decide +kernel⟩
  have hquoted : ∀ quote data, ¬ Quoted quote data ['1'] := by
    rintro quote data ⟨-, heq⟩
    have := congrArg List.length heq
    simp at this
  obtain ⟨hwritten, hliteral⟩ := (compile_comparisons [] "a[@x = '1']").1 _ hread
  refine ⟨⟨_, hread, hwritten, hliteral _ (by decide +kernel) _ _ hcompares⟩, ?_⟩
  refine (compile_comparisons [] "a[@x = 1]").2 "@x = 1".toList (by decide +kernel)
    (by decide +kernel) (fun test => hword.not_demands) fun test value quote data h => ?_
  rw [← hword.value_eq h]
  exact hquoted quote data

/-- Two comparisons in one predicate are read as one with a text that is no literal. -/
theorem conjunction_is_one_comparison :
    compile [] "a[@x='1' and @y='2']" = .ok ⟨[⟨false, [⟨.child, .name none "a",
      [.attributeEquals (.name none "x") "1' and @y='2"]⟩]⟩]⟩ ∧
    predicateTexts "a[@x='1' and @y='2']".toList = ["@x='1' and @y='2'".toList] ∧
    Compares [] "@x='1' and @y='2'".toList (.name none "x") "'1' and @y='2'".toList ∧
    ¬ IsLiteral "'1' and @y='2'".toList := by
  refine ⟨by decide +kernel, by decide +kernel, ?_, ?_⟩
  · exact ⟨['x'], "'1' and @y='2'".toList, by decide +kernel, by decide, by decide +kernel,
      by decide +kernel⟩
  · have hquoted : Quoted '\'' "1' and @y='2".toList "'1' and @y='2'".toList :=
      ⟨by simp, by decide +kernel⟩
    rw [hquoted.isLiteral_iff]
    decide +kernel

end SoapKit.Xml.Path
