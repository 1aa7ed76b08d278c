import SoapKit.Decimal.Integer
import SoapKit.Text.Alphanumeric
import SoapKit.Text.Blank
import SoapKit.Xml.Path

/-!
# Reading location paths

Separators count only outside of brackets and quotes. Qualifiers are resolved while an expression is
read, so an unknown one is a fault even if nothing would be selected; of two bindings of a
qualifier the later one counts. Of two faults the one further to the left is reported, where a
step's predicates are looked at before its name.
-/

namespace SoapKit.Xml.Path

/-- What is wrong with the form of an expression. -/
inductive Fault where
  | emptyPath
  | trailingSeparator
  | emptyStep
  | unsupportedAxis
  | invalidTest
  | textAfterPredicate
  | unclosedPredicate
  | positionZero
  | unsupportedPredicate
  | unquotedLiteral
  deriving Repr, DecidableEq

def Fault.reason : Fault → String
  | .emptyPath => "empty location path"
  | .trailingSeparator => "location path ends with a separator"
  | .emptyStep => "empty step"
  | .unsupportedAxis => "unsupported axis"
  | .invalidTest => "invalid node test"
  | .textAfterPredicate => "unexpected text after predicate"
  | .unclosedPredicate => "unclosed predicate"
  | .positionZero => "positions start at 1"
  | .unsupportedPredicate => "unsupported predicate"
  | .unquotedLiteral => "attribute comparison needs a quoted literal"

/-- Why an expression is refused. -/
inductive QueryError where
  | undefined (qualifier : String)
  | syntactic (expression : String) (fault : Fault)
  deriving Repr, DecidableEq

def QueryError.message : QueryError → String
  | .undefined qualifier => "Undefined prefix '" ++ qualifier ++ "' in XPath expression"
  | .syntactic expression fault =>
    "Invalid XPath expression '" ++ expression ++ "': " ++ fault.reason

/-- Why a part of an expression is refused. -/
inductive Refusal where
  | undefined (qualifier : String)
  | fault (fault : Fault)
  deriving Repr, DecidableEq

/-- Bindings of qualifiers to namespaces, the later ones over the earlier. -/
abbrev Bindings := List (String × String)

/-! ## Separators outside of brackets and quotes -/

/-- The pieces before and from the first `mark` that stands outside of brackets and quotes, inside
of `depth` brackets and of a quote if one is open. -/
def splitTop (mark : Char) : Nat → Option Char → List Char → Option (List Char × List Char)
  | _, _, [] => none
  | depth, some quote, c :: rest =>
    (splitTop mark depth (if c = quote then none else some quote) rest).map
      fun (before, found) => (c :: before, found)
  | depth, none, c :: rest =>
    if c = mark ∧ depth = 0 then some ([], c :: rest)
    else
      let quote := if c = '\'' ∨ c = '"' then some c else none
      let depth := if c = '[' then depth + 1 else if c = ']' then depth - 1 else depth
      (splitTop mark depth quote rest).map fun (before, found) => (c :: before, found)

theorem splitTop_length {mark : Char} {depth : Nat} {quote : Option Char}
    {s before found : List Char} (h : splitTop mark depth quote s = some (before, found)) :
    before.length + found.length = s.length ∧ found ≠ [] := by
  induction s generalizing depth quote before with
  | nil => cases quote <;> simp [splitTop] at h
  | cons c rest ih =>
    cases quote with
    | some q =>
      simp only [splitTop, Option.map_eq_some_iff] at h
      obtain ⟨⟨b, f⟩, hbf, heq⟩ := h
      simp only [Prod.mk.injEq] at heq
      obtain ⟨rfl, rfl⟩ := heq
      have := ih hbf
      simp only [List.length_cons]
      exact ⟨by omega, this.2⟩
    | none =>
      simp only [splitTop] at h
      split at h
      · simp only [Option.some.injEq, Prod.mk.injEq] at h
        simp [← h.1, ← h.2]
      · simp only [Option.map_eq_some_iff] at h
        obtain ⟨⟨b, f⟩, hbf, heq⟩ := h
        simp only [Prod.mk.injEq] at heq
        obtain ⟨rfl, rfl⟩ := heq
        have := ih hbf
        simp only [List.length_cons]
        exact ⟨by omega, this.2⟩

/-- The pieces of a text between the marks outside of brackets and quotes. -/
def piecesTop (mark : Char) (s : List Char) : List (List Char) :=
  match _h : splitTop mark 0 none s with
  | some (before, found) => before :: piecesTop mark (found.drop 1)
  | none => [s]
termination_by s.length
decreasing_by
  have := splitTop_length _h
  have hpos : 0 < found.length := List.length_pos_iff.2 this.2
  simp only [List.length_drop]
  omega

/-! ## Tests and predicates -/

/-- A name in an expression: letters, numerals, hyphens, points and underscores. -/
def isValidName (s : List Char) : Bool :=
  !s.isEmpty && s.all fun c => Text.isAlphanumeric c || c == '_' || c == '-' || c == '.'

/-- The namespace bound to a qualifier. -/
def Bindings.resolve (bindings : Bindings) (qualifier : List Char) : Except Refusal String :=
  match bindings.reverse.find? (·.1.toList == qualifier) with
  | some (_, uri) => .ok uri
  | none => .error (.undefined (String.ofList qualifier))

def compileTest (bindings : Bindings) (s : List Char) : Except Refusal NodeTest :=
  if s = "text()".toList then .ok .text
  else if s = "node()".toList then .ok .node
  else if s = ['*'] then .ok (.anyName none)
  else match Text.splitOnce ':' s with
    | some (qualifier, base) =>
      if !isValidName qualifier then .error (.fault .invalidTest)
      else if base = ['*'] then return .anyName (some (← bindings.resolve qualifier))
      else if isValidName base then
        return .name (some (← bindings.resolve qualifier)) (String.ofList base)
      else .error (.fault .invalidTest)
    | none =>
      if isValidName s then .ok (.name none (String.ofList s)) else .error (.fault .invalidTest)

/-- The text between two quotes of the given kind that enclose it. -/
def between (quote : Char) (s : List Char) : Option (List Char) :=
  match s with
  | first :: rest => if first = quote ∧ rest.getLast? = some quote then some rest.dropLast else none
  | [] => none

/-- The text of a quoted literal. -/
def literal? (s : List Char) : Option (List Char) :=
  (between '\'' s).or (between '"' s)

/-- Reads what stands between the brackets of a predicate. -/
def compilePredicate (bindings : Bindings) (s : List Char) : Except Refusal Predicate :=
  if s = "last()".toList then .ok .last
  else match Decimal.unsigned? Decimal.digit? 10 Decimal.maxWord s with
    | some 0 => .error (.fault .positionZero)
    | some n => .ok (.position n)
    | none =>
      match s with
      | '@' :: attr =>
        match Text.splitOnce '=' attr with
        | some (name, value) =>
          match literal? (Text.trim value) with
          | some data =>
            return .attributeEquals (← compileTest bindings (Text.trim name)) (String.ofList data)
          | none => .error (.fault .unquotedLiteral)
        | none => return .hasAttribute (← compileTest bindings (Text.trim attr))
      | _ => .error (.fault .unsupportedPredicate)

theorem length_trimStart_le (s : List Char) : (Text.trimStart s).length ≤ s.length :=
  List.IsSuffix.length_le (List.dropWhile_suffix Text.isBlank)

/-- Reads predicates in brackets one after the other. -/
def compilePredicates (bindings : Bindings) (s : List Char) : Except Refusal (List Predicate) :=
  match s with
  | [] => .ok []
  | '[' :: inner =>
    match _h : splitTop ']' 0 none inner with
    | some (inside, found) => do
      let predicate ← compilePredicate bindings (Text.trim inside)
      let others ← compilePredicates bindings (Text.trimStart (found.drop 1))
      return predicate :: others
    | none => .error (.fault .unclosedPredicate)
  | _ => .error (.fault .textAfterPredicate)
termination_by s.length
decreasing_by
  have h1 := splitTop_length _h
  have h2 := length_trimStart_le (found.drop 1)
  simp only [List.length_cons, List.length_drop] at *
  omega

/-! ## Steps and paths -/

/-- The axis with a written name. -/
def axis? (s : List Char) : Option Axis :=
  match String.ofList (Text.trim s) with
  | "child" => some .child
  | "descendant" => some .descendant
  | "descendant-or-self" => some .descendantOrSelf
  | "self" => some .self
  | "parent" => some .parent
  | "attribute" => some .attr
  | _ => none

/-- The step that a double separator stands for. -/
def anywhere : Step := ⟨.descendantOrSelf, .node, []⟩

def compileStep (bindings : Bindings) (s : List Char) : Except Refusal Step := do
  let s := Text.trim s
  if s.isEmpty then .error (.fault .emptyStep)
  else if s = ['.'] then .ok ⟨.self, .node, []⟩
  else if s = ['.', '.'] then .ok ⟨.parent, .node, []⟩
  else
    let (head, brackets) := (splitTop '[' 0 none s).getD (s, [])
    let predicates ← compilePredicates bindings brackets
    let (axis, test) ← match head with
      | '@' :: test => pure (Axis.attr, test)
      | _ =>
        match Text.splitAtText "::".toList head with
        | some (name, test) =>
          match axis? name with
          | some axis => pure (axis, test)
          | none => .error (.fault .unsupportedAxis)
        | none => pure (Axis.child, head)
    return ⟨axis, ← compileTest bindings (Text.trim test), predicates⟩

/-- Whether the separator at the front is a double one, and what comes after it. -/
def dropSeparator (found : List Char) : Bool × List Char :=
  match found with
  | _ :: '/' :: rest => (true, rest)
  | _ => (false, found.drop 1)

theorem dropSeparator_length {found : List Char} (h : found ≠ []) :
    (dropSeparator found).2.length < found.length := by
  have hpos := List.length_pos_iff.2 h
  unfold dropSeparator
  split
  · next c rest =>
    simp only [List.length_cons]
    omega
  · rw [List.length_drop]
    omega

/-- Reads steps with separators between them. -/
def compileSteps (bindings : Bindings) (s : List Char) : Except Refusal (List Step) :=
  match _h : splitTop '/' 0 none s with
  | none => return [← compileStep bindings s]
  | some (before, found) => do
    let step ← compileStep bindings before
    let others ← compileSteps bindings (dropSeparator found).2
    return if (dropSeparator found).1 then step :: anywhere :: others else step :: others
termination_by s.length
decreasing_by
  have := splitTop_length _h
  have := dropSeparator_length this.2
  omega

def compilePath (bindings : Bindings) (s : List Char) : Except Refusal LocationPath := do
  match Text.trim s with
  | [] => .error (.fault .emptyPath)
  | ['/'] => .ok ⟨true, []⟩
  | ['/', '/'] => .error (.fault .trailingSeparator)
  | '/' :: '/' :: rest => return ⟨true, anywhere :: (← compileSteps bindings rest)⟩
  | '/' :: rest => return ⟨true, ← compileSteps bindings rest⟩
  | relative => return ⟨false, ← compileSteps bindings relative⟩

/-- Reads an expression. -/
def compile (bindings : Bindings) (expression : String) : Except QueryError Expression :=
  match (piecesTop '|' expression.toList).mapM (compilePath bindings) with
  | .ok paths => .ok ⟨paths⟩
  | .error (.undefined qualifier) => .error (.undefined qualifier)
  | .error (.fault fault) => .error (.syntactic expression fault)

end SoapKit.Xml.Path

namespace SoapKit.Xml.Document

/-- What an expression selects from a node; `extra` bindings go over the document's own. -/
def query (d : Document) (n : Node) (expression : String) (extra : List (String × String)) :
    Except Path.QueryError (List Node) := do
  let compiled ← Path.compile (d.registered ++ extra) expression
  return compiled.select d n

end SoapKit.Xml.Document
