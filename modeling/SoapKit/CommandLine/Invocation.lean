import SoapKit.CommandLine.Mention

/-!
# Invocations

What a run is asked to do. The mentions on the command line are taken in order: help, the version,
an option that nobody knows and a second input end the reading at once, so the first of them
decides. What can only be judged when all is said, an option that is given twice, a value or an
input that is missing, is judged at the end.
-/

namespace SoapKit.CommandLine

/-- What a client is generated from, and where it goes. -/
structure Options where
  input : String
  output : String
  binding : Option String
  serviceName : Option String
  isVerbose : Bool
  deriving Repr, DecidableEq

/-- What a run is asked to do. -/
inductive Invocation where
  | help
  | version
  | generate (options : Options)
  deriving Repr, DecidableEq

/-- Why it is unclear what a run is asked to do. -/
inductive UsageError where
  | unexpected (argument : String)
  | repeated (option : String)
  | missingValue (option : String)
  | missingInput
  deriving Repr, DecidableEq

def UsageError.message : UsageError → String
  | .unexpected argument => "Found argument '" ++ argument ++ "' which wasn't expected"
  | .repeated option => "The argument '" ++ option ++ "' cannot be used more than once"
  | .missingValue option => "The argument '" ++ option ++ "' requires a value but none was supplied"
  | .missingInput => "The input was not provided"

def Setting.word : Setting → String
  | .output => "--output"
  | .binding => "--binding"
  | .serviceName => "--name"

/-- Where the code goes when nothing else is said. -/
def defaultOutput : String := "./output.rs"

/-- What has been said so far. -/
structure Said where
  input : Option String
  verbose : Nat
  settings : List (Setting × Option String)
  deriving Repr, DecidableEq

namespace Said

def nothing : Said := ⟨none, 0, []⟩

/-- The value of an option. When it is given without one, `fallback` takes its place if there is
one. -/
def value (said : Said) (setting : Setting) (fallback : Option String) :
    Except UsageError (Option String) :=
  match said.settings.filter (·.1 = setting), fallback with
  | [], _ => .ok fallback
  | [(_, some text)], _ => .ok (some text)
  | [(_, none)], some text => .ok (some text)
  | [(_, none)], none => .error (.missingValue setting.word)
  | _ :: _ :: _, _ => .error (.repeated setting.word)

/-- The options, when all is said. -/
def options (said : Said) : Except UsageError Options := do
  let output ← said.value .output (some defaultOutput)
  let binding ← said.value .binding none
  let serviceName ← said.value .serviceName none
  if 1 < said.verbose then throw (.repeated "--verbose")
  match said.input with
  | some input =>
    return ⟨input, output.getD defaultOutput, binding, serviceName, said.verbose = 1⟩
  | none => throw .missingInput

end Said

namespace Invocation

/-- Takes mentions in order. -/
def ofMentions (said : Said) : List Mention → Except UsageError Invocation
  | [] => said.options.map .generate
  | .flag .help :: _ => .ok .help
  | .flag .version :: _ => .ok .version
  | .flag .verbose :: rest => ofMentions { said with verbose := said.verbose + 1 } rest
  | .setting s value :: rest =>
    ofMentions { said with settings := said.settings ++ [(s, value)] } rest
  | .operand text :: rest =>
    if said.input.isSome then .error (.unexpected text)
    else ofMentions { said with input := some text } rest
  | .unknown text :: _ => .error (.unexpected text)
  | .divider :: rest => ofMentions said rest

def ofArguments (arguments : List String) : Except UsageError Invocation :=
  ofMentions .nothing (Mention.attach (Mention.ofArguments arguments))

end Invocation

end SoapKit.CommandLine
