import SoapKit.Text.Split

/-!
# What arguments mention

An argument that begins with a dash mentions options: by a word after two dashes, or by letters
after one, of which several can stand together. A value is written behind an option, with or without
an equals sign, or it is the next argument, provided that it does not look like an option itself.
All arguments after two lone dashes are operands.

Reading goes in two steps. `Mention.ofArguments` looks at each argument alone, and `attach` hands
operands to the options that wait for a value.
-/

namespace SoapKit.CommandLine

/-- An option without a value. -/
inductive Flag where
  | help
  | version
  | verbose
  deriving Repr, DecidableEq

/-- An option with a value. -/
inductive Setting where
  | output
  | binding
  | serviceName
  deriving Repr, DecidableEq

def optionOfLetter : Char → Option (Flag ⊕ Setting)
  | 'h' => some (.inl .help)
  | 'V' => some (.inl .version)
  | 'v' => some (.inl .verbose)
  | 'o' => some (.inr .output)
  | 'b' => some (.inr .binding)
  | 'n' => some (.inr .serviceName)
  | _ => none

def optionOfWord : String → Option (Flag ⊕ Setting)
  | "help" => some (.inl .help)
  | "version" => some (.inl .version)
  | "verbose" => some (.inl .verbose)
  | "output" => some (.inr .output)
  | "binding" => some (.inr .binding)
  | "name" => some (.inr .serviceName)
  | _ => none

/-- One thing that is said on the command line. -/
inductive Mention where
  | flag (flag : Flag)
  | setting (setting : Setting) (value : Option String)
  | operand (text : String)
  | unknown (text : String)
  /-- Two dashes on their own. -/
  | divider
  deriving Repr, DecidableEq

namespace Mention

/-- Options by their letters. What follows the letter of an option with a value is that value. -/
def ofLetters : List Char → List Mention
  | [] => []
  | letter :: rest =>
    match optionOfLetter letter with
    | some (.inl f) => .flag f :: ofLetters rest
    | some (.inr s) =>
      [.setting s (if rest.isEmpty then none else some (String.ofList (rest.dropWhile (· == '='))))]
    | none => [.unknown (String.ofList ['-', letter])]

/-- An option by its word, and the value behind an equals sign. A flag ignores one. -/
def ofWord (word : List Char) : Mention :=
  let (name, value) := match Text.splitOnce '=' word with
    | some (name, value) => (name, some (String.ofList (value.dropWhile (· == '='))))
    | none => (word, none)
  match optionOfWord (String.ofList name) with
  | some (.inl f) => .flag f
  | some (.inr s) => .setting s value
  | none => .unknown ("--" ++ String.ofList name)

/-- What a single argument mentions. A lone dash is an operand. -/
def ofArgument (argument : String) : List Mention :=
  match argument.toList with
  | '-' :: '-' :: word => [ofWord (word.dropWhile (· == '-'))]
  | '-' :: letter :: letters => ofLetters (letter :: letters)
  | _ => [.operand argument]

def ofArguments : List String → List Mention
  | [] => []
  | "--" :: operands => .divider :: operands.map .operand
  | argument :: rest => ofArgument argument ++ ofArguments rest

/-- Gives options without a value the operand right behind them. -/
def attach : List Mention → List Mention
  | .setting s none :: .operand value :: rest => .setting s (some value) :: attach rest
  | mention :: rest => mention :: attach rest
  | [] => []

end Mention

end SoapKit.CommandLine
