import SoapKit.Text.NamePart
import SoapKit.Text.Split

/-!
# Identifiers of Rust

Any text can be made into an identifier: characters that are no ASCII letters or digits become
underscores, a digit at the front gets one before it, and words that Rust itself uses get one behind
them or are marked as raw when they are written.
-/

namespace SoapKit.Rust

/-- An identifier. -/
structure Ident where
  name : String
  deriving Repr, DecidableEq, Inhabited

namespace Ident

/-- The words that can be identifiers only when they are marked as raw. -/
def keywords : List String :=
  ["as", "async", "await", "break", "const", "continue", "dyn", "else", "enum", "extern", "false",
    "fn", "for", "if", "impl", "in", "let", "loop", "match", "mod", "move", "mut", "pub", "ref",
    "return", "static", "struct", "trait", "true", "type", "unsafe", "use", "where", "while",
    "abstract", "become", "box", "do", "final", "macro", "override", "priv", "try", "typeof",
    "unsized", "virtual", "yield"]

/-- The words that cannot be identifiers at all. -/
def forbidden : List String := ["self", "Self", "super", "crate", "_"]

def text (ident : Ident) : String :=
  if keywords.contains ident.name then "r#" ++ ident.name else ident.name

/-- A character as it stands in an identifier. -/
def clean (c : Char) : Char :=
  if c.isAlphanum ∨ c = '_' then c else '_'

def ofName (name : String) : Ident :=
  let cleaned := name.toList.map clean
  let whole := match cleaned with
    | [] => ['_']
    | c :: _ => if c.isDigit then '_' :: cleaned else cleaned
  let word := String.ofList whole
  if forbidden.contains word then ⟨word ++ "_"⟩ else ⟨word⟩

/-- The identifier of a text behind a beginning, provided that the text has only characters of
names. -/
def withLead? (lead name : String) : Option Ident :=
  if name.toList.all Text.isNamePart then some ⟨lead ++ name⟩ else none

end Ident

end SoapKit.Rust
