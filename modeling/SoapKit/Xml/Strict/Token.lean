import SoapKit.Text.Blank
import SoapKit.Xml.Strict.Character

/-!
# Tokens of conforming documents

A text is cut into tokens by the grammar of XML 1.0 without document types. Whatever the grammar
does not allow has no tokens. That tags match, and what qualifiers stand for, is looked at later.
-/

namespace SoapKit.Xml.Strict

open Text (isXmlBlank)

/-- A token. Names have no qualifier when none or an empty one is written. -/
inductive Token where
  /-- A comment or a processing instruction. -/
  | passed
  | opening (name : Name) (attributes : List (Name × List Char)) (empty : Bool)
  | closing (name : Name)
  /-- Character data as written. -/
  | text (raw : List Char)
  /-- The data of a literal section. -/
  | literal (data : List Char)
  deriving Repr, DecidableEq

/-! ## Parts -/

/-- Takes characters up to where `stop` holds of the rest, or to the end. Every one of them has to
be allowed in a document. -/
def takeChars (stop : List Char → Bool) : List Char → Option (List Char × List Char)
  | [] => some ([], [])
  | c :: rest =>
    if !isXmlChar c then none
    else if stop (c :: rest) then some ([], c :: rest)
    else (takeChars stop rest).map fun (taken, after) => (c :: taken, after)

/-- Takes characters up to an end mark, and the mark. -/
def takeTo (mark : String) (s : List Char) : Option (List Char × List Char) := do
  let (taken, rest) ← takeChars (mark.toList.isPrefixOf ·) s
  let after ← Text.after? mark.toList rest
  return (taken, after)

/-- Takes a name with at most one colon in it. -/
def takeName (s : List Char) : Option (Name × List Char) :=
  let first := s.takeWhile isNameChar
  let begins (part : List Char) := part.head?.any isNameStart
  match s.dropWhile isNameChar with
  | ':' :: rest =>
    let base := rest.takeWhile isNameChar
    if (first.isEmpty || begins first) && begins base then
      some (⟨if first.isEmpty then none else some (String.ofList first), String.ofList base⟩,
        rest.dropWhile isNameChar)
    else none
  | rest => if begins first then some (⟨none, String.ofList first⟩, rest) else none

/-- Takes a comment after its opening. Two hyphens do not stand in it, and none at its end. -/
def takeComment (s : List Char) : Option (Token × List Char) := do
  let (taken, rest) ← takeTo "-->" s
  if (Text.splitAtText "--".toList taken).isSome || taken.getLast? == some '-' then none
  else some (.passed, rest)

/-- Takes a processing instruction after its opening. -/
def takeInstruction (s : List Char) : Option (Token × List Char) := do
  if "xml ".toList.isPrefixOf s then none
  else
    let target := s.takeWhile fun c => isNameChar c || c == ':'
    if target.head?.any fun c => isNameStart c || c == ':' then
      let (_, rest) ← takeTo "?>" ((s.drop target.length).dropWhile isXmlBlank)
      some (.passed, rest)
    else none

/-- Takes a literal section after its opening. -/
def takeLiteral (s : List Char) : Option (Token × List Char) := do
  let (taken, rest) ← takeTo "]]>" s
  some (.literal taken, rest)

/-- Takes character data up to the next markup. The end mark of literal sections does not stand in
it. -/
def takeText (s : List Char) : Option (Token × List Char) := do
  let (taken, rest) ← takeChars (·.head? == some '<') s
  if (Text.splitAtText "]]>".toList taken).isSome then none else some (.text taken, rest)

/-- Takes a name, an equals sign and a quoted value. -/
def takeAttribute (s : List Char) : Option ((Name × List Char) × List Char) := do
  let (name, rest) ← takeName s
  let rest ← Text.after? ['='] (rest.dropWhile isXmlBlank)
  match rest.dropWhile isXmlBlank with
  | quote :: rest =>
    if quote = '"' ∨ quote = '\'' then
      let (value, rest) ← takeChars (fun s => s.head? == some quote || s.head? == some '<') rest
      let rest ← Text.after? [quote] rest
      some ((name, value), rest)
    else none
  | [] => none

/-- Takes attributes, each after a blank, up to the end of a tag. Tells whether the tag ends as that
of an empty element. `steps` bounds their number. -/
def takeAttributes : Nat → List Char → Option ((List (Name × List Char) × Bool) × List Char)
  | 0, _ => none
  | steps + 1, s =>
    match s.dropWhile isXmlBlank with
    | '/' :: '>' :: rest => some (([], true), rest)
    | '>' :: rest => some (([], false), rest)
    | rest => do
      if s.head?.any isXmlBlank then
        let (attr, rest) ← takeAttribute rest
        let ((others, empty), rest) ← takeAttributes steps rest
        some ((attr :: others, empty), rest)
      else none

/-- Takes an opening tag after its angle bracket. -/
def takeOpening (s : List Char) : Option (Token × List Char) := do
  let (name, rest) ← takeName s
  let ((attributes, empty), rest) ← takeAttributes (rest.length + 1) rest
  some (.opening name attributes empty, rest)

/-- Takes a closing tag after its angle bracket and slash. -/
def takeClosing (s : List Char) : Option (Token × List Char) := do
  let (name, rest) ← takeName s
  let rest ← Text.after? ['>'] (rest.dropWhile isXmlBlank)
  some (.closing name, rest)

/-! ## Documents -/

/-- Takes a blank, unless the declaration ends here. -/
def takeGap (s : List Char) : Option (List Char) :=
  if s.head?.any isXmlBlank then some (s.dropWhile isXmlBlank)
  else if "?>".toList.isPrefixOf s || s.isEmpty then some s
  else none

/-- Takes an attribute of the declaration if it begins with the given word. -/
def takeOptional (word : String) (s : List Char) : Option (List Char) :=
  if word.toList.isPrefixOf s then (takeAttribute s).map (·.2) else some s

/-- Takes the declaration at the start of a text, if there is one: a version, then perhaps an
encoding, then perhaps a word on standing alone. -/
def takeDeclaration (s : List Char) : Option (List Char) :=
  match Text.after? "<?xml ".toList s with
  | none => some s
  | some rest => do
    let rest := rest.dropWhile isXmlBlank
    if "version".toList.isPrefixOf rest then
      let (_, rest) ← takeAttribute rest
      let rest ← takeGap rest
      let rest ←
        if "encoding".toList.isPrefixOf rest then
          let (_, rest) ← takeAttribute rest
          takeGap rest
        else some rest
      let rest ← takeOptional "standalone" rest
      Text.after? "?>".toList (rest.dropWhile isXmlBlank)
    else none

/-- Takes a token at the top, where no element is open. Nothing but blanks may stand between tokens,
and an element only when there was none before. -/
def takeAtTop (rooted : Bool) (s : List Char) : Option (Token × List Char) :=
  match s with
  | '<' :: '!' :: '-' :: '-' :: rest => takeComment rest
  | '<' :: '?' :: rest => takeInstruction rest
  | '<' :: rest => if rooted then none else takeOpening rest
  | _ => none

/-- Takes a token inside of an element. -/
def takeInside (s : List Char) : Option (Token × List Char) :=
  match s with
  | '<' :: '!' :: '-' :: '-' :: rest => takeComment rest
  | '<' :: '!' :: rest => (Text.after? "[CDATA[".toList rest).bind takeLiteral
  | '<' :: '?' :: rest => takeInstruction rest
  | '<' :: '/' :: rest => takeClosing rest
  | '<' :: rest => takeOpening rest
  | [] => none
  | _ => takeText s

/-- How many elements are open after a token. -/
def Token.depthAfter (depth : Nat) : Token → Nat
  | .opening _ _ false => depth + 1
  | .closing _ => depth - 1
  | _ => depth

/-- Whether a token is an element's tag. -/
def Token.isTag : Token → Bool
  | .opening .. | .closing _ => true
  | _ => false

/-- The tokens of a text inside of `depth` open elements; `rooted` tells whether the document
element has been seen. `steps` bounds their number. -/
def tokensFrom : Nat → Nat → Bool → List Char → Option (List Token)
  | 0, _, _, _ => none
  | steps + 1, depth, rooted, s =>
    let s := if depth = 0 then s.dropWhile isXmlBlank else s
    if depth = 0 && s.isEmpty then if rooted then some [] else none
    else do
      let (token, rest) ← if depth = 0 then takeAtTop rooted s else takeInside s
      let others ← tokensFrom steps (token.depthAfter depth) (rooted || token.isTag) rest
      some (token :: others)

/-- The tokens of a document. A mark in front of it is dropped. -/
def tokens (s : List Char) : Option (List Token) := do
  let s := if s.head? = some '\uFEFF' then s.drop 1 else s
  let rest ← takeDeclaration s
  tokensFrom (rest.length + 1) 0 false rest

end SoapKit.Xml.Strict
