import SoapKit.Rust.Tokens
import SoapKit.Text.Boxes

/-!
# Code as source text

Code laid out in lines. Lists in brackets stand on one line or have a line for each entry; a chain
of methods stands on one line or has a line for each method; bodies and records always have a line
for each statement or field. Every item ends its line, and no lines are blank.
-/

namespace SoapKit.Rust

open Text (Box Gap)

namespace Source

/-! ## Pieces -/

/-- How far an inner line is indented. -/
def indent : Int := 4

/-- A gap that always breaks the line. -/
def lineBreak : Box := .gap ⟨.must, 0, 0, ""⟩

/-- A gap that always breaks the line, with less indentation after it. -/
def lastBreak : Box := .gap ⟨.must, 0, -indent, ""⟩

/-- A gap without blanks. -/
def softBreak : Box := .gap ⟨.may, 0, 0, ""⟩

/-- A gap with a blank. -/
def space : Box := .gap ⟨.may, 1, 0, ""⟩

/-- A place where the line is never broken, though a width is measured up to it. -/
def joint : Box := .gap ⟨.never, 0, 0, ""⟩

/-- A box whose gaps break together. -/
def together (shift : Int) (content : List Box) : Box := .box .together shift content

/-- A box whose gaps break one by one. -/
def single (shift : Int) (content : List Box) : Box := .box .single shift content

/-- The entries of a list in a box. Broken over lines, the last entry has a comma too. -/
def listed (shift : Int) (entries : List (List Box)) : List Box :=
  if entries.isEmpty then []
  else [together shift (softBreak :: (entries.intersperse [.text ",", space]).flatten ++
    [.gap ⟨.may, 0, -indent, ","⟩])]

/-- Lines that each end in a break, the last one with less indentation after it. -/
def block (lines : List (List Box)) : List Box :=
  match lines.getLast? with
  | some last => lines.dropLast.flatMap (· ++ [lineBreak]) ++ last ++ [lastBreak]
  | none => []

/-! ## Types -/

def pathText (path : Path) : String :=
  (if path.rooted then "::" else "") ++ "::".intercalate path.names

mutual

def ofTy : Ty → List Box
  | .named path [] => [.text (pathText path)]
  | .named path args =>
    [.text (pathText path), .text "<"] ++ listed indent (ofTys args) ++ [.text ">"]
  | .ref isMut target => .text (if isMut then "&mut " else "&") :: ofTy target
  | .slice item => .text "[" :: ofTy item ++ [.text "]"]

def ofTys : List Ty → List (List Box)
  | [] => []
  | first :: rest => ofTy first :: ofTys rest

end

def ofTypeParam (param : TypeParam) : List Box :=
  [.text param.name, single indent (
    (match param.bound with
      | some bound => [.text ": ", .text (pathText bound)]
      | none => []) ++
    match param.fallback with
    | some type => [space, .text "= "] ++ ofTy type
    | none => [])]

/-- Type parameters in their brackets. -/
def ofTypeParams (params : List TypeParam) : List Box :=
  if params.isEmpty then []
  else [.text "<"] ++ listed 0 (params.map ofTypeParam) ++ [.text ">"]

/-! ## Expressions and statements -/

/-- Whether an expression is a name so short that a method called on it stays beside it at the
beginning of a line. -/
def isShort : Expr → Bool
  | .path ⟨false, [name]⟩ => (name.utf8ByteSize : Int) ≤ indent
  | _ => false

/-- The gap before a method or field. -/
def chainBreak (atStart : Bool) (base : Expr) : List Box :=
  if atStart && isShort base then [] else [softBreak]

/-- A chain as a whole is a box of its own; the base of another chain belongs to that chain's box.
-/
def chain (isBase : Bool) (content : List Box) : List Box :=
  if isBase then content else [together indent content]

/-- What is no chain is indented no further when it is the base of one. -/
def atom (isBase : Bool) (content : List Box) : List Box :=
  if isBase then [together (-indent) content] else content

/-- An expression with what follows it before an opening brace. -/
def beforeBrace (content : List Box) : Box :=
  together 0 (content ++ [space])

mutual

/-- An expression. `atStart` says whether it begins a line, `isBase` whether a chain goes on from
it. -/
def ofExpr (atStart isBase : Bool) : Expr → List Box
  | .path path => atom isBase [.text (pathText path)]
  | .text value => atom isBase [.text (literal value)]
  | .ref target => atom isBase (.text "&" :: ofExpr false false target)
  | .field base name =>
    chain isBase (ofExpr atStart true base ++ chainBreak atStart base ++ [.text ("." ++ name)])
  | .await base =>
    chain isBase (ofExpr atStart true base ++ chainBreak atStart base ++ [.text ".await"])
  | .call function args =>
    atom isBase [.text (pathText function)] ++ [.text "("] ++ listed indent (ofExprs args) ++
      [.text ")"]
  | .method receiver name args =>
    chain isBase (ofExpr atStart true receiver ++ chainBreak atStart receiver ++
      [.text ("." ++ name),
        together (if atStart && !isBase && isShort receiver then -indent else 0)
          ([.text "("] ++ listed indent (ofExprs args) ++ [.text ")"])])
  | .closure parameter body =>
    let statements := ofStmts body
    atom isBase [single 0
      [together indent
        [.text "|", softBreak, .text parameter, .text "|", .gap ⟨.may, 1, -indent, ""⟩],
        joint,
        together indent (.text "\x7b" ::
          (if statements.isEmpty then [] else space :: block statements) ++ [.text "\x7d"])]]
  | .record name fields =>
    atom isBase
      [together indent
          (single (-indent) [.text name] :: .text " \x7b" :: lineBreak :: ofFields fields),
        .text "\x7d"]

def ofExprs : List Expr → List (List Box)
  | [] => []
  | first :: rest => ofExpr false false first :: ofExprs rest

/-- The fields of a record, each on a line of its own. -/
def ofFields : List (String × Option Expr) → List Box
  | [] => []
  | (name, value) :: rest =>
    .text name ::
      (match value with
        | some value => [.text ": ", single 0 (ofExpr false false value)]
        | none => []) ++
      .text "," :: (if rest.isEmpty then lastBreak else lineBreak) :: ofFields rest

def ofStmt : Stmt → List Box
  | .drop value => [single 0 (ofExpr true false value ++ [.text ";"])]
  | .value value => [single 0 (ofExpr true false value)]
  | .forEach item list body =>
    [single 0 [.text "for ", .text item, .text " in ", joint,
      beforeBrace (ofExpr false false list), .text "\x7b", joint,
      together indent (lineBreak :: block (ofStmts body)), .text "\x7d"]]
  | .ifSome item value body =>
    [single 0 [together indent (
      [.text "if ",
        together (-indent) [beforeBrace
          [single indent (
            [.text "let ",
              single (-indent) ([.text "Some("] ++ listed indent [[.text item]] ++ [.text ")"]),
              .text " = ", joint, single (-indent) (ofExpr false false value)])]],
        .text "\x7b", lineBreak] ++ block (ofStmts body) ++ [.text "\x7d"])]]

def ofStmts : List Stmt → List (List Box)
  | [] => []
  | first :: rest => ofStmt first :: ofStmts rest

end

/-! ## Items -/

/-- Documentation, a line for each text, without blanks at the ends of lines. -/
def ofDocs (docs : List String) : List Box :=
  docs.flatMap fun doc =>
    let trimmed := (doc.toList.reverse.dropWhile (· == ' ')).reverse
    [.text "///", .text (String.ofList trimmed), lineBreak]

def ofParam : Param → List Box
  | .self => [.text "self"]
  | .refSelf => [.text "&", .text "self"]
  | .typed name type => [.text name, .text ": "] ++ ofTy type

/-- What a type parameter has to be, on lines of its own, or only a blank. -/
def ofBound : Option (String × Path) → List Box
  | none => [.text " "]
  | some (name, path) =>
    [lastBreak, .text "where", lineBreak, .text name, .text ":",
      single 0 [.text " ", .text (pathText path)],
      .text ",", lastBreak]

/-- An opening brace and the lines behind it. -/
def inBraces (lines : List (List Box)) : List Box :=
  .text "\x7b" :: if lines.isEmpty then [joint] else lineBreak :: block lines

/-- A function, without the end of its last line. -/
def ofFunction (function : Function) : List Box :=
  ofDocs function.docs ++
    [together indent (
      [.text "pub ", .text (if function.isAsync then "async " else ""), .text "fn ",
        .text function.name] ++
      ofTypeParams function.typeParams ++ [.text "(", joint] ++
      listed 0 (function.params.map ofParam) ++ [.text ")"] ++
      [together (-indent) (match function.result with
        | some type => .text " -> " :: ofTy type
        | none => [])] ++
      ofBound function.bound ++ inBraces (ofStmts function.body)),
    .text "\x7d"]

def ofFieldDecl (field : FieldDecl) : List Box :=
  .text (if field.isPublic then "pub " else "") :: .text field.name :: .text ": " ::
    ofTy field.type ++ [.text ","]

/-- An item with the end of its last line. -/
def ofItem : Item → List Box
  | .constant docs name type value =>
    ofDocs docs ++
      [together 0 ([.text "pub ", .text "const ", .text name, .text ": "] ++ ofTy type ++
        [.text " = ", joint] ++ ofExpr false false value ++ [.text ";"]),
      lineBreak]
  | .record docs derives name typeParams fields =>
    ofDocs docs ++ [.text ("#[derive(" ++ ", ".intercalate derives ++ ")]"), lineBreak] ++
      [together indent ([.text "pub ", .text "struct ", .text name] ++ ofTypeParams typeParams ++
        [.text " "] ++ inBraces (fields.map ofFieldDecl)),
      .text "\x7d", lineBreak]
  | .methods typeParams target methods =>
    [together indent (
      [single (-indent) (together indent (.text "impl" :: ofTypeParams typeParams) ::
        .text " " :: ofTy target),
      .text " "] ++ inBraces (methods.map ofFunction)),
    .text "\x7d", lineBreak]
  | .function function => ofFunction function ++ [lineBreak]

end Source

/-- The source text of items. -/
def sourceText (items : List Item) : String :=
  Box.render (items.flatMap Source.ofItem)

end SoapKit.Rust
