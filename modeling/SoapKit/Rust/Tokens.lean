import SoapKit.Rust.Code
import SoapKit.Text.Quoted

/-!
# Code as tokens

Code written as its tokens with a space between every two of them, none only on the inner sides of
round and square brackets. Commas stand where the code has them: behind every field, and behind
arguments that end in a closure.
-/

namespace SoapKit.Rust

/-! ## Literals -/

/-- A text literal. Apostrophes need no escape, and a zero character before an octal digit is
written so that the digit is not taken to belong to it. -/
def literalFrom : List Char → List Char
  | [] => []
  | '\x00' :: next :: rest =>
    (if '0' ≤ next ∧ next ≤ '7' then ['\\', 'x', '0', '0'] else ['\\', '0']) ++
      literalFrom (next :: rest)
  | c :: rest => Text.quoteChar c ++ literalFrom rest

def literal (value : String) : String :=
  String.ofList ('"' :: literalFrom value.toList ++ ['"'])

namespace Tokens

/-! ## Tokens of code -/

/-- Lists with a token between every two of them. -/
def separated (mark : String) (parts : List (List String)) : List String :=
  (parts.intersperse [mark]).flatten

/-- Lists with a token after each of them. -/
def terminated (mark : String) (parts : List (List String)) : List String :=
  parts.flatMap (· ++ [mark])

def ofPath (path : Path) : List String :=
  (if path.rooted then ["::"] else []) ++ path.names.intersperse "::"

mutual

def ofTy : Ty → List String
  | .named path args =>
    ofPath path ++ match args with
      | [] => []
      | args => ["<"] ++ separated "," (ofTys args) ++ [">"]
  | .ref isMut target => (if isMut then ["&", "mut"] else ["&"]) ++ ofTy target
  | .slice item => ["["] ++ ofTy item ++ ["]"]

def ofTys : List Ty → List (List String)
  | [] => []
  | first :: rest => ofTy first :: ofTys rest

end

/-- Whether arguments end in a closure. -/
def endsInClosure (args : List Expr) : Bool :=
  args.getLast? matches some (.closure ..)

mutual

def ofExpr : Expr → List String
  | .path path => ofPath path
  | .text value => [literal value]
  | .ref target => "&" :: ofExpr target
  | .field base name => ofExpr base ++ [".", name]
  | .call function args => ofPath function ++ ofArgs args
  | .method receiver name args => ofExpr receiver ++ [".", name] ++ ofArgs args
  | .await base => ofExpr base ++ [".", "await"]
  | .closure parameter body => ["|", parameter, "|", "\x7b"] ++ ofStmts body ++ ["\x7d"]
  | .record name fields => [name, "\x7b"] ++ ofFields fields ++ ["\x7d"]

/-- The tokens of arguments in their brackets. -/
def ofArgs (args : List Expr) : List String :=
  ["("] ++ separated "," (ofExprs args) ++ (if endsInClosure args then [","] else []) ++ [")"]

def ofExprs : List Expr → List (List String)
  | [] => []
  | first :: rest => ofExpr first :: ofExprs rest

def ofFields : List (String × Option Expr) → List String
  | [] => []
  | (name, some value) :: rest => [name, ":"] ++ ofExpr value ++ "," :: ofFields rest
  | (name, none) :: rest => name :: "," :: ofFields rest

def ofStmt : Stmt → List String
  | .drop value => ofExpr value ++ [";"]
  | .value value => ofExpr value
  | .forEach item list body =>
    ["for", item, "in"] ++ ofExpr list ++ ["\x7b"] ++ ofStmts body ++ ["\x7d"]
  | .ifSome item value body =>
    ["if", "let", "Some", "(", item, ")", "="] ++ ofExpr value ++ ["\x7b"] ++ ofStmts body ++
      ["\x7d"]

def ofStmts : List Stmt → List String
  | [] => []
  | first :: rest => ofStmt first ++ ofStmts rest

end

def ofTypeParam (param : TypeParam) : List String :=
  [param.name] ++
    (match param.bound with
      | some bound => ":" :: ofPath bound
      | none => []) ++
    match param.fallback with
    | some type => "=" :: ofTy type
    | none => []

/-- The tokens of type parameters in their brackets. -/
def ofTypeParams (params : List TypeParam) : List String :=
  if params.isEmpty then [] else ["<"] ++ separated "," (params.map ofTypeParam) ++ [">"]

def ofDocs (docs : List String) : List String :=
  docs.flatMap fun doc => ["#", "[", "doc", "=", literal doc, "]"]

def ofParam : Param → List String
  | .self => ["self"]
  | .refSelf => ["&", "self"]
  | .typed name type => [name, ":"] ++ ofTy type

/-- The tokens of the parameters of a function. -/
def ofParams (function : Function) : List String :=
  separated "," (function.params.map ofParam) ++
    if function.commaAfterSelf ∧ function.params.length = 1 then [","] else []

def ofFunction (function : Function) : List String :=
  ofDocs function.docs ++ ["pub"] ++ (if function.isAsync then ["async"] else []) ++
    ["fn", function.name] ++ ofTypeParams function.typeParams ++
    ["("] ++ ofParams function ++ [")"] ++
    (match function.result with
      | some type => "->" :: ofTy type
      | none => []) ++
    (match function.bound with
      | some (name, path) => ["where", name, ":"] ++ ofPath path ++ [","]
      | none => []) ++
    ["\x7b"] ++ ofStmts function.body ++ ["\x7d"]

def ofFieldDecl (field : FieldDecl) : List String :=
  (if field.isPublic then ["pub"] else []) ++ [field.name, ":"] ++ ofTy field.type

def ofItem : Item → List String
  | .constant docs name type value =>
    ofDocs docs ++ ["pub", "const", name, ":"] ++ ofTy type ++ ["="] ++ ofExpr value ++ [";"]
  | .record docs derives name typeParams fields =>
    ofDocs docs ++ ["#", "[", "derive", "("] ++ separated "," (derives.map ([·])) ++ [")", "]"] ++
      ["pub", "struct", name] ++ ofTypeParams typeParams ++
      ["\x7b"] ++ terminated "," (fields.map ofFieldDecl) ++ ["\x7d"]
  | .methods typeParams target methods =>
    ["impl"] ++ ofTypeParams typeParams ++ ofTy target ++
      ["\x7b"] ++ methods.flatMap ofFunction ++ ["\x7d"]
  | .function function => ofFunction function

/-- Tokens on one line. -/
def joined : List String → String
  | [] => ""
  | [last] => last
  | first :: next :: rest =>
    let gap := if ["(", "["].contains first || [")", "]"].contains next then "" else " "
    first ++ gap ++ joined (next :: rest)

end Tokens

/-- The tokens of items on one line. -/
def tokenText (items : List Item) : String :=
  Tokens.joined (items.flatMap Tokens.ofItem)

end SoapKit.Rust
