import SoapKit.Rust.Ident

/-!
# Code in Rust

The part of Rust that clients are written in: constants, records, blocks of methods and functions,
whose bodies call functions and methods, go over lists and look into optional values.
-/

namespace SoapKit.Rust

/-- A path of names; a rooted one begins at the names of crates. -/
structure Path where
  rooted : Bool
  names : List String
  deriving Repr, DecidableEq, Inhabited

def Path.single (name : String) : Path := ⟨false, [name]⟩

/-- A path from the names of crates. -/
def Path.root (names : List String) : Path := ⟨true, names⟩

/-- A type. -/
inductive Ty where
  | named (path : Path) (args : List Ty)
  | ref (isMut : Bool) (target : Ty)
  | slice (item : Ty)
  deriving Inhabited

/-- A type without arguments that has a single name. -/
def Ty.single (name : String) : Ty := .named (.single name) []

/-- A type without arguments that has a path from the names of crates. -/
def Ty.root (names : List String) : Ty := .named (.root names) []

/-- A type with arguments that has a single name. -/
def Ty.of (name : String) (args : List Ty) : Ty := .named (.single name) args

mutual

/-- An expression. -/
inductive Expr where
  | path (path : Path)
  | text (value : String)
  | ref (target : Expr)
  | field (base : Expr) (name : String)
  | call (function : Path) (args : List Expr)
  | method (receiver : Expr) (name : String) (args : List Expr)
  | await (base : Expr)
  /-- A function of one parameter. -/
  | closure (parameter : String) (body : List Stmt)
  /-- A record with its fields; a field without a value takes the variable of its name. -/
  | record (name : String) (fields : List (String × Option Expr))

/-- A statement. -/
inductive Stmt where
  /-- An expression whose value is dropped. -/
  | drop (value : Expr)
  /-- An expression whose value is the value of the block. -/
  | value (value : Expr)
  | forEach (item : String) (list : Expr) (body : List Stmt)
  | ifSome (item : String) (value : Expr) (body : List Stmt)

end

def Expr.single (name : String) : Expr := .path (.single name)

/-- A type parameter with a bound or a default. -/
structure TypeParam where
  name : String
  bound : Option Path
  fallback : Option Ty

/-- A parameter of a function. -/
inductive Param where
  | self
  | refSelf
  | typed (name : String) (type : Ty)

/-- A function or method. -/
structure Function where
  docs : List String
  isAsync : Bool
  name : String
  typeParams : List TypeParam
  params : List Param
  /-- Whether a comma follows the parameter for the object itself even when it is the only one. -/
  commaAfterSelf : Bool
  result : Option Ty
  /-- A type parameter and what it has to be. -/
  bound : Option (String × Path)
  body : List Stmt

/-- A field of a record type. -/
structure FieldDecl where
  isPublic : Bool
  name : String
  type : Ty

/-- An item of a file. -/
inductive Item where
  | constant (docs : List String) (name : String) (type : Ty) (value : Expr)
  | record (docs derives : List String) (name : String) (typeParams : List TypeParam)
      (fields : List FieldDecl)
  | methods (typeParams : List TypeParam) (target : Ty) (methods : List Function)
  | function (function : Function)

end SoapKit.Rust
