import SoapKit.Client.Source
import SoapKit.Rust.Source

/-!
# Compiling bindings

The client for one binding of a description, and the function for a single complex type. Nothing is
kept from one to the next, so compiling twice gives the same code.
-/

namespace SoapKit.Client

open Rust (Item)
open Wsdl (QName Definitions)

/-- The binding with a local name, or the first one. -/
def chooseBinding (defs : Definitions) : Option String → Except Error Wsdl.Binding
  | some name =>
    match defs.bindingNamed? name with
    | some binding => .ok binding
    | none => .error (.unknownBinding name)
  | none =>
    match defs.bindings.values.head? with
    | some binding => .ok binding
    | none => .error .noBinding

/-- The code of the client for a binding. Without a name for it, it is called like the binding. -/
def compile (defs : Definitions) (serviceName : Option String) (name : QName) :
    Except Error (List Item) := do
  match defs.bindings.get? name with
  | none => throw (.unknownBinding name.text)
  | some binding =>
    let service := serviceName.getD binding.name.base
    let plan ← Plan.ofBinding defs binding service
    let bench := Workbench.start defs [(serviceIdent service).text]
    (writeClient ⟨defs, plan.isEncoded⟩ plan).run' bench

/-- The code of the function that writes values of a complex type. -/
def compileWriter (defs : Definitions) (name : QName) : Except Error (List Item) :=
  let s : Setting := ⟨defs, false⟩
  let write : Writing (List Item) := do
    if (← registerType s name).isNone then throw (.unknownType name.text)
    completeLayouts s
    match (← get).layouts.head? with
    | some layout => return [.function (← writerFunction s layout)]
    | none => throw (.unknownType name.text)
  write.run' (Workbench.start defs [])

/-- What stands at the top of generated files. -/
def banner : String :=
  "// Generated by lather from a WSDL service description.\n" ++
    "// Regenerate it instead of editing by hand.\n\n"

def fileText (items : List Item) : String :=
  banner ++ Rust.sourceText items

end SoapKit.Client
