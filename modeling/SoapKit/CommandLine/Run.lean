import SoapKit.Client.Compile
import SoapKit.CommandLine.Invocation
import SoapKit.Wsdl.Definitions.Reader

/-!
# Runs

A run reads the description that the arguments name, writes the client for one of its bindings, and
leaves the folder with that file in it. A run that fails changes nothing.
-/

namespace SoapKit.CommandLine

/-- Why a run failed. -/
inductive Failure where
  | usage (cause : UsageError)
  | description (cause : Wsdl.Error)
  | client (cause : Client.Error)
  | output (path : String)
  deriving Repr, DecidableEq

namespace Failure

def message : Failure → String
  | .usage cause => cause.message
  | .description cause => "Error reading WSDL: " ++ cause.message
  | .client cause => "Error generating code: " ++ cause.message
  | .output path => "Error writing " ++ path

/-- The status of the run: a name that no code can have is the program's fault, all else the user's.
-/
def status : Failure → Nat
  | .client (.unwritableName _) => 101
  | _ => 1

end Failure

def versionText : String := "lather 0.1.0\n"

/-- What the program does and how it is called. -/
def helpText : String :=
  versionText ++
    "Generates a Rust SOAP client from a WSDL

USAGE:
    lather [FLAGS] [OPTIONS] <input>

FLAGS:
    -h, --help       Prints help information
    -V, --version    Prints version information
    -v, --verbose    Log what is fetched and generated

OPTIONS:
    -b, --binding <binding>      Binding to generate, by local name. Defaults to the first one
    -o, --output <output>        Where the generated source is written [default: ./output.rs]
    -n, --name <service-name>    Base name of the generated client. Defaults to the binding's name

ARGS:
    <input>    URL or path of the WSDL
"

namespace Options

/-- How many files a description may be spread over. -/
def readLimit : Nat := 1000000

/-- The text of the client for the description at a URL. -/
def clientText (options : Options) (folder : Folder) (url : Url) : Except Failure String := do
  let defs ← (Wsdl.Definitions.read .lenient (.files folder readLimit) url).mapError .description
  Except.mapError .client do
    let binding ← Client.chooseBinding defs options.binding
    return Client.fileText (← Client.compile defs options.serviceName binding.name)

/-- The folder with the client in it. -/
def generate (options : Options) (folder : Folder) : Except Failure Folder := do
  let url ← (Wsdl.Library.locate folder options.input).mapError .description
  let text ← options.clientText folder url
  match folder.write? options.output text with
  | some folder => return folder
  | none => throw (.output options.output)

end Options

/-- What is printed, and the folder afterwards. -/
def run (arguments : List String) (folder : Folder) : Except Failure (String × Folder) := do
  match ← (Invocation.ofArguments arguments).mapError .usage with
  | .help => return (helpText, folder)
  | .version => return (versionText, folder)
  | .generate options => return ("", ← options.generate folder)

end SoapKit.CommandLine
