import SoapKit.CommandLine.Run

/-!
# The program

Files are read when the generator asks for them: whenever it cannot read a file that is there, the
file joins the folder and the generator starts anew.
-/

namespace SoapKit.CommandLine

/-- The names of the directories and the file of an absolute path. -/
def pathNames (path : String) : List String :=
  (path.splitOn "/").filter (· ≠ "")

/-- The absolute path of a URL's file. -/
def filePathText? (url : String) : Option String := do
  let .ok url := Url.parse url | none
  let names ← url.filePath?
  return "/" ++ "/".intercalate names

/-- The URL of what is named by a URL or by a path of this machine. -/
def locateInput (name : String) : IO (Except Wsdl.Error Url) := do
  match Wsdl.Library.locate Folder.empty name with
  | .error .unknownPath =>
    try
      let path ← IO.FS.realPath name
      return .ok (Url.ofFilePath (pathNames path.toString))
    catch _ => return .error .unknownPath
  | located => return located

/-- The client for the description at a URL, with the files that it takes. -/
partial def clientText (options : Options) (folder : Folder) (url : Url) :
    IO (Except Failure String) := do
  match options.clientText folder url with
  | .error (.description (.fetch missing .unreadable)) =>
    let failure := Failure.description (.fetch missing .unreadable)
    match filePathText? missing with
    | none => return .error failure
    | some path =>
      let names := pathNames path
      if (folder.content? names).isSome then return .error failure
      try
        let text ← IO.FS.readFile path
        clientText options { folder with files := folder.files.insert names text } url
      catch _ => return .error failure
  | outcome => return outcome

def generateFile (options : Options) : IO (Except Failure Unit) := do
  match ← locateInput options.input with
  | .error e => return .error (.description e)
  | .ok url =>
    match ← clientText options Folder.empty url with
    | .error e => return .error e
    | .ok text =>
      try
        IO.FS.writeFile options.output text
        if options.isVerbose then IO.eprintln ("Wrote " ++ url.text ++ " to " ++ options.output)
        return .ok ()
      catch _ => return .error (.output options.output)

end SoapKit.CommandLine

open SoapKit.CommandLine in
def main (arguments : List String) : IO UInt32 := do
  let outcome ← match Invocation.ofArguments arguments with
    | .error e => pure (.error (.usage e))
    | .ok .help => .ok <$> IO.print helpText
    | .ok .version => .ok <$> IO.print versionText
    | .ok (.generate options) => generateFile options
  match outcome with
  | .ok _ => return 0
  | .error failure =>
    IO.eprintln ("Error: " ++ failure.message)
    return failure.status.toUInt32
