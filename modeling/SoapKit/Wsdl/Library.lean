import SoapKit.Folder
import SoapKit.Url.Resolve
import SoapKit.Wsdl.Error

/-!
# Libraries

A library is where documents are fetched from: a shelf that holds texts by their exact URLs, or the
files of a folder. Fetching from a shelf takes the text off it, and fetching from a folder uses up
one of the reads that it grants; either way a library gets smaller, so a search that fetches again
and again comes to an end.
-/

namespace SoapKit.Wsdl

/-- A source of documents. -/
inductive Library where
  | shelf (texts : OrderedMap String String)
  | files (folder : Folder) (reads : Nat)
  deriving Repr, DecidableEq

namespace Library

/-- A library of texts by their URLs; the last text for a URL counts. -/
def ofTexts (texts : List (String × String)) : Library :=
  .shelf (OrderedMap.ofList texts)

/-- How many documents can be fetched at most. -/
def size : Library → Nat
  | .shelf texts => texts.entries.length
  | .files _ reads => reads

/-- The text of a local file. -/
def readFile (folder : Folder) (url : Url) : Except FetchError String :=
  if url.scheme = "file" then
    match url.filePath? with
    | none => .error .notLocal
    | some names =>
      match (folder.resolve? false ("/" ++ "/".intercalate names)).bind folder.content? with
      | some text => .ok text
      | none => .error .unreadable
  else .error (.unsupportedScheme url.scheme)

/-- The text at a URL, and the library without it. -/
def fetch (library : Library) (url : Url) : Except FetchError (String × Library) :=
  match library with
  | .shelf texts =>
    match texts.get? url.text with
    | some text => .ok (text, .shelf (texts.erase url.text))
    | none => .error .notFound
  | .files folder reads =>
    match readFile folder url, reads with
    | .error e, _ => .error e
    | .ok text, reads + 1 => .ok (text, .files folder reads)
    | .ok _, 0 => .error .unreadable

theorem size_fetch_lt {library rest : Library} {url : Url} {text : String}
    (h : library.fetch url = .ok (text, rest)) : rest.size < library.size := by
  cases library with
  | shelf texts =>
    simp only [fetch] at h
    split at h
    · rename_i found
      simp only [Except.ok.injEq, Prod.mk.injEq] at h
      rw [← h.2]
      exact texts.length_erase_lt found
    · simp at h
  | files folder reads =>
    simp only [fetch] at h
    split at h <;> simp only [reduceCtorEq, Except.ok.injEq, Prod.mk.injEq] at h
    rw [← h.2]
    simp [size]

/-- The URL of a document that is named by a URL or by a path in a folder. -/
def locate (folder : Folder) (name : String) : Except Error Url :=
  match Url.parse name with
  | .ok url => .ok url
  | .error .invalid => .error .malformedUrl
  | .error .relative =>
    match folder.resolve? false name with
    | some names => .ok (Url.ofFilePath names)
    | none => .error .unknownPath

end Library

end SoapKit.Wsdl
