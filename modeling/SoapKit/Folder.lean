import SoapKit.OrderedMap
import SoapKit.Text.Split

/-!
# Folders of files

A tree of files as it is at one moment: where relative paths begin, and the files by their paths
from the top. A directory exists when a file lies below it or when paths begin in it or below it.
-/

namespace SoapKit

/-- A tree of files. -/
structure Folder where
  place : List String
  files : OrderedMap (List String) String
  deriving Repr, DecidableEq

namespace Folder

/-- The tree without files, with paths that begin at the top. -/
def empty : Folder := ⟨[], OrderedMap.empty⟩

def isDirectory (folder : Folder) (path : List String) : Bool :=
  path.isPrefixOf folder.place ||
    folder.files.keys.any fun file => path.isPrefixOf file && path != file

def content? (folder : Folder) (path : List String) : Option String :=
  folder.files.get? path

/-- Goes down from a path by names, where one dot stays and two dots go up. Only directories can be
gone through, and what is reached has to exist, unless it is the last name and `create` is set. -/
def descend (folder : Folder) (create : Bool) : List String → List String → Option (List String)
  | path, [] => some path
  | path, name :: rest =>
    if folder.isDirectory path then
      match name with
      | "" | "." => folder.descend create path rest
      | ".." => folder.descend create path.dropLast rest
      | name =>
        let next := path ++ [name]
        if folder.isDirectory next ∨ (folder.content? next).isSome ∨ (create ∧ rest.isEmpty) then
          folder.descend create next rest
        else none
    else none

/-- The path from the top that a written path stands for, if it exists. -/
def resolve? (folder : Folder) (create : Bool) (path : String) : Option (List String) :=
  let names := (Text.pieces '/' path.toList).map String.ofList
  if path.isEmpty ∨ path.contains '\x00' then none
  else folder.descend create (if path.startsWith "/" then [] else folder.place) names

/-- Puts a file at a written path. The directory has to exist, and no directory may be in the way.
-/
def write? (folder : Folder) (path content : String) : Option Folder := do
  let file ← folder.resolve? true path
  if folder.isDirectory file then none
  else some { folder with files := folder.files.insert file content }

/-- The files directly where paths begin that are new or have changed, by name. -/
def changes (before after : Folder) : List (String × String) :=
  let changed := after.files.entries.filterMap fun (path, content) =>
    if path.dropLast = after.place ∧ before.content? path ≠ some content then
      path.getLast?.map (·, content)
    else none
  changed.mergeSort fun a b => a.1 ≤ b.1

end Folder

end SoapKit
