/-!
Folders of files, and the names by which files are opened. A name is a path of parts divided by slashes;
every part of it but the last has to be a folder.
-/

namespace LoxLang.CommandLine

inductive OpenError where
  | notFound | isFolder | notFolder
  | other (message : String)
  deriving DecidableEq

def OpenError.message : OpenError → String
  | .notFound => "No such file or directory"
  | .isFolder => "Is a directory"
  | .notFolder => "Not a directory"
  | .other message => message

inductive Entry where
  | file (content : ByteArray)
  | folder

/-- Files with the paths that lead to them from the folder itself. -/
structure Folder where
  files : List (List String × ByteArray)

namespace Folder

def entry? (folder : Folder) (path : List String) : Option Entry :=
  match folder.files.lookup path with
  | some content => some (.file content)
  | none => if folder.files.any (path.isPrefixOf ·.1) then some .folder else none

/-- A part that stays where it is. -/
def stays (part : String) : Bool :=
  part = "" || part = "."

/-- Outside the folder nothing is known but the way there. -/
def outside (parts : List String) : Except OpenError ByteArray :=
  if parts.all fun part => stays part || part = ".." then .error .isFolder
  else .error .notFound

/-- Goes along the parts of a path, from one folder to the next. -/
def walk (folder : Folder) (here : List String) : List String → Except OpenError ByteArray
  | [] => .error .isFolder
  | part :: rest =>
      if stays part then walk folder here rest
      else if part = ".." then
        if here.isEmpty then outside rest else walk folder here.dropLast rest
      else match folder.entry? (here ++ [part]) with
        | none => .error .notFound
        | some .folder => walk folder (here ++ [part]) rest
        | some (.file content) => if rest.isEmpty then .ok content else .error .notFolder

/-- The content of the file of that name. -/
def read (folder : Folder) (name : String) : Except OpenError ByteArray :=
  match name.toList with
  | [] => .error .notFound
  | '/' :: _ => outside (name.splitOn "/")
  | _ => walk folder [] (name.splitOn "/")

end Folder

end LoxLang.CommandLine
