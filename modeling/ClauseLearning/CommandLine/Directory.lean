/-!
# Files by path

A flat directory of files, and how a path is looked up in it. A path is a list of names between
slashes; empty names and single dots stand for the directory they are in.
-/

namespace ClauseLearning.CommandLine

/-- Why a file cannot be opened. -/
inductive OpenError
  | notFound
  /-- Something on the way is a file. -/
  | notADirectory
  | nameTooLong
  | other (text : String)
  deriving DecidableEq, Repr

def OpenError.message : OpenError → String
  | .notFound => "No such file or directory (os error 2)"
  | .notADirectory => "Not a directory (os error 20)"
  | .nameTooLong => "File name too long (os error 36)"
  | .other text => text

/-- The parts of a path between slashes. -/
def pathParts (path : String) : List String :=
  path.splitOn "/"

/-- Whether a part names nothing beyond the directory it is in. -/
def isIdlePart (part : String) : Bool := part.isEmpty || part == "."

/-- The name of the file that a path ends with. -/
def fileName? (path : String) : Option String :=
  match ((pathParts path).filter fun part => !isIdlePart part).getLast? with
  | some ".." => none
  | name? => name?

/-- What follows the last dot of a name, unless that is its first character. -/
def extensionOf? (name : String) : Option String :=
  let reversed := name.toList.reverse
  let ext := reversed.takeWhile (· != '.')
  if (reversed.drop ext.length).length ≤ 1 then none else some (String.ofList ext.reverse)

/-- A directory without subdirectories. -/
structure Directory where
  files : List (String × String)

namespace Directory

/-- Names have at most this many bytes. -/
def maxNameLength : Nat := 255

/-- Paths have at most this many bytes. -/
def maxPathLength : Nat := 4095

/-- Looks the parts of a relative path up. -/
def openParts (d : Directory) : List String → Except OpenError String
  | [] => .error .notFound
  | part :: parts =>
    if isIdlePart part then openParts d parts
    else if maxNameLength < part.utf8ByteSize then .error .nameTooLong
    else
      match d.files.lookup part with
      | none => .error .notFound
      | some content => if parts.isEmpty then .ok content else .error .notADirectory

/-- The content of a file. No absolute path leads into the directory. -/
def openFile (d : Directory) (path : String) : Except OpenError String :=
  if maxPathLength < path.utf8ByteSize then .error .nameTooLong
  else if path.startsWith "/" then openParts ⟨[]⟩ (pathParts path)
  else d.openParts (pathParts path)

end Directory

end ClauseLearning.CommandLine
