/-!
# Files

The files that a command reads, as values: why a file cannot be read, and a directory with what lies
below it.

* `ReadError`: why there is no text, with the words for it;
* `Disk.ofFiles`: a directory from what lies in it;
* `Disk.read`: the text of the file that a path leads to.
-/

namespace HandleLint.Command

/-- Why a file cannot be read as text. -/
inductive ReadError
  | noSuchFile
  | notDirectory
  | isDirectory
  | nameTooLong
  | permissionDenied
  /-- The file is not valid UTF-8. -/
  | notText
  /-- Another fault, by the number that the system gives it. -/
  | other (code : Nat)
  deriving DecidableEq, Repr

namespace ReadError

def message : ReadError → String
  | noSuchFile => "No such file or directory (os error 2)"
  | notDirectory => "Not a directory (os error 20)"
  | isDirectory => "Is a directory (os error 21)"
  | nameTooLong => "File name too long (os error 36)"
  | permissionDenied => "Permission denied (os error 13)"
  | notText => "stream did not contain valid UTF-8"
  | other code => s!"os error {code}"

/-- The fault that the system gives a number. -/
def ofNumber : Nat → ReadError
  | 2 => noSuchFile
  | 13 => permissionDenied
  | 20 => notDirectory
  | 21 => isDirectory
  | 36 => nameTooLong
  | code => other code

end ReadError

/-- The text that bytes stand for. -/
def textOfBytes (bytes : ByteArray) : Except ReadError String :=
  match String.fromUTF8? bytes with
  | some text => .ok text
  | none => .error .notText

/-- A directory: the paths below it, each with its bytes, or without if it is a directory too. -/
structure Disk where
  entries : List (List String × Option ByteArray) := []

namespace Disk

/-- What a path without `.` and `..` leads to. A directory is there as soon as something is in
it. -/
def find? (d : Disk) (path : List String) : Option (Option ByteArray) :=
  match d.entries.lookup path with
  | some entry => some entry
  | none => if path.isEmpty || d.entries.any (path.isPrefixOf ·.1) then some none else none

/-- The parts of a path, as they stand between its slashes. -/
def parts (path : String) : List String :=
  path.splitOn "/"

/-- Whether a part of a path names nothing of its own. -/
def isStep (part : String) : Bool :=
  part = "" || part = "." || part = ".."

/-- A directory with some files and directories, by their paths; of a path that is there twice the
last one counts. -/
def ofFiles (files : List (String × Option ByteArray)) : Disk :=
  { entries := files.reverse.map fun (path, bytes) => ((parts path).filter (!isStep ·), bytes) }

/-- The longest name that a file may have, in bytes. -/
def maxName : Nat := 255

/-- The longest path that can be asked for, in bytes. -/
def maxPath : Nat := 4095

/-- What is found outside of a directory, of which nothing is known but that its parents are
there. -/
def outside (parts : List String) : ReadError :=
  match parts.find? (!isStep ·) with
  | none => .isDirectory
  | some name => if maxName < name.utf8ByteSize then .nameTooLong else .noSuchFile

/-- Walks from a directory along the parts of a path, down to the bytes of a file. -/
def walk (d : Disk) : (here : List String) → List String → Except ReadError ByteArray
  | here, [] =>
    match d.find? here with
    | none => .error .noSuchFile
    | some none => .error .isDirectory
    | some (some bytes) => .ok bytes
  | here, part :: rest =>
    match d.find? here with
    | none => .error .noSuchFile
    | some (some _) => .error .notDirectory
    | some none =>
      if part = "" ∨ part = "." then walk d here rest
      else if part = ".." then
        if here.isEmpty then .error (outside rest) else walk d here.dropLast rest
      else if maxName < part.utf8ByteSize then .error .nameTooLong
      else walk d (here ++ [part]) rest

/-- The text of the file that a path leads to. A path that is too long leads nowhere, whatever its
parts are. -/
def read (d : Disk) (path : String) : Except ReadError String := do
  if maxPath < path.utf8ByteSize then .error .nameTooLong
  else
    match parts path with
    | [""] => .error .noSuchFile
    | "" :: rest => .error (outside rest)
    | parts => textOfBytes (← d.walk [] parts)

end Disk

end HandleLint.Command
