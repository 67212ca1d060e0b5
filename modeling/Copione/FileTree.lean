/-!
# File trees

Files under the names that lead to them, and what a path leads to. A path is followed name by
name, and the first name that leads nowhere decides what goes wrong.
-/
namespace Copione

inductive FileEntry where
  | contents (bytes : List UInt8)
  /-- It can be opened, but there is no reading from it. -/
  | unreadable (reason : String)
  | unopenable (reason : String) (missing : Bool)
  deriving DecidableEq, Repr

def FileEntry.systemError (message : String) (number : Nat) : String :=
  message ++ " (os error " ++ toString number ++ ")"

inductive PathFault where
  | missing
  | notDirectory
  | isDirectory
  | nameTooLong
  deriving DecidableEq, Repr

namespace PathFault

def all : List PathFault := [.missing, .notDirectory, .isDirectory, .nameTooLong]

/-- The number under which operating systems report the fault. -/
def number : PathFault → Nat
  | .missing => 2
  | .notDirectory => 20
  | .isDirectory => 21
  | .nameTooLong => 36

def ofNumber? (number : Nat) : Option PathFault := all.find? (·.number == number)

def message : PathFault → String
  | .missing => "No such file or directory"
  | .notDirectory => "Not a directory"
  | .isDirectory => "Is a directory"
  | .nameTooLong => "File name too long"

/-- Only directories can be opened nevertheless. -/
def entry (f : PathFault) : FileEntry :=
  let reason := FileEntry.systemError f.message f.number
  if f == .isDirectory then .unreadable reason else .unopenable reason (f == .missing)

end PathFault

/-- Files under their names from the root on, and the directory where relative paths begin. -/
structure FileTree where
  files : List (List String × List UInt8)
  current : List String

namespace FileTree

def longestName : Nat := 255

def longestPath : Nat := 4095

/-- A directory is there if a file or the current directory lies in it. -/
def isDirectory (t : FileTree) (place : List String) : Bool :=
  place.isPrefixOf t.current || t.files.any fun f => place.isPrefixOf f.1 && place != f.1

/-- Follows names from the directory `place`. A file ends the path, so that not even a slash
may come after it. -/
def follow (t : FileTree) (place : List String) : List String → Except PathFault (List UInt8)
  | [] => .error .isDirectory
  | name :: rest =>
    if name == "" || name == "." then follow t place rest
    else if name == ".." then follow t place.dropLast rest
    else if longestName < name.utf8ByteSize then .error .nameTooLong
    else
      let next := place ++ [name]
      if t.isDirectory next then follow t next rest
      else
        match t.files.lookup next with
        | none => .error .missing
        | some bytes => if rest.isEmpty then .ok bytes else .error .notDirectory

/-- What a path leads to; one that begins with a slash is followed from the root. -/
def find (t : FileTree) (path : String) : FileEntry :=
  if longestPath < path.utf8ByteSize then PathFault.nameTooLong.entry
  else
    let start := if path.toList.head? == some '/' then [] else t.current
    match t.follow start (path.splitOn "/") with
    | .ok bytes => .contents bytes
    | .error fault => fault.entry

end FileTree
end Copione
