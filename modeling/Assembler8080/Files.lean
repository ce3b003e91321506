import Std.Data.TreeMap
import Std.Data.TreeSet
import Assembler8080.Path

/-! A tree of files, as far as the command line sees one: files with their contents, and
directories, by their paths from the root. -/
namespace Assembler8080

structure Files where
  contents : Std.TreeMap Bytes Bytes
  directories : Std.TreeSet Bytes

inductive FileCause where
  | noSuchFile | isDirectory | notDirectory | nameTooLong | invalidArgument
  deriving Repr, DecidableEq

def FileCause.message : FileCause → Bytes
  | noSuchFile => ascii "no such file or directory"
  | isDirectory => ascii "is a directory"
  | notDirectory => ascii "not a directory"
  | nameTooLong => ascii "file name too long"
  | invalidArgument => ascii "invalid argument"

inductive FileOperation where
  | opening | reading
  deriving Repr, DecidableEq

def FileOperation.name : FileOperation → Bytes
  | opening => ascii "open"
  | reading => ascii "read"

/-- What failed, with the path as it was given. -/
structure FileFault where
  operation : FileOperation
  path : Bytes
  cause : FileCause
  deriving Repr, DecidableEq

def FileFault.message (f : FileFault) : Bytes :=
  f.operation.name ++ Byte.blank :: (f.path ++ ascii ": " ++ f.cause.message)

namespace Files

def empty : Files := ⟨∅, ∅⟩

def isDirectory (t : Files) (path : Bytes) : Bool :=
  path == [Byte.slash] || t.directories.contains path

/-- All directories above a path from the root, and the path itself if it is `inclusive`. -/
def addDirectories (t : Files) (inclusive : Bool) (path : Bytes) : Files :=
  let names := ((Path.components path).foldl (Path.enter true) []).reverse
  let count := if inclusive then names.length else names.length - 1
  let paths := (List.range count).map fun n => Path.render true (names.take (n + 1)).reverse
  { t with directories := paths.foldl (·.insert ·) t.directories }

def addFile (t : Files) (path content : Bytes) : Files :=
  let clean := Path.clean path
  let t := t.addDirectories false clean
  { t with contents := t.contents.insert clean content }

def nameLimit : Nat := 255

def pathLimit : Nat := 4095

def enter (t : Files) (place : List Bytes) (component : Bytes) : Except FileCause (List Bytes) :=
  let next := Path.enter true place component
  let path := Path.render true next
  if nameLimit < component.length then .error .nameTooLong
  else if t.isDirectory path then .ok next
  else if t.contents.contains path then .error .notDirectory
  else .error .noSuchFile

/-- The path from the root of the file that a path from `directory` names. Every directory on the
way has to exist, the file itself need not. -/
def resolve (t : Files) (directory path : Bytes) : Except FileCause Bytes := do
  if path.contains 0 then throw .invalidArgument
  if path.isEmpty then throw .noSuchFile
  if pathLimit < path.length then throw .nameTooLong
  let names := Path.components path
  let start :=
    if Path.isAbsolute path then [] else (Path.components directory).foldl (Path.enter true) []
  let place ← names.dropLast.foldlM t.enter start
  let last := names.getLast?.getD []
  if nameLimit < last.length then throw .nameTooLong
  return Path.render true (Path.enter true place last)

def read (t : Files) (directory path : Bytes) : Except FileFault Bytes :=
  match t.resolve directory path with
  | .error cause => .error ⟨.opening, path, cause⟩
  | .ok place =>
    if t.isDirectory place then .error ⟨.reading, path, .isDirectory⟩
    else
      match t.contents[place]? with
      | some content => .ok content
      | none => .error ⟨.opening, path, .noSuchFile⟩

def trimSlashes (path : Bytes) : Bytes := (path.reverse.dropWhile (· == Byte.slash)).reverse

/-- Where a file can be written. A path that ends in a slash names a directory. -/
def writable (t : Files) (directory path : Bytes) : Except FileCause Bytes := do
  let place ← t.resolve directory (if (trimSlashes path).isEmpty then path else trimSlashes path)
  if t.isDirectory place || path.getLast? == some Byte.slash then throw .isDirectory
  return place

/-- Gives a file new contents, and makes it if there is none. -/
def write (t : Files) (directory path content : Bytes) : Except FileFault Files :=
  match t.writable directory path with
  | .error cause => .error ⟨.opening, path, cause⟩
  | .ok place => .ok { t with contents := t.contents.insert place content }

end Files

end Assembler8080
