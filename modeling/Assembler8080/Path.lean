import Assembler8080.Bytes

/-! Paths with slashes: their extension, their directory, and the shortest equal path. -/
namespace Assembler8080.Path

def parentName : Bytes := [Byte.dot, Byte.dot]

def isAbsolute (path : Bytes) : Bool := path.head? == some Byte.slash

/-- The names between the slashes. An empty one or a single dot stays in the same directory. -/
def components (path : Bytes) : List Bytes := path.splitOn Byte.slash

def isSame (component : Bytes) : Bool := component.isEmpty || component == [Byte.dot]

/-- The path after one more component, innermost directory first. Above the root there is the root
itself; above a relative path its start is not known. -/
def enter (rooted : Bool) (path : List Bytes) (component : Bytes) : List Bytes :=
  if isSame component then path
  else if component == parentName then
    match path with
    | [] => if rooted then [] else [parentName]
    | inner :: outer => if inner == parentName then parentName :: path else outer
  else component :: path

/-- The text of a path given innermost directory first. -/
def render (rooted : Bool) (path : List Bytes) : Bytes :=
  let names := [Byte.slash].intercalate path.reverse
  if rooted then Byte.slash :: names else if names.isEmpty then [Byte.dot] else names

/-- The shortest path that names the same file without looking at the files. -/
def clean (path : Bytes) : Bytes :=
  let rooted := isAbsolute path
  render rooted ((components path).foldl (enter rooted) [])

def absolute (directory path : Bytes) : Bytes :=
  if isAbsolute path then clean path
  else if path.isEmpty then clean directory
  else clean (directory ++ Byte.slash :: path)

def upToSlash (path : Bytes) : Bytes := (path.reverse.dropWhile (· != Byte.slash)).reverse

def directory (path : Bytes) : Bytes := clean (upToSlash path)

/-- The last dot of the last component and what follows it. -/
def extension (path : Bytes) : Bytes :=
  let last := path.reverse.takeWhile (· != Byte.slash)
  let tail := last.takeWhile (· != Byte.dot)
  if tail.length < last.length then Byte.dot :: tail.reverse else []

def base (path : Bytes) : Bytes := path.take (path.length - (extension path).length)

def withExtension (path extension : Bytes) : Bytes := base path ++ extension

end Assembler8080.Path
