import Assembler8080.CommandLine

/-! The command on the files of the machine: what it may read and where it may write is looked up
first, the command runs on that, and the files that it changed are written. -/
namespace Assembler8080.Main

def toBytes (s : String) : Bytes := s.toUTF8.toList

/-- Text for the terminal or a path; bytes that are no text are shown as question marks. -/
def toText (b : Bytes) : String :=
  match String.fromUTF8? ⟨b.toArray⟩ with
  | some s => s
  | none => String.ofList (b.map fun x => if Byte.isAscii x then Char.ofNat x.toNat else '?')

def isDirectory (place : Bytes) : IO Bool := do
  try
    (← IO.FS.realPath (toText place)).isDir
  catch _ => return false

def contents? (place : Bytes) : IO (Option Bytes) := do
  try
    return some (← IO.FS.readBinFile (toText place)).toList
  catch _ => return none

/-- Adds what a path names and the directories that lead to it. -/
def look (directory : Bytes) (files : Files) (path : Bytes) : IO Files := do
  let names := Path.components path
  let mut found := files
  for n in List.range (names.length + 1) do
    let place := Path.absolute directory ([Byte.slash].intercalate (names.take n))
    if ← isDirectory place then
      found := found.addDirectories true place
  match ← contents? (Path.absolute directory path) with
  | some content => return found.addFile (Path.absolute directory path) content
  | none => return found

def paths (directory : Bytes) (arguments : List Bytes) : List Bytes :=
  match CommandLine.Request.read arguments with
  | .error _ | .ok .usage => []
  | .ok (.assembly first rest options) =>
    let path := Path.absolute directory first
    let made := [".bin", ".lst", ".xrf", ".err"].map fun e => Path.withExtension path (ascii e)
    first :: rest ++ [options.output] ++ made

def run (arguments : List Bytes) : IO UInt32 := do
  let directory := toBytes (← IO.currentDir).toString
  let start := Files.empty.addDirectories true directory
  let files ← (paths directory arguments).foldlM (look directory) start
  let outcome := CommandLine.run directory files arguments
  for (place, content) in outcome.files.contents.toList do
    if files.contents[place]? != some content then
      IO.FS.writeBinFile (toText place) ⟨content.toArray⟩
  IO.print (toText outcome.stdout)
  IO.eprint (toText outcome.stderr)
  return if outcome.failure.isSome then 1 else 0

end Assembler8080.Main

def main (arguments : List String) : IO UInt32 :=
  Assembler8080.Main.run (arguments.map Assembler8080.Main.toBytes)
