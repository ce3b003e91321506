import Assembler8080.Files
import Assembler8080.Source

/-! Loading source files from a tree of files. -/
namespace Assembler8080

inductive LoadFault where
  | file (fault : FileFault)
  | source (fault : SourceFault)
  deriving Repr, DecidableEq

def LoadFault.message : LoadFault → Bytes
  | file fault =>
    match fault.operation with
    | .opening => ascii "open source: " ++ fault.message
    | .reading => ascii "read " ++ fault.path ++ ascii ": " ++ fault.message
  | source fault => fault.message

/-- Loads a source file. It is named by its path as given. -/
def SourceFile.load (files : Files) (directory path : Bytes) : Except LoadFault SourceFile :=
  match files.read directory path with
  | .error fault => .error (.file fault)
  | .ok text =>
    match SourceFile.read path text with
    | .error fault => .error (.source fault)
    | .ok source => .ok source

end Assembler8080
