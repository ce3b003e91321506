import Assembler8080.CommandLine.Options
import Assembler8080.Report
import Assembler8080.Source.Load
import Assembler8080.Symbol.Dump

/-! The assembler as a command, on a tree of files: it assembles its source files as one program
and writes the image, and next to the first source file the report. -/
namespace Assembler8080.CommandLine

structure Outcome where
  stdout : Bytes
  stderr : Bytes
  failure : Option Bytes
  files : Files

/-- The end of a command that fails: the failure is reported after what was said before. -/
def failed (files : Files) (said message : Bytes) : Outcome :=
  ⟨[], said ++ ascii "Error: " ++ message ++ [Byte.lineFeed], some message, files⟩

def sayLine (s : Bytes) : Bytes := s ++ [Byte.lineFeed]

/-- Loads source files up to the first that cannot be loaded, which comes with its path. -/
def loadAll (files : Files) (directory : Bytes) :
    List Bytes → Except (Bytes × LoadFault) (List SourceFile)
  | [] => .ok []
  | path :: rest =>
    match SourceFile.load files directory path with
    | .error fault => .error (path, fault)
    | .ok source => (loadAll files directory rest).map (source :: ·)

def reportExtension : Report.Destination → Bytes
  | .listing => ascii ".lst"
  | .symbols => ascii ".xrf"
  | .errors => ascii ".err"

def destinations : List Report.Destination := [.listing, .symbols, .errors]

/-- Writes report files in order up to the first that cannot be written, which comes with its path
and the files before it. -/
def writeReports (directory base : Bytes) (content : Report.Destination → Bytes) (files : Files) :
    List Report.Destination → Except (Files × Bytes × FileFault) Files
  | [] => .ok files
  | destination :: rest =>
    let path := base ++ reportExtension destination
    match files.write directory path (content destination) with
    | .error fault => .error (files, path, fault)
    | .ok files => writeReports directory base content files rest

/-- The highest address of the image; the origin for an empty one. -/
def lastAddress (a : Assembly) : UInt16 :=
  if a.image.isEmpty then a.origin else a.origin + UInt16.ofNat (a.image.length - 1)

def summary (a : Assembly) (output : Bytes) : Bytes :=
  sayLine (ascii "assembled " ++ decimal a.image.length ++ ascii " bytes (" ++ hexWord a.origin
      ++ ascii "H-" ++ hexWord (lastAddress a) ++ ascii "H) in " ++ decimal a.passes
      ++ ascii " passes -> " ++ output)
    ++ if a.diagnostics.isEmpty then []
      else sayLine (decimal a.diagnostics.length ++ ascii " errors")

def faultNote (fault : AssemblyFault) : Bytes :=
  if fault.isUnresolved then fault.message else ascii "assembly failed: " ++ fault.message

/-- The end of the command, once the report is written or has failed: the image is written if the
assembly has not failed. -/
def finish (directory output : Bytes) (options : Options) (a : Assembly)
    (reportFailure : Option Bytes) (files : Files) : Outcome :=
  let said := a.diagnostics.flatMap (fun d => sayLine d.text)
    ++ if options.dumpSymbols then SymbolDump.text false a.state.symbols.symbols else []
  match a.fault reportFailure with
  | some fault => failed files (said ++ sayLine (faultNote fault)) fault.message
  | none =>
    match files.write directory output a.image with
    | .error fault =>
      failed files
        (said ++ sayLine (ascii "failed to write binary file " ++ Text.quote output ++ ascii ": "
          ++ fault.message)) fault.message
    | .ok files => ⟨summary a output, said, none, files⟩

def reportWrites (a : Assembly) : List Report.Write :=
  Report.writes (fun _ => true) a.lines a.state.symbols

/-- The failure of the first write of the report that there is no room for. -/
def reportFailure (base : Bytes) (room : Report.Room) (a : Assembly) : Option Bytes :=
  ((reportWrites a)[(Report.deliver room (reportWrites a)).made.length]?).map fun w =>
    ascii "write " ++ base ++ reportExtension w.destination ++ ascii ": no space left on device"

/-- The report files of an assembly. They are all made empty before it starts, and hold the writes
that there is room for. -/
def withReports (directory base : Bytes) (room : Report.Room) (a : Assembly) (files : Files) :
    Except (Files × Bytes × FileFault) Files := do
  let made ← writeReports directory base (fun _ => []) files destinations
  let report := Report.deliver room (reportWrites a)
  writeReports directory base report.content made destinations

def assemble (directory first : Bytes) (options : Options) (room : Report.Room)
    (sources : List SourceFile) (files : Files) : Outcome :=
  let path := Path.absolute directory first
  let base := Path.base path
  let a := Assembly.ofFiles sources
  let output := if options.output.isEmpty then Path.withExtension path (ascii ".bin")
    else options.output
  if options.listing then
    match withReports directory base room a files with
    | .error (files, report, fault) =>
      let message := ascii "create " ++ report ++ ascii ": " ++ fault.message
      failed files (sayLine (ascii "failed to create listing files: " ++ message)) message
    | .ok files => finish directory output options a (reportFailure base room a) files
  else finish directory output options a none files

/-- Loads the source files and assembles them, with room for so many writes to the report files. -/
def execute (directory first : Bytes) (rest : List Bytes) (options : Options) (room : Report.Room)
    (files : Files) : Outcome :=
  match loadAll files directory (first :: rest) with
  | .error (path, fault) =>
    failed files
      (sayLine (ascii "failed to read input file " ++ Text.quote path ++ ascii ": "
        ++ fault.message)) fault.message
  | .ok sources => assemble directory first options room sources files

def usage : Bytes :=
  ascii ("Assembles one or more 8080 source files into a single binary image.\n\n"
    ++ "Files are assembled in order as one program. Global labels ($NAME or GLOBAL NAME)\n"
    ++ "are shared between files; static labels are private to their file; .NAME labels\n"
    ++ "belong to the preceding static label.\n\n"
    ++ "Next to the first input it writes the binary (.bin), the listing (.lst), the\n"
    ++ "symbol table with cross references (.xrf) and the error file (.err).\n\n"
    ++ "Usage:\n  assembler8080 [flags] file...\n\nFlags:\n"
    ++ "      --dump-symbols   pretty-print the symbol table to stderr\n"
    ++ "  -h, --help           show this help\n"
    ++ "      --listing        write .lst, .xrf and .err files next to the first input (default true)\n"
    ++ "  -o, --out string     output binary file path (default: first input with .bin extension)\n")

def run (directory : Bytes) (files : Files) (arguments : List Bytes) : Outcome :=
  match Request.read arguments with
  | .error fault => failed files [] fault.message
  | .ok .usage => ⟨usage, [], none, files⟩
  | .ok (.assembly first rest options) => execute directory first rest options .unlimited files

end Assembler8080.CommandLine
