import Assembler8080.Report
import Assembler8080.Source.Load
import Assembler8080.Symbol.Dump

/-! A look at every stage of an assembly: the logical lines, each line of the final pass with what
was read in it, and the symbols. -/
namespace Assembler8080.Inspection

def lineEnd : Bytes := [Byte.lineFeed]

def sourceText (f : SourceFile) : Bytes :=
  ascii "Source (" ++ decimal f.lines.length ++ ascii " logical lines)\n"
    ++ f.lines.flatMap fun l =>
      ascii "  " ++ alignRight 4 (signedDecimal l.number) ++ ascii "  " ++ l.text ++ lineEnd

def labelText (d : Declaration) : Bytes :=
  ascii "  label   " ++ d.kind.name ++ ascii " " ++ d.text ++ ascii " (parent "
    ++ Text.quote d.parent ++ ascii ")\n"

def instructionText (i : Instruction) : Bytes :=
  ascii "  instr   " ++ i.mnemonic ++ ascii " " ++ hexByte i.opcode ++ ascii " " ++ i.shape.name
    ++ lineEnd

def operandText (o : Operand) : Bytes :=
  ascii "  operand " ++ o.kind.name.padTo 8 ++ ascii " " ++ Bytes.padTo 12 (Text.quote o.text)
    ++ ascii " " ++ o.value.text ++ ascii " mod=" ++ hexByte o.opcodeBits ++ lineEnd

def faultText (d : Diagnostic) : Bytes := ascii "  error   " ++ d.text ++ lineEnd

def lineText (l : Line) : Bytes :=
  l.location.text ++ ascii "  " ++ l.start.text ++ ascii "  "
    ++ [Byte.blank].intercalate (l.bytes.map hexByte) ++ lineEnd
    ++ (l.statement.label.map labelText).getD []
    ++ (l.statement.command.map (instructionText ·.instruction)).getD []
    ++ l.operands.flatMap operandText
    ++ l.diagnostics.flatMap faultText

def summary (a : Assembly) : Bytes :=
  lineEnd ++ decimal a.passes ++ ascii " passes, unresolved per pass ["
    ++ [Byte.blank].intercalate (a.history.map decimal) ++ ascii "], " ++ decimal a.image.length
    ++ ascii " bytes at " ++ hexWord a.origin ++ ascii "H\n"

structure Outcome where
  stdout : Bytes
  stderr : Bytes
  succeeded : Bool

def ofSource (f : SourceFile) : Outcome :=
  let a := Assembly.ofFiles [f]
  let symbols := a.state.symbols
  let stdout := sourceText f ++ lineEnd ++ a.lines.flatMap lineText ++ lineEnd ++ symbols.overview
    ++ lineEnd ++ SymbolDump.text true symbols.symbols ++ summary a
  match a.fault none with
  | none => ⟨stdout, [], true⟩
  | some fault => ⟨stdout, ascii "assembly error: " ++ fault.message ++ lineEnd, false⟩

/-- The program that is inspected when none is named. -/
def sample : SourceFile :=
  .ofText (ascii "test.asm") (ascii
    ("        ORG 100H\nCOUNT   EQU 3\nSTART:  MVI B,COUNT\n.LOOP:  DCR B\n        JNZ .LOOP\n"
      ++ "        DB 'OK',0\n        END\n"))

/-- The argument that names the source file; two dashes may stand before it. -/
def path? : List Bytes → Option Bytes
  | [] => none
  | first :: rest => if first == [Byte.minus, Byte.minus] then rest.head? else some first

def run (directory : Bytes) (files : Files) (arguments : List Bytes) : Outcome :=
  match path? arguments with
  | none => ofSource sample
  | some path =>
    match SourceFile.load files directory path with
    | .error fault => ⟨[], ascii "read error: " ++ fault.message ++ lineEnd, false⟩
    | .ok source => ofSource source

end Assembler8080.Inspection
