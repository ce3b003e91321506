import Assembler8080.Line
import Assembler8080.Source

/-! Assembling a program. Passes over its statements repeat until every symbol has a value or a
pass leaves no fewer of them without one; a final pass then makes the image, the faults and the
listing. -/
namespace Assembler8080

namespace SourceFile

/-- Reads on after the statements `seen`, last one first. -/
def statementsFrom (seen : List Statement) (scope : Scope) : List LogicalLine → List Statement
  | [] => seen.reverse
  | line :: rest =>
    let read := Statement.read scope line.number line.text
    statementsFrom (read.1 :: seen) read.2 rest

theorem statementsFrom_eq (seen : List Statement) (scope : Scope) (lines : List LogicalLine) :
    statementsFrom seen scope lines = seen.reverse ++ statementsFrom [] scope lines := by
  induction lines generalizing seen scope with
  | nil => simp [statementsFrom]
  | cons line rest ih =>
    rw [statementsFrom, statementsFrom, ih, ih [_]]
    simp

def statements (f : SourceFile) : List Statement := statementsFrom [] (.ofFile f.name) f.lines

end SourceFile

/-- The statements of a program: those of its files in order, up to the one that ends it. -/
def program (files : List SourceFile) : List Statement :=
  let all := files.flatMap SourceFile.statements
  all.take (all.findIdx Statement.endsProgram + 1)

def passStep (final : Bool) (before : List Line × State) (s : Statement) : List Line × State :=
  let assembled := s.assemble final before.2
  (assembled.1 :: before.1, assembled.2)

def pass (final : Bool) (statements : List Statement) (state : State) : List Line × State :=
  let run := statements.foldl (passStep final) ([], { state with code := state.code.reset })
  (run.1.reverse, run.2)

/-- Repeats passes while each leaves fewer symbols without a value than `prior`, the count after
the one before it, and some. Gives the counts after all passes, and the state. -/
def settleFrom (statements : List Statement) (counts : List Nat) (prior : Nat) (state : State) :
    List Nat × State :=
  let after := (pass false statements state).2
  let count := after.symbols.unresolved
  if h : count = 0 ∨ prior ≤ count then ((count :: counts).reverse, after)
  else
    have : count < prior := Nat.lt_of_not_le fun le => h (.inr le)
    settleFrom statements (count :: counts) count after
termination_by prior
decreasing_by assumption

/-- All passes before the final one; there are at least two. -/
def settle (statements : List Statement) (state : State) : List Nat × State :=
  let first := (pass false statements state).2
  settleFrom statements [first.symbols.unresolved] first.symbols.unresolved first

structure Assembly where
  /-- How many symbols had no value after each pass before the final one. -/
  history : List Nat
  lines : List Line
  state : State

namespace Assembly

def passes (a : Assembly) : Nat := a.history.length + 1

def unresolved (a : Assembly) : Nat := a.state.symbols.unresolved

def image (a : Assembly) : Bytes := a.state.code.output

/-- The address of the first byte of the image; zero for an empty one. -/
def origin (a : Assembly) : UInt16 := (a.state.code.window.map (·.1)).getD 0

def diagnostics (a : Assembly) : List Diagnostic := a.lines.flatMap Line.diagnostics

/-- The addresses where the code of a line starts; of several lines at one address, the last. -/
def addressMap (a : Assembly) : Std.TreeMap UInt16 Location :=
  a.lines.foldl (fun places l =>
    match l.start with
    | some address => if l.bytes.isEmpty then places else places.insert address l.location
    | none => places) ∅

def run (files : List SourceFile) (state : State) : Assembly :=
  let statements := program files
  let settled := settle statements state
  let cleared := { settled.2 with symbols := settled.2.symbols.clearReferences }
  let final := pass true statements cleared
  ⟨settled.1, final.1, final.2⟩

def ofFiles (files : List SourceFile) : Assembly := run files .empty

end Assembly

inductive AssemblyFault where
  | report (cause : Bytes)
  | unresolved (passes count : Nat)
  deriving Repr, DecidableEq

namespace AssemblyFault

def message : AssemblyFault → Bytes
  | report cause => ascii "write report: " ++ cause
  | unresolved passes count =>
    ascii "assembly aborted after " ++ decimal passes ++ ascii " passes: " ++ decimal count
      ++ ascii " unresolved symbols"

def isUnresolved : AssemblyFault → Bool
  | report _ => false
  | unresolved _ _ => true

end AssemblyFault

/-- A failure of the report comes before symbols without a value. -/
def Assembly.fault (a : Assembly) (reportFailure : Option Bytes) : Option AssemblyFault :=
  match reportFailure with
  | some cause => some (.report cause)
  | none => if 0 < a.unresolved then some (.unresolved a.passes a.unresolved) else none

/-! ### A single text -/

inductive TextFault where
  | assembly (fault : AssemblyFault)
  | line (first : Diagnostic)

namespace TextFault

def kind : TextFault → Bytes
  | assembly _ => ascii "unresolved symbols"
  | line first => first.kind.name

def message : TextFault → Bytes
  | assembly fault => fault.message
  | line first => first.text

end TextFault

def assembleText (text : Bytes) : Except TextFault (Bytes × List (UInt16 × Int)) :=
  let a := Assembly.ofFiles [.ofText (ascii "main.asm") text]
  match a.fault none with
  | some fault => .error (.assembly fault)
  | none =>
    match a.diagnostics with
    | first :: _ => .error (.line first)
    | [] => .ok (a.image, a.addressMap.toList.map fun (address, place) => (address, place.line))

end Assembler8080
