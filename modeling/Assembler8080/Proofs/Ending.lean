import Assembler8080.Proofs.Independence
import Assembler8080.Proofs.Passes

/-! The end of a program. Whether a line has the mnemonic END shows in its text alone
(`endsProgram_read`): a label in front of it is as long in every scope. So a pass that reads its lines
one by one and stops after such a line stops at the same line whenever it is made, and assembles the
statements of `program` (`readingPass_eq`); and what stands after such a line is never read
(`program_drop_after`). -/
namespace Assembler8080

/-! ### The mnemonic of a line -/

def afterBlanks (s : Bytes) : Bytes := s.drop (Lexeme.blankRun s)

def afterLabel (text : Bytes) : Bytes :=
  match (declarationForms []).findSome? (declaredBy? (afterBlanks text)) with
  | some spelled => (afterBlanks text).drop spelled.length
  | none => text

def instructionWord (text : Bytes) : Bytes :=
  let start := afterBlanks (afterLabel text)
  start.take (Lexeme.letters start)

/-- Whether the mnemonic of a line, after its label, is END. -/
def isEndLine (text : Bytes) : Bool :=
  (Catalog.find? (instructionWord text)).any (·.mnemonic == ascii "END")

/-- END is the one mnemonic that ends a program. -/
theorem Catalog.endsProgram_eq : ∀ i ∈ Catalog.instructions,
    i.endsProgram = (i.mnemonic == ascii "END") := by
  decide +kernel

/-- A dotted name takes as many bytes under every parent. -/
theorem length_bareDotName? (parent : Bytes) (s : Bytes) :
    (declaredBy? s (Spelled.bareDotName? parent 0)).map (·.length) =
      (declaredBy? s (Spelled.bareDotName? [] 0)).map (·.length) := by
  unfold declaredBy? Spelled.bareDotName?
  cases Spelled.dotName? 0 s with
  | none => rfl
  | some found =>
    dsimp only [Option.map_some, Option.bind_eq_bind, Option.bind_some]
    cases declarationEnd? (s.drop found.2) <;> rfl

theorem length_declaration (parent : Bytes) (s : Bytes) :
    ((declarationForms parent).findSome? (declaredBy? s)).map (·.length) =
      ((declarationForms []).findSome? (declaredBy? s)).map (·.length) := by
  have split (parent : Bytes) : declarationForms parent =
      [Spelled.globalKeyword?, Spelled.dollarName?, Spelled.staticKeyword?, Spelled.plainName?,
        Spelled.localKeyword?, Spelled.parentDotName? 0] ++ [Spelled.bareDotName? parent 0] := rfl
  rw [split, split, List.findSome?_append, List.findSome?_append, Option.map_or, Option.map_or,
    List.findSome?_singleton, List.findSome?_singleton, length_bareDotName?]

namespace Statement

theorem rest_readLabel (scope : Scope) (number : Int) (text : Bytes) :
    (readLabel scope number (.atStart text)).2.2.rest = afterLabel text := by
  have lengths := length_declaration scope.parent (afterBlanks text)
  have start : (Cursor.atStart text).skipBlanks.rest = afterBlanks text := rfl
  unfold readLabel Scope.declaration? afterLabel
  dsimp only
  rw [start]
  cases own : (declarationForms scope.parent).findSome? (declaredBy? (afterBlanks text)) <;>
    cases free : (declarationForms []).findSome? (declaredBy? (afterBlanks text)) <;>
    rw [own, free] at lengths
  case none.none => rfl
  case none.some | some.none => exact absurd lengths (by simp)
  case some.some spelled spelled' =>
    have same : spelled.length = spelled'.length := Option.some.inj lengths
    dsimp only
    rw [Cursor.rest_advance, start, same]

/-- The instruction of a line is the one whose mnemonic follows the label. -/
theorem instruction_read (scope : Scope) (number : Int) (text : Bytes) :
    (read scope number text).1.command.map (·.instruction) =
      Catalog.find? (instructionWord text) := by
  have place := rest_readLabel scope number text
  rw [read_eq]
  generalize readLabel scope number (.atStart text) = parts at place ⊢
  have start : parts.2.2.skipBlanks.rest = afterBlanks (afterLabel text) := by
    rw [Cursor.skipBlanks, Cursor.rest_advance, place, afterBlanks]
  unfold Command.read instructionWord
  dsimp only
  rw [start]
  cases Catalog.find? ((afterBlanks (afterLabel text)).take
    (Lexeme.letters (afterBlanks (afterLabel text)))) <;> rfl

/-- A line ends the program by its text, in whatever scope it is read. -/
theorem endsProgram_read (scope : Scope) (number : Int) (text : Bytes) :
    (read scope number text).1.endsProgram = isEndLine text := by
  have instruction := instruction_read scope number text
  unfold isEndLine endsProgram
  rw [← instruction]
  cases command : (read scope number text).1.command with
  | none => rfl
  | some c =>
    rw [command] at instruction
    exact Catalog.endsProgram_eq _ (Catalog.mem_of_find? instruction.symm)

end Statement

theorem Statement.endsProgram_assemble (final : Bool) (state : State) (s : Statement) :
    (s.assemble final state).1.endsProgram = s.endsProgram := rfl

namespace LineRun

theorem endsProgram_ofStatement (final : Bool) (state : State) (x : Statement) (stop : Cursor)
    (scope : Scope) : (ofStatement final state x stop scope).endsProgram = x.endsProgram := by
  have same : (x.assemble final state).1.statement = x := rfl
  rw [endsProgram, ofStatement, same, Statement.endsProgram, Option.any_map]

theorem endsProgram_walk (scope : Scope) (number : Int) (text : Bytes) (final : Bool)
    (state : State) : (walk scope number text final state).endsProgram = isEndLine text := by
  have ends := (walk_alike_assembled scope number text final final state state).ends
  rw [ends, assembled, endsProgram_ofStatement, Statement.endsProgram_read]

end LineRun

/-! ### Up to the first -/

section Through

variable {α : Type} (p : α → Bool)

/-- A list up to and with the first element that has a property. -/
def through (l : List α) : List α := l.take (l.findIdx p + 1)

theorem through_cons (a : α) (l : List α) :
    through p (a :: l) = if p a then [a] else a :: through p l := by
  unfold through
  rw [List.findIdx_cons]
  cases p a <;> rfl

theorem through_append (l r : List α) :
    through p (l ++ r) = if l.any p then through p l else l ++ through p r := by
  induction l with
  | nil => rfl
  | cons a l ih =>
    rw [List.cons_append, through_cons, through_cons, ih, List.any_cons]
    cases p a <;> cases l.any p <;> rfl

theorem through_of_none {l : List α} (others : l.any p = false) : through p l = l := by
  have all := through_append p l []
  have nothing : through p [] = [] := List.take_nil
  rwa [others, if_neg Bool.false_ne_true, nothing, List.append_nil] at all

theorem through_append_cons {a : α} (ends : p a) (l r : List α) :
    through p (l ++ a :: r) = through p (l ++ [a]) := by
  rw [through_append, through_append, through_cons, through_cons, ends]
  rfl

theorem through_append_singleton {l : List α} (others : l.any p = false) (a : α) :
    through p (l ++ [a]) = l ++ [a] := by
  rw [through_append, others, if_neg Bool.false_ne_true, through_cons]
  cases p a <;> rfl

end Through

/-- The statements of all files, whether or not a line ends the program. -/
def allStatements (files : List SourceFile) : List Statement := files.flatMap SourceFile.statements

theorem program_eq_through (files : List SourceFile) :
    program files = through Statement.endsProgram (allStatements files) := rfl

/-! ### A pass that reads on -/

/-- Reads lines one by one and assembles each before it reads the next, after lines that are kept last
one first. After a line that ends the program it reads no more; the flag says whether there was one. -/
def SourceFile.readOn (final : Bool) (scope : Scope) (before : List Line × State) :
    List LogicalLine → (List Line × State) × Bool
  | [] => (before, false)
  | l :: rest =>
    let read := Statement.read scope l.number l.text
    let assembled := read.1.assemble final before.2
    let after := (assembled.1 :: before.1, assembled.2)
    if assembled.1.endsProgram then (after, true) else readOn final read.2 after rest

/-- Reads on through files, to the first line that ends the program. -/
def readFiles (final : Bool) (before : List Line × State) : List SourceFile → List Line × State
  | [] => before
  | f :: rest =>
    let read := SourceFile.readOn final (.ofFile f.name) before f.lines
    if read.2 then read.1 else readFiles final read.1 rest

/-- A pass over files that finds their end by itself. -/
def readingPass (final : Bool) (files : List SourceFile) (state : State) : List Line × State :=
  let run := readFiles final ([], { state with code := state.code.reset }) files
  (run.1.reverse, run.2)

namespace SourceFile

theorem readOn_eq (final : Bool) (scope : Scope) (before : List Line × State)
    (lines : List LogicalLine) :
    readOn final scope before lines =
      ((through Statement.endsProgram (statementsFrom [] scope lines)).foldl (passStep final) before,
        (statementsFrom [] scope lines).any Statement.endsProgram) := by
  induction lines generalizing scope before with
  | nil => rfl
  | cons l rest ih =>
    rw [readOn, statementsFrom_cons, through_cons, List.any_cons, ih]
    generalize Statement.read scope l.number l.text = read
    rw [Statement.endsProgram_assemble]
    cases read.1.endsProgram <;> rfl

/-- The lines of a file are read in the scope that the lines before them leave. -/
theorem statementsFrom_append (scope : Scope) (first : List LogicalLine) :
    ∃ inner, ∀ rest, statementsFrom [] scope (first ++ rest) =
      statementsFrom [] scope first ++ statementsFrom [] inner rest := by
  induction first generalizing scope with
  | nil => exact ⟨scope, fun rest => rfl⟩
  | cons l first ih =>
    obtain ⟨inner, later⟩ := ih (Statement.read scope l.number l.text).2
    refine ⟨inner, fun rest => ?_⟩
    rw [List.cons_append, statementsFrom_cons, statementsFrom_cons, later, List.cons_append]

theorem any_endsProgram (scope : Scope) (lines : List LogicalLine) :
    (statementsFrom [] scope lines).any Statement.endsProgram =
      lines.any fun l => isEndLine l.text := by
  induction lines generalizing scope with
  | nil => rfl
  | cons l rest ih =>
    rw [statementsFrom_cons, List.any_cons, List.any_cons, ih, Statement.endsProgram_read]

end SourceFile

/-- A pass that reads on assembles the statements of the program. -/
theorem readFiles_eq (final : Bool) (before : List Line × State) (files : List SourceFile) :
    readFiles final before files = (program files).foldl (passStep final) before := by
  induction files generalizing before with
  | nil => rfl
  | cons f rest ih =>
    rw [readFiles, SourceFile.readOn_eq, program_eq_through, allStatements,
      List.flatMap_cons, through_append, ← SourceFile.statements]
    cases others : f.statements.any Statement.endsProgram
    case true => rfl
    case false =>
      -- No line of the file ends the program: all are assembled, and then the files after it.
      dsimp only
      rw [if_neg Bool.false_ne_true, if_neg Bool.false_ne_true, ih, through_of_none _ others,
        List.foldl_append, program_eq_through, allStatements]

theorem readingPass_eq (final : Bool) (files : List SourceFile) (state : State) :
    readingPass final files state = pass final (program files) state := by
  unfold readingPass pass
  rw [readFiles_eq]

theorem statement_pass (final : Bool) (statements : List Statement) (state : State) :
    (pass final statements state).1.map (·.statement) = statements := by
  refine List.ext_getElem? fun i => ?_
  rw [List.getElem?_map, getElem?_pass, Option.map_map]
  exact Option.map_id_apply

/-! ### What stands after the end -/

theorem statements_around (before : List SourceFile) (name : Bytes) (first : List LogicalLine)
    (line : LogicalLine) :
    ∃ own : Statement × Scope, own.1.endsProgram = isEndLine line.text ∧ ∀ rest after,
      allStatements (before ++ ⟨name, first ++ line :: rest⟩ :: after) =
        allStatements (before ++ [⟨name, first⟩]) ++
          own.1 :: (SourceFile.statementsFrom [] own.2 rest ++ allStatements after) := by
  obtain ⟨inner, parts⟩ := SourceFile.statementsFrom_append (.ofFile name) first
  refine ⟨Statement.read inner line.number line.text,
    Statement.endsProgram_read inner line.number line.text, fun rest after => ?_⟩
  have file : SourceFile.statements ⟨name, first ++ line :: rest⟩ =
      SourceFile.statements ⟨name, first⟩ ++ SourceFile.statementsFrom [] inner (line :: rest) :=
    parts (line :: rest)
  unfold allStatements
  rw [List.flatMap_append, List.flatMap_cons, file, SourceFile.statementsFrom_cons,
    List.flatMap_append, List.flatMap_singleton]
  simp only [List.append_assoc, List.cons_append]

section AfterEnd

variable {before : List SourceFile} {name : Bytes} {first : List LogicalLine} {line : LogicalLine}

/-- The lines after one that ends the program, and the files after it, are not part of it. -/
theorem program_drop_after (ends : isEndLine line.text) (rest : List LogicalLine)
    (after : List SourceFile) :
    program (before ++ ⟨name, first ++ line :: rest⟩ :: after) =
      program (before ++ [⟨name, first ++ [line]⟩]) := by
  obtain ⟨own, last, around⟩ := statements_around before name first line
  rw [program_eq_through, program_eq_through, around rest after, around [] [],
    through_append_cons _ (last.trans ends)]
  rfl

/-- All lines up to the first that ends the program are. -/
theorem program_eq_of_first (earlier : ∀ f ∈ before, ∀ l ∈ f.lines, ¬ isEndLine l.text)
    (own : ∀ l ∈ first, ¬ isEndLine l.text) :
    program (before ++ [⟨name, first ++ [line]⟩]) =
      allStatements (before ++ [⟨name, first ++ [line]⟩]) := by
  obtain ⟨last, -, around⟩ := statements_around before name first line
  have others : (allStatements (before ++ [⟨name, first⟩])).any Statement.endsProgram = false := by
    rw [allStatements, List.any_flatMap, List.any_eq_false]
    intro f member
    rw [SourceFile.statements, SourceFile.any_endsProgram, Bool.not_eq_true, List.any_eq_false]
    rcases List.mem_append.mp member with inside | last
    · exact earlier f inside
    · obtain rfl := List.mem_singleton.mp last
      exact own
  rw [program_eq_through, around]
  exact through_append_singleton _ others last.1

end AfterEnd

/-- Nothing after an END line matters. An END line is one by its text, wherever a pass meets it; a pass
that reads its lines one by one stops at the first of them, and assembles the lines up to it; and an
assembly of files is, in every state, that of the files without what stands after an END line. -/
theorem nothing_after_end (before : List SourceFile) (name : Bytes) (first rest : List LogicalLine)
    (line : LogicalLine) (after : List SourceFile) (ends : isEndLine line.text) :
    let whole := before ++ ⟨name, first ++ line :: rest⟩ :: after
    let short := before ++ [⟨name, first ++ [line]⟩]
    (∀ state, Assembly.run whole state = Assembly.run short state) ∧
    (∀ final state, readingPass final whole state = pass final (program whole) state ∧
      readingPass final whole state = readingPass final short state) ∧
    ((∀ f ∈ before, ∀ l ∈ f.lines, ¬ isEndLine l.text) → (∀ l ∈ first, ¬ isEndLine l.text) →
      ∀ final state, (readingPass final whole state).1.map (·.statement) = allStatements short) ∧
    ∀ scope number text final state,
      (LineRun.walk scope number text final state).endsProgram = isEndLine text ∧
      ((Statement.read scope number text).1.assemble final state).1.endsProgram =
        isEndLine text := by
  intro whole short
  have same : program whole = program short := program_drop_after ends rest after
  refine ⟨fun state => ?_, fun final state => ⟨readingPass_eq .., ?_⟩, ?_, ?_⟩
  · unfold Assembly.run
    rw [same]
  · rw [readingPass_eq, readingPass_eq, same]
  · intro earlier own final state
    rw [readingPass_eq, statement_pass, same, program_eq_of_first earlier own]
  · intro scope number text final state
    rw [Statement.endsProgram_assemble, Statement.endsProgram_read]
    exact ⟨LineRun.endsProgram_walk .., rfl⟩

def openingLines : List LogicalLine := [⟨1, ascii " ORG 0"⟩, ⟨2, ascii "L: NOP"⟩]

/-- An END line with a label and a comment. -/
def endLine : LogicalLine := ⟨3, ascii ".X: end ; here"⟩

/-- A line that declares a label again and uses one that is nowhere declared. -/
def strayLine : LogicalLine := ⟨4, ascii "L: JMP Z"⟩

def laterFile : SourceFile := ⟨ascii "b", [⟨1, ascii "$Y: NOP"⟩]⟩

theorem nothing_after_end_strayLine :
    isEndLine endLine.text ∧
      Assembly.run [⟨ascii "a", openingLines ++ [endLine, strayLine]⟩, laterFile] .empty =
        Assembly.run [⟨ascii "a", openingLines ++ [endLine]⟩] .empty ∧
      (readingPass false [⟨ascii "a", openingLines ++ [endLine, strayLine]⟩, laterFile]
          .empty).1.map (·.statement) =
        allStatements [⟨ascii "a", openingLines ++ [endLine]⟩] := by
  have ends : isEndLine endLine.text := by decide +kernel
  have others : ∀ l ∈ openingLines, ¬ isEndLine l.text := by decide +kernel
  obtain ⟨same, -, stops, -⟩ :=
    nothing_after_end [] (ascii "a") openingLines [strayLine] endLine [laterFile] ends
  exact ⟨ends, same .empty, stops (by simp) others false .empty⟩

end Assembler8080
