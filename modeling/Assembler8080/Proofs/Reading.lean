import Mathlib.Data.List.Nodup
import Mathlib.Data.List.Pairwise
import Assembler8080.Assembly
import Assembler8080.Proofs.Keys

/-! What the statements of a program are like. A property of expressions that holds of single values
and is kept by parentheses and operators holds of every expression that is read
(`Term.expression_yields`); so the labels of a statement are proper, and the directives that move
the address or name a value have one expression as their operand (`Statement.Proper`). -/
namespace Assembler8080

namespace Term

/-- A property of expressions that holds of whatever a reader can give. -/
structure Closed (scope : Scope) (line : Int) (holds : Expr → Prop) : Prop where
  missing : ∀ gap, holds (.missing gap)
  leaf : ∀ {c d e}, leaf? scope line c = some (e, d) → holds e
  group : ∀ {e} closed, holds e → holds (.group e closed)
  unary : ∀ {e} op, holds e → holds (.unary op e)
  binary : ∀ {e f} op, holds e → holds f → holds (.binary op e f)

section

variable {scope : Scope} {line : Int} {holds : Expr → Prop}

theorem chainFrom_yields (closed : Closed scope line holds) {operand : Reader Term}
    (operands : ∀ c, holds (operand.run c).1.expr) (level : Nat) (left : Term) (c : Cursor)
    (start : holds left.expr) : holds (chainFrom operand level left c).1.expr := by
  fun_induction chainFrom operand level left c with
  | case1 => exact start
  | case2 left c op found same right shorter ih =>
    exact ih (closed.binary op start (operands _))
  | case3 => exact start

theorem climb_yields (closed : Closed scope line holds) {value : Reader Term}
    (values : ∀ c, holds (value.run c).1.expr) (n : Nat) :
    ∀ c, holds ((climb value n).run c).1.expr := by
  induction n with
  | zero => exact values
  | succ n ih =>
    intro c
    dsimp only [climb, chain]
    split
    · exact ih c
    · exact chainFrom_yields closed ih _ _ _ (ih c)

theorem nestedValue_yields (closed : Closed scope line holds) {inner : Option (Reader Term)}
    (values : ∀ value ∈ inner, ∀ c, holds (value.run c).1.expr) (c : Cursor) :
    holds (nestedValue inner c).1.expr := by
  unfold nestedValue
  split
  · split
    next value =>
      have inside := climb_yields closed (values value rfl) BinaryOp.levels (c.advance 1)
      dsimp only [Term.group]
      split
      · exact closed.group _ inside
      · exact closed.group _ inside
    next => exact closed.missing _
  · split
    next op _ =>
      split
      next value =>
        have operand := values value rfl (c.advance op.symbol.length)
        dsimp only [Term.unary]
        split
        · exact operand
        · exact closed.unary op operand
      next => exact closed.missing _
    next => exact closed.missing _

theorem valueAround_yields (closed : Closed scope line holds) {inner : Option (Reader Term)}
    (values : ∀ value ∈ inner, ∀ c, holds (value.run c).1.expr) (c : Cursor) :
    holds ((valueAround scope line inner).run c).1.expr := by
  dsimp only [valueAround]
  split
  next e d found => exact closed.leaf found
  next => exact nestedValue_yields closed values _

theorem value_yields (closed : Closed scope line holds) (room : Nat) :
    ∀ c, holds ((value scope line room).run c).1.expr := by
  induction room with
  | zero => exact valueAround_yields closed (by simp)
  | succ room ih =>
    refine valueAround_yields closed fun value same => ?_
    obtain rfl := Option.some.inj same
    exact ih

theorem expression_yields (closed : Closed scope line holds) (level : Nat) (depth : Int)
    (c : Cursor) : holds ((expression scope line level depth).run c).1.expr :=
  climb_yields closed (value_yields closed _) _ c

end

end Term

namespace Expr

@[simp] theorem references_group (e : Expr) (closed : Bool) :
    (group e closed).references = e.references := rfl

@[simp] theorem references_unary (op : UnaryOp) (e : Expr) :
    (unary op e).references = e.references := rfl

end Expr

namespace Term

/-- The labels of an expression that is read in a proper scope are proper. -/
theorem closed_proper {scope : Scope} (above : scope.Proper) (line : Int) :
    Closed scope line fun e => ∀ r ∈ e.references, r.toLabel.Proper where
  missing gap r member := by simp [Expr.references, Expr.referencesOnto] at member
  leaf := by
    intro c d e found r member
    cases leafAt_of_leaf? found with
    | @label r' _ read =>
      obtain rfl : r = r' := by simpa [Expr.references, Expr.referencesOnto] using member
      exact Scope.reference?_proper above read
    | number | character | here => simp [Expr.references, Expr.referencesOnto] at member
  group _ inside := inside
  unary _ inside := inside
  binary op left right r member := by
    rw [Expr.references_binary] at member
    rcases List.mem_append.mp member with first | second
    · exact left r first
    · exact right r second

end Term

/-! ### Operands -/

def DataForm.Every (holds : Expr → Prop) : DataForm → Prop
  | byte e | word e => holds e
  | string _ => True

def OperandForm.Every (holds : Expr → Prop) : OperandForm → Prop
  | register _ _ => True
  | restart e | size e => holds e
  | data form => form.Every holds
  | list _ items _ => ∀ item ∈ items, item.Every holds

theorem DataForm.Every.references {holds : Reference → Prop} {form : DataForm}
    (every : form.Every fun e => ∀ r ∈ e.references, holds r) : ∀ r ∈ form.references, holds r := by
  cases form with
  | byte e => exact every
  | word e => exact every
  | string source => simp [DataForm.references]

theorem OperandForm.Every.references {holds : Reference → Prop} {form : OperandForm}
    (every : form.Every fun e => ∀ r ∈ e.references, holds r) : ∀ r ∈ form.references, holds r := by
  cases form with
  | register bank word => simp [OperandForm.references]
  | restart e => exact every
  | size e => exact every
  | data form => exact DataForm.Every.references every
  | list kind items text =>
    intro r member
    obtain ⟨item, inside, used⟩ := List.mem_flatMap.mp member
    exact (every item inside).references r used

section

variable {holds : Expr → Prop} {term : Reader Term}

namespace DataSource

theorem string_every (c : Cursor) :
    ∀ source, (string.run c).1 = some source → source.form.Every holds := by
  intro source read
  dsimp only [string] at read
  split at read
  · obtain rfl := Option.some.inj read
    trivial
  · contradiction

theorem byteItem_every (terms : ∀ c, holds (term.run c).1.expr) (c : Cursor) :
    ∀ source, ((byteItem term).run c).1 = some source → source.form.Every holds := by
  intro source read
  dsimp only [byteItem] at read
  split at read
  · exact string_every c source read
  · obtain rfl := Option.some.inj read
    exact terms c

theorem wordItem_every (terms : ∀ c, holds (term.run c).1.expr) (c : Cursor) :
    ∀ source, ((wordItem term).run c).1 = some source → source.form.Every holds := by
  intro source read
  dsimp only [wordItem] at read
  split at read
  · contradiction
  · obtain rfl := Option.some.inj read
    exact terms c

theorem slot_every {item : Reader (Option DataSource)}
    (items : ∀ c source, (item.run c).1 = some source → source.form.Every holds) (c : Cursor) :
    ∀ source, ((slot item).run c).1 = some source → source.form.Every holds := by
  intro source read
  dsimp only [slot] at read
  split at read
  · contradiction
  · exact items _ source read

theorem addItem_every {item : Option DataSource} {seen : List DataForm}
    (new : ∀ source, item = some source → source.form.Every holds)
    (old : ∀ form ∈ seen, form.Every holds) : ∀ form ∈ addItem item seen, form.Every holds := by
  cases item with
  | none => exact old
  | some source =>
    intro form member
    rcases List.mem_cons.mp member with rfl | inside
    · exact new source rfl
    · exact old form inside

theorem itemsFrom_every {item : Reader (Option DataSource)}
    (items : ∀ c source, (item.run c).1 = some source → source.form.Every holds)
    (seen : List DataForm) (c : Cursor) (old : ∀ form ∈ seen, form.Every holds) :
    ∀ form ∈ (itemsFrom item seen c).1, form.Every holds := by
  fun_induction itemsFrom item seen c with
  | case1 seen c read more shorter ih => exact ih (addItem_every (slot_every items c) old)
  | case2 seen c read last =>
    intro form member
    exact addItem_every (slot_every items c) old form (List.mem_reverse.mp member)

theorem list_every {kind : OperandKind} {item : Reader (Option DataSource)}
    (items : ∀ c source, (item.run c).1 = some source → source.form.Every holds) (c : Cursor) :
    ((list kind item).run c).1.form.Every holds :=
  itemsFrom_every items [] c.skipBlanks (by simp)

end DataSource

namespace OperandSources

open OperandSource DataSource

theorem one_every {first : Reader OperandSource} (every : ∀ c, (first.run c).1.form.Every holds)
    (c : Cursor) : ∀ o ∈ ((one first).run c).1.operands, o.form.Every holds := by
  intro o member
  obtain rfl := List.mem_singleton.mp member
  exact every c

theorem two_every {first second : Reader OperandSource}
    (left : ∀ c, (first.run c).1.form.Every holds) (right : ∀ c, (second.run c).1.form.Every holds)
    (c : Cursor) : ∀ o ∈ ((two first second).run c).1.operands, o.form.Every holds := by
  intro o member
  dsimp only [two] at member
  split at member
  · rcases List.mem_cons.mp member with rfl | inside
    · exact left c
    · obtain rfl := List.mem_singleton.mp inside
      exact right _
  · obtain rfl := List.mem_singleton.mp member
    exact left c

theorem register_every (bank : RegisterBank) (c : Cursor) :
    ((register bank).run c).1.form.Every holds := trivial

theorem ofTerm_every {form : Expr → OperandForm} (forms : ∀ e, holds e → (form e).Every holds)
    (terms : ∀ c, holds (term.run c).1.expr) (c : Cursor) :
    ((ofTerm form term).run c).1.form.Every holds := forms _ (terms c)

theorem restart_every (terms : ∀ c, holds (term.run c).1.expr) (c : Cursor) :
    ((restart term).run c).1.form.Every holds := by
  dsimp only [restart]
  split
  · trivial
  · exact terms c

/-- What holds of every expression that is read holds of the expressions in the operands. -/
theorem ofShape_every (terms : ∀ c, holds (term.run c).1.expr) (shape : Shape) (c : Cursor) :
    ∀ o ∈ ((ofShape term shape).run c).1.operands, o.form.Every holds := by
  cases shape with
  | bare | unknown =>
    intro o member
    exact absurd member List.not_mem_nil
  | target | source | pair | stackPair | indexPair => exact one_every (register_every _) c
  | targetSource => exact two_every (register_every _) (register_every _) c
  | byte | word | size => exact one_every (ofTerm_every (fun _ h => h) terms) c
  | targetByte | pairWord =>
    exact two_every (register_every _) (ofTerm_every (fun _ h => h) terms) c
  | restart => exact one_every (restart_every terms) c
  | byteList => exact one_every (list_every (byteItem_every terms)) c
  | wordList => exact one_every (list_every (wordItem_every terms)) c

end OperandSources

end

/-! ### Statements -/

theorem Catalog.mem_of_find? {mnemonic : Bytes} {i : Instruction}
    (found : Catalog.find? mnemonic = some i) : i ∈ Catalog.instructions := by
  simp only [Catalog.find?, Option.bind_eq_bind, Option.bind_eq_some_iff] at found
  obtain ⟨capitals, -, found⟩ := found
  exact List.mem_of_find?_eq_some found

/-- The shapes of the directives that take one expression, and of the one that takes none. -/
theorem Catalog.directive_shape : ∀ i ∈ Catalog.instructions,
    ((i.operation = .directive .org ∨ i.operation = .directive .equ) → i.shape = .word) ∧
      (i.operation = .directive .ds → i.shape = .size) ∧
      (i.operation = .directive .finish → i.shape = .bare) := by
  decide +kernel

/-- The directives that emit no data have the operands of their shapes. -/
structure Command.Shaped (c : Command) : Prop where
  word : c.instruction.operation = .directive .org ∨ c.instruction.operation = .directive .equ →
    ∃ column e, c.sources.operands = [⟨column, .data (.word e)⟩]
  size : c.instruction.operation = .directive .ds →
    ∃ column e, c.sources.operands = [⟨column, .size e⟩]
  finish : c.instruction.operation = .directive .finish → c.sources.operands = []

namespace Statement

/-- A statement as it is read from a line: its labels are proper, the one it declares carries the
place of the line, and a directive that needs a word has one expression as its operand. -/
structure Proper (s : Statement) : Prop where
  label : ∀ {d}, s.label = some d →
    d.toLabel.Proper ∧ d.file = s.location.file ∧ d.line = s.location.line
  references : ∀ r ∈ s.references, r.toLabel.Proper
  word : ∀ {c}, s.command = some c →
    (c.instruction.operation = .directive .org ∨ c.instruction.operation = .directive .equ) →
    ∃ column e, c.sources.operands = [⟨column, .data (.word e)⟩]
  size : ∀ {c}, s.command = some c → c.instruction.operation = .directive .ds →
    ∃ column e, c.sources.operands = [⟨column, .size e⟩]

theorem readLabel_proper {scope : Scope} (above : scope.Proper) (line : Int) (c : Cursor) :
    (readLabel scope line c).2.1.Proper ∧
      ∀ {d}, (readLabel scope line c).1 = some d →
        d.toLabel.Proper ∧ d.file = scope.file ∧ d.line = line := by
  unfold readLabel
  split
  next d after found =>
    have proper := Scope.declaration?_proper above found
    refine ⟨Scope.declare_proper above proper.1, fun same => ?_⟩
    obtain rfl := Option.some.inj same
    exact proper
  next => exact ⟨above, fun same => by contradiction⟩

theorem readLabel_file (scope : Scope) (line : Int) (c : Cursor) :
    (readLabel scope line c).2.1.file = scope.file := by
  unfold readLabel
  split
  · dsimp only [Scope.declare]
    split <;> rfl
  · rfl

theorem command_cases {term : Reader Term} {c : Cursor} {command : Command}
    (read : (Command.read term c).1 = some command) :
    command.instruction ∈ Catalog.instructions ∧
      ∃ d, command.sources =
        ((OperandSources.ofShape term command.instruction.shape).run d).1 := by
  unfold Command.read at read
  dsimp only at read
  split at read
  next => contradiction
  next i found =>
    obtain rfl := Option.some.inj read
    exact ⟨Catalog.mem_of_find? found, _, rfl⟩

theorem command_shaped {term : Reader Term} {c : Cursor} {command : Command}
    (read : (Command.read term c).1 = some command) : command.Shaped := by
  obtain ⟨listed, d, sources⟩ := command_cases read
  obtain ⟨word, size, bare⟩ := Catalog.directive_shape _ listed
  refine ⟨fun directive => ?_, fun directive => ?_, fun directive => ?_⟩
  · rw [word directive] at sources
    exact ⟨_, _, congrArg OperandSources.operands sources⟩
  · rw [size directive] at sources
    exact ⟨_, _, congrArg OperandSources.operands sources⟩
  · rw [bare directive] at sources
    exact congrArg OperandSources.operands sources

/-- A line is read in three parts: the label, then the command in the scope after the label, then
the comment. -/
theorem read_eq (scope : Scope) (number : Int) (text : Bytes) :
    read scope number text =
      let label := readLabel scope number (.atStart text)
      let command := Command.read (Term.full label.2.1 number) label.2.2
      (⟨⟨scope.file, number⟩, text, label.1, command.1, (readComment command.2).1⟩, label.2.1) := by
  unfold read
  generalize readLabel scope number (.atStart text) = label
  obtain ⟨declaration, inner, c⟩ := label
  rfl

theorem read_proper {scope : Scope} (above : scope.Proper) (number : Int) (text : Bytes) :
    (read scope number text).1.Proper := by
  obtain ⟨inner, label⟩ := readLabel_proper above number (.atStart text)
  rw [read_eq]
  generalize readLabel scope number (.atStart text) = parts at inner label ⊢
  have terms := Term.expression_yields (Term.closed_proper inner number) 0 0
  constructor
  · exact label
  · intro r member
    unfold Statement.references at member
    split at member
    next c command =>
      obtain ⟨-, d, sources⟩ := command_cases command
      obtain ⟨o, inside, used⟩ := List.mem_flatMap.mp member
      rw [sources] at inside
      exact (OperandSources.ofShape_every terms _ d o inside).references r used
    next => exact absurd member List.not_mem_nil
  · exact fun command => (command_shaped command).word
  · exact fun command => (command_shaped command).size

theorem read_scope_proper {scope : Scope} (above : scope.Proper) (number : Int) (text : Bytes) :
    (read scope number text).2.Proper ∧ (read scope number text).2.file = scope.file := by
  rw [read_eq]
  exact ⟨(readLabel_proper above number (.atStart text)).1, readLabel_file ..⟩

/-- The place of a statement as keys show it. -/
def place (s : Statement) : Bytes × Int := (keyFile s.location.file, s.location.line)

end Statement

/-! ### Programs -/

namespace SourceFile

/-- Each line has a number of its own, and none is zero, the line of what is not declared. -/
structure Numbered (f : SourceFile) : Prop where
  nonzero : ∀ l ∈ f.lines, l.number ≠ 0
  distinct : (f.lines.map (·.number)).Nodup

theorem joinFrom_numbered (seen : List LogicalLine) (first : Int) (current : Bytes) (number : Int)
    (rest : List Bytes) (start : 0 < first) (order : first ≤ number)
    (positive : ∀ l ∈ seen, 0 < l.number ∧ l.number < first)
    (increasing : (seen.map (·.number)).Pairwise (· > ·)) :
    (∀ l ∈ joinFrom seen first current number rest, 0 < l.number) ∧
      ((joinFrom seen first current number rest).map (·.number)).Pairwise (· < ·) := by
  induction rest generalizing seen first current number with
  | nil =>
    rw [joinFrom]
    constructor
    · intro l member
      rcases List.mem_cons.mp (List.mem_reverse.mp member) with rfl | inside
      · exact start
      · exact (positive l inside).1
    · rw [List.map_reverse, List.pairwise_reverse, List.map_cons, List.pairwise_cons]
      refine ⟨fun n member => ?_, increasing⟩
      obtain ⟨l, inside, rfl⟩ := List.mem_map.mp member
      exact (positive l inside).2
  | cons next rest ih =>
    unfold joinFrom
    split
    · exact ih _ _ _ _ start (by omega) positive increasing
    · refine ih _ _ _ _ (by omega) (Int.le_refl _) ?_ ?_
      · intro l member
        rcases List.mem_cons.mp member with rfl | inside
        · exact ⟨start, by dsimp only; omega⟩
        · have bounds := positive l inside
          omega
      · rw [List.map_cons, List.pairwise_cons]
        refine ⟨fun n member => ?_, increasing⟩
        obtain ⟨l, inside, rfl⟩ := List.mem_map.mp member
        exact (positive l inside).2

theorem name_ofText (name text : Bytes) : (ofText name text).name = name := by
  unfold ofText read
  cases physicalLines? text <;> rfl

theorem empty_numbered (name : Bytes) : Numbered ⟨name, []⟩ := ⟨by simp, by simp⟩

theorem read_numbered {name text : Bytes} {file : SourceFile}
    (accepted : read name text = .ok file) : file.Numbered := by
  unfold read at accepted
  split at accepted
  next lines _ =>
    obtain rfl := Except.ok.inj accepted
    cases lines with
    | nil => exact empty_numbered name
    | cons line rest =>
      obtain ⟨positive, increasing⟩ := joinFrom_numbered [] 1 line.reverse 1 rest Int.one_pos
        (Int.le_refl 1) (by simp) (by simp)
      exact ⟨fun l member => Int.ne_of_gt (positive l member), increasing.imp Int.ne_of_lt⟩
  next => contradiction

theorem ofText_numbered (name text : Bytes) : (ofText name text).Numbered := by
  unfold ofText
  split
  next file accepted => exact read_numbered accepted
  next => exact empty_numbered name

theorem statementsFrom_cons (scope : Scope) (line : LogicalLine) (rest : List LogicalLine) :
    statementsFrom [] scope (line :: rest) =
      (Statement.read scope line.number line.text).1 ::
        statementsFrom [] (Statement.read scope line.number line.text).2 rest := by
  rw [statementsFrom, statementsFrom_eq]
  rfl

theorem statementsFrom_proper {scope : Scope} (above : scope.Proper) (lines : List LogicalLine) :
    (∀ s ∈ statementsFrom [] scope lines, s.Proper) ∧
      (statementsFrom [] scope lines).map (·.location) =
        lines.map fun l => ⟨scope.file, l.number⟩ := by
  induction lines generalizing scope with
  | nil => simp [statementsFrom]
  | cons line rest ih =>
    obtain ⟨inner, file⟩ := Statement.read_scope_proper above line.number line.text
    obtain ⟨proper, locations⟩ := ih inner
    rw [statementsFrom_cons]
    constructor
    · intro s member
      rcases List.mem_cons.mp member with rfl | inside
      · exact Statement.read_proper above line.number line.text
      · exact proper s inside
    · rw [List.map_cons, List.map_cons, locations, file, Statement.read_eq]

theorem statementsFrom_read {scope : Scope} (above : scope.Proper) (lines : List LogicalLine) :
    ∀ s ∈ statementsFrom [] scope lines, ∃ inner : Scope, ∃ number text,
      inner.Proper ∧ s = (Statement.read inner number text).1 := by
  induction lines generalizing scope with
  | nil => simp [statementsFrom]
  | cons line rest ih =>
    rw [statementsFrom_cons]
    intro s member
    rcases List.mem_cons.mp member with rfl | inside
    · exact ⟨scope, _, _, above, rfl⟩
    · exact ih (Statement.read_scope_proper above line.number line.text).1 s inside

theorem statements_places (f : SourceFile) :
    f.statements.map Statement.place = f.lines.map fun l => (keyFile f.name, (l.number : Int)) := by
  have locations := (statementsFrom_proper (Scope.ofFile_proper f.name) f.lines).2
  have places := congrArg (List.map fun l : Location => (keyFile l.file, l.line)) locations
  rw [List.map_map, List.map_map] at places
  exact places

end SourceFile

/-- Statements as a program has them: proper, on numbered lines, no two at one place. -/
structure Orderly (statements : List Statement) : Prop where
  proper : ∀ s ∈ statements, s.Proper
  nonzero : ∀ s ∈ statements, s.location.line ≠ 0
  places : (statements.map Statement.place).Nodup

theorem program_sublist (files : List SourceFile) :
    (program files).Sublist (files.flatMap SourceFile.statements) := List.take_sublist ..

theorem program_location {files : List SourceFile} {s : Statement} (member : s ∈ program files) :
    ∃ f ∈ files, ∃ l ∈ f.lines, s.location = ⟨f.name, l.number⟩ := by
  obtain ⟨f, file, inside⟩ := List.mem_flatMap.mp ((program_sublist files).subset member)
  have location := List.mem_map_of_mem (f := Statement.location) inside
  rw [SourceFile.statements,
    (SourceFile.statementsFrom_proper (Scope.ofFile_proper f.name) f.lines).2] at location
  obtain ⟨l, line, same⟩ := List.mem_map.mp location
  exact ⟨f, file, l, line, same.symm⟩

/-- Every statement of a program is read from the text of a line, in a proper scope. -/
theorem program_read {files : List SourceFile} {s : Statement} (member : s ∈ program files) :
    ∃ scope : Scope, ∃ number text, scope.Proper ∧ s = (Statement.read scope number text).1 := by
  obtain ⟨f, -, inside⟩ := List.mem_flatMap.mp ((program_sublist files).subset member)
  exact SourceFile.statementsFrom_read (Scope.ofFile_proper f.name) f.lines s inside

theorem program_proper (files : List SourceFile) : ∀ s ∈ program files, s.Proper := by
  intro s member
  obtain ⟨f, -, inside⟩ := List.mem_flatMap.mp ((program_sublist files).subset member)
  exact (SourceFile.statementsFrom_proper (Scope.ofFile_proper f.name) f.lines).1 s inside

/-- Files with different names make an orderly program. -/
theorem program_orderly {files : List SourceFile}
    (distinct : (files.map fun f => keyFile f.name).Nodup)
    (numbered : ∀ f ∈ files, f.Numbered) : Orderly (program files) where
  proper := program_proper files
  nonzero := by
    intro s member
    obtain ⟨f, file, l, line, location⟩ := program_location member
    rw [location]
    exact (numbered f file).nonzero l line
  places := by
    refine ((program_sublist files).map Statement.place).nodup ?_
    rw [List.map_flatMap, List.nodup_flatMap]
    constructor
    · intro f file
      rw [f.statements_places]
      refine List.pairwise_map.mpr ((List.pairwise_map.mp (numbered f file).distinct).imp ?_)
      exact fun apart same => apart (congrArg Prod.snd same)
    · refine (List.pairwise_map.mp distinct).imp ?_
      intro f g apart place first second
      simp only [SourceFile.statements_places, List.mem_map] at first second
      obtain ⟨l, -, rfl⟩ := first
      obtain ⟨m, -, same⟩ := second
      exact apart (congrArg Prod.fst same).symm

def sourceFiles (sources : List (Bytes × Bytes)) : List SourceFile :=
  sources.map fun s => .ofText s.1 s.2

theorem names_sourceFiles (sources : List (Bytes × Bytes)) :
    (sourceFiles sources).map (·.name) = sources.map Prod.fst := by
  simp [sourceFiles, Function.comp_def, SourceFile.name_ofText]

theorem sourceFiles_named {sources : List (Bytes × Bytes)}
    (named : ∀ s ∈ sources, isConcrete s.1 = true) :
    ∀ f ∈ sourceFiles sources, isConcrete f.name = true := by
  intro f file
  obtain ⟨s, member, rfl⟩ := List.mem_map.mp file
  rw [SourceFile.name_ofText]
  exact named s member

theorem sourceFiles_numbered (sources : List (Bytes × Bytes)) :
    ∀ f ∈ sourceFiles sources, f.Numbered := by
  intro f file
  obtain ⟨s, -, rfl⟩ := List.mem_map.mp file
  exact SourceFile.ofText_numbered s.1 s.2

theorem sourceFiles_orderly {sources : List (Bytes × Bytes)}
    (distinct : (sources.map fun s => keyFile s.1).Nodup) :
    Orderly (program (sourceFiles sources)) := by
  refine program_orderly ?_ (sourceFiles_numbered sources)
  have names := congrArg (List.map keyFile) (names_sourceFiles sources)
  rw [List.map_map, List.map_map] at names
  exact names ▸ distinct

end Assembler8080
