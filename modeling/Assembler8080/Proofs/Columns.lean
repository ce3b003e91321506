import Assembler8080.Proofs.Step
import Assembler8080.Proofs.WalkGaps

/-! The columns of faults. A reader takes its columns from the places it comes to, which lie in the
line or right behind it; the faults of a line stand at the columns of its operands, where a comma is
missing, where unexpected text begins, at the label or at no place. So every column is one of the line
(`Statement.faults_column_le`). -/
namespace Assembler8080

namespace Cursor

structure On (text : Bytes) (c : Cursor) : Prop where
  rest : c.rest = text.drop c.offset
  within : c.offset ≤ text.length

variable {text : Bytes} {c d : Cursor}

theorem on_inside {i : Nat} (within : i ≤ text.length) : On text (inside text i) := ⟨rfl, within⟩

theorem on_atStart (text : Bytes) : On text (atStart text) := ⟨rfl, Nat.zero_le _⟩

theorem On.eq_inside (on : On text c) : c = inside text c.offset := by
  rw [inside, ← on.rest]

theorem On.length (on : On text c) : c.rest.length + c.offset = text.length := by
  have within := on.within
  rw [on.rest, List.length_drop]
  omega

theorem On.advance (on : On text c) (n : Nat) : On text (c.advance n) := by
  have length := on.length
  have place := offset_advance c n
  refine ⟨?_, by omega⟩
  rw [rest_advance, on.rest, List.drop_drop]
  by_cases fits : n ≤ c.rest.length
  · rw [place, Nat.min_eq_left fits]
  · rw [List.drop_eq_nil_of_le (by omega), List.drop_eq_nil_of_le (by omega)]

theorem On.skipBlanks (on : On text c) : On text c.skipBlanks := on.advance _

theorem On.reaches (on : On text c) (path : c.Reaches d) : On text d := by
  obtain ⟨n, rfl⟩ := path
  exact on.advance n

theorem On.column_le (on : On text c) : c.column ≤ text.length + 1 := Nat.succ_le_succ on.within

end Cursor

/-! ### Columns that are read -/

section Readers

variable {text : Bytes} {c : Cursor}

namespace Term

theorem chainFrom_column (operand : Reader Term) (level : Nat) (t : Term) (c : Cursor) :
    (chainFrom operand level t c).1.column = t.column := by
  fun_induction chainFrom operand level t c with
  | case1 | case3 => rfl
  | case2 t c op found same right shorter ih => exact ih

/-- An expression begins with its first value. -/
theorem climb_column (value : Reader Term) (n : Nat) (c : Cursor) :
    ((climb value n).run c).1.column = (value.run c).1.column := by
  induction n with
  | zero => rfl
  | succ n ih =>
    dsimp only [climb, chain]
    split
    · exact ih
    · rw [chainFrom_column, ih]

theorem nestedValue_column {inner : Option (Reader Term)} (on : c.On text)
    (values : ∀ value ∈ inner, ∀ c, c.On text → (value.run c).1.column ≤ text.length + 1) :
    (nestedValue inner c).1.column ≤ text.length + 1 := by
  fun_cases nestedValue inner c with
  | case1 paren value =>
    dsimp only [group]
    split <;> exact on.column_le
  | case2 | case4 | case5 => exact on.column_le
  | case3 paren op found value =>
    dsimp only [unary]
    split
    · exact values value rfl _ (on.advance _)
    · exact on.column_le

theorem value_column (scope : Scope) (line : Int) (room : Nat) (on : c.On text) :
    ((value scope line room).run c).1.column ≤ text.length + 1 := by
  have around {inner : Option (Reader Term)} {c : Cursor} (on : c.On text)
      (values : ∀ value ∈ inner, ∀ c, c.On text → (value.run c).1.column ≤ text.length + 1) :
      ((valueAround scope line inner).run c).1.column ≤ text.length + 1 := by
    dsimp only [valueAround]
    split
    · exact on.skipBlanks.column_le
    · exact nestedValue_column on.skipBlanks values
  induction room generalizing c with
  | zero => exact around on (by simp)
  | succ room ih =>
    refine around on fun inner inside c on => ?_
    obtain rfl := Option.some.inj inside
    exact ih on

theorem full_column (scope : Scope) (line : Int) (on : c.On text) :
    ((full scope line).run c).1.column ≤ text.length + 1 := by
  rw [full, expression, climb_column]
  exact value_column scope line _ on

end Term

variable {term : Reader Term}
  (terms : ∀ c : Cursor, c.On text → (term.run c).1.column ≤ text.length + 1)

/-- The columns of the operands that are read, and of a missing comma, are columns of the line. -/
structure OperandSources.Within (length : Nat) (sources : OperandSources) : Prop where
  operands : ∀ o ∈ sources.operands, o.column ≤ length + 1
  comma : ∀ column ∈ sources.missingComma, column ≤ length + 1

namespace OperandSources

variable {first second : Reader OperandSource}
  (firsts : ∀ c : Cursor, c.On text → (first.run c).1.column ≤ text.length + 1)
  (seconds : ∀ c : Cursor, c.On text → (second.run c).1.column ≤ text.length + 1)

include firsts

theorem one_within (on : c.On text) : ((one first).run c).1.Within text.length where
  operands o member := by
    obtain rfl := List.mem_singleton.mp member
    exact firsts c on
  comma _ missing := by contradiction

include seconds

theorem two_within (on : c.On text) : ((two first second).run c).1.Within text.length := by
  have comma := (on.reaches (first.reaches c)).skipBlanks
  dsimp only [two]
  split
  · refine ⟨fun o member => ?_, by simp⟩
    rcases List.mem_pair.mp member with rfl | rfl
    · exact firsts c on
    · exact seconds _ (comma.advance 1)
  · refine ⟨fun o member => ?_, fun column missing => ?_⟩
    · obtain rfl := List.mem_singleton.mp member
      exact firsts c on
    · obtain rfl := Option.some.inj missing
      exact comma.column_le

omit firsts seconds

include terms

theorem ofShape_within (shape : Shape) (on : c.On text) :
    ((ofShape term shape).run c).1.Within text.length := by
  have register (bank : RegisterBank) (c : Cursor) (on : c.On text) :
      ((OperandSource.register bank).run c).1.column ≤ text.length + 1 := on.skipBlanks.column_le
  have expression (form : Expr → OperandForm) (c : Cursor) (on : c.On text) :
      ((OperandSource.ofTerm form term).run c).1.column ≤ text.length + 1 := terms c on
  have restart (c : Cursor) (on : c.On text) :
      ((OperandSource.restart term).run c).1.column ≤ text.length + 1 := by
    dsimp only [OperandSource.restart]
    split
    · exact on.skipBlanks.column_le
    · exact terms c on
  have list (kind : OperandKind) (item : Reader (Option DataSource)) (c : Cursor) (on : c.On text) :
      ((DataSource.list kind item).run c).1.column ≤ text.length + 1 := on.skipBlanks.column_le
  cases shape with
  | bare | unknown => exact ⟨by simp [ofShape, none], by simp [ofShape, none]⟩
  | target | source | pair | stackPair | indexPair => exact one_within (register _) on
  | targetSource => exact two_within (register _) (register _) on
  | byte | word | size => exact one_within (expression _) on
  | targetByte | pairWord => exact two_within (register _) (expression _) on
  | restart => exact one_within restart on
  | byteList | wordList => exact one_within (list _ _) on

end OperandSources

structure Command.Within (length : Nat) (c : Command) : Prop where
  sources : c.sources.Within length
  unexpected : ∀ u ∈ c.unexpected, u.1 ≤ length + 1

include terms in
theorem Command.read_within (on : c.On text) :
    ∀ command ∈ (read term c).1, command.Within text.length := by
  intro command member
  dsimp only [read] at member
  split at member
  next => contradiction
  next instruction _ =>
    obtain rfl := Option.some.inj member
    have start := on.skipBlanks.advance (Lexeme.letters c.skipBlanks.rest)
    refine ⟨OperandSources.ofShape_within terms _ start, fun u found => ?_⟩
    simp only [unexpected?] at found
    split at found
    · contradiction
    · obtain rfl := Option.some.inj found
      exact (start.reaches (Reader.reaches _ _)).skipBlanks.column_le

theorem Statement.read_within (scope : Scope) (number : Int) (text : Bytes) :
    ∀ c ∈ (read scope number text).1.command, c.Within text.length := by
  have start := Cursor.on_atStart text
  dsimp only [read, readLabel]
  split
  next d after found =>
    exact Command.read_within (fun c on => Term.full_column _ number on)
      (start.reaches (Scope.declaration?_reaches found))
  next => exact Command.read_within (fun c on => Term.full_column _ number on) start

end Readers

/-! ### Columns of faults -/

theorem OperandSource.column_operand (env : Environment) (source : OperandSource) :
    (source.operand env).column = source.column := by
  obtain ⟨column, form⟩ := source
  cases form with
  | register bank word =>
    dsimp only [operand, registerOperand]
    split <;> rfl
  | restart e => exact (restartOperand_plain env e column).2.2.1
  | data form => cases form <;> rfl
  | list | size => rfl

section Faults

variable {length : Nat} {operands : List Operand} {f : LineFault}
  (placed : ∀ o ∈ operands, o.column ≤ length + 1)

include placed

namespace Command

theorem shapeFaults_column (shape : Shape) :
    ∀ f ∈ shapeFaults shape operands, f.column ≤ length + 1 := by
  unfold shapeFaults
  split
  next dst src =>
    have first := placed dst List.mem_cons_self
    split
    · simpa using first
    · simp
  next => simp
  next => simp

theorem readFaults_column {c : Command} (within : c.Within length)
    (member : f ∈ c.readFaults operands) : f.column ≤ length + 1 := by
  simp only [readFaults, operandFaults, List.mem_append, List.mem_flatMap, Option.mem_toList,
    Option.map_eq_some_iff] at member
  rcases member with ((⟨o, inside, own⟩ | ⟨column, missing, rfl⟩) | shape) | ⟨u, found, rfl⟩
  · unfold Operand.faults at own
    split at own
    · contradiction
    · obtain rfl := List.mem_singleton.mp own
      exact placed o inside
  · exact within.sources.comma column missing
  · exact shapeFaults_column placed _ f shape
  · exact within.unexpected u found

theorem emit_column (i : Instruction) (right : Bool) (code : Image) :
    ∀ f ∈ (emit i operands right code).faults, f.column ≤ length + 1 := by
  have unresolved (mnemonic : Bytes) : ∀ f ∈ unresolvedFaults mnemonic operands,
      f.column ≤ length + 1 := by
    unfold unresolvedFaults
    split
    · split <;> simp_all
    · simp
  have encoded : ∀ f ∈ (emitEncoding i operands right code).faults, f.column ≤ length + 1 := by
    unfold emitEncoding
    split
    · simp [nothing]
    · dsimp only
      split <;> simp
  fun_cases emit i operands right code with
  | case1 | case2 | case4 | case7 => simp [nothing]
  | case3 | case5 | case8 => exact unresolved _
  | case6 => simp [nothing]
  | case9 | case10 | case11 => exact encoded

end Command

omit placed in
theorem Statement.mem_of_noted {places : List (Nat × Bytes)}
    {met : Std.TreeSet Bytes × List (Nat × Bytes)} {place : Nat × Bytes}
    (member : place ∈ (places.foldl note met).2) : place ∈ met.2 ∨ place ∈ places := by
  induction places generalizing met with
  | nil => exact .inl member
  | cons first rest ih =>
    rcases ih member with early | late
    · unfold note at early
      split at early
      · exact .inl early
      · rcases List.mem_cons.mp early with rfl | before
        · exact .inr List.mem_cons_self
        · exact .inl before
    · exact .inr (List.mem_cons_of_mem _ late)

theorem Statement.undefinedFaults_column (member : f ∈ undefinedFaults operands) :
    f.column ≤ length + 1 := by
  simp only [undefinedFaults, List.mem_map, List.mem_reverse] at member
  obtain ⟨place, noted, rfl⟩ := member
  rcases mem_of_noted noted with unmet | met
  · contradiction
  · obtain ⟨o, inside, name⟩ := List.mem_flatMap.mp met
    obtain ⟨_, -, rfl⟩ := List.mem_map.mp name
    exact placed o inside

end Faults

theorem SymbolTable.define_column {t : SymbolTable} {d : Declaration} {v : Value} :
    ∀ f ∈ (t.define d v).2, f.column = 1 := by
  fun_cases define t d v <;> simp

namespace Statement

/-- Every fault of a line that is read and assembled is at a column of the line. -/
theorem faults_column_le (scope : Scope) (number : Int) (text : Bytes) (final : Bool)
    (state : State) :
    ∀ f ∈ ((read scope number text).1.assemble final state).1.faults,
      f.column ≤ text.length + 1 := by
  have within := read_within scope number text
  generalize (read scope number text).1 = s at within
  have placed : ∀ o ∈ s.operands state.environment, o.column ≤ text.length + 1 := by
    intro o member
    unfold operands at member
    split at member
    next c command =>
      obtain ⟨source, inside, rfl⟩ := List.mem_map.mp member
      rw [OperandSource.column_operand]
      exact (within c command).sources.operands source inside
    next => contradiction
  obtain ⟨right, faults, -⟩ := faults_assemble final state s
  intro f member
  rw [faults] at member
  simp only [List.mem_append] at member
  rcases member with ((own | label) | code) | undefined
  · unfold readFaults at own
    split at own
    next c command => exact Command.readFaults_column placed (within c command) own
    next => contradiction
  · unfold defineLabel at label
    split at label
    · have first := SymbolTable.define_column f label
      omega
    · contradiction
  · unfold emit at code
    split at code
    · exact Command.emit_column placed _ right _ f code
    · contradiction
  · split at undefined
    · exact undefinedFaults_column placed undefined
    · contradiction

end Statement

end Assembler8080
