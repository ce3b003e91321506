import Assembler8080.Proofs.Phase

/-! Lines of the final pass that report nothing. Zero bytes stand in an encoding for a value that is
unresolved or wrong, and a line that emits them must say so. The labels of a line without a fault have
values, its expressions are right, and where it needs the address it has one (`Command.emit_clean`); so
all its expressions have values (`Expr.resolved_of_labels`), and what it emits is made of these
(`Command.encodes_of_resolved`). -/
namespace Assembler8080

/-! ### Expressions -/

theorem Environment.undefined_eq_nil_iff {env : Environment} {references : List Reference} :
    env.undefined references = [] ↔ ∀ r ∈ references, (env.symbol r).value.isSome := by
  simp [undefined, List.filterMap_eq_nil_iff, Option.isSome_iff_ne_none]

namespace Expr

def Resolved (env : Environment) (e : Expr) : Prop := ∃ w, e.eval env = ⟨some w, none⟩

/-- Where the labels and the address have values, so has every expression that is right. -/
theorem resolved_of_labels {env : Environment} {e : Expr} (address : env.address.isSome)
    (labels : env.undefined e.references = []) (right : (e.eval env).fault = none) :
    e.Resolved env := by
  rw [Environment.undefined_eq_nil_iff] at labels
  induction e with
  | missing gap => exact absurd right (by simp [eval])
  | number literal =>
    unfold Resolved
    simp only [eval, evalNumber] at right ⊢
    split at right
    next w value => exact ⟨w, rfl⟩
    next => contradiction
  | label r =>
    obtain ⟨w, value⟩ := Option.isSome_iff_exists.mp (labels r (by simp [references, referencesOnto]))
    exact ⟨w, by rw [eval, value]⟩
  | character source byte => exact ⟨_, rfl⟩
  | here =>
    obtain ⟨w, value⟩ := Option.isSome_iff_exists.mp address
    exact ⟨w, by rw [eval, value]⟩
  | group inner closed ih =>
    simp only [eval, Evaluation.failWith, Option.or_eq_none_iff] at right
    obtain ⟨w, value⟩ := ih labels right.1
    exact ⟨w, by rw [eval, value, Evaluation.failWith, right.2]; rfl⟩
  | unary op operand ih =>
    obtain ⟨w, value⟩ := ih labels right
    exact ⟨op.apply w, by rw [eval, value]; rfl⟩
  | binary op left second ihLeft ihSecond =>
    rw [references_binary] at labels
    simp only [eval] at right
    split at right
    next gap =>
      simp only [Evaluation.failWith, Option.or_eq_none_iff] at right
      have fault : (second.eval env).fault.isSome = true := fault_of_isMissing gap
      rw [right.2] at fault
      contradiction
    next present =>
      simp only [Evaluation.combine, Option.or_eq_none_iff] at right
      obtain ⟨v, first⟩ := ihLeft (fun r member => labels r (List.mem_append_left _ member)) right.1.1
      obtain ⟨w, last⟩ := ihSecond (fun r member => labels r (List.mem_append_right _ member))
        right.1.2
      refine ⟨op.apply v w, ?_⟩
      rw [eval, if_neg present, Evaluation.combine, right.2, first, last]
      rfl

end Expr

/-! ### Operands -/

def OperandForm.items : OperandForm → List DataForm
  | data form => [form]
  | list _ items _ => items
  | register _ _ | restart _ | size _ => []

/-- The bytes of data are those of values and characters. -/
def DataForm.Encodes (env : Environment) : DataForm → Bytes → Prop
  | byte e, bytes => ∃ w, e.eval env = ⟨some w, none⟩ ∧ bytes = [lowByte w]
  | word e, bytes => ∃ w, e.eval env = ⟨some w, none⟩ ∧ bytes = wordBytes w
  | string source, bytes => bytes = quotedBytes source

/-- The bits that an operand sets in the opcode are those of a register or of a value. -/
def OperandForm.Sets (env : Environment) : OperandForm → UInt8 → Prop
  | register bank word, bits => ∃ n, bank.number? word = some n ∧ bits = bank.opcodeBits n
  | restart e, bits =>
    ∃ w, e.eval env = ⟨some w, none⟩ ∧ w ≤ 7 ∧ bits = RegisterBank.restart.opcodeBits w.toNat
  | data _, bits | list _ _ _, bits | size _, bits => bits = 0

section Operands

variable {env : Environment}

theorem DataForm.resolved_of_right {column : Nat} {form : DataForm} (address : env.address.isSome)
    (right : (form.operand env column).fault = none)
    (known : (form.operand env column).undefined = []) : form.Every (Expr.Resolved env) := by
  cases form with
  | byte e | word e => exact Expr.resolved_of_labels address known right
  | string source => trivial

theorem restartOperand_right {e : Expr} {column : Nat}
    (right : (restartOperand env e column).fault = none) : (e.eval env).fault = none := by
  unfold restartOperand at right
  dsimp only at right
  split at right
  next fault value => exact fault
  next => exact right

/-- The expressions of an operand without a fault have values where there is an address. -/
theorem OperandSource.resolved_of_right {s : OperandSource} (address : env.address.isSome)
    (right : (s.operand env).fault = none) (known : (s.operand env).undefined = []) :
    s.form.Every (Expr.Resolved env) := by
  rw [undefined_operand] at known
  obtain ⟨column, form⟩ := s
  cases form with
  | register bank word => trivial
  | restart e => exact Expr.resolved_of_labels address known (restartOperand_right right)
  | data form =>
    exact form.resolved_of_right address right ((form.undefined_operand env column).trans known)
  | list kind items text =>
    intro item member
    have faults : (items.map (·.operand env 0)).findSome? (·.fault) = none :=
      (Option.or_eq_none_iff.mp right).1
    rw [List.findSome?_eq_none_iff] at faults
    refine item.resolved_of_right address (faults _ (List.mem_map_of_mem member)) ?_
    rw [item.undefined_operand, Environment.undefined_eq_nil_iff]
    intro r used
    exact Environment.undefined_eq_nil_iff.mp known r (List.mem_flatMap_of_mem member used)
  | size e => exact Expr.resolved_of_labels address known right

theorem OperandForm.Every.items {holds : Expr → Prop} {form : OperandForm} (every : form.Every holds) :
    ∀ item ∈ form.items, item.Every holds := by
  intro item member
  cases form with
  | data form =>
    obtain rfl := List.mem_singleton.mp member
    exact every
  | list kind items text => exact every item member
  | register | restart | size => exact absurd member List.not_mem_nil

theorem DataForm.encodes_of_resolved {form : DataForm} (column : Nat)
    (resolved : form.Every (Expr.Resolved env)) :
    form.Encodes env (form.operand env column).bytes := by
  cases form with
  | byte e | word e =>
    obtain ⟨w, value⟩ := resolved
    refine ⟨w, value, ?_⟩
    simp [operand, value, Evaluation.placeholder]
  | string source => rfl

theorem OperandSource.sets_of_resolved {s : OperandSource} (right : (s.operand env).fault = none)
    (resolved : s.form.Every (Expr.Resolved env)) : s.form.Sets env (s.operand env).opcodeBits := by
  obtain ⟨column, form⟩ := s
  cases form with
  | register bank word =>
    unfold operand registerOperand at right ⊢
    dsimp only at right ⊢
    split at right
    next n found => exact ⟨n, found, rfl⟩
    next => contradiction
  | restart e =>
    obtain ⟨w, value⟩ := resolved
    unfold operand restartOperand at right ⊢
    simp only [value] at right ⊢
    split at right
    next => contradiction
    next small => exact ⟨w, value, UInt16.not_lt.mp small, by simp [small]⟩
  | data form => cases form <;> rfl
  | list kind items text => rfl
  | size e => rfl

theorem OperandSource.bytes_operand (s : OperandSource) :
    (s.operand env).bytes = s.form.items.flatMap fun form => (form.operand env 0).bytes := by
  obtain ⟨column, form⟩ := s
  cases form with
  | register bank word =>
    unfold operand registerOperand
    dsimp only
    split <;> rfl
  | restart e => exact (restartOperand_plain env e column).2.2.2
  | data form => cases form <;> exact (List.append_nil _).symm
  | list kind items text => exact List.flatMap_map ..
  | size e => rfl

end Operands

/-! ### Commands -/

/-- Whether an instruction puts its operands into the image. -/
def Instruction.emitsCode (i : Instruction) : Bool :=
  match i.operation with
  | .machine _ | .directive .db | .directive .dw => true
  | .directive .org | .directive .equ | .directive .ds | .directive .finish => false

namespace Command

def items (c : Command) : List DataForm := c.sources.operands.flatMap (·.form.items)

/-- The bytes of a command are those of its data, after an opcode with the bits of its operands. -/
def Encodes (env : Environment) (c : Command) (bytes : Bytes) : Prop :=
  match c.instruction.operation with
  | .machine opcode =>
    ∃ bits pieces, List.Forall₂ (fun o => o.form.Sets env) c.sources.operands bits ∧
      List.Forall₂ (DataForm.Encodes env) c.items pieces ∧
      bytes = bits.foldl (· ||| ·) opcode :: pieces.flatten
  | .directive .db | .directive .dw =>
    ∃ pieces, List.Forall₂ (DataForm.Encodes env) c.items pieces ∧ bytes = pieces.flatten
  | .directive .org | .directive .equ | .directive .ds | .directive .finish => bytes = []

theorem bytes_operands (env : Environment) (c : Command) :
    (c.operands env).flatMap (·.bytes) =
      (c.items.map fun form => (form.operand env 0).bytes).flatten := by
  rw [operands, items, List.flatMap_map, ← List.flatMap_def, List.flatMap_assoc]
  exact congrArg (List.flatMap · c.sources.operands) (funext OperandSource.bytes_operand)

theorem pieces_of_resolved {env : Environment} {c : Command}
    (resolved : ∀ o ∈ c.sources.operands, o.form.Every (Expr.Resolved env)) :
    List.Forall₂ (DataForm.Encodes env) c.items
      (c.items.map fun form => (form.operand env 0).bytes) := by
  rw [List.forall₂_map_right_iff, List.forall₂_same]
  intro form member
  obtain ⟨o, inside, item⟩ := List.mem_flatMap.mp member
  exact form.encodes_of_resolved 0 ((resolved o inside).items form item)

theorem encodes_of_resolved {env : Environment} {c : Command}
    (right : ∀ o ∈ c.sources.operands, (o.operand env).fault = none)
    (resolved : ∀ o ∈ c.sources.operands, o.form.Every (Expr.Resolved env))
    (code : c.instruction.emitsCode = true) :
    c.Encodes env (encoding c.instruction.operation (c.operands env)) := by
  have pieces := pieces_of_resolved resolved
  have data := bytes_operands env c
  unfold Encodes
  unfold Instruction.emitsCode at code
  split
  next opcode machine =>
    refine ⟨c.sources.operands.map fun o => (o.operand env).opcodeBits, _, ?_, pieces, ?_⟩
    · rw [List.forall₂_map_right_iff, List.forall₂_same]
      exact fun o member => o.sets_of_resolved (right o member) (resolved o member)
    · rw [machine, encoding, opcodeWith, data, operands, List.foldl_map, List.foldl_map]
  next db => exact ⟨_, pieces, by rw [db]; exact data⟩
  next dw => exact ⟨_, pieces, by rw [dw]; exact data⟩
  all_goals simp_all

theorem encodes_nil (env : Environment) {c : Command} (code : c.instruction.emitsCode = false) :
    c.Encodes env [] := by
  unfold Instruction.emitsCode at code
  unfold Encodes
  split <;> simp_all

/-- A directive without a fault has the word that it needs. -/
theorem wordOperand_clean {o : Operand} (mnemonic : Bytes) (right : o.fault = none)
    (clean : wordOperand [o] = none → unresolvedFaults mnemonic [o] = []) :
    ∃ w, wordOperand [o] = some w := by
  cases word : wordOperand [o] with
  | some w => exact ⟨w, rfl⟩
  | none => exact absurd (clean word) (by simp [unresolvedFaults, right])

/-- What a command does that reports nothing: the bytes it emits, and the word and the address that it
needs for it. -/
inductive Obeyed (i : Instruction) (operands : List Operand) (address : Value) : Bytes → Prop where
  | emits (code : i.emitsCode = true) (placed : address.isSome) :
      Obeyed i operands address (encoding i.operation operands)
  | assigns (directive : i.operation = .directive .org ∨ i.operation = .directive .equ)
      (word : (wordOperand operands).isSome) : Obeyed i operands address []
  | reserves (directive : i.operation = .directive .ds) (word : (wordOperand operands).isSome)
      (placed : address.isSome) : Obeyed i operands address []
  | ends (directive : i.operation = .directive .finish) : Obeyed i operands address []

theorem emitEncoding_clean {i : Instruction} {operands : List Operand} {right : Bool} {code : Image}
    (emits : i.emitsCode = true) (clean : (emitEncoding i operands right code).faults = []) :
    Obeyed i operands code.address (emitEncoding i operands right code).bytes := by
  unfold emitEncoding at clean ⊢
  cases placed : code.address with
  | none => simp [placed, nothing] at clean
  | some address => exact .emits emits rfl

theorem emit_clean {i : Instruction} {operands : List Operand} {right : Bool} {code : Image}
    (faultless : ∀ o ∈ operands, o.fault = none)
    (single : i.emitsCode = false → i.operation ≠ .directive .finish → ∃ o, operands = [o])
    (clean : (emit i operands right code).faults = []) :
    Obeyed i operands code.address (emit i operands right code).bytes := by
  obtain ⟨mnemonic, shape, operation⟩ := i
  cases operation with
  | machine opcode => exact emitEncoding_clean rfl clean
  | directive d =>
    cases d with
    | db | dw => exact emitEncoding_clean rfl clean
    | finish => exact .ends rfl
    | org | equ =>
      obtain ⟨o, rfl⟩ := single rfl (by simp)
      obtain ⟨w, word⟩ := wordOperand_clean mnemonic (faultless o List.mem_cons_self) fun wordless => by
        simpa [emit, wordless, nothing] using clean
      simp only [emit, word]
      exact .assigns (by simp) (by simp [word])
    | ds =>
      obtain ⟨o, rfl⟩ := single rfl (by simp)
      obtain ⟨w, word⟩ := wordOperand_clean mnemonic (faultless o List.mem_cons_self) fun wordless => by
        simpa [emit, wordless, nothing] using clean
      simp only [emit, word] at clean ⊢
      cases placed : code.address with
      | none => simp [placed, nothing] at clean
      | some address => exact .reserves rfl (by simp [word]) rfl

end Command

/-! ### Lines -/

theorem Operand.faults_eq_nil_iff {o : Operand} : o.faults = [] ↔ o.fault = none := by
  unfold faults
  split <;> simp [*]

/-- What a line of the final pass without a fault is like. -/
theorem Statement.parts_of_clean {s : Statement} {state : State}
    (clean : (s.assemble true state).1.faults = []) :
    (∀ o ∈ s.operands state.environment, o.fault = none ∧ o.undefined = []) ∧
      (s.defineLabel (s.used true state.symbols) (s.labelWord state.environment)).2 = [] ∧
      ∃ right, (s.emit (s.operands state.environment) right state.code).faults = [] ∧
        (s.assemble true state).1.bytes =
          (s.emit (s.operands state.environment) right state.code).bytes := by
  obtain ⟨right, faults, bytes⟩ := s.faults_assemble true state
  rw [clean, eq_comm, List.append_eq_nil_iff, List.append_eq_nil_iff, List.append_eq_nil_iff] at faults
  obtain ⟨⟨⟨read, label⟩, emission⟩, undefined⟩ := faults
  refine ⟨fun o member => ⟨?_, undefined_of_undefinedFaults undefined o member⟩, label, right, emission,
    bytes⟩
  unfold readFaults at read
  unfold operands at read member
  split at read
  next c command =>
    rw [command] at member
    simp only [Command.readFaults, Command.operandFaults, List.append_eq_nil_iff] at read
    exact Operand.faults_eq_nil_iff.mp (List.flatMap_eq_nil_iff.mp read.1.1.1 o member)
  next command => simp [command] at member

/-- The directives that emit no data, END apart, have one operand. -/
theorem Command.single_operand {c : Command}
    (word : c.instruction.operation = .directive .org ∨ c.instruction.operation = .directive .equ →
      ∃ column e, c.sources.operands = [⟨column, .data (.word e)⟩])
    (size : c.instruction.operation = .directive .ds →
      ∃ column e, c.sources.operands = [⟨column, .size e⟩]) (env : Environment)
    (data : c.instruction.emitsCode = false) (more : c.instruction.operation ≠ .directive .finish) :
    ∃ o, c.operands env = [o] := by
  unfold Instruction.emitsCode at data
  split at data
  case h_4 org =>
    obtain ⟨column, e, operands⟩ := word (.inl org)
    exact ⟨_, congrArg (List.map _) operands⟩
  case h_5 equ =>
    obtain ⟨column, e, operands⟩ := word (.inr equ)
    exact ⟨_, congrArg (List.map _) operands⟩
  case h_6 ds =>
    obtain ⟨column, e, operands⟩ := size ds
    exact ⟨_, congrArg (List.map _) operands⟩
  case h_7 finish => exact absurd finish more
  all_goals contradiction

namespace Statement

theorem read_shaped (scope : Scope) (number : Int) (text : Bytes) :
    ∀ c, (read scope number text).1.command = some c → c.Shaped := by
  rw [read_eq]
  generalize readLabel scope number (.atStart text) = parts
  exact fun c command => command_shaped command

theorem obeyed_clean {s : Statement} {state : State} {c : Command} (command : s.command = some c)
    (word : c.instruction.operation = .directive .org ∨ c.instruction.operation = .directive .equ →
      ∃ column e, c.sources.operands = [⟨column, .data (.word e)⟩])
    (size : c.instruction.operation = .directive .ds →
      ∃ column e, c.sources.operands = [⟨column, .size e⟩])
    (clean : (s.assemble true state).1.faults = []) :
    (∀ o ∈ c.operands state.environment, o.fault = none ∧ o.undefined = []) ∧
      Command.Obeyed c.instruction (c.operands state.environment) state.code.address
        (s.assemble true state).1.bytes := by
  obtain ⟨parts, -, right, emission, bytes⟩ := parts_of_clean clean
  have operands : s.operands state.environment = c.operands state.environment := by
    rw [Statement.operands, command]
  have emit : s.emit (c.operands state.environment) right state.code =
      Command.emit c.instruction (c.operands state.environment) right state.code := by
    rw [Statement.emit, command]
  rw [operands] at parts
  rw [operands, emit] at emission bytes
  rw [bytes]
  exact ⟨parts, Command.emit_clean (fun o member => (parts o member).1)
    (Command.single_operand word size _) emission⟩

/-- A command in a line without a fault: its expressions have values, and its bytes are made of
these. -/
theorem command_clean {s : Statement} {state : State} {c : Command}
    (command : s.command = some c) (shaped : c.Shaped)
    (clean : (s.assemble true state).1.faults = []) :
    (∀ o ∈ c.sources.operands, o.form.Every (Expr.Resolved state.environment)) ∧
      (c.instruction.emitsCode = true → state.code.address.isSome) ∧
      c.Encodes state.environment (s.assemble true state).1.bytes := by
  obtain ⟨parts, obeyed⟩ := obeyed_clean command shaped.word shaped.size clean
  have faultless o (member : o ∈ c.sources.operands) := parts _ (List.mem_map_of_mem member)
  generalize (s.assemble true state).1.bytes = bytes at obeyed ⊢
  cases obeyed with
  | emits code placed =>
    have resolved o (member : o ∈ c.sources.operands) :=
      OperandSource.resolved_of_right placed (faultless o member).1 (faultless o member).2
    exact ⟨resolved, fun _ => placed,
      Command.encodes_of_resolved (fun o member => (faultless o member).1) resolved code⟩
  | assigns directive word =>
    obtain ⟨column, e, only⟩ := shaped.word directive
    have code : c.instruction.emitsCode = false := by
      rcases directive with org | equ
      · simp [Instruction.emitsCode, org]
      · simp [Instruction.emitsCode, equ]
    rw [Command.operands, only] at word
    obtain ⟨w, value⟩ := Option.isSome_iff_exists.mp word
    refine ⟨?_, by simp [code], Command.encodes_nil _ code⟩
    rw [only, List.forall_mem_singleton]
    exact ⟨w, Expr.word_eq_some_iff.mp value⟩
  | reserves directive word placed =>
    obtain ⟨column, e, only⟩ := shaped.size directive
    have code : c.instruction.emitsCode = false := by simp [Instruction.emitsCode, directive]
    rw [Command.operands, only] at word
    obtain ⟨w, value⟩ := Option.isSome_iff_exists.mp word
    refine ⟨?_, fun _ => placed, Command.encodes_nil _ code⟩
    rw [only, List.forall_mem_singleton]
    exact ⟨w, Expr.word_eq_some_iff.mp value⟩
  | ends directive =>
    have code : c.instruction.emitsCode = false := by simp [Instruction.emitsCode, directive]
    refine ⟨?_, by simp [code], Command.encodes_nil _ code⟩
    rw [shaped.finish directive]
    exact fun o member => absurd member List.not_mem_nil

end Statement

/-- A line of the final pass without a fault emits no placeholder. Its operands have no fault and need
no undefined symbol; its expressions have values, and what it emits, at an address that is defined, is
an opcode with the bits of registers and restart numbers, and the bytes of values and strings. -/
theorem no_placeholders (scope : Scope) (number : Int) (text : Bytes) (state : State)
    (clean : ((Statement.read scope number text).1.assemble true state).1.faults = []) :
    let s := (Statement.read scope number text).1
    let line := (s.assemble true state).1
    (∀ o ∈ line.operands, o.fault = none ∧ o.undefined = []) ∧
    (∀ c, s.command = some c →
      (∀ o ∈ c.sources.operands, o.form.Every (Expr.Resolved state.environment)) ∧
      (c.instruction.emitsCode = true → state.code.address.isSome) ∧
      c.Encodes state.environment line.bytes) ∧
    (s.command = none → line.bytes = []) := by
  have shaped := Statement.read_shaped scope number text
  generalize (Statement.read scope number text).1 = s at clean shaped ⊢
  obtain ⟨operands, -, right, -, bytes⟩ := Statement.parts_of_clean clean
  refine ⟨operands, fun c command => ?_, fun command => ?_⟩
  · exact Statement.command_clean command (shaped c command) clean
  · rw [bytes, Statement.emit, command]
    rfl

/-- A line with a string and a value. -/
def greetingLine : Bytes := ascii "DB \"hi\",X+2"

def greetingState : State :=
  ((Statement.read (.ofFile (ascii "t.asm")) 1 (ascii "X EQU 5")).1.assemble false
    ⟨.empty, Image.empty.setAddress 256⟩).2

theorem no_placeholders_greetingLine :
    let s := (Statement.read (.ofFile (ascii "t.asm")) 2 greetingLine).1
    let line := (s.assemble true greetingState).1
    line.faults = [] ∧ line.bytes = ascii "hi" ++ [7] ∧
      ∃ c, s.command = some c ∧ c.Encodes greetingState.environment line.bytes := by
  intro s line
  have clean : line.faults = [] := by decide +kernel
  have bytes : line.bytes = ascii "hi" ++ [7] := by decide +kernel
  obtain ⟨c, command⟩ := Option.isSome_iff_exists.mp (show s.command.isSome = true by decide +kernel)
  obtain ⟨-, commands, -⟩ := no_placeholders (.ofFile (ascii "t.asm")) 2 greetingLine greetingState clean
  exact ⟨clean, bytes, c, command, (commands c command).2.2⟩

end Assembler8080
