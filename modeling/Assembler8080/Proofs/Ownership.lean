import Assembler8080.Proofs.Duplicates

/-! Symbols and the lines that own them. In the final pass every look-up finds its entry, so that a
line can do two things to a symbol: note that it uses it (`Symbol.addUses`), and give it a value, if
the line owns it. Every declared symbol is owned by one line, the one that stands at its place, and
is left with the value that the line shows in the listing. -/
namespace Assembler8080

def Symbol.addUses (s : Symbol) (n : Nat) (l : Location) : Symbol :=
  { s with uses := List.replicate n l ++ s.uses }

theorem Symbol.addUses_addUse (s : Symbol) (n : Nat) (l : Location) :
    (s.addUse l).addUses n l = s.addUses (n + 1) l := by
  simp [addUses, addUse, List.replicate_succ']

def Statement.usesOf (s : Statement) (t : SymbolTable) (key : Bytes) : Nat :=
  s.references.countP fun r => t.referenceKey r = key

/-! ### What a line does to a symbol -/

namespace SymbolTable

variable {t : SymbolTable} {d : Declaration} {key : Bytes} {x : Symbol}

/-- Uses of known labels in the final pass: a symbol is noted once for each reference to it. -/
theorem Consistent.get?_uses (valid : t.Consistent) (l : Location) {references : List Reference}
    (proper : ∀ r ∈ references, r.toLabel.Proper)
    (known : ∀ r ∈ references, t.Known r.asDeclaration) (found : t.get? key = some x) :
    (references.foldl (SymbolTable.use true l) t).get? key =
      some (x.addUses (references.countP fun r => t.referenceKey r = key) l) := by
  induction references generalizing t x with
  | nil => exact found
  | cons r rest ih =>
    have first : t.use true l r = t.addReference (t.referenceKey r) l := by
      rw [valid.use_eq (proper r List.mem_cons_self), if_pos rfl,
        valid.refer_of_known (proper r List.mem_cons_self) (known r List.mem_cons_self)]
    have labels := addReference_sameLabels t (t.referenceKey r) l
    have later {y : Symbol} := ih (x := y) (labels.consistent valid)
      (fun r' member => proper r' (List.mem_cons_of_mem _ member))
      (fun r' member => labels.known (known r' (List.mem_cons_of_mem _ member)))
    rw [List.foldl_cons, first]
    by_cases same : t.referenceKey r = key
    · rw [List.countP_cons_of_pos (by simpa using same), ← Symbol.addUses_addUse]
      apply later
      simp [get?_addReference, same, found]
    · rw [List.countP_cons_of_neg (by simpa using same)]
      apply later
      simp [get?_addReference, same, found]

/-- The owner of a symbol gives it its value, unless it would take one away: then it keeps the old
one and reports it. -/
theorem Consistent.define_of_own (valid : t.Consistent) (proper : d.toLabel.Proper)
    (fixed : t.Fixed d) (found : t.get? d.key = some x) (line : x.line = d.line) (v : Value) :
    (t.define d v).1.get? d.key = some { x with value := v } ∨
      v = none ∧ (t.define d v).1.get? d.key = some x ∧
        ∃ f ∈ (t.define d v).2, f.fault.kind = .internal := by
  rw [SymbolTable.define]
  obtain ⟨s, u, hit, -, entries, -, accepted⟩ | ⟨other, -⟩ := valid.declare_of_fixed proper fixed
  · simp only [accepted, entries, found]
    by_cases lost : (x.value.isSome && v.isNone) = true
    · rw [if_pos lost]
      simp only [Bool.and_eq_true, Option.isNone_iff_eq_none] at lost
      exact .inr ⟨lost.2, (entries _).trans found, _, List.mem_singleton_self _, rfl⟩
    · rw [if_neg lost]
      simp [get?_assign, entries, found]
  · exact absurd line (other x found)

end SymbolTable

namespace Statement

variable {s : Statement} {state : State} {d : Declaration} {key : Bytes} {x : Symbol}
  (proper : s.Proper) (valid : state.symbols.Consistent) (settled : state.symbols.Settled s)

include proper valid settled

theorem get?_used (found : state.symbols.get? key = some x) :
    (s.used true state.symbols).get? key =
      some (x.addUses (s.usesOf state.symbols key) s.location) :=
  valid.get?_uses s.location proper.references settled.references found

theorem used_fixed (label : s.label = some d) :
    (s.used true state.symbols).Consistent ∧ (s.used true state.symbols).Fixed d := by
  have uses := (valid.alike_uses true s.location proper.references settled.references).shape
  exact ⟨uses.sameLabels.consistent valid, uses.fixed (settled.label label)⟩

/-- A line that does not own a symbol does no more than to use it. -/
theorem get?_assemble_other (found : state.symbols.get? key = some x)
    (other : ∀ {d}, s.label = some d → d.key = key → d.line ≠ x.line) :
    (s.assemble true state).2.symbols.get? key =
      some (x.addUses (s.usesOf state.symbols key) s.location) := by
  have used := get?_used proper valid settled found
  rw [symbols_assemble]
  unfold defineLabel
  split
  next d label =>
    obtain ⟨kept, fixed⟩ := used_fixed proper valid settled label
    obtain ⟨entries, -⟩ := kept.tables_define_of_fixed (proper.label label).1
      (s.labelWord state.environment) fixed
    rw [entries]
    by_cases same : d.key = key
    · have refuses : (s.used true state.symbols).accepts d (s.labelWord state.environment) =
          false := by
        simp [SymbolTable.accepts, same, used, Symbol.addUses, (other label same).symm]
      rw [refuses]
      exact used
    · split
      · rw [SymbolTable.get?_assign, if_neg same]
        exact used
      · exact used
  next => exact used

/-- The line that owns a symbol leaves it with the value of its label, or with none, or reports that
it would be lost. -/
theorem get?_assemble_own (label : s.label = some d) (found : state.symbols.get? d.key = some x)
    (line : x.line = d.line) :
    ∃ y, (s.assemble true state).2.symbols.get? d.key = some y ∧
      (y.value = s.labelWord state.environment ∨ s.labelWord state.environment = none ∧
        ∃ f ∈ (s.assemble true state).1.diagnostics, f.kind = .internal) := by
  obtain ⟨kept, fixed⟩ := used_fixed proper valid settled label
  have used := get?_used proper valid settled found
  have report := mem_diagnostics_of_label true state s
  rw [symbols_assemble]
  simp only [defineLabel, label] at report ⊢
  rcases kept.define_of_own (proper.label label).1 fixed used line _ with
    given | ⟨unresolved, left, f, member, kind⟩
  · exact ⟨_, given, .inl rfl⟩
  · exact ⟨_, left, .inr ⟨unresolved, _, report f member, kind⟩⟩

end Statement

/-! ### The final pass -/

section Final

variable {files : List SourceFile}

theorem finalStart_settled : ∀ s ∈ program files, (finalStart files).symbols.Settled s := by
  intro s member
  obtain ⟨n, length, -⟩ := Assembly.history_run files .empty
  have start : State.empty.symbols.Consistent := SymbolTable.empty_consistent
  have settled := afterPasses_settled (program_proper files) start (n + 1)
  rw [finalStart_eq]
  refine (SymbolTable.clearReferences_alike _).shape.settled ?_
  exact length ▸ settled s member

theorem finalAt_alike {i j : Nat} (left : i ≤ (program files).length)
    (right : j ≤ (program files).length) :
    SymbolTable.Alike Symbol.shape (finalAt files i).symbols (finalAt files j).symbols := by
  have alike {k : Nat} (bound : k ≤ (program files).length) :=
    passAt_alike (program_proper files) (finalStart_consistent files) finalStart_settled true bound
  exact (alike left).symm.trans (alike right)

theorem finalAt_settled {j : Nat} {s : Statement} (at_j : (program files)[j]? = some s) :
    s.Proper ∧ (finalAt files j).symbols.Consistent ∧ (finalAt files j).symbols.Settled s := by
  have proper := program_proper files
  have member := List.mem_of_getElem? at_j
  have bound := (List.getElem?_eq_some_iff.mp at_j).1.le
  have start := finalStart_consistent files
  refine ⟨proper s member, passAt_consistent proper start bound, ?_⟩
  exact (passAt_alike proper start finalStart_settled true bound).settled
    (finalStart_settled s member)

theorem finalAt_other (orderly : Orderly (program files)) {i j : Nat} {s s' : Statement}
    {d : Declaration} {x : Symbol} (at_i : (program files)[i]? = some s) (label : s.label = some d)
    (at_j : (program files)[j]? = some s') (apart : j ≠ i)
    (found : (finalAt files j).symbols.get? d.key = some x) (line : x.line = d.line) :
    (finalAt files (j + 1)).symbols.get? d.key =
      some (x.addUses (s'.usesOf (finalAt files j).symbols d.key) s'.location) := by
  obtain ⟨proper, valid, settled⟩ := finalAt_settled at_j
  have step : finalAt files (j + 1) = (s'.assemble true (finalAt files j)).2 := passAt_succ at_j
  rw [step]
  apply Statement.get?_assemble_other proper valid settled found
  intro d' label' key same
  exact apart (orderly.index_eq at_j at_i label' label key (same.trans line))

/-- After its owner no line changes the value of a symbol. -/
theorem finalAt_value (orderly : Orderly (program files)) {i : Nat} {s : Statement}
    {d : Declaration} {y : Symbol} (at_i : (program files)[i]? = some s) (label : s.label = some d)
    (found : (finalAt files (i + 1)).symbols.get? d.key = some y) (line : y.line = d.line) {j : Nat}
    (order : i + 1 ≤ j) (bound : j ≤ (program files).length) :
    ∃ x, (finalAt files j).symbols.get? d.key = some x ∧ x.line = d.line ∧ x.value = y.value := by
  induction j, order using Nat.le_induction with
  | base => exact ⟨y, found, line, rfl⟩
  | succ j order ih =>
    obtain ⟨x, before, number, value⟩ := ih (by omega)
    have at_j : (program files)[j]? = some (program files)[j] := List.getElem?_eq_getElem (by omega)
    exact ⟨_, finalAt_other orderly at_i label at_j (by omega) before number, number, value⟩

/-- A symbol that is declared at the end is owned by the line at its place. -/
theorem finalAt_owner (concrete : Concrete (program files)) {key : Bytes} {x : Symbol}
    (found : (finalAt files (program files).length).symbols.get? key = some x)
    (declared : x.line ≠ 0) :
    ∃ (i : Nat) (s : Statement) (d : Declaration), (program files)[i]? = some s ∧
      s.label = some d ∧ d.key = key ∧ d.line = x.line ∧ s.location = ⟨x.file, x.line⟩ := by
  obtain ⟨valid, first⟩ := passStarts_firstCome concrete (true, finalStart files)
    (List.mem_append_right _ (List.mem_singleton_self _))
  have served := passAt_served concrete true valid first le_rfl
  obtain ⟨i, d, owner, rfl, line⟩ := served.first.owner found declared
  obtain ⟨s, at_i, label⟩ := owner.declares
  have member := List.mem_of_getElem? at_i
  obtain ⟨proper, file, number⟩ := (concrete.proper s member).label label
  obtain ⟨properSymbol, self⟩ := served.consistent.keyed found
  obtain ⟨-, files⟩ := Label.key_inj properSymbol proper self
  have same : x.file = d.file := SymbolTable.file_of_keyFile files (file ▸ concrete.files s member)
  refine ⟨i, s, d, at_i, label, rfl, line, ?_⟩
  rw [same, file, ← line, number]

/-- The owner leaves a symbol with the value of its label, or reports that it would be lost. -/
theorem finalAt_owned (orderly : Orderly (program files)) {i : Nat} {s : Statement}
    {d : Declaration} {x : Symbol} (at_i : (program files)[i]? = some s) (label : s.label = some d)
    (found : (finalAt files (program files).length).symbols.get? d.key = some x)
    (line : x.line = d.line) :
    x.value = s.labelWord (finalAt files i).environment ∨
      s.labelWord (finalAt files i).environment = none ∧
        ∃ f ∈ (s.assemble true (finalAt files i)).1.diagnostics, f.kind = .internal := by
  have inside := (List.getElem?_eq_some_iff.mp at_i).1
  obtain ⟨proper, valid, settled⟩ := finalAt_settled at_i
  obtain ⟨before, start, number⟩ := (finalAt_alike le_rfl inside.le).line found
  obtain ⟨y, given, value⟩ := Statement.get?_assemble_own proper valid settled label start
    (number.trans line)
  have step : finalAt files (i + 1) = (s.assemble true (finalAt files i)).2 := passAt_succ at_i
  rw [← step] at given
  obtain ⟨last, ends, number'⟩ := (finalAt_alike inside le_rfl).line given
  obtain rfl := Option.some.inj (ends.symm.trans found)
  obtain ⟨last', ends', -, same⟩ := finalAt_value orderly at_i label given
    (number'.symm.trans line) inside le_rfl
  obtain rfl := Option.some.inj (ends'.symm.trans found)
  rw [same]
  exact value

end Final

/-- The value that a line of the listing has for its label: the word of the operand of ORG and EQU,
if the operand is right and has a value, and the address of any other line. -/
def Line.labelled (l : Line) : Value :=
  Command.labelValue (l.statement.command.map (·.instruction.operation)) l.operands l.start

/-- For files with different names, all concrete: a symbol that is declared at the end has one line
at its place. That line declares it, and the value in the listing is the value of the symbol. If the
listing has none, the symbol has none, or the line reports an internal fault. No other line of the
final pass changes the symbol, except that its own uses of the symbol are added to it. -/
theorem declared_symbol_owned (sources : List (Bytes × Bytes))
    (distinct : (sources.map Prod.fst).Nodup) (named : ∀ s ∈ sources, isConcrete s.1 = true) :
    let files := sourceFiles sources
    let a := Assembly.ofFiles files
    ∀ key s, a.state.symbols.get? key = some s → s.isDeclared = true →
      ∃ (i : Nat) (line : Line) (d : Declaration),
        a.lines[i]? = some line ∧ line.location = ⟨s.file, s.line⟩ ∧
        (∀ (j : Nat) (other : Line), a.lines[j]? = some other →
          other.location = ⟨s.file, s.line⟩ → j = i) ∧
        line.statement.label = some d ∧ d.key = key ∧
        (∀ w, line.labelled = some w → s.value = some w) ∧
        (line.labelled = none → s.value = none ∨ ∃ x ∈ line.diagnostics, x.kind = .internal) ∧
        ∀ (j : Nat) (other : Line), a.lines[j]? = some other → j ≠ i →
          ∃ before, (finalAt files j).symbols.get? key = some before ∧
            (finalAt files (j + 1)).symbols.get? key = some (before.addUses
              (other.statement.usesOf (finalAt files j).symbols key) other.location) := by
  have concrete := sourceFiles_concrete distinct named
  intro files a key x found declared
  rw [Assembly.state_ofFiles] at found
  have positive : x.line ≠ 0 := by
    simp only [Symbol.isDeclared, decide_eq_true_eq] at declared
    omega
  obtain ⟨i, s, d, at_i, label, rfl, line, place⟩ := finalAt_owner concrete found positive
  have lines (j : Nat) : a.lines[j]? =
      (program files)[j]?.map fun s => (s.assemble true (finalAt files j)).1 := getElem?_pass ..
  have value := finalAt_owned concrete.toOrderly at_i label found line.symm
  refine ⟨i, (s.assemble true (finalAt files i)).1, d, ?_, place, ?_, label, rfl, ?_, ?_, ?_⟩
  · rw [lines, at_i]
    rfl
  · intro j other at_j same
    simp only [lines, Option.map_eq_some_iff] at at_j
    obtain ⟨s', at_j, rfl⟩ := at_j
    apply concrete.index_of_place at_j at_i
    have location : s'.location = s.location := same.trans place.symm
    rw [Statement.place, Statement.place, location]
  · intro w resolved
    rcases value with same | ⟨unresolved, -⟩
    · exact same.trans resolved
    · exact absurd (unresolved.symm.trans resolved) (by simp)
  · intro unresolved
    rcases value with same | ⟨-, reported⟩
    · exact .inl (same.trans unresolved)
    · exact .inr reported
  · intro j other at_j apart
    simp only [lines, Option.map_eq_some_iff] at at_j
    obtain ⟨s', at_j, rfl⟩ := at_j
    have bound := (List.getElem?_eq_some_iff.mp at_j).1.le
    obtain ⟨before, start, number⟩ := (finalAt_alike le_rfl bound).line found
    exact ⟨before, start, finalAt_other concrete.toOrderly at_i label at_j apart start
      (number.trans line.symm)⟩

def rivalSymbol : Symbol :=
  ⟨⟨.global, ascii "X", []⟩, ascii "a.asm", 4, some 4, [⟨ascii "b.asm", 2⟩, ⟨ascii "a.asm", 2⟩]⟩

theorem declared_symbol_owned_rivalSources :
    ((rivalSources.map Prod.fst).Nodup ∧ (∀ s ∈ rivalSources, isConcrete s.1 = true) ∧
      (Assembly.ofFiles (sourceFiles rivalSources)).state.symbols.get? (ascii "$X@a.asm") =
        some rivalSymbol ∧
      rivalSymbol.isDeclared = true) ∧
    ∃ (i : Nat) (line : Line), (Assembly.ofFiles (sourceFiles rivalSources)).lines[i]? = some line ∧
      line.location = ⟨rivalSymbol.file, rivalSymbol.line⟩ ∧
      (∀ w, line.labelled = some w → rivalSymbol.value = some w) ∧
      ∀ (j : Nat) (other : Line),
        (Assembly.ofFiles (sourceFiles rivalSources)).lines[j]? = some other → j ≠ i →
          ∃ before, (finalAt (sourceFiles rivalSources) j).symbols.get? (ascii "$X@a.asm") =
              some before ∧
            (finalAt (sourceFiles rivalSources) (j + 1)).symbols.get? (ascii "$X@a.asm") =
              some (before.addUses (other.statement.usesOf
                (finalAt (sourceFiles rivalSources) j).symbols (ascii "$X@a.asm"))
                other.location) := by
  have distinct : (rivalSources.map Prod.fst).Nodup := by decide +kernel
  have named : ∀ s ∈ rivalSources, isConcrete s.1 = true := by decide +kernel
  have found : (Assembly.ofFiles (sourceFiles rivalSources)).state.symbols.get?
      (ascii "$X@a.asm") = some rivalSymbol := by decide +kernel
  have declared : rivalSymbol.isDeclared = true := by decide
  obtain ⟨i, line, -, at_i, place, -, -, -, value, -, frame⟩ :=
    declared_symbol_owned rivalSources distinct named (ascii "$X@a.asm") rivalSymbol found declared
  exact ⟨⟨distinct, named, found, declared⟩, i, line, at_i, place, value, frame⟩

/-- A label and a jump to it. -/
def loopSources : List (Bytes × Bytes) := [(ascii "t.asm", ascii "ORG 0\nL: NOP\nJMP L\n")]

/-- A line that uses a symbol changes it, though it does not own it: the place is added to the uses
of the symbol. -/
theorem use_changes_symbol :
    let files := sourceFiles loopSources
    let a := Assembly.ofFiles files
    (loopSources.map Prod.fst).Nodup ∧ (∀ s ∈ loopSources, isConcrete s.1 = true) ∧
    ¬ ∀ key s, a.state.symbols.get? key = some s → s.isDeclared = true →
      ∀ (j : Nat) (other : Line), a.lines[j]? = some other → other.location ≠ ⟨s.file, s.line⟩ →
        (finalAt files (j + 1)).symbols.get? key = (finalAt files j).symbols.get? key := by
  intro files a
  refine ⟨by decide +kernel, by decide +kernel, fun unchanged => ?_⟩
  have found : a.state.symbols.get? (ascii "L@t.asm") = some ⟨⟨.static, ascii "L", []⟩,
      ascii "t.asm", 2, some 0, [⟨ascii "t.asm", 3⟩]⟩ := by decide +kernel
  have location : (a.lines[2]?).map Line.location = some ⟨ascii "t.asm", 3⟩ := by decide +kernel
  obtain ⟨other, jump, place⟩ := Option.map_eq_some_iff.mp location
  have same := unchanged _ _ found rfl 2 other jump (by rw [place]; decide)
  exact absurd same (by decide +kernel)

end Assembler8080
