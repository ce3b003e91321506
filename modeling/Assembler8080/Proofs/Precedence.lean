import Assembler8080.Proofs.Leaves

/-! Expressions are read as they are written. `Prints` says how a tree may be written: any blanks
between its parts, and parentheses at least where the levels of the operators ask for them. The
reader of a level takes such a text whole where no operator of the level follows (`ReadsAt`); where
one follows, it goes on from there (`GoesOn`), which is how a chain of operators of one level groups
to the left. -/
namespace Assembler8080

/-! ### Texts of trees -/

/-- The texts of a tree in which at most `room` parentheses and unary operators stand around a
value, and the level of the tree: that of its operator, or above all of them for a value. -/
inductive Prints (parent : Bytes) : Nat → Nat → Tree → Bytes → Prop where
  | leaf {room : Nat} {l : Leaf} {s : Bytes} (text : LeafText parent l s) :
      Prints parent room UnaryOp.level (.leaf l) s
  | group {room level : Nat} {t : Tree} {s before after : Bytes}
      (inner : Prints parent room level t s) (blanks : IsBlanks before)
      (blanks' : IsBlanks after) :
      Prints parent (room + 1) UnaryOp.level t
        (Byte.leftParen :: (before ++ (s ++ (after ++ [Byte.rightParen]))))
  | unary {room : Nat} {op : UnaryOp} {t : Tree} {s gap : Bytes}
      (operand : Prints parent room UnaryOp.level t s) (blanks : IsBlanks gap) :
      Prints parent (room + 1) UnaryOp.level (.unary op t) (op.symbol ++ (gap ++ s))
  | binary {room m n : Nat} {op : BinaryOp} {t u : Tree} {s before after s' : Bytes}
      (left : Prints parent room m t s) (above : op.level ≤ m) (blanks : IsBlanks before)
      (blanks' : IsBlanks after) (right : Prints parent room n u s') (tighter : op.level < n) :
      Prints parent room op.level (.binary op t u)
        (s ++ (before ++ (op.symbol ++ (after ++ s'))))

/-- The bytes that would make a longer operator of one before them. -/
def longerBytes : Bytes := ascii "=<>"

/-- The first byte of a value is neither blank nor part of an operator before it. -/
def Opens (s : Bytes) : Prop := ∃ b rest, s = b :: rest ∧ Byte.isBlank b = false ∧ b ∉ longerBytes

theorem Opens.append {s : Bytes} (opens : Opens s) (tail : Bytes) : Opens (s ++ tail) := by
  obtain ⟨b, rest, rfl, apart⟩ := opens
  exact ⟨b, rest ++ tail, rfl, apart⟩

/-- Blanks and a value after an operator leave the operator as it is. -/
theorem Opens.apart {gap s : Bytes} (opens : Opens s) (blanks : IsBlanks gap) :
    ∀ b ∈ (gap ++ s).head?, b ∉ longerBytes := by
  have blank_apart : ∀ b, Byte.isBlank b = true → b ∉ longerBytes := forall_byte (by decide +kernel)
  intro b first
  cases gap with
  | nil =>
    obtain ⟨c, rest, rfl, -, apart⟩ := opens
    obtain rfl : c = b := Option.some.inj first
    exact apart
  | cons c rest =>
    obtain rfl : c = b := Option.some.inj first
    exact blank_apart c (blanks c List.mem_cons_self)

theorem nameStart_opens : ∀ b, StartsLabel b ∨ Byte.isDigit b = true →
    Byte.isBlank b = false ∧ b ∉ longerBytes :=
  forall_byte (by decide +kernel)

theorem LeafText.opens {parent s : Bytes} {l : Leaf} (text : LeafText parent l s) : Opens s := by
  cases text with
  | number numeral =>
    obtain ⟨b, rest, start, digit⟩ := numeral.head []
    rw [List.append_nil] at start
    exact ⟨b, rest, start, nameStart_opens b (.inr digit)⟩
  | character | escaped | here => exact ⟨_, _, rfl, rfl, by decide⟩
  | label text =>
    obtain ⟨b, rest, rfl, start⟩ := text.head
    exact ⟨b, rest, rfl, nameStart_opens b (.inl start)⟩

theorem Prints.opens {parent s : Bytes} {room level : Nat} {t : Tree}
    (text : Prints parent room level t s) : Opens s := by
  induction text with
  | leaf text => exact text.opens
  | group => exact ⟨_, _, rfl, rfl, by decide⟩
  | @unary room op => cases op <;> exact ⟨_, _, rfl, rfl, by decide⟩
  | binary _ _ _ _ _ _ left => exact left.append _

/-! ### Operators -/

def nextOp? (tail : Bytes) : Option BinaryOp := BinaryOp.first? (tail.dropWhile Byte.isBlank)

theorem nextOp?_append {lead rest : Bytes} (blanks : IsBlanks lead) (starts : Starts rest) :
    nextOp? (lead ++ rest) = BinaryOp.first? rest := by
  unfold nextOp?
  rw [List.dropWhile_append_of_pos blanks]
  cases rest with
  | nil => rfl
  | cons b rest => rw [List.dropWhile_cons, if_neg (by rw [starts b rfl]; exact Bool.false_ne_true)]

theorem longerBytes_apart : ∀ b, b ∉ longerBytes →
    (0x3D == b) = false ∧ (0x3C == b) = false ∧ (0x3E == b) = false :=
  forall_byte (by decide +kernel)

namespace BinaryOp

/-- An operator is found as itself where no byte after it makes a longer one. -/
theorem first?_symbol (op : BinaryOp) {rest : Bytes} (apart : ∀ b ∈ rest.head?, b ∉ longerBytes) :
    first? (op.symbol ++ rest) = some op := by
  cases rest with
  | nil => cases op <;> rfl
  | cons b rest =>
    obtain ⟨equals, less, greater⟩ := longerBytes_apart b (apart b rfl)
    cases op <;>
      simp [first?, all, symbol, ascii, List.find?, List.isPrefixOf, equals, less, greater]

theorem level_lt (op : BinaryOp) : op.level < levels := by
  cases op <;> decide

theorem symbol_starts (op : BinaryOp) (rest : Bytes) : Starts (op.symbol ++ rest) := by
  cases op <;> exact starts_cons rfl _

theorem symbol_stops (op : BinaryOp) (rest : Bytes) : Stops (op.symbol ++ rest) := by
  cases op <;> exact stops_cons (by decide)

end BinaryOp

/-! ### Readers of levels -/

namespace Term

def atLevel (value : Reader Term) (level : Nat) : Reader Term :=
  climb value (BinaryOp.levels - level)

theorem atLevel_eq_chain (value : Reader Term) {level : Nat} (low : level < BinaryOp.levels) :
    atLevel value level = chain (atLevel value (level + 1)) level := by
  unfold atLevel
  obtain ⟨n, steps⟩ : ∃ n, BinaryOp.levels - level = n + 1 := ⟨_, (Nat.succ_pred (by omega)).symm⟩
  have next : BinaryOp.levels - (level + 1) = n := by omega
  have own : BinaryOp.levels - (n + 1) = level := by omega
  rw [steps, next, climb, own]

/-- A reader takes a text whole, wherever it stands before an operator of a lower level or none. -/
def ReadsAt (reader : Reader Term) (level : Nat) (s : Bytes) (e : Expr) : Prop :=
  ∀ offset lead tail, IsBlanks lead → Stops tail → (∀ op ∈ nextOp? tail, op.level < level) →
    reader.run ⟨offset, lead ++ (s ++ tail)⟩ =
      (⟨offset + lead.length + 1, e⟩, ⟨offset + lead.length + s.length, tail⟩)

/-- The reader of a chain has read a text and goes on after it. -/
def GoesOn (operand : Reader Term) (level : Nat) (s : Bytes) (e : Expr) : Prop :=
  ∀ offset lead tail, IsBlanks lead → Stops tail → (∀ op ∈ nextOp? tail, op.level ≤ level) →
    (chain operand level).run ⟨offset, lead ++ (s ++ tail)⟩ =
      chainFrom operand level ⟨offset + lead.length + 1, e⟩
        ⟨offset + lead.length + s.length, tail⟩

theorem rest_skipBlanks (offset : Nat) (tail : Bytes) :
    (Cursor.mk offset tail).skipBlanks.rest = tail.dropWhile Byte.isBlank :=
  Lexeme.drop_blankRun tail

theorem chainFrom_stop {operand : Reader Term} {level : Nat} {left : Term} {offset : Nat}
    {tail : Bytes} (other : ∀ op ∈ nextOp? tail, op.level ≠ level) :
    chainFrom operand level left ⟨offset, tail⟩ = (left, ⟨offset, tail⟩) := by
  unfold chainFrom
  split
  next => rfl
  next op found =>
    rw [rest_skipBlanks] at found
    rw [if_neg (other op found)]

theorem chainFrom_step {operand : Reader Term} {op : BinaryOp} {left : Term} {offset : Nat}
    {before rest : Bytes} (blanks : IsBlanks before)
    (apart : ∀ b ∈ rest.head?, b ∉ longerBytes) :
    chainFrom operand op.level left ⟨offset, before ++ (op.symbol ++ rest)⟩ =
      let right := operand.run ⟨offset + before.length + op.symbol.length, rest⟩
      chainFrom operand op.level ⟨left.column, .binary op left.expr right.1.expr⟩ right.2 := by
  have place := Cursor.skipBlanks_append offset blanks (op.symbol_starts rest)
  rw [chainFrom]
  split
  next stops =>
    rw [place, op.first?_symbol apart] at stops
    contradiction
  next op' found =>
    rw [place, op.first?_symbol apart] at found
    obtain rfl := Option.some.inj found
    rw [if_pos rfl]
    dsimp only
    rw [place, Cursor.advance_append]

theorem goesOn_of_readsAt {operand : Reader Term} {level : Nat} {s : Bytes} {e : Expr}
    (present : e.isMissing = false) (reads : ReadsAt operand (level + 1) s e) :
    GoesOn operand level s e := by
  intro offset lead tail blanks stops next
  have first := reads offset lead tail blanks stops fun op found => Nat.lt_succ_of_le (next op found)
  unfold chain
  dsimp only
  rw [first]
  simp [present]

theorem readsAt_of_goesOn {operand : Reader Term} {level : Nat} {s : Bytes} {e : Expr}
    (goesOn : GoesOn operand level s e) : ReadsAt (chain operand level) level s e := by
  intro offset lead tail blanks stops next
  rw [goesOn offset lead tail blanks stops fun op found => (next op found).le]
  exact chainFrom_stop fun op found => (next op found).ne

/-- A text that is read as a tree of a level, given the reader of values: it is read whole by the
readers of this level and of those below, and as the start of a chain. -/
structure Reads (value : Reader Term) (level : Nat) (s : Bytes) (e : Expr) : Prop where
  whole : ∀ l ≤ level, ReadsAt (atLevel value l) l s e
  start : ∀ l ≤ level, l < BinaryOp.levels → GoesOn (atLevel value (l + 1)) l s e

variable {value : Reader Term} {s : Bytes} {e : Expr}

/-- What is read whole at one level is read whole at those below. -/
theorem readsAt_below (present : e.isMissing = false) {level : Nat} (top : level ≤ BinaryOp.levels)
    (reads : ReadsAt (atLevel value level) level s e) (l : Nat) (below : l ≤ level) :
    ReadsAt (atLevel value l) l s e := by
  induction below using Nat.decreasingInduction with
  | self => exact reads
  | of_succ l below ih =>
    rw [atLevel_eq_chain value (by omega)]
    exact readsAt_of_goesOn (goesOn_of_readsAt present ih)

theorem reads_of_value (present : e.isMissing = false)
    (reads : ReadsAt value BinaryOp.levels s e) : Reads value BinaryOp.levels s e := by
  have own : ReadsAt (atLevel value BinaryOp.levels) BinaryOp.levels s e := reads
  have whole := readsAt_below present le_rfl own
  exact ⟨whole, fun l below low => goesOn_of_readsAt present (whole (l + 1) low)⟩

theorem reads_of_chain (present : e.isMissing = false) {level : Nat} (low : level < BinaryOp.levels)
    (goesOn : GoesOn (atLevel value (level + 1)) level s e) : Reads value level s e := by
  have own : ReadsAt (atLevel value level) level s e := by
    rw [atLevel_eq_chain value low]
    exact readsAt_of_goesOn goesOn
  have whole := readsAt_below present low.le own
  refine ⟨whole, fun l below _ => ?_⟩
  rcases Nat.lt_or_eq_of_le below with less | rfl
  · exact goesOn_of_readsAt present (whole (l + 1) less)
  · exact goesOn

/-- A binary operator: its left operand starts the chain, and its right one is read at the next
level. -/
theorem reads_binary (op : BinaryOp) {m n : Nat} {before after s' : Bytes} {f : Expr}
    (left : Reads value m s e) (above : op.level ≤ m) (blanks : IsBlanks before)
    (blanks' : IsBlanks after) (opens : Opens s') (right : Reads value n s' f)
    (tighter : op.level < n) :
    Reads value op.level (s ++ (before ++ (op.symbol ++ (after ++ s')))) (.binary op e f) := by
  refine reads_of_chain rfl op.level_lt fun offset lead tail leading stops next => ?_
  have apart := (opens.append tail).apart blanks'
  have operator : nextOp? (before ++ (op.symbol ++ (after ++ (s' ++ tail)))) = some op := by
    rw [nextOp?_append blanks (op.symbol_starts _), op.first?_symbol apart]
  have first := left.start op.level above op.level_lt offset lead
    (before ++ (op.symbol ++ (after ++ (s' ++ tail)))) leading
    ((op.symbol_stops _).append_blanks blanks)
    fun op' found => by rw [operator] at found; exact (Option.some.inj found ▸ le_rfl)
  have second := right.whole (op.level + 1) tighter
    (offset + lead.length + s.length + before.length + op.symbol.length) after tail blanks' stops
    fun op' found => Nat.lt_succ_of_le (next op' found)
  simp only [List.append_assoc]
  rw [first, chainFrom_step blanks apart, second]
  simp only [List.length_append, Nat.add_assoc]

/-! ### Values -/

theorem leaf?_eq_none (scope : Scope) (line : Int) (offset : Nat) {b : UInt8} (rest : Bytes)
    (nested : b ∈ ascii "(-+~!") : leaf? scope line ⟨offset, b :: rest⟩ = none := by
  have apart : ∀ b ∈ ascii "(-+~!", Byte.isBlank b = false ∧ Byte.isDigit b = false ∧
      Byte.isLetter b = false ∧ b ≠ Byte.dot ∧ b ≠ Byte.dollar ∧ b ≠ Byte.singleQuote := by
    decide +kernel
  obtain ⟨blank, digit, letter, dot, dollar, quote⟩ := apart b nested
  have character : character? ⟨offset, b :: rest⟩ = none := by
    simp [character?, Lexeme.quotation?, quote]
  exact leaf?_eq_none_of_apart scope line offset rest blank digit letter dot dollar character

section Value

variable {scope : Scope} {line : Int}

theorem readsAt_leaf {inner : Option (Reader Term)} {l : Leaf} (text : LeafText scope.parent l s)
    (leaf : ∀ offset tail, Stops tail →
      leaf? scope line ⟨offset, s ++ tail⟩ = some (e, ⟨offset + s.length, tail⟩)) :
    ReadsAt (valueAround scope line inner) BinaryOp.levels s e := by
  intro offset lead tail blanks stops _
  unfold valueAround
  dsimp only
  rw [Cursor.skipBlanks_append offset blanks (text.starts tail), leaf _ tail stops]
  rfl

theorem advance_cons (offset : Nat) (b : UInt8) (rest : Bytes) :
    (Cursor.mk offset (b :: rest)).advance 1 = ⟨offset + 1, rest⟩ :=
  Cursor.advance_append offset [b] rest

/-- A closed group is read to its right parenthesis. -/
theorem group_eq {before after tail : Bytes} (blanks : IsBlanks before) (blanks' : IsBlanks after)
    (inner : ReadsAt (climb value BinaryOp.levels) 0 s e) (offset : Nat) :
    group value ⟨offset, Byte.leftParen :: (before ++ (s ++ (after ++ Byte.rightParen :: tail)))⟩ =
      (⟨offset + 1, .group e true⟩,
        ⟨offset + 1 + before.length + s.length + after.length + 1, tail⟩) := by
  have starts : Starts (Byte.rightParen :: tail) := starts_cons rfl tail
  have closes : Stops (after ++ Byte.rightParen :: tail) :=
    (stops_cons (by decide)).append_blanks blanks'
  have stops : nextOp? (after ++ Byte.rightParen :: tail) = none := by
    rw [nextOp?_append blanks' starts]
    rfl
  have read := inner (offset + 1) before (after ++ Byte.rightParen :: tail) blanks closes
    fun op found => by rw [stops] at found; contradiction
  unfold group
  dsimp only
  rw [advance_cons, read]
  dsimp only
  rw [Cursor.skipBlanks_append _ blanks' starts]
  simp only [Cursor.next?, List.head?_cons, beq_self_eq_true, if_true, advance_cons]
  rfl

theorem readsAt_group {before after : Bytes} (blanks : IsBlanks before) (blanks' : IsBlanks after)
    (inner : ReadsAt (climb value BinaryOp.levels) 0 s e) :
    ReadsAt (valueAround scope line (some value)) BinaryOp.levels
      (Byte.leftParen :: (before ++ (s ++ (after ++ [Byte.rightParen])))) (.group e true) := by
  intro offset lead tail leading stops _
  unfold valueAround
  simp only [List.cons_append, List.append_assoc, List.nil_append]
  rw [Cursor.skipBlanks_append offset leading (starts_cons rfl _),
    leaf?_eq_none scope line _ _ (by decide)]
  simp only [nestedValue, Cursor.next?, List.head?_cons, beq_self_eq_true, if_true]
  rw [group_eq blanks blanks' inner]
  simp only [List.length_cons, List.length_append, List.length_nil, Nat.add_assoc, Nat.add_comm 1,
    Nat.zero_add]

theorem readsAt_unary (op : UnaryOp) {gap : Bytes} (blanks : IsBlanks gap)
    (present : e.isMissing = false) (inner : ReadsAt value BinaryOp.levels s e) :
    ReadsAt (valueAround scope line (some value)) BinaryOp.levels (op.symbol ++ (gap ++ s))
      (.unary op e) := by
  intro offset lead tail leading stops _
  have read := inner (offset + lead.length + 1) gap tail blanks stops fun op' _ => op'.level_lt
  obtain ⟨b, symbol, nested, blank, paren, found⟩ : ∃ b, op.symbol = [b] ∧ b ∈ ascii "(-+~!" ∧
      Byte.isBlank b = false ∧ b ≠ Byte.leftParen ∧
      UnaryOp.first? (b :: (gap ++ (s ++ tail))) = some op := by
    cases op <;> exact ⟨_, rfl, by decide, rfl, by decide, rfl⟩
  have unary : unary value op ⟨offset + lead.length, b :: (gap ++ (s ++ tail))⟩ =
      (⟨offset + lead.length + 1, .unary op e⟩,
        ⟨offset + lead.length + 1 + gap.length + s.length, tail⟩) := by
    unfold Term.unary
    dsimp only
    rw [symbol, List.length_singleton, advance_cons, read]
    simp only [present, Bool.false_eq_true, if_false]
    rfl
  unfold valueAround
  simp only [symbol, List.cons_append, List.append_assoc, List.nil_append]
  rw [Cursor.skipBlanks_append offset leading (starts_cons blank _),
    leaf?_eq_none scope line _ _ nested]
  simp only [nestedValue, Cursor.next?, List.head?_cons, beq_iff_eq, Option.some.injEq, paren,
    if_false, found]
  rw [unary]
  simp only [List.length_cons, List.length_append, Nat.add_assoc, Nat.add_comm 1]

end Value

end Term

/-! ### Expressions -/

/-- Every text of a tree is read at its level as an expression that means the tree. -/
theorem Prints.read (scope : Scope) (line : Int) {room level : Nat} {t : Tree} {s : Bytes}
    (text : Prints scope.parent room level t s) :
    ∃ e : Expr, e.Means scope t ∧ Term.Reads (Term.value scope line room) level s e := by
  induction text with
  | @leaf room l s text =>
    obtain ⟨e, means, leaf⟩ := text.read scope line
    refine ⟨e, means, Term.reads_of_value means.present ?_⟩
    cases room <;> exact Term.readsAt_leaf text leaf
  | group inner blanks blanks' ih =>
    obtain ⟨e, means, reads⟩ := ih
    exact ⟨.group e true, Expr.group_means means,
      Term.reads_of_value rfl (Term.readsAt_group blanks blanks' (reads.whole 0 (Nat.zero_le _)))⟩
  | @unary room op t s gap operand blanks ih =>
    obtain ⟨e, means, reads⟩ := ih
    exact ⟨.unary op e, Expr.unary_means op means, Term.reads_of_value rfl
      (Term.readsAt_unary op blanks means.present (reads.whole BinaryOp.levels le_rfl))⟩
  | @binary room m n op t u s before after s' left above blanks blanks' right tighter ihLeft ihRight =>
    obtain ⟨e, means, reads⟩ := ihLeft
    obtain ⟨f, means', reads'⟩ := ihRight
    exact ⟨.binary op e f, Expr.binary_means op means means',
      Term.reads_binary op reads above blanks blanks' right.opens reads' tighter⟩

/-- After blanks, the line ends or goes on with a comma, a semicolon or a right parenthesis. -/
def EndsExpression (tail : Bytes) : Prop :=
  ∀ b ∈ (tail.dropWhile Byte.isBlank).head?, b ∈ ascii ",;)"

instance : DecidablePred EndsExpression := fun _ => inferInstanceAs (Decidable (∀ _ ∈ _, _))

theorem EndsExpression.stops {tail : Bytes} (ends : EndsExpression tail) : Stops tail := by
  have listed : ∀ b ∈ ascii ",;)", b ∈ stopBytes := by decide +kernel
  exact fun b first => listed b (ends b first)

theorem EndsExpression.nextOp? {tail : Bytes} (ends : EndsExpression tail) : nextOp? tail = none := by
  have closing : ∀ b ∈ ascii ",;)", ∀ rest, BinaryOp.first? (b :: rest) = none := by
    intro b member rest
    have bytes : ascii ",;)" = [Byte.comma, Byte.semicolon, Byte.rightParen] := by decide
    rw [bytes] at member
    simp only [List.mem_cons, List.not_mem_nil, or_false] at member
    rcases member with rfl | rfl | rfl <;> rfl
  unfold Assembler8080.nextOp?
  cases rest : tail.dropWhile Byte.isBlank with
  | nil => rfl
  | cons b more => exact closing b (ends b (by rw [rest]; rfl)) more

/-- An expression that is written with any blanks and enough parentheses, at most 64 of them and of
unary operators around a value, is read to its end. Its value is the number of the tree, which is
missing only where a leaf has none, and it has a fault only where a divisor is zero. -/
theorem expression_denotes (scope : Scope) (line : Int) {level : Nat} {t : Tree} {s : Bytes}
    (text : Prints scope.parent Term.nesting level t s) (offset : Nat) {lead tail : Bytes}
    (blanks : IsBlanks lead) (ends : EndsExpression tail) (state : State) :
    let read := (Term.expression scope line 0 0).run ⟨offset, lead ++ (s ++ tail)⟩
    let operand := Term.operand state.environment read.1.column read.1.expr
    read.2 = ⟨offset + lead.length + s.length, tail⟩ ∧
      operand.value.map (·.toNat) = t.denote (state.valuation scope) ∧
      (operand.value = none ↔ ∃ l ∈ t.leaves, l.value (state.valuation scope) = none) ∧
      (operand.fault = none ↔ ¬ t.DividesByZero (state.valuation scope)) := by
  obtain ⟨e, means, reads⟩ := text.read scope line
  have run : (Term.expression scope line 0 0).run ⟨offset, lead ++ (s ++ tail)⟩ =
      (⟨offset + lead.length + 1, e⟩, ⟨offset + lead.length + s.length, tail⟩) :=
    reads.whole 0 (Nat.zero_le level) offset lead tail blanks ends.stops
      fun op found => by rw [ends.nextOp?] at found; contradiction
  dsimp only
  rw [run]
  refine ⟨rfl, means.value state, ?_, means.fault state⟩
  rw [← Tree.denote_eq_none_iff, ← means.value state, Option.map_eq_none_iff]
  rfl

/-- The tree of `-( 1+GLOBAL X )*'a'|$ %.Y` where `P` is the parent. -/
def sampleTree : Tree :=
  .binary .or
    (.binary .mul
      (.unary .negate (.binary .add (.leaf (.number 1)) (.leaf (.label ⟨.global, ascii "X", []⟩))))
      (.leaf (.character 0x61)))
    (.binary .mod (.leaf .here) (.leaf (.label ⟨.nested, ascii "Y", ascii "P"⟩)))

theorem sampleTree_prints (room : Nat) :
    Prints (ascii "P") (room + 2) 0 sampleTree (ascii "-( 1+GLOBAL X )*'a'|$ %.Y") := by
  have blankless : IsBlanks [] := by decide +kernel
  have one : IsBlanks (ascii " ") := by decide +kernel
  have numeral : Numeral 1 (ascii "1") :=
    @Numeral.intro 1 10 (ascii "1") [] (by decide +kernel) (by decide +kernel) (by decide +kernel)
      (by decide +kernel)
  have global : LabelText (ascii "P") ⟨.global, ascii "X", []⟩ (ascii "GLOBAL X") :=
    @LabelText.globalKeyword _ (ascii "GLOBAL") (ascii " ") (ascii "X") rfl ⟨one, by decide +kernel⟩
      (by decide +kernel)
  have nested : LabelText (ascii "P") ⟨.nested, ascii "Y", ascii "P"⟩ (ascii ".Y") :=
    @LabelText.bare _ (ascii "Y") (by decide +kernel)
  have sum := @Prints.binary (ascii "P") room 6 6 .add _ _ _ _ _ _ (.leaf (.number numeral))
    (by decide +kernel) blankless blankless (.leaf (.label global)) (by decide +kernel)
  have negated := @Prints.unary _ _ .negate _ _ _ (Prints.group sum one one) blankless
  have product := @Prints.binary _ _ 6 6 .mul _ _ _ _ _ _ negated (by decide +kernel) blankless blankless
    (.leaf (.character (b := 0x61) (by decide +kernel) (by decide +kernel))) (by decide +kernel)
  have remainder := @Prints.binary (ascii "P") (room + 2) 6 6 .mod _ _ _ _ _ _ (.leaf .here)
    (by decide +kernel) one blankless (.leaf (.label nested)) (by decide +kernel)
  exact @Prints.binary _ _ 5 5 .or _ _ _ _ _ _ product (by decide +kernel) blankless blankless remainder
    (by decide +kernel)

/-- A state in which `X` is 2, `P.Y` is 7 and the address is 256. -/
def sampleState : State :=
  ⟨(SymbolTable.empty.insert (ascii "$X@?") ⟨⟨.global, ascii "X", []⟩, ascii "?", 0, some 2, []⟩).insert
      (ascii "P.Y@t.asm") ⟨⟨.nested, ascii "Y", ascii "P"⟩, ascii "t.asm", 3, some 7, []⟩,
    Image.empty.setAddress 256⟩

theorem expression_denotes_sample :
    let scope : Scope := ⟨ascii "t.asm", ascii "P"⟩
    let read := (Term.expression scope 1 0 0).run
      ⟨4, ascii " " ++ (ascii "-( 1+GLOBAL X )*'a'|$ %.Y" ++ ascii " ; sum")⟩
    let operand := Term.operand sampleState.environment read.1.column read.1.expr
    sampleTree.denote (sampleState.valuation scope) = some 65245 ∧
      read.2 = ⟨30, ascii " ; sum"⟩ ∧
      operand.value.map (·.toNat) = sampleTree.denote (sampleState.valuation scope) ∧
      (operand.value = none ↔ ∃ l ∈ sampleTree.leaves, l.value (sampleState.valuation scope) = none) ∧
      (operand.fault = none ↔ ¬ sampleTree.DividesByZero (sampleState.valuation scope)) := by
  have denoted : sampleTree.denote (sampleState.valuation ⟨ascii "t.asm", ascii "P"⟩) = some 65245 := by
    decide +kernel
  exact ⟨denoted, expression_denotes ⟨ascii "t.asm", ascii "P"⟩ 1 (sampleTree_prints 62) 4
    (by decide +kernel) (by decide +kernel) sampleState⟩

end Assembler8080
