import Assembler8080.Expr
import Assembler8080.Label.Spelling

/-! Reading expressions. Operators of one level are read from left to right around operands of the
next level; inside the tightest level stand single values. `Term.nesting` bounds the parentheses
and unary operators around a value, so the readers for nested values are built from the inside
out. -/
namespace Assembler8080

structure Term where
  column : Nat
  expr : Expr
  deriving Repr, DecidableEq

namespace Term

/-- The most parentheses and unary operators that may stand around a value. -/
def nesting : Nat := 64

/-! ### Binary operators -/

theorem rest_length_lt {c d : Cursor} {op : BinaryOp}
    (found : BinaryOp.first? c.skipBlanks.rest = some op)
    (reached : (c.skipBlanks.advance op.symbol.length).Reaches d) :
    d.rest.length < c.rest.length := by
  have shorter := reached.length_le
  have blanks := (Cursor.Reaches.skipBlanks c).length_le
  have start := (BinaryOp.symbol_isPrefix found).length_le
  have positive := op.symbol_length_pos
  simp only [Cursor.rest_advance, List.length_drop] at shorter
  omega

/-- Reads on after `left` while operators of the level follow. An operator with nothing after it
is kept, with a hole on its right. -/
def chainFrom (operand : Reader Term) (level : Nat) (left : Term) (c : Cursor) : Term × Cursor :=
  match h : BinaryOp.first? c.skipBlanks.rest with
  | none => (left, c)
  | some op =>
    if op.level = level then
      let right := operand.run (c.skipBlanks.advance op.symbol.length)
      have := rest_length_lt h (operand.reaches _)
      chainFrom operand level ⟨left.column, .binary op left.expr right.1.expr⟩ right.2
    else (left, c)
termination_by c.rest.length

theorem chainFrom_reaches (operand : Reader Term) (level : Nat) (left : Term) (c : Cursor) :
    c.Reaches (chainFrom operand level left c).2 := by
  fun_induction chainFrom operand level left c with
  | case1 => exact .refl _
  | case2 left c op h hlevel right hlt ih =>
    exact ((Cursor.Reaches.skipBlanks c).trans (.advance _ _)).trans ((operand.reaches _).trans ih)
  | case3 => exact .refl _

def chain (operand : Reader Term) (level : Nat) : Reader Term where
  run c :=
    let first := operand.run c
    if first.1.expr.isMissing then first else chainFrom operand level first.1 first.2
  reaches c := by
    dsimp only
    split
    · exact operand.reaches c
    · exact (operand.reaches c).trans (chainFrom_reaches ..)

/-- The reader of expressions with operators of the `n` tightest levels. -/
def climb (value : Reader Term) : Nat → Reader Term
  | 0 => value
  | n + 1 => chain (climb value n) (BinaryOp.levels - (n + 1))

/-! ### Values -/

def character? (c : Cursor) : Option (Expr × Cursor) :=
  match Lexeme.quotation? Byte.singleQuote c.rest with
  | some ⟨length, 1⟩ =>
    let source := c.rest.take length
    let byte := (Lexeme.unescape (source.drop 1).dropLast).headD 0
    some (.character source byte, c.advance length)
  | _ => none

def here? (c : Cursor) : Option (Expr × Cursor) :=
  if c.next? == some Byte.dollar && !Lexeme.continuesName (c.rest.drop 1) then
    some (.here, c.advance 1)
  else none

def number? (c : Cursor) : Option (Expr × Cursor) :=
  (NumberLiteral.first? c.rest).map fun n => (.number n, c.advance n.word.length)

def label? (scope : Scope) (line : Int) (c : Cursor) : Option (Expr × Cursor) :=
  (scope.reference? line c).map fun (r, d) => (.label r, d)

def leaf? (scope : Scope) (line : Int) (c : Cursor) : Option (Expr × Cursor) :=
  (number? c).or ((label? scope line c).or ((character? c).or (here? c)))

/-- The leaves at a place, each with what the line has there and the place behind it. -/
inductive LeafAt (scope : Scope) (line : Int) (c : Cursor) : Expr → Cursor → Prop where
  | number {n : NumberLiteral} (first : NumberLiteral.first? c.rest = some n) :
      LeafAt scope line c (.number n) (c.advance n.word.length)
  | label {r : Reference} {d : Cursor} (read : scope.reference? line c = some (r, d)) :
      LeafAt scope line c (.label r) d
  | character {length : Nat} (byte : UInt8)
      (quoted : Lexeme.quotation? Byte.singleQuote c.rest = some ⟨length, 1⟩) :
      LeafAt scope line c (.character (c.rest.take length) byte) (c.advance length)
  | here (dollar : c.next? = some Byte.dollar) : LeafAt scope line c .here (c.advance 1)

theorem leafAt_of_leaf? {scope : Scope} {line : Int} {c d : Cursor} {e : Expr}
    (found : leaf? scope line c = some (e, d)) : LeafAt scope line c e d := by
  simp only [leaf?, Option.or_eq_some_iff] at found
  rcases found with number | ⟨-, label | ⟨-, character | ⟨-, here⟩⟩⟩
  · simp only [number?, Option.map_eq_some_iff, Prod.mk.injEq] at number
    obtain ⟨n, first, rfl, rfl⟩ := number
    exact .number first
  · simp only [label?, Option.map_eq_some_iff, Prod.mk.injEq] at label
    obtain ⟨⟨r, d⟩, read, rfl, rfl⟩ := label
    exact .label read
  · unfold character? at character
    split at character
    next length quoted =>
      obtain ⟨rfl, rfl⟩ := Prod.mk.inj (Option.some.inj character)
      exact .character _ quoted
    next => contradiction
  · unfold here? at here
    split at here
    next dollar =>
      obtain ⟨rfl, rfl⟩ := Prod.mk.inj (Option.some.inj here)
      rw [Bool.and_eq_true] at dollar
      exact .here (eq_of_beq dollar.1)
    next => contradiction

theorem leaf?_reaches {scope : Scope} {line : Int} {c d : Cursor} {e : Expr}
    (h : leaf? scope line c = some (e, d)) : c.Reaches d := by
  cases leafAt_of_leaf? h with
  | number | character | here => exact .advance _ _
  | label read => exact Scope.reference?_reaches read

def group (value : Reader Term) (c : Cursor) : Term × Cursor :=
  let inner := (climb value BinaryOp.levels).run (c.advance 1)
  let close := inner.2.skipBlanks
  if close.next? == some Byte.rightParen then
    (⟨c.column, .group inner.1.expr true⟩, close.advance 1)
  else (⟨c.column, .group inner.1.expr false⟩, close)

theorem group_reaches (value : Reader Term) (c : Cursor) : c.Reaches (group value c).2 := by
  have inner : c.Reaches ((climb value BinaryOp.levels).run (c.advance 1)).2.skipBlanks :=
    ((Cursor.Reaches.advance c 1).trans (Reader.reaches _ _)).trans (.skipBlanks _)
  unfold group
  dsimp only
  split
  · exact inner.trans (.advance _ _)
  · exact inner

/-- A unary operator and its operand. When no operand follows, the operator is not taken either. -/
def unary (value : Reader Term) (op : UnaryOp) (c : Cursor) : Term × Cursor :=
  let inner := value.run (c.advance op.symbol.length)
  if inner.1.expr.isMissing then (inner.1, c)
  else (⟨c.column, .unary op inner.1.expr⟩, inner.2)

theorem unary_reaches (value : Reader Term) (op : UnaryOp) (c : Cursor) :
    c.Reaches (unary value op c).2 := by
  unfold unary
  dsimp only
  split
  · exact .refl _
  · exact (Cursor.Reaches.advance _ _).trans (value.reaches _)

def hole (gap : Gap) (c : Cursor) : Term × Cursor := (⟨c.column, .missing gap⟩, c)

/-- A value with another one inside, for which the reader is given; `none` when the nesting leaves
no room. -/
def nestedValue (inner : Option (Reader Term)) (c : Cursor) : Term × Cursor :=
  if c.next? == some Byte.leftParen then
    match inner with
    | some value => group value c
    | none => hole .tooDeep c
  else
    match UnaryOp.first? c.rest with
    | some op =>
      match inner with
      | some value => unary value op c
      | none => hole .tooDeep c
    | none => hole .noValue c

theorem nestedValue_reaches (inner : Option (Reader Term)) (c : Cursor) :
    c.Reaches (nestedValue inner c).2 := by
  unfold nestedValue
  repeat' split
  · exact group_reaches _ _
  · exact .refl _
  · exact unary_reaches _ _ _
  · exact .refl _
  · exact .refl _

def valueAround (scope : Scope) (line : Int) (inner : Option (Reader Term)) : Reader Term where
  run c :=
    let start := c.skipBlanks
    match leaf? scope line start with
    | some (e, d) => (⟨start.column, e⟩, d)
    | none => nestedValue inner start
  reaches c := by
    refine (Cursor.Reaches.skipBlanks c).trans ?_
    dsimp only
    split
    · exact leaf?_reaches ‹_›
    · exact nestedValue_reaches _ _

/-- The reader of values inside which `room` more parentheses and unary operators may stand. -/
def value (scope : Scope) (line : Int) : Nat → Reader Term
  | 0 => valueAround scope line none
  | room + 1 => valueAround scope line (some (value scope line room))

/-- The parentheses and unary operators that may still stand around a value, at a depth of
nesting. -/
def room (depth : Int) : Nat := (nesting - depth).toNat

def expression (scope : Scope) (line : Int) (level : Nat) (depth : Int) : Reader Term :=
  climb (value scope line (room depth)) (BinaryOp.levels - level)

def full (scope : Scope) (line : Int) : Reader Term := expression scope line 0 0

end Term

end Assembler8080
