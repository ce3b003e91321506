import Assembler8080.Expr.Reader
import Assembler8080.Instruction
import Assembler8080.Operand

/-! Reading operands. The shape of the instruction says which operands are expected. -/
namespace Assembler8080

namespace OperandSource

def register (bank : RegisterBank) : Reader OperandSource where
  run c :=
    let start := c.skipBlanks
    let length := Lexeme.wordRun start.rest
    (⟨start.column, .register bank (start.rest.take length)⟩, start.advance length)
  reaches c := (Cursor.Reaches.skipBlanks c).trans (.advance _ _)

def ofTerm (form : Expr → OperandForm) (term : Reader Term) : Reader OperandSource where
  run c :=
    let t := term.run c
    (⟨t.1.column, form t.1.expr⟩, t.2)
  reaches c := term.reaches c

/-- Whether nothing but a comment follows. -/
def endsLine (c : Cursor) : Bool := c.atEnd || c.next? == some Byte.semicolon

/-- A restart number: a digit alone, or an expression. -/
def restart (term : Reader Term) : Reader OperandSource where
  run c :=
    let start := c.skipBlanks
    let length := Lexeme.wordRun start.rest
    let word := start.rest.take length
    let after := (start.advance length).skipBlanks
    if (RegisterBank.restart.number? word).isSome && endsLine after then
      (⟨start.column, .register .restart word⟩, after)
    else (ofTerm .restart term).run c
  reaches c := by
    dsimp only
    split
    · exact ((Cursor.Reaches.skipBlanks c).trans (.advance _ _)).trans (.skipBlanks _)
    · exact (ofTerm .restart term).reaches c

end OperandSource

/-! ### Lists of data -/

structure DataSource where
  column : Nat
  form : DataForm
  deriving Repr, DecidableEq

namespace DataSource

def quotation? (s : Bytes) : Option Lexeme.Quotation :=
  (Lexeme.quotation? Byte.singleQuote s).or (Lexeme.quotation? Byte.doubleQuote s)

def string : Reader (Option DataSource) where
  run c :=
    let start := c.skipBlanks
    match quotation? start.rest with
    | some q =>
      (some ⟨start.column, .string (start.rest.take q.length)⟩, start.advance q.length)
    | none => (none, start)
  reaches c := by
    refine (Cursor.Reaches.skipBlanks c).trans ?_
    dsimp only
    split
    · exact .advance _ _
    · exact .refl _

/-- An expression of one byte, or else a string. -/
def byteItem (term : Reader Term) : Reader (Option DataSource) where
  run c :=
    let t := term.run c
    if t.1.expr.isMissing then string.run c else (some ⟨t.1.column, .byte t.1.expr⟩, t.2)
  reaches c := by
    dsimp only
    split
    · exact string.reaches c
    · exact term.reaches c

def wordItem (term : Reader Term) : Reader (Option DataSource) where
  run c :=
    let t := term.run c
    if t.1.expr.isMissing then (none, c) else (some ⟨t.1.column, .word t.1.expr⟩, t.2)
  reaches c := by
    dsimp only
    split
    · exact .refl _
    · exact term.reaches c

/-- The item before the next comma; there is none where a comma stands already. -/
def slot (item : Reader (Option DataSource)) : Reader (Option DataSource) where
  run c :=
    let start := c.skipBlanks
    if start.next? == some Byte.comma then (none, start) else item.run start
  reaches c := by
    refine (Cursor.Reaches.skipBlanks c).trans ?_
    dsimp only
    split
    · exact .refl _
    · exact item.reaches _

theorem rest_length_lt {c d : Cursor} {b : UInt8} (reached : c.Reaches d)
    (next : (d.skipBlanks.next? == some b) = true) :
    (d.skipBlanks.advance 1).rest.length < c.rest.length := by
  have shorter := (reached.trans (.skipBlanks d)).length_le
  have next := eq_of_beq next
  cases h : d.skipBlanks.rest with
  | nil => simp [Cursor.next?, h] at next
  | cons first rest =>
    simp only [h, List.length_cons] at shorter
    simp only [Cursor.rest_advance, h, List.drop_one, List.tail_cons]
    omega

def addItem (item : Option DataSource) (seen : List DataForm) : List DataForm :=
  match item with
  | some source => source.form :: seen
  | none => seen

/-- Reads items as long as commas follow, after those already seen, last one first. -/
def itemsFrom (item : Reader (Option DataSource)) (seen : List DataForm) (c : Cursor) :
    List DataForm × Cursor :=
  let read := (slot item).run c
  if h : (read.2.skipBlanks.next? == some Byte.comma) = true then
    have := rest_length_lt ((slot item).reaches c) h
    itemsFrom item (addItem read.1 seen) (read.2.skipBlanks.advance 1)
  else ((addItem read.1 seen).reverse, read.2)
termination_by c.rest.length
decreasing_by assumption

theorem itemsFrom_reaches (item : Reader (Option DataSource)) (seen : List DataForm) (c : Cursor) :
    c.Reaches (itemsFrom item seen c).2 := by
  fun_induction itemsFrom item seen c with
  | case1 seen c read h _ ih =>
    exact (((slot item).reaches c).trans (.skipBlanks _)).trans
      ((Cursor.Reaches.advance _ _).trans ih)
  | case2 seen c read h => exact (slot item).reaches c

def trimEnd (s : Bytes) : Bytes := (s.reverse.dropWhile Byte.isBlank).reverse

/-- A list of items between commas. An empty slot adds nothing. -/
def list (kind : OperandKind) (item : Reader (Option DataSource)) : Reader OperandSource where
  run c :=
    let start := c.skipBlanks
    let read := itemsFrom item [] start
    let text := trimEnd (start.rest.take (read.2.offset - start.offset))
    (⟨start.column, .list kind read.1 text⟩, read.2)
  reaches c := (Cursor.Reaches.skipBlanks c).trans (itemsFrom_reaches ..)

end DataSource

/-! ### The operands of an instruction -/

/-- The operands of a line, and the column where a comma should have gone on. -/
structure OperandSources where
  operands : List OperandSource
  missingComma : Option Nat
  deriving Repr, DecidableEq

namespace OperandSources

def none : Reader OperandSources where
  run c := (⟨[], .none⟩, c)
  reaches c := .refl c

def one (first : Reader OperandSource) : Reader OperandSources where
  run c :=
    let a := first.run c
    (⟨[a.1], .none⟩, a.2)
  reaches c := first.reaches c

/-- Two operands with a comma between them. Without the comma the second is not read. -/
def two (first second : Reader OperandSource) : Reader OperandSources where
  run c :=
    let a := first.run c
    let comma := a.2.skipBlanks
    if comma.next? == some Byte.comma then
      let b := second.run (comma.advance 1)
      (⟨[a.1, b.1], .none⟩, b.2)
    else (⟨[a.1], some comma.column⟩, comma)
  reaches c := by
    have first := (first.reaches c).trans (.skipBlanks _)
    dsimp only
    split
    · exact first.trans ((Cursor.Reaches.advance _ _).trans (second.reaches _))
    · exact first

open OperandSource DataSource

def ofShape (term : Reader Term) : Shape → Reader OperandSources
  | .bare | .unknown => none
  | .target => one (register .target)
  | .source => one (register .source)
  | .targetSource => two (register .target) (register .source)
  | .pair => one (register .pair)
  | .stackPair => one (register .stackPair)
  | .indexPair => one (register .indexPair)
  | .byte => one (ofTerm (.data ∘ .byte) term)
  | .word => one (ofTerm (.data ∘ .word) term)
  | .targetByte => two (register .target) (ofTerm (.data ∘ .byte) term)
  | .pairWord => two (register .pair) (ofTerm (.data ∘ .word) term)
  | .restart => one (restart term)
  | .byteList => one (list .byteList (byteItem term))
  | .wordList => one (list .wordList (wordItem term))
  | .size => one (ofTerm .size term)

end OperandSources

end Assembler8080
