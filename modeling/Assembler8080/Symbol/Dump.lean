import Assembler8080.Symbol.Table

/-! The dump of the symbol table: every field of every symbol, in colour where the terminal shows
it. Values are opaque to the dump. -/
namespace Assembler8080.SymbolDump

structure Palette where
  typeName : Bytes → Bytes
  field : Bytes → Bytes
  integer : Bytes → Bytes
  absent : Bytes → Bytes
  quote : Bytes → Bytes
  plain : Bytes → Bytes
  escape : Bytes → Bytes

def escapeCode (code : String) : Bytes := 0x1B :: ascii ("[" ++ code ++ "m")

def painted (codes : List String) (s : Bytes) : Bytes :=
  codes.flatMap escapeCode ++ s ++ escapeCode "0"

def Palette.monochrome : Palette := ⟨id, id, id, id, id, id, id⟩

def Palette.coloured : Palette where
  typeName := painted ["32"]
  field := painted ["33"]
  integer := painted ["34", "1"]
  absent := painted ["36", "1"]
  quote := painted ["31", "1"]
  plain := painted ["31"]
  escape := painted ["35", "1"]

def Palette.of (colour : Bool) : Palette := if colour then .coloured else .monochrome

/-- The most elements of a list that are shown. -/
def limit : Nat := 1024

def openBrace : Bytes := ascii "\x7b"

def closeBrace : Bytes := ascii "\x7d"

def merge : List Text.Fragment → Text.Fragment
  | .plain b :: rest => .plain (b ++ rest.flatMap Text.Fragment.bytes)
  | group => .escape (group.flatMap Text.Fragment.bytes)

/-- Joins neighbouring plain fragments. -/
def runs (fragments : List Text.Fragment) : List Text.Fragment :=
  (fragments.splitBy fun a b => a.isPlain && b.isPlain).map merge

def fragment (p : Palette) : Text.Fragment → Bytes
  | .plain b => p.plain b
  | .escape b => p.escape b

def string (p : Palette) (s : Bytes) : Bytes :=
  let mark := p.quote [Byte.doubleQuote]
  mark ++ (runs (Text.fragments s)).flatMap (fragment p) ++ mark

def typeName (p : Palette) (before name : String) : Bytes := ascii before ++ p.typeName (ascii name)

/-- A line with a field, its value at a column that all fields of the record share. -/
def fieldLine (p : Palette) (indent width : Nat) (name : String) (value : Bytes) : Bytes :=
  blanks indent ++ p.field (ascii name) ++ Byte.colon :: (blanks (width - name.length) ++ value)
    ++ ascii ",\n"

def record (indent : Nat) (type : Bytes) (fields : List Bytes) : Bytes :=
  type ++ openBrace ++ [Byte.lineFeed] ++ fields.flatten ++ blanks indent ++ closeBrace

/-- A list: its type, and its elements on lines of their own. A long one is left out. -/
def elements (indent : Nat) (type : Bytes) (items : List Bytes) : Bytes :=
  if items.isEmpty then type ++ openBrace ++ closeBrace
  else if limit < items.length then type ++ openBrace ++ ascii "..." ++ closeBrace
  else record indent type (items.map fun i => blanks (indent + 2) ++ i ++ ascii ",\n")

def location (p : Palette) (indent : Nat) (l : Location) : Bytes :=
  record indent (typeName p "asm." "Location")
    [fieldLine p (indent + 2) 5 "File" (string p l.file),
      fieldLine p (indent + 2) 5 "Line" (p.integer (signedDecimal l.line))]

def references (p : Palette) (indent : Nat) (ls : List Location) : Bytes :=
  let type := typeName p "[]asm." "Location"
  if ls.isEmpty then type ++ ascii "(" ++ p.absent (ascii "nil") ++ ascii ")"
  else elements indent type (ls.map (location p (indent + 2)))

def symbol (p : Palette) (indent : Nat) (s : Symbol) : Bytes :=
  let line := fieldLine p (indent + 2) 7
  record indent (typeName p "&asm." "Symbol")
    [line "Kind" (p.integer (decimal s.kind.code)),
      line "Label" (string p s.text),
      line "Parent" (string p s.parent),
      line "File" (string p s.file),
      line "Line" (p.integer (signedDecimal s.line)),
      line "Value" (typeName p "asm." "Value" ++ openBrace ++ closeBrace),
      line "Refs" (references p (indent + 2) s.references)]

def text (colour : Bool) (symbols : List Symbol) : Bytes :=
  let p := Palette.of colour
  elements 0 (typeName p "[]*asm." "Symbol") (symbols.map (symbol p 2)) ++ [Byte.lineFeed]

end Assembler8080.SymbolDump
