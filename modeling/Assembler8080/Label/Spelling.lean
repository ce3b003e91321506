import Assembler8080.Cursor
import Assembler8080.Label

/-! How labels are written. Each form recognises one spelling at the start of a text; declarations
and references are tried form by form, in a fixed order, and the first that fits is taken. -/
namespace Assembler8080

structure Spelled where
  label : Label
  length : Nat
  deriving Repr, DecidableEq

namespace Spelled

def name? (lead : Nat) (s : Bytes) : Option (Bytes × Nat) :=
  let tail := s.drop lead
  match Lexeme.name tail with
  | 0 => none
  | n + 1 => some (tail.take (n + 1), lead + (n + 1))

def keyword? (word s : Bytes) : Option Nat :=
  match Lexeme.keyword word s with
  | 0 => none
  | n + 1 => some (n + 1)

def dotName? (lead : Nat) (s : Bytes) : Option (Bytes × Nat) :=
  match (s.drop lead).head? with
  | some Byte.dot => name? (lead + 1) s
  | _ => none

/-- A dollar sign takes one byte of the text after `lead` bytes. -/
def dollar (lead : Nat) (s : Bytes) : Nat :=
  if (s.drop lead).head? == some Byte.dollar then lead + 1 else lead

def globalKeyword? (s : Bytes) : Option Spelled := do
  let lead ← keyword? (ascii "GLOBAL") s
  let (text, length) ← name? (dollar lead s) s
  some ⟨⟨.global, text, []⟩, length⟩

def dollarName? (s : Bytes) : Option Spelled :=
  match s.head? with
  | some Byte.dollar => (name? 1 s).map fun (text, length) => ⟨⟨.global, text, []⟩, length⟩
  | _ => none

def staticKeyword? (s : Bytes) : Option Spelled := do
  let lead ← keyword? (ascii "STATIC") s
  let (text, length) ← name? lead s
  some ⟨⟨.static, text, []⟩, length⟩

def plainName? (s : Bytes) : Option Spelled :=
  (name? 0 s).map fun (text, length) => ⟨⟨.static, text, []⟩, length⟩

def parentDotName? (lead : Nat) (s : Bytes) : Option Spelled := do
  let (parent, before) ← name? lead s
  let (text, length) ← dotName? before s
  some ⟨⟨.nested, text, parent⟩, length⟩

/-- A dot and a name, after `lead` bytes, under a parent that is not written. -/
def bareDotName? (parent : Bytes) (lead : Nat) (s : Bytes) : Option Spelled :=
  (dotName? lead s).map fun (text, length) => ⟨⟨.nested, text, parent⟩, length⟩

def localKeyword? (s : Bytes) : Option Spelled := do
  let lead ← keyword? (ascii "LOCAL") s
  parentDotName? lead s

def localKeywordBare? (parent : Bytes) (s : Bytes) : Option Spelled := do
  let lead ← keyword? (ascii "LOCAL") s
  bareDotName? parent lead s

end Spelled

open Spelled

/-- What ends a declared name: a colon, which takes one byte, or blanks and the word EQU, which are
left to be read as the instruction. -/
def declarationEnd? (s : Bytes) : Option Nat :=
  match s.head? with
  | some Byte.colon => some 1
  | _ =>
    let lead := Lexeme.blankRun s
    if 0 < lead && 0 < Lexeme.wholeWord (ascii "EQU") (s.drop lead) then some 0 else none

/-- The spellings of a declaration, in the order in which they are tried. -/
def declarationForms (parent : Bytes) : List (Bytes → Option Spelled) :=
  [globalKeyword?, dollarName?, staticKeyword?, plainName?, localKeyword?, parentDotName? 0,
    bareDotName? parent 0]

/-- The spellings of a reference, in the order in which they are tried. -/
def referenceForms (parent : Bytes) : List (Bytes → Option Spelled) :=
  [globalKeyword?, dollarName?, staticKeyword?, localKeyword?, localKeywordBare? parent,
    parentDotName? 0, plainName?, bareDotName? parent 0]

def declaredBy? (s : Bytes) (form : Bytes → Option Spelled) : Option Spelled := do
  let spelled ← form s
  let ending ← declarationEnd? (s.drop spelled.length)
  some ⟨spelled.label, spelled.length + ending⟩

namespace Scope

/-- A static label becomes the parent of the dotted labels after it. -/
def declare (scope : Scope) (l : Label) : Scope :=
  if l.kind = .static then { scope with parent := l.text } else scope

def declaration? (scope : Scope) (line : Int) (c : Cursor) : Option (Declaration × Cursor) :=
  let start := c.skipBlanks
  match (declarationForms scope.parent).findSome? (declaredBy? start.rest) with
  | none => none
  | some spelled =>
    some (⟨spelled.label, scope.file, line, start.rest.take spelled.length⟩,
      start.advance spelled.length)

def reference? (scope : Scope) (line : Int) (c : Cursor) : Option (Reference × Cursor) :=
  let start := c.skipBlanks
  match (referenceForms scope.parent).findSome? (· start.rest) with
  | none => none
  | some spelled =>
    let file := if spelled.label.kind = .global then [] else scope.file
    some (⟨spelled.label, file, line, start.rest.take spelled.length⟩,
      start.advance spelled.length)

theorem declaration?_reaches {scope : Scope} {line : Int} {c d : Cursor} {l : Declaration}
    (h : scope.declaration? line c = some (l, d)) : c.Reaches d := by
  unfold declaration? at h
  simp only at h
  split at h
  · exact absurd h (by simp)
  · obtain ⟨_, rfl⟩ := Prod.mk.inj (Option.some.inj h)
    exact (Cursor.Reaches.skipBlanks c).trans (.advance _ _)

theorem reference?_reaches {scope : Scope} {line : Int} {c d : Cursor} {r : Reference}
    (h : scope.reference? line c = some (r, d)) : c.Reaches d := by
  unfold reference? at h
  simp only at h
  split at h
  · exact absurd h (by simp)
  · obtain ⟨_, rfl⟩ := Prod.mk.inj (Option.some.inj h)
    exact (Cursor.Reaches.skipBlanks c).trans (.advance _ _)

end Scope

end Assembler8080
