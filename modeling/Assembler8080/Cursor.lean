import Assembler8080.Lexeme

/-! A place in a source line: how many bytes are behind it and the text ahead of it. A reader is a
function from one place to another that never goes back; the readers of this project are built from
`advance`, so where a reader stops is always `advance` of where it started. -/
namespace Assembler8080

structure Cursor where
  offset : Nat
  rest : Bytes
  deriving Repr, DecidableEq

namespace Cursor

def atStart (text : Bytes) : Cursor := ⟨0, text⟩

def inside (text : Bytes) (offset : Nat) : Cursor := ⟨offset, text.drop offset⟩

/-- Columns count from one. -/
def column (c : Cursor) : Nat := c.offset + 1

def atEnd (c : Cursor) : Bool := c.rest.isEmpty

def next? (c : Cursor) : Option UInt8 := c.rest.head?

/-- Moves over `n` bytes, or over all that are left. -/
def advance (c : Cursor) (n : Nat) : Cursor :=
  ⟨c.offset + (c.rest.take n).length, c.rest.drop n⟩

def skipBlanks (c : Cursor) : Cursor := c.advance (Lexeme.blankRun c.rest)

@[simp] theorem rest_advance (c : Cursor) (n : Nat) : (c.advance n).rest = c.rest.drop n := rfl

@[simp] theorem advance_zero (c : Cursor) : c.advance 0 = c := by simp [advance]

theorem advance_advance (c : Cursor) (m n : Nat) :
    (c.advance m).advance n = c.advance (m + n) := by
  simp only [advance, List.length_take, List.length_drop, List.drop_drop, Cursor.mk.injEq, and_true]
  omega

/-- The second place lies at or after the first, in the same line. -/
def Reaches (c d : Cursor) : Prop := ∃ n, d = c.advance n

namespace Reaches

theorem refl (c : Cursor) : c.Reaches c := ⟨0, by simp⟩

theorem advance (c : Cursor) (n : Nat) : c.Reaches (c.advance n) := ⟨n, rfl⟩

theorem skipBlanks (c : Cursor) : c.Reaches c.skipBlanks := ⟨_, rfl⟩

theorem trans {c d e : Cursor} (first : c.Reaches d) (second : d.Reaches e) : c.Reaches e := by
  obtain ⟨m, rfl⟩ := first
  obtain ⟨n, rfl⟩ := second
  exact ⟨m + n, advance_advance c m n⟩

theorem length_le {c d : Cursor} (h : c.Reaches d) : d.rest.length ≤ c.rest.length := by
  obtain ⟨n, rfl⟩ := h
  simp

theorem offset_le {c d : Cursor} (h : c.Reaches d) : c.offset ≤ d.offset := by
  obtain ⟨n, rfl⟩ := h
  exact Nat.le_add_right ..

end Reaches

end Cursor

/-- A reader of source text. It always gives a result, and never moves back. -/
structure Reader (α : Type) where
  run : Cursor → α × Cursor
  reaches : ∀ c : Cursor, c.Reaches (run c).2

end Assembler8080
