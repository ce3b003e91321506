import Assembler8080.Lexeme

/-! Number literals: a word of letters and digits that starts with a digit, with the base as its
last letter (H, B, O or Q, D) or none for decimal. -/
namespace Assembler8080

structure NumberLiteral where
  word : Bytes
  /-- The word that the literal denotes, if its number fits. -/
  value? : Option UInt16
  deriving Repr, DecidableEq

namespace NumberLiteral

def suffixBase? : UInt8 → Option Nat
  | 0x48 | 0x68 => some 16
  | 0x42 | 0x62 => some 2
  | 0x4F | 0x6F | 0x51 | 0x71 => some 8
  | 0x44 | 0x64 => some 10
  | _ => none

/-- Whether a byte is a digit of a base. Bases other than those of literals take any byte. -/
def isDigitOf : Nat → UInt8 → Bool
  | 2, b => b == 0x30 || b == 0x31
  | 8, b => 0x30 ≤ b && b ≤ 0x37
  | 10, b => Byte.isDigit b
  | 16, b => Byte.isHexDigit b
  | _, _ => true

def digits (word : Bytes) : Bytes × Nat :=
  match word.getLast?.bind suffixBase? with
  | some base => (word.dropLast, base)
  | none => (word, 10)

/-- The number that digits stand for, however large. -/
def positional (base : Nat) (ds : Bytes) : Nat :=
  ds.foldl (fun n b => n * base + Byte.digitValue b) 0

/-- The number that digits stand for, cut off where it leaves the range of a word, so that a long
run of digits stays cheap. -/
def capped (base : Nat) (ds : Bytes) : Nat :=
  ds.foldl (fun n b => min (n * base + Byte.digitValue b) 0x10000) 0

theorem min_mul_add {base : Nat} (h : 0 < base) (n digit cap : Nat) :
    min (min n cap * base + digit) cap = min (n * base + digit) cap := by
  by_cases small : n ≤ cap
  · rw [Nat.min_eq_left small]
  · have large : cap ≤ cap * base := Nat.le_mul_of_pos_right _ h
    have grows : cap * base ≤ n * base := Nat.mul_le_mul_right _ (by omega)
    rw [Nat.min_eq_right (by omega : cap ≤ n)]
    omega

theorem capped_eq {base : Nat} (h : 0 < base) (ds : Bytes) :
    capped base ds = min (positional base ds) 0x10000 := by
  have step : ∀ n, ds.foldl (fun n b => min (n * base + Byte.digitValue b) 0x10000) (min n 0x10000)
      = min (ds.foldl (fun n b => n * base + Byte.digitValue b) n) 0x10000 := by
    induction ds with
    | nil => intro n; rfl
    | cons b rest ih =>
      intro n
      rw [List.foldl_cons, List.foldl_cons, min_mul_add h, ih]
  exact step 0

def wordOf? (base : Nat) (ds : Bytes) : Option UInt16 :=
  let n := capped base ds
  if n < 0x10000 then some (UInt16.ofNat n) else none

theorem wordOf?_eq {base : Nat} (h : 0 < base) (ds : Bytes) :
    wordOf? base ds =
      if positional base ds < 0x10000 then some (UInt16.ofNat (positional base ds)) else none := by
  unfold wordOf?
  dsimp only
  rw [capped_eq h]
  split
  · rw [if_pos (by omega), Nat.min_eq_left (by omega)]
  · rw [if_neg (by omega)]

def ofWord? (word : Bytes) : Option NumberLiteral :=
  let (ds, base) := digits word
  if ds.isEmpty || !ds.all (isDigitOf base) then none else some ⟨word, wordOf? base ds⟩

def first? (s : Bytes) : Option NumberLiteral :=
  if s.head?.any Byte.isDigit then ofWord? (s.take (Lexeme.wordRun s)) else none

end NumberLiteral

end Assembler8080
