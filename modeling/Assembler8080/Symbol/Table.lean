import Std.Data.TreeMap.Lemmas
import Assembler8080.Symbol
import Assembler8080.Text.Quoted

/-! The symbol table. A label has its entry from the first declaration of it or reference to it,
whichever comes first, so every look-up finds an entry or makes one. A global label that is
referenced before it is declared waits under the unknown file, and moves to its own file when the
declaration comes. -/
namespace Assembler8080

structure SymbolTable where
  /-- The symbols by key, in the order of the bytes of the keys. -/
  entries : Std.TreeMap Bytes Symbol
  /-- The keys of the global labels that a concrete file declares, by name. -/
  globals : Std.TreeMap Bytes Bytes

inductive DeclarationFault where
  | kindless (text : Bytes)
  | repeated (earlier : Symbol)
  | repeatedGlobal (earlier : Symbol)
  deriving Repr, DecidableEq

namespace DeclarationFault

def declaredAt (s : Symbol) : Bytes :=
  s.name ++ ascii " already declared at " ++ (Location.mk s.file s.line).text

def message : DeclarationFault → Bytes
  | kindless text => ascii "label " ++ Text.quote text ++ ascii " has no kind"
  | repeated s => declaredAt s
  | repeatedGlobal s => ascii "global " ++ declaredAt s

end DeclarationFault

namespace SymbolTable

def empty : SymbolTable := ⟨∅, ∅⟩

instance : Inhabited SymbolTable := ⟨empty⟩

def get? (t : SymbolTable) (key : Bytes) : Option Symbol := t.entries[key]?

def insert (t : SymbolTable) (key : Bytes) (s : Symbol) : SymbolTable :=
  { t with entries := t.entries.insert key s }

def symbols (t : SymbolTable) : List Symbol := t.entries.values

def size (t : SymbolTable) : Nat := t.entries.size

def unresolved (t : SymbolTable) : Nat := t.symbols.countP (·.value.isNone)

def assign (t : SymbolTable) (key : Bytes) (v : Value) : SymbolTable :=
  { t with entries := t.entries.modify key fun s => { s with value := v } }

def addReference (t : SymbolTable) (key : Bytes) (l : Location) : SymbolTable :=
  { t with entries := t.entries.modify key (·.addUse l) }

def clearReferences (t : SymbolTable) : SymbolTable :=
  { t with entries := t.entries.map fun _ s => { s with uses := [] } }

theorem get?_insert (t : SymbolTable) (key other : Bytes) (s : Symbol) :
    (t.insert key s).get? other = if key = other then some s else t.get? other := by
  simp [insert, get?, Std.TreeMap.getElem?_insert]

theorem get?_assign (t : SymbolTable) (key other : Bytes) (v : Value) :
    (t.assign key v).get? other =
      if key = other then (t.get? key).map fun s => { s with value := v } else t.get? other := by
  simp [assign, get?, Std.TreeMap.getElem?_modify]

theorem get?_addReference (t : SymbolTable) (key other : Bytes) (l : Location) :
    (t.addReference key l).get? other =
      if key = other then (t.get? key).map (·.addUse l) else t.get? other := by
  simp [addReference, get?, Std.TreeMap.getElem?_modify]

theorem get?_clearReferences (t : SymbolTable) (key : Bytes) :
    t.clearReferences.get? key = (t.get? key).map fun s => { s with uses := [] } := by
  simp [clearReferences, get?, Std.TreeMap.getElem?_map]

/-- The outcome of looking a declaration up: the table, the key of the label's entry, and why the
declaration is refused. A refused declaration has the entry of the earlier one. -/
structure Lookup where
  table : SymbolTable
  key : Option Bytes
  fault : Option DeclarationFault

def pendingKey (l : Label) : Bytes := { l with kind := .global }.key pendingFile

def enter (t : SymbolTable) (d : Declaration) : SymbolTable :=
  let added := t.insert d.key (Symbol.ofDeclaration d)
  if d.kind = .global ∧ isConcrete d.file then
    { added with globals := added.globals.insert d.text d.key }
  else added

/-- Moves a global label that was waiting for its file to the declared key. -/
def promote (t : SymbolTable) (d : Declaration) (pending : Symbol) : SymbolTable :=
  ⟨(t.entries.erase (pendingKey d.toLabel)).insert d.key
      { pending with file := d.file, line := d.line },
    t.globals.insert d.text d.key⟩

def declaredElsewhere? (t : SymbolTable) (d : Declaration) : Option (Bytes × Symbol) :=
  if d.kind = .global then do
    let key ← t.globals[d.text]?
    let s ← t.get? key
    some (key, s)
  else none

/-- The entry of a global label that waits for the file of the declaration. -/
def pending? (t : SymbolTable) (d : Declaration) : Option Symbol :=
  if d.kind = .global ∧ isConcrete d.file then t.get? (pendingKey d.toLabel) else none

/-- Looks up the label that a line declares. An entry made by a reference gains the line of the
declaration; a second declaration, on another line, is refused. -/
def declare (t : SymbolTable) (d : Declaration) : Lookup :=
  if d.kind = .kindless then ⟨t, none, some (.kindless d.text)⟩
  else
    match t.get? d.key with
    | some s =>
      if s.line = 0 then ⟨t.insert d.key { s with line := d.line }, some d.key, none⟩
      else if s.line = d.line then ⟨t, some d.key, none⟩
      else ⟨t, some d.key, some (.repeated s)⟩
    | none =>
      match t.declaredElsewhere? d with
      | some (key, s) => ⟨t, some key, some (.repeatedGlobal s)⟩
      | none =>
        match t.pending? d with
        | some s => ⟨t.promote d s, some d.key, none⟩
        | none => ⟨t.enter d, some d.key, none⟩

/-- The key under which a reference is looked up first: a global label has the file that declares
it. -/
def referenceKey (t : SymbolTable) (r : Reference) : Bytes :=
  if r.kind = .global then (t.globals[r.text]?).getD r.key else r.key

def find? (t : SymbolTable) (r : Reference) : Option Bytes :=
  if t.entries.contains (t.referenceKey r) then some (t.referenceKey r)
  else if r.kind = .global ∧ t.entries.contains (pendingKey r.toLabel) then
    some (pendingKey r.toLabel)
  else none

/-- The symbol that a reference denotes: its entry, or the one that would be made for it. -/
def denoted (t : SymbolTable) (r : Reference) : Symbol :=
  ((t.find? r).bind t.get?).getD (Symbol.ofReference r)

/-- Looks up the label that an expression uses. It never moves an entry, and makes one when there
is none. -/
def refer (t : SymbolTable) (r : Reference) : SymbolTable × Option Bytes :=
  if r.kind = .kindless then (t, none)
  else
    match t.find? r with
    | some key => (t, some key)
    | none => (t.insert (t.referenceKey r) (Symbol.ofReference r), some (t.referenceKey r))

def row (s : Symbol) : Bytes :=
  ascii "  " ++ s.key.padTo 30 ++ ascii "  " ++ s.kind.name.padTo 6 ++ ascii " " ++ s.value.text
    ++ [Byte.lineFeed]

def overview (t : SymbolTable) : Bytes :=
  if t.size = 0 then ascii "Symbols: (empty)\n"
  else ascii "Symbols:\n" ++ t.symbols.flatMap row

end SymbolTable

end Assembler8080
