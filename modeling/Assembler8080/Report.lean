import Assembler8080.Assembly
import Assembler8080.Listing

/-! The report of an assembly: the listing, the symbols with their cross references, and the
faults. It is a sequence of writes to three destinations, each of which may be absent; the first
write that fails ends the report. -/
namespace Assembler8080

namespace Symbol

/-- The row of a symbol in the report: its kind, name and place, then its value. -/
def row (s : Symbol) : Bytes :=
  let parent := if s.kind = .nested then s.parent ++ [Byte.dot] else []
  let place := s.text ++ Byte.atSign :: (Location.mk s.file s.line).text
  let start := s.kind.name.padTo 6 ++ Byte.blank :: (parent ++ place)
  let value := match s.value with
    | some w => hexWord w
    | none => ascii "null (undefined)"
  Bytes.padTo 70 start ++ ascii " = " ++ value

def referencesRow (s : Symbol) : Bytes :=
  ascii "       refs: " ++
    if s.references.isEmpty then ascii "(none)"
    else [Byte.blank].intercalate (s.references.map Location.text)

end Symbol

namespace Report

inductive Destination where
  | listing | symbols | errors
  deriving Repr, DecidableEq

structure Write where
  destination : Destination
  content : Bytes
  deriving Repr, DecidableEq

def listingWrites (lines : List Line) : List Write :=
  lines.map fun l => ⟨.listing, Listing.text (Listing.entry l)⟩

def symbolWrites (t : SymbolTable) : List Write :=
  [⟨.symbols, ascii "*** SYMBOL TABLE ***\n"⟩,
    ⟨.symbols, decimal t.size ++ ascii " entries.\n"⟩]
  ++ t.symbols.map (fun s =>
    ⟨.symbols, s.row ++ Byte.lineFeed :: (s.referencesRow ++ [Byte.lineFeed])⟩)
  ++ [⟨.symbols, ascii "*** END ***\n"⟩]

def errorWrites (diagnostics : List Diagnostic) (unresolved : Nat) : List Write :=
  diagnostics.map (fun d => ⟨.errors, d.text ++ [Byte.lineFeed]⟩)
  ++ [⟨.errors, decimal diagnostics.length ++ ascii " errors, " ++ decimal unresolved
        ++ ascii " unresolved symbols\n"⟩]

def allWrites (lines : List Line) (t : SymbolTable) : List Write :=
  listingWrites lines ++ symbolWrites t
    ++ errorWrites (lines.flatMap Line.diagnostics) t.unresolved

def writes (present : Destination → Bool) (lines : List Line) (t : SymbolTable) : List Write :=
  (allWrites lines t).filter fun w => present w.destination

/-- How many more writes each destination takes; `none` for one that takes any number. -/
structure Room where
  listing : Option Nat
  symbols : Option Nat
  errors : Option Nat
  deriving Repr, DecidableEq

namespace Room

def unlimited : Room := ⟨none, none, none⟩

def get (r : Room) : Destination → Option Nat
  | .listing => r.listing
  | .symbols => r.symbols
  | .errors => r.errors

def use (r : Room) : Destination → Room
  | .listing => { r with listing := r.listing.map (· - 1) }
  | .symbols => { r with symbols := r.symbols.map (· - 1) }
  | .errors => { r with errors := r.errors.map (· - 1) }

end Room

structure Delivery where
  made : List Write
  failed : Bool

def deliverFrom (seen : List Write) (room : Room) : List Write → Delivery
  | [] => ⟨seen.reverse, false⟩
  | w :: rest =>
    if room.get w.destination = some 0 then ⟨seen.reverse, true⟩
    else deliverFrom (w :: seen) (room.use w.destination) rest

/-- Makes the writes in order, up to the first that fails. -/
def deliver (room : Room) (ws : List Write) : Delivery := deliverFrom [] room ws

def Delivery.content (d : Delivery) (destination : Destination) : Bytes :=
  (d.made.filter (·.destination == destination)).flatMap (·.content)

end Report

end Assembler8080
