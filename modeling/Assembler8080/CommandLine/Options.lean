import Assembler8080.Text.Quoted

/-! The arguments of the command: flags may stand anywhere among the paths. -/
namespace Assembler8080.CommandLine

structure Options where
  /-- The path of the binary; empty for the default. -/
  output : Bytes
  listing : Bool
  dumpSymbols : Bool
  deriving Repr, DecidableEq

/-- What is read of the arguments. The paths of the source files stand last one first. -/
structure Arguments extends Options where
  help : Bool
  paths : List Bytes
  deriving Repr, DecidableEq

def Arguments.initial : Arguments := ⟨⟨[], true, false⟩, false, []⟩

inductive ArgumentFault where
  | badSyntax (argument : Bytes)
  | unknownFlag (name : Bytes)
  | unknownShorthand (letter : UInt8) (rest : Bytes)
  | noValue (flag : Bytes)
  | noShorthandValue (letter : UInt8) (rest : Bytes)
  | notBoolean (value flag : Bytes)
  | noPaths
  deriving Repr, DecidableEq

namespace ArgumentFault

def message : ArgumentFault → Bytes
  | badSyntax argument => ascii "bad flag syntax: " ++ argument
  | unknownFlag name => ascii "unknown flag: --" ++ name
  | unknownShorthand letter rest =>
    ascii "unknown shorthand flag: " ++ Text.quoteLatin letter ++ ascii " in -" ++ letter :: rest
  | noValue flag => ascii "flag needs an argument: " ++ flag
  | noShorthandValue letter rest =>
    ascii "flag needs an argument: " ++ Text.quoteLatin letter ++ ascii " in -" ++ letter :: rest
  | notBoolean value flag =>
    ascii "invalid argument " ++ Text.quote value ++ ascii " for " ++ Text.quote flag
      ++ ascii " flag: strconv.ParseBool: parsing " ++ Text.quote value
      ++ ascii ": invalid syntax"
  | noPaths => ascii "requires at least 1 arg(s), only received 0"

end ArgumentFault

def boolean? (s : Bytes) : Option Bool :=
  if ["1", "t", "T", "TRUE", "true", "True"].any (ascii · == s) then some true
  else if ["0", "f", "F", "FALSE", "false", "False"].any (ascii · == s) then some false
  else none

def splitFlag (s : Bytes) : Bytes × Option Bytes :=
  let name := s.takeWhile (· != Byte.equals)
  let tail := s.drop name.length
  (name, if tail.isEmpty then none else some (tail.drop 1))

def booleanFlag (flag : Bytes) (value : Option Bytes) : Except ArgumentFault Bool :=
  match value with
  | none => .ok true
  | some v =>
    match boolean? v with
    | some b => .ok b
    | none => .error (.notBoolean v flag)

/-- What an argument with dashes asks for: nothing more, or the path of the binary from the next
argument, with the fault if there is none. -/
inductive Flag where
  | done (seen : Arguments)
  | wantsOutput (seen : Arguments) (absent : ArgumentFault)

def longFlag (seen : Arguments) (body : Bytes) : Except ArgumentFault Flag :=
  let argument := Byte.minus :: Byte.minus :: body
  if body.head? == some Byte.minus || body.head? == some Byte.equals then
    .error (.badSyntax argument)
  else
    let (name, value) := splitFlag body
    if name == ascii "out" then
      match value with
      | some v => .ok (.done { seen with output := v })
      | none => .ok (.wantsOutput seen (.noValue argument))
    else if name == ascii "listing" then do
      let b ← booleanFlag (ascii "--listing") value
      return .done { seen with listing := b }
    else if name == ascii "dump-symbols" then do
      let b ← booleanFlag (ascii "--dump-symbols") value
      return .done { seen with dumpSymbols := b }
    else if name == ascii "help" then do
      let b ← booleanFlag (ascii "-h, --help") value
      return .done { seen with help := b }
    else .error (.unknownFlag name)

/-- Letters after one dash. The letter o takes the rest of the argument as its value, the letter h
only what follows an equals sign. Letters that start with `test.` are passed over. -/
def shortFlags (seen : Arguments) : Bytes → Except ArgumentFault Flag
  | [] => .ok (.done seen)
  | letter :: rest =>
    let value := match rest with
      | Byte.equals :: b :: more => some (b :: more)
      | _ => none
    if (ascii "test.").isPrefixOf (letter :: rest) then .ok (.done seen)
    else if letter == 0x6F then
      if rest.isEmpty then .ok (.wantsOutput seen (.noShorthandValue letter rest))
      else .ok (.done { seen with output := value.getD rest })
    else if letter == 0x68 then
      if value.isSome then do
        let b ← booleanFlag (ascii "-h, --help") value
        return .done { seen with help := b }
      else shortFlags { seen with help := true } rest
    else .error (.unknownShorthand letter rest)

/-- Reads on after the arguments seen. Two dashes alone end the flags, and one dash alone is a
path. -/
def Arguments.readFrom (seen : Arguments) : List Bytes → Except ArgumentFault Arguments
  | [] => .ok seen
  | argument :: rest =>
    let flag : Except ArgumentFault (Option Flag) :=
      match argument with
      | Byte.minus :: Byte.minus :: [] => .ok none
      | Byte.minus :: Byte.minus :: body => (longFlag seen body).map some
      | Byte.minus :: letter :: more => (shortFlags seen (letter :: more)).map some
      | _ => .ok (some (.done { seen with paths := argument :: seen.paths }))
    match flag with
    | .error fault => .error fault
    | .ok none => .ok { seen with paths := rest.reverse ++ seen.paths }
    | .ok (some (.done seen)) => readFrom seen rest
    | .ok (some (.wantsOutput seen absent)) =>
      match rest with
      | [] => .error absent
      | value :: rest => readFrom { seen with output := value } rest

def Arguments.read (arguments : List Bytes) : Except ArgumentFault Arguments :=
  Arguments.initial.readFrom arguments

/-- What the arguments ask for: the usage, or the assembly of source files, at least one. -/
inductive Request where
  | usage
  | assembly (first : Bytes) (rest : List Bytes) (options : Options)

def Arguments.request (seen : Arguments) : Except ArgumentFault Request :=
  if seen.help then .ok .usage
  else
    match seen.paths.reverse with
    | [] => .error .noPaths
    | first :: rest => .ok (.assembly first rest seen.toOptions)

def Request.read (arguments : List Bytes) : Except ArgumentFault Request :=
  (Arguments.read arguments).bind Arguments.request

end Assembler8080.CommandLine
