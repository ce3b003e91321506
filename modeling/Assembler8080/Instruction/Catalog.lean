import Assembler8080.Instruction

/-! The catalog of instructions, in the order of the reference card, and how a mnemonic finds its
entry. -/
namespace Assembler8080.Catalog

def machine (mnemonic : String) (opcode : UInt8) (shape : Shape) : Instruction :=
  ⟨ascii mnemonic, shape, .machine opcode⟩

def directive (mnemonic : String) (d : Directive) (shape : Shape) : Instruction :=
  ⟨ascii mnemonic, shape, .directive d⟩

def dataTransfer : List Instruction :=
  [machine "MOV" 0x40 .targetSource, machine "MVI" 0x06 .targetByte, machine "LXI" 0x01 .pairWord,
   machine "LDA" 0x3A .word, machine "STA" 0x32 .word, machine "LHLD" 0x2A .word,
   machine "SHLD" 0x22 .word, machine "LDAX" 0x0A .indexPair, machine "STAX" 0x02 .indexPair,
   machine "XCHG" 0xEB .bare]

def arithmetic : List Instruction :=
  [machine "ADD" 0x80 .source, machine "ADC" 0x88 .source, machine "SUB" 0x90 .source,
   machine "SBB" 0x98 .source, machine "ANA" 0xA0 .source, machine "XRA" 0xA8 .source,
   machine "ORA" 0xB0 .source, machine "CMP" 0xB8 .source, machine "ADI" 0xC6 .byte,
   machine "ACI" 0xCE .byte, machine "SUI" 0xD6 .byte, machine "SBI" 0xDE .byte,
   machine "ANI" 0xE6 .byte, machine "XRI" 0xEE .byte, machine "ORI" 0xF6 .byte,
   machine "CPI" 0xFE .byte, machine "INR" 0x04 .target, machine "DCR" 0x05 .target,
   machine "INX" 0x03 .pair, machine "DCX" 0x0B .pair, machine "DAD" 0x09 .pair,
   machine "DAA" 0x27 .bare, machine "CMA" 0x2F .bare, machine "STC" 0x37 .bare,
   machine "CMC" 0x3F .bare, machine "RLC" 0x07 .bare, machine "RRC" 0x0F .bare,
   machine "RAL" 0x17 .bare, machine "RAR" 0x1F .bare]

def branch : List Instruction :=
  [machine "JMP" 0xC3 .word, machine "JNZ" 0xC2 .word, machine "JZ" 0xCA .word,
   machine "JNC" 0xD2 .word, machine "JC" 0xDA .word, machine "JPO" 0xE2 .word,
   machine "JPE" 0xEA .word, machine "JP" 0xF2 .word, machine "JM" 0xFA .word,
   machine "CALL" 0xCD .word, machine "CNZ" 0xC4 .word, machine "CZ" 0xCC .word,
   machine "CNC" 0xD4 .word, machine "CC" 0xDC .word, machine "CPO" 0xE4 .word,
   machine "CPE" 0xEC .word, machine "CP" 0xF4 .word, machine "CM" 0xFC .word,
   machine "RET" 0xC9 .bare, machine "RNZ" 0xC0 .bare, machine "RZ" 0xC8 .bare,
   machine "RNC" 0xD0 .bare, machine "RC" 0xD8 .bare, machine "RPO" 0xE0 .bare,
   machine "RPE" 0xE8 .bare, machine "RP" 0xF0 .bare, machine "RM" 0xF8 .bare,
   machine "RST" 0xC7 .restart, machine "PCHL" 0xE9 .bare]

def control : List Instruction :=
  [machine "PUSH" 0xC5 .stackPair, machine "POP" 0xC1 .stackPair, machine "XTHL" 0xE3 .bare,
   machine "SPHL" 0xF9 .bare, machine "IN" 0xDB .byte, machine "OUT" 0xD3 .byte,
   machine "EI" 0xFB .bare, machine "DI" 0xF3 .bare, machine "HLT" 0x76 .bare,
   machine "NOP" 0x00 .bare]

def directives : List Instruction :=
  [directive "ORG" .org .word, directive "EQU" .equ .word, directive "DB" .db .byteList,
   directive "DW" .dw .wordList, directive "DS" .ds .size, directive "END" .finish .bare]

def instructions : List Instruction :=
  dataTransfer ++ arithmetic ++ branch ++ control ++ directives

/-- Reads on after the capitals `seen`, last one first. The long s and the dotless i are the only
characters outside ASCII whose capitals are ASCII letters; a word with any other has none. -/
def capitalsOnto (seen : Bytes) : Bytes → Option Bytes
  | [] => some seen.reverse
  | 0xC5 :: 0xBF :: rest => capitalsOnto (0x53 :: seen) rest
  | 0xC4 :: 0xB1 :: rest => capitalsOnto (0x49 :: seen) rest
  | b :: rest => if Byte.isAscii b then capitalsOnto (Byte.toUpper b :: seen) rest else none

def capitals? (s : Bytes) : Option Bytes := capitalsOnto [] s

def find? (mnemonic : Bytes) : Option Instruction := do
  let capitals ← capitals? mnemonic
  instructions.find? (·.mnemonic == capitals)

end Assembler8080.Catalog
