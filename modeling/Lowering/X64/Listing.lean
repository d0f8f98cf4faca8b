import Lowering.X64.Assembler
import Lowering.Text.Digits
/-!
Machine code as text, in Intel syntax: the destination comes first, and the size of a memory
operand is named only where no register implies it.
-/
namespace Lowering.X64

/-- A number as assemblers read it. Up to nine it is decimal; beyond that it is hexadecimal with
the mark behind, and a zero stands before a leading letter. -/
def numberText (n : Nat) : String :=
  if n ≤ 9 then toString n
  else
    let digits := Text.upperHexDigits n
    (if digits.front.isAlpha then "0" else "") ++ digits ++ "h"

/-- An address in code: up to nine it is decimal; beyond that it has sixteen digits, and one more
before a leading letter. -/
def addressText (n : Nat) : String :=
  if n ≤ 9 then toString n
  else
    let digits := Text.padZeros 16 (Text.upperHexDigits n)
    (if digits.front.isAlpha then "0" else "") ++ digits ++ "h"

namespace Width

def pointerText : Width → String
  | .byte => "byte ptr "
  | .word => "word ptr "
  | .dword => "dword ptr "
  | .qword => "qword ptr "

def constantText (w : Width) (v : Int) : String := numberText (unsigned (8 * w.bytes) v)

end Width

def legacyNames : List String := ["ax", "cx", "dx", "bx", "sp", "bp", "si", "di"]

namespace Reg

def byteName (number : Nat) (name : String) : String :=
  if number < 4 then String.ofList (name.toList.take 1) ++ "l" else name ++ "l"

def text (r : Reg) : String :=
  match r.cls, legacyNames[r.number]? with
  | .float, _ => "xmm" ++ toString r.number
  | .general .qword, some name => "r" ++ name
  | .general .dword, some name => "e" ++ name
  | .general .word, some name => name
  | .general .byte, some name => byteName r.number name
  | .general .qword, none => "r" ++ toString r.number
  | .general .dword, none => "r" ++ toString r.number ++ "d"
  | .general .word, none => "r" ++ toString r.number ++ "w"
  | .general .byte, none => "r" ++ toString r.number ++ "b"

end Reg

def displacementText (d : Int) : String :=
  if d = 0 then ""
  else if d < 0 then "-" ++ numberText d.natAbs
  else "+" ++ numberText d.natAbs

def memoryText (m : MemoryRef) : String :=
  let index := match m.index with
    | none => ""
    | some r => "+" ++ (Reg.whole r).text ++ if m.scale = 1 then "" else "*" ++ toString m.scale
  "[" ++ (Reg.whole m.base).text ++ index ++ displacementText m.offset ++ "]"

namespace RegMem

def text : RegMem → String
  | .reg r => r.text
  | .mem m => memoryText m

def sizedText (w : Width) : RegMem → String
  | .reg r => r.text
  | .mem m => w.pointerText ++ memoryText m

end RegMem

namespace Alu

def text : Alu → String
  | .add => "add"
  | .or => "or"
  | .and => "and"
  | .sub => "sub"
  | .xor => "xor"
  | .cmp => "cmp"

end Alu

namespace Shift

def text : Shift → String
  | .shl => "shl"
  | .shr => "shr"
  | .sar => "sar"

end Shift

namespace Condition

def text : Condition → String
  | .equal => "e"
  | .notEqual => "ne"
  | .less => "l"
  | .greater => "g"
  | .lessOrEqual => "le"
  | .greaterOrEqual => "ge"
  | .below => "b"
  | .above => "a"
  | .belowOrEqual => "be"
  | .aboveOrEqual => "ae"
  | .parity => "p"

end Condition

namespace Precision

def ending : Precision → String
  | .single => "ss"
  | .double => "sd"

end Precision

namespace Sse

def text : Sse → String
  | .copy => "movaps"
  | .load p => "mov" ++ p.ending
  | .add p => "add" ++ p.ending
  | .sub p => "sub" ++ p.ending
  | .mul p => "mul" ++ p.ending
  | .div p => "div" ++ p.ending
  | .sqrt p => "sqrt" ++ p.ending
  | .convert .single => "cvtss2sd"
  | .convert .double => "cvtsd2ss"
  | .compare p => "ucomi" ++ p.ending

end Sse

namespace Plain

def text : Plain → String
  | .ret => "ret"
  | .int3 => "int3"
  | .nop => "nop"
  | .mfence => "mfence"
  | .cdq => "cdq"
  | .cqo => "cqo"

end Plain

def instructionText (name : String) (operands : List String) : String :=
  name ++ " " ++ String.intercalate "," operands

/-- The text of an instruction. A label stands for the address `target`, and `short` says that the
form of the jump is the short one. -/
def Instruction.text (target : Nat) (short : Bool) : Instruction → String
  | .plain op => op.text
  | .push r => instructionText "push" [(Reg.whole r).text]
  | .pop r => instructionText "pop" [(Reg.whole r).text]
  | .moveImm64 r v => instructionText "mov" [(Reg.whole r).text, Width.qword.constantText v]
  | .moveImm32 r v =>
    instructionText "mov" [Reg.text ⟨r, .general .dword⟩, Width.dword.constantText v]
  | .moveImm w dst v => instructionText "mov" [dst.sizedText w, w.constantText v]
  | .move _ dst src => instructionText "mov" [dst.text, src.text]
  | .store _ dst src => instructionText "mov" [memoryText dst, src.text]
  | .signExtend .dword _ dst src => instructionText "movsxd" [dst.text, src.text]
  | .signExtend narrow _ dst src => instructionText "movsx" [dst.text, src.sizedText narrow]
  | .zeroExtend narrow dst src => instructionText "movzx" [dst.text, src.sizedText narrow]
  | .alu op _ dst src => instructionText op.text [dst.text, src.text]
  | .aluImm op w dst v => instructionText op.text [dst.sizedText w, w.constantText v]
  | .compareMemory _ dst src => instructionText "cmp" [memoryText dst, src.text]
  | .multiply _ dst src => instructionText "imul" [dst.text, src.text]
  | .multiplyImm w dst src v => instructionText "imul" [dst.text, src.text, w.constantText v]
  | .divide _ divisor => instructionText "idiv" [divisor.text]
  | .negate _ dst => instructionText "neg" [dst.text]
  | .moveIfSign sign _ dst src =>
    instructionText (if sign then "cmovs" else "cmovns") [dst.text, src.text]
  | .shiftCount op _ dst => instructionText op.text [dst.text, "cl"]
  | .shiftImm op _ dst count => instructionText op.text [dst.text, Width.byte.constantText count]
  | .flipBit _ dst index => instructionText "btc" [dst.text, numberText index]
  | .clearBit _ dst index => instructionText "btr" [dst.text, numberText index]
  | .callVia t => instructionText "call" [t.sizedText .qword]
  | .jumpVia t => instructionText "jmp" [t.sizedText .qword]
  | .lea r _ => instructionText "lea" [(Reg.whole r).text, "[" ++ numberText target ++ "]"]
  | .call _ => instructionText "call" [addressText target]
  | .jump _ => instructionText "jmp" [(if short then "short " else "") ++ addressText target]
  | .jumpIf c _ =>
    instructionText ("j" ++ c.text) [(if short then "short " else "") ++ addressText target]
  | .sse op dst src => instructionText op.text [dst.text, src.text]
  | .storeFloat p dst src => instructionText ("mov" ++ p.ending) [memoryText dst, src.text]
  | .toFloat w dst src =>
    instructionText (if w == .qword then "movq" else "movd") [dst.text, src.text]
  | .ofFloat w dst src =>
    instructionText (if w == .qword then "movq" else "movd") [dst.text, src.text]
  | .intToFloat p w dst src => instructionText ("cvtsi2" ++ p.ending) [dst.text, src.sizedText w]
  | .floatToInt p _ dst src =>
    instructionText ("cvtt" ++ p.ending ++ "2si") [dst.text, src.text]

def addressAt (base : Int) (offset : Nat) : Nat := unsigned 64 (base + offset)

def Slot.filled (s : Slot) (code : List UInt8) : Instruction :=
  match s.instruction with
  | .moveImm64 r _ =>
    .moveImm64 r (ofLittleEndian ((code.drop (s.address + Assembler.patchDistance)).take 8))
  | i => i

namespace Assembler

/-- One line for each instruction of the finished `code`, which starts at `base`: the address and
the instruction. -/
def listingText (a : Assembler) (code : List UInt8) (base : Int) : Except Error (List String) := do
  let a := a.closed
  let slots ← a.listing
  let table := slots.toArray
  let target (s : Slot) : Nat := match s.instruction.label? with
    | some l => addressAt base (table.getD (a.places.position l) default).address
    | none => 0
  .ok (slots.map fun s =>
    Text.padZeros 16 (Text.upperHexDigits (addressAt base s.address)) ++ "  "
      ++ (s.filled code).text (target s) (s.size == shortSize))

end Assembler

end Lowering.X64
