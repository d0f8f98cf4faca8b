import Lowering.X64.Instruction
import Lowering.Error
/-!
Instructions as bytes.

An encoding is a mandatory leading byte, a REX byte where one is needed, the opcode, the operand
bytes and an immediate. Memory operands always have a displacement, of one byte if it fits.
-/
namespace Lowering.X64

def byteOf (n : Nat) : UInt8 := UInt8.ofNat n

structure Form where
  lead : List UInt8 := []
  wide : Bool := false
  opcode : List UInt8
  field : Nat
  operand : RegMem
  lowByte : Bool := false
  immediate : List UInt8 := []

def highBit (n : Nat) : Nat := if n ≥ 8 then 1 else 0

def needsRex (r : Reg) : Bool :=
  r.cls == .general .byte && 4 ≤ r.number && r.number < 8

def rexByte (wide : Bool) (r x b : Nat) : UInt8 :=
  byteOf (0x40 + 8 * wide.toNat + 4 * highBit r + 2 * highBit x + highBit b)

def modRM (mode field rm : Nat) : UInt8 := byteOf (64 * mode + 8 * (field % 8) + rm % 8)

def scaleBits : Nat → Nat
  | 1 => 0
  | 2 => 1
  | 4 => 2
  | _ => 3

/-- Operand bytes of a memory operand. A scaled index byte stands in for the base where there is
an index or a scale, and for the bases whose number it would need otherwise. -/
def memoryBytes (field : Nat) (m : MemoryRef) : List UInt8 :=
  let short := fitsSigned 8 m.offset
  let mode := if short then 1 else 2
  let displacement := littleEndian (if short then 1 else 4) m.offset
  if m.index.isSome || m.base % 8 == 4 || m.scale != 1 then
    let index := m.index.getD 4
    modRM mode field 4 :: byteOf (64 * scaleBits m.scale + 8 * (index % 8) + m.base % 8)
      :: displacement
  else modRM mode field m.base :: displacement

namespace Form

def bytes (f : Form) : List UInt8 :=
  let (x, b) := match f.operand with
    | .reg r => (0, r.number)
    | .mem m => (m.index.getD 0, m.base)
  let low := f.lowByte || match f.operand with
    | .reg r => needsRex r
    | .mem _ => false
  let rex := if f.wide || f.field ≥ 8 || x ≥ 8 || b ≥ 8 || low then
    [rexByte f.wide f.field x b] else []
  let operand := match f.operand with
    | .reg r => [modRM 3 f.field r.number]
    | .mem m => memoryBytes f.field m
  f.lead ++ rex ++ f.opcode ++ operand ++ f.immediate

end Form

def opcodeRegister (wide : Bool) (opcode : Nat) (r : Register) (immediate : List UInt8) :
    List UInt8 :=
  (if wide || r ≥ 8 then [rexByte wide 0 0 r] else []) ++ byteOf (opcode + r % 8) :: immediate

namespace Alu

def number : Alu → Nat
  | .add => 0
  | .or => 1
  | .and => 4
  | .sub => 5
  | .xor => 6
  | .cmp => 7

end Alu

namespace Shift

def number : Shift → Nat
  | .shl => 4
  | .shr => 5
  | .sar => 7

end Shift

namespace Condition

def number : Condition → Nat
  | .below => 2
  | .aboveOrEqual => 3
  | .equal => 4
  | .notEqual => 5
  | .belowOrEqual => 6
  | .above => 7
  | .parity => 10
  | .less => 12
  | .greaterOrEqual => 13
  | .lessOrEqual => 14
  | .greater => 15

end Condition

namespace Precision

def lead : Precision → List UInt8
  | .single => [0xF3]
  | .double => [0xF2]

end Precision

namespace Sse

def lead : Sse → List UInt8
  | .copy => []
  | .load p | .add p | .sub p | .mul p | .div p | .sqrt p | .convert p => p.lead
  | .compare .single => []
  | .compare .double => [0x66]

def opcode : Sse → UInt8
  | .copy => 0x28
  | .load _ => 0x10
  | .add _ => 0x58
  | .sub _ => 0x5C
  | .mul _ => 0x59
  | .div _ => 0x5E
  | .sqrt _ => 0x51
  | .convert _ => 0x5A
  | .compare _ => 0x2E

end Sse

def wideOf (w : Width) : Bool := w == .qword

def leadOf (w : Width) : List UInt8 := if w == .word then [0x66] else []

def expect (r : Reg) (cls : RegClass) : Except Error Unit :=
  if r.cls = cls then .ok () else .error (.emission .operandClass)

def expectOperand (o : RegMem) (cls : RegClass) : Except Error Unit :=
  match o with
  | .reg r => expect r cls
  | .mem m => if m.index = some rsp then .error (.emission .stackIndex) else .ok ()

def regRm (w : Width) (opcode : List UInt8) (dst : Reg) (src : RegMem) :
    Except Error (List UInt8) := do
  expect dst (.general w)
  expectOperand src (.general w)
  .ok ({ wide := wideOf w, opcode, field := dst.number, operand := src } : Form).bytes

def extended (w : Width) (opcode : List UInt8) (number : Nat) (dst : RegMem)
    (immediate : List UInt8) : Except Error (List UInt8) := do
  expectOperand dst (.general w)
  .ok ({ lead := leadOf w, wide := wideOf w, opcode, field := number, operand := dst,
         immediate } : Form).bytes

def floatForm (lead : List UInt8) (wide : Bool) (opcode : UInt8) (dst : Reg) (dstClass : RegClass)
    (src : RegMem) (srcClass : RegClass) : Except Error (List UInt8) := do
  expect dst dstClass
  expectOperand src srcClass
  .ok ({ lead, wide, opcode := [0x0F, opcode], field := dst.number, operand := src } : Form).bytes

/-- Bytes of an instruction that refers to no label. Those that do are left to the layout. -/
def Instruction.encode : Instruction → Except Error (List UInt8)
  | .plain .ret => .ok [0xC3]
  | .plain .int3 => .ok [0xCC]
  | .plain .nop => .ok [0x90]
  | .plain .mfence => .ok [0x0F, 0xAE, 0xF0]
  | .plain .cdq => .ok [0x99]
  | .plain .cqo => .ok [0x48, 0x99]
  | .push r => .ok (opcodeRegister false 0x50 r [])
  | .pop r => .ok (opcodeRegister false 0x58 r [])
  | .moveImm64 r v => .ok (opcodeRegister true 0xB8 r (littleEndian 8 v))
  | .moveImm32 r v => .ok (opcodeRegister false 0xB8 r (littleEndian 4 v))
  | .moveImm w dst v =>
    extended w [if w == .byte then 0xC6 else 0xC7] 0 dst (littleEndian (min w.bytes 4) v)
  | .move w dst src => regRm w [0x8B] dst src
  | .store w dst src => do
    expect src (.general w)
    expectOperand (.mem dst) (.general w)
    .ok ({ lead := leadOf w, wide := wideOf w, opcode := [if w == .byte then 0x88 else 0x89],
           field := src.number, operand := .mem dst, lowByte := needsRex src } : Form).bytes
  | .signExtend narrow w dst src => do
    expect dst (.general w)
    expectOperand src (.general narrow)
    let opcode : List UInt8 := match narrow with
      | .byte => [0x0F, 0xBE]
      | .word => [0x0F, 0xBF]
      | _ => [0x63]
    .ok ({ wide := wideOf w, opcode, field := dst.number, operand := src } : Form).bytes
  | .zeroExtend narrow dst src => do
    expect dst (.general .dword)
    expectOperand src (.general narrow)
    let opcode : UInt8 := if narrow == .byte then 0xB6 else 0xB7
    .ok ({ opcode := [0x0F, opcode], field := dst.number, operand := src } : Form).bytes
  | .alu op w dst src => regRm w [byteOf (8 * op.number + 3)] dst src
  | .aluImm op w dst v => extended w [0x81] op.number dst (littleEndian 4 v)
  | .compareMemory w dst src => regRm w [0x39] src (.mem dst)
  | .multiply w dst src => regRm w [0x0F, 0xAF] dst src
  | .multiplyImm w dst src v => do
    expect dst (.general w)
    expect src (.general w)
    .ok ({ wide := wideOf w, opcode := [0x69], field := dst.number, operand := .reg src,
           immediate := littleEndian 4 v } : Form).bytes
  | .divide w r => extended w [0xF7] 7 (.reg r) []
  | .negate w r => extended w [0xF7] 3 (.reg r) []
  | .moveIfSign sign w dst src => regRm w [0x0F, if sign then 0x48 else 0x49] dst (.reg src)
  | .shiftCount op w dst => extended w [0xD3] op.number (.reg dst) []
  | .shiftImm op w dst count => extended w [0xC1] op.number (.reg dst) (littleEndian 1 count)
  | .flipBit w dst index => extended w [0x0F, 0xBA] 7 (.reg dst) [byteOf index]
  | .clearBit w dst index => extended w [0x0F, 0xBA] 6 (.reg dst) [byteOf index]
  | .callVia t => do
    expectOperand t (.general .qword)
    .ok ({ opcode := [0xFF], field := 2, operand := t } : Form).bytes
  | .jumpVia t => do
    expectOperand t (.general .qword)
    .ok ({ opcode := [0xFF], field := 4, operand := t } : Form).bytes
  | .sse op dst src => floatForm op.lead false op.opcode dst .float src .float
  | .storeFloat p dst src => floatForm p.lead false 0x11 src .float (.mem dst) .float
  | .toFloat w dst src =>
    floatForm [0x66] (wideOf w) 0x6E dst .float (.reg src) (.general w)
  | .ofFloat w dst src =>
    floatForm [0x66] (wideOf w) 0x7E src .float (.reg dst) (.general w)
  | .intToFloat p w dst src => floatForm p.lead (wideOf w) 0x2A dst .float src (.general w)
  | .floatToInt p w dst src => floatForm p.lead (wideOf w) 0x2C dst (.general w) src .float
  | .lea _ _ | .call _ | .jump _ | .jumpIf _ _ => .ok []

end Lowering.X64
