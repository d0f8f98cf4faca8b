import Lowering.X64.Register
import Lowering.Operand
/-!
The x86-64 instructions that the emitter uses.

A register operand carries the width it is named with. An instruction whose registers do not
have the width of the instruction can be written down but not encoded.
-/
namespace Lowering.X64

inductive Width where
  | byte
  | word
  | dword
  | qword
  deriving DecidableEq, Repr

namespace Width

def bytes : Width → Nat
  | .byte => 1
  | .word => 2
  | .dword => 4
  | .qword => 8

def ofSize : Nat → Width
  | 1 => .byte
  | 2 => .word
  | 4 => .dword
  | _ => .qword

def ofArithmetic (size : Nat) : Width := if size == 8 then .qword else .dword

end Width

inductive RegClass where
  | general (w : Width)
  | float
  deriving DecidableEq, Repr

structure Reg where
  number : Nat
  cls : RegClass
  deriving DecidableEq, Repr

def Reg.whole (r : Register) : Reg := ⟨r, .general .qword⟩

inductive RegMem where
  | reg (r : Reg)
  | mem (m : MemoryRef)
  deriving DecidableEq, Repr

inductive Alu where
  | add
  | or
  | and
  | sub
  | xor
  | cmp
  deriving DecidableEq, Repr

inductive Shift where
  | shl
  | shr
  | sar
  deriving DecidableEq, Repr

inductive Condition where
  | equal
  | notEqual
  | less
  | greater
  | lessOrEqual
  | greaterOrEqual
  | below
  | above
  | belowOrEqual
  | aboveOrEqual
  | parity
  deriving DecidableEq, Repr

inductive Precision where
  | single
  | double
  deriving DecidableEq, Repr

def Precision.ofSize (size : Nat) : Precision := if size == 4 then .single else .double

inductive Sse where
  | copy
  | load (p : Precision)
  | add (p : Precision)
  | sub (p : Precision)
  | mul (p : Precision)
  | div (p : Precision)
  | sqrt (p : Precision)
  | convert (p : Precision)
  | compare (p : Precision)
  deriving DecidableEq, Repr

inductive Plain where
  | ret
  | int3
  | nop
  | mfence
  | cdq
  | cqo
  deriving DecidableEq, Repr

abbrev Label := Nat

inductive Instruction where
  | plain (op : Plain)
  | push (r : Register)
  | pop (r : Register)
  | moveImm64 (r : Register) (value : Int)
  | moveImm32 (r : Register) (value : Int)
  | moveImm (w : Width) (dst : RegMem) (value : Int)
  | move (w : Width) (dst : Reg) (src : RegMem)
  | store (w : Width) (dst : MemoryRef) (src : Reg)
  | signExtend (narrow w : Width) (dst : Reg) (src : RegMem)
  | zeroExtend (narrow : Width) (dst : Reg) (src : RegMem)
  | alu (op : Alu) (w : Width) (dst : Reg) (src : RegMem)
  | aluImm (op : Alu) (w : Width) (dst : RegMem) (value : Int)
  | compareMemory (w : Width) (dst : MemoryRef) (src : Reg)
  | multiply (w : Width) (dst : Reg) (src : RegMem)
  | multiplyImm (w : Width) (dst src : Reg) (value : Int)
  | divide (w : Width) (divisor : Reg)
  | negate (w : Width) (dst : Reg)
  | moveIfSign (sign : Bool) (w : Width) (dst src : Reg)
  | shiftCount (op : Shift) (w : Width) (dst : Reg)
  | shiftImm (op : Shift) (w : Width) (dst : Reg) (count : Int)
  | flipBit (w : Width) (dst : Reg) (index : Nat)
  | clearBit (w : Width) (dst : Reg) (index : Nat)
  | callVia (target : RegMem)
  | jumpVia (target : RegMem)
  | lea (r : Register) (label : Label)
  | call (label : Label)
  | jump (label : Label)
  | jumpIf (c : Condition) (label : Label)
  | sse (op : Sse) (dst : Reg) (src : RegMem)
  | storeFloat (p : Precision) (dst : MemoryRef) (src : Reg)
  | toFloat (w : Width) (dst src : Reg)
  | ofFloat (w : Width) (dst src : Reg)
  | intToFloat (p : Precision) (w : Width) (dst : Reg) (src : RegMem)
  | floatToInt (p : Precision) (w : Width) (dst : Reg) (src : RegMem)
  deriving DecidableEq, Repr

instance : Inhabited Instruction := ⟨.plain .nop⟩

def Instruction.label? : Instruction → Option Label
  | .lea _ l | .call l | .jump l | .jumpIf _ l => some l
  | _ => none

end Lowering.X64
