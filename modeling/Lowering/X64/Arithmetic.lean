import Lowering.X64.Move
/-!
Integer and float arithmetic.

The machine's instructions have two operands. A result that is not to go where the second
operand is gets a copy of it first.
-/
namespace Lowering.X64

inductive IntegerSource where
  | place (p : RegMem)
  | immediate (v : Int)
  deriving DecidableEq, Repr

open Asm in
/-- The first operand of an integer instruction, and the temporary that was borrowed for it. A constant without an
immediate form is put into a temporary, which is given back at once if that fails. -/
def integerSource {σ : Type} (lender : ScratchSource σ) (size : Nat) (a : Operand) :
    Emit σ (IntegerSource × Option Register) :=
  match a with
  | .register r => (do return (.place (.reg (← arithmetic r size)), none) : Asm (IntegerSource × Option Register))
  | .memory m => (do return (.place (.mem (← memory m)), none) : Asm (IntegerSource × Option Register))
  | .constant c =>
    match immediate? size c with
    | some v => return (.immediate v, none)
    | none => do
      let t ← borrow lender
      try Asm.lift (loadConstant t c) catch e => do
        giveBack lender (some t)
        throw e
      return (.place (.reg (← arithmetic t size)), some t)
  | .address _ => Asm.lift (invalid .addressArithmetic)

/-- Runs `act` with an operand in a form that integer instructions take. The temporary that the operand is in is given
back afterwards. -/
def withIntegerSource {σ α : Type} (lender : ScratchSource σ) (size : Nat) (a : Operand)
    (act : IntegerSource → Asm α) : Emit σ α := do
  let (src, t) ← integerSource lender size a
  givingBack lender t (act src)

namespace Asm

def alu (op : Alu) (size : Nat) (dst : Reg) : IntegerSource → Asm Unit
  | .place p => emit (.alu op (.ofArithmetic size) dst p)
  | .immediate v => emit (.aluImm op (.ofArithmetic size) (.reg dst) v)

def floatSource : Operand → Asm RegMem
  | .register r => do return .reg (← float r)
  | .memory m => do return .mem (← memory m)
  | other => invalid (.notFloatOperand other)

def divide (op : Ternary) (size : Nat) (a : Operand) (b c : Register) : Asm Unit := do
  if b != rax || c != rax then invalid (.dividend op b c)
  match a with
  | .register divisor =>
    let w := Width.ofArithmetic size
    emit (.plain (if w == .qword then .cqo else .cdq))
    emit (.divide w (← general divisor w))
    if op == .remainder then copyRegister (max size 4) rdx rax
  | _ => invalid (.divisor op)

/-- Shifts by the count register or by a constant, of which only the bits that count are kept. -/
def shift (op : Shift) (size : Nat) (a : Operand) (b c : Register) : Asm Unit := do
  copyRegister (max size 4) b c
  let w := Width.ofArithmetic size
  let dst ← arithmetic c size
  match a with
  | .register _ => emit (.shiftCount op w dst)
  | .constant (.immediate v) => emit (.shiftImm op w dst (v % (8 * w.bytes)))
  | other => invalid (.shiftCount other)

def multiply (size : Nat) (b c : Register) : IntegerSource → Asm Unit
  | .immediate v => do
    let dst ← arithmetic c size
    emit (.multiplyImm (.ofArithmetic size) dst (← arithmetic b size) v)
  | .place p => do
    copyRegister (max size 4) b c
    emit (.multiply (.ofArithmetic size) (← arithmetic c size) p)

def floatCombine (op : Sse) (size : Nat) (a : Operand) (b c : Register) : Asm Unit := do
  let src ← floatSource a
  copyRegister size b c
  emit (.sse op (← float c) src)

def floatToFloat (aSize : Nat) (a : Operand) (bSize : Nat) (b : Register) : Asm Unit := do
  let p := Precision.ofSize aSize
  let op := if (aSize == 4 && bSize == 8) || (aSize == 8 && bSize == 4) then Sse.convert p
    else .load p
  let src ← floatSource a
  emit (.sse op (← float b) src)

def squareRoot (aSize : Nat) (a : Operand) (b : Register) : Asm Unit := do
  let src ← floatSource a
  emit (.sse (.sqrt (.ofSize aSize)) (← float b) src)

def floatToInt (aSize : Nat) (a : Operand) (bSize : Nat) (b : Register) : Asm Unit := do
  let src ← floatSource a
  emit (.floatToInt (.ofSize aSize) (.ofArithmetic bSize) (← arithmetic b bSize) src)

def intToFloat (aSize : Nat) (a : Operand) (bSize : Nat) (b : Register) : Asm Unit := do
  let w := Width.ofArithmetic aSize
  let src ← match a with
    | .register r => do pure (RegMem.reg (← general r w))
    | .memory m => do pure (RegMem.mem (← memory m))
    | other => invalid (.floatConversion other)
  emit (.intToFloat (.ofSize bSize) w (← float b) src)

def highWord (a : Operand) (b : Register) : Asm Unit :=
  match a with
  | .register r => do
    copyRegister 8 r b
    emit (.shiftImm .shr .qword (← whole b) 32)
  | .memory m => do load 4 (← memory { m with offset := m.offset + 4 }) 4 b
  | other => invalid (.highWord other)

def negate (a : Operand) (bSize : Nat) (b : Register) : Asm Unit :=
  match a with
  | .register r => do
    copyRegister (max bSize 4) r b
    emit (.negate (.ofArithmetic bSize) (← arithmetic b bSize))
  | other => invalid (.negation other)

end Asm

open Asm in
/-- The absolute value: the negation replaces the operand, or the other way round, as the sign of
the negation says. -/
def absolute {σ : Type} (lender : ScratchSource σ) (a : Operand) (bSize : Nat) (b : Register) :
    Emit σ Unit :=
  let w := Width.ofArithmetic bSize
  match a with
  | .register r =>
    if r != b then (do
      copyRegister w.bytes r b
      emit (.negate w (← general b w))
      let dst ← general b w
      emit (.moveIfSign true w dst (← general r w)) : Asm Unit)
    else withTemporary lender fun t => do
      copyRegister w.bytes b t
      emit (.negate w (← general t w))
      let dst ← general b w
      emit (.moveIfSign false w dst (← general t w))
  | other => Asm.lift (invalid (.absoluteValue other))

open Asm in
def changeSign {σ : Type} (lender : ScratchSource σ) (change : Width → Reg → Nat → Instruction)
    (size : Nat) (a : Operand) (b : Register) : Emit σ Unit :=
  let w := Width.ofArithmetic size
  withTemporary lender fun t => do
    alone fun none => moveIntoRegister none size a size t
    emit (change w (← general t w) (8 * w.bytes - 1))
    copyRegister w.bytes t b

open Asm in
def convert {σ : Type} (lender : ScratchSource σ) (op : Binary) (aSize : Nat) (a : Operand)
    (bSize : Nat) (b : Operand) : Emit σ Unit :=
  match op, b with
  | .move, b | .moveLow, b => moveOperand lender aSize a bSize b
  | .moveZ, .register r => zeroExtend aSize a r
  | .moveHigh, .register r => highWord a r
  | .negate, .register r => negate a bSize r
  | .absolute, .register r => absolute lender a bSize r
  | .floatNegate, .register r => changeSign lender .flipBit aSize a r
  | .floatAbsolute, .register r => changeSign lender .clearBit aSize a r
  | .float2Float, .register r => floatToFloat aSize a bSize r
  | .floatSquareRoot, .register r => squareRoot aSize a r
  | .float2Int, .register r => floatToInt aSize a bSize r
  | .int2Float, .register r => intToFloat aSize a bSize r
  | op, b => Asm.lift (invalid (.registerDestination op b))

open Asm in
def combine {σ : Type} (lender : ScratchSource σ) (op : Ternary) (size : Nat) (a : Operand)
    (b c : Register) : Emit σ Unit :=
  let integer (op : Alu) : Emit σ Unit := withIntegerSource lender size a fun src => do
    copyRegister (max size 4) b c
    alu op size (← arithmetic c size) src
  let p := Precision.ofSize size
  match op with
  | .divide | .remainder => divide op size a b c
  | .shiftLeft => shift .shl size a b c
  | .shiftRight => shift .sar size a b c
  | .unsignedShiftRight => shift .shr size a b c
  | .multiply => withIntegerSource lender size a (multiply size b c)
  | .add => integer .add
  | .subtract => integer .sub
  | .and => integer .and
  | .or => integer .or
  | .xor => integer .xor
  | .floatAdd => floatCombine (.add p) size a b c
  | .floatSubtract => floatCombine (.sub p) size a b c
  | .floatMultiply => floatCombine (.mul p) size a b c
  | .floatDivide => floatCombine (.div p) size a b c
  | other => Asm.lift (invalid (.noInlineForm other))

end Lowering.X64
