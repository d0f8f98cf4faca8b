import Lowering.Word
/-!
The operations an emitter understands, grouped by the number of operands they take.

A ternary operation computes `c = b op a`, or, for the conditional jumps, goes to `c` when
`b op a` holds.
-/
namespace Lowering

inductive Nullary where
  | ret
  | loadBarrier
  | storeStoreBarrier
  | storeLoadBarrier
  | trap
  deriving DecidableEq, Repr

inductive Unary where
  | call
  | longCall
  | alignedCall
  | alignedLongCall
  | jump
  | longJump
  | alignedJump
  | alignedLongJump
  deriving DecidableEq, Repr

inductive Binary where
  | move
  | moveLow
  | moveHigh
  | moveZ
  | negate
  | floatNegate
  | float2Float
  | float2Int
  | int2Float
  | floatSquareRoot
  | floatAbsolute
  | absolute
  deriving DecidableEq, Repr

/-- Operations that combine two operands into a third, or compare them and jump. -/
inductive Ternary where
  | add
  | subtract
  | multiply
  | divide
  | remainder
  | shiftLeft
  | shiftRight
  | unsignedShiftRight
  | and
  | or
  | xor
  | floatAdd
  | floatSubtract
  | floatMultiply
  | floatDivide
  | floatRemainder
  | floatMax
  | floatMin
  | jumpIfLess
  | jumpIfGreater
  | jumpIfLessOrEqual
  | jumpIfGreaterOrEqual
  | jumpIfEqual
  | jumpIfNotEqual
  | jumpIfFloatEqual
  | jumpIfFloatNotEqual
  | jumpIfFloatLess
  | jumpIfFloatGreater
  | jumpIfFloatLessOrEqual
  | jumpIfFloatGreaterOrEqual
  | jumpIfFloatLessOrUnordered
  | jumpIfFloatGreaterOrUnordered
  | jumpIfFloatLessOrEqualOrUnordered
  | jumpIfFloatGreaterOrEqualOrUnordered
  deriving DecidableEq, Repr

namespace Nullary

def all : List Nullary :=
  [.ret, .loadBarrier, .storeStoreBarrier, .storeLoadBarrier, .trap]

def name : Nullary → String
  | .ret => "Return"
  | .loadBarrier => "LoadBarrier"
  | .storeStoreBarrier => "StoreStoreBarrier"
  | .storeLoadBarrier => "StoreLoadBarrier"
  | .trap => "Trap"

def ofName? (s : String) : Option Nullary :=
  all.find? (·.name == s)

end Nullary

namespace Unary

def all : List Unary :=
  [.call, .longCall, .alignedCall, .alignedLongCall,
    .jump, .longJump, .alignedJump, .alignedLongJump]

def name : Unary → String
  | .call => "Call"
  | .longCall => "LongCall"
  | .alignedCall => "AlignedCall"
  | .alignedLongCall => "AlignedLongCall"
  | .jump => "Jump"
  | .longJump => "LongJump"
  | .alignedJump => "AlignedJump"
  | .alignedLongJump => "AlignedLongJump"

def ofName? (s : String) : Option Unary :=
  all.find? (·.name == s)

def isCall : Unary → Bool
  | .call | .longCall | .alignedCall | .alignedLongCall => true
  | .jump | .longJump | .alignedJump | .alignedLongJump => false

end Unary

namespace Binary

def all : List Binary :=
  [.move, .moveLow, .moveHigh, .moveZ, .negate, .floatNegate, .float2Float, .float2Int,
    .int2Float, .floatSquareRoot, .floatAbsolute, .absolute]

def name : Binary → String
  | .move => "Move"
  | .moveLow => "MoveLow"
  | .moveHigh => "MoveHigh"
  | .moveZ => "MoveZ"
  | .negate => "Negate"
  | .floatNegate => "FloatNegate"
  | .float2Float => "Float2Float"
  | .float2Int => "Float2Int"
  | .int2Float => "Int2Float"
  | .floatSquareRoot => "FloatSquareRoot"
  | .floatAbsolute => "FloatAbsolute"
  | .absolute => "Absolute"

def ofName? (s : String) : Option Binary :=
  all.find? (·.name == s)

end Binary

namespace Ternary

def all : List Ternary :=
  [.add, .subtract, .multiply, .divide, .remainder, .shiftLeft, .shiftRight,
    .unsignedShiftRight, .and, .or, .xor, .floatAdd, .floatSubtract, .floatMultiply,
    .floatDivide, .floatRemainder, .floatMax, .floatMin, .jumpIfLess, .jumpIfGreater,
    .jumpIfLessOrEqual, .jumpIfGreaterOrEqual, .jumpIfEqual, .jumpIfNotEqual,
    .jumpIfFloatEqual, .jumpIfFloatNotEqual, .jumpIfFloatLess, .jumpIfFloatGreater,
    .jumpIfFloatLessOrEqual, .jumpIfFloatGreaterOrEqual, .jumpIfFloatLessOrUnordered,
    .jumpIfFloatGreaterOrUnordered, .jumpIfFloatLessOrEqualOrUnordered,
    .jumpIfFloatGreaterOrEqualOrUnordered]

def name : Ternary → String
  | .add => "Add"
  | .subtract => "Subtract"
  | .multiply => "Multiply"
  | .divide => "Divide"
  | .remainder => "Remainder"
  | .shiftLeft => "ShiftLeft"
  | .shiftRight => "ShiftRight"
  | .unsignedShiftRight => "UnsignedShiftRight"
  | .and => "And"
  | .or => "Or"
  | .xor => "Xor"
  | .floatAdd => "FloatAdd"
  | .floatSubtract => "FloatSubtract"
  | .floatMultiply => "FloatMultiply"
  | .floatDivide => "FloatDivide"
  | .floatRemainder => "FloatRemainder"
  | .floatMax => "FloatMax"
  | .floatMin => "FloatMin"
  | .jumpIfLess => "JumpIfLess"
  | .jumpIfGreater => "JumpIfGreater"
  | .jumpIfLessOrEqual => "JumpIfLessOrEqual"
  | .jumpIfGreaterOrEqual => "JumpIfGreaterOrEqual"
  | .jumpIfEqual => "JumpIfEqual"
  | .jumpIfNotEqual => "JumpIfNotEqual"
  | .jumpIfFloatEqual => "JumpIfFloatEqual"
  | .jumpIfFloatNotEqual => "JumpIfFloatNotEqual"
  | .jumpIfFloatLess => "JumpIfFloatLess"
  | .jumpIfFloatGreater => "JumpIfFloatGreater"
  | .jumpIfFloatLessOrEqual => "JumpIfFloatLessOrEqual"
  | .jumpIfFloatGreaterOrEqual => "JumpIfFloatGreaterOrEqual"
  | .jumpIfFloatLessOrUnordered => "JumpIfFloatLessOrUnordered"
  | .jumpIfFloatGreaterOrUnordered => "JumpIfFloatGreaterOrUnordered"
  | .jumpIfFloatLessOrEqualOrUnordered => "JumpIfFloatLessOrEqualOrUnordered"
  | .jumpIfFloatGreaterOrEqualOrUnordered => "JumpIfFloatGreaterOrEqualOrUnordered"

def ofName? (s : String) : Option Ternary :=
  all.find? (·.name == s)

def isFloatBranch : Ternary → Bool
  | .jumpIfFloatEqual | .jumpIfFloatNotEqual | .jumpIfFloatLess | .jumpIfFloatGreater
  | .jumpIfFloatLessOrEqual | .jumpIfFloatGreaterOrEqual | .jumpIfFloatLessOrUnordered
  | .jumpIfFloatGreaterOrUnordered | .jumpIfFloatLessOrEqualOrUnordered
  | .jumpIfFloatGreaterOrEqualOrUnordered => true
  | _ => false

def isBranch : Ternary → Bool
  | .jumpIfLess | .jumpIfGreater | .jumpIfLessOrEqual | .jumpIfGreaterOrEqual
  | .jumpIfEqual | .jumpIfNotEqual => true
  | op => op.isFloatBranch

/-- The integer jump to take on the result of a helper that has compared two floats and
answered a negative number, zero or a positive number. -/
def integerForm? : Ternary → Option Ternary
  | .jumpIfFloatEqual => some .jumpIfEqual
  | .jumpIfFloatNotEqual => some .jumpIfNotEqual
  | .jumpIfFloatLess | .jumpIfFloatLessOrUnordered => some .jumpIfLess
  | .jumpIfFloatGreater | .jumpIfFloatGreaterOrUnordered => some .jumpIfGreater
  | .jumpIfFloatLessOrEqual | .jumpIfFloatLessOrEqualOrUnordered => some .jumpIfLessOrEqual
  | .jumpIfFloatGreaterOrEqual | .jumpIfFloatGreaterOrEqualOrUnordered =>
    some .jumpIfGreaterOrEqual
  | _ => none

/-- Whether an integer jump on two known operands is taken. Operands of other sizes than a word
are compared by their low 32 bits. -/
def taken? (op : Ternary) (size : Nat) (first second : Int) : Option Bool :=
  let a := if size == 8 then second else signed 32 second
  let b := if size == 8 then first else signed 32 first
  match op with
  | .jumpIfEqual => some (a == b)
  | .jumpIfNotEqual => some (a != b)
  | .jumpIfLess => some (decide (a < b))
  | .jumpIfGreater => some (decide (a > b))
  | .jumpIfLessOrEqual => some (decide (a ≤ b))
  | .jumpIfGreaterOrEqual => some (decide (a ≥ b))
  | _ => none

end Ternary

inductive Operation where
  | nullary (op : Nullary)
  | unary (op : Unary)
  | binary (op : Binary)
  | ternary (op : Ternary)
  deriving DecidableEq, Repr

namespace Operation

def name : Operation → String
  | .nullary op => op.name
  | .unary op => op.name
  | .binary op => op.name
  | .ternary op => op.name

def ofName? (s : String) : Option Operation :=
  (Nullary.ofName? s).map .nullary
    <|> (Unary.ofName? s).map .unary
    <|> (Binary.ofName? s).map .binary
    <|> (Ternary.ofName? s).map .ternary

end Operation

end Lowering
