import Lowering.X64.Register
import Lowering.Description
import Lowering.Word
/-!
x86-64 under the System V calling convention, as the allocator sees it.

The frame keeps rbp as frame pointer, so its header is the return address and the saved rbp.
Integer operations overwrite their second operand. Division works on rax and destroys rdx,
variable shifts count in rcx, and float remainder, minimum and maximum are helper calls.
-/
namespace Lowering.X64

def stackAlignment : Nat := 2

def frameHeader : Nat := 2

structure Variant where
  helpers : List Operation := []
  reserved : List Register := []
  condensesBinary : Bool := false
  condensesTernary : Bool := true
  footer : Nat := 0

def registersOnly (s : RegisterSet) : OperandMask := ⟨KindSet.ofList [.register], s⟩

def registersOrMemory (s : RegisterSet) : OperandMask := ⟨KindSet.ofList [.register, .memory], s⟩

def registersOrConstant (s : RegisterSet) : OperandMask :=
  ⟨KindSet.ofList [.register, .constant], s⟩

def binarySource : Binary → OperandMask
  | .move => .any
  | .moveLow | .moveHigh | .moveZ | .int2Float => registersOrMemory generalRegisters
  | .negate | .absolute => registersOnly generalRegisters
  | .floatNegate | .floatAbsolute | .float2Float | .float2Int | .floatSquareRoot =>
    registersOrMemory floatRegisters

def binaryResult (op : Binary) (source : OperandMask) : OperandMask :=
  match op with
  | .move =>
    if KindSet.has source.kinds .memory || KindSet.has source.kinds .address then
      registersOnly RegisterSet.all
    else registersOrMemory RegisterSet.all
  | .moveLow | .moveHigh | .moveZ | .negate | .absolute | .float2Int =>
    registersOnly generalRegisters
  | .floatNegate | .floatAbsolute | .float2Float | .int2Float | .floatSquareRoot =>
    registersOnly floatRegisters

/-- Words move from anywhere to a register, and to memory from registers and constants only. -/
def movePlan (destination : OperandMask) : MovePlan :=
  if KindSet.has destination.kinds .memory then
    ⟨registersOrConstant RegisterSet.all, registersOnly generalRegisters⟩
  else ⟨.any, .none⟩

def generalExcept (rs : List Register) : RegisterSet :=
  rs.foldl (fun s r => s &&& ~~~ RegisterSet.single r) generalRegisters

def ternarySources : Ternary → TernaryPlan
  | .add | .subtract | .multiply | .and | .or | .xor =>
    ⟨⟨KindSet.ofList [.register, .memory, .constant], generalRegisters⟩,
      registersOnly generalRegisters, false⟩
  | .divide | .remainder =>
    ⟨registersOnly (generalExcept [rax, rdx]), registersOnly (RegisterSet.single rax), false⟩
  | .shiftLeft | .shiftRight | .unsignedShiftRight =>
    ⟨registersOrConstant (RegisterSet.single rcx), registersOnly (generalExcept [rcx]), false⟩
  | .floatAdd | .floatSubtract | .floatMultiply | .floatDivide =>
    ⟨registersOrMemory floatRegisters, registersOnly floatRegisters, false⟩
  | .floatRemainder | .floatMax | .floatMin => ⟨.any, .any, true⟩
  | .jumpIfLess | .jumpIfGreater | .jumpIfLessOrEqual | .jumpIfGreaterOrEqual
  | .jumpIfEqual | .jumpIfNotEqual =>
    ⟨registersOrConstant generalRegisters, registersOrMemory generalRegisters, false⟩
  | _ => ⟨registersOrMemory floatRegisters, registersOnly floatRegisters, false⟩

def ternaryResult (op : Ternary) : OperandMask :=
  if op.isBranch then ⟨KindSet.ofList [.constant], 0#64⟩
  else
    match op with
    | .divide | .remainder => registersOnly (RegisterSet.single rax)
    | .shiftLeft | .shiftRight | .unsignedShiftRight => registersOnly (generalExcept [rcx])
    | .floatAdd | .floatSubtract | .floatMultiply | .floatDivide | .floatRemainder
    | .floatMax | .floatMin => registersOnly floatRegisters
    | _ => registersOnly generalRegisters

def clobbered : Ternary → RegisterSet
  | .divide | .remainder => RegisterSet.single rdx
  | _ => 0#64

def describe (variant : Variant) : Description where
  general := generalRegisters
  float := floatRegisters
  registerCount := 32
  reserved r := [rsp, rbp, thread, scratch].contains r || variant.reserved.contains r
  stack := rsp
  thread := thread
  result := rax
  argumentRegisters := [rdi, rsi, rdx, rcx, r8, r9]
  argumentFootprint n := max (roundUp n stackAlignment) stackAlignment
  stackAlignment := stackAlignment
  alignFrame n := roundUp (n + frameHeader) stackAlignment - frameHeader
  header := frameHeader
  footer := variant.footer
  returnAddressSize := 1
  returnAddressOffset := 0
  framePointerOffset := -1
  condensesBinary _ := variant.condensesBinary
  condensesTernary _ := variant.condensesTernary
  planUnary op _ :=
    ⟨⟨KindSet.ofList [.register, .memory, .constant], generalRegisters⟩,
      variant.helpers.contains (.unary op)⟩
  planBinary op _ _ := ⟨binarySource op, variant.helpers.contains (.binary op)⟩
  planBinaryResult op _ source _ := binaryResult op source
  planMove _ destination := movePlan destination
  planTernary op _ _ _ :=
    let plan := ternarySources op
    { plan with helper := plan.helper || variant.helpers.contains (.ternary op) }
  planTernaryResult op _ _ _ _ _ := ternaryResult op
  clobbers op _ := clobbered op

end Lowering.X64
