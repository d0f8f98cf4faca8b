import Lowering.Operation
import Lowering.Mask
/-!
What the allocator has to know about a machine: its registers, its calling convention, and for
every operation which operands it takes.
-/
namespace Lowering

/-- Where the one operand of an operation may be. `helper` says that the operation has no inline
form and must be a call to a runtime helper. -/
structure UnaryPlan where
  mask : OperandMask
  helper : Bool
  deriving DecidableEq, Repr

structure BinaryPlan where
  a : OperandMask
  helper : Bool
  deriving DecidableEq, Repr

structure TernaryPlan where
  a : OperandMask
  b : OperandMask
  helper : Bool
  deriving DecidableEq, Repr

structure MovePlan where
  source : OperandMask
  temporary : OperandMask
  deriving DecidableEq, Repr

structure Description where
  general : RegisterSet
  float : RegisterSet
  registerCount : Nat
  reserved : Register → Bool
  stack : Register
  thread : Register
  result : Register
  argumentRegisters : List Register
  argumentFootprint : Nat → Nat
  stackAlignment : Nat
  alignFrame : Nat → Nat
  header : Nat
  footer : Nat
  returnAddressSize : Nat
  returnAddressOffset : Int
  framePointerOffset : Int
  condensesBinary : Binary → Bool
  condensesTernary : Ternary → Bool
  planUnary : Unary → Nat → UnaryPlan
  planBinary : Binary → Nat → Nat → BinaryPlan
  planBinaryResult : Binary → Nat → OperandMask → Nat → OperandMask
  planMove : Nat → OperandMask → MovePlan
  planTernary : Ternary → Nat → Nat → Nat → TernaryPlan
  planTernaryResult : Ternary → Nat → OperandMask → Nat → OperandMask → Nat → OperandMask
  clobbers : Ternary → Nat → RegisterSet

namespace Description

def argumentRegister (d : Description) (index : Nat) : Register :=
  d.argumentRegisters.getD (index % d.argumentRegisters.length) 0

end Description

end Lowering
