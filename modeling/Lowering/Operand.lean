import Lowering.Mask
/-!
Fully placed operands, as an emitter receives them.
-/
namespace Lowering

inductive CodeTarget where
  | ip (n : Nat)
  | promise (p : PromiseId)
  deriving DecidableEq, Repr

namespace CodeTarget

def text : CodeTarget → String
  | .ip n => handleText "Ip" n
  | .promise p => "Promise(" ++ p.text ++ ")"

def le : CodeTarget → CodeTarget → Bool
  | .ip n, .ip m => n ≤ m
  | .ip _, .promise _ => true
  | .promise _, .ip _ => false
  | .promise p, .promise q => p.index ≤ q.index

end CodeTarget

inductive Constant where
  | immediate (value : Int)
  | label (target : CodeTarget)
  | deferred (promise : PromiseId)
  deriving DecidableEq, Repr

namespace Constant

def text : Constant → String
  | .immediate v => "Immediate(" ++ toString v ++ ")"
  | .label t => "Label(" ++ t.text ++ ")"
  | .deferred p => "Deferred(" ++ p.text ++ ")"

end Constant

structure MemoryRef where
  base : Register
  offset : Int
  index : Option Register := none
  scale : Nat := 1
  deriving DecidableEq, Repr

namespace MemoryRef

def text (m : MemoryRef) : String :=
  "Memory \x7b base: " ++ toString m.base ++ ", offset: " ++ toString m.offset
    ++ ", index: " ++ optionText toString m.index ++ ", scale: " ++ toString m.scale ++ " \x7d"

def registers (m : MemoryRef) : List Register := m.base :: m.index.toList

end MemoryRef

inductive Operand where
  | register (r : Register)
  | memory (m : MemoryRef)
  | constant (c : Constant)
  | address (c : Constant)
  deriving DecidableEq, Repr

namespace Operand

def kind : Operand → OperandKind
  | .register _ => .register
  | .memory _ => .memory
  | .constant _ => .constant
  | .address _ => .address

def immediate (v : Int) : Operand := .constant (.immediate v)

def label (t : CodeTarget) : Operand := .constant (.label t)

def deferred? : Operand → Option PromiseId
  | .constant (.deferred p) => some p
  | .address (.deferred p) => some p
  | _ => none

def text : Operand → String
  | .register r => handleText "Register" r
  | .memory m => m.text
  | .constant c => "Constant(" ++ c.text ++ ")"
  | .address c => "Address(" ++ c.text ++ ")"

end Operand

end Lowering
