import Lowering.Operand
import Lowering.Word
/-!
Sites: the places a value can be in.

A site is a constant, an absolute address, a register (perhaps still to be chosen from a set) or
a memory word. Memory words addressed from the stack pointer alone are frame slots.
-/
namespace Lowering

structure FrameGeometry where
  stack : Register
  footer : Nat
  deriving DecidableEq, Repr

namespace FrameGeometry

def offset (g : FrameGeometry) (index : Nat) : Int :=
  signed 32 ((index + g.footer) * wordSize)

def index (g : FrameGeometry) (offset : Int) : Nat :=
  unsigned 32 offset / wordSize - g.footer

end FrameGeometry

inductive Site where
  | constant (p : PromiseId)
  | address (p : PromiseId)
  | register (mask : RegisterSet) (number : Option Register)
  | memory (ref : MemoryRef) (acquired : Bool)
  deriving DecidableEq, Repr

namespace Site

instance : Inhabited Site := ⟨.constant ⟨0⟩⟩

def ofRegister (r : Register) : Site := .register (RegisterSet.single r) (some r)

def ofRegisters (mask : RegisterSet) : Site := .register mask none

def ofMemory (m : MemoryRef) : Site := .memory m false

def frame (g : FrameGeometry) (index : Nat) : Site :=
  ofMemory { base := g.stack, offset := g.offset index }

def kind : Site → OperandKind
  | .constant _ => .constant
  | .address _ => .address
  | .register _ _ => .register
  | .memory _ _ => .memory

def registers : Site → RegisterSet
  | .register _ (some n) => RegisterSet.single n
  | _ => 0#64

def number? : Site → Option Register
  | .register _ number => number
  | _ => none

def operandMask (s : Site) : OperandMask := ⟨s.kind.bit, s.registers⟩

def slot? (g : FrameGeometry) : Site → Option Nat
  | .memory m _ =>
    if m.base == g.stack && m.index.isNone then some (g.index m.offset) else none
  | _ => none

def isVolatile (g : FrameGeometry) : Site → Bool
  | .memory m _ => m.base != g.stack
  | _ => false

end Site

structure CopyCosts where
  register : Nat
  address : Nat
  constant : Nat
  memory : Nat
  penalty : Nat

def copyCosts : CopyCosts :=
  { register := 1, address := 2, constant := 3, memory := 4, penalty := 10 }

namespace Site

/-- Whether copying to `other` is no work, since both are one location. -/
def coincides : Site → Site → Bool
  | .constant p, .constant q => p == q
  | .address p, .address q => p == q
  | .register _ (some n), .register mask _ => RegisterSet.has mask n
  | .memory m _, .memory m' _ => m == m'
  | _, _ => false

def sourceCost : Site → Nat
  | .constant _ => copyCosts.constant
  | .address _ => copyCosts.address
  | .register _ _ => copyCosts.register
  | .memory _ _ => copyCosts.memory

def copyCost (s : Site) (other : Option Site) : Nat :=
  match other with
  | some o => if s.coincides o then 0 else s.sourceCost
  | none => s.sourceCost

/-- Whether a demand with mask `m` is met here. A register site counts once it is chosen. -/
def satisfies (g : FrameGeometry) (s : Site) (m : SiteMask) : Bool :=
  match s with
  | .constant _ => m.accepts .constant
  | .address _ => m.accepts .address
  | .register _ (some n) => m.accepts .register && RegisterSet.has m.registers n
  | .register _ none => false
  | .memory r _ =>
    m.accepts .memory &&
      match m.slots with
      | .any => true
      | .none => false
      | .only i => r.base == g.stack && r.offset == g.offset i

def isOnlyMatch (g : FrameGeometry) (s : Site) (m : SiteMask) : Bool :=
  match s with
  | .constant _ => true
  | .address _ => false
  | .register _ (some n) => m.registers == RegisterSet.single n
  | .register _ none => false
  | .memory r _ => r.base == g.stack && m.slots != .any

def mask (g : FrameGeometry) (s : Site) : SiteMask :=
  match s with
  | .constant _ => ⟨OperandKind.constant.bit, 0#64, .none⟩
  | .address _ => ⟨OperandKind.address.bit, 0#64, .none⟩
  | .register _ (some n) => ⟨OperandKind.register.bit, RegisterSet.single n, .none⟩
  | .register mask none => ⟨OperandKind.register.bit, mask, .none⟩
  | .memory _ _ =>
    match s.slot? g with
    | some i => ⟨OperandKind.memory.bit, 0#64, .only i⟩
    | none => ⟨OperandKind.memory.bit, 0#64, .any⟩

def copy : Site → Site
  | .register _ (some n) => ofRegisters (RegisterSet.single n)
  | .memory m _ => ofMemory m
  | s => s

end Site

end Lowering
