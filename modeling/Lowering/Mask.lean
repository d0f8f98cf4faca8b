import Lowering.Id
/-!
Sets of registers, sets of operand kinds, and the location masks built from them.

A location mask says where a demand on a value may be met: which kinds of operand, which
registers and which frame slots. Masks are narrowed by intersection.
-/
namespace Lowering

abbrev Register := Nat

abbrev RegisterSet := BitVec 64

namespace RegisterSet

def all : RegisterSet := BitVec.allOnes 64

def single (r : Register) : RegisterSet := BitVec.twoPow 64 r

def has (s : RegisterSet) (r : Register) : Bool := s.getLsbD r

end RegisterSet

inductive OperandKind where
  | constant
  | address
  | register
  | memory
  deriving DecidableEq, Repr, Inhabited

abbrev KindSet := BitVec 8

namespace OperandKind

def position : OperandKind → Nat
  | .constant => 0
  | .address => 1
  | .register => 2
  | .memory => 3

def bit (k : OperandKind) : KindSet := BitVec.twoPow 8 k.position

end OperandKind

namespace KindSet

def all : KindSet := 15#8

def has (s : KindSet) (k : OperandKind) : Bool := s.getLsbD k.position

def ofList (ks : List OperandKind) : KindSet :=
  ks.foldl (fun s k => s ||| k.bit) 0#8

end KindSet

structure OperandMask where
  kinds : KindSet
  registers : RegisterSet
  deriving DecidableEq, Repr

namespace OperandMask

def any : OperandMask := ⟨KindSet.all, RegisterSet.all⟩

def none : OperandMask := ⟨0#8, 0#64⟩

end OperandMask

inductive SlotMask where
  | any
  | none
  | only (index : Nat)
  deriving DecidableEq, Repr, Inhabited

namespace SlotMask

def inter : SlotMask → SlotMask → SlotMask
  | .none, _ => .none
  | _, .none => .none
  | .any, s => s
  | s, .any => s
  | .only i, .only j => if i = j then .only i else .none

def text : SlotMask → String
  | .any => "Any"
  | .none => "None"
  | .only i => handleText "Index" i

end SlotMask

structure SiteMask where
  kinds : KindSet
  registers : RegisterSet
  slots : SlotMask
  deriving DecidableEq, Repr, Inhabited

namespace SiteMask

def any : SiteMask := ⟨KindSet.all, RegisterSet.all, .any⟩

def ofOperand (m : OperandMask) : SiteMask := ⟨m.kinds, m.registers, .any⟩

def register (r : Register) : SiteMask := ⟨OperandKind.register.bit, RegisterSet.single r, .none⟩

def slot (i : Nat) : SiteMask := ⟨OperandKind.memory.bit, 0#64, .only i⟩

def inter (a b : SiteMask) : SiteMask :=
  ⟨a.kinds &&& b.kinds, a.registers &&& b.registers, a.slots.inter b.slots⟩

def accepts (m : SiteMask) (k : OperandKind) : Bool := KindSet.has m.kinds k

end SiteMask

end Lowering
