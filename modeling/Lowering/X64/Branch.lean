import Lowering.X64.Arithmetic
/-!
Calls, jumps and conditional branches.

A target outside the method is loaded into the register kept for that. A branch to such a target
skips over the jump if its condition fails.
-/
namespace Lowering.X64

inductive Exit where
  | target
  | skip
  deriving DecidableEq, Repr

/-- The jumps that decide a branch after its operands were compared. A float comparison sets the
parity flag, and with it equal and below, if an operand is not a number. -/
def branchExits? : Ternary → Option (List (Exit × Condition))
  | .jumpIfLess => some [(.target, .less)]
  | .jumpIfGreater => some [(.target, .greater)]
  | .jumpIfLessOrEqual => some [(.target, .lessOrEqual)]
  | .jumpIfGreaterOrEqual => some [(.target, .greaterOrEqual)]
  | .jumpIfEqual => some [(.target, .equal)]
  | .jumpIfNotEqual => some [(.target, .notEqual)]
  | .jumpIfFloatEqual => some [(.skip, .parity), (.target, .equal)]
  | .jumpIfFloatNotEqual => some [(.target, .notEqual), (.target, .parity)]
  | .jumpIfFloatLess => some [(.skip, .parity), (.target, .below)]
  | .jumpIfFloatGreater => some [(.target, .above)]
  | .jumpIfFloatLessOrEqual => some [(.skip, .parity), (.target, .belowOrEqual)]
  | .jumpIfFloatGreaterOrEqual => some [(.target, .aboveOrEqual)]
  | .jumpIfFloatLessOrUnordered => some [(.target, .below)]
  | .jumpIfFloatGreaterOrUnordered => some [(.target, .above), (.target, .parity)]
  | .jumpIfFloatLessOrEqualOrUnordered => some [(.target, .belowOrEqual)]
  | .jumpIfFloatGreaterOrEqualOrUnordered => some [(.target, .aboveOrEqual), (.target, .parity)]
  | _ => none

namespace Asm

def jumpFar (c : Constant) : Asm Unit := do
  loadConstant scratch c
  emit (.jumpVia (.reg (.whole scratch)))

def transfer (call : Bool) (target : Operand) : Asm Unit :=
  let via (p : RegMem) : Instruction := if call then .callVia p else .jumpVia p
  match target with
  | .register r => do emit (via (.reg (← whole r)))
  | .memory m => do emit (via (.mem (← memory m)))
  | .constant (.label t) => do
    let l ← labelOf t
    emit (if call then .call l else .jump l)
  | .constant c => do
    loadConstant scratch c
    emit (via (.reg (.whole scratch)))
  | .address _ => invalid .addressTarget

def compare (size : Nat) (b : Operand) (src : IntegerSource) : Asm Unit :=
  let w := Width.ofArithmetic size
  match b with
  | .register r => do alu .cmp size (← arithmetic r size) src
  | .memory m => do
    let m ← memory m
    match src with
    | .place (.reg r) => emit (.compareMemory w m r)
    | .immediate v => emit (.aluImm .cmp w (.mem m) v)
    | .place (.mem _) => invalid .compareMemory
  | other => invalid (.compareOperand other)

def floatCompare (op : Ternary) (size : Nat) (a b : Operand) : Asm Unit :=
  match b with
  | .register r => do
    let src ← floatSource a
    emit (.sse (.compare (.ofSize size)) (← float r) src)
  | _ => invalid (.floatSecond op)

/-- The label a branch jumps to, with the constant to go on to from there if the target is not a
label of this method. -/
def branchLabel : Operand → Asm (Label × Option Constant)
  | .constant (.label t) => do return (← labelOf t, none)
  | .constant c => do return (← newLabel, some c)
  | other => invalid (.branchTarget other)

def branchTo (op : Ternary) (c : Operand) : Asm Unit := do
  let (target, far) ← branchLabel c
  match branchExits? op with
  | none => invalid (.notBranch op)
  | some exits =>
    let skip ← newLabel
    for (exit, condition) in exits do
      emit (.jumpIf condition (if exit == .target then target else skip))
    match far with
    | some c =>
      emit (.jump skip)
      place target
      jumpFar c
    | none => pure ()
    if far.isSome || exits.any (·.1 == .skip) then place skip

def stackCheck (handler : Int) (limitOffset : Nat) : Asm Unit := do
  emit (.alu .cmp .qword (.whole rsp) (.mem ⟨thread, signed 32 limitOffset, none, 1⟩))
  let passed ← newLabel
  emit (.jumpIf .above passed)
  jumpFar (.immediate handler)
  place passed

end Asm

def branch {σ : Type} (lender : ScratchSource σ) (op : Ternary) (size : Nat) (a b c : Operand) :
    Emit σ Unit := do
  if op.isFloatBranch then Asm.floatCompare op size a b
  else withIntegerSource lender size a (Asm.compare size b)
  Asm.branchTo op c

end Lowering.X64
