import Lowering.X64.Scratch
/-!
Moves between registers, memory and constants.

Every move checks the registers it names before it appends an instruction, and checks the
destination before the source.
-/
namespace Lowering.X64

namespace Asm

def general (r : Register) (w : Width) : Asm Reg :=
  if isGeneral r then pure ⟨r, .general w⟩ else invalid (.notGeneral r)

def sized (r : Register) (size : Nat) : Asm Reg := general r (.ofSize size)

/-- A general register that takes part in arithmetic on `size` bytes: operands below 32 bits are
handled in the low half. -/
def arithmetic (r : Register) (size : Nat) : Asm Reg := general r (.ofSize (max size 4))

def whole (r : Register) : Asm Reg := general r .qword

def float (r : Register) : Asm Reg :=
  if isFloat r then pure ⟨r - xmm0, .float⟩ else invalid (.notFloat r)

def memory (m : MemoryRef) : Asm MemoryRef := do
  match m.index with
  | some i => discard (whole i)
  | none => pure ()
  discard (whole m.base)
  return m

def loadConstant (r : Register) (c : Constant) : Asm Unit := do
  let dst ← whole r
  match c with
  | .immediate v =>
    if fitsSigned 32 v then emit (.moveImm .qword (.reg dst) v) else emit (.moveImm64 r v)
  | .label t => emit (.lea r (← labelOf t))
  | .deferred p =>
    modify fun a => { a with patches := a.patches ++ [(a.code.size, p)] }
    emit (.moveImm64 r 0)

def copyRegister (size : Nat) (src dst : Register) : Asm Unit := do
  if src == dst then return
  match isFloat src, isFloat dst with
  | false, false =>
    let target ← arithmetic dst size
    emit (.move (.ofArithmetic size) target (.reg (← arithmetic src size)))
  | true, true =>
    let target ← float dst
    emit (.sse .copy target (.reg (← float src)))
  | false, true =>
    let w := Width.ofArithmetic size
    let target ← float dst
    emit (.toFloat w target (← general src w))
  | true, false =>
    let w := Width.ofArithmetic size
    let target ← general dst w
    emit (.ofFloat w target (← float src))

def moveRegister (aSize : Nat) (a : Register) (bSize : Nat) (b : Register) : Asm Unit := do
  if isFloat a || isFloat b || aSize ≥ bSize then copyRegister (max (min aSize bSize) 4) a b
  else if aSize == 1 || aSize == 2 || (aSize == 4 && bSize == 8) then
    let dst ← arithmetic b bSize
    emit (.signExtend (.ofSize aSize) (.ofArithmetic bSize) dst (.reg (← sized a aSize)))
  else copyRegister 4 a b

def load (aSize : Nat) (m : MemoryRef) (bSize : Nat) (b : Register) : Asm Unit := do
  if isFloat b then emit (.sse (.load (.ofSize aSize)) (← float b) (.mem m))
  else
    let dst ← arithmetic b bSize
    let w := Width.ofArithmetic bSize
    if aSize == 1 || aSize == 2 || (aSize == 4 && w == .qword) then
      emit (.signExtend (.ofSize aSize) w dst (.mem m))
    else emit (.move (if aSize == 8 then w else .dword) dst (.mem m))

def store (a : Register) (bSize : Nat) (m : MemoryRef) : Asm Unit := do
  if isFloat a then emit (.storeFloat (.ofSize bSize) m (← float a))
  else emit (.store (.ofSize bSize) m (← sized a bSize))

def storeImmediate (v : Int) (bSize : Nat) (m : MemoryRef) : Asm Unit :=
  let w := Width.ofSize bSize
  emit (.moveImm w (.mem m) (signed (8 * min w.bytes 4) v))

def zeroExtend (aSize : Nat) (a : Operand) (b : Register) : Asm Unit := do
  let dst ← general b (if aSize == 8 then .qword else .dword)
  let extend (src : RegMem) : Instruction := match aSize with
    | 1 => .zeroExtend .byte dst src
    | 2 => .zeroExtend .word dst src
    | 8 => .move .qword dst src
    | _ => .move .dword dst src
  match a with
  | .register r =>
    if aSize == 8 && r == b then return
    let w := if aSize == 1 || aSize == 2 || aSize == 8 then Width.ofSize aSize else .dword
    emit (extend (.reg (← general r w)))
  | .memory m => emit (extend (.mem (← memory m)))
  | other => invalid (.zeroExtension other)

end Asm

/-- A constant that fits the immediate field of an instruction on `size` bytes. -/
def immediate? (size : Nat) : Constant → Option Int
  | .immediate v => if size ≤ 4 || fitsSigned 32 v then some (signed 32 v) else none
  | _ => none

open Asm in
def moveIntoRegister {σ : Type} (lender : ScratchSource σ) (aSize : Nat) (a : Operand)
    (bSize : Nat) (b : Register) : Emit σ Unit :=
  match a with
  | .register r => moveRegister aSize r bSize b
  | .memory m => (do load aSize (← memory m) bSize b : Asm Unit)
  | .constant c =>
    if isFloat b then withTemporary lender fun t => do
      loadConstant t c
      copyRegister (max bSize 4) t b
    else match c, decide (bSize ≤ 4) with
      | .immediate v, true => (do
        emit (.moveImm32 (← general b .dword).number (signed 32 v)) : Asm Unit)
      | _, _ => loadConstant b c
  | .address c =>
    if isFloat b then withTemporary lender fun t => do
      loadConstant t c
      load aSize (← memory ⟨t, 0, none, 1⟩) bSize b
    else (do
      loadConstant b c
      load aSize (← memory ⟨b, 0, none, 1⟩) bSize b : Asm Unit)

open Asm in
def moveOperand {σ : Type} (lender : ScratchSource σ) (aSize : Nat) (a : Operand) (bSize : Nat)
    (b : Operand) : Emit σ Unit :=
  match a, b with
  | a, .register r => moveIntoRegister lender aSize a bSize r
  | .register r, .memory m => (do store r bSize (← memory m) : Asm Unit)
  | .constant c, .memory m => do
    let m ← memory m
    match immediate? bSize c with
    | some v => storeImmediate v bSize m
    | none => withTemporary lender fun t => do
      loadConstant t c
      store t bSize m
  | a, .memory m => withTemporary lender fun t => do
    alone fun none => moveIntoRegister none aSize a wordSize t
    store t bSize (← memory m)
  | _, b => Asm.lift (invalid (.moveDestination b))

end Lowering.X64
