import Lowering.X64.Branch
import Lowering.Request
/-!
Requests as machine instructions.
-/
namespace Lowering.X64

namespace Asm

def nullary : Nullary → Asm Unit
  | .ret => emit (.plain .ret)
  | .storeLoadBarrier => emit (.plain .mfence)
  -- the machine keeps loads and stores in order on its own
  | .loadBarrier | .storeStoreBarrier => pure ()
  | .trap => emit (.plain .int3)

def adjustFrame (words : Nat) : Asm Unit :=
  if words == 0 then pure ()
  else emit (.aluImm .sub .qword (.reg (.whole rsp)) (signed 32 (words * wordSize)))

def allocateFrame (words : Nat) : Asm Unit := do
  emit (.push rbp)
  emit (.move .qword (.whole rbp) (.reg (.whole rsp)))
  adjustFrame words

def popFrame : Asm Unit := do
  emit (.move .qword (.whole rsp) (.reg (.whole rbp)))
  emit (.pop rbp)

def keptArguments : Nat := 2

def leave (arguments : Nat) : Asm Unit := do
  popFrame
  if (← get).tailCalls && arguments > keptArguments then
    emit (.pop rcx)
    let bytes := (arguments - keptArguments) * wordSize
    emit (.aluImm .add .qword (.reg (.whole rsp)) (signed 32 bytes))
    emit (.jumpVia (.reg (.whole rcx)))
  else emit (.plain .ret)

def stackWord (words : Int) : Asm MemoryRef :=
  let v := words * wordSize
  if fitsSigned 32 v then pure ⟨rsp, v, none, 1⟩ else invalid (.frameOffset v)

end Asm

open Asm in
/-- Moves the return address, restores the frame pointer and drops the frame so that `offset`
words of the caller's argument area are used again. -/
def popFrameShifted {σ : Type} (lender : ScratchSource σ) (footprint : Nat) (offset : Int)
    (returnAddress framePointer : Option Register) : Emit σ Unit := do
  let source ← stackWord (footprint + 1)
  let target ← stackWord (footprint - offset + 1)
  withTemporary lender fun t => do
    load 8 source 8 t
    store t 8 target
  load 8 (← stackWord footprint) 8 rbp
  emit (.aluImm .add .qword (.reg (.whole rsp)) target.offset)
  match returnAddress with
  | some r => do store r 8 (← stackWord offset)
  | none => pure ()
  match framePointer with
  | some r => do store r 8 (← stackWord (offset - 1))
  | none => pure ()

open Asm in
def emit {σ : Type} (lender : ScratchSource σ) : Request → Emit σ Unit
  | .nullary op => nullary op
  | .unary op _ a => transfer op.isCall a
  | .binary op aSize a bSize b => convert lender op aSize a bSize b
  | .ternary op aSize a _ b cSize c =>
    if op.isBranch then branch lender op aSize a b c
    else match b, c with
      | .register b, .register c => combine lender op cSize a b c
      | b, c => Asm.lift (invalid (.registerOperands op b c))
  | .stackCheck handler limitOffset => stackCheck handler limitOffset
  | .allocateFrame words => allocateFrame words
  | .adjustFrame words => adjustFrame words
  | .popFrame footprint offset returnAddress framePointer =>
    if offset == 0 then popFrame
    else popFrameShifted lender footprint offset returnAddress framePointer
  | .leave _ arguments => leave arguments
  | .bind t => Asm.bind t

end Lowering.X64
