import Lowering.X64.Assembler
/-!
Temporary registers for the emitter.

The emitter borrows a register for part of one request and gives it back whatever happens. What
it does meanwhile runs on the assembler alone, so it never holds two.
-/
namespace Lowering.X64

/-- Where temporaries come from. Lending may change the lender's state, also when it fails. -/
structure ScratchSource (σ : Type) where
  acquire : RegisterSet → EStateM Error σ Register
  release : Register → σ → σ

namespace ScratchSource

def refusing : ScratchSource Unit where
  acquire mask := throw (.scratch (.nested mask))
  release _ s := s

def pool : ScratchSource (List Register) where
  acquire _ s :=
    match s.getLast? with
    | some r => .ok r s.dropLast
    | none => .error (.scratch .emptyPool) s
  release r s := s ++ [r]

end ScratchSource

structure Emission (σ : Type) where
  assembler : Assembler
  lender : σ

abbrev Emit (σ : Type) := EStateM Error (Emission σ)

def Asm.lift {σ α : Type} (act : Asm α) : Emit σ α := fun s =>
  match act s.assembler with
  | .ok x a => .ok x { s with assembler := a }
  | .error e a => .error e { s with assembler := a }

instance {σ : Type} : MonadLift Asm (Emit σ) := ⟨Asm.lift⟩

def borrow {σ : Type} (source : ScratchSource σ) : Emit σ Register := fun s =>
  match source.acquire generalRegisters s.lender with
  | .ok r l => .ok r { s with lender := l }
  | .error e l => .error e { s with lender := l }

def giveBack {σ : Type} (source : ScratchSource σ) (t : Option Register) : Emit σ Unit :=
  modify fun s => { s with lender := t.elim s.lender (source.release · s.lender) }

def givingBack {σ α : Type} (source : ScratchSource σ) (t : Option Register) (act : Emit σ α) :
    Emit σ α := do
  let x ← try act catch e => do
    giveBack source t
    throw e
  giveBack source t
  return x

def withTemporary {σ α : Type} (source : ScratchSource σ) (act : Register → Asm α) :
    Emit σ α := fun s =>
  match source.acquire generalRegisters s.lender with
  | .error e l => .error e { s with lender := l }
  | .ok r l =>
    match act r s.assembler with
    | .ok x a => .ok x ⟨a, source.release r l⟩
    | .error e a => .error e ⟨a, source.release r l⟩

def alone {α : Type} (act : ScratchSource Unit → Emit Unit α) : Asm α := fun a =>
  match act .refusing ⟨a, ()⟩ with
  | .ok x s => .ok x s.assembler
  | .error e s => .error e s.assembler

end Lowering.X64
