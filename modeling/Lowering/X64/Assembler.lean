import Lowering.X64.Layout
import Lowering.MachineCode
/-!
The assembler: a growing sequence of instructions with labels.

Targets bound at one position share a label. A label that was already referred to cannot be
shared, so if another one stands at the same position a no-operation is put between them; that
way no instruction has more than one label.
-/
namespace Lowering.X64

structure Assembler where
  code : Array Instruction := #[]
  places : LabelMap := #[]
  labels : List (CodeTarget × Label) := []
  bound : List CodeTarget := []
  pending : Option Label := none
  patches : List (Nat × PromiseId) := []
  tailCalls : Bool := false

/-- Assembly that may fail; what was assembled before the failure stays. -/
abbrev Asm := EStateM Error Assembler

namespace Asm

def invalid {α : Type} (f : OperandFault) : Asm α := throw (.invalidOperand f)

def emit (i : Instruction) : Asm Unit :=
  modify fun a => { a with code := a.code.push i, pending := none }

def newLabel : Asm Label :=
  modifyGet fun a => (a.places.size, { a with places := a.places.push none })

def labelOf (t : CodeTarget) : Asm Label := do
  match (← get).labels.lookup t with
  | some l => return l
  | none =>
    let l ← newLabel
    modify fun a => { a with labels := a.labels ++ [(t, l)] }
    return l

/-- Gives a label the current position. A label has one position, and a position one label. -/
def setLabel (l : Label) : Asm Unit := do
  let a ← get
  if (a.places.getD l none).isSome then throw (.emission .labelPlaced)
  if a.places.contains (some a.code.size) then throw (.emission .labelWaits)
  set { a with places := a.places.modify l fun _ => some a.code.size, pending := some l }

/-- Puts a label at the current position, after a no-operation if another label waits there. -/
def place (l : Label) : Asm Unit := do
  if (← get).pending.isSome then emit (.plain .nop)
  setLabel l

def bind (t : CodeTarget) : Asm Unit := do
  let a ← get
  if t ∈ a.bound then throw (.emission (.boundTwice t))
  modify fun a => { a with bound := a.bound ++ [t] }
  match a.labels.lookup t, a.pending with
  | none, some here => modify fun a => { a with labels := a.labels ++ [(t, here)] }
  | _, _ => place (← labelOf t)

end Asm

namespace Assembler

def patchDistance : Nat := 2

def listing (a : Assembler) : Except Error (List Slot) :=
  layout a.places a.code.toList

def closed (a : Assembler) : Assembler :=
  if a.pending.isSome then { a with code := a.code.push (.plain .int3), pending := none } else a

/-- Lays the code out and reports where targets and deferred constants ended up. -/
def finish (a : Assembler) : Except Error MachineCode := do
  match a.labels.find? fun (t, _) => t ∉ a.bound with
  | some (t, _) => throw (.unresolved (.danglingJump t))
  | none => pure ()
  let a := a.closed
  let slots ← a.listing
  let table := slots.toArray
  let address (i : Nat) : Nat := (table.getD i default).address
  let target (s : Slot) : Nat := match s.instruction.label? with
    | some l => address (a.places.position l)
    | none => 0
  let bytes ← slots.mapM fun s => s.bytes (target s)
  return {
    bytes := bytes.flatten
    targets := a.labels.map fun (t, l) => (t, address (a.places.position l))
    patches := a.patches.map fun (i, p) => ⟨address i + patchDistance, p⟩ }

end Assembler

end Lowering.X64
