import Lowering.Compile.Operand
/-!
Compiling operations with a result.
-/
namespace Lowering.Compile

def claimRegisters (mask : RegisterSet) : Build (List SiteId) := do
  let registers := (List.range (← get).machine.registerCount).filter (RegisterSet.has mask)
  registers.mapM fun r => do
    evict (.register r) none
    hold (← modifyGet (·.newSite (.ofRegister r)))

def combine (e : EventId) (c : CombineEvent) : Build Unit := do
  let first ← sourceOf c.first
  let i ← whileFrozen first do
    let second ← sourceOf c.second
    let machine := (← get).machine
    let claimed ← whileFrozen second (claimRegisters (machine.clobbers c.op c.resultSize))
    Build.ensuring (do
      let a ← sourceMask c.first
      let b ← sourceMask c.second
      let mask := machine.planTernaryResult c.op c.firstSize a c.secondSize b c.resultSize
      let i ← resultSite c.second c.result (.ofOperand mask)
      -- placing the result may have moved the operands
      let a ← sourceOperand c.first
      let b ← sourceOperand c.second
      let target ← operandOf i
      emit (.ternary c.op c.firstSize a c.secondSize b c.resultSize target)
      return i) (·.thawSites claimed)
  consumeReads e
  deliver c.result i

def convert (e : EventId) (t : ConvertEvent) : Build Unit := do
  let source ← sourceMask t.value
  let mask := (← get).machine.planBinaryResult t.op t.valueSize source t.resultSize
  let i ← resultSite t.value t.result (.ofOperand mask)
  let a ← sourceOperand t.value
  let target ← operandOf i
  emit (.binary t.op t.valueSize a t.resultSize target)
  consumeReads e
  deliver t.result i

end Lowering.Compile
