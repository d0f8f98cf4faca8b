import Lowering.Method.Operands
import Lowering.FrameMap.Solve
import Lowering.FrameMap.Build
/-!
Finishing a method: laying out the code, resolving all promises, filling in the words that waited
for them, and building the root maps.
-/
namespace Lowering

structure CompiledMethod where
  code : List UInt8
  codeSize : Nat
  poolOffset : Nat
  base : Int
  frameMaps : FrameMapTable

namespace CompiledMethod

def instructions (m : CompiledMethod) : List UInt8 := m.code.take m.codeSize

def pool (m : CompiledMethod) : List UInt8 := m.code.drop m.poolOffset

end CompiledMethod

/-- The signed words that bytes spell, as many as there are whole words. -/
def words : List UInt8 → List Int
  | a :: b :: c :: d :: e :: f :: g :: h :: rest =>
    signed 64 (ofLittleEndian [a, b, c, d, e, f, g, h]) :: words rest
  | _ => []

namespace Method

def resolved (p : PromiseId) : Build Int := do
  match (← get).promises.value? p with
  | some v => return v
  | none => throw (.unresolved (.noValue p))

def writeWord (code : List UInt8) (offset : Nat) (value : Int) : List UInt8 :=
  code.take offset ++ littleEndian wordSize value ++ code.drop (offset + wordSize)

def applyPatch (code : List UInt8) (p : Patch) : Build (List UInt8) := do
  let value ← resolved p.promise
  if p.offset + wordSize > code.length then Build.invariant (.patchRange p.offset)
  return writeWord code p.offset value

def resolvePromises (layout : CodeLayout) : Build Unit := do
  let r := (← get).promises.resolveAll layout
  modify fun s => { s with promises := ⟨r.promises⟩ }
  match r.error with
  | some e => throw e
  | none => pure ()

def buildFrameMaps (base : Int) : Build FrameMapTable := do
  modify fun s => { s with roots := s.tracedCalls.foldl (fun l c =>
    l.attach c.trace c.address c.argumentIndex) s.roots }
  let s ← get
  let (passes, roots) := s.roots.solve s.settings
  modify fun s => { s with roots }
  match passes with
  | .error e => throw e
  | .ok passes =>
    modify (·.count (·.setFrameMapPasses passes))
    match roots.table s.promises base with
    | .ok t => return t
    | .error e => throw e

def finish (base : Int) : Build CompiledMethod := do
  match (← get).emitter.finish with
  | .error e => throw e
  | .ok machine =>
    let codeSize := machine.bytes.length
    let layout : CodeLayout := ⟨base, codeSize, machine.targets⟩
    resolvePromises layout
    let padding := List.replicate (layout.poolOffset - codeSize + poolSize (← get)) 0
    let code ← machine.patches.foldlM applyPatch (machine.bytes ++ padding)
    let pool ← (← get).pool.mapM resolved
    let code := code.take layout.poolOffset ++ pool.flatMap (littleEndian wordSize)
    let frameMaps ← buildFrameMaps base
    modify (·.count (·.countMethod codeSize))
    return { code, codeSize, poolOffset := layout.poolOffset, base, frameMaps }

end Method

end Lowering
