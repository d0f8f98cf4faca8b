import Lowering.Compile
import Lowering.Method.Operations
import Lowering.Method.Finish
import Lowering.X64.Description
/-!
Sample methods, each of which shows one part of the compiler at work.
-/
namespace Lowering

inductive Sample where
  | add
  | diamond
  | loop
  | call
  | bounds
  | frem
  deriving DecidableEq, Repr

namespace Sample

def ofName? : String → Option Sample
  | "add" => some .add
  | "diamond" => some .diamond
  | "loop" => some .loop
  | "call" => some .call
  | "bounds" => some .bounds
  | "frem" => some .frem
  | _ => none

def callee : Int := 0x40000000

def boundsHandler : Int := 0x40001000

def helper : Int := 0x40002000

def divisor : Int := 0x3FF8000000000000

def dividend : Int := 0x401C000000000000

def start (codeLength parameters locals maxStack : Nat) : Build Unit := modify fun s =>
  s.start codeLength parameters locals (s.machine.alignFrame (locals - parameters + maxStack))

def codeAddress (ip : Nat) : Build ValueId := do
  Method.promiseConstant (← Method.instructionAddress ip) .general

def buildAdd : Build Unit := do
  start 1 0 0 0
  Method.startInstruction 0
  let a ← Method.register X64.rdi
  let b ← Method.register X64.rsi
  Method.leave (some (← Method.combine .add 8 a b))

def buildDiamond : Build Unit := do
  start 5 1 2 0
  discard (Method.declareLocal 1 0 .general)
  Method.startInstruction 0
  let x ← Method.loadLocal 1 0
  let zero ← Method.constant 0 .general
  Method.branch .jumpIfEqual 4 zero x (← codeAddress 3)
  let state ← Method.saveState
  Method.startInstruction 3
  Method.storeLocal 1 (← Method.constant 2 .general) 1
  Method.startInstruction 4
  Method.leave (some (← Method.loadLocal 1 1))
  Method.restoreState state
  Method.startInstruction 1
  Method.storeLocal 1 (← Method.constant 1 .general) 1
  Method.startInstruction 2
  Method.jump (← codeAddress 4)
  Method.visitInstruction 4

def buildLoop : Build Unit := do
  start 5 1 2 0
  discard (Method.declareLocal 1 0 .general)
  Method.startInstruction 0
  Method.storeLocal 1 (← Method.constant 0 .general) 1
  Method.startInstruction 1
  let n ← Method.loadLocal 1 0
  let i ← Method.loadLocal 1 1
  Method.branch .jumpIfGreaterOrEqual 4 n i (← codeAddress 4)
  let state ← Method.saveState
  Method.startInstruction 4
  Method.leave (some (← Method.loadLocal 1 1))
  Method.restoreState state
  Method.startInstruction 2
  let i ← Method.loadLocal 1 1
  let next ← Method.combine .add 4 i (← Method.constant 1 .general)
  Method.storeLocal 1 next 1
  Method.startInstruction 3
  Method.jump (← codeAddress 1)
  Method.visitInstruction 1

def buildCall : Build Unit := do
  start 1 1 1 1
  Method.sizeRootMaps 1
  discard (Method.declareLocal 1 0 .general)
  Method.startInstruction 0
  Method.logRoots (.mark 0)
  let object ← Method.loadLocal 1 0
  let trace ← modifyGet fun s =>
    let (t, roots) := s.roots.trace 0
    (t, { s with roots })
  let address ← Method.constant callee .general
  let result ← Method.call address ⟨false, false, false, false⟩ (some trace) 8 .general [object]
  Method.leave (some result)

def buildBounds : Build Unit := do
  start 1 2 2 0
  discard (Method.declareLocal 1 0 .general)
  discard (Method.declareLocal 1 1 .general)
  Method.startInstruction 0
  let array ← Method.loadLocal 1 0
  let index ← Method.loadLocal 1 1
  Method.checkBounds array 8 index boundsHandler
  let element ← Method.memory array .general 16 (some index) 4
  Method.leave (some (← Method.load .move 4 element 8))

def buildFrem : Build Unit := do
  start 1 0 0 0
  Method.startInstruction 0
  let a ← Method.constant divisor .float
  let b ← Method.constant dividend .float
  Method.leave (some (← Method.combine .floatRemainder 8 a b))

def build : Sample → Build Unit
  | .add => buildAdd
  | .diamond => buildDiamond
  | .loop => buildLoop
  | .call => buildCall
  | .bounds => buildBounds
  | .frem => buildFrem

def compile (sample : Sample) (base : Int) : Build CompiledMethod := do
  sample.build
  Compile.method none 0
  Method.finish base

end Sample

end Lowering
