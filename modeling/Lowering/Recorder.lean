import Lowering.Request
import Lowering.MachineCode
/-!
An emitter that keeps the requests it gets.

Every request but a binding takes sixteen zero bytes of code, so targets and patches have
offsets as with a real machine. A deferred constant is patched into the second half of its
request.
-/
namespace Lowering

structure Recorder where
  log : Array Request := #[]
  count : Nat := 0
  targets : TargetMap := []
  patches : List Patch := []
  deriving Repr

namespace Recorder

def recordSize : Nat := 16

def position (r : Recorder) : Nat := r.count * recordSize

/-- Keeps a request. A target that is bound a second time is moved and refused. -/
def emit (r : Recorder) (q : Request) : Except Error Unit × Recorder :=
  match q with
  | .bind t =>
    let moved := { r with targets := r.targets.insert t r.position }
    if (r.targets.find? t).isSome then (.error (.emission (.boundTwice t)), moved)
    else (.ok (), { moved with log := r.log.push q })
  | _ =>
    let patches := match q.operands.findSome? Operand.deferred? with
      | some p => r.patches ++ [⟨r.position + recordSize / 2, p⟩]
      | none => r.patches
    (.ok (), { r with log := r.log.push q, count := r.count + 1, patches })

def finish (r : Recorder) : MachineCode :=
  ⟨List.replicate r.position 0, r.targets, r.patches⟩

end Recorder

end Lowering
