import Lowering.Recorder
import Lowering.X64.Emitter
/-!
Emitters: where requests go.
-/
namespace Lowering

open X64 (ScratchSource)

inductive Emitter where
  | recording (r : Recorder)
  | machine (a : X64.Assembler)

namespace Emitter

/-- Carries out one request. Temporaries come from the lender, and what was done before a failure
stays done. -/
def emit {σ : Type} (lender : ScratchSource σ) (q : Request) :
    EStateM Error (Emitter × σ) Unit := fun (e, s) =>
  match e with
  | .recording r =>
    match r.emit q with
    | (.ok (), r) => .ok () (.recording r, s)
    | (.error err, r) => .error err (.recording r, s)
  | .machine a =>
    match X64.emit lender q ⟨a, s⟩ with
    | .ok () m => .ok () (.machine m.assembler, m.lender)
    | .error err m => .error err (.machine m.assembler, m.lender)

def finish : Emitter → Except Error MachineCode
  | .recording r => .ok r.finish
  | .machine a => a.finish

def log : Emitter → List Request
  | .recording r => r.log.toList
  | .machine _ => []

end Emitter

end Lowering
