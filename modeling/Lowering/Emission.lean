import Lowering.Selection
/-!
Handing requests to the emitter.

While it works on a request the emitter may borrow registers. It gets one whose owner, if it has
one, does not need it.
-/
namespace Lowering

open X64 (ScratchSource)

def acquireTemporary (mask : RegisterSet) : Build Register := do
  let s ← get
  let t := s.chooseRegister none mask none
  match t.isImpossible, t.resource with
  | false, .register r =>
    match (s.resources.get (.register r)).owner with
    | some o =>
      if s.isLastSite o.value o.site then
        if ← live o.value then throw (.scratch (.lastCopy r o.value))
      modify fun s => (s.count (·.countSteal)).removeSite o.value o.site
    | none => pure ()
    modify (·.modifyResources (·.refer (.register r)))
    return r
  | _, _ => throw (.scratch (.allTaken mask))

def State.releaseTemporary (s : State) (r : Register) : State :=
  s.modifyResources (·.unrefer (.register r))

def temporaries : ScratchSource State where
  acquire := acquireTemporary
  release r s := s.releaseTemporary r

def emit (q : Request) : Build Unit := fun s =>
  let e := s.emitter
  match Emitter.emit temporaries q (e, { s with emitter := .recording {} }) with
  | .ok () (e, s) => .ok () { s with emitter := e }
  | .error err (e, s) => .error err { s with emitter := e }

namespace State

def constantOf (s : State) (p : PromiseId) : Constant :=
  match s.promises.kind p with
  | .resolved v => .immediate v
  | .machineIp ip => .label (.ip ip)
  | .code => .label (.promise p)
  | .pool _ => .deferred p

def operand (s : State) (i : SiteId) : Except Error Operand :=
  match s.site i with
  | .constant p => .ok (.constant (s.constantOf p))
  | .address p => .ok (.address (s.constantOf p))
  | .register _ (some n) => .ok (.register n)
  | .register mask none => .error (.invalidOperand (.registerNotChosen i mask))
  | .memory m _ => .ok (.memory m)

end State

def operandOf (i : SiteId) : Build Operand := do
  match (← get).operand i with
  | .ok a => return a
  | .error e => throw e

def emitBetween (op : Binary) (aSize : Nat) (a : SiteId) (bSize : Nat) (b : SiteId) :
    Build Unit := do
  let a ← operandOf a
  let b ← operandOf b
  emit (.binary op aSize a bSize b)

def emitMove (src dst : SiteId) : Build Unit := do
  modify (·.count (·.countMove))
  whileFrozen src (whileFrozen dst (emitBetween .move wordSize src wordSize dst))

end Lowering
