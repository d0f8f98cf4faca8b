import Lowering.Append
import Lowering.Junction
/-!
Describing the control flow of a method.

A client starts each logical instruction once, visits it when control comes back to it, and saves
the abstract frame at a branch to return to it for the other path.
-/
namespace Lowering.Method

def sizeRootMaps (maxStack : Nat) : Build Unit := modify fun s =>
  { s with roots := .new s.codeLength (s.localFootprint + maxStack) }

def logRoots (entry : LogEntry) : Build Unit := modify fun s =>
  { s with roots := s.roots.add entry }

def visitRoots (ip : Nat) : Build Unit := do
  match (← get).roots.visit ip with
  | .ok (_, roots) => modify fun s => { s with roots }
  | .error e => throw e

def recordFrame : Build Unit := modify fun s =>
  match s.predecessor with
  | some p => s.modifyEvent p fun d =>
      { d with stackAfter := s.stack, localsAfter := some s.locals }
  | none => s

def linkBack (p target : EventId) : Build Unit := do
  recordFrame
  let fork := (← get).fork
  let l ← modifyGet (·.newLink p target fork)
  match (← get).lastEvent with
  | none => Build.invariant .noLastEvent
  | some last =>
    modify fun s => s.modifyEvent last fun d => { d with revisits := d.revisits ++ [l] }
    plantStubs l

def visitInstruction (ip : Nat) : Build Unit := do
  ensureEvent
  let instruction ← instructionAt (signed 32 ip)
  match instruction.firstEvent with
  | none => Build.invariant (.noEventsToLink ip)
  | some target =>
    match (← get).predecessor with
    | some p => linkBack p target
    | none => pure ()
    modify fun s =>
      let inherited := instruction.subroutine.bind fun r => s.subroutines.getD r.index none
      let subroutines := match s.subroutine with
        | some r => s.subroutines.modify r.index fun _ => inherited
        | none => s.subroutines
      { s with subroutines, subroutine := none, fork := none }
    visitRoots ip

def localSlot (footprint index : Nat) : Build Nat := do
  let count := (← get).localFootprint
  if index + footprint > count then Build.invalid (.localRange index count)
  return if footprint > 1 then index + 1 else index

def setLocal (slot : Nat) (v : ValueId) : Build Unit := modify fun s =>
  { s with frames := s.frames.setLocal s.locals slot (some v) }.modifyValue v fun d =>
    { d with home := some (s.frameIndex slot) }

def declareLocal (footprint index : Nat) (kind : ValueKind) : Build ValueId := do
  let slot ← localSlot footprint index
  let v ← modifyGet (·.newValue kind)
  Append.frameSite v ((← get).frameIndex slot)
  setLocal slot v
  return v

def copyLocals : Build Unit := modify fun s =>
  let (locals, frames) := s.frames.copyLocals s.locals
  { s with locals, frames }

def declareMissing : Build Unit := do
  copyLocals
  (List.range (← get).localFootprint).forM fun i => do
    let s ← get
    if (s.frames.locals s.locals)[i]?.join.isNone then discard (declareLocal 1 i .general)

/-- Starts an instruction. In the entry of a subroutine all locals have values, since other
callers may have more of them. -/
def startInstruction (ip : Nat) : Build Unit := do
  if ip ≥ (← get).codeLength then Build.invariant (.outsideMethod ip)
  if ((← get).instruction? ip).isSome then Build.invariant (.startedTwice ip)
  ensureEvent
  recordFrame
  let subroutine := (← get).subroutine
  modify fun s =>
    let entry : Instruction := { stack := s.stack, locals := s.locals, subroutine }
    { s with
      subroutine := none
      ip := ip
      instructions := s.instructions.modify (ip + 1) fun _ => some entry }
  if subroutine.isSome then declareMissing
  visitRoots ip

def instructionAddress (ip : Nat) : Build PromiseId := modifyGet (·.createPromise (.machineIp ip))

def captureState : Build ForkId := do
  ensureEvent
  let saved := (← get).saved
  modify fun s => { s with saved := [] }
  let s ← get
  let values := if s.predecessor.isSome then s.frames.values s.stack s.locals ++ saved else []
  let forks ← values.mapM fun v => do
    let r ← modifyGet fun s =>
      let (r, reads) := s.reads.fork v
      (r, { s with reads })
    linkRead none v r
    return (v, r)
  modifyGet fun s =>
    let f : ForkId := ⟨s.forks.size⟩
    let state : Fork := ⟨s.stack, s.locals, saved, s.predecessor, s.ip, forks⟩
    (f, { s with
      forks := s.forks.push state
      fork := if s.predecessor.isSome then some f else s.fork })

def restoreState (f : ForkId) : Build Unit := do
  ensureEvent
  modify fun s =>
    let d := s.forkAt f
    let s := { s with
      stack := d.stack, locals := d.locals, predecessor := d.predecessor, ip := d.ip }
    if d.predecessor.isNone then s
    else d.forks.foldl (fun s (v, r) =>
      { s with reads := s.reads.openPath r }.modifyValue v fun d => { d with lastRead := some r })
      { s with fork := some f }

def saveState : Build ForkId := do
  let f ← captureState
  restoreState f
  return f

def startSubroutine : Build SubroutineId := modifyGet fun s =>
  let r : SubroutineId := ⟨s.subroutines.size⟩
  (r, { s with subroutines := s.subroutines.push none, subroutine := some r })

def returnFromSubroutine (r : SubroutineId) (address : ValueId) : Build Unit := do
  Append.saveLocals
  Append.jump { op := .jump, address, exit := false, cleanLocals := true }
  let f ← captureState
  modify fun s => { s with subroutines := s.subroutines.modify r.index fun _ => some f }

def linkSubroutine (r : SubroutineId) : Build Unit := do
  match (← get).subroutines.getD r.index none with
  | some f => restoreState f
  | none => Build.invariant .subroutineOpen

end Lowering.Method
