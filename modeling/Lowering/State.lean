import Lowering.Value
import Lowering.Event
import Lowering.Read
import Lowering.Resource
import Lowering.Frame
import Lowering.Statistics
import Lowering.Settings
import Lowering.Description
import Lowering.Emitter
import Lowering.FrameMap.Log
/-!
Everything that is known about the method being compiled.

The state is a set of tables indexed by handles, the abstract frame that the next event will see,
and the emitter. An operation that fails leaves behind what it did before it failed.
-/
namespace Lowering

/-- The address of the helper for an operation with operands and a result of given sizes. -/
abbrev HelperAddress := Operation → Nat → Nat → Int

structure TracedCall where
  trace : TraceId
  address : PromiseId
  argumentIndex : Nat
  deriving DecidableEq, Repr

structure State where
  machine : Description
  settings : Settings
  helpers : Option HelperAddress := none
  emitter : Emitter
  statistics : Statistics := {}
  values : Array Value := #[]
  sites : Array Site := #[]
  reads : ReadTable := {}
  events : Array Event := #[]
  links : Array Link := #[]
  frames : FrameTable := {}
  forks : Array Fork := #[]
  subroutines : Array (Option ForkId) := #[]
  junctions : Array (List (Option Site)) := #[]
  instructions : Array (Option Instruction) := #[]
  promises : PromiseTable := {}
  resources : ResourceTable
  geometry : FrameGeometry
  stack : Option StackId := none
  locals : LocalsId := ⟨0⟩
  saved : List ValueId := []
  predecessor : Option EventId := none
  firstEvent : Option EventId := none
  lastEvent : Option EventId := none
  fork : Option ForkId := none
  subroutine : Option SubroutineId := none
  ip : Int := -1
  codeLength : Nat := 0
  parameterFootprint : Nat := 0
  localFootprint : Nat := 0
  frameSize : Nat := 0
  pool : List PromiseId := []
  tracedCalls : List TracedCall := []
  registerValues : List Owner := []
  roots : RootLog := .new 0 0

abbrev Build := EStateM Error State

namespace Build

def ensuring {α : Type} (act : Build α) (after : State → State) : Build α := fun s =>
  match act s with
  | .ok a s => .ok a (after s)
  | .error e s => .error e (after s)

def invariant {α : Type} (f : InvariantFault) : Build α := throw (.invariant f)

def invalid {α : Type} (f : OperandFault) : Build α := throw (.invalidOperand f)

end Build

namespace State

def empty (machine : Description) (settings : Settings) (emitter : Emitter) : State :=
  let (locals, frames) := FrameTable.init {} 0
  { machine, settings, emitter, frames, locals
    resources := .ofRegisters machine.registerCount machine.general machine.reserved
    geometry := ⟨machine.stack, machine.footer⟩ }

/-! Frame arithmetic. -/

/-- Words from the stack pointer to the end of the incoming arguments. -/
def totalFrameSize (s : State) : Nat :=
  s.frameSize + s.machine.header + s.machine.argumentFootprint s.parameterFootprint

def frameBase (s : State) : Nat :=
  s.frameSize + s.machine.header - s.machine.returnAddressSize - s.machine.footer

/-- The frame slot of logical slot `index`. Parameters lie beyond the frame header. -/
def frameIndex (s : State) (index : Nat) : Nat :=
  let raw : Int := s.frameSize + s.parameterFootprint - index - 1
  unsigned 32 (if index < s.parameterFootprint then raw + s.machine.header
    else raw - s.machine.footer)

def reservedSlots (s : State) : List Nat :=
  let at_ (offset : Int) : Nat := unsigned 32 (s.frameBase + offset)
  at_ s.machine.returnAddressOffset
    :: if s.settings.framePointer then [at_ s.machine.framePointerOffset] else []

def start (s : State) (codeLength parameterFootprint localFootprint frameSize : Nat) : State :=
  let s := { s with codeLength, parameterFootprint, localFootprint, frameSize }
  let (locals, frames) := s.frames.init localFootprint
  { s with
    resources := s.resources.setFrame s.totalFrameSize s.reservedSlots
    frames, locals
    stack := none
    instructions := #[some { stack := none, locals }] ++ Array.replicate codeLength none
    ip := -1
    roots := .new codeLength localFootprint }

/-! Tables. -/

def value (s : State) (v : ValueId) : Value := s.values.getD v.index default

def modifyValue (s : State) (v : ValueId) (f : Value → Value) : State :=
  { s with values := s.values.modify v.index f }

def newValue (s : State) (kind : ValueKind) : ValueId × State :=
  let v : ValueId := ⟨s.values.size⟩
  (v, { s with values := s.values.push { kind, next := v } })

def site (s : State) (i : SiteId) : Site := s.sites.getD i.index default

def setSite (s : State) (i : SiteId) (site : Site) : State :=
  { s with sites := s.sites.modify i.index fun _ => site }

def newSite (s : State) (site : Site) : SiteId × State :=
  (⟨s.sites.size⟩, { s with sites := s.sites.push site })

def newValueAt (s : State) (kind : ValueKind) (site : Site) : ValueId × State :=
  let (v, s) := s.newValue kind
  let (i, s) := s.newSite site
  let s := s.modifyValue v fun d => { d with sites := d.sites ++ [i] }
  (v, match site with
    | .register _ _ => { s with registerValues := s.registerValues ++ [⟨v, i⟩] }
    | _ => s)

def event (s : State) (e : EventId) : Event := s.events.getD e.index default

def modifyEvent (s : State) (e : EventId) (f : Event → Event) : State :=
  { s with events := s.events.modify e.index f }

def link (s : State) (l : LinkId) : Link := s.links.getD l.index default

def forkAt (s : State) (f : ForkId) : Fork := s.forks.getD f.index default

def junction (s : State) (j : JunctionId) : List (Option Site) := s.junctions.getD j.index []

def createPromise (s : State) (kind : PromiseKind) : PromiseId × State :=
  let (p, promises) := s.promises.create kind
  (p, { s with promises })

def instruction? (s : State) (ip : Int) : Option Instruction :=
  if ip < -1 then none else s.instructions.getD (ip + 1).toNat none

def count (s : State) (f : Statistics → Statistics) : State :=
  { s with statistics := f s.statistics }

end State

def instructionAt (ip : Int) : Build Instruction := do
  match (← get).instruction? ip with
  | some i => return i
  | none => Build.invariant (.notStarted ip)

def modifyInstruction (ip : Int) (f : Instruction → Instruction) : Build Unit := do
  discard (instructionAt ip)
  modify fun s => { s with
    instructions := s.instructions.modify (ip + 1).toNat fun i => i.map f }

end Lowering
