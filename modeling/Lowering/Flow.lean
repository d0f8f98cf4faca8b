import Lowering.State
/-!
The list of events and the links between them.
-/
namespace Lowering

def createEvent (kind : EventKind) : Build EventId := modifyGet fun s =>
  (⟨s.events.size⟩, { s with
    events := s.events.push { kind, stackBefore := s.stack, localsBefore := s.locals, ip := s.ip } })

def State.newLink (s : State) (predecessor successor : EventId) (fork : Option ForkId) :
    LinkId × State :=
  let l : LinkId := ⟨s.links.size⟩
  let s := { s with links := s.links.push { predecessor, successor, fork } }
  let s := s.modifyEvent successor fun d => { d with predecessors := d.predecessors ++ [l] }
  (l, s.modifyEvent predecessor fun d => { d with successors := d.successors ++ [l] })

def linkEvent (e : EventId) : Build Unit := do
  modify fun s => match s.lastEvent with
    | some last => s.modifyEvent last fun d => { d with following := some e }
    | none => { s with firstEvent := some e }
  modify fun s => { s with lastEvent := some e }
  modify fun s => match s.predecessor with
    | some p => (s.newLink p e s.fork).2
    | none => s
  modify fun s => { s with fork := none, predecessor := some e }
  modifyInstruction ((← get).event e).ip fun i =>
    { i with firstEvent := i.firstEvent.or (some e), lastEvent := some e }

def appendDummy : Build Unit := do
  let stack := (← get).stack
  let locals := (← get).locals
  let entry ← instructionAt (← get).ip
  modify fun s => { s with stack := entry.stack, locals := entry.locals }
  Build.ensuring (do linkEvent (← createEvent .dummy)) fun s => { s with stack, locals }

def ensureEvent : Build Unit := do
  if (← instructionAt (← get).ip).lastEvent.isNone then appendDummy

/-- Appends an event. The first event of an instruction has to see the frame in which the
instruction starts. -/
def appendEvent (e : EventId) : Build Unit := do
  let entry ← instructionAt (← get).ip
  let s ← get
  if entry.firstEvent.isNone && (s.stack != entry.stack || s.locals != entry.locals) then
    appendDummy
  linkEvent e

namespace State

/-- Whether no control falls into an event: every predecessor leaves the method. Undecided if the
predecessors are nested deeper than `fuel`. -/
def unreachableWithin (s : State) : Nat → EventId → Option Bool
  | 0, _ => none
  | fuel + 1, e =>
    let links := (s.event e).predecessors
    if links.isEmpty then some false
    else links.allM fun l =>
      let p := (s.link l).predecessor
      match (s.event p).kind with
      | .call c => some c.tail
      | .jump j => if j.exit then some true else unreachableWithin s fuel p
      | _ => some false

end State

def unreachable (e : EventId) : Build Bool := do
  let s ← get
  match s.unreachableWithin (s.events.size + 1) e with
  | some b => return b
  | none => Build.invariant (.predecessorDepth e)

end Lowering
