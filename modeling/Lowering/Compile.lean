import Lowering.Compile.Move
import Lowering.Compile.Arithmetic
import Lowering.Compile.Control
/-!
Compiling a method: one pass over its events in the order they were appended.

Before an event the values are brought to where they are on the path into it and a site is chosen
for every read. What the successors rely on is settled after the event, or before it if it is a
branch.
-/
namespace Lowering.Compile

def event (e : EventId) : Build Unit := do
  match ((← get).event e).kind with
  | .call c => call e c
  | .leave _ => leave e
  | .move m => move e m
  | .combine c => combine e c
  | .convert t => convert e t
  | .branch b => branch e b
  | .jump j => jump e j
  | .memory m => memory e m
  | .boundsCheck b => boundsCheck e b
  | .barrier op => emit (.nullary op)
  | .frameSite v index => do
    if ← live v then placeAt v (.frame (← get).geometry index)
  | .join v copy => do
    modify (·.joinRing v copy)
    consumeRead (some e) v
  | .saveLocals => consumeReads e
  | .dummy => pure ()

def bindStart (e : EventId) : Build Unit := do
  let ip := ((← get).event e).ip
  if ip < 0 then return
  if (← instructionAt ip).bound then return
  modifyInstruction ip fun i => { i with bound := true }
  bind (.ip ip.toNat)

/-- Settles the tables of the successors and runs `act` while their sites are frozen. The sites
of forks are recorded at the end. -/
def withTables (e : EventId) (act : Build Unit) : Build Unit := do
  let frozen ← settleTables e
  Build.ensuring act fun s => (s.captureSnapshots e).thawSites frozen

def begin (e : EventId) : Build Unit := do
  modify fun s =>
    let d := s.event e
    { s with stack := d.stackBefore, locals := d.localsBefore }
  bindStart e

/-- Chooses a site for every read of an event. The tables of the successors of a branch are settled first. -/
def supply (e : EventId) : Build Unit := do
  let d := (← get).event e
  if d.kind.isBranch && !d.successors.isEmpty then withTables e (chooseSources d.reads)
  else chooseSources d.reads

def approach (e : EventId) : Build Unit := do
  begin e
  enter e
  supply e

def conclude (e : EventId) : Build Unit := do
  let d := (← get).event e
  if !d.kind.isBranch && !d.successors.isEmpty then withTables e (pure ())

def lower (e : EventId) : Build Unit := do
  approach e
  event e
  conclude e

def revisit (e : EventId) : Build Unit := do
  let revisits := ((← get).event e).revisits
  modify fun s => s.modifyEvent e fun d => { d with revisits := [] }
  revisits.forM followLink

def one (e : EventId) : Build Unit := do
  lower e
  revisit e
  modify fun s => s.count (·.countEvent (s.event e).kind.name)

def claimRegisterValues : Build Unit := do
  let owners := (← get).registerValues
  modify fun s => { s with registerValues := [] }
  owners.forM fun o => do
    if ← live o.value then
      if ((← get).value o.value).sites.contains o.site then acquire o.value o.site

/-- Emits what comes before the first event. With a handler the stack limit is checked first. -/
def prologue (handler : Option Int) (limitOffset : Nat) : Build Unit := do
  ensureEvent
  match handler with
  | some h => emit (.stackCheck h limitOffset)
  | none => pure ()
  emit (.allocateFrame (← get).frameSize)
  claimRegisterValues

def eventsFrom (s : State) : Nat → Option EventId → List EventId
  | 0, _ => []
  | _, none => []
  | fuel + 1, some e => e :: eventsFrom s fuel (s.event e).following

def method (handler : Option Int) (limitOffset : Nat) : Build Unit := do
  prologue handler limitOffset
  let s ← get
  (eventsFrom s s.events.size s.firstEvent).forM one

end Lowering.Compile
