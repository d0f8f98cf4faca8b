import Lowering.FrameMap.RootMap
import Lowering.Error
/-!
The root log: what the front end says about references while it builds a method.

The log lists, in order, which instruction is reached, which slot becomes a reference or stops
being one, where calls leave a trace, and where nested contexts, exception handlers and
subroutines begin and end. Beside the entries it keeps the maps found so far: one per
instruction, one per trace, and one of each for every path, a chain of subroutine calls.
-/
namespace Lowering

structure RegionId where
  index : Nat
  deriving DecidableEq, Repr, Inhabited

structure CallSiteId where
  index : Nat
  deriving DecidableEq, Repr, Inhabited

structure PathId where
  index : Nat
  deriving DecidableEq, Repr, Inhabited

inductive LogEntry where
  | pushContext
  | popContext
  | visit (ip : Nat)
  | mark (slot : Nat)
  | clear (slot : Nat)
  | pushHandler (start stop : Nat)
  | trace (t : TraceId)
  | pushSubroutine (call : CallSiteId) (resume : Nat)
  | popSubroutine
  deriving DecidableEq, Repr

structure PathTrace where
  path : PathId
  map : RootMap
  watched : Bool
  deriving DecidableEq, Repr

structure Trace where
  ip : Nat
  map : RootMap
  watched : Bool
  address : Option (PromiseId × Nat)
  paths : List PathTrace
  deriving DecidableEq, Repr

instance : Inhabited Trace := ⟨⟨0, default, false, none, []⟩⟩

structure Region where
  ip : Nat
  body : Nat
  outer : Option RegionId
  calls : List CallSiteId
  stackIndex : Nat
  deriving DecidableEq, Repr, Inhabited

structure CallSite where
  region : RegionId
  returnAddress : PromiseId
  paths : List PathId
  deriving DecidableEq, Repr, Inhabited

structure CallPath where
  call : CallSiteId
  outer : Option PathId
  maps : Array RootMap
  deriving Repr, Inhabited

structure RootLog where
  mapSize : Nat
  visits : Array Nat
  entries : Array LogEntry := #[]
  traces : Array Trace := #[]
  regions : Array Region := #[]
  regionAt : Array (Option RegionId)
  calls : Array CallSite := #[]
  paths : Array CallPath := #[]
  maps : Array RootMap
  current : Option RegionId := none
  deriving Repr

structure OpenSubroutine where
  entry : Nat
  region : RegionId
  deriving DecidableEq, Repr

namespace RootLog

def new (codeLength mapSize : Nat) : RootLog where
  mapSize
  visits := Array.replicate codeLength 0
  regionAt := Array.replicate codeLength none
  maps := Array.replicate codeLength (RootMap.full mapSize)

def add (l : RootLog) (e : LogEntry) : RootLog := { l with entries := l.entries.push e }

def visitCount (l : RootLog) (ip : Nat) : Nat := l.visits.getD ip 0

def maxVisits : Nat := 65535

def visit (l : RootLog) (ip : Nat) : Except Error (Bool × RootLog) :=
  if ip < l.visits.size then
    let first := l.visitCount ip == 0
    let l := { l with visits := l.visits.modify ip fun n => min (n + 1) maxVisits }
    let l := if first then { l with regionAt := l.regionAt.modify ip fun _ => l.current } else l
    .ok (first, l.add (.visit ip))
  else .error (.invariant (.outsideMethod ip))

def trace (l : RootLog) (ip : Nat) : TraceId × RootLog :=
  let t : TraceId := ⟨l.traces.size⟩
  let l := { l with traces := l.traces.push ⟨ip, RootMap.empty l.mapSize, false, none, []⟩ }
  (t, l.add (.trace t))

def traceAt (l : RootLog) (t : TraceId) : Trace := l.traces.getD t.index default

def attach (l : RootLog) (t : TraceId) (address : PromiseId) (argument : Nat) : RootLog :=
  { l with traces := l.traces.modify t.index fun d =>
      { d with address := d.address <|> some (address, argument) } }

def regionFor (l : RootLog) (ip : Nat) : RegionId × RootLog :=
  match l.regions.findIdx? (·.ip == ip) with
  | some i => (⟨i⟩, l)
  | none =>
    (⟨l.regions.size⟩,
      { l with regions := l.regions.push ⟨ip, l.entries.size + 1, l.current, [], 0⟩ })

def startSubroutine (l : RootLog) (ip : Nat) (returnAddress : PromiseId) :
    OpenSubroutine × RootLog :=
  let (region, l) := l.regionFor ip
  let call : CallSiteId := ⟨l.calls.size⟩
  let entry := l.entries.size
  let l := { l with
    current := some region
    calls := l.calls.push ⟨region, returnAddress, []⟩
    regions := l.regions.modify region.index fun r => { r with calls := r.calls ++ [call] } }
  (⟨entry, region⟩, l.add (.pushSubroutine call 0))

def setReturnSlot (l : RootLog) (slot : Nat) : RootLog :=
  match l.current with
  | some region =>
    { l with regions := l.regions.modify region.index fun r => { r with stackIndex := slot } }
  | none => l

def endSubroutine (l : RootLog) (sub : OpenSubroutine) : RootLog :=
  let l := l.add .popSubroutine
  let resume := l.entries.size
  { l with
    entries := l.entries.modify sub.entry fun
      | .pushSubroutine call _ => .pushSubroutine call resume
      | e => e
    current := (l.regions.getD sub.region.index default).outer }

end RootLog

end Lowering
