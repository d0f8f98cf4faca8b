import Lowering.FrameMap.Log
import Lowering.Settings
/-!
Solving a root log.

The log is replayed with a running map. An instruction that is reached more than once keeps a
map that every arrival is intersected with; a handler starts from what all traces of its range
have in common; a subroutine body is replayed for every chain of calls that leads to it. A map
that was used before it shrank makes the solution stale, and the replay is repeated until none
is.
-/
namespace Lowering

structure Replay where
  log : RootLog
  stale : Bool := false

namespace Replay

def mapAt (r : Replay) (path : Option PathId) (ip : Nat) : RootMap :=
  match path with
  | some p => (r.log.paths.getD p.index default).maps.getD ip default
  | none => r.log.maps.getD ip default

def setMap (r : Replay) (path : Option PathId) (ip : Nat) (m : RootMap) : Replay :=
  match path with
  | some p => { r with log := { r.log with
      paths := r.log.paths.modify p.index fun d =>
        { d with maps := d.maps.modify ip fun _ => m } } }
  | none => { r with log := { r.log with maps := r.log.maps.modify ip fun _ => m } }

/-- Arrival at `ip` with `roots`; the answer is the map to go on with. `last` says that nothing
follows in this context, so a change would go unseen in this pass. -/
def arrive (r : Replay) (path : Option PathId) (ip : Nat) (roots : RootMap) (last : Bool) :
    RootMap × Replay :=
  if r.log.visitCount ip > 1 then
    let old := r.mapAt path ip
    let met := old.inter roots
    let r := r.setMap path ip met
    (roots.inter met, { r with stale := r.stale || (met != old && last) })
  else (roots, r.setMap path ip roots)

def handlerRoots (r : Replay) (path : Option PathId) (start stop : Nat) : RootMap × Replay :=
  let inRange (t : Trace) : Bool := start ≤ t.ip && t.ip < stop
  match path with
  | none =>
    let roots := r.log.traces.foldl
      (fun m t => if inRange t then m.inter t.map else m) (RootMap.full r.log.mapSize)
    (roots, { r with log := { r.log with
      traces := r.log.traces.map fun t => if inRange t then { t with watched := true } else t } })
  | some p =>
    let roots := r.log.traces.foldl
      (fun m t =>
        if inRange t then
          match t.paths.find? (·.path == p) with
          | some q => m.inter q.map
          | none => m
        else m)
      (RootMap.full r.log.mapSize)
    (roots, { r with log := { r.log with
      traces := r.log.traces.map fun t =>
        if inRange t then
          { t with paths := t.paths.map fun q =>
              if q.path == p then { q with watched := true } else q }
        else t } })

def pathFor (r : Replay) (call : CallSiteId) (outer : Option PathId) : PathId × Replay :=
  let known := (r.log.calls.getD call.index default).paths
  match known.find? fun p => (r.log.paths.getD p.index default).outer == outer with
  | some p => (p, r)
  | none =>
    let p : PathId := ⟨r.log.paths.size⟩
    let maps := Array.replicate r.log.maps.size (RootMap.full r.log.mapSize)
    (p, { r with log := { r.log with
      paths := r.log.paths.push ⟨call, outer, maps⟩
      calls := r.log.calls.modify call.index fun c => { c with paths := c.paths ++ [p] } } })

def setPathMap (p : PathId) (roots : RootMap) : List PathTrace → List PathTrace × Bool
  | [] => ([⟨p, roots, false⟩], false)
  | q :: rest =>
    if q.path = p then ({ q with map := roots } :: rest, q.watched && q.map != roots)
    else
      let (rest, changed) := setPathMap p roots rest
      (q :: rest, changed)

def recordTrace (r : Replay) (t : TraceId) (path : Option PathId) (roots : RootMap) : Replay :=
  let d := r.log.traceAt t
  let (d', changed) := match path with
    | none => ({ d with map := roots }, d.watched && d.map != roots)
    | some p =>
      let (paths, changed) := setPathMap p roots d.paths
      ({ d with paths }, changed)
  { r with
    log := { r.log with traces := r.log.traces.modify t.index fun _ => d' }
    stale := r.stale || changed }

structure Outcome where
  replay : Replay
  leaving : RootMap
  next : Option Nat

def close (r : Replay) (roots : RootMap) (reached : Bool) (leaving : RootMap)
    (next : Option Nat) : Outcome :=
  ⟨r, if reached then roots else leaving, next⟩

def run : Nat → Replay → RootMap → Nat → Option PathId → Bool → RootMap → Outcome
  | 0, r, roots, index, _, reached, leaving => r.close roots reached leaving (some index)
  | fuel + 1, r, roots, index, path, reached, leaving =>
    match r.log.entries[index]? with
    | none => r.close roots reached leaving (some r.log.entries.size)
    | some .pushContext =>
      let o := run fuel r roots (index + 1) path false leaving
      match o.next with
      | some i => run fuel o.replay roots i path reached o.leaving
      | none => o.replay.close roots reached o.leaving none
    | some .popContext => r.close roots reached leaving (some (index + 1))
    | some (.visit ip) =>
      let last := match r.log.entries[index + 1]? with
        | none => true
        | some e => e == .popContext
      let (roots, r) := r.arrive path ip roots last
      run fuel r roots (index + 1) path true leaving
    | some (.mark slot) => run fuel r (roots.mark slot) (index + 1) path reached leaving
    | some (.clear slot) => run fuel r (roots.clear slot) (index + 1) path reached leaving
    | some (.pushHandler start stop) =>
      let handle (acc : Replay × Nat) (p : Option PathId) : Replay × Nat :=
        let (roots, r) := acc.1.handlerRoots p start stop
        let o := run fuel r roots (index + 1) p false roots
        (o.replay, o.next.getD acc.2)
      let (r, next) := match r.log.regionAt.getD start none with
        | some region =>
          let calls := (r.log.regions.getD region.index default).calls
          let paths := calls.flatMap fun c => (r.log.calls.getD c.index default).paths
          paths.foldl (fun acc p => handle acc (some p)) (r, index + 1)
        | none => handle (r, index + 1) none
      run fuel r roots next path reached leaving
    | some (.trace t) =>
      run fuel (r.recordTrace t path roots) roots (index + 1) path reached leaving
    | some (.pushSubroutine call resume) =>
      let (inner, r) := r.pathFor call path
      let region := (r.log.calls.getD call.index default).region
      let body := (r.log.regions.getD region.index default).body
      let o := run fuel r roots body (some inner) false (RootMap.full r.log.mapSize)
      run fuel o.replay (roots.inter o.leaving) resume path reached leaving
    | some .popSubroutine => r.close roots reached leaving none

end Replay

namespace RootLog

def replayFuel (l : RootLog) : Nat := (l.entries.size + 2) * (l.regions.size + 2)

def pass (l : RootLog) : Replay :=
  (Replay.run l.replayFuel { log := l } (RootMap.empty l.mapSize) 0 none false
    (RootMap.empty l.mapSize)).replay

def passBound (l : RootLog) (s : Settings) : Nat :=
  let pathTraces := l.traces.foldl (fun n t => n + t.paths.length) 0
  let maps := l.maps.size * (1 + l.paths.size)
  let bound := 1 + l.mapSize * (maps + l.traces.size + pathTraces)
  match s.maxFrameMapPasses with
  | some cap => min bound cap
  | none => bound

def passFuel (l : RootLog) : Nat :=
  let chains := Nat.pow (l.calls.size + 1) (l.regions.size + 1)
  2 + l.mapSize * (l.maps.size + l.traces.size) * (1 + chains)

def solveFrom (s : Settings) : Nat → Nat → RootLog → Except Error Nat × RootLog
  | 0, passes, l => (.error (.fixedPoint passes (.frameMaps l.traces.size l.mapSize)), l)
  | fuel + 1, passes, l =>
    let r := l.pass
    if !r.stale then (.ok (passes + 1), r.log)
    else
      let bound := r.log.passBound s
      if passes + 1 ≥ bound then
        (.error (.fixedPoint bound (.frameMaps r.log.traces.size r.log.mapSize)), r.log)
      else solveFrom s fuel (passes + 1) r.log

/-- Solves the log and answers the number of passes. The maps found on the way stay also when
the solution does not settle. -/
def solve (l : RootLog) (s : Settings) : Except Error Nat × RootLog :=
  solveFrom s l.passFuel 0 l

end RootLog

end Lowering
