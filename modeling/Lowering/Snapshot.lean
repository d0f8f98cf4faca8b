import Lowering.Junction
/-!
Entering an event: where values are on this path.

A merge starts with the sites of its table. A path of a fork starts with the sites and rings that
the values had when the fork was compiled, whatever happened on the other paths since.
-/
namespace Lowering

namespace State

def snapshotsOf (s : State) (v : ValueId) : List Snapshot :=
  (s.ring v).map fun m =>
    let d := s.value m
    ⟨m, d.next, d.sites.map fun i => (s.site i).copy⟩

/-- Records where the values are that the paths after a fork may see. -/
def captureSnapshots (s : State) (e : EventId) : State :=
  let d := s.event e
  if d.successors.length ≤ 1 then s
  else
    let saved := match d.successors.getLast?.bind fun l => (s.link l).fork with
      | some f => (s.forkAt f).saved
      | none => []
    let values := s.frames.values d.stackAfter d.finalLocals ++ saved
    s.modifyEvent e fun d => { d with snapshots := d.snapshots ++ values.flatMap s.snapshotsOf }

def vacateResources : Nat → State → State
  | 0, s => s
  | fuel + 1, s =>
    match s.resources.owned.head? with
    | none => s
    | some (id, o) =>
      vacateResources fuel ((s.clearSites o.value).modifyResources (·.setOwner id none))

def vacateFrame (s : State) (e : EventId) : State :=
  let d := s.event e
  let s := (s.frames.values d.stackBefore d.localsBefore).foldl clearSites s
  vacateResources s.resources.owned.length s

def isolateFrame (s : State) : State := (s.frames.values s.stack s.locals).foldl isolate s

def restoreRings (s : State) (snapshots : List Snapshot) : State :=
  let s := snapshots.foldl (fun s n => (s.leaveRing n.value).2) s
  snapshots.foldl (fun s n => s.modifyValue n.value fun d => { d with next := n.next }) s

end State

def placeAt (v : ValueId) (site : Site) : Build Unit := do
  place v (← modifyGet (·.newSite site))

/-- Starts a merge: every live value is exactly where the table says. -/
def adoptTable (e : EventId) (j : JunctionId) : Build Unit := do
  modify (·.vacateFrame e)
  let s ← get
  let d := s.event e
  (s.frames.occupied d.stackBefore d.localsBefore).forM fun (v, slot) => do
    match (← get).tableEntry j slot with
    | none => pure ()
    | some site => if ← live v then placeAt v site.copy

def restoreSites (n : Snapshot) : Build Unit := do
  let alive ← live n.value
  if alive && !n.sites.isEmpty && ((← get).value n.value).sites.isEmpty then
    n.sites.reverse.forM fun site => placeAt n.value site.copy

/-- Starts a path of a fork: rings and sites are what they were at the fork. -/
def restoreSnapshots (e : EventId) (snapshots : List Snapshot) : Build Unit := do
  modify fun s => (s.restoreRings snapshots).vacateFrame e
  snapshots.reverse.forM restoreSites

/-- Chooses the site for each of the reads. Every site is frozen while the later ones are
chosen. -/
def chooseSources : List ReadId → Build Unit
  | [] => pure ()
  | r :: rest => do
    let source ← readSource? r
    modify fun s => s.modifyValue (s.reads.value r) fun d => { d with source }
    match source with
    | some i => whileFrozen i (chooseSources rest)
    | none => chooseSources rest

def enter (e : EventId) : Build Unit := do
  match ((← get).event e).predecessors with
  | [] => pure ()
  | oldest :: later =>
    followLink oldest
    let s ← get
    let first := s.event (s.link (later.getLastD oldest)).predecessor
    if later.isEmpty then
      if first.successors.length > 1 then restoreSnapshots e first.snapshots
    else
      modify (later.foldl State.aimStubs)
      match first.junction with
      | some j => adoptTable e j
      | none => pure ()
      modify (·.isolateFrame)

end Lowering
