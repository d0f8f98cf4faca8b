import Lowering.Flow
import Lowering.Consumption
/-!
Agreement between the paths into a merge.

All events that lead to a common successor share a table with one site for each frame slot. The
event compiled first fills the table, with sites its values have if it can; the others bring
their values to the sites in the table. Sites stay frozen until the event is done.
-/
namespace Lowering

namespace State

def tableEntry (s : State) (j : JunctionId) (slot : Nat) : Option Site :=
  ((s.junction j)[slot]?).join

def tableMask (s : State) : SiteMask :=
  ⟨KindSet.ofList [.register, .memory], s.machine.general, .any⟩

def successorsOf (s : State) (e : EventId) : List EventId :=
  (s.event e).successors.map fun l => (s.link l).successor

def predecessorsOf (s : State) (e : EventId) : List EventId :=
  (s.event e).predecessors.map fun l => (s.link l).predecessor

/-- Gives the predecessors of an event the table, unless they have one. The answer is what comes
after those that got it. -/
def shareBefore (s : State) (j : JunctionId) (e : EventId) : List EventId × State :=
  (s.predecessorsOf e).foldl (fun (next, s) p =>
    if (s.event p).junction.isNone then
      (next ++ s.successorsOf p, s.modifyEvent p fun d => { d with junction := some j })
    else (next, s)) ([], s)

def share (j : JunctionId) : Nat → List EventId → State → State
  | 0, _, s => s
  | _, [], s => s
  | fuel + 1, e :: rest, s =>
    let (next, s) := s.shareBefore j e
    share j fuel (next ++ rest) s

def openTable (s : State) (e : EventId) : State :=
  match (s.successorsOf e).reverse.find? fun f => (s.event f).predecessors.length > 1 with
  | none => s
  | some merge =>
    let j : JunctionId := ⟨s.junctions.size⟩
    let size := s.frames.footprint (s.event e).stackAfter
    let s := { s with junctions := s.junctions.push (List.replicate size none) }
    share j (s.links.size + 1) [merge] s

def slotsAfter (s : State) (e : EventId) : List FrameElement :=
  s.frames.elements (s.event e).stackAfter (s.event e).finalLocals

def valuesAfter (s : State) (e : EventId) : List (ValueId × Nat) :=
  s.frames.occupied (s.event e).stackAfter (s.event e).finalLocals

end State

def hold (i : SiteId) : Build SiteId := do
  modify (·.freezeSite i)
  return i

structure Conformed where
  frozen : List SiteId := []
  complete : Bool := true

/-- Brings the value of a slot to the agreed site. A slot without a live value is emptied. -/
def conformSlot (j : JunctionId) (c : Conformed) (slot : FrameElement) : Build Conformed := do
  let alive ← match slot.value with
    | some v => live v
    | none => pure false
  let s ← get
  match (if alive then slot.value else none), s.tableEntry j slot.slot with
  | some v, some site =>
    let r ← probe v (site.mask s.geometry)
    let i ← hold (← settle r true s.settings.resolveReserve)
    return { c with frozen := c.frozen ++ [i] }
  | some _, none => return { c with complete := false }
  | none, some site =>
    let v ← modifyGet (·.newValue .general)
    let i ← modifyGet (·.newSite site.copy)
    place v i
    modify (·.removeSite v i)
    return { c with frozen := c.frozen ++ [← hold i] }
  | none, none => return c

def isSettled (j : JunctionId) : List FrameElement → Build Bool
  | [] => return true
  | slot :: rest => do
    match slot.value, (← get).tableEntry j slot.slot with
    | some v, some site =>
      let alive ← live v
      let s ← get
      let held := (s.placements v).any fun o =>
        (s.site o.site).satisfies s.geometry (site.mask s.geometry)
      if alive && !held then return false else isSettled j rest
    | _, _ => isSettled j rest

/-- Brings the values after `e` to the agreed sites, in at most `fuel` of `bound` passes. -/
def conformWithin (e : EventId) (j : JunctionId) (slots : List FrameElement) (bound : Nat) :
    Nat → Build Conformed
  | 0 => throw (.fixedPoint bound (.junction e))
  | fuel + 1 => do
    let c ← slots.foldlM (conformSlot j) {}
    if ← isSettled j slots then
      modify (·.count (·.countJunction (bound - fuel)))
      return c
    else
      modify (·.thawSites c.frozen)
      conformWithin e j slots bound fuel

def conform (e : EventId) (j : JunctionId) : Build Conformed := do
  let slots := (← get).slotsAfter e
  let bound := slots.length + 1
  conformWithin e j slots bound bound

structure Commitment where
  table : List (Option Site)
  frozen : List SiteId := []
  complete : Bool := true

namespace Commitment

def isOpen (c : Commitment) (slot : Nat) : Bool := c.table[slot]? == some none

def fill (c : Commitment) (slot : Nat) (i : SiteId) (site : Site) : Commitment :=
  { c with table := c.table.set slot (some site.copy), frozen := c.frozen ++ [i] }

end Commitment

def commitHeld (c : Commitment) (slot : ValueId × Nat) : Build Commitment := do
  match ← modifyGet (·.liveRead? slot.1) with
  | none => return c
  | some r =>
    if !c.isOpen slot.2 then return c
    let mask := (← get).tableMask
    match ← modifyGet (·.chooseSource r
      { mask, strict := true, aliases := false, acceptance := .lasting }) with
    | some (i, _) => return c.fill slot.2 (← hold i) ((← get).site i)
    | none => return { c with complete := false }

def commitMoved (c : Commitment) (slot : ValueId × Nat) : Build Commitment := do
  match ← modifyGet (·.liveRead? slot.1) with
  | none => return c
  | some r =>
    if !c.isOpen slot.2 then return c
    let s ← get
    let i ← match ← modifyGet (·.chooseSource r
        { mask := s.tableMask, strict := false, acceptance := .lasting }) with
      | some (i, _) => pure i
      | none => do relocate (← probe slot.1 s.tableMask) false s.settings.resolveReserve
    return c.fill slot.2 (← hold i) ((← get).site i)

def commit (e : EventId) (table : List (Option Site)) : Build Commitment := do
  let slots := (← get).valuesAfter e
  let c ← slots.foldlM commitHeld { table }
  if c.complete then return c else slots.foldlM commitMoved c

def settleJunction (e : EventId) : Build (List SiteId) := do
  let c ← match ((← get).event e).junction with
    | some j => conform e j
    | none => do
      modify (·.openTable e)
      pure { complete := false }
  let s ← get
  match (s.event e).junction with
  | some j =>
    if c.complete then return c.frozen
    let filled ← commit e (s.junction j)
    modify fun s => { s with junctions := s.junctions.modify j.index fun _ => filled.table }
    return c.frozen ++ filled.frozen
  | none => return c.frozen

/-- At a fork without a table, gives every live value one site that all paths start from. -/
def settleFork (e : EventId) : Build (List SiteId) := do
  let s ← get
  let d := s.event e
  if d.successors.length > 1 && d.junction.isNone then
    let c ← commit e (List.replicate (s.frames.footprint d.stackAfter) none)
    return c.frozen
  else return []

/-- Settles the sites that the successors of `e` rely on. The answer is what it froze. -/
def settleTables (e : EventId) : Build (List SiteId) := do
  let atMerge ← settleJunction e
  return atMerge ++ (← settleFork e)

/-- Keeps the values of the current frame alive over a link to an instruction started before. -/
def plantStubs (l : LinkId) : Build Unit := do
  let s ← get
  let empty := List.replicate (s.frames.footprint s.stack) none
  let stubs ← (s.frames.occupied s.stack s.locals).foldlM (fun stubs (v, slot) => do
    let r ← modifyGet fun s =>
      let (r, reads) := s.reads.stub v
      (r, { s with reads })
    linkRead none v r
    return stubs.set slot (some (v, r))) empty
  modify fun s => { s with links := s.links.modify l.index fun d => { d with stubs } }

namespace State

def aimStub (stubs : List (Option (ValueId × ReadId))) (s : State) (slot : ValueId × Nat) :
    State :=
  match stubs[slot.2]?.join with
  | none => s
  | some (_, stub) =>
    if (s.reads.stubTarget? stub).isSome then s
    else
      let (read, s) := s.liveRead? slot.1
      match read with
      | some r => { s with reads := s.reads.aimStub stub r }
      | none => s

/-- Points the stubs of a link at the reads they stand for. Those that stand for none become
invalid. -/
def aimStubs (s : State) (l : LinkId) : State :=
  let stubs := (s.link l).stubs
  let s := (s.frames.occupied s.stack s.locals).foldl (aimStub stubs) s
  stubs.reduceOption.foldl (fun s (_, stub) =>
    if (s.reads.stubTarget? stub).isSome then s
    else { s with reads := s.reads.invalidateStub stub }) s

def takePaths (s : State) (f : ForkId) : State :=
  (s.forkAt f).forks.foldl (fun s (v, r) =>
    let (next, reads) := s.reads.takePath r
    let s := { s with reads }.modifyValue v fun d => { d with reads := next }
    let (alive, s) := s.isLive v
    if alive then s else s.clearSites v) s

end State

def followLink (l : LinkId) : Build Unit := do
  modify fun s => match (s.link l).fork with
    | some f => s.takePaths f
    | none => s
  ((← get).link l).stubs.reduceOption.forM fun (v, stub) => do
    if ((← get).value v).reads == some stub then consumeRead none v

end Lowering
