import Lowering.Occupancy
/-!
Which register or frame slot a value should go to, and which of its sites it should be read from.

Every candidate has a price. Resources that are in use cannot be had, those of other values cost
more the more their owner would lose, and a value that no site can be copied from in one move
costs more everywhere. Register candidates are tried from the top for general registers and from
the bottom for float registers, and of equal prices the first wins.
-/
namespace Lowering

structure TargetCosts where
  register : Nat
  slot : Nat
  steal : Nat
  stealLast : Nat
  indirect : Nat
  scarce : Nat
  impossible : Nat

/-- A register is better than a slot, a free slot better than a steal, and scarcity outweighs
them all. -/
def targetCosts : TargetCosts :=
  { register := 0, slot := 1, steal := 2, stealLast := 4, indirect := 4, scarce := 10,
    impossible := 20 }

structure Target where
  resource : ResourceId
  cost : Nat
  deriving DecidableEq, Repr

namespace Target

def impossible : Target := ⟨.register 0, targetCosts.impossible⟩

def isImpossible (t : Target) : Bool := targetCosts.impossible ≤ t.cost

def cheaper (a b : Target) : Target := if b.cost < a.cost then b else a

def cheapest (ts : List Target) : Target := ts.foldl cheaper impossible

end Target

inductive Acceptance where
  | matching
  /-- Those that a junction can rely on: not frozen, a register only while enough are left, a
  frame slot only if it is a home of the value. -/
  | lasting
  deriving DecidableEq, Repr

namespace State

def moveCost (s : State) (v : ValueId) (dst : SiteMask) : Nat :=
  let source := SiteMask.ofOperand (s.machine.planMove wordSize ⟨dst.kinds, dst.registers⟩).source
  let direct := (s.placements v).any fun o =>
    (s.site o.site).satisfies s.geometry source || (s.site o.site).satisfies s.geometry dst
  if direct then 0 else targetCosts.indirect

def resourceCost (s : State) (v : Option ValueId) (id : ResourceId) (mask : SiteMask)
    (moved : Option ValueId) : Nat :=
  let r := s.resources.get id
  if r.isUnavailable then targetCosts.impossible
  else
    let base := moved.elim 0 (s.moveCost · mask)
    match r.owner with
    | none => base
    | some o =>
      if v.any (s.areAliases o.value) then base
      else if s.isLastSite o.value o.site then base + targetCosts.stealLast
      else base + targetCosts.steal

def registerTarget (s : State) (v : Option ValueId) (moved : Option ValueId) (r : Register) :
    Target :=
  ⟨.register r, s.resourceCost v (.register r) (.register r) moved + targetCosts.register⟩

def registerOrder (s : State) : List Register :=
  let all := List.range s.machine.registerCount
  all.reverse.filter (RegisterSet.has s.machine.general)
    ++ all.filter (RegisterSet.has s.machine.float)

def chooseRegister (s : State) (v : Option ValueId) (mask : RegisterSet)
    (moved : Option ValueId) : Target :=
  let candidates := s.registerOrder.filter (RegisterSet.has mask)
  match candidates.find? (RegisterSet.single · == mask) with
  | some r => s.registerTarget v moved r
  | none => .cheapest (candidates.map (s.registerTarget v moved))

def slotTarget (s : State) (v : ValueId) (moved : Option ValueId) (index : Nat) : Target :=
  ⟨.slot index,
    if index ≥ s.resources.slots.length then targetCosts.impossible
    else s.resourceCost (some v) (.slot index) (.slot index) moved + targetCosts.slot⟩

def chooseHome (s : State) (v : ValueId) (moved : Option ValueId) : Target :=
  .cheapest (((s.ring v).filterMap fun m => (s.value m).home).map (s.slotTarget v moved))

def chooseSlot (s : State) (v : ValueId) (moved : Option ValueId) : Target :=
  .cheapest ((List.range s.totalFrameSize).map (s.slotTarget v moved))

def chooseWithin (s : State) (v : ValueId) (mask : SiteMask) (penalty : Nat) (best : Target)
    (moved : Option ValueId) : Target :=
  let best := if mask.accepts .register then
      let t := s.chooseRegister (some v) mask.registers moved
      best.cheaper { t with cost := t.cost + penalty }
    else best
  if mask.accepts .memory then
    match mask.slots with
    | .only i => best.cheaper (s.slotTarget v moved i)
    | .any => best.cheaper (s.chooseHome v moved)
    | .none => best
  else best

def registersFor (s : State) : ValueKind → RegisterSet
  | .general => s.machine.general
  | .float => RegisterSet.all

/-- Narrows a mask by a read; the answer also says whether the read is still to come. -/
def narrow (s : State) (r : ReadId) (mask : SiteMask) : Bool × SiteMask × State :=
  let n := s.reads.narrow r mask 0
  (n.valid, n.mask, { s with reads := n.table })

def readMask (s : State) (v : ValueId) (r : ReadId) : SiteMask × State :=
  let kind := (s.value v).kind
  let (_, mask, s) := s.narrow r ⟨KindSet.all, s.registersFor kind, .any⟩
  let float := mask.registers &&& s.machine.float
  (if kind == .float && float != 0#64 then { mask with registers := float } else mask, s)

/-- The mask narrowed further by the next read of the value that takes the location over. -/
def successorMask? (s : State) (r : ReadId) (mask : SiteMask) : Option SiteMask × State :=
  match s.reads.successor? r with
  | none => (none, s)
  | some v =>
    let (next, s) := s.liveRead? v
    match next with
    | none => (none, s)
    | some next =>
      let (pending, mask, s) := s.narrow next mask
      (if pending then some mask else none, s)

end State

/-- Chooses where the value of a read should go. With `strict` the read must be satisfied there,
otherwise it is a preference. -/
def chooseTarget (r : ReadId) (strict : Bool) (reserve : Nat) (moved : Option ValueId) :
    Build Target := do
  let s ← get
  let v := s.reads.value r
  let registers := s.registersFor (s.value v).kind
  let penalty := if s.resources.available > reserve then 0 else targetCosts.scarce
  let mask ← modifyGet (·.readMask v r)
  let narrower ← modifyGet (·.successorMask? r mask)
  let s ← get
  let best := narrower.elim .impossible (s.chooseWithin v · penalty .impossible moved)
  if best.cost ≤ targetCosts.slot then return best
  let best := s.chooseWithin v mask penalty best moved
  if best.cost ≤ targetCosts.slot then return best
  if strict then
    if best.isImpossible then throw (.impossibleTarget (.noMatch v mask))
    return best
  let any := s.chooseRegister (some v) registers moved
  let best := best.cheaper { any with cost := any.cost + penalty }
  let best := best.cheaper (s.chooseHome v moved)
  let best :=
    -- a move from memory to memory needs a free register, so any free slot has to do
    if best.cost ≥ targetCosts.stealLast && s.resources.available == 0 then s.chooseSlot v moved
    else if best.cost ≥ targetCosts.steal then best.cheaper (s.chooseSlot v moved)
    else best
  if best.isImpossible then throw (.impossibleTarget (.nothingLeft v))
  return best

def Target.toSite (g : FrameGeometry) (t : Target) : Site :=
  match t.resource with
  | .register r => .ofRegister r
  | .slot i => .frame g i

def chooseSite (r : ReadId) (strict : Bool) (reserve : Nat) (moved : Option ValueId) :
    Build SiteId := do
  let t ← chooseTarget r strict reserve moved
  match t.resource with
  | .slot _ => modify (·.count (·.countSpill))
  | .register _ => pure ()
  modifyGet fun s => s.newSite (t.toSite s.geometry)

namespace State

def accepts (s : State) (a : Acceptance) (v : ValueId) (i : SiteId) : Bool :=
  match a with
  | .matching => true
  | .lasting =>
    !s.isFrozen i &&
      match s.site i with
      | .register _ _ => s.resources.available > s.settings.resolveReserve
      | other => (other.slot? s.geometry).any (s.isHome v)

def cheapestSource (costs : List (SiteId × Nat)) : Option (SiteId × Nat) :=
  costs.foldl (fun best c =>
    match best with
    | some b => if c.2 < b.2 then some c else some b
    | none => some c) none

structure SourceQuery where
  target : Option Site := none
  mask : SiteMask := .any
  strict : Bool
  aliases : Bool := true
  acceptance : Acceptance := .matching

def chooseSource (s : State) (r : ReadId) (q : SourceQuery) : Option (SiteId × Nat) × State :=
  let v := s.reads.value r
  let (mask, s) := if q.strict then (s.narrow r q.mask).2 else (q.mask, s)
  let held := if q.aliases then s.placements v else s.ownPlacements v
  let fit := held.filter fun o =>
    (s.site o.site).satisfies s.geometry mask && s.accepts q.acceptance v o.site
  (cheapestSource (fit.map fun o => (o.site, (s.site o.site).copyCost q.target)), s)

end State

end Lowering
