import Lowering.Emission
/-!
Placing values, and moving those that are in the way.

A value that is given a site takes its resource from the owner. If that was the last site of the
owner, the owner is first moved elsewhere, which can displace further values. Every displaced
site is frozen until its owner is settled, so no chain is longer than the number of resources.
-/
namespace Lowering

abbrev Evict := ResourceId → Option ValueId → Build Unit

def acquireResource (evict : Evict) (id : ResourceId) (o : Owner) : Build Unit := do
  let r := (← get).resources.get id
  if r.reserved then return
  if r.owner.isSome then evict id (some o.value)
  modify (·.modifyResources (·.setOwner id (some o)))

def settleRegister (v : ValueId) (mask : RegisterSet) : Option Register → Build Register
  | some n => return n
  | none => do
    let t := (← get).chooseRegister (some v) mask none
    match t.isImpossible, t.resource with
    | false, .register n => return n
    | _, _ => throw (.impossibleTarget (.noRegister mask v))

def acquireWith (evict : Evict) (v : ValueId) (i : SiteId) : Build Unit := do
  match (← get).site i with
  | .constant _ | .address _ => pure ()
  | .register mask number =>
    let n ← settleRegister v mask number
    acquireResource evict (.register n) ⟨v, i⟩
    modify (·.setSite i (.register mask (some n)))
  | .memory m acquired =>
    modify (·.referTo m)
    match (← get).slotResource? (.memory m acquired) with
    | some slot => acquireResource evict slot ⟨v, i⟩
    | none => pure ()
    modify (·.setSite i (.memory m true))

def placeWith (evict : Evict) (v : ValueId) (i : SiteId) : Build Unit := do
  if ((← get).value v).sites.contains i then return
  acquireWith evict v i
  modify (·.modifyValue v fun d => { d with sites := i :: d.sites })

namespace State

/-- The cost of a copy to `dst` from each site of a value. A site that cannot be copied from in
one move costs a penalty. -/
def copyCosts (s : State) (v : ValueId) (dst : Site) (source : SiteMask) : List (SiteId × Nat) :=
  (s.placements v).map fun o =>
    let site := s.site o.site
    let cost := site.copyCost (some dst)
    (o.site, if cost == 0 || site.satisfies s.geometry source then cost
      else cost + Lowering.copyCosts.penalty)

end State

def probe (v : ValueId) (mask : SiteMask) : Build ReadId := modifyGet fun s =>
  let (r, reads) := s.reads.single v mask (some v)
  (r, { s with reads })

/-- Copies a value to a temporary place, from where it can be moved on. -/
def stageWith (evict : Evict) (v : ValueId) (src : SiteId) (mask : OperandMask) :
    Build SiteId := do
  let read ← probe v (.ofOperand mask)
  let i ← chooseSite read true 0 none
  placeWith evict v i
  emitMove src i
  return i

/-- Makes sure that the value of a read has the site chosen for the read, and copies it there if
need be. -/
def relocateWith (evict : Evict) (r : ReadId) (strict : Bool) (reserve : Nat) :
    Build SiteId := do
  let v := (← get).reads.value r
  let dst ← chooseSite r strict reserve (some v)
  let s ← get
  let site := s.site dst
  let plan := s.machine.planMove wordSize site.operandMask
  let source := SiteMask.ofOperand plan.source
  match State.cheapestSource (s.copyCosts v site source) with
  | none => Build.invariant (.noSite v)
  | some (src, cost) =>
    if cost == 0 then return src
    whileFrozen src (placeWith evict v dst)
    let s ← get
    let src ← if (s.site src).satisfies s.geometry source then pure src
      else whileFrozen src (whileFrozen dst (stageWith evict v src plan.temporary))
    emitMove src dst
    return dst

def evictWithin : Nat → Evict
  | 0, _, _ => Build.invariant .relocationDepth
  | fuel + 1, id, thief => do
    let s ← get
    match (s.resources.get id).owner with
    | none => pure ()
    | some o =>
      modify (·.count (·.countSteal))
      if !thief.any (s.areAliases · o.value) && s.isLastSite o.value o.site then
        match ← modifyGet (·.liveRead? o.value) with
        | none => pure ()
        | some r =>
          let moved ← whileFrozen o.site
            (relocateWith (evictWithin fuel) r false s.settings.stealReserve)
          -- an operand that was to be read from the lost site is read from the new one
          modify fun s => s.modifyValue o.value fun d =>
            if d.source == some o.site then { d with source := some moved } else d
      modify (·.removeSite o.value o.site)

def State.displacementBound (s : State) : Nat :=
  2 * (s.resources.registers.length + s.resources.slots.length) + 2

def evict : Evict := fun id thief => do evictWithin (← get).displacementBound id thief

def acquire : ValueId → SiteId → Build Unit := acquireWith evict

def place : ValueId → SiteId → Build Unit := placeWith evict

/-- Makes sure that the value of a read has a site for the read, chosen anew. -/
def relocate : ReadId → Bool → Nat → Build SiteId := relocateWith evict

def settle (r : ReadId) (strict : Bool) (reserve : Nat) : Build SiteId := do
  match ← modifyGet (·.chooseSource r { strict }) with
  | some (i, _) => return i
  | none => relocate r strict reserve

def readSource? (r : ReadId) : Build (Option SiteId) := do
  let s ← get
  if s.hasSite (s.reads.value r) then some <$> settle r true 0 else return none

end Lowering
