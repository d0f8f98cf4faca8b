import Lowering.Aliases
/-!
Sites and the resources they stand for.

A register site stands for its register and a word on the stack for its frame slot. Other memory
words only refer to the registers of their address.
-/
namespace Lowering.State

def slotResource? (s : State) : Site → Option ResourceId
  | .memory m _ =>
    if m.base == s.geometry.stack then some (.slot (s.geometry.index m.offset)) else none
  | _ => none

def modifyResources (s : State) (f : ResourceTable → ResourceTable) : State :=
  { s with resources := f s.resources }

def referTo (s : State) (m : MemoryRef) : State :=
  s.modifyResources fun t => m.registers.foldl (fun t r => t.refer (.register r)) t

def unreferTo (s : State) (m : MemoryRef) : State :=
  s.modifyResources fun t => m.registers.foldl (fun t r => t.unrefer (.register r)) t

def freezeSite (s : State) (i : SiteId) : State :=
  match s.site i with
  | .register _ (some n) => s.modifyResources (·.freeze (.register n))
  | .memory m acquired =>
    match s.slotResource? (.memory m acquired) with
    | some slot => s.modifyResources (·.freeze slot)
    | none => s.referTo m
  | _ => s

def thawSite (s : State) (i : SiteId) : State :=
  match s.site i with
  | .register _ (some n) => s.modifyResources (·.thaw (.register n))
  | .memory m acquired =>
    match s.slotResource? (.memory m acquired) with
    | some slot => s.modifyResources (·.thaw slot)
    | none => s.unreferTo m
  | _ => s

def thawSites (s : State) (sites : List SiteId) : State := sites.foldr (fun i s => s.thawSite i) s

def isFrozen (s : State) (i : SiteId) : Bool :=
  match s.site i with
  | .register _ (some n) => (s.resources.get (.register n)).freezes > 0
  | .memory m acquired =>
    match s.slotResource? (.memory m acquired) with
    | some slot => (s.resources.get slot).freezes > 0
    | none => false
  | _ => false

def disown (s : State) (id : ResourceId) (i : SiteId) : State :=
  let r := s.resources.get id
  if !r.reserved && r.owner.map (·.site) == some i then
    s.modifyResources (·.setOwner id none)
  else s

def release (s : State) (i : SiteId) : State :=
  match s.site i with
  | .register _ (some n) => s.disown (.register n) i
  | .memory m true =>
    let s := match s.slotResource? (.memory m true) with
      | some slot => s.disown slot i
      | none => s
    (s.unreferTo m).setSite i (.memory m false)
  | _ => s

def detach (s : State) (o : Owner) : State :=
  (s.release o.site).modifyValue o.value fun d =>
    { d with sites := d.sites.filter (· != o.site) }

def removeSite (s : State) (v : ValueId) (i : SiteId) : State :=
  match (s.placements v).find? (·.site == i) with
  | some o => s.detach o
  | none => s

def clearSites (s : State) (v : ValueId) : State := (s.placements v).foldl detach s

def cleanValue (s : State) (v : ValueId) (popIndex : Nat) : State :=
  ((s.placements v).filter fun o =>
    match (s.site o.site).slot? s.geometry with
    | some i => i < popIndex
    | none => true).foldl detach s

/-- Takes `v` out of its ring. Whichever side is not live loses its sites. -/
def isolate (s : State) (v : ValueId) : State :=
  if (s.value v).next == v then s
  else
    let (other, s) := s.leaveRing v
    let (alive, s) := s.isLive other
    let s := if alive then s else s.clearSites other
    let (alive, s) := s.isLive v
    if alive then s else s.clearSites v

end Lowering.State

namespace Lowering

def whileFrozen {α : Type} (i : SiteId) (act : Build α) : Build α := do
  modify (·.freezeSite i)
  Build.ensuring act (·.thawSite i)

end Lowering
