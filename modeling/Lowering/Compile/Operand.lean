import Lowering.Snapshot
/-!
The operands of the event being compiled, and where its result goes.
-/
namespace Lowering

def sourceOf (v : ValueId) : Build SiteId := do
  match ((← get).value v).source with
  | some i => return i
  | none => Build.invariant (.noSource v)

def sourceOperand (v : ValueId) : Build Operand := do operandOf (← sourceOf v)

def sourceMask (v : ValueId) : Build OperandMask := do
  let i ← sourceOf v
  return ((← get).site i).operandMask

def registerOf (i : SiteId) (fault : InvariantFault) : Build Register := do
  match ((← get).site i).number? with
  | some r => return r
  | none => Build.invariant fault

/-- The site for the result of an operation on `v`: that of `v` if the result may overwrite it,
otherwise a new one. The site is returned frozen and nobody has it. -/
def resultSite (v result : ValueId) (mask : SiteMask) : Build SiteId := do
  let next ← followingRead? v
  let source ← sourceOf v
  let s ← get
  let site := s.site source
  if site.satisfies s.geometry mask && (next.isNone || site.isOnlyMatch s.geometry mask) then
    match next with
    | some next =>
      -- the operand is needed later and would be lost
      if s.isLastSite v source then discard (whileFrozen source (relocate next false 0))
    | none => pure ()
    modify fun s => (s.removeSite v source).freezeSite source
    return source
  else
    let i ← whileFrozen source do
      let r ← probe result mask
      let i ← chooseSite r true 0 none
      place result i
      return i
    modify fun s => (s.removeSite result i).freezeSite i
    return i

def deliver (result : ValueId) (i : SiteId) : Build Unit := do
  modify (·.thawSite i)
  if ← live result then place result i

end Lowering
