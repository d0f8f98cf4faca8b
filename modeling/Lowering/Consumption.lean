import Lowering.Relocation
/-!
Linking reads to values and consuming them.

Once a read is consumed, a value that has no further reads leaves its ring and its sites go to
the aliases that do. If nobody reads them any more the sites are given up.
-/
namespace Lowering

def linkRead (e : Option EventId) (v : ValueId) (r : ReadId) : Build Unit := do
  match e with
  | some e => modify fun s =>
      { s with reads := s.reads.setEvent r e }.modifyEvent e fun d =>
        { d with reads := d.reads ++ [r] }
  | none => pure ()
  let s ← get
  match (s.value v).lastRead with
  | some last =>
    let (error, reads) := s.reads.append last r
    set { s with reads }
    match error with
    | some e => throw e
    | none => pure ()
  | none => set (s.modifyValue v fun d => { d with reads := some r })
  modify (·.modifyValue v fun d => { d with lastRead := some r })

def demand (e : EventId) (v : ValueId) (mask : SiteMask) (successor : Option ValueId) :
    Build Unit := do
  let r ← modifyGet fun s =>
    let (r, reads) := s.reads.single v mask successor
    (r, { s with reads })
  linkRead (some e) v r

def bequeath (v : ValueId) : Build Unit := do
  let heir ← modifyGet (·.leaveRing v)
  let sites := ((← get).value v).sites
  modify (·.modifyValue v fun d => { d with sites := [] })
  sites.reverse.forM fun i => do
    modify (·.release i)
    acquire heir i
    modify (·.modifyValue heir fun d => { d with sites := i :: d.sites })

def consumeRead (e : Option EventId) (v : ValueId) : Build Unit := do
  let s ← get
  match (s.value v).reads with
  | none => Build.invariant (.noRead v e)
  | some head =>
    let owner := (s.reads.get head).event
    if owner != e then Build.invariant (.foreignRead head v owner e)
    match s.reads.next head with
    | .error err => throw err
    | .ok next =>
      modify (·.modifyValue v fun d => { d with reads := next })
      if !(← modifyGet (·.isPending next)) then
        if ← live v then bequeath v else modify (·.clearSites v)

def consumeReads (e : EventId) : Build Unit := do
  ((← get).event e).reads.forM fun r => do consumeRead (some e) ((← get).reads.value r)

end Lowering
