import Lowering.State
/-!
Rings of aliases.

A value is live while a read of any of its aliases is still to come, and a site of one of them is
a site of all. Asking whether a read is still to come drops the dead paths of forks, so the
questions about liveness change the state.
-/
namespace Lowering.State

def ringFrom (s : State) (v : ValueId) : Nat → ValueId → List ValueId
  | 0, _ => []
  | fuel + 1, p => if p == v then [] else p :: ringFrom s v fuel (s.value p).next

def ring (s : State) (v : ValueId) : List ValueId :=
  v :: s.ringFrom v s.values.size (s.value v).next

def areAliases (s : State) (a b : ValueId) : Bool := a == b || (s.ring a).contains b

def ownPlacements (s : State) (v : ValueId) : List Owner := (s.value v).sites.map (⟨v, ·⟩)

def placements (s : State) (v : ValueId) : List Owner := (s.ring v).flatMap s.ownPlacements

def hasSite (s : State) (v : ValueId) : Bool := (s.ring v).any fun m => (s.value m).sites != []

def isLastSite (s : State) (v : ValueId) (i : SiteId) : Bool :=
  (s.placements v).map (·.site) == [i]

def isHome (s : State) (v : ValueId) (slot : Nat) : Bool :=
  (s.ring v).any fun m => (s.value m).home == some slot

def constant? (s : State) (v : ValueId) : Option PromiseId :=
  (s.placements v).findSome? fun o => match s.site o.site with
    | .constant p => some p
    | _ => none

def knownNumber? (s : State) (v : ValueId) : Option Int :=
  (s.constant? v).bind s.promises.value?

def isPending (s : State) (r : Option ReadId) : Bool × State :=
  match r with
  | none => (false, s)
  | some r =>
    let (pending, reads) := s.reads.valid r
    (pending, { s with reads })

def firstPending (s : State) : List ValueId → Option ReadId × State
  | [] => (none, s)
  | v :: rest =>
    let read := (s.value v).reads
    let (pending, s) := s.isPending read
    if pending then (read, s) else firstPending s rest

def liveRead? (s : State) (v : ValueId) : Option ReadId × State := s.firstPending (s.ring v)

def isLive (s : State) (v : ValueId) : Bool × State :=
  let (read, s) := s.liveRead? v
  (read.isSome, s)

def beforeFrom (s : State) (v : ValueId) : Nat → ValueId → ValueId
  | 0, p => p
  | fuel + 1, p => if (s.value p).next == v then p else beforeFrom s v fuel (s.value p).next

def leaveRing (s : State) (v : ValueId) : ValueId × State :=
  let next := (s.value v).next
  if next == v then (v, s)
  else
    let s := s.modifyValue v fun d => { d with next := v }
    let last := s.beforeFrom v s.values.size next
    (next, s.modifyValue last fun d => { d with next })

def joinRing (s : State) (v copy : ValueId) : State :=
  let s := s.modifyValue copy fun d => { d with next := v }
  let last := s.beforeFrom v s.values.size v
  s.modifyValue last fun d => { d with next := copy }

end Lowering.State

namespace Lowering

def live (v : ValueId) : Build Bool := modifyGet (·.isLive v)

def followingRead? (v : ValueId) : Build (Option ReadId) := do
  let s ← get
  let aliases := (s.ring v).tail
  match (s.value v).reads with
  | none => modifyGet (·.firstPending aliases)
  | some current =>
    match s.reads.next current with
    | .error e => throw e
    | .ok next =>
      if ← modifyGet (·.isPending next) then return next
      else modifyGet (·.firstPending aliases)

end Lowering
