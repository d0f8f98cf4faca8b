import Lowering.Operation
import Lowering.Site
/-!
Events: the operations of a method, in the order they are compiled.

An event remembers the abstract frame it was appended in and the reads it will consume. Links
between events are the control flow. A link made while a saved state was current carries it, so
that the path knows which forks to follow; a link to an instruction that was started before
carries the stubs that keep its values alive.
-/
namespace Lowering

structure CallFlags where
  aligned : Bool := false
  noReturn : Bool := false
  tailJump : Bool := false
  long : Bool := false
  deriving DecidableEq, Repr

structure CallEvent where
  address : ValueId
  flags : CallFlags
  trace : Option TraceId
  result : ValueId
  resultSize : Nat
  returnAddress : Option ValueId := none
  framePointer : Option ValueId := none
  popIndex : Nat := 0
  argumentIndex : Nat := 0
  argumentFootprint : Nat
  tail : Bool
  deriving DecidableEq, Repr

structure MoveEvent where
  op : Binary
  size : Nat
  src : ValueId
  dstSize : Nat
  dst : ValueId
  deriving DecidableEq, Repr

structure CombineEvent where
  op : Ternary
  firstSize : Nat
  first : ValueId
  secondSize : Nat
  second : ValueId
  resultSize : Nat
  result : ValueId
  deriving DecidableEq, Repr

structure ConvertEvent where
  op : Binary
  valueSize : Nat
  value : ValueId
  resultSize : Nat
  result : ValueId
  deriving DecidableEq, Repr

structure BranchEvent where
  op : Ternary
  size : Nat
  first : ValueId
  second : ValueId
  address : ValueId
  deriving DecidableEq, Repr

structure JumpEvent where
  op : Unary
  address : ValueId
  exit : Bool
  cleanLocals : Bool
  deriving DecidableEq, Repr

structure MemoryEvent where
  base : ValueId
  displacement : Int
  index : Option ValueId
  scale : Nat
  result : ValueId
  deriving DecidableEq, Repr

structure BoundsCheckEvent where
  object : ValueId
  lengthOffset : Nat
  index : ValueId
  handler : Int
  deriving DecidableEq, Repr

inductive EventKind where
  | call (c : CallEvent)
  | leave (value : Option ValueId)
  | move (m : MoveEvent)
  | combine (c : CombineEvent)
  | convert (t : ConvertEvent)
  | branch (b : BranchEvent)
  | jump (j : JumpEvent)
  | memory (m : MemoryEvent)
  | boundsCheck (b : BoundsCheckEvent)
  | barrier (op : Nullary)
  | frameSite (value : ValueId) (index : Nat)
  | join (value copy : ValueId)
  | saveLocals
  | dummy
  deriving DecidableEq, Repr

namespace EventKind

def name : EventKind → String
  | .call _ => "call"
  | .leave _ => "return"
  | .move _ => "move"
  | .combine _ => "combine"
  | .convert _ => "translate"
  | .branch _ => "branch"
  | .jump _ => "jump"
  | .memory _ => "memory"
  | .boundsCheck _ => "bounds-check"
  | .barrier _ => "barrier"
  | .frameSite _ _ => "frame-site"
  | .join _ _ => "buddy"
  | .saveLocals => "save-locals"
  | .dummy => "dummy"

def isBranch : EventKind → Bool
  | .branch _ | .jump _ => true
  | _ => false

end EventKind

structure Snapshot where
  value : ValueId
  next : ValueId
  sites : List Site
  deriving DecidableEq, Repr

structure Event where
  kind : EventKind
  stackBefore : Option StackId
  localsBefore : LocalsId
  ip : Int
  following : Option EventId := none
  stackAfter : Option StackId := none
  localsAfter : Option LocalsId := none
  reads : List ReadId := []
  junction : Option JunctionId := none
  snapshots : List Snapshot := []
  predecessors : List LinkId := []
  successors : List LinkId := []
  revisits : List LinkId := []
  deriving DecidableEq, Repr

instance : Inhabited Event := ⟨⟨.dummy, none, ⟨0⟩, 0, none, none, none, [], none, [], [], [], []⟩⟩

def Event.finalLocals (e : Event) : LocalsId := e.localsAfter.getD e.localsBefore

structure Link where
  predecessor : EventId
  successor : EventId
  fork : Option ForkId
  stubs : List (Option (ValueId × ReadId)) := []
  deriving DecidableEq, Repr, Inhabited

structure Fork where
  stack : Option StackId
  locals : LocalsId
  saved : List ValueId
  predecessor : Option EventId
  ip : Int
  forks : List (ValueId × ReadId)
  deriving DecidableEq, Repr, Inhabited

structure Instruction where
  stack : Option StackId
  locals : LocalsId
  firstEvent : Option EventId := none
  lastEvent : Option EventId := none
  subroutine : Option SubroutineId := none
  bound : Bool := false
  deriving DecidableEq, Repr

end Lowering
