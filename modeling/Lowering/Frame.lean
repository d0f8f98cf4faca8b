import Lowering.Id
/-!
Abstract frames: what the operand stack and the locals of the method hold.

Stack nodes are never changed and share their tails, so one node stands for a whole stack.
Locals are whole arrays that are copied before they are changed.
-/
namespace Lowering

structure StackNode where
  index : Nat
  value : Option ValueId
  next : Option StackId
  deriving DecidableEq, Repr

instance : Inhabited StackNode := ⟨⟨0, none, none⟩⟩

structure FrameElement where
  value : Option ValueId
  slot : Nat
  deriving DecidableEq, Repr

structure FrameTable where
  nodes : Array StackNode := #[]
  arrays : Array (List (Option ValueId)) := #[]
  localCount : Nat := 0
  deriving Repr

namespace FrameTable

def newLocals (t : FrameTable) (slots : List (Option ValueId)) : LocalsId × FrameTable :=
  (⟨t.arrays.size⟩, { t with arrays := t.arrays.push slots })

def init (t : FrameTable) (count : Nat) : LocalsId × FrameTable :=
  { t with localCount := count }.newLocals (List.replicate count none)

def node (t : FrameTable) (s : StackId) : StackNode := t.nodes.getD s.index default

def depth (t : FrameTable) : Option StackId → Nat
  | none => 0
  | some s => (t.node s).index + 1

def push (t : FrameTable) (value : Option ValueId) (next : Option StackId) :
    StackId × FrameTable :=
  (⟨t.nodes.size⟩, { t with nodes := t.nodes.push ⟨t.depth next, value, next⟩ })

def locals (t : FrameTable) (l : LocalsId) : List (Option ValueId) := t.arrays.getD l.index []

def copyLocals (t : FrameTable) (l : LocalsId) : LocalsId × FrameTable :=
  t.newLocals (t.locals l)

def setLocal (t : FrameTable) (l : LocalsId) (index : Nat) (value : Option ValueId) :
    FrameTable :=
  { t with arrays := t.arrays.modify l.index fun slots => slots.set index value }

def footprint (t : FrameTable) (stack : Option StackId) : Nat :=
  t.localCount + t.depth stack

def walk (t : FrameTable) : Nat → Option StackId → List StackNode
  | 0, _ => []
  | _, none => []
  | fuel + 1, some s => t.node s :: walk t fuel (t.node s).next

def stackNodes (t : FrameTable) (stack : Option StackId) : List StackNode :=
  t.walk (t.depth stack) stack

/-- The slots of a frame: the stack from the top down, then the locals from the last to the
first. -/
def elements (t : FrameTable) (stack : Option StackId) (l : LocalsId) : List FrameElement :=
  (t.stackNodes stack).map (fun n => ⟨n.value, n.index + t.localCount⟩)
    ++ ((t.locals l).zipIdx.map (fun (v, i) => ⟨v, i⟩)).reverse

def occupied (t : FrameTable) (stack : Option StackId) (l : LocalsId) :
    List (ValueId × Nat) :=
  (t.elements stack l).filterMap fun e => e.value.map (·, e.slot)

def values (t : FrameTable) (stack : Option StackId) (l : LocalsId) : List ValueId :=
  (t.occupied stack l).map (·.1)

end FrameTable

end Lowering
