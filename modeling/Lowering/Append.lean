import Lowering.Flow
import Lowering.Consumption
/-!
Appending operations.

Every operation becomes an event with a read for each operand, whose mask says where the machine
can take it. An operation that the machine cannot do becomes a call of its runtime helper.
-/
namespace Lowering

namespace State

def generalMask (s : State) : SiteMask :=
  ⟨OperandKind.register.bit, s.machine.general, .none⟩

def generalOrConstantMask (s : State) : SiteMask :=
  ⟨KindSet.ofList [.register, .constant], s.machine.general, .none⟩

end State

namespace Append

def operation (kind : EventKind) (reads : EventId → Build Unit) : Build Unit := do
  let e ← createEvent kind
  reads e
  appendEvent e

def demandLocals (e : EventId) : Build Unit := do
  let s ← get
  (s.frames.locals (s.event e).localsBefore).zipIdx.forM fun (v, i) =>
    match v with
    | some v => do demand e v (.slot ((← get).frameIndex i)) none
    | none => pure ()

/-- Words on top of a stack as arguments, the first argument first, and the stack below them. The
value of a two-word argument goes to the lower of its slots. -/
def argumentWords (t : FrameTable) :
    Nat → Option StackId → Option (List (Option ValueId) × Option StackId)
  | 0, below => some ([], below)
  | _ + 1, none => none
  | 1, some top => some ([(t.node top).value], (t.node top).next)
  | n + 2, some top =>
    let node := t.node top
    let below := node.next.map t.node
    if node.value.isNone || below.any (·.value.isNone) then
      (argumentWords t n (below.bind (·.next))).map fun (words, rest) =>
        (words ++ [node.value, below.bind (·.value)], rest)
    else
      (argumentWords t (n + 1) node.next).map fun (words, rest) => (words ++ [node.value], rest)

def updateCall (e : EventId) (f : CallEvent → CallEvent) : Build Unit :=
  modify fun s => s.modifyEvent e fun d => match d.kind with
    | .call c => { d with kind := .call (f c) }
    | _ => d

/-- Pins the explicit arguments: first to the argument registers, then to the lowest slots. The
answer is what is left of the general registers. -/
def demandArguments (e : EventId) (arguments : List ValueId) : Build RegisterSet := do
  let machine := (← get).machine
  let count := machine.argumentRegisters.length
  arguments.zipIdx.forM fun (v, i) =>
    demand e v (if i < count then .register (machine.argumentRegister i) else .slot (i - count)) none
  let taken := (List.range (min arguments.length count)).map machine.argumentRegister
  return taken.foldl (fun set r => set &&& ~~~ RegisterSet.single r) machine.general

/-- Pins one stack argument. With a tail call it goes where the caller's own arguments are; what
would lie on the return address or the saved frame pointer is kept in a register. -/
def demandStackArgument (e : EventId) (tail : Bool) (footprint : Nat) (v : ValueId) (i : Nat) :
    Build Unit := do
  let s ← get
  let machine := s.machine
  let index : Int := if tail then i + (s.totalFrameSize - machine.argumentFootprint footprint : Int)
    else i
  if tail && index == s.frameBase + machine.returnAddressOffset then
    updateCall e fun c => { c with returnAddress := some v }
    demand e v s.generalMask none
  else if tail && s.settings.framePointer && index == s.frameBase + machine.framePointerOffset then
    updateCall e fun c => { c with framePointer := some v }
    demand e v s.generalMask none
  else if fitsUnsigned 32 index then demand e v (.slot index.toNat) none
  else Build.invariant (.argumentSlot index)

def demandStackArguments (e : EventId) (tail : Bool) (footprint : Nat) :
    Build (Option StackId) := do
  let s ← get
  match argumentWords s.frames footprint (s.event e).stackBefore with
  | none => Build.invariant (.shallowStack footprint)
  | some (words, below) =>
    words.zipIdx.forM fun (v, i) =>
      match v with
      | some v => demandStackArgument e tail footprint v i
      | none => pure ()
    return below

def demandSurvivors (e : EventId) (footprint : Nat) (below : Option StackId) : Build Unit := do
  let s ← get
  let argumentIndex :=
    s.localFootprint + s.frames.depth (s.event e).stackBefore - footprint
  let popIndex : Int :=
    s.frameSize + s.parameterFootprint - s.machine.footer - argumentIndex
  if !fitsUnsigned 32 popIndex then Build.invariant (.popIndex popIndex e)
  updateCall e fun c => { c with argumentIndex, popIndex := popIndex.toNat }
  (s.frames.stackNodes below).forM fun node =>
    match node.value with
    | some v => do demand e v (.slot ((← get).frameIndex (node.index + s.localFootprint))) none
    | none => pure ()
  demandLocals e

/-- Appends a call. It has explicit arguments or words of the stack as arguments, not both. -/
def call (address : ValueId) (flags : CallFlags) (trace : Option TraceId) (result : ValueId)
    (resultSize : Nat) (arguments : List ValueId) (footprint : Nat) : Build Unit := do
  if !arguments.isEmpty && (flags.tailJump || footprint != 0) then Build.invalid .mixedArguments
  let tail := (← get).settings.tailCalls && flags.tailJump
  operation (.call { address, flags, trace, result, resultSize, argumentFootprint := footprint, tail })
    fun e => do
      let registers ← demandArguments e arguments
      let op : Unary := if flags.aligned then .alignedCall else .call
      let plan := (← get).machine.planUnary op wordSize
      demand e address ⟨plan.mask.kinds, plan.mask.registers &&& registers, .any⟩ none
      let below ← demandStackArguments e tail footprint
      if !tail then demandSurvivors e footprint below

def helperCall (op : Operation) (size resultSize : Nat) (arguments : List ValueId)
    (result : ValueId) : Build Unit := do
  match (← get).helpers with
  | none => Build.invalid (.helperMissing op)
  | some address =>
    modify (·.count (·.countThunk))
    let p ← modifyGet (·.createPromise (.resolved (address op size resultSize)))
    let callee ← modifyGet (·.newValueAt .general (.constant p))
    call callee {} none result resultSize arguments 0

def leave (value : Option ValueId) : Build Unit :=
  operation (.leave value) fun e =>
    match value with
    | some v => do demand e v (.register (← get).machine.result) none
    | none => pure ()

/-- Appends a move of the low bytes of a value. A move that drops nothing can leave its result
where the source is. -/
def move (m : MoveEvent) : Build Unit := do
  let plan := (← get).machine.planBinary m.op m.size m.dstSize
  if plan.helper then Build.invalid (.moveNotInline m.op m.size)
  operation (.move m) fun e =>
    demand e m.src (.ofOperand plan.a) (if m.size ≥ m.dstSize then some m.dst else none)

def combine (c : CombineEvent) : Build Unit := do
  let machine := (← get).machine
  let plan := machine.planTernary c.op c.firstSize c.secondSize c.resultSize
  if plan.helper then
    helperCall (.ternary c.op) c.firstSize c.resultSize [c.first, c.second] c.result
  else operation (.combine c) fun e => do
    demand e c.first (.ofOperand plan.a) none
    demand e c.second (.ofOperand plan.b)
      (if machine.condensesTernary c.op then some c.result else none)

def convert (t : ConvertEvent) : Build Unit := do
  let machine := (← get).machine
  let plan := machine.planBinary t.op t.valueSize t.resultSize
  if plan.helper then
    helperCall (.binary t.op) t.valueSize t.resultSize [t.value] t.result
  else operation (.convert t) fun e => do
    demand e t.value (.ofOperand plan.a)
      (if machine.condensesBinary t.op then some t.result else none)

def directBranch (b : BranchEvent) : Build Unit := do
  let machine := (← get).machine
  let plan := machine.planTernary b.op b.size b.size wordSize
  if plan.helper then Build.invalid (.noIntegerForm b.op)
  operation (.branch b) fun e => do
    demand e b.first (.ofOperand plan.a) none
    demand e b.second (.ofOperand plan.b) none
    let target := machine.planTernaryResult b.op b.size .any b.size .any wordSize
    demand e b.address (.ofOperand target) none

/-- Appends a branch. If the comparison needs a helper, its result is compared with zero. -/
def branch (b : BranchEvent) : Build Unit := do
  let plan := (← get).machine.planTernary b.op b.size b.size wordSize
  match plan.helper, b.op.integerForm? with
  | true, some compare =>
    let result ← modifyGet (·.newValue .general)
    helperCall (.ternary b.op) b.size 4 [b.first, b.second] result
    let p ← modifyGet (·.createPromise (.resolved 0))
    let zero ← modifyGet (·.newValueAt .general (.constant p))
    directBranch { op := compare, size := 4, first := zero, second := result, address := b.address }
  | _, _ => directBranch b

def jump (j : JumpEvent) : Build Unit := do
  let plan := (← get).machine.planUnary j.op wordSize
  if plan.helper then Build.invalid (.jumpNotInline j.op)
  operation (.jump j) fun e => demand e j.address (.ofOperand plan.mask) none

def memory (m : MemoryEvent) : Build Unit :=
  operation (.memory m) fun e => do
    demand e m.base (← get).generalMask none
    match m.index with
    | some index => demand e index (← get).generalOrConstantMask none
    | none => pure ()

def boundsCheck (b : BoundsCheckEvent) : Build Unit :=
  operation (.boundsCheck b) fun e => do
    demand e b.object (← get).generalMask none
    demand e b.index (← get).generalOrConstantMask none

def barrier (op : Nullary) : Build Unit := operation (.barrier op) fun _ => pure ()

def frameSite (v : ValueId) (index : Nat) : Build Unit :=
  operation (.frameSite v index) fun _ => pure ()

def join (v copy : ValueId) : Build Unit :=
  operation (.join v copy) fun e => demand e v .any (some copy)

def saveLocals : Build Unit := operation .saveLocals demandLocals

end Append

end Lowering
