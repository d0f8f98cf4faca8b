import Lowering.Compile.Operand
/-!
Compiling calls, returns, branches and checks.
-/
namespace Lowering.Compile

def callOperation (c : CallEvent) : Unary :=
  match c.tail, c.flags.long, c.flags.aligned with
  | true, true, true => .alignedLongJump
  | true, true, false => .longJump
  | true, false, true => .alignedJump
  | true, false, false => .jump
  | false, true, true => .alignedLongCall
  | false, true, false => .longCall
  | false, false, true => .alignedCall
  | false, false, false => .call

def bind (t : CodeTarget) : Build Unit := emit (.bind t)

def holdSurrogate (v : Option ValueId) : Build (Option Register) := do
  match v with
  | none => return none
  | some v =>
    let i ← sourceOf v
    let r ← registerOf i (.surrogate v)
    discard (hold i)
    return some r

def thawSurrogate (v : Option ValueId) : Build Unit := do
  match v with
  | none => pure ()
  | some v =>
    let i ← sourceOf v
    modify (·.thawSite i)

def dropFrame (c : CallEvent) : Build Unit := do
  let returnAddress ← holdSurrogate c.returnAddress
  let framePointer ← holdSurrogate c.framePointer
  let s ← get
  let offset : Int := s.machine.argumentFootprint c.argumentFootprint
    - s.machine.argumentFootprint s.parameterFootprint
  emit (.popFrame s.frameSize offset returnAddress framePointer)

def traceCall (c : CallEvent) : Build Unit := do
  match c.trace with
  | none => pure ()
  | some trace =>
    let p ← modifyGet (·.createPromise .code)
    bind (.promise p)
    modify fun s => { s with
      tracedCalls := s.tracedCalls ++ [⟨trace, p, c.argumentIndex⟩] }

/-- Callees take their stack arguments off if there are tail calls; the frame gets them back. -/
def restoreArguments (c : CallEvent) : Build Unit := do
  let s ← get
  let words := s.machine.argumentFootprint c.argumentFootprint
  if s.settings.tailCalls && words > s.machine.stackAlignment then
    emit (.adjustFrame (words - s.machine.stackAlignment))

def cleanFrame (e : EventId) (popIndex : Nat) : Build Unit := do
  modify fun s =>
    let d := s.event e
    (s.frames.values d.stackBefore d.localsBefore).foldl (fun s v => s.cleanValue v popIndex) s
  consumeReads e

def call (e : EventId) (c : CallEvent) : Build Unit := do
  if c.tail then dropFrame c
  emit (.unary (callOperation c) wordSize (← sourceOperand c.address))
  traceCall c
  if c.tail then
    thawSurrogate c.returnAddress
    thawSurrogate c.framePointer
  else restoreArguments c
  cleanFrame e c.popIndex
  if c.resultSize > 0 then
    if ← live c.result then placeAt c.result (.ofRegister (← get).machine.result)

def leave (e : EventId) : Build Unit := do
  consumeReads e
  if !(← unreachable e) then
    let s ← get
    emit (.leave s.frameSize (s.machine.argumentFootprint s.parameterFootprint))

def decided? (s : State) (b : BranchEvent) : Option Bool := do
  let first ← s.knownNumber? b.first
  let second ← s.knownNumber? b.second
  b.op.taken? b.size first second

def compareAndBranch (b : BranchEvent) : Build Unit := do
  let first ← sourceOf b.first
  let second ← sourceOf b.second
  let address ← sourceOf b.address
  whileFrozen first (whileFrozen second (whileFrozen address do
    let x ← operandOf first
    let y ← operandOf second
    let target ← operandOf address
    emit (.ternary b.op b.size x b.size y wordSize target)))

def branch (e : EventId) (b : BranchEvent) : Build Unit := do
  if !(← unreachable e) then
    match decided? (← get) b with
    | some true => do emit (.unary .jump wordSize (← sourceOperand b.address))
    | some false => pure ()
    | none => compareAndBranch b
  consumeReads e

def jump (e : EventId) (j : JumpEvent) : Build Unit := do
  if !(← unreachable e) then
    emit (.unary j.op wordSize (← sourceOperand j.address))
  consumeReads e
  if j.cleanLocals then
    modify fun s => (s.frames.values none s.locals).foldl (fun s v => s.cleanValue v 0) s

def checkSign (index : ValueId) : Build PromiseId := do
  let p ← modifyGet (·.createPromise .code)
  let a ← sourceOperand index
  emit (.ternary .jumpIfLess 4 (.immediate 0) 4 a wordSize (.label (.promise p)))
  return p

def checkLength (b : BoundsCheckEvent) (negative : Option PromiseId) : Build Unit := do
  let base ← registerOf (← sourceOf b.object) (.checkedObject b.object)
  let length : Operand := .memory { base, offset := signed 32 b.lengthOffset }
  let next ← modifyGet (·.createPromise .code)
  let index ← sourceOf b.index
  whileFrozen index do
    let a ← operandOf index
    emit (.ternary .jumpIfGreater 4 a 4 length wordSize (.label (.promise next)))
  match negative with
  | some p => bind (.promise p)
  | none => pure ()
  emit (.unary .call wordSize (.immediate b.handler))
  bind (.promise next)

def boundsCheck (e : EventId) (b : BoundsCheckEvent) : Build Unit := do
  match (← get).knownNumber? b.index with
  | some index =>
    if index < 0 then emit (.unary .call wordSize (.immediate b.handler))
    else checkLength b none
  | none => do
    let negative ← checkSign b.index
    checkLength b (some negative)
  consumeRead (some e) b.object
  consumeRead (some e) b.index

end Lowering.Compile
