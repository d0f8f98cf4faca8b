import Lowering.Method.Control
/-!
Making values: constants, registers, the operand stack and the locals.

A two-word value takes two slots and leaves one empty. On the stack that is the slot below it.
-/
namespace Lowering.Method

/-! Constants and the constant pool. -/

def poolPromise (p : PromiseId) : Build PromiseId := modifyGet fun s =>
  { s with pool := s.pool ++ [p] }.createPromise (.pool s.pool.length)

def poolWord (value : Int) : Build PromiseId := do
  poolPromise (← modifyGet (·.createPromise (.resolved value)))

def poolSize (s : State) : Nat := s.pool.length * wordSize

def promiseConstant (p : PromiseId) (kind : ValueKind) : Build ValueId :=
  modifyGet (·.newValueAt kind (.constant p))

def constant (value : Int) (kind : ValueKind) : Build ValueId := do
  promiseConstant (← modifyGet (·.createPromise (.resolved value))) kind

def address (p : PromiseId) : Build ValueId := modifyGet (·.newValueAt .general (.address p))

def register (r : Register) : Build ValueId := modifyGet fun s =>
  s.newValueAt (if RegisterSet.has s.machine.float r then .float else .general) (.ofRegister r)

/-! The operand stack. -/

def withoutHome (v : ValueId) : Build ValueId := do
  let d := (← get).value v
  if d.home.isNone then return v
  let copy ← modifyGet (·.newValue d.kind)
  Append.join v copy
  return copy

def stackSlot (s : State) (depth : Nat) : Nat := s.frameIndex (depth + s.localFootprint)

def pushValue (v : ValueId) : Build Unit := modify fun s =>
  let home := stackSlot s (s.frames.depth s.stack)
  let (stack, frames) := s.frames.push (some v) s.stack
  { s with stack := some stack, frames }.modifyValue v fun d => { d with home := some home }

def pushEmpty : Build Unit := modify fun s =>
  let (stack, frames) := s.frames.push none s.stack
  { s with stack := some stack, frames }

def pushSlot (kind : ValueKind) : Build ValueId := do
  let v ← modifyGet (·.newValue kind)
  pushValue v
  return v

def push (footprint : Nat) (v : ValueId) : Build Unit := do
  match footprint with
  | 1 => pure ()
  | 2 => pushEmpty
  | n => Build.invalid (.footprint n)
  pushValue (← withoutHome v)

def save (v : ValueId) : Build Unit := modify fun s => { s with saved := s.saved ++ [v] }

def top : Build StackNode := do
  let s ← get
  match s.stack with
  | some n => return s.frames.node n
  | none => Build.invariant .stackEmpty

def popWord : Build Unit := do
  let node ← top
  match node.value with
  | some v => if ((← get).value v).home.isNone then Build.invariant (.noHome v)
  | none => pure ()
  modify fun s => { s with stack := node.next }

def popped : Nat → Build Unit
  | 0 => pure ()
  | words + 1 => do
    popWord
    popped words

def pop (footprint : Nat) : Build ValueId := do
  let node ← top
  popped (max footprint 1)
  match node.value with
  | some v => return v
  | none => Build.invariant .emptySlot

def pushed : Build ValueId := do
  let v ← modifyGet (·.newValue .general)
  let s ← get
  let depth := s.frames.depth s.stack
  Append.frameSite v (stackSlot s depth)
  pushValue v
  return v

def topOfStack (s : State) : Option Nat := s.stack.map fun n => (s.frames.node n).index

def peek (index : Nat) : Build ValueId := do
  let s ← get
  match (s.frames.stackNodes s.stack)[index]?.bind (·.value) with
  | some v => return v
  | none => Build.invariant (.shallowPeek index)

/-! Locals. -/

def redeclareLocals (ip : Nat) : Build Unit := do
  modify fun s =>
    let (locals, frames) := s.frames.newLocals (List.replicate s.localFootprint none)
    { s with locals, frames }
  let instruction ← instructionAt (signed 32 ip)
  match instruction.firstEvent with
  | none => Build.invariant (.noEvents ip)
  | some e =>
    let s ← get
    (s.frames.locals (s.event e).localsBefore).zipIdx.forM fun (v, i) =>
      match v with
      | some v => discard (declareLocal 1 i (s.value v).kind)
      | none => pure ()

def storeLocal (footprint : Nat) (v : ValueId) (index : Nat) : Build Unit := do
  let slot ← localSlot footprint index
  copyLocals
  if footprint > 1 then
    modify fun s => { s with frames := s.frames.setLocal s.locals index none }
  setLocal slot (← withoutHome v)

def loadLocal (footprint index : Nat) : Build ValueId := do
  let slot ← localSlot footprint index
  let s ← get
  match (s.frames.locals s.locals)[slot]?.join with
  | some v => return v
  | none => Build.invariant (.localUnset index)

end Lowering.Method
