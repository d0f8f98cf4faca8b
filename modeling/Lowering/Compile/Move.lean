import Lowering.Compile.Operand
/-!
Compiling moves, loads and stores.
-/
namespace Lowering.Compile

/-- A copy of a value into the place its next read wants, or into the memory word it is stored
to. -/
structure Copy where
  op : Binary
  size : Nat
  src : ValueId
  dstSize : Nat
  dst : ValueId
  mask : SiteMask
  deriving Repr

/-- Copies by way of a register. With `onward` the register is copied to the target in the end. -/
def copyThroughRegister (c : Copy) (source target : SiteId) (onward store : Bool) :
    Build Unit := do
  modify (·.removeSite c.dst target)
  let s ← get
  let plan := s.machine.planBinary c.op c.dstSize c.dstSize
  let registers := if (s.value c.src).kind == .general then
    plan.a.registers &&& s.machine.general else plan.a.registers
  let t ← modifyGet (·.newSite (.ofRegisters (c.mask.registers &&& registers)))
  whileFrozen source do
    place c.dst t
    whileFrozen t (emitBetween c.op c.size source c.dstSize t)
  if onward then
    place c.dst target
    whileFrozen t (emitBetween .move c.dstSize t c.dstSize target)
    if store then modify (·.removeSite c.dst t)

def copyTo (c : Copy) (source target : SiteId) (store : Bool) : Build Unit := do
  let s ← get
  let kind := (s.site target).kind
  let extends_ := c.size < c.dstSize
  let viaRegister := (kind == .memory && (s.site source).kind == .memory)
    || (extends_ && kind != .register)
  if extends_ || (s.site source).copyCost (some (s.site target)) != 0 then
    whileFrozen source (place c.dst target)
    whileFrozen target do
      let s ← get
      if (s.site target).satisfies s.geometry c.mask && !viaRegister then
        whileFrozen source
          (emitBetween c.op (min c.size c.dstSize) source c.dstSize target)
      else copyThroughRegister c source target (viaRegister || store) store

/-- Copies a value. A destination that nobody reads is a store, and then it must be a memory
word. -/
def copy (c : Copy) : Build Unit := do
  let read ← modifyGet (·.liveRead? c.dst)
  let go (target : SiteId) : Build Unit := do
    let source ← sourceOf c.src
    copyTo c source target read.isNone
    if read.isNone then modify (·.removeSite c.dst target)
  match ((← get).value c.dst).target, read with
  | some target, _ => go target
  | none, none => pure ()
  | none, some r => do go (← chooseSite r false 0 none)

/-- Makes `dst` an alias of `src`, which must then be in a place that nobody else changes. -/
def aliasMove (src dst : ValueId) : Build Unit := do
  match ← modifyGet (·.liveRead? src) with
  | some r =>
    let found ← modifyGet (·.chooseSource r { strict := false })
    let s ← get
    let stable := found.any fun (i, _) => !(s.site i).isVolatile s.geometry
    if !stable then discard (relocate r false 0)
  | none => pure ()
  modify (·.joinRing src dst)
  let source ← sourceOf src
  modify fun s =>
    if (s.site source).isVolatile s.geometry then s.removeSite src source else s

def move (e : EventId) (m : MoveEvent) : Build Unit := do
  let source ← sourceMask m.src
  let s ← get
  let mask := SiteMask.ofOperand (s.machine.planBinaryResult m.op m.size source m.dstSize)
  if m.size ≥ wordSize && m.dstSize ≥ wordSize && m.size ≥ m.dstSize then
    if (s.value m.dst).target.isSome then
      copy ⟨.move, wordSize, m.src, wordSize, m.dst, mask⟩
    else if ← live m.dst then aliasMove m.src m.dst
  else copy ⟨m.op, m.size, m.src, m.dstSize, m.dst, mask⟩
  consumeReads e

/-- Builds the memory operand. A known index becomes part of the displacement; an index in a
register is a 32-bit number and is extended first. -/
def memory (e : EventId) (m : MemoryEvent) : Build Unit := do
  let s ← get
  let known := m.index.bind s.knownNumber?
  let index ← match m.index, known with
    | some v, none => do some <$> registerOf (← sourceOf v) (.memoryIndex v)
    | _, _ => pure none
  let base ← registerOf (← sourceOf m.base) (.memoryBase m.base)
  consumeRead (some e) m.base
  match index with
  | some r => emit (.binary .move 4 (.register r) wordSize (.register r))
  | none => pure ()
  match m.index with
  | some v => consumeRead (some e) v
  | none => pure ()
  let ref : MemoryRef := match known with
    | some c => { base, offset := signed 32 (m.displacement + signed 32 c * m.scale) }
    | none => { base, offset := m.displacement, index, scale := m.scale }
  let i ← modifyGet (·.newSite (.ofMemory ref))
  modify (·.modifyValue m.result fun d => { d with target := some i })
  place m.result i

end Lowering.Compile
