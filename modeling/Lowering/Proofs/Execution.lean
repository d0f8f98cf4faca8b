import Lowering.Request
import Lowering.X64.Register
import Lowering.Proofs.Targets
/-!
Running a log of requests.

A processor has a word in every register and in some words of memory. It carries out the requests
of straight-line code: moves, integer operations and the set-up of a frame. A division or remainder
destroys rdx, and nothing is read from memory that was not written. Requests that transfer control,
other than the return at the end, have no meaning here.
-/
namespace Lowering

abbrev Word := BitVec 64

namespace Word

def poison : Word := 0x5a5a5a5a5a5a5a5a#64

def lowSigned (size : Nat) (w : Word) : Word :=
  if size == 1 || size == 2 || size == 4 then (w.setWidth (8 * size)).signExtend 64 else w

def lowUnsigned (size : Nat) (w : Word) : Word :=
  if size == 1 || size == 2 || size == 4 then (w.setWidth (8 * size)).setWidth 64 else w

@[simp] theorem lowSignedWhole (w : Word) : w.lowSigned wordSize = w := rfl

end Word

def Binary.onWord? (op : Binary) (size : Nat) (w : Word) : Option Word :=
  match op with
  | .move => some w
  | .moveZ => some (w.lowUnsigned size)
  | .negate => some (-w)
  | .absolute => some w.abs
  | _ => none

/-- The second word combined with the first. Shifts count by the low six bits, and nothing is
divided by zero. -/
def Ternary.onWords? (op : Ternary) (first second : Word) : Option Word :=
  match op with
  | .add => some (second + first)
  | .subtract => some (second - first)
  | .multiply => some (second * first)
  | .divide => if first = 0#64 then none else some (second.sdiv first)
  | .remainder => if first = 0#64 then none else some (second.srem first)
  | .shiftLeft => some (second <<< (first.toNat % 64))
  | .shiftRight => some (second.sshiftRight (first.toNat % 64))
  | .unsignedShiftRight => some (second >>> (first.toNat % 64))
  | .and => some (second &&& first)
  | .or => some (second ||| first)
  | .xor => some (second ^^^ first)
  | _ => none

def Ternary.divides : Ternary → Bool
  | .divide | .remainder => true
  | _ => false

structure Processor where
  registers : Register → Word
  memory : Word → Option Word

namespace Processor

def setRegister (p : Processor) (r : Register) (w : Word) : Processor :=
  { p with registers := Function.update p.registers r w }

def store (p : Processor) (address w : Word) : Processor :=
  { p with memory := Function.update p.memory address (some w) }

def address (p : Processor) (m : MemoryRef) : Word :=
  let scaled := match m.index with
    | some r => p.registers r * BitVec.ofNat 64 m.scale
    | none => 0#64
  p.registers m.base + BitVec.ofInt 64 m.offset + scaled

/-- The word of an operand. A position in the code is not a word yet. -/
def read (p : Processor) : Operand → Option Word
  | .register r => some (p.registers r)
  | .memory m => p.memory (p.address m)
  | .constant (.immediate v) | .address (.immediate v) => some (BitVec.ofInt 64 v)
  | .constant _ | .address _ => none

def write (p : Processor) (a : Operand) (w : Word) : Option Processor :=
  match a with
  | .register r => some (p.setRegister r w)
  | .memory m => some (p.store (p.address m) w)
  | .constant _ | .address _ => none

def allocate (p : Processor) (words : Nat) : Processor :=
  let top := p.registers X64.rsp - 8#64
  let saved := p.store top (p.registers X64.rbp)
  (saved.setRegister X64.rbp top).setRegister X64.rsp (top - BitVec.ofNat 64 (words * wordSize))

def settle (p : Processor) (op : Ternary) (target : Operand) : Processor :=
  if op.divides && target != .register X64.rdx then p.setRegister X64.rdx Word.poison else p

def step (p : Processor) : Request → Option Processor
  | .nullary _ | .bind _ | .stackCheck _ _ => some p
  | .allocateFrame words => some (p.allocate words)
  | .adjustFrame words =>
    some (p.setRegister X64.rsp (p.registers X64.rsp - BitVec.ofNat 64 (words * wordSize)))
  | .binary op aSize a _ b => do
    let w ← op.onWord? aSize ((← p.read a).lowSigned aSize)
    p.write b w
  | .ternary op aSize a bSize b cSize c => do
    let first ← p.read a
    let second ← p.read b
    let w ← op.onWords? (first.lowSigned aSize) (second.lowSigned bSize)
    return (← p.write c (w.lowSigned cSize)).settle op c
  | .unary _ _ _ | .popFrame _ _ _ _ | .leave _ _ => none

def follow (p : Processor) (log : List Request) : Option Processor := log.foldlM step p

def outcome (p : Processor) : List Request → Option Word
  | [] => none
  | .leave _ _ :: _ => some (p.registers X64.rax)
  | q :: rest => do (← p.step q).outcome rest

variable {p p' : Processor}

@[simp] theorem followNil (p : Processor) : p.follow [] = some p := rfl

theorem followSnoc {log : List Request} {q : Request} :
    p.follow (log ++ [q]) = (p.follow log).bind (·.step q) := by
  simp [follow, List.foldlM_append]

theorem outcomeReturn {log rest : List Request} {frame arguments : Nat} :
    ∀ {p : Processor}, p.follow log = some p' →
      p.outcome (log ++ .leave frame arguments :: rest) = some (p'.registers X64.rax) := by
  induction log with
  | nil =>
    intro p ran
    cases ran
    rfl
  | cons q log ih =>
    intro p ran
    obtain ⟨t, first, later⟩ := Option.bind_eq_some_iff.mp ran
    have here : p.outcome (q :: (log ++ .leave frame arguments :: rest)) =
        t.outcome (log ++ .leave frame arguments :: rest) := by
      cases q <;> simp_all [outcome, step]
    exact here.trans (ih later)

/-! Resources as operands. -/

end Processor

def Operand.registers : Operand → List Register
  | .register r => [r]
  | .memory m => m.registers
  | .constant _ | .address _ => []

def ResourceId.operand (g : FrameGeometry) : ResourceId → Operand
  | .register r => .register r
  | .slot k => .memory ⟨g.stack, g.offset k, none, 1⟩

theorem FrameGeometry.offsetToInt (g : FrameGeometry) (k : Nat) :
    (BitVec.ofInt 64 (g.offset k)).toInt = g.offset k := by
  have low : -(2 ^ 31 : Int) ≤ g.offset k :=
    Int.le_bmod (x := (k + g.footer) * wordSize) (m := modulus 32) (by decide)
  have high : g.offset k < 2 ^ 31 :=
    Int.bmod_lt (x := (k + g.footer) * wordSize) (m := modulus 32) (by decide)
  rw [BitVec.toInt_ofInt]
  exact Int.bmod_eq_of_le (by omega) (by omega)

theorem offsetInjective {g : FrameGeometry} {j k n : Nat}
    (frame : (n + g.footer) * wordSize ≤ modulus 32) (first : j < n) (second : k < n)
    (same : BitVec.ofInt 64 (g.offset j) = BitVec.ofInt 64 (g.offset k)) : j = k := by
  have offsets : g.offset j = g.offset k := by
    rw [← g.offsetToInt j, same, g.offsetToInt k]
  have inside (m : Nat) (below : m < n) : (m + g.footer) * wordSize < modulus 32 :=
    Nat.lt_of_lt_of_le (Nat.mul_lt_mul_of_pos_right (by omega) (by decide)) frame
  rw [← g.indexOffset (inside j first), offsets, g.indexOffset (inside k second)]

namespace Processor

variable {p p' : Processor} {g : FrameGeometry} {id other : ResourceId} {w : Word}

def held (p : Processor) (g : FrameGeometry) (id : ResourceId) : Option Word :=
  p.read (id.operand g)

def put (p : Processor) (g : FrameGeometry) (id : ResourceId) (w : Word) : Processor :=
  match id with
  | .register r => p.setRegister r w
  | .slot k => p.store (p.address ⟨g.stack, g.offset k, none, 1⟩) w

theorem writeOperand (p : Processor) (g : FrameGeometry) (id : ResourceId) (w : Word) :
    p.write (id.operand g) w = some (p.put g id w) := by
  cases id <;> rfl

theorem heldRegister (p : Processor) (g : FrameGeometry) (r : Register) :
    p.held g (.register r) = some (p.registers r) := rfl

theorem heldPut {n : Nat} (frame : (n + g.footer) * wordSize ≤ modulus 32)
    (apart : id ≠ .register g.stack) (inside : ∀ k, id = .slot k → k < n)
    (inside' : ∀ k, other = .slot k → k < n) :
    (p.put g id w).held g other = if other = id then some w else p.held g other := by
  cases id with
  | register r =>
    have stack : g.stack ≠ r := fun same => apart (same ▸ rfl)
    cases other with
    | register r' =>
      by_cases same : r' = r
      · simp [same, put, setRegister, heldRegister]
      · simp [same, put, setRegister, heldRegister]
    | slot k => simp [put, setRegister, held, read, ResourceId.operand, address, stack]
  | slot j =>
    cases other with
    | register r' => simp [put, store, held, read, ResourceId.operand]
    | slot k =>
      by_cases same : k = j
      · simp [same, put, store, held, read, ResourceId.operand, address]
      · have distinct : BitVec.ofInt 64 (g.offset k) ≠ BitVec.ofInt 64 (g.offset j) :=
          fun equal => same (offsetInjective frame (inside' k rfl) (inside j rfl) equal)
        simp [same, put, store, held, read, ResourceId.operand, address, distinct]

theorem heldSettle (op : Ternary) (target : Operand) (apart : g.stack ≠ X64.rdx) :
    (p.settle op target).held g other =
      if op.divides ∧ target ≠ .register X64.rdx ∧ other = .register X64.rdx then
        some Word.poison
      else p.held g other := by
  unfold settle
  split
  · rename_i destroys
    cases other with
    | register r =>
      by_cases same : r = X64.rdx
      · simp_all [setRegister, heldRegister]
      · simp [same, setRegister, heldRegister]
    | slot k => simp [setRegister, held, read, ResourceId.operand, address, apart]
  · simp_all

theorem stepMove {a : Operand} (value : p.read a = some w) :
    p.step (.binary .move wordSize a wordSize (id.operand g)) = some (p.put g id w) := by
  simp [step, value, Binary.onWord?, writeOperand]

theorem stepConvert {op : Binary} {a : Operand} {x : Word} (value : p.read a = some w)
    (result : op.onWord? wordSize w = some x) :
    p.step (.binary op wordSize a wordSize (id.operand g)) = some (p.put g id x) := by
  simp [step, value, result, writeOperand]

theorem stepCombine {op : Ternary} {a b : Operand} {x y : Word} (first : p.read a = some w)
    (second : p.read b = some x) (result : op.onWords? w x = some y) :
    p.step (.ternary op wordSize a wordSize b wordSize (id.operand g)) =
      some ((p.put g id y).settle op (id.operand g)) := by
  simp [step, first, second, result, writeOperand]

theorem registersAllocate {words : Nat} {r : Register} (stack : r ≠ X64.rsp)
    (frame : r ≠ X64.rbp) : (p.allocate words).registers r = p.registers r := by
  simp [allocate, setRegister, store, stack, frame]

end Processor

end Lowering
