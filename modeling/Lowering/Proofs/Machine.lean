import Lowering.X64.Emitter
import Lowering.Proofs.Decoding
import Lowering.Proofs.Execution
/-!
What instructions do.

A machine has a word in every register, bytes of memory and the flags of the last arithmetic
instruction. It carries out the instructions that frames and comparisons are made of: loads,
stores, constants, sums with a constant and comparisons. The registers of the float file are their
low words.
-/
namespace Lowering.X64

structure Flags where
  zero : Bool
  sign : Bool
  overflow : Bool
  carry : Bool
  parity : Bool
  deriving DecidableEq, Repr

namespace Flags

variable {n : Nat}

def ofResult (r : BitVec n) (overflow carry : Bool) : Flags :=
  ⟨r == 0#n, r.msb, overflow, carry, (List.range 8).countP r.getLsbD % 2 == 0⟩

def ofSum (a b : BitVec n) : Flags := ofResult (a + b) (a.saddOverflow b) (a.uaddOverflow b)

def ofDifference (a b : BitVec n) : Flags := ofResult (a - b) (a.ssubOverflow b) (a.usubOverflow b)

end Flags

def Condition.holds (f : Flags) : Condition → Bool
  | .equal => f.zero
  | .notEqual => !f.zero
  | .less => f.sign != f.overflow
  | .greater => !f.zero && f.sign == f.overflow
  | .lessOrEqual => f.zero || f.sign != f.overflow
  | .greaterOrEqual => f.sign == f.overflow
  | .below => f.carry
  | .above => !f.carry && !f.zero
  | .belowOrEqual => f.carry || f.zero
  | .aboveOrEqual => !f.carry
  | .parity => f.parity

/-! Memory. -/

abbrev Memory := Word → UInt8

namespace Memory

variable {m : Memory} {a b x : Word} {bs : List UInt8}

def bytes (m : Memory) (a : Word) (n : Nat) : List UInt8 :=
  (List.range n).map fun i => m (a + BitVec.ofNat 64 i)

def read (m : Memory) (w : Width) (a : Word) : BitVec (8 * w.bytes) :=
  BitVec.ofNat _ (ofLittleEndian (m.bytes a w.bytes))

def write (m : Memory) (a : Word) (bs : List UInt8) : Memory :=
  fun x => bs.getD (x - a).toNat (m x)

def InWord (a x : Word) : Prop := (x - a).toNat < wordSize

def word (m : Memory) (a : Word) : Word := m.read .qword a

def writeWord (m : Memory) (a w : Word) : Memory := m.write a (littleEndian wordSize w.toNat)

def overwrite (m : Memory) (a : Word) : Option Word → Memory
  | some w => m.writeWord a w
  | none => m

theorem bytesWrite (short : bs.length ≤ 2 ^ 64) : (m.write a bs).bytes a bs.length = bs := by
  refine List.ext_getElem (by simp [bytes]) fun i _ inside => ?_
  have offset : (a + BitVec.ofNat 64 i - a).toNat = i := by
    rw [BitVec.add_comm, BitVec.add_sub_cancel, BitVec.toNat_ofNat, Nat.mod_eq_of_lt (by omega)]
  simp only [bytes, write, List.getElem_map, List.getElem_range, offset, List.getD_eq_getElem?_getD,
    List.getElem?_eq_getElem inside, Option.getD_some]

theorem wordWriteWord (m : Memory) (a w : Word) : (m.writeWord a w).word a = w := by
  have stored : (m.writeWord a w).bytes a wordSize = littleEndian wordSize w.toNat := by
    have width := littleEndianLength wordSize w.toNat
    have written : (m.writeWord a w).bytes a (littleEndian wordSize w.toNat).length = littleEndian wordSize w.toNat :=
      bytesWrite (by rw [width]; decide)
    rwa [width] at written
  have value := ofLittleEndianOf wordSize w.toNat
  apply BitVec.eq_of_toNat_eq
  have read : (m.writeWord a w).word a = BitVec.ofNat 64 (ofLittleEndian ((m.writeWord a w).bytes a wordSize)) := rfl
  rw [read, stored, BitVec.toNat_ofNat]
  have small := w.isLt
  simp only [wordSize] at value ⊢
  omega

theorem writeWordOutside {w : Word} (outside : ¬ InWord a x) : m.writeWord a w x = m x := by
  unfold InWord at outside
  have length := littleEndianLength wordSize w.toNat
  rw [writeWord, write, List.getD_eq_getElem?_getD, List.getElem?_eq_none (by omega), Option.getD_none]

theorem wordWriteApart {w : Word} (apart : ∀ i < wordSize, ¬ InWord a (b + BitVec.ofNat 64 i)) :
    (m.writeWord a w).word b = m.word b := by
  have same : (m.writeWord a w).bytes b wordSize = m.bytes b wordSize :=
    List.map_congr_left fun i inside => writeWordOutside (apart i (List.mem_range.mp inside))
  have read (m : Memory) : m.word b = BitVec.ofNat 64 (ofLittleEndian (m.bytes b wordSize)) := rfl
  rw [read, read, same]

theorem inWordOffset {d : Int} (low : -2 ^ 63 ≤ d) (high : d < 2 ^ 63) :
    InWord a (a + BitVec.ofInt 64 d) ↔ 0 ≤ d ∧ d < wordSize := by
  rw [InWord, BitVec.add_comm, BitVec.add_sub_cancel, BitVec.toNat_ofInt]
  simp only [wordSize]
  omega

theorem wordBeside {w : Word} {j k : Int} (apart : j ≠ k) (low : -2 ^ 60 ≤ k - j - 1) (high : k - j + 1 < 2 ^ 60) :
    (m.writeWord (a + BitVec.ofInt 64 (j * wordSize)) w).word (a + BitVec.ofInt 64 (k * wordSize)) =
      m.word (a + BitVec.ofInt 64 (k * wordSize)) := by
  refine wordWriteApart fun i inside => ?_
  have offset : a + BitVec.ofInt 64 (k * wordSize) + BitVec.ofNat 64 i =
      a + BitVec.ofInt 64 (j * wordSize) + BitVec.ofInt 64 ((k - j) * wordSize + i) := by
    rw [← BitVec.ofInt_natCast, BitVec.add_assoc, BitVec.add_assoc, ← BitVec.ofInt_add, ← BitVec.ofInt_add]
    congr 2
    ring
  simp only [wordSize] at inside offset ⊢
  rw [offset, inWordOffset (by omega) (by omega)]
  simp only [wordSize]
  omega

theorem overwriteOutside {o : Option Word} (outside : o.isSome → ¬ InWord a x) : m.overwrite a o x = m x := by
  cases o with
  | none => rfl
  | some w => exact writeWordOutside (outside rfl)

theorem wordOverwrite {o : Option Word} {w : Word} (written : w ∈ o) : (m.overwrite a o).word a = w := by
  cases written
  exact wordWriteWord m a w

theorem wordBesideOverwrite {o : Option Word} {j k : Int} (apart : j ≠ k) (low : -2 ^ 60 ≤ k - j - 1)
    (high : k - j + 1 < 2 ^ 60) :
    (m.overwrite (a + BitVec.ofInt 64 (j * wordSize)) o).word (a + BitVec.ofInt 64 (k * wordSize)) =
      m.word (a + BitVec.ofInt 64 (k * wordSize)) := by
  cases o with
  | none => rfl
  | some w => exact wordBeside apart low high

end Memory

/-! The machine. -/

/-- The register that an instruction names, by its number among all registers. -/
def Reg.register (r : Reg) : Register :=
  match r.cls with
  | .general _ => r.number
  | .float => r.number + xmm0

structure Machine where
  registers : Register → Word
  memory : Memory
  flags : Flags

namespace Machine

def setRegister (p : Machine) (r : Register) (w : Word) : Machine :=
  { p with registers := Function.update p.registers r w }

def storeWord (p : Machine) (a w : Word) : Machine := { p with memory := p.memory.writeWord a w }

def address (p : Machine) (m : MemoryRef) : Word :=
  let scaled := match m.index with
    | some r => p.registers r * BitVec.ofNat 64 m.scale
    | none => 0#64
  p.registers m.base + BitVec.ofInt 64 m.offset + scaled

def operand (p : Machine) (w : Width) : RegMem → BitVec (8 * w.bytes)
  | .reg r => (p.registers r.register).setWidth _
  | .mem m => p.memory.read w (p.address m)

/-- Carries out one instruction. A narrow result clears the upper half of its register. -/
def step (p : Machine) : Instruction → Option Machine
  | .moveImm64 r v => some (p.setRegister r (BitVec.ofInt 64 v))
  | .moveImm .qword (.reg r) v => some (p.setRegister r.register (BitVec.ofInt 64 v))
  | .move .dword dst src => some (p.setRegister dst.register ((p.operand .dword src).setWidth 64))
  | .move .qword dst src => some (p.setRegister dst.register (p.operand .qword src))
  | .sse (.load .double) dst (.mem m) => some (p.setRegister dst.register (p.memory.word (p.address m)))
  | .store .qword dst src => some (p.storeWord (p.address dst) (p.registers src.register))
  | .storeFloat .double dst src => some (p.storeWord (p.address dst) (p.registers src.register))
  | .aluImm .add .qword (.reg r) v =>
    let a := p.registers r.register
    let b := BitVec.ofInt 64 v
    some { p.setRegister r.register (a + b) with flags := .ofSum a b }
  | .alu .cmp w dst src => some { p with flags := .ofDifference (p.operand w (.reg dst)) (p.operand w src) }
  | .aluImm .cmp w dst v => some { p with flags := .ofDifference (p.operand w dst) (BitVec.ofInt _ v) }
  | .compareMemory w dst src =>
    some { p with flags := .ofDifference (p.operand w (.mem dst)) (p.operand w (.reg src)) }
  | _ => none

def run (p : Machine) (code : List Instruction) : Option Machine := code.foldlM step p

variable {p p' : Machine} {code later : List Instruction} {i : Instruction} {r r' : Register} {w : Word}

@[simp] theorem runNil (p : Machine) : p.run [] = some p := rfl

@[simp] theorem runCons : p.run (i :: code) = (p.step i).bind (·.run code) := rfl

theorem runStep (done : p.step i = some p') : p.run (i :: code) = p'.run code := by rw [runCons, done, Option.bind_some]

theorem runAppend : p.run (code ++ later) = (p.run code).bind (·.run later) := by
  simp [run, List.foldlM_append]

@[simp] theorem setRegisterSame : (p.setRegister r w).registers r = w := by simp [setRegister]

@[simp] theorem setRegisterOther (apart : r' ≠ r) : (p.setRegister r w).registers r' = p.registers r' := by
  simp [setRegister, apart]

@[simp] theorem setRegisterMemory : (p.setRegister r w).memory = p.memory := rfl

theorem addressSetRegister {m : MemoryRef} (apart : r ∉ m.registers) : (p.setRegister r w).address m = p.address m := by
  have base : m.base ≠ r := fun same => apart (same ▸ List.mem_cons_self)
  have index : ∀ i ∈ m.index, i ≠ r := fun i inside same =>
    apart (List.mem_cons_of_mem _ (by rw [← same]; simpa using inside))
  unfold address
  cases scaled : m.index with
  | none => simp [base]
  | some i => simp [base, index i scaled]

@[simp] theorem storeWordRegisters {a : Word} : (p.storeWord a w).registers = p.registers := rfl

@[simp] theorem storeWordMemory {a : Word} : (p.storeWord a w).memory = p.memory.writeWord a w := rfl

end Machine

end Lowering.X64
