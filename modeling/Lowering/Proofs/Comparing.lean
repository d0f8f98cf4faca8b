import Lowering.Proofs.Lending
import Lowering.Proofs.Machine
/-!
Comparisons.

A branch compares its operands by subtracting the first from the second, on whole words or on their low halves, and
its condition is a reading of the flags. The difference may overflow; then the sign is wrong, and the overflow flag
says so. A branch on constants is decided when it is compiled, by comparing signed numbers.
-/
namespace Lowering.X64

open Build

variable {σ : Type}

/-! Flags of a difference. -/

namespace Flags

variable {n : Nat}

/-- The exit that the jumps of a branch take: that of the first whose condition holds. -/
def exit? (f : Flags) (exits : List (Exit × Condition)) : Option Exit :=
  (exits.find? fun (_, condition) => condition.holds f).map Prod.fst

theorem wrappedNegative (d : Int) (half : Nat) (low : -(2 * half) ≤ d) (high : d < 2 * half) :
    (d.bmod (2 * half) < 0) ↔ if half ≤ d ∨ d < -half then 0 ≤ d else d < 0 := by
  by_cases above : half ≤ d
  · rw [← Int.sub_bmod_right, Int.bmod_eq_of_le (by omega) (by omega), if_pos (.inl above)]
    omega
  by_cases below : d < -half
  · rw [← Int.add_bmod_right, Int.bmod_eq_of_le (by omega) (by omega), if_pos (.inr below)]
    omega
  rw [Int.bmod_eq_of_le (by omega) (by omega), if_neg (by omega)]

theorem zeroDifference (a b : BitVec n) : (ofDifference a b).zero = decide (a.toInt = b.toInt) := by
  have numbers : a - b = 0#n ↔ a.toInt = b.toInt := by
    rw [BitVec.sub_eq_iff_eq_add, BitVec.zero_add, BitVec.toInt_inj]
  rw [Bool.eq_iff_iff, ofDifference, ofResult, beq_iff_eq, numbers, decide_eq_true_eq]

theorem signDifference (a b : BitVec n) :
    ((ofDifference a b).sign != (ofDifference a b).overflow) = decide (a.toInt < b.toInt) := by
  cases n with
  | zero => simp [ofDifference, ofResult, BitVec.ssubOverflow, BitVec.eq_nil a, BitVec.eq_nil b]
  | succ n =>
    have lowA : -(2 ^ n : Int) ≤ a.toInt := a.le_toInt
    have highA : a.toInt < 2 ^ n := a.toInt_lt
    have lowB : -(2 ^ n : Int) ≤ b.toInt := b.le_toInt
    have highB : b.toInt < 2 ^ n := b.toInt_lt
    have half : ((2 ^ n : Nat) : Int) = 2 ^ n := by push_cast; rfl
    have negative := wrappedNegative (a.toInt - b.toInt) (2 ^ n) (by omega) (by omega)
    have sign : (ofDifference a b).sign = decide ((a.toInt - b.toInt).bmod (2 * 2 ^ n) < 0) := by
      rw [ofDifference, ofResult, BitVec.msb_eq_toInt, BitVec.toInt_sub, Nat.pow_succ']
    have overflow : (ofDifference a b).overflow =
        decide (2 ^ n ≤ a.toInt - b.toInt ∨ a.toInt - b.toInt < -2 ^ n) := by
      simp [ofDifference, ofResult, BitVec.ssubOverflow]
    rw [sign, overflow, Bool.eq_iff_iff]
    simp only [bne_iff_ne, ne_eq, decide_eq_decide, decide_eq_true_eq, negative, half]
    split <;> omega

end Flags

/-! Decisions. -/

theorem lowHalfToInt (w : Word) : (w.setWidth 32).toInt = signed 32 w.toInt := by
  rw [← BitVec.signExtend_eq_setWidth_of_le _ (by decide), BitVec.toInt_signExtend]
  rfl

theorem widthToInt (size : Nat) (w : Word) :
    (w.setWidth (8 * (Width.ofArithmetic size).bytes)).toInt = if size == 8 then w.toInt else signed 32 w.toInt := by
  by_cases whole : (size == 8) = true
  · have width : Width.ofArithmetic size = .qword := if_pos whole
    rw [width, if_pos whole]
    exact congrArg BitVec.toInt (BitVec.setWidth_eq w)
  · have width : Width.ofArithmetic size = .dword := if_neg whole
    rw [width, if_neg whole]
    exact lowHalfToInt w

theorem takenByFlags {op : Ternary} (jump : op.isBranch = true) (integer : op.isFloatBranch = false) (size : Nat)
    (first second : Word) :
    let width := 8 * (Width.ofArithmetic size).bytes
    let flags := Flags.ofDifference (second.setWidth width) (first.setWidth width)
    ∃ taken condition, op.taken? size first.toInt second.toInt = some taken ∧
      branchExits? op = some [(.target, condition)] ∧ condition.holds flags = taken := by
  intro width flags
  have zero : flags.zero = _ := Flags.zeroDifference ..
  have less : (flags.sign != flags.overflow) = _ := Flags.signDifference ..
  simp only [width, widthToInt] at zero less
  have notLess : (flags.sign == flags.overflow) = !(flags.sign != flags.overflow) := (Bool.not_not _).symm
  cases op <;> cases jump <;> cases integer
  all_goals
    refine ⟨_, _, rfl, rfl, ?_⟩
    rw [Bool.eq_iff_iff]
    simp only [Condition.holds, zero, notLess, less, Bool.and_eq_true, Bool.or_eq_true, Bool.not_eq_true',
      decide_eq_true_eq, decide_eq_false_iff_not, beq_iff_eq, bne_iff_ne, ne_eq]
  -- the three orders that are not simply equality or less
  all_goals omega

/-! The instructions of a comparison. -/

namespace Machine

def Holds (p : Machine) (w : Width) : Operand → BitVec (8 * w.bytes) → Prop
  | .register r, x => (p.registers r).setWidth _ = x
  | .memory m, x => p.memory.read w (p.address m) = x
  | .constant (.immediate v), x => BitVec.ofInt _ v = x
  | .constant _, _ | .address _, _ => False

def source (p : Machine) (w : Width) : IntegerSource → BitVec (8 * w.bytes)
  | .place q => p.operand w q
  | .immediate v => BitVec.ofInt _ v

end Machine

namespace Asm

variable {s s' : Assembler} {p : Machine} {size : Nat} {a b : Operand}

theorem compareOk {src : IntegerSource} {second : BitVec (8 * (Width.ofArithmetic size).bytes)}
    (ok : compare size b src s = .ok () s') (holds : p.Holds _ b second) :
    ∃ i, s'.code.toList = s.code.toList ++ [i] ∧
      p.step i = some { p with flags := .ofDifference second (p.source _ src) } := by
  cases b with
  | register r =>
    simp only [compare, arithmetic, bindOk, generalOk] at ok
    obtain ⟨_, _, ⟨-, rfl, rfl⟩, ok⟩ := ok
    cases src with
    | place q =>
      rw [alu, emitOk] at ok
      exact ⟨_, by rw [ok, Array.toList_push], by rw [← holds]; rfl⟩
    | immediate v =>
      rw [alu, emitOk] at ok
      exact ⟨_, by rw [ok, Array.toList_push], by rw [← holds]; rfl⟩
  | memory m =>
    simp only [compare, bindOk, memoryOk] at ok
    obtain ⟨_, _, ⟨-, rfl, rfl⟩, ok⟩ := ok
    cases src with
    | place q =>
      cases q with
      | reg r =>
        rw [emitOk] at ok
        exact ⟨_, by rw [ok, Array.toList_push], by rw [← holds]; rfl⟩
      | mem m => exact (invalidOk.mp ok).elim
    | immediate v =>
      rw [emitOk] at ok
      exact ⟨_, by rw [ok, Array.toList_push], by rw [← holds]; rfl⟩
  | constant c => exact (invalidOk.mp ok).elim
  | address c => exact (invalidOk.mp ok).elim

theorem loadConstantOk {r : Register} {v : Int} (ok : loadConstant r (.immediate v) s = .ok () s') :
    ∃ i, s'.code.toList = s.code.toList ++ [i] ∧ p.step i = some (p.setRegister r (BitVec.ofInt 64 v)) := by
  simp only [loadConstant, whole, bindOk, generalOk] at ok
  obtain ⟨_, _, ⟨-, rfl, rfl⟩, ok⟩ := ok
  split at ok
  · rw [emitOk] at ok
    exact ⟨_, by rw [ok, Array.toList_push], rfl⟩
  · rw [emitOk] at ok
    exact ⟨_, by rw [ok, Array.toList_push], rfl⟩

end Asm

theorem immediateSame {size : Nat} {v x : Int} (small : immediate? size (.immediate v) = some x) :
    BitVec.ofInt (8 * (Width.ofArithmetic size).bytes) x = BitVec.ofInt _ v := by
  simp only [immediate?, Option.ite_none_right_eq_some, Option.some.injEq, Bool.or_eq_true, decide_eq_true_eq] at small
  obtain ⟨narrow | fits, rfl⟩ := small
  · have width : Width.ofArithmetic size = .dword := if_neg (by simp; omega)
    rw [width]
    apply BitVec.eq_of_toInt_eq
    rw [BitVec.toInt_ofInt, BitVec.toInt_ofInt]
    exact Int.bmod_bmod
  · rw [eq_of_beq fits]

theorem setWidthOfInt {n : Nat} (narrow : n ≤ 64) (v : Int) : (BitVec.ofInt 64 v).setWidth n = BitVec.ofInt n v := by
  apply BitVec.eq_of_toInt_eq
  rw [← BitVec.signExtend_eq_setWidth_of_le _ narrow, BitVec.toInt_signExtend, BitVec.toInt_ofInt, BitVec.toInt_ofInt,
    Nat.min_eq_left narrow]
  exact Int.bmod_bmod_of_dvd (Nat.pow_dvd_pow 2 narrow)

theorem holdsSetRegister {p : Machine} {w : Width} {b : Operand} {r : Register} {x : Word} {y : BitVec (8 * w.bytes)}
    (apart : r ∉ b.registers) (holds : p.Holds w b y) : (p.setRegister r x).Holds w b y := by
  cases b with
  | register r' =>
    have other : r' ≠ r := fun same => apart (List.mem_singleton.mpr same.symm)
    simpa only [Machine.Holds, Machine.setRegisterOther other] using holds
  | memory m => simpa only [Machine.Holds, Machine.setRegisterMemory, Machine.addressSetRegister apart] using holds
  | constant c | address c => cases c <;> exact holds

/- The instructions of a comparison leave the flags of the difference, whether or not the first operand is borrowed a
register for. -/
theorem comparisonSubtracts {lender : ScratchSource σ} {size : Nat} {a b : Operand} {m m' : Emission σ} {p : Machine}
    {first second : BitVec (8 * (Width.ofArithmetic size).bytes)}
    (ok : withIntegerSource lender size a (Asm.compare size b) m = .ok () m')
    (apart : ∀ r l, lender.acquire generalRegisters m.lender = .ok r l → r ∉ b.registers)
    (holdsFirst : p.Holds _ a first) (holdsSecond : p.Holds _ b second) :
    ∃ code p', m'.assembler.code.toList = m.assembler.code.toList ++ code ∧ p.run code = some p' ∧
      p'.flags = .ofDifference second first := by
  -- a comparison with a source that already holds the number is its one instruction
  have done {src : IntegerSource} {s' : Assembler} (ran : Asm.compare size b src m.assembler = .ok () s')
      (value : p.source _ src = first) : ∃ code p', s'.code.toList = m.assembler.code.toList ++ code ∧
        p.run code = some p' ∧ p'.flags = .ofDifference second first := by
    obtain ⟨i, appended, step⟩ := Asm.compareOk ran holdsSecond
    exact ⟨[i], _, appended, Machine.runStep step, by rw [value]⟩
  rw [integerSourceBracket] at ok
  cases a with
  | register r =>
    obtain ⟨s', ran, rfl⟩ := liftOk.mp ok
    simp only [Asm.arithmetic, bindOk, Asm.generalOk] at ran
    obtain ⟨_, _, ⟨-, rfl, rfl⟩, ran⟩ := ran
    exact done ran holdsFirst
  | memory n =>
    obtain ⟨s', ran, rfl⟩ := liftOk.mp ok
    simp only [bindOk, Asm.memoryOk] at ran
    obtain ⟨_, _, ⟨-, rfl, rfl⟩, ran⟩ := ran
    exact done ran holdsFirst
  | constant c =>
    cases c with
    | immediate v =>
      cases small : immediate? size (.immediate v) with
      | some x =>
        simp only [small] at ok
        obtain ⟨s', ran, rfl⟩ := liftOk.mp ok
        exact done ran ((immediateSame small).trans holdsFirst)
      | none =>
        simp only [small] at ok
        obtain ⟨r, l, lent, s', ran, rfl⟩ := temporaryOk.mp ok
        simp only [Asm.arithmetic, bindOk, Asm.generalOk] at ran
        obtain ⟨⟨⟩, s, loaded, _, _, ⟨-, rfl, rfl⟩, compared⟩ := ran
        obtain ⟨i, before, load⟩ := Asm.loadConstantOk (p := p) loaded
        obtain ⟨j, after, step⟩ := Asm.compareOk compared (holdsSetRegister (x := BitVec.ofInt 64 v) (apart r l lent) holdsSecond)
        refine ⟨[i, j], _, by rw [after, before, List.append_assoc]; rfl,
          (Machine.runStep load).trans (Machine.runStep step), ?_⟩
        have narrow : 8 * (Width.ofArithmetic size).bytes ≤ 64 := by cases Width.ofArithmetic size <;> decide
        have loaded : ((p.setRegister r (BitVec.ofInt 64 v)).registers r).setWidth _ = first := by
          rw [Machine.setRegisterSame, setWidthOfInt narrow]
          exact holdsFirst
        exact congrArg (Flags.ofDifference second) loaded
    | label t => exact holdsFirst.elim
    | deferred d => exact holdsFirst.elim
  | address c => exact holdsFirst.elim

/-- A branch on two known operands is decided as the emitted comparison decides it, for every integer jump and every
size, whether or not the difference overflows. -/
theorem foldedAsCompared {op : Ternary} (jump : op.isBranch = true) (integer : op.isFloatBranch = false) (size : Nat)
    (first second : Word) :
    let width := 8 * (Width.ofArithmetic size).bytes
    let flags := Flags.ofDifference (second.setWidth width) (first.setWidth width)
    ∃ taken exits, op.taken? size first.toInt second.toInt = some taken ∧ branchExits? op = some exits ∧
      (flags.exit? exits = some .target ↔ taken = true) ∧
      ∀ {σ : Type} {lender : ScratchSource σ} {a b : Operand} {m m' : Emission σ} {p : Machine},
        withIntegerSource lender size a (Asm.compare size b) m = .ok () m' →
        (∀ r l, lender.acquire generalRegisters m.lender = .ok r l → r ∉ b.registers) →
        p.Holds _ a (first.setWidth width) → p.Holds _ b (second.setWidth width) →
        ∃ code p', m'.assembler.code.toList = m.assembler.code.toList ++ code ∧ p.run code = some p' ∧
          p'.flags = flags := by
  intro width flags
  obtain ⟨taken, condition, decided, exits, holds⟩ := takenByFlags jump integer size first second
  refine ⟨taken, _, decided, exits, ?_, fun ok apart holdsFirst holdsSecond =>
    comparisonSubtracts ok apart holdsFirst holdsSecond⟩
  have here : condition.holds flags = taken := holds
  cases taken with
  | true => simp [Flags.exit?, here]
  | false => simp [Flags.exit?, here]

/- The least number is less than a number that has no immediate form, although their difference overflows. -/
theorem leastIsLess :
    ∃ m' code p', withIntegerSource .pool 8 (.constant (.immediate 0x10000000000)) (Asm.compare 8 (.register rax))
        ⟨{}, [rsi]⟩ = .ok () m' ∧ m'.assembler.code.toList = code ∧
      Machine.run ⟨fun _ => 0x8000000000000000#64, fun _ => 0, .ofSum 0#8 0#8⟩ code = some p' ∧
      p'.flags.overflow = true ∧ p'.flags.exit? [(.target, .less)] = some .target ∧
      Ternary.jumpIfLess.taken? 8 0x10000000000 (-0x8000000000000000) = some true := by
  obtain ⟨taken, exits, decided, jumps, agrees, emitted⟩ :=
    @foldedAsCompared .jumpIfLess rfl rfl 8 0x10000000000#64 0x8000000000000000#64
  cases jumps
  have less : Ternary.jumpIfLess.taken? 8 0x10000000000 (-0x8000000000000000) = some true := by decide
  have same : taken = true := Option.some.inj (decided.symm.trans less)
  obtain ⟨code, p', appended, ran, flags⟩ := @emitted _ .pool (.constant (.immediate 0x10000000000))
    (.register rax) ⟨{}, [rsi]⟩ _ ⟨fun _ => 0x8000000000000000#64, fun _ => 0, .ofSum 0#8 0#8⟩
    rfl (fun r l lent => by cases lent; decide) rfl rfl
  exact ⟨_, code, p', rfl, appended, ran, by rw [flags]; decide, by rw [flags]; exact agrees.mpr same, less⟩

end Lowering.X64
