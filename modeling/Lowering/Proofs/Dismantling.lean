import Lowering.Proofs.Assembling
import Lowering.Proofs.Machine
/-!
Taking a frame down for a tail call.

The return address moves up or down with the arguments, and the saved frame pointer is read after that. The word that
the return address moves to is another one than that of the frame pointer, because arguments take an even number of
words. The surrogates are stored last, from a stack pointer that is already the caller's, into the words where the
return address and the frame pointer were.
-/
namespace Lowering.X64

open Build

variable {σ τ : Type} {lender : ScratchSource σ} {l l' : σ} {f g : Machine → Machine}

/-! Instructions that always do the same. -/

/-- The work appends instructions that take every machine where `f` says. What else the work changes is seen from the
assembler it begins and ends with. -/
def Performs (act : EStateM Error τ Unit) (before after : Assembler → τ) (f : Machine → Machine) : Prop :=
  ∃ code, (∀ s, ∃ s', act (before s) = .ok () (after s') ∧ s'.code.toList = s.code.toList ++ code) ∧
    ∀ p, Machine.run p code = some (f p)

abbrev Asm.Performs (act : Asm Unit) (f : Machine → Machine) : Prop := X64.Performs act id id f

abbrev Emit.Performs (act : Emit σ Unit) (l l' : σ) (f : Machine → Machine) : Prop :=
  X64.Performs act (Emission.mk · l) (Emission.mk · l') f

namespace Performs

variable {act act' : EStateM Error τ Unit} {before between after : Assembler → τ}

theorem nothing : Performs (pure ()) before before id := ⟨[], fun s => ⟨s, rfl, by simp⟩, fun _ => rfl⟩

theorem seq (first : Performs act before between f) (second : Performs act' between after g) :
    Performs (do act; act') before after (g ∘ f) := by
  obtain ⟨code, emitted, run⟩ := first
  obtain ⟨later, emitted', run'⟩ := second
  refine ⟨code ++ later, fun s => ?_, fun p => ?_⟩
  · obtain ⟨t, ok, appended⟩ := emitted s
    obtain ⟨u, ok', appended'⟩ := emitted' t
    exact ⟨u, bindOk.mpr ⟨⟨⟩, _, ok, ok'⟩, by rw [appended', appended, List.append_assoc]⟩
  · rw [Machine.runAppend, run p, Option.bind_some, run' (f p)]
    rfl

theorem become (performs : Performs act before after f) (same : ∀ p, f p = g p) : Performs act before after g :=
  funext same ▸ performs

theorem lift {act : Asm Unit} (performs : Asm.Performs act f) (l : σ) : Emit.Performs (liftM act) l l f := by
  obtain ⟨code, emitted, run⟩ := performs
  refine ⟨code, fun s => ?_, run⟩
  obtain ⟨s', ok, appended⟩ := emitted s
  exact ⟨s', liftOk.mpr ⟨s', ok, rfl⟩, appended⟩

theorem temporary {act : Register → Asm Unit} {t : Register} (lent : lender.acquire generalRegisters l = .ok t l')
    (performs : Asm.Performs (act t) f) : Emit.Performs (withTemporary lender act) l (lender.release t l') f := by
  obtain ⟨code, emitted, run⟩ := performs
  refine ⟨code, fun s => ?_, run⟩
  obtain ⟨s', ok, appended⟩ := emitted s
  exact ⟨s', temporaryOk.mpr ⟨t, l', lent, s', ok, rfl⟩, appended⟩

end Performs

namespace Asm

theorem performsEmit {i : Instruction} (step : ∀ p, Machine.step p i = some (f p)) : Performs (emit i) f :=
  ⟨[i], fun s => ⟨s.push i, rfl, Array.toList_push⟩, fun p => Machine.runStep (step p)⟩

theorem registerCases {r : Register} (inside : r < 32) :
    (isFloat r = false ∧ isGeneral r = true) ∨ (isFloat r = true ∧ Reg.register ⟨r - xmm0, .float⟩ = r) := by
  rcases Nat.lt_or_ge r 16 with low | high
  · exact .inl ⟨by simp [isFloat, Nat.not_le.mpr low], decide_eq_true low⟩
  · exact .inr ⟨by simp [isFloat, high, Nat.le_of_lt_succ inside], Nat.sub_add_cancel high⟩

theorem performsLoad {r : Register} {m : MemoryRef} (inside : r < 32) :
    Performs (load 8 m 8 r) fun p => p.setRegister r (p.memory.word (p.address m)) := by
  obtain ⟨float, general⟩ | ⟨float, name⟩ := registerCases inside
  · have one : load 8 m 8 r = emit (.move .qword ⟨r, .general .qword⟩ (.mem m)) := by
      simp [load, float, arithmetic, Asm.general, general]
      rfl
    rw [one]
    exact performsEmit fun p => rfl
  · have one : load 8 m 8 r = emit (.sse (.load .double) ⟨r - xmm0, .float⟩ (.mem m)) := by
      simp [load, float, Asm.float]
      rfl
    rw [one]
    exact performsEmit fun p => by rw [Machine.step, name]

theorem performsStore {r : Register} {m : MemoryRef} (inside : r < 32) :
    Performs (store r 8 m) fun p => p.storeWord (p.address m) (p.registers r) := by
  obtain ⟨float, general⟩ | ⟨float, name⟩ := registerCases inside
  · have one : store r 8 m = emit (.store .qword m ⟨r, .general .qword⟩) := by
      simp [store, float, sized, Asm.general, general]
      rfl
    rw [one]
    exact performsEmit fun p => rfl
  · have one : store r 8 m = emit (.storeFloat .double m ⟨r - xmm0, .float⟩) := by
      simp [store, float, Asm.float]
      rfl
    rw [one]
    exact performsEmit fun p => by rw [Machine.step, name]

end Asm

/-! Frames. -/

namespace Machine

def stackAddress (p : Machine) (words : Int) : Word := p.registers rsp + BitVec.ofInt 64 (words * wordSize)

def storeSurrogate (p : Machine) (words : Int) (surrogate : Option Register) : Machine :=
  { p with memory := p.memory.overwrite (p.stackAddress words) (surrogate.map p.registers) }

def raiseStack (p : Machine) (bytes : Int) : Machine :=
  { p.setRegister rsp (p.registers rsp + BitVec.ofInt 64 bytes) with
    flags := .ofSum (p.registers rsp) (BitVec.ofInt 64 bytes) }

/-- Moves the return address by way of a temporary, restores the frame pointer and drops the frame. -/
def shiftFrame (p : Machine) (words : Nat) (offset : Int) (temporary : Register) : Machine :=
  let fetched := p.setRegister temporary (p.memory.word (p.stackAddress (words + 1)))
  let moved := fetched.storeWord (fetched.stackAddress (words - offset + 1)) (fetched.registers temporary)
  let restored := moved.setRegister rbp (moved.memory.word (moved.stackAddress words))
  restored.raiseStack ((words - offset + 1) * wordSize)

/-- Takes down a frame of `words` words whose arguments move by `offset` words. -/
def dropFrame (p : Machine) (words : Nat) (offset : Int) (returnAddress framePointer : Option Register)
    (temporary : Register) : Machine :=
  ((p.shiftFrame words offset temporary).storeSurrogate offset returnAddress).storeSurrogate (offset - 1) framePointer

end Machine

theorem performsAt {words : Int} {rest : MemoryRef → Emit σ Unit} (near : fitsSigned 32 (words * wordSize) = true)
    (performs : Emit.Performs (rest ⟨rsp, words * wordSize, none, 1⟩) l l' f) :
    Emit.Performs (do rest (← Asm.stackWord words)) l l' f := by
  have given : Asm.stackWord words = pure ⟨rsp, words * wordSize, none, 1⟩ := if_pos near
  rw [given]
  exact performs

theorem addressStack (p : Machine) (words : Int) : p.address ⟨rsp, words * wordSize, none, 1⟩ = p.stackAddress words :=
  BitVec.add_zero _

theorem performsSurrogate {words : Int} {r : Register} {rest : Emit σ Unit} (inside : r < 32)
    (near : fitsSigned 32 (words * wordSize) = true) (last : Emit.Performs rest l l' g) :
    Emit.Performs (do
      Asm.store r 8 (← Asm.stackWord words)
      rest) l l' fun p => g (p.storeSurrogate words (some r)) := by
  refine (performsAt near (((Asm.performsStore inside).lift _).seq last)).become fun p => ?_
  simp only [Function.comp, addressStack]
  rfl

theorem fitsIff {v : Int} : fitsSigned 32 v = true ↔ -2 ^ 31 ≤ v ∧ v < 2 ^ 31 := by
  rw [fitsSigned, beq_iff_eq]
  constructor
  · intro same
    exact ⟨same ▸ Int.le_bmod (m := modulus 32) (by decide), same ▸ Int.bmod_lt (m := modulus 32) (by decide)⟩
  · rintro ⟨low, high⟩
    exact Int.bmod_eq_of_le (m := modulus 32) low high

structure Near (words : Nat) (offset : Int) (returnAddress framePointer : Option Register) : Prop where
  source : fitsSigned 32 ((words + 1) * wordSize) = true
  target : fitsSigned 32 ((words - offset + 1) * wordSize) = true
  returnAddress : returnAddress.isSome → fitsSigned 32 (offset * wordSize) = true
  framePointer : framePointer.isSome → fitsSigned 32 ((offset - 1) * wordSize) = true

variable {words : Nat} {offset : Int} {returnAddress framePointer : Option Register} {t : Register}

theorem Near.saved (near : Near words offset returnAddress framePointer) : fitsSigned 32 (words * wordSize) = true := by
  have source := fitsIff.mp near.source
  refine fitsIff.mpr ?_
  simp only [wordSize] at source ⊢
  omega

theorem performsShift (lent : lender.acquire generalRegisters l = .ok t l') (inside : t < 32)
    (near : Near words offset returnAddress framePointer) {rest : Emit σ Unit}
    (last : Emit.Performs rest (lender.release t l') (lender.release t l') g) :
    Emit.Performs (do
      let source ← Asm.stackWord (words + 1)
      let target ← Asm.stackWord (words - offset + 1)
      withTemporary lender fun t => do
        Asm.load 8 source 8 t
        Asm.store t 8 target
      Asm.load 8 (← Asm.stackWord words) 8 rbp
      Asm.emit (.aluImm .add .qword (.reg (.whole rsp)) target.offset)
      rest) l (lender.release t l') fun p => g (p.shiftFrame words offset t) := by
  refine Performs.become (performsAt near.source (performsAt near.target ((Performs.temporary lent
    ((Asm.performsLoad inside).seq (Asm.performsStore inside))).seq (performsAt near.saved
      (((Asm.performsLoad (r := rbp) (by decide)).lift _).seq (((Asm.performsEmit fun p => rfl).lift _).seq last)))))) ?_
  intro p
  simp only [Function.comp, addressStack]
  rfl

theorem performsPopFrame (lent : lender.acquire generalRegisters l = .ok t l') (inside : t < 32)
    (near : Near words offset returnAddress framePointer)
    (surrogates : ∀ r, r ∈ returnAddress ∨ r ∈ framePointer → r < 32) :
    Emit.Performs (popFrameShifted lender words offset returnAddress framePointer) l (lender.release t l')
      (·.dropFrame words offset returnAddress framePointer t) := by
  have shift {rest : Emit σ Unit} {g : Machine → Machine} (last : Emit.Performs rest _ _ g) :=
    performsShift lent inside near last
  have last (r : Register) (saved : framePointer = some r) :
      Emit.Performs (do Asm.store r 8 (← Asm.stackWord (offset - 1))) (lender.release t l') (lender.release t l')
        (·.storeSurrogate (offset - 1) (some r)) := by
    refine (performsAt (near.framePointer (saved ▸ rfl)) ((Asm.performsStore (surrogates r (.inr saved))).lift _)).become fun p => ?_
    simp only [addressStack]
    rfl
  unfold popFrameShifted
  cases returnAddress with
  | none =>
    cases framePointer with
    | none => exact shift Performs.nothing
    | some r => exact shift (last r rfl)
  | some r =>
    have first {rest : Emit σ Unit} {g : Machine → Machine} (last : Emit.Performs rest _ _ g) :=
      shift (performsSurrogate (surrogates r (.inl rfl)) (near.returnAddress rfl) last)
    cases framePointer with
    | none => exact first Performs.nothing
    | some r => exact first (last r rfl)

/-! The frame that is left. -/

namespace Machine

open Memory (InWord)

/-- What taking a frame down does: the stack pointer is at the return address in its new place, the frame pointer is
the saved one, and the surrogates are where the return address and the frame pointer were. No other memory changes. -/
structure Drops (p p' : Machine) (words : Nat) (offset : Int) (returnAddress framePointer : Option Register)
    (temporary : Register) : Prop where
  top : p'.registers rsp = p.stackAddress (words + 1 - offset)
  back : p'.memory.word (p.stackAddress (words + 1 - offset)) = p.memory.word (p.stackAddress (words + 1))
  frame : p'.registers rbp = p.memory.word (p.stackAddress words)
  returns : ∀ r ∈ returnAddress, p'.memory.word (p.stackAddress (words + 1)) = p.registers r
  points : ∀ r ∈ framePointer, p'.memory.word (p.stackAddress words) = p.registers r
  rest : ∀ x, ¬ InWord (p.stackAddress (words + 1 - offset)) x →
    (returnAddress.isSome → ¬ InWord (p.stackAddress (words + 1)) x) →
    (framePointer.isSome → ¬ InWord (p.stackAddress words) x) → p'.memory x = p.memory x
  registers : ∀ r ∉ [temporary, rsp, rbp], p'.registers r = p.registers r

variable {p : Machine}

theorem stackAddressSetRegister {r : Register} {w : Word} {k : Int} (apart : r ≠ rsp) :
    (p.setRegister r w).stackAddress k = p.stackAddress k := by
  rw [stackAddress, stackAddress, setRegisterOther apart.symm]

@[simp] theorem stackAddressStoreWord {a w : Word} {k : Int} : (p.storeWord a w).stackAddress k = p.stackAddress k := rfl

theorem shiftMoves (near : Near words offset returnAddress framePointer) (apart : t ≠ rsp) (even : offset ≠ 1) :
    (p.shiftFrame words offset t).memory =
        p.memory.writeWord (p.stackAddress (words + 1 - offset)) (p.memory.word (p.stackAddress (words + 1))) ∧
      (p.shiftFrame words offset t).registers rsp = p.stackAddress (words + 1 - offset) ∧
      (p.shiftFrame words offset t).registers rbp = p.memory.word (p.stackAddress words) ∧
      ∀ r ∉ [t, rsp, rbp], (p.shiftFrame words offset t).registers r = p.registers r := by
  have source := fitsIff.mp near.source
  have target := fitsIff.mp near.target
  have index : (words : Int) - offset + 1 = words + 1 - offset := by ring
  simp only [wordSize, index] at source target
  have saved : (p.memory.writeWord (p.stackAddress (words + 1 - offset)) (p.memory.word (p.stackAddress (words + 1)))).word
      (p.stackAddress words) = p.memory.word (p.stackAddress words) :=
    Memory.wordBeside (by omega) (by omega) (by omega)
  unfold shiftFrame raiseStack
  simp only [index, stackAddressSetRegister apart, setRegisterSame, setRegisterMemory, storeWordMemory,
    stackAddressStoreWord, saved]
  have below : (rsp : Register) ≠ rbp := by decide
  refine ⟨trivial, ?_, ?_, fun r other => ?_⟩
  · rw [setRegisterOther below, storeWordRegisters, setRegisterOther apart.symm]
    rfl
  · rw [setRegisterOther below.symm, setRegisterSame]
  · simp only [List.mem_cons, List.not_mem_nil, or_false, not_or] at other
    rw [setRegisterOther other.2.1, setRegisterOther other.2.2, storeWordRegisters, setRegisterOther other.1]

theorem dropFrameMemory (near : Near words offset returnAddress framePointer) (apart : t ≠ rsp) (even : offset ≠ 1)
    (surrogates : ∀ r, r ∈ returnAddress ∨ r ∈ framePointer → r ∉ [t, rsp, rbp]) :
    (p.dropFrame words offset returnAddress framePointer t).memory =
      ((p.memory.writeWord (p.stackAddress (words + 1 - offset)) (p.memory.word (p.stackAddress (words + 1)))).overwrite
        (p.stackAddress (words + 1)) (returnAddress.map p.registers)).overwrite (p.stackAddress words)
          (framePointer.map p.registers) := by
  obtain ⟨memory, top, -, registers⟩ := shiftMoves (p := p) near apart even
  have address (k n : Int) (same : words + 1 - offset + k = n) :
      (p.shiftFrame words offset t).stackAddress k = p.stackAddress n := by
    rw [stackAddress, top, stackAddress, stackAddress, BitVec.add_assoc, ← BitVec.ofInt_add, ← Int.add_mul, same]
  have held (s : Option Register) (either : ∀ r ∈ s, r ∈ returnAddress ∨ r ∈ framePointer) :
      s.map (p.shiftFrame words offset t).registers = s.map p.registers :=
    Option.map_congr fun r inside => registers r (surrogates r (either r inside))
  have first := held returnAddress fun r inside => .inl inside
  have second := held framePointer fun r inside => .inr inside
  rw [← memory, ← first, ← second, ← address offset (words + 1) (by ring), ← address (offset - 1) words (by ring)]
  rfl

theorem stackWordLasts {m : Memory} {o : Option Word} {j k : Int} (apart : j ≠ k) (low : -2 ^ 60 ≤ k - j - 1)
    (high : k - j + 1 < 2 ^ 60) :
    (m.overwrite (p.stackAddress j) o).word (p.stackAddress k) = m.word (p.stackAddress k) :=
  Memory.wordBesideOverwrite apart low high

theorem dropFrameDrops (near : Near words offset returnAddress framePointer) (apart : t ≠ rsp)
    (moves : offset ≠ 0) (even : offset % 2 = 0)
    (surrogates : ∀ r, r ∈ returnAddress ∨ r ∈ framePointer → r ∉ [t, rsp, rbp]) :
    p.Drops (p.dropFrame words offset returnAddress framePointer t) words offset returnAddress framePointer t := by
  have odd : offset ≠ 1 := by omega
  have memory := dropFrameMemory (p := p) near apart odd surrogates
  obtain ⟨-, top, frame, registers⟩ := shiftMoves (p := p) near apart odd
  have source := fitsIff.mp near.source
  have target := fitsIff.mp near.target
  simp only [wordSize] at source target
  refine ⟨top, ?_, frame, fun r inside => ?_, fun r inside => ?_, fun x one two three => ?_, registers⟩
  · rw [memory, stackWordLasts, stackWordLasts, Memory.wordWriteWord]
    all_goals omega
  · rw [memory, stackWordLasts (by omega) (by omega) (by omega)]
    exact Memory.wordOverwrite (Option.mem_map_of_mem _ inside)
  · rw [memory]
    exact Memory.wordOverwrite (Option.mem_map_of_mem _ inside)
  · rw [memory, Memory.overwriteOutside (by simpa using three), Memory.overwriteOutside (by simpa using two)]
    exact Memory.writeWordOutside one

end Machine

/-- The frame pop of a tail call drops the frame, for every lender, every temporary it lends and every machine. The
temporary is given back. -/
theorem tailCallDropsFrame (lent : lender.acquire generalRegisters l = .ok t l') (inside : t < 32) (apart : t ≠ rsp)
    (moves : offset ≠ 0) (even : offset % 2 = 0) (near : Near words offset returnAddress framePointer)
    (surrogates : ∀ r, r ∈ returnAddress ∨ r ∈ framePointer → r < 32 ∧ r ∉ [t, rsp, rbp]) :
    ∃ code, (∀ a, ∃ a', emit lender (.popFrame words offset returnAddress framePointer) ⟨a, l⟩ =
        .ok () ⟨a', lender.release t l'⟩ ∧ a'.code.toList = a.code.toList ++ code) ∧
      ∀ p, ∃ p', Machine.run p code = some p' ∧ p.Drops p' words offset returnAddress framePointer t := by
  obtain ⟨code, emitted, run⟩ := performsPopFrame lent inside near fun r either => (surrogates r either).1
  have shifted : emit lender (.popFrame words offset returnAddress framePointer) =
      popFrameShifted lender words offset returnAddress framePointer := if_neg (by simpa using moves)
  refine ⟨code, shifted ▸ emitted, fun p => ⟨_, run p, ?_⟩⟩
  exact Machine.dropFrameDrops near apart moves even fun r either => (surrogates r either).2

/- The arguments shrink by two words, and both surrogates are stored. -/
theorem shrinkingFrameDropped :
    ∃ a' p', emit .pool (.popFrame 2 2 (some rcx) (some rdx)) ⟨{}, [rsi]⟩ = .ok () ⟨a', [rsi]⟩ ∧
      Machine.run ⟨fun r => if r = rsp then 0x1000#64 else BitVec.ofNat 64 r, fun x => UInt8.ofNat x.toNat,
        .ofSum 0#8 0#8⟩ a'.code.toList = some p' ∧
      p'.registers rsp = 0x1008#64 ∧ p'.memory.word 0x1008#64 = 0x1F1E1D1C1B1A1918#64 ∧
      p'.registers rbp = 0x1716151413121110#64 ∧ p'.memory.word 0x1018#64 = 1#64 ∧
      p'.memory.word 0x1010#64 = 2#64 := by
  obtain ⟨code, emitted, dropped⟩ := @tailCallDropsFrame _ .pool [rsi] [] 2 2 (some rcx) (some rdx) rsi
    rfl (by decide) (by decide) (by decide) (by decide)
    ⟨by decide, by decide, fun _ => by decide, fun _ => by decide⟩ (fun r either => by
      simp only [Option.mem_some] at either
      rcases either with rfl | rfl <;> decide)
  obtain ⟨a', ok, appended⟩ := emitted {}
  obtain ⟨p', ran, drops⟩ := dropped ⟨fun r => if r = rsp then 0x1000#64 else BitVec.ofNat 64 r,
    fun x => UInt8.ofNat x.toNat, .ofSum 0#8 0#8⟩
  refine ⟨a', p', ok, appended ▸ ran, drops.top, drops.back.trans ?_, drops.frame.trans ?_, drops.returns rcx rfl,
    drops.points rdx rfl⟩
  · decide
  · decide

end Lowering.X64
