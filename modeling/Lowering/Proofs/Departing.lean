import Lowering.Proofs.Calling
import Lowering.Proofs.Execution
import Lowering.Proofs.Retaining
/-!
Jumps that replace the frame.

A tail call takes the frame down and then jumps. By then the stack pointer and the frame pointer are those
of the caller, and so what is to be read then is only what it was before if it is not found through one of
them. The address of a call is asked for wherever an operand of a call may be, the frame included.
-/
namespace Lowering

open State Build

variable {s s' t : State} {e : EventId} {c : CallEvent} {p p' : Processor} {a : Operand} {w x : Word}

def Operand.IsAt (p : Processor) (x : Word) (a : Operand) : Prop := ∃ m, a = .memory m ∧ p.address m = x

namespace Processor

def stackAddress (p : Processor) (words : Int) : Word := p.registers X64.rsp + BitVec.ofInt 64 (words * wordSize)

def storeSurrogate (p : Processor) (words : Int) : Option Register → Processor
  | some r => p.store (p.stackAddress words) (p.registers r)
  | none => p

/-- Takes down a frame of `words` words. If the arguments have to move, the return address moves with them by way
of a temporary register, and the surrogates are stored when the frame is gone. -/
def dropFrame (p : Processor) (words : Nat) (offset : Int) (returnAddress framePointer : Option Register)
    (temporary : Register) : Option Processor :=
  if offset = 0 then do
    let saved ← p.memory (p.registers X64.rbp)
    return (p.setRegister X64.rsp (p.registers X64.rbp + 8#64)).setRegister X64.rbp saved
  else do
    let top := p.stackAddress (words - offset + 1)
    let back ← p.memory (p.stackAddress (words + 1))
    let moved := (p.setRegister temporary back).store top back
    let saved ← moved.memory (p.stackAddress words)
    let dropped := (moved.setRegister X64.rbp saved).setRegister X64.rsp top
    return (dropped.storeSurrogate offset returnAddress).storeSurrogate (offset - 1) framePointer

def overwrites (p : Processor) (words : Nat) (offset : Int) (returnAddress framePointer : Option Register) : List Word :=
  if offset = 0 then []
  else
    let top := p.stackAddress (words - offset + 1)
    top :: returnAddress.toList.map (fun _ => top + BitVec.ofInt 64 (offset * wordSize))
      ++ framePointer.toList.map (fun _ => top + BitVec.ofInt 64 ((offset - 1) * wordSize))

theorem registersSetRegister {r : Register} : (p.setRegister r w).registers r = w := by simp [setRegister]

theorem addressSetRegister {m : MemoryRef} {r : Register} (apart : r ∉ m.registers) :
    (p.setRegister r w).address m = p.address m := by
  have base : m.base ≠ r := fun same => apart (same ▸ List.mem_cons_self)
  have index : ∀ i ∈ m.index, i ≠ r := fun i inside same =>
    apart (List.mem_cons_of_mem _ (by rw [← same]; simpa using inside))
  unfold address setRegister
  cases scaled : m.index with
  | none => simp [Function.update_of_ne base]
  | some i => simp [Function.update_of_ne base, Function.update_of_ne (index i scaled)]

theorem readSetRegister {r : Register} (apart : r ∉ a.registers) : (p.setRegister r w).read a = p.read a := by
  cases a with
  | register n => exact congrArg some (Function.update_of_ne (fun same => apart (List.mem_singleton.mpr same.symm)) ..)
  | memory m => exact congrArg p.memory (addressSetRegister apart)
  | constant k | address k => cases k <;> rfl

theorem readStore (apart : ¬ a.IsAt p x) : (p.store x w).read a = p.read a := by
  cases a with
  | memory m => exact Function.update_of_ne (fun same => apart ⟨m, rfl, same⟩) ..
  | register => rfl
  | constant k | address k => cases k <;> rfl

theorem isAtSetRegister {r : Register} (apart : r ∉ a.registers) : a.IsAt (p.setRegister r w) x ↔ a.IsAt p x := by
  refine exists_congr fun m => and_congr_right fun same => ?_
  rw [addressSetRegister]
  rwa [same] at apart

theorem isAtStore {y : Word} : a.IsAt (p.store y w) x ↔ a.IsAt p x := .rfl

theorem isAtStoreSurrogate {words : Int} {surrogate : Option Register} :
    a.IsAt (p.storeSurrogate words surrogate) x ↔ a.IsAt p x := by
  cases surrogate <;> exact .rfl

theorem stackAddressStoreSurrogate {words words' : Int} {surrogate : Option Register} :
    (p.storeSurrogate words surrogate).stackAddress words' = p.stackAddress words' := by
  cases surrogate <;> rfl

theorem readStoreSurrogate {words : Int} {surrogate : Option Register}
    (apart : ∀ r ∈ surrogate, ¬ a.IsAt p (p.stackAddress words)) : (p.storeSurrogate words surrogate).read a = p.read a := by
  cases surrogate with
  | none => rfl
  | some r => exact readStore (apart r rfl)

/- Whatever is not found through the stack pointer, the frame pointer or the temporary, and is not stored to, is still
there. -/
theorem readDropFrame {words : Nat} {offset : Int} {returnAddress framePointer : Option Register} {temporary : Register}
    (dropped : p.dropFrame words offset returnAddress framePointer temporary = some p')
    (registers : ∀ r ∈ [X64.rsp, X64.rbp, temporary], r ∉ a.registers)
    (stored : ∀ x ∈ p.overwrites words offset returnAddress framePointer, ¬ a.IsAt p x) : p'.read a = p.read a := by
  have stack := registers X64.rsp (by simp)
  have frame := registers X64.rbp (by simp)
  unfold dropFrame at dropped
  unfold overwrites at stored
  by_cases still : offset = 0
  · rw [if_pos still] at dropped
    obtain ⟨saved, -, same⟩ := Option.bind_eq_some_iff.mp dropped
    cases same
    rw [readSetRegister frame, readSetRegister stack]
  · rw [if_neg still] at dropped stored
    obtain ⟨back, -, dropped⟩ := Option.bind_eq_some_iff.mp dropped
    obtain ⟨saved, -, same⟩ := Option.bind_eq_some_iff.mp dropped
    cases same
    generalize p.stackAddress (words - offset + 1) = top at stored ⊢
    have moved : ∀ x, a.IsAt ((p.setRegister temporary back).store top back) x ↔ a.IsAt p x := fun x =>
      isAtStore.trans (isAtSetRegister (registers temporary (by simp)))
    generalize below : ((((p.setRegister temporary back).store top back).setRegister X64.rbp saved).setRegister
      X64.rsp top) = q
    have found : ∀ x, a.IsAt q x ↔ a.IsAt p x := fun x => by
      rw [← below, isAtSetRegister stack, isAtSetRegister frame, moved]
    have address : ∀ words, q.stackAddress words = top + BitVec.ofInt 64 (words * wordSize) := fun words => by
      rw [← below, stackAddress, registersSetRegister]
    have dropped : q.read a = p.read a := by
      rw [← below, readSetRegister stack, readSetRegister frame, readStore, readSetRegister (registers temporary (by simp))]
      rw [isAtSetRegister (registers temporary (by simp))]
      exact stored top (by simp)
    rw [readStoreSurrogate, readStoreSurrogate, dropped]
    · intro r inside
      rw [found, address]
      exact stored _ (by simp [show returnAddress = some r from inside])
    · intro r inside
      rw [isAtStoreSurrogate, stackAddressStoreSurrogate, found, address]
      exact stored _ (by simp [show framePointer = some r from inside])

end Processor

namespace Compile

/-! What is emitted for a tail call. -/

/-- The words by which the arguments of a tail call are more than those of the method. -/
def argumentGrowth (s : State) (c : CallEvent) : Int :=
  s.machine.argumentFootprint c.argumentFootprint - s.machine.argumentFootprint s.parameterFootprint

theorem holdSurrogateKeeps {v : Option ValueId} {r : Option Register} (ok : holdSurrogate v s = .ok r t) :
    t = { s with resources := t.resources } := by
  cases v with
  | none =>
    obtain ⟨-, rfl⟩ := pureOk.mp ok
    rfl
  | some v =>
    obtain ⟨i, u, source, holds⟩ := bindOk.mp ok
    obtain ⟨n, u', register, discards⟩ := bindOk.mp holds
    obtain ⟨⟨⟩, u'', discarded, ends⟩ := bindOk.mp discards
    obtain ⟨j, held⟩ := discardOk.mp discarded
    obtain ⟨⟨⟩, u₃, frozen, same⟩ := bindOk.mp held
    cases modifyOk.mp frozen
    have last : t = u'.freezeSite i := (pureOk.mp ends).2.symm.trans (pureOk.mp same).2.symm
    rw [last, (registerOfNumber register).2, (sourceOfOk.mp source).2]
    exact freezeSiteRest ..

theorem dropFrameEmits (records : s.Records) (ok : dropFrame c s = .ok () t) :
    ∃ returnAddress framePointer, t = { s with resources := t.resources, emitter := t.emitter } ∧ t.Records ∧
      t.emitter.log = s.emitter.log ++ [.popFrame s.frameSize (argumentGrowth s c) returnAddress framePointer] := by
  obtain ⟨returnAddress, u, first, ok⟩ := bindOk.mp ok
  obtain ⟨framePointer, u', second, ok⟩ := bindOk.mp ok
  have kept : u' = { s with resources := u'.resources } := by
    rw [holdSurrogateKeeps second, holdSurrogateKeeps first]
  rw [getBind] at ok
  obtain ⟨rest, records, log⟩ := emitRecords (records.quiet (by rw [kept])) ok
  refine ⟨returnAddress, framePointer, ?_, records, ?_⟩
  · rw [rest, kept]
  · rw [log, kept]
    rfl

end Compile

theorem tailCallEmits (guarded : s.Guarded fun _ => True) (tail : c.tail = true) (ok : Compile.call e c s = .ok () t) :
    ∃ i a returnAddress framePointer rest, (s.value c.address).source = some i ∧ s.operand i = .ok a ∧
      t.emitter.log = s.emitter.log ++ .popFrame s.frameSize (Compile.argumentGrowth s c) returnAddress framePointer ::
        .unary (Compile.callOperation c) wordSize a :: rest := by
  have called : Compile.call e c = (do
      if c.tail then Compile.dropFrame c
      emit (.unary (Compile.callOperation c) wordSize (← sourceOperand c.address))
      Compile.finishCall e c) := rfl
  rw [called, if_pos tail] at ok
  obtain ⟨⟨⟩, u, dropped, jumps⟩ := bindOk.mp ok
  obtain ⟨returnAddress, framePointer, kept, records, log⟩ := Compile.dropFrameEmits guarded.records dropped
  obtain ⟨a, u', address, jumps'⟩ := bindOk.mp jumps
  obtain ⟨i, u'', sourced, placed⟩ := bindOk.mp address
  obtain ⟨source, rfl⟩ := sourceOfOk.mp sourced
  obtain ⟨operand, rfl⟩ := operandOfOk.mp placed
  obtain ⟨⟨⟩, v, emitted, finished⟩ := bindOk.mp jumps'
  obtain ⟨-, -, jumped⟩ := emitRecords records emitted
  have drops : (Compile.dropFrame c).Respects (fun _ => True) False := Compile.dropFrameRespects c
  have respected := drops.holds dropped guarded
  have respected := respected.trans ((emitRespects rfl).holds emitted respected.guarded)
  have finishes : (Compile.finishCall e c).Respects (fun _ => True) False := Compile.finishCallRespects e c
  obtain ⟨rest, ends, -⟩ := (finishes.holds finished respected.guarded).log
  refine ⟨i, a, returnAddress, framePointer, rest, ?_, ?_, ?_⟩
  · rw [kept] at source
    exact source
  · rw [kept] at operand
    exact operand
  · rw [ends, jumped, log]
    simp

section X64

open X64

variable {variant : Variant} {settings : Settings} {helpers : Option HelperAddress} {calls : List ClientCall}
  {handler : Option Int} {limitOffset n : Nat}

theorem guardedAt (offered : ∀ c ∈ calls, c.IsOffered)
    (reached : (do Compile.upTo handler limitOffset n; Compile.approach e : Build Unit)
      ((fresh (describe variant) settings (.recording {}) helpers).history calls) = .ok () s) :
    s.Guarded fun _ => True := by
  have fits : ∀ c ∈ calls, c.Fits fun _ => True := by
    intro c member
    have offered := offered c member
    cases c <;> exact offered
  have described := historyRespects fits (guardedFresh variant settings helpers trivial)
  have first : (Compile.upTo handler limitOffset n).Respects (fun _ => True) False :=
    .bind (Compile.prologueRespects _ _ ensureEventRespects) fun _ => .bind .get fun _ => .forM Compile.oneRespects
  exact ((Within.bind first fun _ => Compile.approachRespects e).holds reached described.guarded).guarded

/- The target of a tail call is read in the frame of the caller. It is the same unless it is in a register that
changes with the frame or in a word that is stored to, or is addressed through such a register. -/
theorem tailCallFindsItsTarget (offered : ∀ c ∈ calls, c.IsOffered)
    (reached : (do Compile.upTo handler limitOffset n; Compile.approach e : Build Unit)
      ((fresh (describe variant) settings (.recording {}) helpers).history calls) = .ok () s)
    (tail : c.tail = true) (ok : Compile.call e c s = .ok () t) :
    ∃ i a returnAddress framePointer rest, (s.value c.address).source = some i ∧ s.operand i = .ok a ∧
      t.emitter.log = s.emitter.log ++ .popFrame s.frameSize (Compile.argumentGrowth s c) returnAddress framePointer ::
        .unary (Compile.callOperation c) wordSize a :: rest ∧
      ∀ p p' temporary,
        p.dropFrame s.frameSize (Compile.argumentGrowth s c) returnAddress framePointer temporary = some p' →
        (∀ r ∈ [rsp, rbp, temporary], r ∉ a.registers) →
        (∀ x ∈ p.overwrites s.frameSize (Compile.argumentGrowth s c) returnAddress framePointer, ¬ a.IsAt p x) →
        p'.read a = p.read a := by
  obtain ⟨i, a, returnAddress, framePointer, rest, source, operand, log⟩ :=
    tailCallEmits (guardedAt offered reached) tail ok
  exact ⟨i, a, returnAddress, framePointer, rest, source, operand, log, fun _ _ _ => Processor.readDropFrame⟩

def ClientCall.departing : ClientCall := .stackCall ⟨0⟩ ⟨false, false, true, false⟩ none 0 .general 0

def ClientCall.leavingForParameter : List ClientCall :=
  [.start 1 1 1 2, .declareLocal 1 0 .general, .startInstruction 0, .departing]

def ClientCall.leavingForRegister : List ClientCall := [.start 1 0 0 2, .startInstruction 0, .register rdi, .departing]

/-- A description of a method with tail calls, by the calls of a client. -/
def State.departed (calls : List ClientCall) : State :=
  (fresh (describe {}) { tailCalls := true } (.recording {}) none).history calls

/-- Every word of memory holds its own address, and the frame pointer is two words up. -/
def Processor.plainFrame : Processor := ⟨fun r => if r = rbp then 16 else 0, some⟩

/- The parameter is in the frame of the caller, and it is looked for three words further up once the stack pointer is
there. -/
theorem tailCallMissesItsTarget : ∃ s c t a,
    (do Compile.upTo none 0 1; Compile.approach ⟨1⟩ : Build Unit) (departed ClientCall.leavingForParameter) = .ok () s ∧
      (s.event ⟨1⟩).kind = .call c ∧ c.tail = true ∧ Compile.call ⟨1⟩ c s = .ok () t ∧
      t.emitter.log = s.emitter.log ++ [.popFrame 2 0 none none, .unary .jump wordSize a] ∧
      ∃ p', Processor.plainFrame.dropFrame 2 0 none none rax = some p' ∧
        Processor.plainFrame.read a = some 32 ∧ p'.read a = some 56 := by
  obtain ⟨⟨⟩, s, reached, c, called, tail, ⟨⟩, t, ok, log⟩ :
      Reaches (do Compile.upTo none 0 1; Compile.approach ⟨1⟩ : Build Unit) (departed ClientCall.leavingForParameter)
        fun s => ∃ c ∈ (s.event ⟨1⟩).kind.call?, c.tail = true ∧ Reaches (Compile.call ⟨1⟩ c) s fun t =>
          t.emitter.log = s.emitter.log ++ [.popFrame 2 0 none none, .unary .jump wordSize (.memory ⟨rsp, 32, none, 1⟩)] := by
    decide +kernel
  have kind : (s.event ⟨1⟩).kind = .call c := by
    unfold EventKind.call? at called
    split at called <;> cases called
    assumption
  exact ⟨s, c, t, _, reached, kind, tail, ok, log, _, rfl, by decide, by decide⟩

theorem tailCallFindsRegister : ∃ s c t,
    (do Compile.upTo none 0 1; Compile.approach ⟨1⟩ : Build Unit) (departed ClientCall.leavingForRegister) = .ok () s ∧
      Compile.call ⟨1⟩ c s = .ok () t ∧
      t.emitter.log = s.emitter.log ++ [.popFrame 2 0 none none, .unary .jump wordSize (.register rdi)] ∧
      ∃ p', Processor.plainFrame.dropFrame 2 0 none none rax = some p' ∧
        p'.read (.register rdi) = Processor.plainFrame.read (.register rdi) := by
  obtain ⟨⟨⟩, s, reached, c, -, tail, ⟨⟩, t, ok, size, growth, log⟩ :
      Reaches (do Compile.upTo none 0 1; Compile.approach ⟨1⟩ : Build Unit) (departed ClientCall.leavingForRegister)
        fun s => ∃ c ∈ (s.event ⟨1⟩).kind.call?, c.tail = true ∧ Reaches (Compile.call ⟨1⟩ c) s fun t =>
          s.frameSize = 2 ∧ Compile.argumentGrowth s c = 0 ∧
          t.emitter.log = s.emitter.log ++ [.popFrame 2 0 none none, .unary .jump wordSize (.register rdi)] := by
    decide +kernel
  have offered : ∀ c ∈ ClientCall.leavingForRegister, c.IsOffered := by
    simp [ClientCall.leavingForRegister, ClientCall.departing, ClientCall.IsOffered]
  obtain ⟨i, a, returnAddress, framePointer, rest, -, -, emitted, found⟩ := tailCallFindsItsTarget offered reached tail ok
  rw [log, List.append_cancel_left_eq, size, growth] at emitted
  simp only [List.cons.injEq, Request.popFrame.injEq, Request.unary.injEq] at emitted
  obtain ⟨⟨-, -, rfl, rfl⟩, ⟨-, -, rfl⟩, -⟩ := emitted
  rw [size, growth] at found
  exact ⟨s, c, t, reached, ok, log, _, rfl, found _ _ rax rfl (by decide) fun _ inside => absurd inside List.not_mem_nil⟩

end X64

end Lowering
